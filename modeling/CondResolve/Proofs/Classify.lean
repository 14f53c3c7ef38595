import CondResolve.Line.Classify
import CondResolve.Machine
import CondResolve.Proofs.Reading

/-!
# Directives on a line of their own

A directive that is not dodgy starts and ends its line in code, so that it can be taken out or put in
without a change to how the lines around it are read. What an edit makes of it reads as the directive it
stands for.
-/

namespace CondResolve

section
variable {s : Settings} {t : Table} {v : View} {lx lk lx' : Lexical} {line w : Chars} {c : Classified}

/-! ## What a line can come to -/

theorem mapError_eq_ok {α β γ : Type} {x : Except α γ} {f : α → β} {a : γ} :
    x.mapError f = .ok a ↔ x = .ok a := by
  cases x <;> constructor <;> intro h <;> cases h <;> rfl

theorem bind_eq_ok {α β γ : Type} {x : Except α β} {f : β → Except α γ} {a : γ} :
    (x >>= f) = .ok a ↔ ∃ b, x = .ok b ∧ f b = .ok a := by
  cases x <;> simp [bind, Except.bind]

theorem classify_eq_ok_iff : classify s t v lx line = .ok c ↔
    ∃ lk w, findKeyword v.verbatim lx line = .ok (lk, w) ∧
      ((w = [] ∧ c = { kind := .plain, line, lex := lk }) ∨
      (w ≠ [] ∧ judge s t v lk w = .ok none ∧ afterContinuation? (afterSymbol w) = none ∧
        ∃ lx', skipLine v.verbatim lk (afterSymbol w) = .ok lx' ∧ c = { kind := .plain, line, lex := lx' }) ∨
      (w ≠ [] ∧ ∃ j lx' d, judge s t v lk w = .ok (some j) ∧ finish v j = .ok (lx', d) ∧
        c = settleLine s v (lx.mode ≠ .code) (line.length - w.length) line j lx' d)) := by
  unfold classify
  simp only [bind_eq_ok, mapError_eq_ok, Prod.exists]
  refine exists_congr fun lk => exists_congr fun w => and_congr_right fun _ => ?_
  cases w with
  | nil => simp [pure, Except.pure, eq_comm]
  | cons a w =>
    simp only [List.isEmpty_cons, Bool.false_eq_true, if_false, bind_eq_ok, mapError_eq_ok]
    constructor
    · rintro ⟨_ | j, hj, h⟩
      · simp only at h
        split at h
        · cases h
        · rename_i hc
          obtain ⟨lx', hs, h⟩ := bind_eq_ok.mp h
          cases h
          exact .inr (.inl ⟨by simp, hj, by simpa using hc, lx', mapError_eq_ok.mp hs, rfl⟩)
      · simp only [bind_eq_ok, mapError_eq_ok, Prod.exists] at h
        obtain ⟨lx', d, hf, h⟩ := h
        cases h
        exact .inr (.inr ⟨by simp, j, lx', d, hj, hf, rfl⟩)
    · rintro (⟨h, -⟩ | ⟨-, hj, hc, lx', hs, rfl⟩ | ⟨-, j, lx', d, hj, hf, rfl⟩)
      · cases h
      · refine ⟨none, hj, ?_⟩
        simp only [hc, Option.isSome_none, Bool.false_eq_true, if_false]
        exact bind_eq_ok.mpr ⟨lx', mapError_eq_ok.mpr hs, rfl⟩
      · exact ⟨some j, hj, bind_eq_ok.mpr ⟨(lx', d), mapError_eq_ok.mpr hf, rfl⟩⟩

/-! ## Keywords -/

theorem afterWord?_eq_some {word cs r : Chars} :
    afterWord? word cs = some r ↔ cs = word ++ r ∧ endsSymbol r = true := by
  unfold afterWord?
  constructor
  · intro h
    split at h
    · rename_i hw
      cases h
      simp only [Bool.and_eq_true, List.isPrefixOf_iff_prefix] at hw
      obtain ⟨⟨r, rfl⟩, he⟩ := hw
      simpa using he
    · cases h
  · rintro ⟨rfl, he⟩
    simp [he, List.isPrefixOf_iff_prefix]

theorem judge_cases {j : Judged} (h : judge s t v lk w = .ok (some j)) :
    (∃ negated r, (w = "ifdef".toList ++ r ∨ w = "ifndef".toList ++ r) ∧ judgeTest s t v negated lk r = .ok j) ∨
    (∃ r, w = "if".toList ++ r ∧ judgeCondition s t v .opening lk r = .ok j) ∨
    (∃ r, w = "elif".toList ++ r ∧ judgeCondition s t v .elif lk r = .ok j) ∨
    (∃ r, w = "else".toList ++ r ∧ j = ⟨.otherwise, lk, r, [], []⟩) ∨
    (∃ r, w = "endif".toList ++ r ∧ endsSymbol r = true ∧ j = ⟨.closing, lk, r, [], []⟩) := by
  have some_map : ∀ {x : Except Broken Judged}, some <$> x = .ok (some j) → x = .ok j := by
    intro x hx
    cases x <;> cases hx
    rfl
  unfold judge at h
  simp only at h
  split at h
  · rename_i r hr
    exact .inl ⟨_, r, .inl (afterWord?_eq_some.mp hr).1, some_map h⟩
  · split at h
    · rename_i r hr
      exact .inl ⟨_, r, .inr (afterWord?_eq_some.mp hr).1, some_map h⟩
    · split at h
      · rename_i r hr
        exact .inr (.inl ⟨r, (afterWord?_eq_some.mp hr).1, some_map h⟩)
      · split at h
        · rename_i r hr
          exact .inr (.inr (.inl ⟨r, (afterWord?_eq_some.mp hr).1, some_map h⟩))
        · split at h
          · rename_i r hr
            cases h
            exact .inr (.inr (.inr (.inl ⟨r, (afterWord?_eq_some.mp hr).1, rfl⟩)))
          · split at h
            · rename_i r hr
              cases h
              obtain ⟨hw, he⟩ := afterWord?_eq_some.mp hr
              exact .inr (.inr (.inr (.inr ⟨r, hw, he, rfl⟩)))
            · cases h

def formOf : Chars → Directive
  | 'i' :: _ => .opening .unknown
  | 'e' :: 'l' :: 'i' :: _ => .elif .unknown
  | 'e' :: 'l' :: _ => .otherwise
  | _ => .closing

theorem untrusted_testFor (negated : Bool) (name : String) :
    (testFor s t negated name).untrusted = .opening .unknown := by
  unfold testFor
  split
  · rfl
  · simp only
    split <;> rfl

/-- A test is for the symbol after the gap, if there is one. -/
theorem judgeTest_eq_ok {negated : Bool} {r : Chars} {j : Judged} (h : judgeTest s t v negated lk r = .ok j) :
    ∃ ly rest, skip v.verbatim lk r = .ok (ly, rest) ∧
      ((symbolOf rest = [] ∧ j = ⟨.opening .unknown, ly, rest, [], []⟩) ∨
      (symbolOf rest ≠ [] ∧ j = ⟨testFor s t negated (String.ofList (symbolOf rest)), ly, afterSymbol rest,
        [String.ofList (symbolOf rest)], []⟩)) := by
  obtain ⟨⟨ly, rest⟩, hs, hj⟩ := bind_eq_ok.mp h
  refine ⟨ly, rest, hs, ?_⟩
  simp only at hj
  split at hj <;> cases hj
  · rename_i hn
    exact .inl ⟨List.isEmpty_iff.mp hn, rfl⟩
  · rename_i hn
    exact .inr ⟨fun he => hn (List.isEmpty_iff.mpr he), rfl⟩

/-- A condition is read and evaluated, or left unread after a fault. -/
theorem judgeCondition_eq_ok {form : Truth → Directive} {r : Chars} {j : Judged}
    (h : judgeCondition s t v form lk r = .ok j) :
    (∃ a ly rest, (evaluate s v.verbatim (View.knowledge s t) lk r).result = .ok (a, ly, rest) ∧
      j = ⟨form a.truth, ly, rest, (evaluate s v.verbatim (View.knowledge s t) lk r).mentioned, []⟩) ∨
    ∃ f ly, (evaluate s v.verbatim (View.knowledge s t) lk r).result = .error (.fault f ly) ∧
      j = ⟨form .unknown, ly, r, (evaluate s v.verbatim (View.knowledge s t) lk r).mentioned,
        note s ("eval error: " ++ f.text)⟩ := by
  unfold judgeCondition at h
  simp only at h
  split at h <;> cases h
  · rename_i he
    exact .inl ⟨_, _, _, he, rfl⟩
  · rename_i he
    exact .inr ⟨_, _, he, rfl⟩

theorem form_of_judgeCondition {form : Truth → Directive} {r : Chars} {j : Judged}
    (h : judgeCondition s t v form lk r = .ok j) : ∃ x, j.directive = form x := by
  rcases judgeCondition_eq_ok h with ⟨_, _, _, -, rfl⟩ | ⟨_, _, -, rfl⟩ <;> exact ⟨_, rfl⟩

/-- What is known of symbols does not change which directive a line is. -/
theorem untrusted_of_judge {j : Judged} (h : judge s t v lk w = .ok (some j)) :
    j.directive.untrusted = formOf w := by
  rcases judge_cases h with ⟨negated, r, hw, hj⟩ | ⟨r, rfl, hj⟩ | ⟨r, rfl, hj⟩ | ⟨r, rfl, rfl⟩ | ⟨r, rfl, -, rfl⟩
  · have hform : formOf w = .opening .unknown := by rcases hw with rfl | rfl <;> rfl
    rw [hform]
    obtain ⟨ly, rest, -, ⟨-, rfl⟩ | ⟨-, rfl⟩⟩ := judgeTest_eq_ok hj
    · rfl
    · exact untrusted_testFor ..
  · obtain ⟨x, hx⟩ := form_of_judgeCondition hj
    rw [hx]
    rfl
  · obtain ⟨x, hx⟩ := form_of_judgeCondition hj
    rw [hx]
    rfl
  · rfl
  · rfl

theorem elif_of_judge {j : Judged} (h : judge s t v lk w = .ok (some j))
    (hd : j.directive.untrusted = .elif .unknown) :
    ∃ r, w = "elif".toList ++ r ∧ judgeCondition s t v .elif lk r = .ok j := by
  rw [untrusted_of_judge h] at hd
  rcases judge_cases h with ⟨_, r, rfl | rfl, -⟩ | ⟨r, rfl, -⟩ | ⟨r, hr⟩ | ⟨r, rfl, -⟩ | ⟨r, rfl, -⟩
  case inr.inr.inl => exact ⟨r, hr⟩
  all_goals cases hd

theorem startsWord_of_judge {j : Judged} (h : judge s t v lk w = .ok (some j)) : StartsWord w := by
  rcases judge_cases h with ⟨_, r, rfl | rfl, -⟩ | ⟨r, rfl, -⟩ | ⟨r, rfl, -⟩ | ⟨r, rfl, -⟩ | ⟨r, rfl, -⟩
  all_goals exact ⟨_, _, rfl, rfl, by decide⟩

theorem judge_if (r : Chars) :
    judge s t v lk ("if".toList ++ ' ' :: r) = some <$> judgeCondition s t v .opening lk (' ' :: r) := by
  have hif : afterWord? "if".toList ("if".toList ++ ' ' :: r) = some (' ' :: r) := rfl
  have hifdef : afterWord? "ifdef".toList ("if".toList ++ ' ' :: r) = none := rfl
  have hifndef : afterWord? "ifndef".toList ("if".toList ++ ' ' :: r) = none := rfl
  simp only [judge, hifdef, hifndef, hif]

section
variable {r : Chars} (he : endsSymbol r = true)
include he

theorem judge_else : judge s t v lk ("else".toList ++ r) = .ok (some ⟨.otherwise, lk, r, [], []⟩) := by
  have helse : afterWord? "else".toList ("else".toList ++ r) = some r := afterWord?_eq_some.mpr ⟨rfl, he⟩
  have hifdef : afterWord? "ifdef".toList ("else".toList ++ r) = none := rfl
  have hifndef : afterWord? "ifndef".toList ("else".toList ++ r) = none := rfl
  have hif : afterWord? "if".toList ("else".toList ++ r) = none := rfl
  have helif : afterWord? "elif".toList ("else".toList ++ r) = none := rfl
  simp only [judge, hifdef, hifndef, hif, helif, helse]

theorem judge_endif : judge s t v lk ("endif".toList ++ r) = .ok (some ⟨.closing, lk, r, [], []⟩) := by
  have hendif : afterWord? "endif".toList ("endif".toList ++ r) = some r := afterWord?_eq_some.mpr ⟨rfl, he⟩
  have hifdef : afterWord? "ifdef".toList ("endif".toList ++ r) = none := rfl
  have hifndef : afterWord? "ifndef".toList ("endif".toList ++ r) = none := rfl
  have hif : afterWord? "if".toList ("endif".toList ++ r) = none := rfl
  have helif : afterWord? "elif".toList ("endif".toList ++ r) = none := rfl
  have helse : afterWord? "else".toList ("endif".toList ++ r) = none := rfl
  simp only [judge, hifdef, hifndef, hif, helif, helse, hendif]

end

/-! ## Where a directive leaves the cursor -/

structure AtKeyword (verbatim : Bool) (lk : Lexical) (w : Chars) : Prop where
  mode : lk.mode = .code
  line : lk.line ≠ .start
  oneLine : OneLine w

theorem AtKeyword.of_findKeyword {verbatim : Bool} (ho : OneLine line) (hf : lx.Fits verbatim) (hw : w ≠ [])
    (h : findKeyword verbatim lx line = .ok (lk, w)) : AtKeyword verbatim lk w ∧ lx.line = .start := by
  obtain ⟨ly, r, hs, hly, hk⟩ := findKeyword_eq_ok hw h
  have hly' := fits_of_skip hf hs
  have hf' : Lexical.Fits verbatim { ly with line := .hash } := hly'
  have hr := ho.suffix (suffix_of_skip hs)
  have hw' := hr.tail.suffix (suffix_of_skip hk)
  refine ⟨⟨mode_of_skip_stop hf' hk hw, (sound_of_skip hf' (by simp) hr.tail hk).2 hw, hw'⟩, ?_⟩
  rcases line_of_skip hf ho hs with h' | h' | ⟨h', -⟩
  · rw [← h', hly]
  · rw [hly] at h'
    cases h'
  · cases h'

theorem AtKeyword.standing {verbatim : Bool} (h : AtKeyword verbatim lk w) {r full : Chars} (hr : r <:+ full) :
    Standing verbatim full lk r := by
  refine .of_line ⟨fun _ => h.mode, fun hl => absurd hl h.line, fun hm => ?_⟩ hr h.line
  rw [h.mode] at hm
  cases hm

/-- The cursor stands behind a directive, or back behind its keyword after a fault. -/
def Judged.Stands (verbatim : Bool) (w : Chars) (lk : Lexical) (j : Judged) : Prop :=
  Standing verbatim w j.lex j.rest ∨
    j.rest <:+ w ∧ j.lex.Within verbatim j.rest ∧ ∀ lz, skip verbatim lk j.rest = .ok (lz, []) → j.lex = lz

theorem stands_of_judgeCondition {form : Truth → Directive} {r : Chars} {j : Judged}
    (h : AtKeyword v.verbatim lk w) (hr : r <:+ w) (hj : judgeCondition s t v form lk r = .ok j) :
    j.Stands v.verbatim w lk := by
  rcases judgeCondition_eq_ok hj with ⟨a, ly, rest, he, rfl⟩ | ⟨f, ly, he, rfl⟩
  · exact .inl (standing_of_evaluate h.oneLine (h.standing hr) h.line he)
  · exact .inr ⟨hr, within_of_evaluate (h.oneLine.suffix hr) (h.standing List.suffix_rfl) h.line he⟩

theorem stands_of_judge {j : Judged} (h : AtKeyword v.verbatim lk w) (hj : judge s t v lk w = .ok (some j)) :
    j.Stands v.verbatim w lk := by
  rcases judge_cases hj with ⟨negated, r, hw, hj⟩ | ⟨r, rfl, hc⟩ | ⟨r, rfl, hc⟩ | ⟨r, rfl, rfl⟩ | ⟨r, rfl, -, rfl⟩
  · have hr : r <:+ w := by rcases hw with rfl | rfl <;> exact List.suffix_append ..
    have hst := h.standing hr
    obtain ⟨ly, rest, hs, ⟨-, rfl⟩ | ⟨hn, rfl⟩⟩ := judgeTest_eq_ok hj
    · exact .inl (hst.skip h.oneLine hs)
    · have hly := hst.skip h.oneLine hs
      have hne : rest ≠ [] := by
        rintro rfl
        exact hn rfl
      exact .inl (hly.advance (hst.line_of_skip_ne h.oneLine hs h.line hne) (suffix_afterSymbol _))
  · exact stands_of_judgeCondition h (List.suffix_append ..) hc
  · exact stands_of_judgeCondition h (List.suffix_append ..) hc
  · exact .inl (h.standing (List.suffix_append ..))
  · exact .inl (h.standing (List.suffix_append ..))

theorem finish_eq_ok_iff {j : Judged} {d : Directive} : finish v j = .ok (lx', d) ↔
    ∃ ly rest, skip v.verbatim j.lex j.rest = .ok (ly, rest) ∧
      ((rest = [] ∧ lx' = ly ∧ d = j.directive) ∨
      (rest ≠ [] ∧ skipLine v.verbatim ly rest = .ok lx' ∧ d = j.directive.untrusted)) := by
  unfold finish
  simp only [bind_eq_ok, Prod.exists]
  refine exists_congr fun ly => exists_congr fun rest => and_congr_right fun _ => ?_
  cases rest with
  | nil => simp [pure, Except.pure, eq_comm]
  | cons a rest =>
    simp only [List.isEmpty_cons, Bool.false_eq_true, if_false, bind_eq_ok]
    constructor
    · rintro ⟨b, hs, h⟩
      cases h
      exact .inr ⟨by simp, hs, rfl⟩
    · rintro (⟨h, -⟩ | ⟨-, hs, rfl⟩)
      · cases h
      · exact ⟨lx', hs, rfl⟩

theorem sound_of_finish {j : Judged} {d : Directive} (h : AtKeyword v.verbatim lk w)
    (hj : j.Stands v.verbatim w lk) (hf : finish v j = .ok (lx', d)) : lx'.Sound ∧ lx'.Fits v.verbatim := by
  obtain ⟨ly, rest, hs, hfin⟩ := finish_eq_ok_iff.mp hf
  have hfits : j.lex.Fits v.verbatim := by
    rcases hj with hst | ⟨-, hw, -⟩
    · exact hst.within.fits
    · exact hw.fits
  have hrest : j.rest <:+ w := by
    rcases hj with hst | ⟨hr, -⟩
    · exact hst.suffix
    · exact hr
  have ho := h.oneLine.suffix hrest
  rcases hfin with ⟨rfl, rfl, -⟩ | ⟨hne, hskip, -⟩
  · refine ⟨?_, fits_of_skip hfits hs⟩
    rcases hj with hst | ⟨hr, hw, hend⟩
    · exact (hst.skip h.oneLine hs).within.sound
    · by_cases hl : j.lex.line = .start
      · -- The fault came at the end of the line, so there was nothing to read behind the keyword.
        obtain ⟨l, hs'⟩ := skip_mode (h.mode.trans (hw.sound hl).symm) hs
        have := hend _ hs'
        exact fun _ => (congrArg Lexical.mode this).symm.trans (hw.sound hl)
      · exact (sound_of_skip hfits hl ho hs).1
  · exact sound_of_skipLine (fits_of_skip hfits hs) (ho.suffix (suffix_of_skip hs)) hne hskip

theorem untrusted_of_finish {j : Judged} {d : Directive} (hf : finish v j = .ok (lx', d)) :
    d.untrusted = j.directive.untrusted := by
  obtain ⟨ly, rest, -, ⟨-, -, rfl⟩ | ⟨-, -, rfl⟩⟩ := finish_eq_ok_iff.mp hf
  · rfl
  · cases j.directive <;> rfl

theorem line_of_finish_split {j : Judged} {d : Directive} (ho : OneLine j.rest)
    (hw : j.lex.Within v.verbatim j.rest) (hm : j.lex.mode.isSplit = true) (hf : finish v j = .ok (lx', d)) :
    lx'.line ≠ .start := by
  obtain ⟨ly, rest, hs, hfin⟩ := finish_eq_ok_iff.mp hf
  have hl : j.lex.line ≠ .start := by
    intro hl
    rw [hw.sound hl] at hm
    cases hm
  have hv : v.verbatim = false := by
    cases hv : v.verbatim with
    | false => rfl
    | true =>
      rw [hw.fits hv] at hm
      cases hm
  rw [hv] at hs hfin
  have ht : Tucked j.rest := .inr (.inr (hw.split hm))
  obtain ⟨hl', ht'⟩ := ht.skipParsed ho hl hs
  rcases hfin with ⟨rfl, rfl, -⟩ | ⟨hne, hskip, -⟩
  · exact hl'
  · rw [skipLine, if_neg (by simpa using hne)] at hskip
    exact ht'.drain (ho.suffix (suffix_of_skip hs)) (by simp) hskip

theorem fits_of_skipLine {verbatim : Bool} (hf : lx.Fits verbatim) (ho : OneLine w)
    (h : skipLine verbatim lx w = .ok lx') : lx'.Fits verbatim := by
  cases w with
  | nil =>
    cases h
    exact hf
  | cons a w => exact (sound_of_skipLine hf ho (by simp) h).2

theorem fits_of_findKeyword {verbatim : Bool} (hf : lx.Fits verbatim) (ho : OneLine line)
    (h : findKeyword verbatim lx line = .ok (lk, w)) : lk.Fits verbatim := by
  rcases findKeyword_cases h with ⟨ly, r, hs, -, hw⟩ | ⟨ly, rest, hs, hline, -⟩
  · have hly := fits_of_skip hf hs
    have hhash : Lexical.Fits verbatim { ly with line := .hash } := hly
    exact fits_of_skip hhash hw
  · exact fits_of_skipLine (fits_of_skip hf hs) (ho.suffix (suffix_of_skip hs)) hline

theorem fits_of_classify (hf : lx.Fits v.verbatim) (ho : OneLine line) (h : classify s t v lx line = .ok c) :
    c.lex.Fits v.verbatim := by
  obtain ⟨lk, w, hk, hc⟩ := classify_eq_ok_iff.mp h
  have hlk := fits_of_findKeyword hf ho hk
  rcases hc with ⟨-, rfl⟩ | ⟨hw, -, -, lx', hs, rfl⟩ | ⟨hw, j, lx', d, hj, hfin, rfl⟩
  · exact hlk
  · have hat := (AtKeyword.of_findKeyword ho hf hw hk).1
    exact fits_of_skipLine hlk (hat.oneLine.suffix (suffix_afterSymbol _)) hs
  · have hat := (AtKeyword.of_findKeyword ho hf hw hk).1
    have hfits := (sound_of_finish hat (stands_of_judge hat hj) hfin).2
    intro hv
    simp only [settleLine]
    repeat' split
    all_goals exact hfits hv

/-- No symbol has groups that are not parsed. -/
def Table.NoneIgnored (t : Table) : Prop := ∀ x ∈ t, x.ignored = false

theorem testFor_ne_guard (ht : t.NoneIgnored) (negated : Bool) (name : String) (b : Bool) :
    testFor s t negated name ≠ .guard b := by
  unfold testFor
  split
  · simp
  · rename_i sym hsym
    have hs : sym.ignored = false := by
      split at hsym
      · cases hsym
      · exact ht sym (List.mem_of_find?_eq_some hsym)
    simp [hs]

theorem judge_ne_guard (ht : t.NoneIgnored) {j : Judged} (h : judge s t v lk w = .ok (some j)) (b : Bool) :
    j.directive ≠ .guard b := by
  rcases judge_cases h with ⟨negated, r, -, hj⟩ | ⟨r, -, hj⟩ | ⟨r, -, hj⟩ | ⟨r, -, rfl⟩ | ⟨r, -, -, rfl⟩
  · obtain ⟨ly, rest, -, ⟨-, rfl⟩ | ⟨-, rfl⟩⟩ := judgeTest_eq_ok hj
    · simp
    · exact testFor_ne_guard ht negated _ b
  · obtain ⟨x, hx⟩ := form_of_judgeCondition hj
    simp [hx]
  · obtain ⟨x, hx⟩ := form_of_judgeCondition hj
    simp [hx]
  · simp
  · simp

theorem kind_of_classify (h : classify s t v lx line = .ok c) :
    c.kind = .plain ∨ ∃ d dodgy, c.kind = .directive d dodgy ∧ (t.NoneIgnored → ∀ b, d ≠ .guard b) := by
  obtain ⟨lk, w, -, hc⟩ := classify_eq_ok_iff.mp h
  rcases hc with ⟨-, rfl⟩ | ⟨-, -, -, lx', -, rfl⟩ | ⟨hw, j, lx', d, hj, hfin, rfl⟩
  · exact .inl rfl
  · exact .inl rfl
  · refine .inr ⟨d, _, rfl, fun ht b => ?_⟩
    obtain ⟨ly, rest, -, ⟨-, -, rfl⟩ | ⟨-, -, rfl⟩⟩ := finish_eq_ok_iff.mp hfin
    · exact judge_ne_guard ht hj b
    · cases j.directive <;> simp [Directive.untrusted]

/-! ## Reading without altering -/

/-- Wherever it stands, `line` is read from `lx` as of kind `k`, with `keyword` characters before its
keyword, and leaves `lx'`. -/
def Reads (s : Settings) (t : Table) (verbatim : Bool) (lx : Lexical) (line : Chars) (k : LineKind)
    (keyword : Nat) (lx' : Lexical) : Prop :=
  ∀ v : View, v.verbatim = verbatim → ∃ names out, classify s t v lx line =
    .ok { kind := k, line, lex := lx', keyword, altered := false, names, out }

theorem Reads.eq {verbatim : Bool} {k : LineKind} {keyword : Nat}
    (h : Reads s t verbatim lx line k keyword lx') (hv : v.verbatim = verbatim)
    (hc : classify s t v lx line = .ok c) :
    c.kind = k ∧ c.line = line ∧ c.lex = lx' ∧ c.keyword = keyword ∧ c.altered = false := by
  obtain ⟨names, out, hc'⟩ := h v hv
  rw [hc'] at hc
  cases hc
  exact ⟨rfl, rfl, rfl, rfl, rfl⟩

theorem Reads.not_plain {verbatim : Bool} {d : Directive} {dodgy : Bool} {keyword keyword' : Nat} {lx'' : Lexical}
    (h : Reads s t verbatim lx line (.directive d dodgy) keyword lx') :
    ¬Reads s t verbatim lx line .plain keyword' lx'' := by
  intro hp
  let v : View := ⟨verbatim, 0, 0, .lf, false⟩
  obtain ⟨_, _, hc⟩ := h v rfl
  cases (hp.eq (v := v) rfl hc).1

theorem judge_congr {v' : View} (hv : v'.verbatim = v.verbatim) : judge s t v' = judge s t v := by
  cases v
  cases v'
  cases hv
  rfl

theorem finish_congr {v' : View} (hv : v'.verbatim = v.verbatim) : finish v' = finish v := by
  cases v
  cases v'
  cases hv
  rfl

theorem settleLine_complete (s : Settings) (v : View) (was : Bool) (keyword : Nat) (j : Judged) (d : Directive)
    (h : lx'.line ≠ .hash ∨ lacksNewline line = false) : ∃ names out, settleLine s v was keyword line j lx' d =
      { kind := .directive d (was || lx'.line ≠ .start), line,
        lex := if was || lx'.line ≠ .start then { lx' with line := .dirty } else lx',
        keyword, altered := false, names, out } := by
  have hl : (decide (lx'.line = .hash) && lacksNewline line) = false := by
    rcases h with h | h <;> simp [h]
  simp [settleLine, hl]

theorem settleLine_lacking (s : Settings) (v : View) (was : Bool) (keyword : Nat) (j : Judged) (d : Directive)
    (hl : lx'.line = .hash) (hn : lacksNewline line = true) : ∃ names out, settleLine s v was keyword line j lx' d =
      { kind := .directive d was, line := line ++ v.newline.chars,
        lex := if was then { lx' with line := .dirty } else { lx' with line := .start },
        keyword, altered := true, names, out } := by
  simp [settleLine, hl, hn]

theorem Lexical.eq_start (hm : lx.mode = .code) (hl : lx.line = .start) : lx = {} := by
  cases lx
  cases hm
  cases hl
  rfl

theorem reads_directive {verbatim : Bool} {d : Directive} {kw : Nat}
    (hk : findKeyword verbatim lx line = .ok (lk, w)) (hw : w ≠ [])
    (hj : ∀ v : View, v.verbatim = verbatim → ∃ j, judge s t v lk w = .ok (some j) ∧ finish v j = .ok (lx', d))
    (hm : lx.mode = .code) (hl : lx'.line ≠ .hash ∨ lacksNewline line = false) (hkw : kw = line.length - w.length) :
    Reads s t verbatim lx line (.directive d (lx'.line ≠ .start)) kw
      (if lx'.line = .start then lx' else { lx' with line := .dirty }) := by
  intro v hv
  subst hv hkw
  obtain ⟨j, hj, hf⟩ := hj v rfl
  obtain ⟨names, out, hset⟩ := settleLine_complete s v (decide (lx.mode ≠ .code)) (line.length - w.length) j d hl
  refine ⟨names, out, classify_eq_ok_iff.mpr ⟨lk, w, hk, .inr (.inr ⟨hw, j, lx', d, hj, hf, ?_⟩)⟩⟩
  rw [hset]
  by_cases hs : lx'.line = .start <;> simp [hm, hs]

theorem reads_clean {verbatim : Bool} {d : Directive} {kw : Nat}
    (hk : findKeyword verbatim lx line = .ok (lk, w)) (hw : w ≠ [])
    (hj : ∀ v : View, v.verbatim = verbatim → ∃ j, judge s t v lk w = .ok (some j) ∧ finish v j = .ok (lx', d))
    (hm : lx.mode = .code) (hl : lx'.line = .start) (hkw : kw = line.length - w.length) :
    Reads s t verbatim lx line (.directive d false) kw lx' := by
  simpa [hl] using reads_directive hk hw hj hm (.inl (by simp [hl])) hkw

theorem judge_none {s' : Settings} {t' : Table} (h : judge s t v lk w = .ok none) :
    judge s' t' v lk w = .ok none := by
  have map_ne : ∀ {x : Except Broken Judged}, some <$> x ≠ .ok none := by
    intro x hx
    cases x <;> cases hx
  unfold judge at h ⊢
  simp only at h ⊢
  split at h
  · exact absurd h map_ne
  · split at h
    · exact absurd h map_ne
    · split at h
      · exact absurd h map_ne
      · split at h
        · exact absurd h map_ne
        · split at h
          · cases h
          · split at h
            · cases h
            · simp_all

theorem reads_plain (t' : Table) (h : classify s t v lx line = .ok c) (hk : c.kind = .plain) :
    Reads s t' v.verbatim lx line .plain 0 c.lex := by
  intro v' hv
  obtain ⟨lk, w, hfind, hc⟩ := classify_eq_ok_iff.mp h
  rw [← hv] at hfind
  rcases hc with ⟨rfl, rfl⟩ | ⟨hw, hj, hcont, lx', hs, rfl⟩ | ⟨hw, j, lx', d, hj, hf, rfl⟩
  · exact ⟨_, _, classify_eq_ok_iff.mpr ⟨lk, [], hfind, .inl ⟨rfl, rfl⟩⟩⟩
  · rw [← judge_congr hv] at hj
    rw [← hv] at hs
    exact ⟨_, _, classify_eq_ok_iff.mpr ⟨lk, w, hfind, .inr (.inl ⟨hw, judge_none hj, hcont, lx', hs, rfl⟩)⟩⟩
  · cases hk

theorem skip_blank_append {verbatim : Bool} {p : Chars} (h : isBlank p = true) (cs : Chars) :
    skip verbatim {} (p ++ cs) = skip verbatim {} cs := by
  induction p with
  | nil => rfl
  | cons a p ih =>
    simp only [isBlank, List.all_cons, Bool.and_eq_true] at h
    have ih := ih h.2
    have ha : a = ' ' ∨ a = '\r' ∨ a = '\t' ∨ a = '\n' := by
      simpa [isSpaceOrNewline, isSpace, or_assoc] using h.1
    cases verbatim with
    | false =>
      rcases ha with rfl | rfl | rfl | rfl <;> exact (skipParsed_eat rfl).trans ih
    | true =>
      rcases ha with rfl | rfl | rfl | rfl <;> exact ih

theorem skip_blank {verbatim : Bool} (h : isBlank line = true) : skip verbatim {} line = .ok ({}, []) := by
  have hskip : skip verbatim {} (line ++ []) = skip verbatim {} [] := skip_blank_append h []
  rwa [List.append_nil, skip_nil] at hskip

theorem reads_blank {verbatim : Bool} (h : isBlank line = true) : Reads s t verbatim {} line .plain 0 {} := by
  intro v hv
  have hfind : findKeyword v.verbatim {} line = .ok ({}, []) := by
    simp [findKeyword, skip_blank h, bind, Except.bind, skipLine, pure, Except.pure]
  exact ⟨_, _, classify_eq_ok_iff.mpr ⟨{}, [], hfind, .inl ⟨rfl, rfl⟩⟩⟩

/-! ## Clean directives -/

/-- The line is a directive that is not dodgy, whose keyword starts `w`. -/
structure Clean (s : Settings) (t : Table) (v : View) (lx : Lexical) (line : Chars) (d : Directive)
    (lk : Lexical) (w : Chars) (j : Judged) (lx' : Lexical) : Prop where
  found : findKeyword v.verbatim lx line = .ok (lk, w)
  atKeyword : AtKeyword v.verbatim lk w
  judged : judge s t v lk w = .ok (some j)
  finished : finish v j = .ok (lx', d)
  start : lx = {}

theorem clean_of_classify {d : Directive} (ho : OneLine line) (hf : lx.Fits v.verbatim)
    (h : classify s t v lx line = .ok c) (hk : c.kind = .directive d false) :
    ∃ lk w j lx', Clean s t v lx line d lk w j lx' ∧ c.keyword = line.length - w.length ∧
      ((lx' = {} ∧ c.lex = {} ∧ c.line = line ∧ c.altered = false) ∨
      (lx'.line = .hash ∧ lacksNewline line = true ∧ c.lex = { lx' with line := .start } ∧
        c.line = line ++ v.newline.chars ∧ c.altered = true)) := by
  obtain ⟨lk, w, hfind, hc⟩ := classify_eq_ok_iff.mp h
  rcases hc with ⟨-, rfl⟩ | ⟨-, -, -, _, -, rfl⟩ | ⟨hw, j, lx', d', hj, hfin, rfl⟩
  · cases hk
  · cases hk
  · obtain ⟨hat, hstart⟩ := AtKeyword.of_findKeyword ho hf hw hfind
    have hsound := (sound_of_finish hat (stands_of_judge hat hj) hfin).1
    by_cases hlack : lx'.line = .hash ∧ lacksNewline line = true
    · obtain ⟨hl, hn⟩ := hlack
      obtain ⟨names, out, hset⟩ := settleLine_lacking s v (lx.mode ≠ .code) (line.length - w.length) j d' hl hn
      rw [hset] at hk ⊢
      simp only [LineKind.directive.injEq, decide_eq_false_iff_not, ne_eq, Decidable.not_not] at hk
      obtain ⟨rfl, hm⟩ := hk
      refine ⟨lk, w, j, lx', ⟨hfind, hat, hj, hfin, Lexical.eq_start hm hstart⟩, rfl, .inr ⟨hl, hn, ?_, rfl, rfl⟩⟩
      simp [hm]
    · have hl : lx'.line ≠ .hash ∨ lacksNewline line = false := by
        by_cases hl : lx'.line = .hash
        · exact .inr (by simpa [hl] using hlack)
        · exact .inl hl
      obtain ⟨names, out, hset⟩ := settleLine_complete s v (lx.mode ≠ .code) (line.length - w.length) j d' hl
      rw [hset] at hk ⊢
      simp only [LineKind.directive.injEq, Bool.or_eq_false_iff, decide_eq_false_iff_not, ne_eq,
        Decidable.not_not] at hk
      obtain ⟨rfl, hm, hl'⟩ := hk
      have hlx' := Lexical.eq_start (hsound hl') hl'
      refine ⟨lk, w, j, lx', ⟨hfind, hat, hj, hfin, Lexical.eq_start hm hstart⟩, rfl, .inl ⟨hlx', ?_, rfl, rfl⟩⟩
      simp [hm, hlx']

/-- Where the keyword of a directive stands. The directive may be dodgy. -/
theorem keyword_of_classify {d : Directive} {dodgy : Bool} (h : classify s t v lx line = .ok c)
    (hk : c.kind = .directive d dodgy) :
    ∃ p w lk, line = p ++ w ∧ findKeyword v.verbatim lx line = .ok (lk, w) ∧ StartsWord w ∧ c.keyword = p.length ∧
      (∀ x, d = .elif x → ∃ r, w = "elif".toList ++ r) ∧ (dodgy = false → lx.mode = .code) ∧
      (c.line = line ∨ (lacksNewline line = true ∧ c.line = line ++ v.newline.chars)) := by
  obtain ⟨lk, w, hfind, hc⟩ := classify_eq_ok_iff.mp h
  rcases hc with ⟨-, rfl⟩ | ⟨-, -, -, _, -, rfl⟩ | ⟨hw, j, lx', d', hj, hfin, rfl⟩
  · cases hk
  · cases hk
  · obtain ⟨p, rfl⟩ := suffix_of_findKeyword hw hfind
    have hkind : d' = d ∧ (dodgy = false → lx.mode = .code) := by
      simp only [settleLine, LineKind.directive.injEq] at hk
      refine ⟨hk.1, fun hd => ?_⟩
      rw [hd] at hk
      simpa using (Bool.or_eq_false_iff.mp hk.2).1
    refine ⟨p, w, lk, rfl, hfind, startsWord_of_judge hj, by simp [settleLine], ?_, hkind.2, ?_⟩
    · rintro x rfl
      obtain ⟨r, hr, -⟩ := elif_of_judge hj (by rw [← untrusted_of_finish hfin, hkind.1]; rfl)
      exact ⟨r, hr⟩
    · simp only [settleLine]
      split
      · rename_i hl
        exact .inr ⟨(Bool.and_eq_true_iff.mp hl).2, rfl⟩
      · exact .inl rfl

/-! ## Edited lines read back -/

theorem AtKeyword.skip_newline {verbatim : Bool} (h : AtKeyword verbatim lk w) (nl : Newline) :
    skip verbatim lk nl.chars = .ok ({}, []) := by
  have hend : skip verbatim lk [] = .ok (lk, []) := skip_nil lk
  rcases CondResolve.skip_newline nl (fun _ => h.mode) List.not_mem_nil hend (.inl h.mode) with hs | ⟨-, hm, -⟩
  · exact hs
  · rw [h.mode] at hm
    cases hm

theorem length_replaced (line w w' : Chars) :
    (line.take (line.length - w.length) ++ w').length - w'.length = line.length - w.length := by
  rw [List.length_append, List.length_take]
  omega

namespace Clean

variable {d : Directive} {j : Judged} (hc : Clean s t v lx line d lk w j lx')
include hc

theorem startsWord : StartsWord w := startsWord_of_judge hc.judged

theorem ne_nil : w ≠ [] := by
  obtain ⟨a, r, rfl, -⟩ := hc.startsWord
  simp

theorem split : line = line.take (line.length - w.length) ++ w := by
  obtain ⟨p, rfl⟩ := suffix_of_findKeyword hc.ne_nil hc.found
  simp

theorem findKeyword_replaced {w' : Chars} (hw' : StartsWord w') :
    findKeyword v.verbatim {} (line.take (line.length - w.length) ++ w') = .ok (lk, w') := by
  have h := hc.found
  rw [hc.start] at h
  exact findKeyword_word hc.startsWord hw' (by rwa [← hc.split])

theorem reads_word {t' : Table} {word : Chars} {d' : Directive} (nl : Newline) (hw : StartsWord word)
    (hj : ∀ v r, endsSymbol r = true → judge s t' v lk (word ++ r) = .ok (some ⟨d', lk, r, [], []⟩)) :
    Reads s t' v.verbatim {} (line.take (line.length - w.length) ++ word ++ nl.chars) (.directive d' false)
      (line.length - w.length) {} := by
  have hw' : StartsWord (word ++ nl.chars) := by
    obtain ⟨a, r, rfl, ha⟩ := hw
    exact ⟨a, r ++ nl.chars, rfl, ha⟩
  have hne : word ++ nl.chars ≠ [] := by
    obtain ⟨a, r, he, -⟩ := hw'
    simp [he]
  rw [List.append_assoc]
  refine reads_clean (hc.findKeyword_replaced hw') hne (fun v' hv => ?_) rfl rfl ?_
  · refine ⟨_, hj v' nl.chars (by cases nl <;> rfl), finish_eq_ok_iff.mpr ?_⟩
    rw [hv]
    exact ⟨_, _, hc.atKeyword.skip_newline nl, .inl ⟨rfl, rfl, rfl⟩⟩
  · exact (length_replaced ..).symm

end Clean

theorem judgeCondition_spaces {r : Chars} {j : Judged} {d : Directive} (h : AtKeyword v.verbatim lk w)
    (hr : r <:+ w) (hj : judgeCondition s t v .elif lk r = .ok j) (hf : finish v j = .ok (lx', d))
    (hl : lx'.line = .start) :
    ∃ j' x, judgeCondition s t v .opening lk (' ' :: ' ' :: r) = .ok j' ∧ d = .elif x ∧
      finish v j' = .ok (lx', .opening x) := by
  have ho := h.oneLine.suffix hr
  have hsplit : lk.mode.isSplit = false := by rw [h.mode]; rfl
  have hev : evaluate s v.verbatim (View.knowledge s t) lk (' ' :: ' ' :: r) =
      evaluate s v.verbatim (View.knowledge s t) lk r := by
    rw [evaluate_space hsplit, evaluate_space hsplit]
  unfold judgeCondition at hj ⊢
  rw [hev]
  simp only at hj ⊢
  split at hj
  · rename_i a ly rest he
    cases hj
    obtain ⟨lz, rest', hs, ⟨hr, hlz, rfl⟩ | ⟨hr, hlz, rfl⟩⟩ := finish_eq_ok_iff.mp hf
    · exact ⟨_, _, rfl, rfl, finish_eq_ok_iff.mpr ⟨lz, rest', hs, .inl ⟨hr, hlz, rfl⟩⟩⟩
    · exact ⟨_, _, rfl, rfl, finish_eq_ok_iff.mpr ⟨lz, rest', hs, .inr ⟨hr, hlz, rfl⟩⟩⟩
  · rename_i f lf he
    cases hj
    -- A fault that left a split delimiter would have kept the line from ending.
    have hlf : lf.mode.isSplit = false := by
      have hw := (within_of_evaluate ho (h.standing List.suffix_rfl) h.line he).1
      cases hm : lf.mode.isSplit with
      | false => rfl
      | true => exact absurd hl (line_of_finish_split ho hw hm hf)
    obtain ⟨lz, rest', hs, hfin⟩ := finish_eq_ok_iff.mp hf
    have hs' : skip v.verbatim lf (' ' :: ' ' :: r) = .ok (lz, rest') := by
      rw [skip_space hlf, skip_space hlf]
      exact hs
    rcases hfin with ⟨hr, hlz, rfl⟩ | ⟨hr, hlz, rfl⟩
    · exact ⟨_, _, rfl, rfl, finish_eq_ok_iff.mpr ⟨lz, rest', hs', .inl ⟨hr, hlz, rfl⟩⟩⟩
    · exact ⟨_, _, rfl, rfl, finish_eq_ok_iff.mpr ⟨lz, rest', hs', .inr ⟨hr, hlz, rfl⟩⟩⟩
  · cases hj

theorem Clean.drop_elif {x : Truth} {j : Judged} (hc : Clean s t v lx line (.elif x) lk w j lx') :
    ∃ r, w = "elif".toList ++ r ∧ judgeCondition s t v .elif lk r = .ok j ∧
      line.drop (line.length - w.length + 4) = r := by
  have hd : j.directive.untrusted = .elif .unknown := (untrusted_of_finish hc.finished).symm
  obtain ⟨r, hw, hj⟩ := elif_of_judge hc.judged hd
  have hsplit := hc.split
  generalize line.take (line.length - w.length) = p at hsplit
  have hp : line.length - w.length = p.length := by
    rw [hsplit]
    simp
  refine ⟨r, hw, hj, ?_⟩
  rw [hp, hsplit, List.drop_length_add_append, hw]
  rfl

theorem Clean.reads_if {x : Truth} {j : Judged} (hc : Clean s t v lx line (.elif x) lk w j lx')
    (hl : lx'.line = .start) :
    Reads s t v.verbatim {} (line.take (line.length - w.length) ++ "if  ".toList ++
      line.drop (line.length - w.length + 4)) (.directive (.opening x) false) (line.length - w.length) lx' := by
  obtain ⟨r, hw, hj, hdrop⟩ := hc.drop_elif
  rw [hdrop, List.append_assoc]
  obtain ⟨j', x', hj', hx, hf⟩ := judgeCondition_spaces hc.atKeyword (by rw [hw]; exact List.suffix_append ..) hj
    hc.finished hl
  cases hx
  have hword : StartsWord ("if  ".toList ++ r) := ⟨'i', _, rfl, rfl, by decide⟩
  refine reads_clean (hc.findKeyword_replaced hword) (by simp) (fun v' hv => ?_) rfl hl
    (length_replaced ..).symm
  refine ⟨j', ?_, by rwa [finish_congr hv]⟩
  rw [judge_congr hv]
  show judge s t v lk ("if".toList ++ ' ' :: ' ' :: r) = _
  rw [judge_if, hj']
  rfl

def Edit.read : Edit → Directive → Directive
  | .toIf, .elif x => .opening x
  | .toIf, d => d
  | .toElse, _ => .otherwise
  | .toEndif, _ => .closing

def Directive.edited (d : Directive) : Option Edit → Directive
  | none => d
  | some e => e.read d

theorem Clean.reads {d : Directive} {j : Judged} (hc : Clean s t v lx line d lk w j {}) :
    Reads s t v.verbatim {} line (.directive d false) (line.length - w.length) {} := by
  have hfind := hc.found
  rw [hc.start] at hfind
  refine reads_clean hfind hc.ne_nil (fun v' hv => ⟨j, ?_, ?_⟩) rfl rfl rfl
  · rw [judge_congr hv]
    exact hc.judged
  · rw [finish_congr hv]
    exact hc.finished

theorem Clean.reads_edit {d : Directive} {j : Judged} (hc : Clean s t v lx line d lk w j {}) (e : Edit)
    (he : e = .toIf → ∃ x, d = .elif x) {cur : Current} (hline : cur.line = line)
    (hkw : cur.keyword = line.length - w.length) :
    Reads s t v.verbatim {} (e.apply cur) (.directive (e.read d) false) cur.keyword {} := by
  unfold Edit.apply
  rw [hline, hkw]
  cases e with
  | toIf =>
    obtain ⟨x, rfl⟩ := he rfl
    exact hc.reads_if rfl
  | toElse => exact hc.reads_word cur.newline ⟨'e', _, rfl, rfl, by decide⟩ fun _ _ he => judge_else he
  | toEndif => exact hc.reads_word cur.newline ⟨'e', _, rfl, rfl, by decide⟩ fun _ _ he => judge_endif he

theorem Clean.endif {j : Judged} (hc : Clean s t v lx line .closing lk w j lx') :
    ∃ r, w = "endif".toList ++ r ∧ endsSymbol r = true ∧ j = ⟨.closing, lk, r, [], []⟩ := by
  have hd : formOf w = .closing := (untrusted_of_judge hc.judged).symm.trans (untrusted_of_finish hc.finished).symm
  rcases judge_cases hc.judged with ⟨_, r, rfl | rfl, -⟩ | ⟨r, rfl, -⟩ | ⟨r, rfl, -⟩ | ⟨r, rfl, -⟩ | hj
  case inr.inr.inr.inr => exact hj
  all_goals cases hd

/-- An `#endif` has no condition, so any table reads it. -/
theorem Clean.of_closing {j : Judged} (hc : Clean s t v lx line .closing lk w j lx') (t' : Table) :
    Clean s t' v lx line .closing lk w j lx' := by
  obtain ⟨r, rfl, he, rfl⟩ := hc.endif
  exact ⟨hc.found, hc.atKeyword, judge_endif he, hc.finished, hc.start⟩

/-- An `#endif` that got its newline reads as one. If a backslash stands before the newline, it is dodgy and
leaves its comment open. -/
theorem Clean.reads_appended {j : Judged} (hc : Clean s t v lx line .closing lk w j lx') (nl : Newline)
    (hl : lx'.line = .hash) (hn : '\n' ∉ line) (hm : lx'.mode = .code ∨ lx'.mode = .lineComment) :
    Reads s t v.verbatim {} (line ++ nl.chars) (.directive .closing false) (line.length - w.length) {} ∨
    (Joins (line ++ nl.chars) ∧
      Reads s t v.verbatim {} (line ++ nl.chars) (.directive .closing true) (line.length - w.length)
        ⟨.lineComment, .dirty⟩) := by
  obtain ⟨r, rfl, he, rfl⟩ := hc.endif
  have hr : '\n' ∉ r := by
    intro hmem
    rw [hc.split] at hn
    simp [hmem] at hn
  have hend : skip v.verbatim lk r = .ok (lx', []) := by
    obtain ⟨ly, rest, hs, ⟨rfl, rfl, -⟩ | ⟨hne, hskip, -⟩⟩ := finish_eq_ok_iff.mp hc.finished
    · exact hs
    · have ho := (hc.atKeyword.oneLine.suffix (List.suffix_append ..)).suffix (suffix_of_skip hs)
      exact absurd hl (line_of_skipLine (fits_of_skip (fun _ => hc.atKeyword.mode) hs) ho hne hskip)
  have hline : line ++ nl.chars =
      line.take (line.length - ("endif".toList ++ r).length) ++ ("endif".toList ++ (r ++ nl.chars)) := by
    conv => lhs; rw [hc.split]
    simp
  have hword : StartsWord ("endif".toList ++ (r ++ nl.chars)) := ⟨'e', _, rfl, rfl, by decide⟩
  have he' : endsSymbol (r ++ nl.chars) = true := by
    cases r with
    | nil => cases nl <;> rfl
    | cons a r => exact he
  have hfind := hc.findKeyword_replaced hword
  -- The newline ends the line, or it continues a line comment and the directive runs over its end.
  rcases CondResolve.skip_newline nl (fun _ => hc.atKeyword.mode) hr hend hm with hs | ⟨hjoin, hmode, hs⟩
  · refine .inl ?_
    rw [hline]
    refine reads_clean hfind (by simp) (fun v' hv => ⟨_, judge_endif he', finish_eq_ok_iff.mpr ?_⟩)
      rfl rfl (length_replaced ..).symm
    rw [hv]
    exact ⟨_, _, hs, .inl ⟨rfl, rfl, rfl⟩⟩
  · have hsuf : r ++ nl.chars <:+ line ++ nl.chars := by
      rw [hline]
      exact (List.suffix_append ..).trans (List.suffix_append ..)
    have hnl : lacksNewline (line ++ nl.chars) = false := by cases nl <;> simp [lacksNewline, Newline.chars]
    have hreads := reads_directive (s := s) (t := t) (d := .closing) hfind (by simp)
      (fun v' hv => ⟨_, judge_endif he', finish_eq_ok_iff.mpr ⟨lx', [], hv ▸ hs, .inl ⟨rfl, rfl, rfl⟩⟩⟩) rfl
      (.inr (hline ▸ hnl)) (length_replaced ..).symm
    rw [← hline] at hreads
    refine .inr ⟨hjoin.of_suffix hsuf, ?_⟩
    simpa [hl, hmode] using hreads

end

end CondResolve
