import CondResolve.Proofs.Frames
import CondResolve.Proofs.Table

/-!
# Fresh lines

A line that its newline ends leaves the next one fresh: either a comment or literal goes on, or the line state is
that of a start, and a hash can begin a directive. Readers go back in a line, but what has been read once stays
before its newline, and reading over the newline always has the same effect (`FreshAt`). The one exception is a
directive behind the end of a comment from the line before, whose line stays dirty; the line after it is plain,
whatever it holds (`fresh_line`).
-/

namespace CondResolve

/-- The text ends in a newline that no backslash hides. -/
structure Ended (cs : Chars) : Prop where
  newline : cs.getLast? = some '\n'
  apart : ¬Joins cs

/-- In code the cursor is at the start of a line. -/
def Lexical.Fresh (lx : Lexical) : Prop := lx.mode = .code → lx.line = .start

structure FreshAt (full : Chars) (lx : Lexical) (cs : Chars) : Prop where
  suffix : cs <:+ full
  fresh : cs = [] → lx.Fresh

theorem joins_iff {cs : Chars} : Joins cs ↔ ['\\', '\r', '\n'] <:+ cs ∨ ['\\', '\n'] <:+ cs := by
  constructor
  · rintro ⟨p, k, rfl, hk⟩
    rcases afterContinuation?_eq_some.mp hk with rfl | rfl
    · exact .inl (List.suffix_append ..)
    · exact .inr (List.suffix_append ..)
  · rintro (⟨p, rfl⟩ | ⟨p, rfl⟩)
    · exact ⟨p, _, rfl, rfl⟩
    · exact ⟨p, _, rfl, rfl⟩

section
variable {full cs rest : Chars} {lx lx' : Lexical} {c : Char} {r : Chars}

theorem Ended.of_suffix (h : Ended full) (hs : cs <:+ full) (hne : cs ≠ []) : Ended cs := by
  obtain ⟨p, rfl⟩ := hs
  refine ⟨?_, fun hj => h.apart (hj.of_suffix (List.suffix_append ..))⟩
  have hlast := h.newline
  rwa [List.getLast?_append_of_ne_nil _ hne] at hlast

theorem Ended.joins_of_nil {p k : Chars} (h : Ended (p ++ k)) : afterContinuation? k ≠ some [] :=
  fun hk => h.apart ⟨p, k, rfl, hk⟩

theorem Ended.ne_nil {p : Chars} (h : Ended full) (hs : p ++ rest <:+ full) (hne : p ≠ []) (hp : '\n' ∉ p) :
    rest ≠ [] := by
  rintro rfl
  rw [List.append_nil] at hs
  exact hp (List.mem_of_getLast? (h.of_suffix hs hne).newline)

theorem FreshAt.of_ne_nil (hs : cs <:+ full) (hne : cs ≠ []) : FreshAt full lx cs :=
  ⟨hs, fun hnil => absurd hnil hne⟩

/-- Behind a text without the newline the state of the cursor does not matter. -/
theorem FreshAt.word {p : Chars} (hfull : Ended full) (h : FreshAt full lx (p ++ rest)) (hne : p ≠ [])
    (hp : '\n' ∉ p) :
    FreshAt full lx' rest :=
  .of_ne_nil ((List.suffix_append ..).trans h.suffix) (hfull.ne_nil h.suffix hne hp)

theorem FreshAt.next (hfull : Ended full) (h : FreshAt full lx (c :: r)) (hc : c ≠ '\n') : FreshAt full lx' r :=
  h.word (p := [c]) hfull (by simp) (by simpa using hc.symm)

theorem FreshAt.dropWhile (hfull : Ended full) {f : Char → Bool} (hf : f '\n' = false) (h : FreshAt full lx cs) :
    FreshAt full lx (cs.dropWhile f) := by
  have hcs : cs = cs.takeWhile f ++ cs.dropWhile f := List.takeWhile_append_dropWhile.symm
  rw [hcs] at h
  by_cases hne : cs.takeWhile f = []
  · rwa [hne] at h
  · refine h.word hfull hne fun hm => ?_
    rw [List.mem_takeWhile_imp hm] at hf
    cases hf

/-! ## On to the next code character -/

theorem ne_newline_of_stop (h : move lx c r = .stop lx') : c ≠ '\n' := by
  rintro rfl
  obtain ⟨m, l⟩ := lx
  cases m <;> simp [move, moveIn, moveCode, moveBlock, moveLiteral, afterContinuation?] at h
  · split at h <;> cases h

/-- The move that comes to the end of such a line is one over its newline. -/
theorem newline_of_move (hc : Ended (c :: r)) (h : move lx c r = .eat lx' []) : c = '\n' ∧ r = [] := by
  have hlast := hc.newline
  -- A longer move would end in another character or have a backslash in front of the newline.
  have hnil : r = [] := by
    rcases rest_of_move h with hk | hr | ⟨-, hk⟩ | ⟨d, rfl, hd⟩ | rfl
    · exact absurd hk (hc.joins_of_nil (p := []))
    · exact hr.symm
    · exact absurd hk (hc.joins_of_nil (p := [c]))
    · obtain rfl : d = '\n' := by simpa using hlast
      obtain rfl : c = '\\' := by simpa using hd
      exact absurd rfl (hc.joins_of_nil (p := []))
    · simp at hlast
  subst hnil
  exact ⟨by simpa using hlast, rfl⟩

theorem fresh_of_move (hc : Ended (c :: r)) (h : move lx c r = .eat lx' []) : lx'.Fresh := by
  obtain ⟨rfl, rfl⟩ := newline_of_move hc h
  intro hm
  obtain ⟨m, l⟩ := lx
  cases m with
  | literal q => cases q <;> cases h
  | _ =>
    cases h
    first | rfl | cases hm

theorem fresh_of_skipParsed (hc : Ended cs) (h : skipParsed lx cs = .ok (lx', [])) : lx'.Fresh := by
  fun_induction skipParsed lx cs with
  | case1 => cases hc.newline
  | case2 => cases h
  | case3 => cases h
  | case4 lx c r next rest hm hle ih =>
    by_cases hne : rest = []
    · subst hne
      rw [skipParsed_nil] at h
      cases h
      exact fresh_of_move hc hm
    · exact ih (hc.of_suffix ((suffix_of_move hm).trans (List.suffix_cons ..)) hne) h

theorem ne_newline_of_skipParsed (h : skipParsed lx cs = .ok (lx', c :: r)) : c ≠ '\n' := by
  fun_induction skipParsed lx cs with
  | case1 => cases h
  | case2 lx d r next hm =>
    cases h
    exact ne_newline_of_stop hm
  | case3 => cases h
  | case4 lx d r next rest hm hle ih => exact ih h

section
variable (hfull : Ended full)
include hfull

theorem FreshAt.skip (h : FreshAt full lx cs) (hs : CondResolve.skip false lx cs = .ok (lx', rest)) :
    FreshAt full lx' rest := by
  refine ⟨(suffix_of_skip hs).trans h.suffix, fun hnil => ?_⟩
  subst hnil
  by_cases hne : cs = []
  · subst hne
    rw [skip_nil] at hs
    cases hs
    exact h.fresh rfl
  · exact fresh_of_skipParsed (hfull.of_suffix h.suffix hne) hs

theorem FreshAt.behind (h : FreshAt full lx cs) (hs : CondResolve.skip false lx cs = .ok (lx', c :: r))
    {ly : Lexical} :
    FreshAt full ly r :=
  (h.skip hfull hs).next hfull (ne_newline_of_skipParsed hs)

theorem FreshAt.afterSymbol (h : FreshAt full lx cs) : FreshAt full lx (afterSymbol cs) := h.dropWhile hfull rfl

/-! ## On to the end of the line -/

theorem FreshAt.drain (h : FreshAt full lx cs) (hd : drain false lx cs = .ok lx') : lx'.Fresh := by
  fun_induction CondResolve.drain false lx cs with
  | case1 => cases hd
  | case2 lx cs ly hs =>
    cases hd
    exact (h.skip hfull hs).fresh rfl
  | case3 lx cs ly c r hs hle ih => exact ih (h.behind hfull hs) hd

theorem FreshAt.skipLine (h : FreshAt full lx cs) (hs : skipLine false lx cs = .ok lx') : lx'.Fresh := by
  unfold CondResolve.skipLine at hs
  split at hs
  · rename_i hnil
    cases hs
    exact h.fresh (by simpa using hnil)
  · rename_i hne
    have hdirty : FreshAt full { lx with line := .dirty } cs := .of_ne_nil h.suffix (by simpa using hne)
    exact hdirty.drain hfull hs

theorem FreshAt.findKeyword {w : Chars} (h : FreshAt full lx cs) (hk : findKeyword false lx cs = .ok (lx', w)) :
    FreshAt full lx' w := by
  rcases findKeyword_cases hk with ⟨ly, r, hs, -, hw⟩ | ⟨ly, rest, hs, hline, rfl⟩
  · have hhash : FreshAt full { ly with line := .hash } r := (h.skip hfull hs).next hfull (by decide)
    exact hhash.skip hfull hw
  · exact ⟨List.nil_suffix, fun _ => (h.skip hfull hs).skipLine hfull hline⟩

/-! ## Readers of conditions -/

theorem freshAt_of_closeArgs {depth : Nat} {end? : Option Chars} (h : FreshAt full lx cs)
    (hn : cs.head? ≠ some '\n') (hc : closeArgs false depth lx cs = .ok (lx', end?)) (hr : end? = some rest) :
    FreshAt full lx' rest := by
  fun_induction closeArgs false depth lx cs with
  | case1 =>
    cases hc
    cases hr
  | case2 => cases hc
  | case3 depth lx c r depth' ly u hs =>
    cases hc
    cases hr
    have hnext : FreshAt full lx r := h.next hfull (by simpa using hn)
    exact hnext.skip hfull hs
  | case4 depth lx c r depth' ly u hs hle hpos ih =>
    have hnext : FreshAt full lx r := h.next hfull (by simpa using hn)
    refine ih (hnext.skip hfull hs) (fun hhead => ?_) hc
    obtain ⟨v, rfl⟩ := List.head?_eq_some_iff.mp hhead
    exact ne_newline_of_skipParsed hs rfl

theorem FreshAt.skipArgs (h : FreshAt full lx cs) (ha : skipArgs false lx cs = .ok (lx', rest)) :
    FreshAt full lx' rest := by
  rcases skipArgs_cases ha with hs | ⟨lz, r, hs, hc | ⟨-, rfl⟩⟩
  · exact h.skip hfull hs
  · exact freshAt_of_closeArgs hfull (h.skip hfull hs) (by simp) hc rfl
  · -- The cursor goes back in front of the parenthesis.
    refine .of_ne_nil h.suffix ?_
    rintro rfl
    rw [skip_nil] at hs
    cases hs

end

def Reading.Fresh (full : Chars) (p : Reading) : Prop := ∀ lx rest, p.next = .ok (lx, rest) → FreshAt full lx rest

namespace Reading.Fresh

variable {code : List Instr} {p : Reading}

theorem halt (e : Halt) : (Reading.halt e).Fresh full := fun _ _ h => by cases h

theorem done (h : FreshAt full lx rest) : (Reading.done code lx rest).Fresh full := by
  intro lx' rest' he
  cases he
  exact h

theorem after (h : p.Fresh full) : (p.after code).Fresh full := h

theorem nested (h : p.Fresh full) (calls : Nat) : (p.nested calls).Fresh full := h

theorem bind {k : Lexical → Chars → Reading} (h : p.Fresh full)
    (hk : ∀ lx rest, p.next = .ok (lx, rest) → FreshAt full lx rest → (k lx rest).Fresh full) :
    (p.bind k).Fresh full := by
  unfold Reading.bind
  split
  · exact h
  · rename_i lx rest he
    exact (hk lx rest he (h lx rest he)).after

end Reading.Fresh

section
variable (hfull : Ended full)
include hfull

theorem fresh_closeParen (h : FreshAt full lx cs) : (closeParen false lx cs).Fresh full := by
  unfold closeParen
  split
  · exact .halt _
  · rename_i hs
    exact .done (h.behind hfull hs)
  · exact .halt _

theorem fresh_definedName {paren : Bool} (h : FreshAt full lx cs) : (definedName false paren lx cs).Fresh full := by
  unfold definedName
  refine .after ?_
  split
  · exact .halt _
  · rename_i ly rest hs
    have ha := h.afterSymbol hfull
    split
    · split
      · exact .done (ha.behind hfull hs)
      · exact .halt _
    · exact .done (ha.skip hfull hs)

theorem fresh_definedTest (h : FreshAt full lx cs) : (definedTest false lx cs).Fresh full := by
  unfold definedTest
  split
  · exact .halt _
  · rename_i ly r hs
    have hr : FreshAt full ly r := h.behind hfull hs
    split
    · exact .halt _
    · rename_i hs'
      exact fresh_definedName hfull (hr.skip hfull hs')
  · rename_i hs
    exact fresh_definedName hfull (h.skip hfull hs)

theorem fresh_symbolUse (h : FreshAt full lx cs) : (symbolUse false lx cs).Fresh full := by
  unfold symbolUse
  refine .after ?_
  split
  · exact .halt _
  · rename_i ha
    exact .done ((h.afterSymbol hfull).skipArgs hfull ha)

theorem fresh_atom (h : FreshAt full lx cs) : (atom false lx cs).Fresh full := by
  unfold atom
  split
  · exact .halt _
  · split
    · exact .done (h.dropWhile hfull rfl)
    · split
      · rename_i hw
        rw [(afterWord?_eq_some.mp hw).1] at h
        exact fresh_definedTest hfull (h.word hfull (by decide) (by decide))
      · split
        · exact fresh_symbolUse hfull h
        · exact .halt _

theorem fresh_operator {op : BinaryOp} (h : FreshAt full lx cs) (hop : BinaryOp.ofChars? cs = some op) :
    FreshAt full lx (cs.drop op.chars.length) := by
  obtain ⟨r, rfl⟩ := BinaryOp.prefix_of_ofChars? hop
  rw [List.drop_left]
  exact h.word hfull (by cases op <;> decide) (by cases op <;> decide)

/-- All readers of conditions get on in the line. -/
theorem Yields.fresh {task : Task} {p : Reading} (hy : Yields false task lx cs p) (h : FreshAt full lx cs) :
    p.Fresh full := by
  induction hy with
  | unreadable => exact .halt _
  | missing => exact .halt _
  | unary hs _ _ ih => exact ((ih (h.behind hfull hs)).nested _).bind fun _ _ _ hrest => .done hrest
  | paren hs _ ih => exact ((ih (h.behind hfull hs)).nested _).bind fun _ _ _ hrest => fresh_closeParen hfull hrest
  | atom hs => exact fresh_atom hfull (h.skip hfull hs)
  | climb _ _ ih ihon => exact (ih h).bind ihon
  | tight => exact .done h
  | unreadableOn => exact .halt _
  | stop _ hs => exact .done (h.skip hfull hs)
  | operator _ hs hop _ _ ih ihon =>
    have hfirst := ih (fresh_operator hfull (h.skip hfull hs) hop)
    exact hfirst.bind fun lz u he hrest => (ihon lz u he hrest).after

theorem freshAt_of_evaluate {s : Settings} {k : Knowledge} {a : Operand} (h : FreshAt full lx cs)
    (he : (evaluate s false k lx cs).result = .ok (a, lx', rest)) : FreshAt full lx' rest :=
  (yields_read (.climb 0)).fresh hfull h lx' rest (next_of_evaluate he)

end

end

/-! ## Classifying a line -/

section
variable {s : Settings} {t : Table} {v : View} {lx lk lx' : Lexical} {full line w r : Chars} {j : Judged}
  {c : Classified}

section
variable (hfull : Ended full) (hv : v.verbatim = false)
include hfull hv

theorem freshAt_of_judgeCondition {form : Truth → Directive} {word : Chars} (h : FreshAt full lk (word ++ r))
    (hne : word ≠ []) (hword : '\n' ∉ word) (hj : judgeCondition s t v form lk r = .ok j) :
    FreshAt full j.lex j.rest := by
  rcases judgeCondition_eq_ok hj with ⟨a, ly, rest, he, rfl⟩ | ⟨f, ly, -, rfl⟩
  · rw [hv] at he
    exact freshAt_of_evaluate hfull (h.word hfull hne hword) he
  · -- What cannot be evaluated is left unread, in the state that the reader had come to.
    exact h.word hfull hne hword

theorem freshAt_of_judgeTest {negated : Bool} (h : FreshAt full lk r) (hj : judgeTest s t v negated lk r = .ok j) :
    FreshAt full j.lex j.rest := by
  obtain ⟨ly, rest, hs, hcase⟩ := judgeTest_eq_ok hj
  rw [hv] at hs
  have hly := h.skip hfull hs
  rcases hcase with ⟨-, rfl⟩ | ⟨-, rfl⟩
  · exact hly
  · exact hly.afterSymbol hfull

theorem freshAt_of_judge (h : FreshAt full lk w) (hj : judge s t v lk w = .ok (some j)) :
    FreshAt full j.lex j.rest := by
  rcases judge_cases hj with ⟨_, r, rfl | rfl, hj'⟩ | ⟨r, rfl, hj'⟩ | ⟨r, rfl, hj'⟩ | ⟨r, rfl, rfl⟩ |
    ⟨r, rfl, -, rfl⟩
  · exact freshAt_of_judgeTest hfull hv (h.word hfull (by decide) (by decide)) hj'
  · exact freshAt_of_judgeTest hfull hv (h.word hfull (by decide) (by decide)) hj'
  · exact freshAt_of_judgeCondition hfull hv h (by decide) (by decide) hj'
  · exact freshAt_of_judgeCondition hfull hv h (by decide) (by decide) hj'
  · exact h.word hfull (by decide) (by decide)
  · exact h.word hfull (by decide) (by decide)

theorem fresh_of_finish {d : Directive} (h : FreshAt full j.lex j.rest) (hf : finish v j = .ok (lx', d)) :
    lx'.Fresh := by
  obtain ⟨ly, rest, hs, ⟨rfl, rfl, -⟩ | ⟨-, hskip, -⟩⟩ := finish_eq_ok_iff.mp hf
  · rw [hv] at hs
    exact (h.skip hfull hs).fresh rfl
  · rw [hv] at hs hskip
    exact (h.skip hfull hs).skipLine hfull hskip

/-- A directive behind the end of a comment from the line before leaves its line dirty. -/
theorem fresh_of_classify (hc : classify s t v lx full = .ok c) (hm : c.lex.mode = .code) :
    (c.lex.line = .start ↔ lx.mode = .code ∨ c.kind = .plain) ∧ (c.lex.line ≠ .start → c.lex.line = .dirty) := by
  have hat : FreshAt full lx full := .of_ne_nil List.suffix_rfl (by rintro rfl; cases hfull.newline)
  have hl : lacksNewline full = false := by simp [lacksNewline, hfull.newline]
  obtain ⟨lk, w, hk, hc⟩ := classify_eq_ok_iff.mp hc
  rw [hv] at hk hc
  have hlk := hat.findKeyword hfull hk
  rcases hc with ⟨rfl, rfl⟩ | ⟨-, -, -, lx', hs, rfl⟩ | ⟨-, j, lx', d, hj, hf, rfl⟩
  · have hstart : lk.line = .start := hlk.fresh rfl hm
    simp [hstart]
  · have hstart : lx'.line = .start := (hlk.afterSymbol hfull).skipLine hfull hs hm
    simp [hstart]
  · have hfresh := fresh_of_finish hfull hv (freshAt_of_judge hfull hv hlk hj) hf
    obtain ⟨names, out, hset⟩ := settleLine_complete s v (decide (lx.mode ≠ .code)) (full.length - w.length) j d
      (.inr hl)
    rw [hset] at hm ⊢
    have hmode : lx'.mode = .code := by
      simp only at hm
      split at hm <;> exact hm
    have hstart : lx'.line = .start := hfresh hmode
    by_cases hcode : lx.mode = .code
    · simp [hcode, hstart]
    · simp [hcode, hstart]

end

theorem plain_of_dirty {next : Chars} (hf : lx.Fits v.verbatim) (hl : lx.line ≠ .start) (ho : OneLine next)
    (hc : classify s t v lx next = .ok c) : c.kind = .plain := by
  obtain ⟨lk, w, hk, hc⟩ := classify_eq_ok_iff.mp hc
  rcases hc with ⟨-, rfl⟩ | ⟨hw, -⟩ | ⟨hw, -⟩
  · rfl
  · exact absurd (AtKeyword.of_findKeyword ho hf hw hk).2 hl
  · exact absurd (AtKeyword.of_findKeyword ho hf hw hk).2 hl

theorem findKeyword_blank_hash {p : Chars} (hp : isBlank p = true) (hw : StartsWord w) :
    findKeyword false {} (p ++ '#' :: w) = .ok (⟨.code, .hash⟩, w) := by
  have hhash : skip false {} (p ++ '#' :: w) = .ok ({}, '#' :: w) :=
    (skip_blank_append hp _).trans (skipParsed_stop rfl)
  have hword : skip false ⟨.code, .hash⟩ w = .ok (⟨.code, .hash⟩, w) := by
    have hif : skip false ⟨.code, .hash⟩ "if".toList = .ok (⟨.code, .hash⟩, "if".toList) := skipParsed_stop rfl
    exact skip_word (p := []) (q := []) ⟨'i', _, rfl, rfl, by decide⟩ hw hif
  simp [findKeyword, hhash, hword, bind, Except.bind]

end

/-! ## Runs -/

section
variable {s : Settings} {t : Table} {r : Run} {line : Chars} {st : Step}

theorem Run.Even.advance (ht : t.NoneIgnored) (ho : OneLine line) (h : r.Even s)
    (ha : r.advance s t line = .ok st) :
    st.run.Even s := by
  obtain ⟨-, -, turn, hturn, hstack⟩ := shift_of_advance ha
  obtain ⟨p, hp, hst⟩ := bind_eq_ok.mp ha
  obtain ⟨c, hc, he⟩ := bind_eq_ok.mp hp
  cases he
  obtain ⟨m, -, he⟩ := bind_eq_ok.mp hst
  cases he
  exact h.turned ht ho hc hturn hstack rfl

theorem Physical.oneLine_of_mem {ls : List Chars} (h : Physical ls) {l : Chars} (hl : l ∈ ls) : OneLine l := by
  induction ls with
  | nil => cases hl
  | cons l' ls ih =>
    rcases List.mem_cons.mp hl with rfl | hl
    · exact h.oneLine
    · exact ih h.tail hl

theorem Reached.even {ls : List Chars} {steps : List Step} (ht : t.NoneIgnored) (hls : Physical ls)
    (h : Reached s t ls steps r) : r.Even s := by
  induction h with
  | start => exact ⟨by simp, fun _ => rfl⟩
  | next _ hline ha ih => exact ih.advance ht (hls.oneLine_of_mem (List.mem_of_getElem? hline)) ha

end

/-- Whatever line is read next in a run, if its newline ends it outside comments and literals, the one after it is
fresh, unless the line is a directive that started in a comment or literal. Then the one after it is plain, whatever
it holds. -/
theorem fresh_line (s : Settings) (symbols : List Symbol) (script source : Chars) {t : Table}
    (hp : s.passthroughText = false) (hs : Table.NoneIgnored symbols) (ht : buildTable s symbols script = .ok t)
    {steps : List Step} {r : Run} (hr : Reached s t (lines source) steps r) {line : Chars} (hend : Ended line)
    {c : Classified} (hc : classify s t (r.view s line) r.lex line = .ok c) (hm : c.lex.mode = .code) :
    (c.lex.line = .start ↔ r.lex.mode = .code ∨ c.kind = .plain) ∧
    (c.lex.line = .start → ∀ p w, isBlank p = true → StartsWord w →
      findKeyword false c.lex (p ++ '#' :: w) = .ok (⟨.code, .hash⟩, w)) ∧
    (c.lex.line ≠ .start → c.lex.line = .dirty ∧
      ∀ v next c', OneLine next → classify s t v c.lex next = .ok c' → c'.kind = .plain) := by
  have heven := hr.even (noneIgnored_buildTable hs ht) (physical_lines source)
  obtain ⟨hiff, hdirty⟩ := fresh_of_classify hend (heven.verbatim.trans hp) hc hm
  refine ⟨hiff, fun hl p w hblank hw => ?_, fun hl => ⟨hdirty hl, fun v next c' ho hc' => ?_⟩⟩
  · rw [Lexical.eq_start hm hl]
    exact findKeyword_blank_hash hblank hw
  · exact plain_of_dirty (fun _ => hm) hl ho hc'

/-- The second line ends the comment of the first one and opens a group; the third one cannot close it. -/
theorem fresh_line_opening : ∃ steps r c, Reached {} [] (lines "/*\n*/ #ifdef X\n#endif\n".toList) steps r ∧
    steps.length = 1 ∧ classify {} [] (r.view {} "*/ #ifdef X\n".toList) r.lex "*/ #ifdef X\n".toList = .ok c ∧
    c.lex = ⟨.code, .dirty⟩ ∧ ∀ v c', classify {} [] v c.lex "#endif\n".toList = .ok c' → c'.kind = .plain := by
  let r : Run := ⟨1, ⟨.blockComment, .start⟩, ⟨[], ⟨0, 0, 0, false⟩, false⟩, some .lf⟩
  let c : Classified := ⟨.directive (.opening .unknown) true, "*/ #ifdef X\n".toList, ⟨.code, .dirty⟩, 4, false,
    ["X"], []⟩
  have hfirst : ({} : Run).advance {} [] "/*\n".toList = .ok ⟨.plain, "/*\n".toList, r, "/*\n".toList⟩ := by cbv
  have hr : Reached {} [] (lines "/*\n*/ #ifdef X\n#endif\n".toList) [_] r := Reached.start.next rfl hfirst
  have hend : Ended "*/ #ifdef X\n".toList := ⟨rfl, by simp only [joins_iff]; decide⟩
  have hc : classify {} [] (r.view {} "*/ #ifdef X\n".toList) r.lex "*/ #ifdef X\n".toList = .ok c := by cbv
  obtain ⟨-, -, hplain⟩ :=
    fresh_line {} [] [] _ rfl (by simp [Table.NoneIgnored]) (by cbv) hr hend hc rfl
  exact ⟨_, r, c, hr, rfl, hc, rfl, fun v c' => (hplain (by decide)).2 v _ c' (by simp [OneLine])⟩

end CondResolve
