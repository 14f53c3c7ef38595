import Mathlib
import CondResolve.Proofs.Advance

/-!
# The altered flag

A run that has changed nothing so far writes every line as it stands, and the groups that are open in it are all
written as they stand. The first line that is changed makes a difference to the text that no later line makes up
for: an edited keyword stays where it was, and in place of a dropped directive there is an empty line, a marker or
one line less. `altered_exact`: the flag tells whether the text is another one.
-/

namespace CondResolve

/-! ## Counting lines -/

theorem lines_flatten {ls : List Chars} (h : Physical ls) : lines ls.flatten = ls := by
  induction ls with
  | nil => rfl
  | cons l ls ih =>
    rw [List.flatten_cons]
    rcases h with ⟨hl, hls⟩ | ⟨rfl, hne, hn⟩
    · rw [lines_full hl, ih hls]
    · rw [List.flatten_nil, List.append_nil, lines_partial hne hn]

theorem length_lines_cons (c : Char) (cs : Chars) :
    (lines (c :: cs)).length = if c = '\n' then (lines cs).length + 1 else max 1 (lines cs).length := by
  rw [lines]
  by_cases hc : c = '\n'
  · simp [hc]
  · simp only [hc, if_false]
    cases lines cs with
    | nil => rfl
    | cons l ls => simp

theorem length_lines_append_le (a b : Chars) :
    (lines (a ++ b)).length ≤ (lines a).length + (lines b).length := by
  induction a with
  | nil => simp [lines]
  | cons c a ih =>
    rw [List.cons_append, length_lines_cons, length_lines_cons]
    split <;> omega

theorem OneLine.length_lines_le {l : Chars} (h : OneLine l) : (lines l).length ≤ 1 := by
  induction l with
  | nil => simp [lines]
  | cons c l ih =>
    have hl := ih h.tail
    rw [length_lines_cons]
    by_cases hc : c = '\n'
    · by_cases hne : l = []
      · simp [hc, hne, lines]
      · exact absurd hc (h.ne_newline hne)
    · rw [if_neg hc]
      omega

theorem OneLine.append {p cs : Chars} (hp : '\n' ∉ p) (h : OneLine cs) : OneLine (p ++ cs) := by
  induction p with
  | nil => exact h
  | cons c p ih =>
    rw [List.mem_cons, not_or] at hp
    exact .cons (Ne.symm hp.1) (ih hp.2)

theorem OneLine.not_mem_of_append {p w : Chars} (h : OneLine (p ++ w)) (hw : w ≠ []) : '\n' ∉ p := by
  unfold OneLine at h
  rw [List.dropLast_append_of_ne_nil hw, List.mem_append, not_or] at h
  exact h.1

theorem OneLine.not_mem_of_lacksNewline {l : Chars} (h : OneLine l) (hl : lacksNewline l = true) : '\n' ∉ l := by
  intro hm
  obtain rfl | ⟨q, a, rfl⟩ := List.eq_nil_or_concat l
  · cases hm
  · rw [List.concat_eq_append] at h hl hm
    have hq := h.not_mem_of_append (by simp)
    have ha : a ≠ '\n' := by simpa [lacksNewline] using hl
    simp [hq, Ne.symm ha] at hm

theorem FullLine.exists_append {l p u rest : Chars} (h : FullLine l) (hp : '\n' ∉ p) (heq : p ++ u = l ++ rest) :
    ∃ u', l = p ++ u' := by
  rcases List.append_eq_append_iff.1 heq with ⟨u', hl, -⟩ | ⟨q, rfl, -⟩
  · exact ⟨u', hl⟩
  · obtain ⟨body, -, rfl⟩ := h
    simp at hp

theorem symbolChar_notMem_newline {nl : Newline} {a : Char} (ha : isSymbolChar a = true) : a ∉ nl.chars := by
  have hne := ne_of_isSymbolChar ha
  cases nl <;> simp [Newline.chars, hne]

/-! ## Groups that are written as they stand -/

def Phase.isWhole : Phase → Bool
  | .passMiddle | .passElse => true
  | _ => false

/-- What becomes of a line in groups that are written as they stand: it is kept, or is an `#elif` that becomes an
`#else`, or is a directive that is dropped. -/
inductive WholeTurn (ps : List Phase) (k : LineKind) (turn : Turn) : Prop
  | kept : turn.keep = true → turn.edit = none → (∀ p ∈ turn.shift.phases ps, p.isWhole = true) →
    WholeTurn ps k turn
  | edited {x : Truth} {dodgy : Bool} : k = .directive (.elif x) dodgy → turn.keep = true →
    turn.edit = some .toElse → WholeTurn ps k turn
  | dropped {d : Directive} : k = .directive d false → d ≠ .closing → turn.keep = false → turn.edit = none →
    WholeTurn ps k turn

section
variable {permit : Bool} {ps : List Phase} {turn : Turn} (hw : ∀ p ∈ ps, p.isWhole = true)
include hw

theorem dropping_of_whole : dropping ps.head? = false := by
  cases ps with
  | nil => rfl
  | cons p ps =>
    have hp := hw p List.mem_cons_self
    cases p <;> simp_all [Phase.isWhole, dropping, Phase.drops]

theorem whole_cons {p : Phase} (hp : p.isWhole = true) : ∀ q ∈ p :: ps, q.isWhole = true := by
  intro q hq
  rcases List.mem_cons.1 hq with rfl | hq
  · exact hp
  · exact hw q hq

theorem whole_tail : ∀ q ∈ ps.tail, q.isWhole = true := fun q hq => hw q (List.mem_of_mem_tail hq)

theorem open_whole {d : Directive} {x : Truth} {ignored dodgy : Bool} (hd : d ≠ .closing)
    (h : openTurn permit ps.head? x ignored dodgy = .ok turn) : WholeTurn ps (.directive d dodgy) turn := by
  rcases openTurn_cases h with ⟨hdrop, -⟩ | ⟨-, -, rfl⟩ | ⟨-, rfl, -, rfl⟩ | ⟨-, rfl, -, rfl⟩
  · rw [dropping_of_whole hw] at hdrop
    cases hdrop
  · exact .kept rfl rfl (whole_cons hw rfl)
  · exact .dropped rfl hd rfl rfl
  · exact .dropped rfl hd rfl rfl

theorem elif_whole {x : Truth} {dodgy : Bool} (h : elifTurn permit ps.head? x dodgy = .ok turn) :
    WholeTurn ps (.directive (.elif x) dodgy) turn := by
  cases ps with
  | nil => cases h
  | cons p ps =>
    have hp := hw p List.mem_cons_self
    have htail := whole_tail hw
    cases p with
    | passMiddle =>
      have kept : WholeTurn (.passMiddle :: ps) (.directive (.elif x) dodgy) ⟨true, .branch .passMiddle, none⟩ :=
        .kept rfl rfl (whole_cons htail rfl)
      cases dodgy with
      | true => cases x <;> cases permit <;> cases h <;> exact kept
      | false =>
        cases x with
        | unknown => cases h; exact kept
        | yes => cases h; exact .edited rfl rfl rfl
        | no => cases h; exact .dropped rfl (by simp) rfl rfl
    | passElse => cases h
    | _ => cases hp

theorem else_whole {dodgy : Bool} (h : elseTurn ps.head? dodgy = .ok turn) :
    WholeTurn ps (.directive .otherwise dodgy) turn := by
  cases ps with
  | nil => cases h
  | cons p ps =>
    have hp := hw p List.mem_cons_self
    cases p with
    | passMiddle =>
      cases h
      exact .kept rfl rfl (whole_cons (whole_tail hw) rfl)
    | passElse => cases h
    | _ => cases hp

theorem close_whole {dodgy : Bool} (h : closeTurn ps.head? dodgy = .ok turn) :
    WholeTurn ps (.directive .closing dodgy) turn := by
  cases ps with
  | nil => cases h
  | cons p ps =>
    have hp := hw p List.mem_cons_self
    cases p with
    | passMiddle => cases h; exact .kept rfl rfl (whole_tail hw)
    | passElse => cases h; exact .kept rfl rfl (whole_tail hw)
    | _ => cases hp

theorem turn_whole {k : LineKind} (h : k.turn permit ps.head? = .ok turn) : WholeTurn ps k turn := by
  cases k with
  | plain =>
    obtain rfl : ⟨!dropping ps.head?, .stay, none⟩ = turn := Except.ok.inj h
    exact .kept (by simp [dropping_of_whole hw]) rfl hw
  | eof => cases h
  | unevaluable => cases h
  | directive d dodgy =>
    cases d with
    | guard holds => exact open_whole hw (by simp) h
    | opening x => exact open_whole hw (by simp) h
    | elif x => exact elif_whole hw h
    | otherwise => exact else_whole hw h
    | closing => exact close_whole hw h

end

/-! ## The text of a line -/

section
variable {s : Settings} {t : Table} {r : Run} {line : Chars} {c : Classified} {turn : Turn} {st : Step}

theorem line_of_classify {v : View} {lx : Lexical} (h : classify s t v lx line = .ok c) :
    c.altered = false ∧ c.line = line ∨
      c.altered = true ∧ lacksNewline line = true ∧ c.line = line ++ v.newline.chars := by
  obtain ⟨lk, w, -, hc⟩ := classify_eq_ok_iff.mp h
  rcases hc with ⟨-, rfl⟩ | ⟨-, -, -, lx', -, rfl⟩ | ⟨-, j, lx', d, -, -, rfl⟩
  · exact .inl ⟨rfl, rfl⟩
  · exact .inl ⟨rfl, rfl⟩
  · by_cases hl : (decide (lx'.line = .hash) && lacksNewline line) = true
    · exact .inr ⟨hl, (Bool.and_eq_true_iff.mp hl).2, if_pos hl⟩
    · exact .inl ⟨Bool.eq_false_iff.2 hl, if_neg hl⟩

theorem take_keyword {p w : Chars} {nl : Newline} (hkw : c.keyword = p.length)
    (hline : c.line = p ++ w ∨ lacksNewline (p ++ w) = true ∧ c.line = p ++ w ++ nl.chars) :
    c.line.take c.keyword = p := by
  rw [hkw]
  rcases hline with hline | ⟨-, hline⟩ <;> simp [hline]

theorem text_toElse (ha : Advances s t r line c turn st) {x : Truth} {dodgy : Bool}
    (hk : c.kind = .directive (.elif x) dodgy) (he : turn.edit = some .toElse) :
    ∃ p u v, turn.text (r.current line c) = p ++ 's' :: u ∧ line = p ++ 'i' :: v := by
  obtain ⟨p, w, lk, rfl, -, -, hkw, helif, -, hline⟩ := keyword_of_classify ha.classified hk
  obtain ⟨v, rfl⟩ := helif x rfl
  have htake := take_keyword hkw hline
  refine ⟨p ++ ['e', 'l'], 'e' :: (r.newlineAt (p ++ ("elif".toList ++ v))).chars, 'f' :: v, ?_, by simp⟩
  rw [Turn.text, he]
  show c.line.take c.keyword ++ "else".toList ++ _ = _
  rw [htake]
  simp [Run.current]

theorem oneLine_text (ho : OneLine line) (ha : Advances s t r line c turn st) :
    OneLine (turn.text (r.current line c)) := by
  have hcline : OneLine c.line := by
    rcases line_of_classify ha.classified with ⟨-, hline⟩ | ⟨-, hl, hline⟩
    · rwa [hline]
    · rw [hline]
      exact (fullLine_append (ho.not_mem_of_lacksNewline hl) _).oneLine
  unfold Turn.text
  cases he : turn.edit with
  | none => exact hcline
  | some e =>
    rcases kind_of_classify ha.classified with hk | ⟨d, dodgy, hk, -⟩
    · have hplain := (ha.plain hk).2.1
      rw [hplain] at he
      cases he
    · obtain ⟨p, w, lk, rfl, -, ⟨a, w, rfl, -⟩, hkw, -, -, hline⟩ := keyword_of_classify ha.classified hk
      have hp : '\n' ∉ p := ho.not_mem_of_append (by simp)
      have htake := take_keyword hkw hline
      cases e with
      | toIf =>
        show OneLine (c.line.take c.keyword ++ "if  ".toList ++ c.line.drop (c.keyword + 4))
        rw [htake]
        exact .append (by simp [hp]) (hcline.suffix (List.drop_suffix _ _))
      | toElse =>
        show OneLine (c.line.take c.keyword ++ "else".toList ++ _)
        rw [htake]
        exact (fullLine_append (by simp [hp]) _).oneLine
      | toEndif =>
        show OneLine (c.line.take c.keyword ++ "endif".toList ++ _)
        rw [htake]
        exact (fullLine_append (by simp [hp]) _).oneLine

theorem exists_lineMarker (s : Settings) (nl : Newline) (n : Nat) :
    ∃ u, lineMarker s nl n = "#line ".toList ++ u := by
  simp [lineMarker, String.toList_append]

/-- A marker is no conditional directive. -/
theorem plain_of_marker {v : View} {lx : Lexical} {u : Chars} (hm : lx.mode = .code)
    (h : classify s t v lx ("#line ".toList ++ u) = .ok c) : c.kind = .plain := by
  obtain ⟨lk, w, hfind, hc⟩ := classify_eq_ok_iff.mp h
  rcases hc with ⟨-, rfl⟩ | ⟨-, -, -, lx', -, rfl⟩ | ⟨hw, j, lx', d, hj, -, rfl⟩
  · rfl
  · rfl
  · obtain ⟨m, l⟩ := lx
    cases hm
    obtain ⟨ly, r, hs, -, hs'⟩ := findKeyword_eq_ok hw hfind
    have hhash : skip v.verbatim ⟨.code, l⟩ ('#' :: ("line ".toList ++ u)) =
        .ok (⟨.code, l⟩, '#' :: ("line ".toList ++ u)) := skip_stop rfl rfl
    obtain ⟨rfl, hr⟩ := Prod.mk.inj (Except.ok.inj (hs.symm.trans hhash))
    obtain rfl := (List.cons.inj hr).2
    have hword : skip v.verbatim ⟨.code, .hash⟩ ("line ".toList ++ u) = .ok (⟨.code, .hash⟩, "line ".toList ++ u) :=
      skip_stop rfl rfl
    obtain ⟨-, rfl⟩ := Prod.mk.inj (Except.ok.inj (hs'.symm.trans hword))
    have hnone : judge s t v lk ("line ".toList ++ u) = .ok none := rfl
    rw [hnone] at hj
    cases hj

section
variable {v : View} {lx : Lexical} {d : Directive} (hfull : FullLine line)
  (h : classify s t v lx line = .ok c) (hk : c.kind = .directive d false)
include hfull h hk

theorem newline_ne_directive {nl : Newline} {u rest : Chars} : nl.chars ++ u ≠ line ++ rest := by
  obtain ⟨p, w, lk, hline, -, ⟨a, w', rfl, ha, -⟩, -⟩ := keyword_of_classify h hk
  intro heq
  have hlines := congrArg lines heq
  rw [lines_full (fullLine_newline nl), lines_full hfull] at hlines
  have hmem : a ∈ nl.chars := by
    rw [(List.cons.inj hlines).1, hline]
    simp
  exact symbolChar_notMem_newline ha hmem

theorem marker_ne_directive {u rest : Chars} : "#line ".toList ++ u ≠ line ++ rest := by
  obtain ⟨-, -, -, -, -, -, -, -, hmode, -⟩ := keyword_of_classify h hk
  intro heq
  obtain ⟨u', rfl⟩ := hfull.exists_append (by decide) heq
  rw [plain_of_marker (hmode rfl) h] at hk
  cases hk

end

def Trace.altered (tr : Trace) : Bool := tr.steps.getLast?.any (·.run.altered)

theorem altered_cons {ls : List Chars} (hf : (st.run.trace s t ls).failure = none) :
    Trace.altered ⟨st :: (st.run.trace s t ls).steps, (st.run.trace s t ls).failure⟩ =
      (st.run.trace s t ls).altered := by
  have hne := steps_ne_nil hf
  cases hs : (st.run.trace s t ls).steps with
  | nil => exact absurd hs hne
  | cons st' sts => simp [Trace.altered, hs]

end

/-! ## Runs that have changed nothing -/

structure Run.Pristine (r : Run) : Prop where
  altered : r.altered = false
  dropped : r.machine.writer.dropped = 0
  blanks : r.machine.writer.blanks = r.machine.writer.blankMax

section
variable {s : Settings} {t : Table} {r : Run} {line : Chars} {c : Classified} {turn : Turn} {st : Step}
  (hq : s.Silent)
include hq

/-- A line is absorbed or written, or it is dropped. -/
theorem written_cases (r : Run) (line : Chars) (c : Classified) (turn : Turn) :
    ((turn.keep != s.complement) = true ∧
      (r.machine.writer.blanks ≠ r.machine.writer.blankMax ∧
          r.written s line c turn = ((r.writing c turn).absorb, []) ∨
        r.written s line c turn = (r.writing c turn).write s (r.newlineAt line) (r.number + 1)
          (turn.text (r.current line c)))) ∨
    ((turn.keep != s.complement) = false ∧
      r.written s line c turn = (r.writing c turn).drop s (r.newlineAt line)) := by
  unfold Run.written Writer.flush
  simp only [hq.listing, Bool.false_eq_true, if_false]
  by_cases hk : (turn.keep != s.complement) = true
  · refine .inl ⟨hk, ?_⟩
    rw [if_pos hk]
    by_cases hb : (isBlank (turn.text (r.current line c)) && s.compressBlanks &&
        decide ((r.writing c turn).blanks ≠ (r.writing c turn).blankMax)) = true
    · rw [if_pos hb]
      exact .inl ⟨of_decide_eq_true (Bool.and_eq_true_iff.mp hb).2, rfl⟩
    · rw [if_neg hb]
      exact .inr rfl
  · rw [if_neg hk]
    exact .inr ⟨Bool.eq_false_iff.2 hk, rfl⟩

/-- All that sets the flag: a newline that was missing, an edit and a dropped line. -/
theorem Advances.altered (ha : Advances s t r line c turn st) :
    st.run.altered = (r.altered || c.altered || turn.edit.isSome || !(turn.keep != s.complement)) := by
  rw [Run.altered, ha.writer]
  rcases written_cases hq r line c turn with ⟨hk, ⟨-, hf⟩ | hf⟩ | ⟨hk, hf⟩ <;> rw [hf, hk] <;>
    simp [Writer.absorb, Writer.write, Writer.drop, Run.writing, Run.altered]

theorem Run.Pristine.flush (h : r.Pristine) (line : Chars) (c : Classified)
    (hk : (turn.keep != s.complement) = true) :
    (r.written s line c turn).2 = turn.text (r.current line c) ∧
      (r.written s line c turn).1.dropped = 0 ∧
      (r.written s line c turn).1.blanks = (r.written s line c turn).1.blankMax := by
  have hw : r.written s line c turn = (r.writing c turn).write s (r.newlineAt line) (r.number + 1)
      (turn.text (r.current line c)) := by
    rcases written_cases hq r line c turn with ⟨-, ⟨hne, -⟩ | hf⟩ | ⟨hk', -⟩
    · exact absurd h.blanks hne
    · exact hf
    · rw [hk] at hk'
      cases hk'
  have hd : (r.writing c turn).dropped = 0 := h.dropped
  rw [hw]
  simp [Writer.write, hd]

theorem Run.Pristine.advance (h : r.Pristine) (ha : Advances s t r line c turn st) (hst : st.run.altered = false) :
    st.out = line ∧ st.run.Pristine := by
  have hflags := hst
  rw [ha.altered hq] at hflags
  simp only [Bool.or_eq_false_iff, Bool.not_eq_false'] at hflags
  obtain ⟨⟨⟨-, hc⟩, he⟩, hk⟩ := hflags
  obtain ⟨hout, hdropped, hblanks⟩ := h.flush hq line c hk
  rw [← ha.writer] at hdropped hblanks
  refine ⟨?_, hst, hdropped, hblanks⟩
  have hed : turn.edit = none := by simpa using he
  rcases line_of_classify ha.classified with ⟨-, hline⟩ | ⟨hc', -⟩
  · rw [ha.out, hout, Turn.text, hed]
    exact hline
  · rw [hc] at hc'
    cases hc'

/-! ## The first change -/

/-- What the first line that is changed comes to. -/
inductive Changes (line : Chars) (c : Classified) (turn : Turn) (out : Chars) : Prop
  | ended {nl : Newline} : lacksNewline line = true → out = line ++ nl.chars → Changes line c turn out
  | edited {p u v : Chars} {x y : Char} : out = p ++ x :: u → line = p ++ y :: v → x ≠ y → Changes line c turn out
  | dropped {d : Directive} :
      c.kind = .directive d false → d ≠ .closing → turn.keep = false → Changes line c turn out

def Run.Whole (r : Run) : Prop := ∀ p ∈ r.machine.stack.phases, p.isWhole = true

theorem Run.Pristine.changes (h : r.Pristine) (hc : s.complement = false) (hw : r.Whole)
    (ha : Advances s t r line c turn st) (hst : st.run.altered = true) : Changes line c turn st.out := by
  have hturn := ha.turned
  rw [Stack.phase?_eq] at hturn
  have kept : turn.keep = true → st.out = turn.text (r.current line c) := by
    intro hk
    rw [ha.out]
    exact (h.flush hq line c (by simp [hk, hc])).1
  cases turn_whole hw hturn with
  | kept hk he _ =>
    have hca : c.altered = true := by
      rw [ha.altered hq] at hst
      simpa [h.altered, he, hk, hc] using hst
    rcases line_of_classify ha.classified with ⟨hc', -⟩ | ⟨-, hl, hline⟩
    · rw [hc'] at hca
      cases hca
    · have hout : st.out = line ++ (r.newlineAt line).chars := by
        rw [kept hk, Turn.text, he]
        exact hline
      exact .ended hl hout
  | edited hkind hk he =>
    obtain ⟨p, u, v, htext, hline⟩ := text_toElse ha hkind he
    exact .edited ((kept hk).trans htext) hline (by decide)
  | dropped hkind hd hk _ => exact .dropped hkind hd hk

theorem Run.Whole.advance (hw : r.Whole) (hc : s.complement = false)
    (ha : Advances s t r line c turn st) (hst : st.run.altered = false) : st.run.Whole := by
  have hturn := ha.turned
  rw [Stack.phase?_eq] at hturn
  rw [ha.altered hq] at hst
  unfold Run.Whole
  rw [Shift.phases_of_apply ha.stack]
  cases turn_whole hw hturn with
  | kept _ _ hps => exact hps
  | edited _ _ he => simp [he] at hst
  | dropped _ _ hk _ => simp [hk, hc] at hst

/-! ## What follows a dropped line -/

/-- Without markers and placeholders a line is written as one line at most. -/
theorem length_lines_out (hb : s.blankPlaceholders = false) (hm : s.lineMarkers = false) (ho : OneLine line)
    (ha : Advances s t r line c turn st) : (lines st.out).length ≤ 1 := by
  rw [ha.out]
  rcases written_cases hq r line c turn with ⟨-, ⟨-, hf⟩ | hf⟩ | ⟨-, hf⟩
  · rw [hf]
    simp [lines]
  · rw [hf]
    simpa [Writer.write, hm] using (oneLine_text ho ha).length_lines_le
  · rw [hf]
    simp [Writer.drop, hb, lines]

theorem length_lines_text (hb : s.blankPlaceholders = false) (hm : s.lineMarkers = false) {ls : List Chars}
    (hp : Physical ls) (hf : (r.trace s t ls).failure = none) :
    (lines (r.trace s t ls).text).length ≤ ls.length := by
  induction ls generalizing r with
  | nil => simp [text_of_complete hq (complete_of_finish hf), lines]
  | cons line ls ih =>
    obtain ⟨st, c, turn, hadv, ha⟩ := advances_of_trace hq hf
    rw [trace_of_advance hadv] at hf ⊢
    rw [text_cons]
    have hout := length_lines_out hq hb hm hp.oneLine ha
    have hrest := ih hp.tail hf
    have happ := length_lines_append_le st.out (st.run.trace s t ls).text
    rw [List.length_cons]
    omega

/-- After dropped lines the text goes on with a marker, if it does. -/
theorem text_after_drop (hb : s.blankPlaceholders = false) (hm : s.lineMarkers = true) {ls : List Chars}
    (hd : 0 < r.machine.writer.dropped) (hf : (r.trace s t ls).failure = none) :
    (r.trace s t ls).text = [] ∨ ∃ u, (r.trace s t ls).text = "#line ".toList ++ u := by
  induction ls generalizing r with
  | nil => exact .inl (text_of_complete hq (complete_of_finish hf))
  | cons line ls ih =>
    obtain ⟨st, c, turn, hadv, ha⟩ := advances_of_trace hq hf
    rw [trace_of_advance hadv] at hf ⊢
    rw [text_cons]
    have hout := ha.out
    have hwriter := ha.writer
    rcases written_cases hq r line c turn with ⟨-, ⟨-, hfl⟩ | hfl⟩ | ⟨-, hfl⟩
    · rw [hfl] at hout hwriter
      rw [hout]
      exact ih (by rw [hwriter]; exact Nat.succ_pos _) hf
    · rw [hfl] at hout
      have hd' : 0 < (r.writing c turn).dropped := hd
      obtain ⟨u, hu⟩ := exists_lineMarker s (r.newlineAt line) (r.number + 1)
      have hout' : st.out = "#line ".toList ++ u ++ turn.text (r.current line c) := by
        simpa [Writer.write, hm, hd', hu] using hout
      rw [hout', List.append_assoc, List.append_assoc]
      exact .inr ⟨_, rfl⟩
    · rw [hfl] at hout hwriter
      have hout' : st.out = [] := by simpa [Writer.drop, hb] using hout
      rw [hout']
      exact ih (by rw [hwriter]; exact Nat.succ_pos _) hf

/-- Nothing that follows makes up for a dropped directive. -/
theorem text_ne_of_drop (hc : s.complement = false) {ls : List Chars} (hfull : FullLine line) (hp : Physical ls)
    (ha : Advances s t r line c turn st) {d : Directive} (hk : c.kind = .directive d false)
    (hdrop : turn.keep = false) (hf : (st.run.trace s t ls).failure = none) :
    st.out ++ (st.run.trace s t ls).text ≠ line ++ ls.flatten := by
  have hfl : r.written s line c turn = (r.writing c turn).drop s (r.newlineAt line) := by
    rcases written_cases hq r line c turn with ⟨hk', -⟩ | ⟨-, hfl⟩
    · simp [hdrop, hc] at hk'
    · exact hfl
  have hout : st.out = if s.blankPlaceholders then (r.newlineAt line).chars else [] := by
    rw [ha.out, hfl]
    rfl
  by_cases hb : s.blankPlaceholders = true
  · rw [hout, if_pos hb]
    exact newline_ne_directive hfull ha.classified hk
  · have hb : s.blankPlaceholders = false := Bool.eq_false_iff.2 hb
    rw [hout, hb, if_neg (by simp), List.nil_append]
    by_cases hm : s.lineMarkers = true
    · -- The next thing written starts with a marker, which is no directive of the source.
      have hdropped : 0 < st.run.machine.writer.dropped := by
        rw [ha.writer, hfl]
        exact Nat.succ_pos _
      rcases text_after_drop hq hb hm hdropped hf with htext | ⟨u, htext⟩
      · rw [htext]
        intro heq
        exact hfull.ne_nil (List.append_eq_nil_iff.1 heq.symm).1
      · rw [htext]
        exact marker_ne_directive hfull ha.classified hk
    · -- A line is missing.
      have hm : s.lineMarkers = false := Bool.eq_false_iff.2 hm
      intro heq
      have hcount := length_lines_text hq hb hm hp hf
      have hlines : lines (st.run.trace s t ls).text = line :: ls := by
        rw [heq, ← List.flatten_cons]
        exact lines_flatten (.inl ⟨hfull, hp⟩)
      rw [hlines, List.length_cons] at hcount
      omega

/-! ## Whole runs -/

theorem altered_nil (hf : (r.trace s t []).failure = none) : (r.trace s t []).altered = r.altered := by
  have hend : r.trace s t [] = _ := finish_of_complete hq (complete_of_finish hf)
  rw [hend]
  rfl

theorem altered_of_trace {ls : List Chars} (hf : (r.trace s t ls).failure = none) (h : r.altered = true) :
    (r.trace s t ls).altered = true := by
  induction ls generalizing r with
  | nil => rw [altered_nil hq hf, h]
  | cons line ls ih =>
    obtain ⟨st, c, turn, hadv, ha⟩ := advances_of_trace hq hf
    rw [trace_of_advance hadv] at hf ⊢
    rw [altered_cons hf]
    refine ih hf ?_
    rw [ha.altered hq, h]
    simp

theorem text_of_unaltered {ls : List Chars} (h : r.Pristine) (hf : (r.trace s t ls).failure = none)
    (ht : (r.trace s t ls).altered = false) : (r.trace s t ls).text = ls.flatten := by
  induction ls generalizing r with
  | nil => exact text_of_complete hq (complete_of_finish hf)
  | cons line ls ih =>
    obtain ⟨st, c, turn, hadv, ha⟩ := advances_of_trace hq hf
    rw [trace_of_advance hadv] at hf ht ⊢
    rw [altered_cons hf] at ht
    have hst : st.run.altered = false := by
      rw [Bool.eq_false_iff]
      intro hst
      rw [altered_of_trace hq hf hst] at ht
      cases ht
    obtain ⟨hout, hpristine⟩ := h.advance hq ha hst
    rw [text_cons, hout, List.flatten_cons, ih hpristine hf ht]

theorem text_of_altered (hc : s.complement = false) {ls : List Chars} (hp : Physical ls) (h : r.Pristine)
    (hw : r.Whole) (hf : (r.trace s t ls).failure = none) (ht : (r.trace s t ls).altered = true) :
    (r.trace s t ls).text ≠ ls.flatten := by
  induction ls generalizing r with
  | nil =>
    rw [altered_nil hq hf, h.altered] at ht
    cases ht
  | cons line ls ih =>
    obtain ⟨st, c, turn, hadv, ha⟩ := advances_of_trace hq hf
    rw [trace_of_advance hadv] at hf ht ⊢
    rw [altered_cons hf] at ht
    rw [text_cons, List.flatten_cons]
    cases hst : st.run.altered with
    | false =>
      obtain ⟨hout, hpristine⟩ := h.advance hq ha hst
      intro heq
      rw [hout] at heq
      exact ih hp.tail hpristine (hw.advance hq hc ha hst) hf ht (List.append_cancel_left heq)
    | true =>
      have hlast : ls = [] → st.run.Complete := by
        rintro rfl
        exact complete_of_finish hf
      -- What the first changed line came to tells how the texts differ.
      cases h.changes hq hc hw ha hst with
      | @ended nl hl hout =>
        obtain rfl : ls = [] := by
          rcases hp with ⟨hfull, -⟩ | ⟨hnil, -⟩
          · rw [hfull.lacksNewline] at hl
            cases hl
          · exact hnil
        rw [hout, text_of_complete hq (hlast rfl)]
        cases nl <;> simp [Newline.chars]
      | @edited p u v x y hout hline hxy =>
        rw [hout, hline]
        simp [hxy]
      | @dropped d hk hd hdrop =>
        rcases hp with ⟨hfull, hls⟩ | ⟨hnil, -⟩
        · exact text_ne_of_drop hq hc hfull hls ha hk hdrop hf
        · exact absurd (ha.closing hk (hlast hnil)).1 hd

end

/-- The flag is exact: without it the text is the source, and with it, unless lines are complemented, it is not. -/
theorem altered_exact (s : Settings) (symbols : List Symbol) (script source : Chars) (out : Resolved)
    (hq : s.Silent) (h : resolve s symbols script source = .ok out) :
    (out.altered = false → out.text = source) ∧
      (s.complement = false → (out.altered = true ↔ out.text ≠ source)) := by
  obtain ⟨t, -, -, hres⟩ := resolve_eq_ok_iff.mp h
  obtain ⟨hf, rfl⟩ := resolved_eq_ok_iff.mp hres
  have hp := physical_lines source
  have hstart : ({} : Run).Pristine := ⟨rfl, rfl, rfl⟩
  have hwhole : ({} : Run).Whole := by simp [Run.Whole, Stack.phases]
  have same : ∀ ha : (Run.trace s t {} (lines source)).altered = false,
      (Run.trace s t {} (lines source)).text = source := by
    intro ha
    rw [text_of_unaltered hq hstart hf ha, flatten_lines]
  refine ⟨same, ?_⟩
  intro hc
  constructor
  · intro ha
    have hne := text_of_altered hq hc hp hstart hwhole hf ha
    rwa [flatten_lines] at hne
  · intro hne
    cases ha : (Run.trace s t {} (lines source)).altered with
    | true => exact ha
    | false => exact absurd (same ha) hne

theorem altered_exact_marked :
    resolve { compressBlanks := true, lineMarkers := true } [⟨"A", some "1", false⟩] []
        "#ifdef A\n\n#ifdef B\n#endif\n#endif\n".toList = .ok ⟨"#line 3\n#ifdef B\n#endif\n".toList, true⟩ ∧
      "#line 3\n#ifdef B\n#endif\n".toList ≠ "#ifdef A\n\n#ifdef B\n#endif\n#endif\n".toList := by
  have h : resolve { compressBlanks := true, lineMarkers := true } [⟨"A", some "1", false⟩] []
      "#ifdef A\n\n#ifdef B\n#endif\n#endif\n".toList = .ok ⟨"#line 3\n#ifdef B\n#endif\n".toList, true⟩ := by cbv
  exact ⟨h, ((altered_exact _ _ _ _ _ ⟨rfl, rfl, rfl⟩ h).2 rfl).1 rfl⟩

end CondResolve
