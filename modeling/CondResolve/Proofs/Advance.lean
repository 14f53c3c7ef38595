import CondResolve.Resolve
import CondResolve.Proofs.Classify
import CondResolve.Proofs.Turn

/-!
# Runs line by line

A run advances by one physical line at a time: the line is classified, takes its turn and is written or
dropped. `advances_of_advance` says all that one line can do to a run whose settings ask for nothing but lines,
and `advance_of_turn` that it does it.
-/

namespace CondResolve

/-! ## Physical lines -/

/-- A line with its newline. -/
def FullLine (l : Chars) : Prop := ∃ body, '\n' ∉ body ∧ l = body ++ ['\n']

/-- Only the last line may lack its newline. -/
def Physical : List Chars → Prop
  | [] => True
  | l :: ls => FullLine l ∧ Physical ls ∨ ls = [] ∧ l ≠ [] ∧ '\n' ∉ l

theorem FullLine.ne_nil {l : Chars} (h : FullLine l) : l ≠ [] := by
  obtain ⟨body, -, rfl⟩ := h
  simp

theorem FullLine.oneLine {l : Chars} (h : FullLine l) : OneLine l := by
  obtain ⟨body, hb, rfl⟩ := h
  simpa [OneLine] using hb

theorem FullLine.lacksNewline {l : Chars} (h : FullLine l) : lacksNewline l = false := by
  obtain ⟨body, -, rfl⟩ := h
  simp [CondResolve.lacksNewline]

theorem OneLine.of_not_mem {l : Chars} (h : '\n' ∉ l) : OneLine l := fun hm => h ((List.dropLast_sublist l).mem hm)

theorem Physical.oneLine {l : Chars} {ls : List Chars} (h : Physical (l :: ls)) : OneLine l := by
  rcases h with ⟨h, -⟩ | ⟨-, -, h⟩
  · exact h.oneLine
  · exact .of_not_mem h

theorem Physical.tail {l : Chars} {ls : List Chars} (h : Physical (l :: ls)) : Physical ls := by
  rcases h with ⟨-, h⟩ | ⟨rfl, -⟩
  · exact h
  · trivial

theorem physical_lines (cs : Chars) : Physical (lines cs) := by
  induction cs with
  | nil => trivial
  | cons c cs ih =>
    rw [lines]
    split
    · rename_i hc
      exact .inl ⟨⟨[], by simp, by simp [hc]⟩, ih⟩
    · rename_i hc
      split
      · exact .inr ⟨rfl, by simp, by simpa using Ne.symm hc⟩
      · rename_i l ls hl
        rw [hl] at ih
        rcases ih with ⟨⟨body, hb, rfl⟩, hls⟩ | ⟨rfl, hne, hn⟩
        · exact .inl ⟨⟨c :: body, by simp [hb, Ne.symm hc], rfl⟩, hls⟩
        · exact .inr ⟨rfl, by simp, by simp [hn, Ne.symm hc]⟩

theorem lines_full {l : Chars} (h : FullLine l) (cs : Chars) : lines (l ++ cs) = l :: lines cs := by
  obtain ⟨body, hb, rfl⟩ := h
  induction body with
  | nil => simp [lines]
  | cons c body ih =>
    rw [List.mem_cons, not_or] at hb
    rw [List.cons_append, List.cons_append, lines, if_neg (Ne.symm hb.1), ih hb.2]

theorem lines_partial {l : Chars} (hne : l ≠ []) (hn : '\n' ∉ l) : lines l = [l] := by
  induction l with
  | nil => exact absurd rfl hne
  | cons c l ih =>
    rw [List.mem_cons, not_or] at hn
    rw [lines, if_neg (Ne.symm hn.1)]
    cases l with
    | nil => rfl
    | cons d l => rw [ih (by simp) hn.2]

theorem fullLine_newline (nl : Newline) : FullLine nl.chars := by
  cases nl with
  | lf => exact ⟨[], by simp, rfl⟩
  | crlf => exact ⟨['\r'], by simp, rfl⟩

theorem fullLine_append {l : Chars} (h : '\n' ∉ l) (nl : Newline) : FullLine (l ++ nl.chars) := by
  cases nl with
  | lf => exact ⟨l, h, rfl⟩
  | crlf => exact ⟨l ++ ['\r'], by simp [h], by simp [Newline.chars]⟩

theorem FullLine.of_append {p w : Chars} (h : FullLine (p ++ w)) (hw : w ≠ []) : '\n' ∉ p ∧ FullLine w := by
  obtain ⟨body, hb, he⟩ := h
  obtain rfl | ⟨q, a, rfl⟩ := List.eq_nil_or_concat w
  · exact absurd rfl hw
  · rw [List.concat_eq_append] at he ⊢
    rw [← List.append_assoc] at he
    obtain ⟨rfl, ha⟩ := List.append_inj' he rfl
    rw [List.mem_append, not_or] at hb
    exact ⟨hb.1, q, hb.2, by rw [ha]⟩

theorem FullLine.append {p w : Chars} (hp : '\n' ∉ p) (h : FullLine w) : FullLine (p ++ w) := by
  obtain ⟨body, hb, rfl⟩ := h
  exact ⟨p ++ body, by simp [hp, hb], by simp⟩

theorem fullLine_edit {p w : Chars} (hl : FullLine (p ++ w)) (hw : StartsWord w) (e : Edit)
    (he : e = .toIf → ∃ r, w = "elif".toList ++ r) {cur : Current} (hline : cur.line = p ++ w)
    (hkw : cur.keyword = p.length) : FullLine (e.apply cur) := by
  have hne : w ≠ [] := by
    obtain ⟨a, r, rfl, -⟩ := hw
    simp
  obtain ⟨hp, hw⟩ := hl.of_append hne
  unfold Edit.apply
  rw [hline, hkw, List.take_left']
  cases e with
  | toIf =>
    obtain ⟨r, rfl⟩ := he rfl
    have hr : r ≠ [] := by
      rintro rfl
      have := hw.lacksNewline
      simp [lacksNewline] at this
    have hdrop : (p ++ ("elif".toList ++ r)).drop (p.length + 4) = r := by
      rw [List.drop_length_add_append]
      rfl
    rw [hdrop]
    exact .append (by simp [hp]) (hw.of_append hr).2
  | toElse => exact fullLine_append (by simp [hp]) _
  | toEndif => exact fullLine_append (by simp [hp]) _
  all_goals rfl

theorem Clean.fullLine_edit {s : Settings} {t : Table} {v : View} {lx lk lx' : Lexical} {line w : Chars}
    {d : Directive} {j : Judged} (hc : Clean s t v lx line d lk w j lx') (hl : FullLine line) (e : Edit)
    (he : e = .toIf → ∃ x, d = .elif x) {cur : Current} (hline : cur.line = line)
    (hkw : cur.keyword = line.length - w.length) : FullLine (e.apply cur) := by
  have hsplit := hc.split
  refine CondResolve.fullLine_edit (by rwa [← hsplit]) hc.startsWord e (fun h => ?_) (by rwa [← hsplit]) ?_
  · obtain ⟨x, rfl⟩ := he h
    obtain ⟨r, hr, -⟩ := hc.drop_elif
    exact ⟨r, hr⟩
  · simp [hkw]

theorem Clean.reads_text {s : Settings} {t : Table} {v : View} {lx lk : Lexical} {line w : Chars} {d : Directive}
    {j : Judged} (hc : Clean s t v lx line d lk w j {}) (hl : FullLine line) {turn : Turn}
    (he : turn.edit = some .toIf → ∃ x, d = .elif x) {cur : Current} (hline : cur.line = line)
    (hkw : cur.keyword = line.length - w.length) :
    Reads s t v.verbatim {} (turn.text cur) (.directive (d.edited turn.edit) false) cur.keyword {} ∧
      FullLine (turn.text cur) := by
  unfold Turn.text
  cases hed : turn.edit with
  | none =>
    simp only [hline, hkw, Directive.edited]
    exact ⟨hc.reads, hl⟩
  | some e =>
    have he : e = .toIf → ∃ x, d = .elif x := fun h => he (by rw [hed, h])
    exact ⟨hc.reads_edit e he hline hkw, hc.fullLine_edit hl e he hline hkw⟩

/-! ## Settings that ask for nothing but lines -/

structure Settings.Silent (s : Settings) : Prop where
  debug : s.debug = false
  symbolList : s.symbolList = false
  symbolDepth : s.symbolDepth = false

structure Settings.Quiet (s : Settings) : Prop where
  complement : s.complement = false
  debug : s.debug = false
  lineMarkers : s.lineMarkers = false
  symbolList : s.symbolList = false
  symbolDepth : s.symbolDepth = false

section
variable {s : Settings}

theorem Settings.Silent.listing (hq : s.Silent) : s.listing = false := by
  simp [Settings.listing, hq.symbolList, hq.symbolDepth]

theorem note_silent (hq : s.Silent) (message : String) : note s message = [] := by simp [note, hq.debug]

section
variable (hq : s.Quiet)
include hq

theorem Settings.Quiet.silent : s.Silent := ⟨hq.debug, hq.symbolList, hq.symbolDepth⟩

theorem Settings.Quiet.listing : s.listing = false := hq.silent.listing

theorem flush_drop (nl : Newline) (n : Nat) (line : Chars) (w : Writer) :
    w.flush s nl n false line = w.drop s nl := by
  simp [Writer.flush, hq.listing, hq.complement]

theorem flush_absorb {nl : Newline} {n : Nat} {line : Chars} {w : Writer} (hb : isBlank line = true)
    (hc : s.compressBlanks = true) (hw : w.blanks ≠ w.blankMax) : w.flush s nl n true line = (w.absorb, []) := by
  simp [Writer.flush, hq.listing, hq.complement, hb, hc, hw]

theorem flush_write {nl : Newline} {n : Nat} {line : Chars} {w : Writer}
    (h : ¬(isBlank line = true ∧ s.compressBlanks = true ∧ w.blanks ≠ w.blankMax)) :
    w.flush s nl n true line =
      ({ w with
          dropped := 0
          blanks := if isBlank line then w.blanks + 1 else 0
          blankMax := if isBlank line then w.blanks + 1 else 0 }, line) := by
  have hf : (isBlank line && s.compressBlanks && decide (w.blanks ≠ w.blankMax)) = false := by
    by_cases hb : isBlank line = true <;> by_cases hc : s.compressBlanks = true <;> simp_all
  simp only [Writer.flush, hq.listing, hq.complement, hf, Writer.write, hq.lineMarkers]
  simp

end

end

/-! ## One line -/

namespace Run

def current (r : Run) (line : Chars) (c : Classified) : Current :=
  ⟨c.line, r.number + 1, c.keyword, c.lex.mode, r.newlineAt line⟩

def advance (s : Settings) (t : Table) (r : Run) (line : Chars) : Except Failure Step :=
  r.read s t line >>= Pending.step s

def writing (r : Run) (c : Classified) (turn : Turn) : Writer :=
  { r.machine.writer with altered := r.machine.writer.altered || c.altered || turn.edit.isSome }

def written (s : Settings) (r : Run) (line : Chars) (c : Classified) (turn : Turn) : Writer × Chars :=
  (r.writing c turn).flush s (r.newlineAt line) (r.number + 1) turn.keep (turn.text (r.current line c))

end Run

/-- The run `r` comes by `line`, classified as `c`, and its `turn` to `st`. -/
structure Advances (s : Settings) (t : Table) (r : Run) (line : Chars) (c : Classified) (turn : Turn) (st : Step) :
    Prop where
  classified : classify s t (r.view s line) r.lex line = .ok c
  turned : c.kind.turn s.permitObfuscated r.machine.stack.phase? = .ok turn
  stack : turn.shift.apply (r.number + 1) r.machine.stack = .ok st.run.machine.stack
  kind : st.kind = c.kind
  lex : st.run.lex = c.lex
  writer : st.run.machine.writer = (r.written s line c turn).1
  out : st.out = (r.written s line c turn).2

section
variable {s : Settings} {t : Table} {r : Run} {line : Chars} {ls : List Chars} {c : Classified} {st : Step}

theorem note_of_judge (hq : s.Silent) {v : View} {lk : Lexical} {w : Chars} {j : Judged}
    (h : judge s t v lk w = .ok (some j)) : j.note = [] := by
  have condition : ∀ {form : Truth → Directive} {r : Chars}, judgeCondition s t v form lk r = .ok j →
      j.note = [] := by
    intro form r hj
    rcases judgeCondition_eq_ok hj with ⟨_, _, _, -, rfl⟩ | ⟨f, _, -, rfl⟩
    · rfl
    · exact note_silent hq _
  rcases judge_cases h with ⟨negated, r, -, hj⟩ | ⟨r, -, hj⟩ | ⟨r, -, hj⟩ | ⟨r, -, rfl⟩ | ⟨r, -, -, rfl⟩
  · obtain ⟨_, _, -, ⟨-, rfl⟩ | ⟨-, rfl⟩⟩ := judgeTest_eq_ok hj <;> rfl
  · exact condition hj
  · exact condition hj
  · rfl
  · rfl

theorem out_of_classify (hq : s.Silent) {v : View} {lx : Lexical} (h : classify s t v lx line = .ok c) :
    c.out = [] := by
  obtain ⟨lk, w, -, hc⟩ := classify_eq_ok_iff.mp h
  rcases hc with ⟨-, rfl⟩ | ⟨-, -, -, lx', -, rfl⟩ | ⟨-, j, lx', d, hj, -, rfl⟩
  · rfl
  · rfl
  · simp [settleLine, listNames, hq.symbolList, hq.symbolDepth, note_of_judge hq hj, note_silent hq]

theorem kind_ne_eof_of_classify {v : View} {lx : Lexical} (h : classify s t v lx line = .ok c) :
    c.kind ≠ .eof := by
  rcases kind_of_classify h with hk | ⟨d, dodgy, hk, -⟩ <;> simp [hk]

theorem advance_eq (hc : classify s t (r.view s line) r.lex line = .ok c) : r.advance s t line =
    ((r.seen s (r.newlineAt line) c).machine.step s (r.current line c) c.kind).map fun m =>
      ⟨c.kind, m.line, { r.seen s (r.newlineAt line) c with machine := m.machine }, c.out ++ m.out⟩ := by
  have hread : r.read s t line =
      .ok ⟨r.seen s (r.newlineAt line) c, c.kind, r.current line c, c.out⟩ := by
    unfold Run.read
    exact bind_eq_ok.mpr ⟨c, hc, rfl⟩
  unfold Run.advance
  rw [hread]
  show Pending.step s _ = _
  unfold Pending.step
  cases (r.seen s (r.newlineAt line) c).machine.step s (r.current line c) c.kind <;> rfl

theorem advances_of_advance (hq : s.Silent) (h : r.advance s t line = .ok st) :
    ∃ c turn, Advances s t r line c turn st := by
  obtain ⟨c, hc⟩ : ∃ c, classify s t (r.view s line) r.lex line = .ok c := by
    obtain ⟨p, hp, -⟩ := bind_eq_ok.mp h
    obtain ⟨c, hc, -⟩ := bind_eq_ok.mp hp
    exact ⟨c, hc⟩
  rw [advance_eq hc] at h
  obtain ⟨m, hm, rfl⟩ : ∃ m, (r.seen s (r.newlineAt line) c).machine.step s (r.current line c) c.kind = .ok m ∧
      ⟨c.kind, m.line, { r.seen s (r.newlineAt line) c with machine := m.machine }, c.out ++ m.out⟩ = st := by
    cases hm : (r.seen s (r.newlineAt line) c).machine.step s (r.current line c) c.kind with
    | error f => rw [hm] at h; cases h
    | ok m => rw [hm] at h; exact ⟨m, rfl, Except.ok.inj h⟩
  obtain ⟨turn, stack, ht, hs, rfl⟩ := (Machine.step_eq_ok_iff (kind_ne_eof_of_classify hc)).mp hm
  refine ⟨c, turn, hc, ht, hs, rfl, rfl, rfl, ?_⟩
  simp only [out_of_classify hq hc, Machine.report, note_silent hq, List.nil_append, List.append_nil]
  rfl

theorem advance_eq_of_turn {turn : Turn} {stack : Stack} (hc : classify s t (r.view s line) r.lex line = .ok c)
    (ht : c.kind.turn s.permitObfuscated r.machine.stack.phase? = .ok turn)
    (hs : turn.shift.apply (r.number + 1) r.machine.stack = .ok stack) :
    let m := (r.seen s (r.newlineAt line) c).machine.turned s (r.current line c) turn stack
    r.advance s t line = .ok ⟨c.kind, turn.text (r.current line c),
      { r.seen s (r.newlineAt line) c with machine := m },
      c.out ++ ((r.written s line c turn).2 ++ m.report s (r.number + 1) c.kind)⟩ := by
  have hm := (Machine.step_eq_ok_iff (s := s) (c := r.current line c)
    (m := (r.seen s (r.newlineAt line) c).machine) (kind_ne_eof_of_classify hc)).mpr ⟨turn, stack, ht, hs, rfl⟩
  rw [advance_eq hc, hm]
  rfl

theorem advance_of_turn (hq : s.Silent) {turn : Turn} {stack : Stack}
    (hc : classify s t (r.view s line) r.lex line = .ok c)
    (ht : c.kind.turn s.permitObfuscated r.machine.stack.phase? = .ok turn)
    (hs : turn.shift.apply (r.number + 1) r.machine.stack = .ok stack) :
    ∃ st, r.advance s t line = .ok st ∧ Advances s t r line c turn st ∧ st.run.machine.stack = stack := by
  refine ⟨_, advance_eq_of_turn hc ht hs, ⟨hc, ht, hs, rfl, rfl, rfl, ?_⟩, rfl⟩
  simp only [out_of_classify hq hc, Machine.report, note_silent hq, List.nil_append, List.append_nil]

namespace Advances

variable {turn : Turn} (hq : s.Quiet) (ha : Advances s t r line c turn st)
include hq ha

theorem out_of_drop (hk : turn.keep = false) :
    st.out = if s.blankPlaceholders then (r.newlineAt line).chars else [] := by
  rw [ha.out, Run.written, hk, flush_drop hq]
  rfl

/-- A kept line is written, unless it is blank and makes up for blank lines before dropped ones. -/
theorem cases_of_keep (hk : turn.keep = true) :
    (st.out = [] ∧ isBlank (turn.text (r.current line c)) = true ∧
      r.machine.writer.blanks ≠ r.machine.writer.blankMax ∧
      st.run.altered = (r.altered || c.altered || turn.edit.isSome)) ∨
    (st.out = turn.text (r.current line c) ∧
      st.run.machine.writer.blanks = st.run.machine.writer.blankMax ∧
      st.run.altered = (r.altered || c.altered || turn.edit.isSome)) := by
  by_cases h : isBlank (turn.text (r.current line c)) = true ∧ s.compressBlanks = true ∧
      r.machine.writer.blanks ≠ r.machine.writer.blankMax
  · obtain ⟨hb, hc, hne⟩ := h
    have hw : r.written s line c turn = ((r.writing c turn).absorb, []) := by
      unfold Run.written
      rw [hk]
      exact flush_absorb hq hb hc hne
    refine .inl ⟨by rw [ha.out, hw], hb, hne, ?_⟩
    rw [Run.altered, ha.writer, hw]
    rfl
  · have hw :
        (r.writing c turn).flush s (r.newlineAt line) (r.number + 1) true (turn.text (r.current line c)) = _ :=
      flush_write hq h
    rw [← hk] at hw
    refine .inr ⟨by rw [ha.out, Run.written, hw], by rw [ha.writer, Run.written, hw], ?_⟩
    rw [Run.altered, ha.writer, Run.written, hw]
    rfl

end Advances

/-! ## All lines -/

theorem trace_of_advance (h : r.advance s t line = .ok st) : r.trace s t (line :: ls) =
    ⟨st :: (st.run.trace s t ls).steps, (st.run.trace s t ls).failure⟩ := by
  obtain ⟨p, hp, hst⟩ := bind_eq_ok.mp h
  rw [Run.trace, hp]
  simp only [hst]

theorem advance_of_trace (h : (r.trace s t (line :: ls)).failure = none) : ∃ st, r.advance s t line = .ok st := by
  rw [Run.trace] at h
  split at h
  · cases h
  · rename_i p hp
    split at h
    · cases h
    · rename_i st hst
      exact ⟨st, bind_eq_ok.mpr ⟨p, hp, hst⟩⟩

theorem advances_of_trace (hq : s.Silent) (h : (r.trace s t (line :: ls)).failure = none) :
    ∃ st c turn, r.advance s t line = .ok st ∧ Advances s t r line c turn st := by
  obtain ⟨st, hadv⟩ := advance_of_trace h
  obtain ⟨c, turn, ha⟩ := advances_of_advance hq hadv
  exact ⟨st, c, turn, hadv, ha⟩

def Trace.text (tr : Trace) : Chars := tr.steps.flatMap (·.out)

theorem text_cons (st : Step) (tr : Trace) : Trace.text ⟨st :: tr.steps, tr.failure⟩ = st.out ++ tr.text := by
  simp [Trace.text]

/-- The end of the text is reached outside all groups, comments and literals. -/
def Run.Complete (r : Run) : Prop := r.machine.stack = [] ∧ Machine.endFault? r.lex.mode = none

theorem complete_of_finish (h : (r.finish s).failure = none) : r.Complete := by
  unfold Run.finish at h
  split at h
  · cases h
  · rename_i last hl
    obtain ⟨m, hm, -⟩ := bind_eq_ok.mp hl
    unfold Machine.step at hm
    split at hm
    · cases hm
    · rename_i r' hr
      have hr : Machine.atEnd s r.readEnd.current r.machine = .ok r' := hr
      unfold Machine.atEnd at hr
      split at hr
      · rename_i hs
        split at hr
        · cases hr
        · exact ⟨List.isEmpty_iff.mp hs, by assumption⟩
      · cases hr

theorem finish_eq_of_complete (h : r.Complete) :
    r.finish s = ⟨[⟨.eof, [], { r with number := r.number + 1 },
      closeListing s (r.newline.getD .lf) r.machine.listed ++ r.machine.report s (r.number + 1) .eof⟩], none⟩ := by
  have hm : Machine.endFault? r.readEnd.current.mode = none := h.2
  have hend : Machine.atEnd s r.readEnd.current r.machine =
      .ok ⟨r.machine, [], closeListing s (r.newline.getD .lf) r.machine.listed⟩ := by
    simp only [Machine.atEnd, h.1, List.isEmpty_nil, if_true, hm]
    rfl
  unfold Run.finish Pending.step Machine.step Machine.stepCause
  simp only [Run.readEnd] at hend ⊢
  simp only [hend]
  rfl

theorem finish_of_complete (hq : s.Silent) (h : r.Complete) :
    r.finish s = ⟨[⟨.eof, [], { r with number := r.number + 1 }, []⟩], none⟩ := by
  rw [finish_eq_of_complete h]
  simp [closeListing, hq.symbolDepth, Machine.report, note_silent hq]

theorem text_of_complete (hq : s.Silent) (h : r.Complete) : (r.trace s t []).text = [] := by
  have hend : r.trace s t [] = _ := finish_of_complete hq h
  rw [hend]
  rfl

theorem traceSource_of_table {symbols : List Symbol} {script : Chars} (hv : s.isValid = true)
    (ht : buildTable s symbols script = .ok t) (source : Chars) :
    traceSource s symbols script source = Run.trace s t {} (lines source) := by
  simp [traceSource, hv, ht]

theorem resolved_eq_ok_iff {tr : Trace} {out : Resolved} : tr.resolved = .ok out ↔
    tr.failure = none ∧ out = ⟨tr.text, tr.steps.getLast?.any (·.run.altered)⟩ := by
  unfold Trace.resolved Trace.text
  split <;> simp_all [eq_comm]

theorem resolve_eq_ok_iff {symbols : List Symbol} {script source : Chars} {out : Resolved} :
    resolve s symbols script source = .ok out ↔ ∃ t, s.isValid = true ∧ buildTable s symbols script = .ok t ∧
      (Run.trace s t {} (lines source)).resolved = .ok out := by
  unfold resolve
  constructor
  · intro h
    cases hv : s.isValid with
    | false =>
      rw [traceSource, hv] at h
      cases h
    | true =>
      cases hb : buildTable s symbols script with
      | error f =>
        rw [traceSource, hv, hb] at h
        cases h
      | ok t => exact ⟨t, rfl, rfl, by rwa [traceSource_of_table hv hb] at h⟩
  · rintro ⟨t, hv, hb, h⟩
    rwa [traceSource_of_table hv hb]

theorem steps_ne_nil (h : (r.trace s t ls).failure = none) : (r.trace s t ls).steps ≠ [] := by
  cases ls with
  | nil =>
    rw [Run.trace, Run.finish]
    split <;> simp
  | cons line ls =>
    obtain ⟨st, hadv⟩ := advance_of_trace h
    simp [trace_of_advance hadv]

/-! ## Runs whose comments and literals are parsed alike everywhere -/

/-- No group is left unparsed, and the lexical state is one of the settings. -/
structure Run.Even (s : Settings) (r : Run) : Prop where
  ignored : ∀ g ∈ r.machine.stack, g.ignored = false
  fits : r.lex.Fits s.passthroughText

theorem ignoring_eq_false {stack : Stack} (h : ∀ g ∈ stack, g.ignored = false) : stack.ignoring = false := by
  cases stack with
  | nil => rfl
  | cons g stack => simp [Stack.ignoring, h g (List.mem_cons_self ..)]

theorem Run.Even.verbatim (h : r.Even s) : (r.view s line).verbatim = s.passthroughText := by
  simp [Run.view, ignoring_eq_false h.ignored]

theorem ignored_of_apply {stack stack' : Stack} {sh : Shift} {n : Nat} (h : ∀ g ∈ stack, g.ignored = false)
    (hsh : ∀ p, sh ≠ .enter p true) (ha : sh.apply n stack = .ok stack') : ∀ g ∈ stack', g.ignored = false := by
  cases sh with
  | stay => cases ha; exact h
  | enter p ignored =>
    cases ignored with
    | true => exact absurd rfl (hsh p)
    | false =>
      cases ha
      simpa [ignoring_eq_false h] using h
  | branch p =>
    cases stack with
    | nil => cases ha
    | cons g stack =>
      cases ha
      have hst : ∀ g ∈ stack, g.ignored = false := fun g hg => h g (List.mem_cons_of_mem _ hg)
      simpa [ignoring_eq_false hst] using hst
  | switch p =>
    cases stack with
    | nil => cases ha
    | cons g stack => cases ha; simpa using h
  | leave =>
    cases stack with
    | nil => cases ha
    | cons g stack => cases ha; exact fun g hg => h g (List.mem_cons_of_mem _ hg)

theorem shift_ne_enter {permit : Bool} {here : Option Phase} {k : LineKind} {turn : Turn}
    (hk : ∀ b dodgy, k ≠ .directive (.guard b) dodgy) (h : k.turn permit here = .ok turn) (p : Phase) :
    turn.shift ≠ .enter p true := by
  cases k with
  | plain => cases h; simp
  | eof => cases h
  | unevaluable => cases h
  | directive d dodgy =>
    rcases shift_of_turn h with ⟨-, hs, -⟩ | ⟨q, b, hs, hb⟩ | ⟨q, hs | hs⟩
    · simp [hs]
    · intro he
      rw [hs] at he
      cases he
      obtain ⟨holds, rfl⟩ := hb rfl
      exact hk holds dodgy rfl
    · simp [hs]
    · simp [hs]

theorem ne_guard_of_classify {v : View} {lx : Lexical} (ht : t.NoneIgnored) (h : classify s t v lx line = .ok c)
    {d : Directive} {dodgy : Bool} (hk : c.kind = .directive d dodgy) (b : Bool) : d ≠ .guard b := by
  rcases kind_of_classify h with hp | ⟨d', dodgy', hd, hg⟩
  · rw [hp] at hk
    cases hk
  · rw [hd] at hk
    cases hk
    exact hg ht b

theorem Advances.ne_guard {turn : Turn} (ha : Advances s t r line c turn st) (ht : t.NoneIgnored) {d : Directive}
    {dodgy : Bool} (hk : c.kind = .directive d dodgy) (b : Bool) : d ≠ .guard b :=
  ne_guard_of_classify ht ha.classified hk b

theorem Run.Even.turned {r' : Run} {turn : Turn} (ht : t.NoneIgnored) (ho : OneLine line) (h : r.Even s)
    (hc : classify s t (r.view s line) r.lex line = .ok c)
    (hturn : c.kind.turn s.permitObfuscated r.machine.stack.phase? = .ok turn)
    (hstack : turn.shift.apply (r.number + 1) r.machine.stack = .ok r'.machine.stack) (hlex : r'.lex = c.lex) :
    r'.Even s := by
  constructor
  · refine ignored_of_apply h.ignored (shift_ne_enter (fun b dodgy hk => ?_) hturn) hstack
    exact ne_guard_of_classify ht hc hk b rfl
  · have hv : (r.view s line).verbatim = s.passthroughText := h.verbatim
    rw [hlex, ← hv]
    refine fits_of_classify ?_ ho hc
    rw [h.verbatim]
    exact h.fits

theorem Run.Even.advances (ht : t.NoneIgnored) (ho : OneLine line) (h : r.Even s) {turn : Turn}
    (ha : Advances s t r line c turn st) : st.run.Even s :=
  h.turned ht ho ha.classified ha.turned ha.stack ha.lex

theorem Advances.clean {turn : Turn} (ha : Advances s t r line c turn st) (he : r.Even s) (hfull : FullLine line)
    {d : Directive} (hk : c.kind = .directive d false) :
    ∃ lk w j, Clean s t (r.view s line) r.lex line d lk w j {} ∧ c.line = line ∧
      c.keyword = line.length - w.length ∧ st.run.lex = {} := by
  have hfits : r.lex.Fits (r.view s line).verbatim := by rw [he.verbatim]; exact he.fits
  obtain ⟨lk, w, j, lx', hclean, hkw, hend⟩ := clean_of_classify hfull.oneLine hfits ha.classified hk
  rcases hend with ⟨rfl, hlex, hline, -⟩ | ⟨-, h, -⟩
  · exact ⟨lk, w, j, hclean, hline, hkw, ha.lex.trans hlex⟩
  · rw [hfull.lacksNewline] at h
    cases h

theorem advance_reads (hq : s.Quiet) (ht : t.NoneIgnored) (he : r.Even s) (ho : OneLine line) {k : LineKind}
    {keyword : Nat} {lx : Lexical} {turn : Turn} (hr : Reads s t s.passthroughText r.lex line k keyword lx)
    (hk : k.turn s.permitObfuscated r.machine.stack.phase? = .ok turn)
    (hs : r.machine.stack.phases ≠ [] ∨ turn.shift = .stay ∨ ∃ p b, turn.shift = .enter p b) :
    ∃ c st, r.advance s t line = .ok st ∧ Advances s t r line c turn st ∧ c.line = line ∧ c.keyword = keyword ∧
      c.altered = false ∧ st.run.Even s ∧ st.run.lex = lx ∧
      st.run.machine.stack.phases = turn.shift.phases r.machine.stack.phases := by
  obtain ⟨names, out, hc⟩ := hr (r.view s line) he.verbatim
  obtain ⟨stack, hstack⟩ := Shift.exists_apply (r.number + 1) hs
  obtain ⟨st, hadv, ha, rfl⟩ := advance_of_turn hq.silent hc hk hstack
  exact ⟨_, st, hadv, ha, rfl, rfl, rfl, he.advances ht ho ha, ha.lex, Shift.phases_of_apply ha.stack⟩

theorem Advances.plain {turn : Turn} (ha : Advances s t r line c turn st) (hk : c.kind = .plain) :
    c.line = line ∧ turn = ⟨!dropping r.machine.stack.phase?, .stay, none⟩ ∧
      st.run.machine.stack = r.machine.stack := by
  have hturn := ha.turned
  rw [hk] at hturn
  cases hturn
  exact ⟨((reads_plain t ha.classified hk).eq rfl ha.classified).2.1, rfl, (Except.ok.inj ha.stack).symm⟩

theorem Advances.directive {turn : Turn} (ha : Advances s t r line c turn st) {d : Directive} {dodgy : Bool}
    (hk : c.kind = .directive d dodgy) :
    d.turn s.permitObfuscated r.machine.stack.phases.head? dodgy = .ok turn ∧
      st.run.machine.stack.phases = turn.shift.phases r.machine.stack.phases := by
  have hturn := ha.turned
  rw [hk, Stack.phase?_eq] at hturn
  exact ⟨hturn, Shift.phases_of_apply ha.stack⟩

/-! ## A last line without a newline -/

theorem closing_of_apply {turn : Turn} {permit : Bool} {here : Option Phase} {d : Directive} {dodgy : Bool}
    {n : Nat} {stack : Stack} (h : d.turn permit here dodgy = .ok turn) (hs : turn.shift.apply n stack = .ok []) :
    d = .closing ∧ turn.edit = none ∧ ∃ g, stack = [g] := by
  rcases shift_of_turn h with ⟨rfl, hsh, he⟩ | ⟨q, b, hsh, -⟩ | ⟨q, hsh | hsh⟩ <;> rw [hsh] at hs
  · refine ⟨rfl, he, ?_⟩
    cases stack <;> cases hs
    exact ⟨_, rfl⟩
  · cases hs
  · cases stack <;> cases hs
  · cases stack <;> cases hs

theorem Advances.closing {turn : Turn} (ha : Advances s t r line c turn st) {d : Directive} {dodgy : Bool}
    (hk : c.kind = .directive d dodgy) (hc : st.run.Complete) :
    d = .closing ∧ turn.edit = none ∧ ∃ g, r.machine.stack = [g] := by
  have hturn := ha.turned
  have hstack := ha.stack
  rw [hk] at hturn
  rw [hc.1] at hstack
  exact closing_of_apply hturn hstack

theorem complete_of_phases {r : Run} (hp : r.machine.stack.phases = []) (hl : Machine.endFault? r.lex.mode = none) :
    r.Complete :=
  ⟨List.map_eq_nil_iff.mp hp, hl⟩

theorem lines_written {out line : Chars} (hne : line ≠ []) (hn : '\n' ∉ line) (h : out = line ∨ FullLine out) :
    lines out = [out] := by
  rcases h with rfl | h
  · exact lines_partial hne hn
  · simpa [lines] using lines_full h []

theorem mode_of_complete (h : Machine.endFault? r.lex.mode = none) :
    r.lex.mode = .code ∨ r.lex.mode = .lineComment := by
  cases hm : r.lex.mode <;> rw [hm] at h <;> simp_all [Machine.endFault?]

/-- The `#endif` that ends the last group, read again with its newline. -/
theorem closing_reads (t' : Table) (he : r.Even s) (hn : '\n' ∉ line) {turn : Turn}
    (ha : Advances s t r line c turn st) (hk : c.kind = .directive .closing false)
    (hc : Machine.endFault? st.run.lex.mode = none) :
    r.lex = {} ∧ ∃ dodgy lx, Reads s t' s.passthroughText {} c.line (.directive .closing dodgy) c.keyword lx ∧
      Machine.endFault? lx.mode = none ∧ (dodgy = true → Joins c.line) ∧ (c.line = line ∨ FullLine c.line) := by
  have hv : (r.view s line).verbatim = s.passthroughText := he.verbatim
  have hfits : r.lex.Fits (r.view s line).verbatim := by rw [hv]; exact he.fits
  obtain ⟨lk, w, j, lx', hclean, hkw, hend⟩ := clean_of_classify (.of_not_mem hn) hfits ha.classified hk
  refine ⟨hclean.start, ?_⟩
  have hclean := hclean.of_closing t'
  rw [← hv, hkw]
  rcases hend with ⟨rfl, -, hline, -⟩ | ⟨hl, -, hlex, hline, -⟩
  · rw [hline]
    exact ⟨false, {}, hclean.reads, rfl, by simp, .inl rfl⟩
  · rw [hline]
    have hm := mode_of_complete hc
    rw [ha.lex, hlex] at hm
    have hfull := fullLine_append hn (r.view s line).newline
    rcases hclean.reads_appended (r.view s line).newline hl hn hm with hreads | ⟨hjoin, hreads⟩
    · exact ⟨false, {}, hreads, rfl, by simp, .inr hfull⟩
    · exact ⟨true, _, hreads, rfl, fun _ => hjoin, .inr hfull⟩

end

end CondResolve
