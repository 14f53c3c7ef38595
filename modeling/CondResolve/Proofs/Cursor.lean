import CondResolve.Proofs.Altered
import CondResolve.Proofs.Limits

/-!
# The cursor keeps to its line

From any position of a line and in any state, each reader ends with a failure or at a position from there to the end
of the line. So the classifier comes to a kind or a failure for every line, and a run over a source takes at most
one step more than the source has lines: `cursor_safe`. White space is the space, the tab and the carriage return; a
form feed is code. A host with limits may end an evaluation, and with it the run, before that.
-/

namespace CondResolve

/-- A position of the cursor in a line. The last one is behind all its characters. -/
abbrev Position (line : Chars) := Fin (line.length + 1)

def Position.rest {line : Chars} (i : Position line) : Chars := line.drop i

section
variable {line : Chars} {i : Position line} {rest : Chars}

theorem Position.rest_last : Position.rest (Fin.last line.length) = [] := List.drop_length

theorem Position.eq_last (h : i.rest = []) : i = Fin.last line.length := by
  have hle : line.length ≤ i := List.drop_eq_nil_iff.1 h
  exact Fin.ext (Nat.le_antisymm (Nat.le_of_lt_succ i.isLt) hle)

/-- A suffix of what is left is what is left at a position further on. -/
theorem exists_position (h : rest <:+ i.rest) : ∃ j ≥ i, rest = j.rest := by
  obtain ⟨p, hp⟩ := h
  have hlen : p.length + rest.length = line.length - i := by
    rw [← List.length_append, hp, Position.rest, List.length_drop]
  refine ⟨⟨i + p.length, by omega⟩, Fin.mk_le_mk.2 (Nat.le_add_right ..), ?_⟩
  show rest = line.drop (i + p.length)
  rw [← List.drop_drop]
  show rest = i.rest.drop p.length
  rw [← hp, List.drop_left]

end

/-! ## Scanning -/

section
variable (verbatim : Bool) (lx : Lexical) {line : Chars} (i : Position line)

/-- The way to the next code character ends, in a literal that the line leaves open or at a position from `i` on. If
comments are parsed, it is the end of the line, or code starts there. -/
structure SkipEnds : Prop where
  loop : ∃ n ≤ i.rest.length + 1, EndsIn (look verbatim) n (lx, i.rest) (skip verbatim lx i.rest)
  outcome : (∃ b, skip verbatim lx i.rest = .error b) ∨
    ∃ ly, ∃ j ≥ i, skip verbatim lx i.rest = .ok (ly, j.rest) ∧
      (verbatim = false → j = Fin.last line.length ∨ ly.mode = .code ∧ StartsCode j.rest)

structure LineEnds : Prop where
  loop : ∃ n ≤ i.rest.length,
    EndsIn (drainTurn verbatim) n (if i.rest.isEmpty then lx else { lx with line := .dirty }, i.rest)
      ((skipLine verbatim lx i.rest).map fun ly => (ly, Position.rest (Fin.last line.length)))
  outcome : (∃ b, skipLine verbatim lx i.rest = .error b) ∨ ∃ ly, skipLine verbatim lx i.rest = .ok ly

structure ArgsEnd : Prop where
  loop : ∀ ly r, skip verbatim lx i.rest = .ok (ly, '(' :: r) → ∃ n ≤ r.length + 1,
    EndsIn (argsTurn verbatim) n (0, ly, '(' :: r) (closeArgs verbatim 0 ly ('(' :: r))
  outcome : (∃ b, skipArgs verbatim lx i.rest = .error b) ∨
    ∃ ly, ∃ j ≥ i, skipArgs verbatim lx i.rest = .ok (ly, j.rest)

/-- The condition at `i` is read by finitely many rules. Its evaluation ends with a fault, in a literal, or at a
position from `i` on, unless the host refuses one of the demands that it makes. -/
structure EvaluationEnds (s : Settings) (k : Knowledge) : Prop where
  rules : ∀ p, Yields verbatim (.climb 0) lx i.rest p ↔ p = climb verbatim 0 lx i.rest
  outcome : (∃ f ly, (evaluate s verbatim k lx i.rest).result = .error (.fault f ly)) ∨
    (∃ b, (evaluate s verbatim k lx i.rest).result = .error (.broken b)) ∨
    ∃ a ly, ∃ j ≥ i, (evaluate s verbatim k lx i.rest).result = .ok (a, ly, j.rest)
  host : ∀ lim : Limits, evaluateOn lim s verbatim k lx i.rest = .ok (evaluate s verbatim k lx i.rest) ∨
    ∃ d ∈ demands s verbatim k lx i.rest, lim.allows d = false ∧ evaluateOn lim s verbatim k lx i.rest = .error d

theorem skipEnds : SkipEnds verbatim lx i where
  loop := endsIn_look verbatim lx i.rest
  outcome := by
    cases hs : skip verbatim lx i.rest with
    | error b => exact .inl ⟨b, rfl⟩
    | ok next =>
      obtain ⟨ly, rest⟩ := next
      obtain ⟨j, hj, rfl⟩ := exists_position (suffix_of_skip hs)
      refine .inr ⟨ly, j, hj, rfl, ?_⟩
      rintro rfl
      exact (startsCode_of_skipParsed hs).imp_left Position.eq_last

theorem lineEnds : LineEnds verbatim lx i where
  loop := by
    rw [Position.rest_last]
    exact endsIn_drain verbatim lx i.rest
  outcome := by
    cases skipLine verbatim lx i.rest with
    | error b => exact .inl ⟨b, rfl⟩
    | ok ly => exact .inr ⟨ly, rfl⟩

theorem argsEnd : ArgsEnd verbatim lx i where
  loop := fun ly r _ => endsIn_args verbatim 0 ly ('(' :: r)
  outcome := by
    cases ha : skipArgs verbatim lx i.rest with
    | error b => exact .inl ⟨b, rfl⟩
    | ok next =>
      obtain ⟨ly, rest⟩ := next
      obtain ⟨j, hj, rfl⟩ := exists_position (suffix_of_skipArgs ha)
      exact .inr ⟨ly, j, hj, rfl⟩

theorem evaluationEnds (s : Settings) (k : Knowledge) : EvaluationEnds verbatim lx i s k where
  rules := fun _ => yields_iff
  outcome := by
    cases he : (evaluate s verbatim k lx i.rest).result with
    | error h =>
      cases h with
      | fault f ly => exact .inl ⟨f, ly, rfl⟩
      | broken b => exact .inr (.inl ⟨b, rfl⟩)
    | ok next =>
      obtain ⟨a, ly, rest⟩ := next
      obtain ⟨j, hj, rfl⟩ := exists_position (moves_climb _ _ (next_of_evaluate he))
      exact .inr (.inr ⟨a, ly, j, hj, rfl⟩)
  host := fun lim => lim.impose_cases _ _

end

/-! ## Runs -/

/-- A run takes steps until one of them fails or comes to the end of the source, and before that at most one for
each line. No line is empty, so that there are at most as many as characters. A host with limits lets the run come
to its outcome or refuses one of the demands of its lines. -/
structure RunEnds (s : Settings) (symbols : List Symbol) (script source : Chars) : Prop where
  bound : (traceSource s symbols script source).steps.length ≤ (lines source).length + 1
  few : (lines source).length ≤ source.length
  outcome : (∃ f, (traceSource s symbols script source).failure = some f) ∨
    ∃ steps last, (traceSource s symbols script source).steps = steps ++ [last] ∧ last.kind = .eof ∧
      ∀ st ∈ steps, st.kind ≠ .eof
  host : ∀ lim : Limits, resolveOn lim s symbols script source = .ok (resolve s symbols script source) ∨
    ∃ d ∈ sourceDemands s symbols script source, lim.allows d = false ∧
      resolveOn lim s symbols script source = .error d

theorem length_lines_le (cs : Chars) : (lines cs).length ≤ cs.length := by
  induction cs with
  | nil => exact Nat.le_refl _
  | cons c cs ih =>
    rw [length_lines_cons, List.length_cons]
    split <;> omega

section
variable {s : Settings} {t : Table}

theorem kind_of_step {p : Pending} {st : Step} (h : p.step s = .ok st) : st.kind = p.kind := by
  obtain ⟨m, -, hst⟩ := bind_eq_ok.1 h
  cases hst
  rfl

theorem kind_ne_eof_of_read {r : Run} {line : Chars} {p : Pending} (h : r.read s t line = .ok p) :
    p.kind ≠ .eof := by
  obtain ⟨c, hc, hp⟩ := bind_eq_ok.1 h
  cases hp
  exact kind_ne_eof_of_classify hc

/-- One step for each line that is left, and one for the end. -/
theorem ends_trace (r : Run) (ls : List Chars) :
    (r.trace s t ls).steps.length ≤ ls.length + 1 ∧
      ((∃ f, (r.trace s t ls).failure = some f) ∨
        ∃ steps last, (r.trace s t ls).steps = steps ++ [last] ∧ last.kind = .eof ∧
          ∀ st ∈ steps, st.kind ≠ .eof) := by
  induction ls generalizing r with
  | nil =>
    rw [Run.trace, Run.finish]
    cases h : r.readEnd.step s with
    | error f => exact ⟨Nat.le_refl _, .inl ⟨f, rfl⟩⟩
    | ok last => exact ⟨Nat.le_refl _, .inr ⟨[], last, rfl, kind_of_step h, by simp⟩⟩
  | cons line ls ih =>
    rw [Run.trace]
    cases hr : r.read s t line with
    | error f => exact ⟨Nat.zero_le _, .inl ⟨f, rfl⟩⟩
    | ok p =>
      simp only
      cases hp : p.step s with
      | error f => exact ⟨Nat.succ_le_succ (Nat.zero_le _), .inl ⟨f, rfl⟩⟩
      | ok st =>
        obtain ⟨hlen, hend⟩ := ih st.run
        refine ⟨Nat.succ_le_succ hlen, hend.imp_right ?_⟩
        rintro ⟨steps, last, hsteps, hlast, hne⟩
        refine ⟨st :: steps, last, congrArg (st :: ·) hsteps, hlast, ?_⟩
        rw [List.forall_mem_cons, kind_of_step hp]
        exact ⟨kind_ne_eof_of_read hr, hne⟩

end

theorem runEnds (s : Settings) (symbols : List Symbol) (script source : Chars) :
    RunEnds s symbols script source := by
  have hfew := length_lines_le source
  have hhost (lim : Limits) := lim.impose_cases (sourceDemands s symbols script source)
    (resolve s symbols script source)
  cases hv : s.isValid with
  | false =>
    have htrace : traceSource s symbols script source = ⟨[], some ⟨.exclusiveBlanks, none, none⟩⟩ := by
      simp [traceSource, hv]
    refine ⟨?_, hfew, ?_, hhost⟩ <;> rw [htrace]
    · exact Nat.zero_le _
    · exact .inl ⟨_, rfl⟩
  | true =>
    cases ht : buildTable s symbols script with
    | error f =>
      have htrace : traceSource s symbols script source = ⟨[], some f⟩ := by simp [traceSource, hv, ht]
      refine ⟨?_, hfew, ?_, hhost⟩ <;> rw [htrace]
      · exact Nat.zero_le _
      · exact .inl ⟨_, rfl⟩
    | ok t =>
      have htrace : traceSource s symbols script source = ({} : Run).trace s t (lines source) := by
        simp [traceSource, hv, ht]
      obtain ⟨hlen, hend⟩ := ends_trace (s := s) (t := t) {} (lines source)
      refine ⟨?_, hfew, ?_, hhost⟩ <;> rw [htrace]
      · exact hlen
      · exact hend

/-- Every reader ends, in the line that it was given and not before where it started; and every run ends. -/
theorem cursor_safe (s : Settings) :
    (∀ (verbatim : Bool) (lx : Lexical) (line : Chars) (i : Position line),
      SkipEnds verbatim lx i ∧ LineEnds verbatim lx i ∧ ArgsEnd verbatim lx i ∧
        ∀ k, EvaluationEnds verbatim lx i s k) ∧
    ∀ symbols script source, RunEnds s symbols script source := by
  refine ⟨fun verbatim lx line i => ⟨?_, ?_, ?_, fun k => ?_⟩, fun symbols script source => ?_⟩
  · exact skipEnds verbatim lx i
  · exact lineEnds verbatim lx i
  · exact argsEnd verbatim lx i
  · exact evaluationEnds verbatim lx i s k
  · exact runEnds s symbols script source

/-- A form feed stops the scanner. -/
example (r : Chars) : skip false {} ('\x0c' :: r) = .ok ({}, '\x0c' :: r) := skip_stop rfl rfl

end CondResolve
