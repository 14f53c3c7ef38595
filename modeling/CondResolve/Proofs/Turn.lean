import CondResolve.Machine

/-!
# Turns

The machine deals with a line by a turn: the line is kept or dropped, possibly edited, and the open
groups shift. `step_eq_ok_iff` says all that a step on a line can do.
-/

namespace CondResolve

def LineKind.turn (permit : Bool) (here : Option Phase) : LineKind → Except Cause Turn
  | .plain => .ok ⟨!dropping here, .stay, none⟩
  | .directive d dodgy => d.turn permit here dodgy
  | .eof => .error .prematureEnd
  | .unevaluable => .error .unevaluable

/-! ## The turns of directives -/

section
variable {permit dodgy ignored : Bool} {here : Option Phase} {p : Phase} {t : Truth} {turn : Turn}

theorem openTurn_cases (h : openTurn permit here t ignored dodgy = .ok turn) :
    (dropping here = true ∧ turn = ⟨false, .enter .falseTrailer ignored, none⟩) ∨
    (dropping here = false ∧ (t = .unknown ∨ dodgy = true) ∧
      turn = ⟨true, .enter .passMiddle ignored, none⟩) ∨
    (dropping here = false ∧ dodgy = false ∧ t = .yes ∧
      turn = ⟨false, .enter .truePrefix ignored, none⟩) ∨
    (dropping here = false ∧ dodgy = false ∧ t = .no ∧
      turn = ⟨false, .enter .falsePrefix ignored, none⟩) := by
  unfold openTurn dropAnd keepAnd at h
  cases hd : dropping here <;> cases t <;> cases dodgy <;> cases permit <;> simp_all

theorem elifTurn_cases (h : elifTurn permit (some p) t dodgy = .ok turn) :
    (p = .falsePrefix ∧ t = .unknown ∧ turn = ⟨true, .branch .passMiddle, some .toIf⟩) ∨
    (p = .falsePrefix ∧ t = .yes ∧ dodgy = false ∧ turn = ⟨false, .branch .truePrefix, none⟩) ∨
    (p = .falsePrefix ∧ t = .no ∧ dodgy = false ∧ turn = ⟨false, .branch .falsePrefix, none⟩) ∨
    (p = .truePrefix ∧ dodgy = false ∧ turn = ⟨false, .branch .falseTrailer, none⟩) ∨
    (p = .passMiddle ∧ (t = .unknown ∨ dodgy = true) ∧ turn = ⟨true, .branch .passMiddle, none⟩) ∨
    (p = .falseMiddle ∧ t = .unknown ∧ dodgy = false ∧ turn = ⟨true, .branch .passMiddle, none⟩) ∨
    ((p = .passMiddle ∨ p = .falseMiddle) ∧ t = .yes ∧ dodgy = false ∧
      turn = ⟨true, .switch .trueMiddle, some .toElse⟩) ∨
    ((p = .passMiddle ∨ p = .falseMiddle) ∧ t = .no ∧ dodgy = false ∧
      turn = ⟨false, .branch .falseMiddle, none⟩) ∨
    (p = .trueMiddle ∧ dodgy = false ∧ turn = ⟨true, .switch .falseTrailer, some .toEndif⟩) ∨
    (p = .falseTrailer ∧ turn = ⟨false, .branch .falseTrailer, none⟩) := by
  cases p <;> cases t <;> cases dodgy <;> cases permit <;> cases h <;> decide

theorem elseTurn_cases (h : elseTurn (some p) dodgy = .ok turn) :
    ((p = .passMiddle ∨ p = .falseMiddle ∧ dodgy = false) ∧ turn = ⟨true, .switch .passElse, none⟩) ∨
    ((p = .falseTrailer ∨ p = .truePrefix ∧ dodgy = false) ∧
      turn = ⟨false, .switch .falseElse, none⟩) ∨
    (p = .falsePrefix ∧ dodgy = false ∧ turn = ⟨false, .switch .trueElse, none⟩) ∨
    (p = .trueMiddle ∧ dodgy = false ∧ turn = ⟨true, .switch .falseElse, some .toEndif⟩) := by
  cases p <;> cases dodgy <;> cases h <;> decide

theorem closeTurn_cases (h : closeTurn (some p) dodgy = .ok turn) :
    ((p = .passMiddle ∨ p = .trueMiddle ∨ p = .passElse ∨ p = .falseMiddle ∧ dodgy = false) ∧
      turn = ⟨true, .leave, none⟩) ∨
    ((p = .falsePrefix ∨ p = .truePrefix ∨ p = .falseElse ∨ p = .trueElse ∨ p = .falseTrailer) ∧
      dodgy = false ∧ turn = ⟨false, .leave, none⟩) := by
  cases p <;> cases dodgy <;> cases h <;> decide

/-- Only an `#endif` leaves its group, unedited; all other directives enter one or go on in it. -/
theorem shift_of_turn {d : Directive} (h : d.turn permit here dodgy = .ok turn) :
    (d = .closing ∧ turn.shift = .leave ∧ turn.edit = none) ∨
    (∃ q b, turn.shift = .enter q b ∧ (b = true → ∃ holds, d = .guard holds)) ∨
    ∃ q, turn.shift = .branch q ∨ turn.shift = .switch q := by
  cases d with
  | guard holds =>
    rcases openTurn_cases h with ⟨-, rfl⟩ | ⟨-, -, rfl⟩ | ⟨-, -, -, rfl⟩ | ⟨-, -, -, rfl⟩ <;> simp
  | opening t =>
    rcases openTurn_cases h with ⟨-, rfl⟩ | ⟨-, -, rfl⟩ | ⟨-, -, -, rfl⟩ | ⟨-, -, -, rfl⟩ <;> simp
  | elif t =>
    cases here with
    | none => cases h
    | some p => cases p <;> cases t <;> cases dodgy <;> cases permit <;> cases h <;> simp
  | otherwise =>
    cases here with
    | none => cases h
    | some p => cases p <;> cases dodgy <;> cases h <;> simp
  | closing =>
    cases here with
    | none => cases h
    | some p => cases p <;> cases dodgy <;> cases h <;> simp

end

/-- Only an `#elif` is edited to an `#if`. -/
theorem elif_of_toIf {permit dodgy : Bool} {here : Option Phase} {d : Directive} {turn : Turn}
    (h : d.turn permit here dodgy = .ok turn) (he : turn.edit = some .toIf) : ∃ x, d = .elif x := by
  cases d with
  | elif x => exact ⟨x, rfl⟩
  | guard holds =>
    rcases openTurn_cases h with ⟨-, rfl⟩ | ⟨-, -, rfl⟩ | ⟨-, -, -, rfl⟩ | ⟨-, -, -, rfl⟩ <;> cases he
  | opening t =>
    rcases openTurn_cases h with ⟨-, rfl⟩ | ⟨-, -, rfl⟩ | ⟨-, -, -, rfl⟩ | ⟨-, -, -, rfl⟩ <;> cases he
  | otherwise =>
    cases here with
    | none => cases h
    | some p => cases p <;> cases dodgy <;> cases h <;> cases he
  | closing =>
    cases here with
    | none => cases h
    | some p => cases p <;> cases dodgy <;> cases h <;> cases he

/-! ## Phases of the open groups -/

/-- The phase of the group in the text written, if it is one of its groups. -/
def Phase.echo : Phase → Option Phase
  | .passMiddle | .falseMiddle => some .passMiddle
  | .trueMiddle | .passElse => some .passElse
  | _ => none

namespace Phase

def isElse : Phase → Bool
  | .passElse | .falseElse | .trueElse => true
  | _ => false

/-- The phase at the same place of a group that is dropped as a whole. -/
def muted (p : Phase) : Phase := if p.isElse then .falseElse else .falseTrailer

theorem drops_of_muted {p : Phase} (h : p.muted = p) : p.drops = true := by
  revert h
  cases p <;> decide

theorem eq_of_muted {p : Phase} (h : p.muted = p) : p = .falseTrailer ∨ p = .falseElse := by
  revert h
  cases p <;> decide

end Phase

def Stack.phases (st : Stack) : List Phase := st.map (·.phase)

theorem Stack.phase?_eq (st : Stack) : st.phase? = st.phases.head? := by
  cases st <;> rfl

def Shift.phases : Shift → List Phase → List Phase
  | .stay, ps => ps
  | .enter p _, ps => p :: ps
  | .branch p, ps | .switch p, ps => p :: ps.tail
  | .leave, ps => ps.tail

theorem Shift.phases_of_apply {sh : Shift} {n : Nat} {st st' : Stack} (h : sh.apply n st = .ok st') :
    st'.phases = sh.phases st.phases := by
  cases sh <;> cases st <;> cases h <;> rfl

theorem Shift.exists_apply {sh : Shift} (n : Nat) {st : Stack}
    (h : st.phases ≠ [] ∨ sh = .stay ∨ ∃ p b, sh = .enter p b) : ∃ st', sh.apply n st = .ok st' := by
  cases sh with
  | stay => exact ⟨_, rfl⟩
  | enter p b => exact ⟨_, rfl⟩
  | _ =>
    cases st with
    | nil => simp [Stack.phases] at h
    | cons g st => exact ⟨_, rfl⟩

def Turn.text (c : Current) (turn : Turn) : Chars :=
  match turn.edit with
  | none => c.line
  | some e => e.apply c

namespace Machine

section
variable (s : Settings) (c : Current) (m : Machine)

def flushed (turn : Turn) : Writer × Chars :=
  { m.writer with altered := m.writer.altered || turn.edit.isSome }.flush s c.newline c.number turn.keep
    (turn.text c)

def turned (turn : Turn) (stack : Stack) : Machine :=
  { m with stack, writer := (m.flushed s c turn).1 }

theorem take_eq (turn : Turn) :
    m.take s c turn = (turn.shift.apply c.number m.stack).map fun stack =>
      ⟨m.turned s c turn stack, turn.text c, (m.flushed s c turn).2⟩ := by
  unfold take turned flushed Turn.text
  cases turn.shift.apply c.number m.stack <;> rfl

theorem stepCause_line {k : LineKind} (hk : k ≠ .eof) :
    m.stepCause s c k = k.turn s.permitObfuscated m.stack.phase? >>= m.take s c := by
  cases k with
  | eof => exact absurd rfl hk
  | _ => rfl

end

variable {s : Settings} {c : Current} {m : Machine} {k : LineKind}

theorem step_eq_ok_iff (hk : k ≠ .eof) {r : Stepped} :
    m.step s c k = .ok r ↔ ∃ turn stack, k.turn s.permitObfuscated m.stack.phase? = .ok turn ∧
      turn.shift.apply c.number m.stack = .ok stack ∧
      r = ⟨m.turned s c turn stack, turn.text c,
        (m.flushed s c turn).2 ++ report s c.number k (m.turned s c turn stack)⟩ := by
  unfold step
  rw [stepCause_line s c m hk]
  cases ht : k.turn s.permitObfuscated m.stack.phase? with
  | error cause => simp [bind, Except.bind]
  | ok turn =>
    simp only [bind, Except.bind, take_eq]
    cases hs : turn.shift.apply c.number m.stack with
    | error cause => simp [Except.map, hs]
    | ok stack =>
      simp only [Except.map, Except.ok.injEq, exists_and_left, exists_eq_left', hs]
      exact eq_comm

end Machine

end CondResolve
