import CondResolve.Proofs.Frames

/-!
# A step as a sequence of effects

The machine deals with a line by one effect after another: a frame is pushed, the keyword edited, the line written
or dropped, the innermost frame changed or popped. An effect may find nothing to work on, and what was done before
it would then stay done. `react_eq`: no effect is ever in that position, and a line that is refused is refused
before the first effect.
-/

namespace CondResolve

structure Board where
  frames : List Frame
  writer : Writer
  line : Chars
  out : Chars
  deriving DecidableEq, Repr

inductive Interrupt where
  | refused (cause : Cause)
  /-- A frame or a newline is asked for that is not there. -/
  | outOfRange
  deriving DecidableEq, Repr

/-- Effects that were made before an interrupt stay made. -/
abbrev EffectM := EStateM Interrupt Board

namespace EffectM

section
variable (s : Settings) (c : Current)

def flush (keep : Bool) : EffectM Unit :=
  modify fun b =>
    let (writer, out) := b.writer.flush s c.newline c.number keep b.line
    { b with writer, out := b.out ++ out }

/-- Changes the keyword. Ending the line takes the newline of the text, once that is known. -/
def edit (newline? : Option Newline) (e : Edit) : EffectM Unit := do
  if e ≠ .toIf && newline?.isNone then throw .outOfRange
  modify fun b => { b with line := e.apply { c with line := b.line }, writer := { b.writer with altered := true } }

/-- A group that is about to be entered gets its frame before the line is dealt with. -/
def prepare : Shift → EffectM Unit
  | .enter _ _ => modify fun b => { b with frames := ⟨none, false, c.number⟩ :: b.frames }
  | _ => pure ()

end

def pop : EffectM Unit := do
  match (← get).frames with
  | _ :: f :: fs => modify fun b => { b with frames := f :: fs }
  | _ => throw (.refused .leavingOutermost)

def around (change : Frame → Frame → Frame) : EffectM Unit := do
  match (← get).frames with
  | f :: g :: fs => modify fun b => { b with frames := change f g :: g :: fs }
  | _ => throw .outOfRange

def setPhase (p : Phase) : EffectM Unit := around fun f _ => { f with phase? := some p }

def inheritIgnored : EffectM Unit := around fun f g => { f with ignored := g.ignored }

def ignore : EffectM Unit := around fun f _ => { f with ignored := true }

section
variable (s : Settings) (c : Current) (newline? : Option Newline)

def deliver (turn : Turn) : EffectM Unit := do
  if let some e := turn.edit then edit c newline? e
  flush s c turn.keep

def settle : Shift → EffectM Unit
  | .stay => pure ()
  | .enter p ignored => do
    inheritIgnored
    setPhase p
    if ignored then ignore
  | .branch p => do
    inheritIgnored
    setPhase p
  | .switch p => setPhase p
  | .leave => pop

def perform (turn : Turn) : EffectM Unit := do
  prepare c turn.shift
  deliver s c newline? turn
  settle turn.shift

def atEnd (listed : Bool) : EffectM Unit := do
  match (← get).frames, Machine.endFault? c.mode with
  | [_], none => modify fun b => { b with out := b.out ++ closeListing s c.newline listed }
  | [_], some cause => throw (.refused cause)
  | _, _ => throw (.refused .prematureEnd)

def takeTurn (k : LineKind) : EffectM Unit := do
  match k.turn s.permitObfuscated ((← get).frames.head?.bind (·.phase?)) with
  | .ok turn => perform s c newline? turn
  | .error cause => throw (.refused cause)

def react (listed : Bool) : LineKind → EffectM Unit
  | .eof => atEnd s c listed
  | k => takeTurn s c newline? k

end

end EffectM

/-! ## Effects and turns -/

def Machine.board (m : Machine) (line out : Chars) : Board := ⟨m.stack.frames, m.writer, line, out⟩

/-- A turn is only given where there are groups for it. -/
theorem exists_apply_of_turn {permit : Bool} {k : LineKind} {st : Stack} {turn : Turn}
    (h : k.turn permit st.phase? = .ok turn) (n : Nat) : ∃ st', turn.shift.apply n st = .ok st' := by
  cases st with
  | cons g st => exact Shift.exists_apply n (.inl (by simp [Stack.phases]))
  | nil =>
    refine Shift.exists_apply n (.inr ?_)
    cases k with
    | plain => cases h; exact .inl rfl
    | eof => cases h
    | unevaluable => cases h
    | directive d dodgy =>
      have h : d.turn permit none dodgy = .ok turn := h
      cases d with
      | guard holds =>
        rcases openTurn_cases h with ⟨-, rfl⟩ | ⟨-, -, rfl⟩ | ⟨-, -, -, rfl⟩ | ⟨-, -, -, rfl⟩ <;> simp
      | opening t =>
        rcases openTurn_cases h with ⟨-, rfl⟩ | ⟨-, -, rfl⟩ | ⟨-, -, -, rfl⟩ | ⟨-, -, -, rfl⟩ <;> simp
      | elif t => cases h
      | otherwise => cases h
      | closing => cases h

section
variable {s : Settings} {c : Current} {m : Machine} {out : Chars}

open EffectM

theorem phase?_board (m : Machine) (line out : Chars) :
    (m.board line out).frames.head?.bind (·.phase?) = m.stack.phase? := by
  unfold Machine.board
  cases m.stack <;> rfl

theorem bind_of_ok {α β : Type} {x : EffectM α} {f : α → EffectM β} {b b' : Board} {a : α} (h : x b = .ok a b') :
    (x >>= f) b = f a b' := by
  simp only [bind, EStateM.bind, h]

theorem deliver_eq (turn : Turn) (frames : List Frame) :
    deliver s c (some c.newline) turn ⟨frames, m.writer, c.line, out⟩ =
      .ok () ⟨frames, (m.flushed s c turn).1, turn.text c, out ++ (m.flushed s c turn).2⟩ := by
  unfold deliver Machine.flushed Turn.text
  cases turn.edit with
  | none => simp [flush, modify, modifyGet, MonadStateOf.modifyGet, EStateM.modifyGet]
  | some e =>
    have hedit : edit c (some c.newline) e ⟨frames, m.writer, c.line, out⟩ =
        .ok () ⟨frames, { m.writer with altered := true }, e.apply c, out⟩ := by
      unfold edit
      simp only [Option.isNone_some, Bool.and_false, Bool.false_eq_true, if_false]
      rfl
    simp only [bind_of_ok hedit, Option.isSome_some, Bool.or_true]
    rfl

theorem perform_eq {turn : Turn} {stack : Stack} (h : turn.shift.apply c.number m.stack = .ok stack) :
    perform s c (some c.newline) turn (m.board c.line out) =
      .ok () ((m.turned s c turn stack).board (turn.text c) (out ++ (m.flushed s c turn).2)) := by
  -- Once the line is delivered, settling leaves the frames of the stack that the shift gives.
  obtain ⟨frames, hprepare, hsettle⟩ : ∃ frames,
      prepare c turn.shift (m.board c.line out) = .ok () ⟨frames, m.writer, c.line, out⟩ ∧
      ∀ w line out, settle turn.shift ⟨frames, w, line, out⟩ = .ok () ⟨stack.frames, w, line, out⟩ := by
    obtain ⟨keep, sh, e⟩ := turn
    obtain ⟨st, writer, listed⟩ := m
    cases sh with
    | stay => cases h; exact ⟨_, rfl, fun _ _ _ => rfl⟩
    | enter p ignored => cases h; cases st <;> cases ignored <;> exact ⟨_, rfl, fun _ _ _ => rfl⟩
    | _ =>
      cases st with
      | nil => cases h
      | cons g below => cases below <;> cases h <;> exact ⟨_, rfl, fun _ _ _ => rfl⟩
  unfold perform
  rw [bind_of_ok hprepare, bind_of_ok (deliver_eq turn frames)]
  exact hsettle ..

/-- A step goes through all its effects, or it is refused and nothing is changed. -/
theorem react_eq (s : Settings) (c : Current) (m : Machine) (k : LineKind) (out : Chars) {newline? : Option Newline}
    (hn : k = .eof ∨ newline? = some c.newline) :
    react s c newline? m.listed k (m.board c.line out) =
      match m.stepCause s c k with
      | .ok r => .ok () (r.machine.board r.line (out ++ r.out))
      | .error cause => .error (.refused cause) (m.board c.line out) := by
  by_cases hk : k = .eof
  · subst hk
    show atEnd s c m.listed _ = match m.atEnd s c with | .ok r => _ | .error cause => _
    unfold atEnd Machine.atEnd Machine.board
    cases hst : m.stack with
    | cons g st => cases st <;> rfl
    | nil =>
      cases hmode : Machine.endFault? c.mode with
      | some cause => rfl
      | none =>
        simp only [List.isEmpty_nil, if_true, hst]
        rfl
  · obtain rfl := hn.resolve_left hk
    have hreact : react s c (some c.newline) m.listed k = takeTurn s c (some c.newline) k := by
      cases k with
      | eof => exact absurd rfl hk
      | _ => rfl
    have hturn : takeTurn s c (some c.newline) k (m.board c.line out) =
        match k.turn s.permitObfuscated m.stack.phase? with
        | .ok turn => perform s c (some c.newline) turn (m.board c.line out)
        | .error cause => .error (.refused cause) (m.board c.line out) := by
      have hget : (get : EffectM Board) (m.board c.line out) = .ok (m.board c.line out) (m.board c.line out) := rfl
      unfold takeTurn
      rw [bind_of_ok hget, phase?_board]
      cases k.turn s.permitObfuscated m.stack.phase? <;> rfl
    rw [hreact, hturn, Machine.stepCause_line s c m hk]
    cases ht : k.turn s.permitObfuscated m.stack.phase? with
    | error cause => rfl
    | ok turn =>
      -- A turn never asks for a shift that the stack cannot make, so its effects go through.
      obtain ⟨stack, hs⟩ := exists_apply_of_turn ht c.number
      simp only [bind, Except.bind, Machine.take_eq, hs, Except.map]
      exact perform_eq hs

end

end CondResolve
