import CondResolve.Group
import CondResolve.Listing
import CondResolve.Writer

/-! # Stepping through classified lines -/

namespace CondResolve

structure Machine where
  stack : Stack := []
  writer : Writer := {}
  /-- Some symbol was listed. -/
  listed : Bool := false
  deriving DecidableEq, Repr

structure Current where
  line : Chars
  number : Nat
  /-- The number of characters before the keyword. -/
  keyword : Nat
  /-- The lexical mode after the line. -/
  mode : Mode
  newline : Newline

/-- The machine after a line, the line as it was edited, and the text written. -/
structure Stepped where
  machine : Machine
  line : Chars
  out : Chars

/-- The line with its keyword changed. An `#if` keeps its condition at its place; the other two end
the line. -/
def Edit.apply (c : Current) : Edit → Chars
  | .toIf => c.line.take c.keyword ++ "if  ".toList ++ c.line.drop (c.keyword + 4)
  | .toElse => c.line.take c.keyword ++ "else".toList ++ c.newline.chars
  | .toEndif => c.line.take c.keyword ++ "endif".toList ++ c.newline.chars

namespace Machine

def failure (m : Machine) (n : Nat) (cause : Cause) : Failure :=
  match cause with
  | .unevaluable | .leavingOutermost => ⟨cause, some n, none⟩
  | _ => ⟨cause, some n, m.stack.enclosing?⟩

def report (s : Settings) (n : Nat) (k : LineKind) (m : Machine) : Chars :=
  note s ("process line " ++ toString n ++ " " ++ k.label ++ " -> " ++ m.stack.label ++ " depth " ++
    toString m.stack.length)

def endFault? : Mode → Option Cause
  | .literal q => some (.unterminated q)
  | .code | .lineComment => none
  | _ => some .endInComment

def take (s : Settings) (c : Current) (m : Machine) (turn : Turn) : Except Cause Stepped := do
  let line := match turn.edit with
    | none => c.line
    | some e => e.apply c
  let stack ← turn.shift.apply c.number m.stack
  let writer := { m.writer with altered := m.writer.altered || turn.edit.isSome }
  let (writer, out) := writer.flush s c.newline c.number turn.keep line
  return ⟨{ m with stack, writer }, line, out⟩

def atEnd (s : Settings) (c : Current) (m : Machine) : Except Cause Stepped :=
  if m.stack.isEmpty then
    match endFault? c.mode with
    | some cause => .error cause
    | none => .ok ⟨m, c.line, closeListing s c.newline m.listed⟩
  else .error .prematureEnd

def stepCause (s : Settings) (c : Current) (m : Machine) (k : LineKind) : Except Cause Stepped :=
  match k with
  | .plain => m.take s c ⟨!dropping m.stack.phase?, .stay, none⟩
  | .directive d dodgy => do m.take s c (← d.turn s.permitObfuscated m.stack.phase? dodgy)
  | .eof => m.atEnd s c
  | .unevaluable => .error .unevaluable

def step (s : Settings) (c : Current) (m : Machine) (k : LineKind) : Except Failure Stepped :=
  match m.stepCause s c k with
  | .error cause => .error (m.failure c.number cause)
  | .ok r => .ok { r with out := r.out ++ report s c.number k r.machine }

def leave (m : Machine) (n : Nat) : Except Failure Machine :=
  match m.stack.leave with
  | .error cause => .error (m.failure n cause)
  | .ok stack => .ok { m with stack }

end Machine

end CondResolve
