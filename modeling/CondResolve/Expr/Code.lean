import CondResolve.Expr.Operand
import CondResolve.Symbol

/-! # Conditions as postfix code

A condition is read into code before anything is known about its symbols. The code runs on a stack of
operands. An instruction that may fail keeps the lexical state the reader was in when it came to it,
since a failed condition leaves that state behind. -/

namespace CondResolve

inductive Instr where
  /-- A number in its digits. -/
  | numeral (ds : Chars)
  /-- What follows, up to the matching `leave`, is read so many calls deeper. -/
  | enter (calls : Nat)
  | leave (calls : Nat)
  /-- The name after `defined`, met before the test itself. -/
  | mention (name : String)
  /-- The test of `defined`; without a name its result is unknown. -/
  | defined (name : Option String)
  | load (name : String) (lex : Lexical)
  | unary (op : UnaryOp)
  | binary (op : BinaryOp) (lex : Lexical)
  deriving DecidableEq, Repr

/-- What is known of a symbol: nothing, or that it is undefined, or its value. -/
abbrev Knowledge := String → Option (Option String)

def Table.knowledge (t : Table) : Knowledge := fun name => (t.lookup name).map (·.value)

def Knowledge.none : Knowledge := fun _ => Option.none

/-- A running condition. It is constant as long as no symbol took part in it. -/
structure Evaluation where
  stack : List Operand := []
  constant : Bool := true
  mentioned : List String := []
  deriving DecidableEq, Repr

namespace Evaluation

def push (e : Evaluation) (a : Operand) : Evaluation := { e with stack := a :: e.stack }

def mention (e : Evaluation) (name : String) : Evaluation :=
  { e with mentioned := e.mentioned ++ [name] }

def definedness (k : Knowledge) : Option String → Operand
  | none => .unknown 0
  | some name =>
    match k name with
    | none => .unknown 0
    | some v => .ofBool v.isSome

def valueOf (k : Knowledge) (name : String) : Except Fault Operand :=
  match k name with
  | none => .ok (.unknown 0)
  | some none => .ok ⟨.no, 0⟩
  | some (some v) =>
    match parseInt? v.toList with
    | some n => .ok (.known n)
    | none => .error (.nonNumeric name v)

section
variable (k : Knowledge) (strict : Bool)

/-- One instruction. With the fault comes the lexical state it leaves. -/
def step (e : Evaluation) : Instr → Evaluation × Option (Fault × Lexical)
  | .numeral ds => (e.push (.known (digitsValue ds)), none)
  | .enter _ | .leave _ => (e, none)
  | .mention name => (e.mention name, none)
  | .defined name => ({ e with constant := false }.push (definedness k name), none)
  | .load name lex =>
    let e := { e.mention name with constant := false }
    match valueOf k name with
    | .ok a => (e.push a, none)
    | .error f => (e, some (f, lex))
  | .unary op =>
    match e.stack with
    | a :: s => ({ e with stack := op.apply a :: s }, none)
    | [] => (e, none)
  | .binary op lex =>
    match e.stack with
    | b :: a :: s =>
      match op.apply strict a b with
      | .ok c => ({ e with stack := c :: s }, none)
      | .error f => (e, some (f, lex))
    | _ => (e, none)

def run (e : Evaluation) : List Instr → Evaluation × Option (Fault × Lexical)
  | [] => (e, none)
  | i :: code =>
    match e.step k strict i with
    | (e', none) => e'.run code
    | failed => failed

theorem run_append (e : Evaluation) (p q : List Instr) :
    e.run k strict (p ++ q) =
      match e.run k strict p with
      | (e', none) => e'.run k strict q
      | failed => failed := by
  induction p generalizing e with
  | nil => rfl
  | cons i p ih =>
    simp only [List.cons_append, run]
    split
    · exact ih _
    · rename_i h
      split
      · rename_i h'
        exact absurd h' (h _)
      · rfl

end

end Evaluation

end CondResolve
