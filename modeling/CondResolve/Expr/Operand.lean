import CondResolve.Failure

/-! # Operands: three truth values and 64-bit numbers

A known operand is true exactly if its number is not zero. An unknown one still carries a number:
that of its left operand, or zero for a symbol nothing is known about. -/

namespace CondResolve

inductive Truth where
  | yes
  | no
  | unknown
  deriving DecidableEq, Repr

def Truth.ofBool (b : Bool) : Truth := if b then .yes else .no

structure Operand where
  truth : Truth
  value : Int
  deriving DecidableEq, Repr

def wordSize : Nat := 0x10000000000000000

/-- The signed 64-bit number that agrees with `n` modulo the size of a word. -/
def wrap (n : Int) : Int := n.bmod wordSize

namespace Operand

def known (n : Int) : Operand := ⟨.ofBool (wrap n ≠ 0), wrap n⟩

def ofBool (b : Bool) : Operand := known (if b then 1 else 0)

def unknown (n : Int) : Operand := ⟨.unknown, n⟩

def isKnown (a : Operand) : Bool := a.truth ≠ .unknown

end Operand

/-! ## Operators -/

inductive UnaryOp where
  | not
  | complement
  | negate
  deriving DecidableEq, Repr

namespace UnaryOp

def char : UnaryOp → Char
  | .not => '!'
  | .complement => '~'
  | .negate => '-'

def ofChar? (c : Char) : Option UnaryOp := [.not, .complement, .negate].find? (·.char = c)

/-- An unknown operand passes through. -/
def apply (op : UnaryOp) (a : Operand) : Operand :=
  if a.isKnown then
    match op with
    | .not => .ofBool (a.value = 0)
    | .complement => .known (-a.value - 1)
    | .negate => .known (-a.value)
  else a

end UnaryOp

inductive BinaryOp where
  | or | and
  | bitOr | bitXor | bitAnd
  | eq | ne
  | le | ge | lt | gt
  | shiftLeft | shiftRight
  | add | sub
  | mul | div | mod
  deriving DecidableEq, Repr

namespace BinaryOp

def all : List BinaryOp :=
  [.or, .and, .bitOr, .bitXor, .bitAnd, .eq, .ne, .le, .ge, .lt, .gt, .shiftLeft, .shiftRight,
   .add, .sub, .mul, .div, .mod]

def chars : BinaryOp → Chars
  | .or => ['|', '|']
  | .and => ['&', '&']
  | .bitOr => ['|']
  | .bitXor => ['^']
  | .bitAnd => ['&']
  | .eq => ['=', '=']
  | .ne => ['!', '=']
  | .le => ['<', '=']
  | .ge => ['>', '=']
  | .lt => ['<']
  | .gt => ['>']
  | .shiftLeft => ['<', '<']
  | .shiftRight => ['>', '>']
  | .add => ['+']
  | .sub => ['-']
  | .mul => ['*']
  | .div => ['/']
  | .mod => ['%']

/-- Characters that make a different operator of the one they follow. -/
def stops : BinaryOp → Chars
  | .bitOr => ['|']
  | .bitAnd => ['&']
  | .lt => ['<', '=']
  | .gt => ['>', '=']
  | _ => []

def level : BinaryOp → Nat
  | .or => 0
  | .and => 1
  | .bitOr => 2
  | .bitXor => 3
  | .bitAnd => 4
  | .eq | .ne => 5
  | .le | .ge | .lt | .gt => 6
  | .shiftLeft | .shiftRight => 7
  | .add | .sub => 8
  | .mul | .div | .mod => 9

def maxLevel : Nat := 9

def startsHere (op : BinaryOp) (cs : Chars) : Bool :=
  op.chars.isPrefixOf cs &&
    match cs.drop op.chars.length with
    | [] => true
    | c :: _ => !op.stops.contains c

def ofChars? (cs : Chars) : Option BinaryOp := all.find? (·.startsHere cs)

def bits (f : BitVec 64 → BitVec 64 → BitVec 64) (a b : Int) : Int :=
  (f (.ofInt 64 a) (.ofInt 64 b)).toInt

/-- The exact result, before it is wrapped. Division cuts off toward zero, and a right shift keeps
the sign. -/
def exact : BinaryOp → Int → Int → Int
  | .or, a, b => if a ≠ 0 ∨ b ≠ 0 then 1 else 0
  | .and, a, b => if a ≠ 0 ∧ b ≠ 0 then 1 else 0
  | .bitOr, a, b => bits (· ||| ·) a b
  | .bitXor, a, b => bits (· ^^^ ·) a b
  | .bitAnd, a, b => bits (· &&& ·) a b
  | .eq, a, b => if a = b then 1 else 0
  | .ne, a, b => if a ≠ b then 1 else 0
  | .le, a, b => if a ≤ b then 1 else 0
  | .ge, a, b => if b ≤ a then 1 else 0
  | .lt, a, b => if a < b then 1 else 0
  | .gt, a, b => if b < a then 1 else 0
  | .shiftLeft, a, b => a * Int.pow 2 b.toNat
  | .shiftRight, a, b => a.shiftRight b.toNat
  | .add, a, b => a + b
  | .sub, a, b => a - b
  | .mul, a, b => a * b
  | .div, a, b => a.tdiv b
  | .mod, a, b => a.tmod b

/-- An operand that settles the result by itself, unless the logic is strict. -/
def absorbs? (op : BinaryOp) (a b : Operand) : Option Operand :=
  match op with
  | .or => if a.truth = .yes || b.truth = .yes then some (.known 1) else none
  | .and => if a.truth = .no || b.truth = .no then some (.known 0) else none
  | _ => none

def fault? (op : BinaryOp) (a b : Operand) : Option Fault :=
  match op with
  | .div => if b.truth = .yes then none else some .divisor
  | .mod => if b.truth = .yes then none else some .modulus
  | .shiftLeft | .shiftRight =>
    if a.isKnown && b.isKnown && !(0 ≤ b.value && b.value < 64) then some (.shiftCount b.value)
    else none
  | _ => none

/-- The unknown result carries the left number. -/
def combine (op : BinaryOp) (a b : Operand) : Operand :=
  if a.isKnown && b.isKnown then .known (op.exact a.value b.value) else .unknown a.value

def apply (op : BinaryOp) (strict : Bool) (a b : Operand) : Except Fault Operand :=
  match op.fault? a b with
  | some f => .error f
  | none =>
    if strict then .ok (op.combine a b)
    else .ok ((op.absorbs? a b).getD (op.combine a b))

end BinaryOp

/-! ## Numbers in text -/

def digitsValue (ds : Chars) : Nat := ds.foldl (fun n d => 10 * n + (d.toNat - '0'.toNat)) 0

def parseInt? (cs : Chars) : Option Int :=
  let unsigned (ds : Chars) : Option Int :=
    if !ds.isEmpty && ds.all isDigit then some (digitsValue ds) else none
  match cs with
  | '-' :: ds => (unsigned ds).map (- ·)
  | '+' :: ds => unsigned ds
  | ds => unsigned ds

end CondResolve
