import CondResolve.Expr.Reading

/-! # What a condition asks of its host

A host may bound the digits of a numeral that it turns into a number and the depth of nested calls. To ask for more
is not a fault of the condition: the host refuses, and the evaluation is given up as a whole. -/

namespace CondResolve

inductive Demand where
  /-- To turn so many digits into a number. -/
  | numeral (digits : Nat)
  /-- To nest so many calls below the operand that the condition starts with. -/
  | nesting (calls : Nat)
  deriving DecidableEq, Repr

/-- The bounds of a host. One that is not set is lifted. -/
structure Limits where
  digits : Option Nat := none
  calls : Option Nat := none
  deriving DecidableEq, Repr

def Limits.allows (lim : Limits) : Demand → Bool
  | .numeral n => lim.digits.all (n ≤ ·)
  | .nesting n => lim.calls.all (n ≤ ·)

/-- What the value of a symbol asks for. One that is not a number asks for nothing. -/
def valueDemand? (k : Knowledge) (name : String) : Option Demand :=
  match k name with
  | some (some v) => if (parseInt? v.toList).isSome then some (.numeral (v.toList.countP isDigit)) else none
  | _ => none

namespace Instr

/-- What an instruction asks for when it is `deep` calls down. -/
def demand? (k : Knowledge) (deep : Nat) : Instr → Option Demand
  | .numeral ds => some (.numeral ds.length)
  | .load name _ => valueDemand? k name
  | .enter calls => some (.nesting (deep + calls))
  | _ => none

def depth (deep : Nat) : Instr → Nat
  | .enter calls => deep + calls
  | .leave calls => deep - calls
  | _ => deep

end Instr

def Evaluation.demands (k : Knowledge) (strict : Bool) (e : Evaluation) (deep : Nat) : List Instr → List Demand
  | [] => []
  | i :: code =>
    (i.demand? k deep).toList ++
      match e.step k strict i with
      | (e', none) => e'.demands k strict (i.depth deep) code
      | _ => []

def demands (s : Settings) (verbatim : Bool) (k : Knowledge) (lx : Lexical) (cs : Chars) : List Demand :=
  Evaluation.demands k s.strictLogic {} 0 (climb verbatim 0 lx cs).code

/-- What comes of work that asks for `ds`: a host with limits refuses the first demand that it does not allow. -/
def Limits.impose {α : Type} (lim : Limits) (ds : List Demand) (x : α) : Except Demand α :=
  match ds.find? (!lim.allows ·) with
  | some d => .error d
  | none => .ok x

def evaluateOn (lim : Limits) (s : Settings) (verbatim : Bool) (k : Knowledge) (lx : Lexical) (cs : Chars) :
    Except Demand Evaluated :=
  lim.impose (demands s verbatim k lx cs) (evaluate s verbatim k lx cs)

end CondResolve
