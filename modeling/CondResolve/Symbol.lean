import CondResolve.Text

/-! # Symbols and first-match tables of them -/

namespace CondResolve

/-- A symbol without a value is known to be undefined. -/
structure Symbol where
  name : String
  value : Option String := none
  ignored : Bool := false
  deriving DecidableEq, Repr

namespace Symbol

def isDefined (s : Symbol) : Bool := s.value.isSome

def text (s : Symbol) : String :=
  match s.value with
  | none => s.name ++ " undef"
  | some v => if v.isEmpty then s.name ++ " " else s.name ++ "=" ++ v

end Symbol

/-- Symbols in order. The first entry of a name counts, so a later one is never reached. -/
abbrev Table := List Symbol

namespace Table

def index? (t : Table) (name : String) : Option Nat := t.findIdx? (·.name = name)

def lookup (t : Table) (name : String) : Option Symbol := t.find? (·.name = name)

/-- Overwrites the first entry of the symbol's name in place, or appends the symbol. -/
def put (t : Table) (s : Symbol) : Table :=
  match t with
  | [] => [s]
  | x :: t => if x.name = s.name then s :: t else x :: put t s

theorem lookup_put_self (t : Table) (s : Symbol) : (t.put s).lookup s.name = some s := by
  induction t with
  | nil => simp [put, lookup]
  | cons x t ih =>
    rw [put]
    split
    · simp [lookup]
    · rename_i h
      simpa [lookup, h] using ih

theorem lookup_put_of_ne (t : Table) {s : Symbol} {name : String} (h : s.name ≠ name) :
    (t.put s).lookup name = t.lookup name := by
  induction t with
  | nil => simp [put, lookup, h]
  | cons x t ih =>
    rw [put]
    split
    · rename_i hx
      simp [lookup, h, hx]
    · by_cases hn : x.name = name
      · simp [lookup, hn]
      · simpa [lookup, hn] using ih

end Table

end CondResolve
