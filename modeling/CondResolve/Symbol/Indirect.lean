import CondResolve.Symbol

/-! # Values that name other symbols

A symbol whose value is exactly the name of another entry takes over that entry's value. A pass goes
through the table once, in order and in place; passes are repeated until one changes nothing. Each
pass shortens every cycle of names and every chain that has not reached its end, so twice as many
passes as entries are enough. -/

namespace CondResolve.Table

/-- The value that entry `i` takes over, if its value names another entry that has one. -/
def redirect? (t : Table) (i : Nat) : Option String := do
  let v ← (← t[i]?).value
  let j ← t.index? v
  let w ← (← t[j]?).value
  if isSymbol v.toList && i ≠ j && v ≠ w then some w else none

def redirect (t : Table) (i : Nat) : Table × Nat :=
  match t.redirect? i with
  | none => (t, 0)
  | some w => (t.modify i fun s => { s with value := some w }, 1)

def redirectAll (t : Table) (is : List Nat) : Table × Nat :=
  match is with
  | [] => (t, 0)
  | i :: is =>
    let (t', n) := t.redirect i
    let (t'', m) := redirectAll t' is
    (t'', n + m)

def pass (t : Table) : Table × Nat := t.redirectAll (List.range t.length)

/-- At most `k` passes, up to the first that changes nothing, and the number of changes. -/
def passes (k : Nat) (t : Table) : Table × Nat :=
  match k with
  | 0 => (t, 0)
  | k + 1 =>
    match t.pass with
    | (_, 0) => (t, 0)
    | (t', n) =>
      let (t'', m) := passes k t'
      (t'', n + m)

/-- The table in which every chain of names is followed to its end. -/
def settle (t : Table) : Table × Nat := t.passes (2 * t.length + 1)

end CondResolve.Table
