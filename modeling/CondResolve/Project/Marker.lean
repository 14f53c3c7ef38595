import CondResolve.Symbol
import CondResolve.Text.Split

/-! # What a project says about itself

Quoted includes, the optional components that a configuration announces, and what was decided about
them. -/

namespace CondResolve

/-- All that `f` finds, from left to right. A find at a suffix is never empty, and the next one starts
behind it. -/
def findAll {α : Type} (f : Chars → Option (α × Chars)) (cs : Chars) : List α :=
  match cs with
  | [] => []
  | c :: r =>
    match f (c :: r) with
    | some (a, rest) => a :: if rest.length ≤ r.length then findAll f rest else findAll f r
    | none => findAll f r
termination_by cs.length

/-! ## Includes -/

def quotedName? (cs : Chars) : Option (String × Chars) :=
  let name := cs.takeWhile fun c => c ≠ '"' && c ≠ '\n'
  match cs.drop name.length with
  | '"' :: rest => some (String.ofList name, rest)
  | _ => none

def includeAt? (cs : Chars) : Option (String × Chars) :=
  if "#include".toList.isPrefixOf cs then
    match (cs.drop "#include".length).dropWhile isWhite with
    | '"' :: r => quotedName? r
    | _ => none
  else none

def quotedIncludes (cs : Chars) : List String := findAll includeAt? cs

/-! ## Optional components -/

structure Component where
  name : String
  description : String
  deriving DecidableEq, Repr

def onOneLine : Chars → Chars
  | '\r' :: '\n' :: cs => ' ' :: onOneLine cs
  | c :: cs => (if c = '\n' then ' ' else c) :: onOneLine cs
  | [] => []

/-- A component announced as `/* @NAME@ description */`. -/
def componentAt? (cs : Chars) : Option (Component × Chars) := do
  if "/* @".toList.isPrefixOf cs then
    let (name, r) ← cutAt? "@ ".toList (cs.drop 4)
    if name.contains '\n' then none
    else
      let (description, rest) ← cutAt? " */".toList r
      some (⟨String.ofList name, String.ofList (onOneLine description)⟩, rest)
  else none

def components (cs : Chars) : List Component := findAll componentAt? cs

/-! ## Decisions -/

/-- Components in the order they were first decided on: kept, discarded or left alone. -/
abbrev Decisions := List (String × Option Bool)

namespace Decisions

/-- A later decision replaces an earlier one at its place. -/
def put (ds : Decisions) (name : String) (keep : Option Bool) : Decisions :=
  match ds with
  | [] => [(name, keep)]
  | d :: ds => if d.1 = name then (name, keep) :: ds else d :: put ds name keep

def mentions (ds : Decisions) (name : String) : Bool := ds.any (·.1 = name)

/-- A component that is kept is defined, one that is discarded is not, and nothing is known of one that
is left alone. -/
def symbols (ds : Decisions) : List Symbol :=
  ds.filterMap fun (name, keep) =>
    keep.map fun k => ⟨name, if k then some "1" else none, false⟩

end Decisions

end CondResolve
