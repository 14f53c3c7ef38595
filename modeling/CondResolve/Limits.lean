import CondResolve.Expr.Demand
import CondResolve.Resolve

/-! # Resolving on a host with limits

Only conditions ask for anything that a host may refuse. A run that is refused a demand ends there, without a result
and without a failure of its own; `resolve` is the run on a host whose limits are lifted. -/

namespace CondResolve

section
variable (s : Settings) (t : Table)

/-- What a line asks for when it is read from lexical state `lx`: what its condition does, if it has one. -/
def lineDemands (v : View) (lx : Lexical) (line : Chars) : List Demand :=
  match findKeyword v.verbatim lx line with
  | .error _ => []
  | .ok (lx', rest) =>
    match (afterWord? "if".toList rest).or (afterWord? "elif".toList rest) with
    | none => []
    | some cs => demands s v.verbatim (View.knowledge s t) lx' cs

def Run.demands (r : Run) : List Chars → List Demand
  | [] => []
  | line :: ls =>
    lineDemands s t (r.view s line) r.lex line ++
      match r.read s t line with
      | .error _ => []
      | .ok p =>
        match p.step s with
        | .error _ => []
        | .ok st => st.run.demands ls

end

def sourceDemands (s : Settings) (symbols : List Symbol) (script source : Chars) : List Demand :=
  if s.isValid then
    match buildTable s symbols script with
    | .error _ => []
    | .ok t => Run.demands s t {} (lines source)
  else []

/-- The outcome of a run on a host with limits: a demand that it refused, or what `resolve` gives. -/
def resolveOn (lim : Limits) (s : Settings) (symbols : List Symbol) (script source : Chars) :
    Except Demand (Except Failure Resolved) :=
  lim.impose (sourceDemands s symbols script source) (resolve s symbols script source)

end CondResolve
