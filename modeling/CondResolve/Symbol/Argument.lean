import CondResolve.Symbol
import CondResolve.Text.Quoted

/-! # Symbols given as arguments: `NAME` or `NAME=VALUE` -/

namespace CondResolve.Symbol

/-- White space around the name is dropped, the value is taken as it stands. -/
def ofArgument? (text : String) (default : String) : Option Symbol :=
  let (name, tail) := text.toList.span (· ≠ '=')
  let name := trim name
  if isSymbol name then
    some ⟨String.ofList name, some (match tail with | [] => default | _ :: v => String.ofList v), false⟩
  else none

def invalidName (text : String) : String := "invalid symbol name: " ++ quoted text

end CondResolve.Symbol
