import CondResolve.Settings
import CondResolve.Text

/-! # Listings of symbols and notes in the output -/

namespace CondResolve

/-- The names that one directive mentions. By depth they stand on one line after it, and `listed`
tells whether a line before it has to be ended; otherwise each name has its line. -/
def listNames (s : Settings) (nl : Newline) (depth : Nat) (first listed : Bool)
    (names : List String) : Chars :=
  if s.symbolDepth then
    let lead :=
      if first && !names.isEmpty then (if listed then nl.chars else []) ++ (toString depth).toList
      else []
    lead ++ names.flatMap fun name => ' ' :: name.toList
  else if s.symbolList then names.flatMap fun name => name.toList ++ nl.chars
  else []

def closeListing (s : Settings) (nl : Newline) (listed : Bool) : Chars :=
  if s.symbolDepth && listed then nl.chars else []

/-- A comment about the run, if the settings ask for it. -/
def note (s : Settings) (message : String) : Chars :=
  if s.debug then '/' :: '*' :: message.toList ++ ['*', '/'] else []

end CondResolve
