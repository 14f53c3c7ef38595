import CondResolve.Settings
import CondResolve.Text

/-! # Writing or dropping lines -/

namespace CondResolve

/-- More blank lines than a text has. A text counts as if so many preceded it. -/
def manyBlanks : Nat := 0x7FFFFFFFFFFFFFFF

structure Writer where
  /-- Lines left out since the last one written. -/
  dropped : Nat := 0
  /-- Blank lines since the last line that was not blank, or since the last one dropped. -/
  blanks : Nat := manyBlanks
  /-- Blank lines written since the last line that was not blank. -/
  blankMax : Nat := manyBlanks
  altered : Bool := false
  deriving DecidableEq, Repr

def lineMarker (s : Settings) (nl : Newline) (n : Nat) : Chars :=
  let file := match s.lineFile with
    | none => ""
    | some f => if f.isEmpty then "" else " \"" ++ f ++ "\""
  ("#line " ++ toString n ++ file).toList ++ nl.chars

namespace Writer

def write (s : Settings) (nl : Newline) (n : Nat) (line : Chars) (w : Writer) : Writer × Chars :=
  let blanks := if isBlank line then w.blanks + 1 else 0
  let marker := if s.lineMarkers && 0 < w.dropped then lineMarker s nl n else []
  ({ w with dropped := 0, blanks, blankMax := blanks }, marker ++ line)

/-- A blank line that those on the other side of dropped lines make up for. -/
def absorb (w : Writer) : Writer := { w with dropped := w.dropped + 1, blanks := w.blanks + 1 }

def drop (s : Settings) (nl : Newline) (w : Writer) : Writer × Chars :=
  ({ w with altered := true, dropped := w.dropped + 1, blanks := 0 },
    if s.blankPlaceholders then nl.chars else [])

def flush (s : Settings) (nl : Newline) (n : Nat) (keep : Bool) (line : Chars) (w : Writer) :
    Writer × Chars :=
  if s.listing then (w, [])
  else if keep != s.complement then
    if isBlank line && s.compressBlanks && w.blanks ≠ w.blankMax then (w.absorb, [])
    else w.write s nl n line
  else w.drop s nl

end Writer

end CondResolve
