/-! # Characters, physical lines and newlines -/

namespace CondResolve

/-- Source text is read character by character, always from a suffix of a line. -/
abbrev Chars := List Char

/-! ## Character classes -/

def isDigit (c : Char) : Bool := '0' ≤ c && c ≤ '9'

def isSymbolChar (c : Char) : Bool :=
  c = '_' || ('a' ≤ c && c ≤ 'z') || ('A' ≤ c && c ≤ 'Z') || isDigit c

def isSpace (c : Char) : Bool := c = ' ' || c = '\r' || c = '\t'

def isSpaceOrNewline (c : Char) : Bool := isSpace c || c = '\n'

def isBlank (cs : Chars) : Bool := cs.all isSpaceOrNewline

/-! ## Identifiers -/

/-- The identifier that `cs` starts with, empty if there is none. -/
def symbolOf (cs : Chars) : Chars := cs.takeWhile isSymbolChar

def afterSymbol (cs : Chars) : Chars := cs.dropWhile isSymbolChar

/-- An identifier that ends before `cs` cannot go on in it. -/
def endsSymbol : Chars → Bool
  | [] => true
  | c :: _ => !isSymbolChar c

/-- What follows `word` if `cs` starts with it as a whole identifier. -/
def afterWord? (word cs : Chars) : Option Chars :=
  if word.isPrefixOf cs && endsSymbol (cs.drop word.length) then some (cs.drop word.length) else none

def isSymbol (cs : Chars) : Bool := !cs.isEmpty && cs.all isSymbolChar

/-! ## Physical lines -/

/-- The physical lines of a text; only the last one may lack its newline. -/
def lines : Chars → List Chars
  | [] => []
  | c :: cs =>
    if c = '\n' then [c] :: lines cs
    else match lines cs with
      | [] => [[c]]
      | l :: ls => (c :: l) :: ls

theorem flatten_lines (cs : Chars) : (lines cs).flatten = cs := by
  induction cs with
  | nil => rfl
  | cons c cs ih =>
    rw [lines]
    split
    · simp [ih]
    · split
      · rename_i h; rw [h] at ih; simpa using ih
      · rename_i h; rw [h] at ih; simpa using ih

inductive Newline where
  | lf
  | crlf
  deriving DecidableEq, Repr

def Newline.chars : Newline → Chars
  | .lf => ['\n']
  | .crlf => ['\r', '\n']

/-- The convention of a line that is read first. -/
def Newline.ofLine (line : Chars) : Newline :=
  if ['\r', '\n'].isSuffixOf line then .crlf else .lf

/-! ## White space in names, manifests and answers -/

/-- The characters of Unicode white space, with the separators U+001C to U+001F. -/
def isWhite (c : Char) : Bool :=
  let n := c.toNat
  (0x09 ≤ n && n ≤ 0x0D) || (0x1C ≤ n && n ≤ 0x20) || n = 0x85 || n = 0xA0 || n = 0x1680 ||
    (0x2000 ≤ n && n ≤ 0x200A) || n = 0x2028 || n = 0x2029 || n = 0x202F || n = 0x205F || n = 0x3000

def trim (cs : Chars) : Chars :=
  ((cs.dropWhile isWhite).reverse.dropWhile isWhite).reverse

end CondResolve
