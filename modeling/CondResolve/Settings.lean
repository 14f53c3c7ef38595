/-! # Settings: what the output looks like and how far conditions are trusted -/

namespace CondResolve

structure Settings where
  /-- Collapse the blank lines on both sides of deleted lines. -/
  compressBlanks : Bool := false
  /-- Write an empty line for every deleted line. -/
  blankPlaceholders : Bool := false
  /-- Keep what would be dropped and drop what would be kept. -/
  complement : Bool := false
  /-- Write a comment after each line that tells what was made of it. -/
  debug : Bool := false
  /-- Pass directives that span several lines through unchanged. -/
  permitObfuscated : Bool := false
  /-- An unknown operand of `||` or `&&` makes the result unknown. -/
  strictLogic : Bool := false
  /-- Leave conditions alone in which no symbol occurs. -/
  forceConstantUnresolved : Bool := false
  /-- Write a `#line` directive after deleted lines. -/
  lineMarkers : Bool := false
  /-- List the symbols of conditions instead of the source. -/
  symbolList : Bool := false
  /-- List the symbols with the depth of their directives. -/
  symbolDepth : Bool := false
  /-- Read everything as code: no comments and no literals. -/
  passthroughText : Bool := false
  /-- The file that `#line` directives name. -/
  lineFile : Option String := none
  deriving DecidableEq, Repr

namespace Settings

def listing (s : Settings) : Bool := s.symbolList || s.symbolDepth

/-- Deleted blank lines are either closed up or marked, never both. -/
def isValid (s : Settings) : Bool := !(s.compressBlanks && s.blankPlaceholders)

end Settings

end CondResolve
