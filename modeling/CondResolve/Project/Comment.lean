import CondResolve.Text.Split

/-! # Text without its comments

A quick reading of comments that knows no literals. A line comment starts at two slashes unless a
backslash or a colon stands before them, as in the address of a page; a block comment that is never
closed is text. -/

namespace CondResolve

def afterBlock? : Chars → Option Chars
  | '/' :: '*' :: r => (cutAt? ['*', '/'] r).map (·.2)
  | _ => none

def startsLineComment : Chars → Bool
  | '/' :: '/' :: _ => true
  | _ => false

def restOfText (cs : Chars) : Chars := cs.dropWhile (· ≠ '\n')

theorem length_of_afterBlock? {cs rest : Chars} (h : afterBlock? cs = some rest) :
    rest.length < cs.length := by
  unfold afterBlock? at h
  split at h
  · obtain ⟨⟨b, r⟩, hr, rfl⟩ := Option.map_eq_some_iff.1 h
    have := length_of_cutAt? hr
    simp only [List.length_cons]
    omega
  · cases h

theorem length_restOfText (cs : Chars) : (restOfText cs).length ≤ cs.length :=
  (List.dropWhile_suffix _).length_le

/-- `lineStart` tells whether the text is at the start of a line. The character before a line comment
is kept; two slashes that start a line need none. -/
def stripFrom (lineStart : Bool) (cs : Chars) : Chars :=
  match cs with
  | [] => []
  | c :: r =>
    match h : afterBlock? (c :: r) with
    | some rest =>
      have := length_of_afterBlock? h
      stripFrom false rest
    | none =>
      have := length_restOfText r
      if c ≠ '\\' && c ≠ ':' && startsLineComment r then c :: stripFrom false (restOfText r)
      else if lineStart && startsLineComment (c :: r) then stripFrom false (restOfText r)
      else c :: stripFrom (c = '\n') r
termination_by cs.length
decreasing_by all_goals simp only [List.length_cons] at *; omega

def stripComments (cs : Chars) : Chars := stripFrom true cs

end CondResolve
