import CondResolve.Text.Split

/-! # Paths

A path is a text of parts between slashes. Exactly two slashes in front are kept apart from one. -/

namespace CondResolve.Path

def parts (p : String) : List String := (splitOn '/' p.toList).map String.ofList

def ofParts (ps : List String) : String :=
  String.ofList (joinWith '/' (ps.map String.toList))

/-- The slashes that a path starts with: none, one, or exactly two. -/
def leading (p : String) : Nat :=
  match p.toList with
  | '/' :: '/' :: '/' :: _ => 1
  | '/' :: '/' :: _ => 2
  | '/' :: _ => 1
  | _ => 0

def isAbsolute (p : String) : Bool := leading p ≠ 0

/-- One more part on a stack of parts. Two dots take the part below them away, unless there is none
to take. -/
def pushPart (rooted : Bool) (stack : List String) (part : String) : List String :=
  if part = "" ∨ part = "." then stack
  else if part ≠ ".." then part :: stack
  else
    match stack with
    | [] => if rooted then [] else [part]
    | top :: below => if top = ".." then part :: stack else below

/-- The path without needless slashes and dots. -/
def normal (p : String) : String :=
  let stack := (parts p).foldl (pushPart (isAbsolute p)) []
  let text := String.ofList (List.replicate (leading p) '/') ++ ofParts stack.reverse
  if text.isEmpty then "." else text

def join (p q : String) : String :=
  if isAbsolute q then q
  else if p.isEmpty || p.toList.getLast? = some '/' then p ++ q
  else p ++ "/" ++ q

def directory (p : String) : String :=
  let head := (p.toList.reverse.dropWhile (· ≠ '/')).reverse
  let bare := (head.reverse.dropWhile (· = '/')).reverse
  String.ofList (if bare.isEmpty then head else bare)

def absolute (cwd p : String) : String := normal (join cwd p)

def tail (p : String) : List String := (parts p).filter (· ≠ "")

def dropCommon : List String → List String → List String × List String
  | a :: as, b :: bs => if a = b then dropCommon as bs else (a :: as, b :: bs)
  | as, bs => (as, bs)

def relative (cwd p start : String) : String :=
  let (up, down) := dropCommon (tail (absolute cwd start)) (tail (absolute cwd p))
  let steps := List.replicate up.length ".." ++ down
  if steps.isEmpty then "." else ofParts steps

/-- The last dot of a name and what follows it. Dots in front of a name start no extension. -/
def extension (name : String) : String :=
  let body := name.toList.dropWhile (· = '.')
  if body.contains '.' then
    String.ofList ('.' :: (body.reverse.takeWhile (· ≠ '.')).reverse)
  else ""

end CondResolve.Path
