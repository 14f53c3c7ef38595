import CondResolve.Path
import CondResolve.Text.Quoted

/-! # Files and directories

A disk is a finite tree without links. A file or directory is known by the parts of its path from the
root. -/

namespace CondResolve

/-- What a file holds: text, or bytes that are not the encoding of a text. -/
inductive Content where
  | text (s : String)
  | binary (bytes : ByteArray)

instance : DecidableEq Content
  | .text s, .text t => decidable_of_iff (s = t) (by simp)
  | .binary a, .binary b =>
    have := ByteArray.instDecidableEq a b
    decidable_of_iff (a = b) (by simp)
  | .text _, .binary _ => isFalse (by simp)
  | .binary _, .text _ => isFalse (by simp)

def Content.ofBytes (bytes : ByteArray) : Content :=
  match String.fromUTF8? bytes with
  | some s => .text s
  | none => .binary bytes

inductive FileError where
  | notFound
  | notDirectory
  | isDirectory
  | notEmpty
  | nameTooLong
  /-- The path holds the null character, which no path may hold, so the system was never asked. -/
  | malformedPath
  /-- Any other refusal, with its number and wording. -/
  | other (number : Nat) (text : String)
  deriving DecidableEq, Repr

namespace FileError

def number : FileError → Nat
  | .notFound => 2
  | .notDirectory => 20
  | .isDirectory => 21
  | .notEmpty => 39
  | .nameTooLong => 36
  | .malformedPath => 22
  | .other n _ => n

def text : FileError → String
  | .notFound => "No such file or directory"
  | .notDirectory => "Not a directory"
  | .isDirectory => "Is a directory"
  | .notEmpty => "Directory not empty"
  | .nameTooLong => "File name too long"
  | .malformedPath => "embedded null byte"
  | .other _ t => t

def message (e : FileError) (path : String) : String :=
  "[Errno " ++ toString e.number ++ "] " ++ e.text ++ ": " ++ quoted path

end FileError

/-- The parts of a path from the root. -/
abbrev Place := List String

def maxName : Nat := 255

structure Disk where
  cwd : Place
  files : List (Place × Content)
  dirs : List Place

namespace Disk

def isDirAt (d : Disk) (p : Place) : Bool := p.isEmpty || d.dirs.contains p

def contentAt? (d : Disk) (p : Place) : Option Content := d.files.lookup p

def isFileAt (d : Disk) (p : Place) : Bool := (d.contentAt? p).isSome

/-- Follows parts from a place; every place that is left behind has to be a directory. -/
def walk (d : Disk) (p : Place) : List String → Except FileError Place
  | [] => .ok p
  | part :: ps =>
    if d.isDirAt p then
      if part = "" ∨ part = "." then d.walk p ps
      else if part = ".." then d.walk p.dropLast ps
      else if maxName < part.utf8ByteSize then .error .nameTooLong
      else d.walk (p ++ [part]) ps
    else if d.isFileAt p then .error .notDirectory
    else .error .notFound

def start (d : Disk) (path : String) : Place := if Path.isAbsolute path then [] else d.cwd

def checked (path : String) : Except FileError Unit :=
  if path.isEmpty then .error .notFound
  else if path.toList.contains '\x00' then .error .malformedPath
  else .ok ()

def locate (d : Disk) (path : String) : Except FileError Place := do
  checked path
  d.walk (d.start path) (Path.parts path)

def isFile (d : Disk) (path : String) : Bool :=
  match d.locate path with
  | .ok p => d.isFileAt p
  | .error _ => false

def isDir (d : Disk) (path : String) : Bool :=
  match d.locate path with
  | .ok p => d.isDirAt p
  | .error _ => false

def read (d : Disk) (path : String) : Except FileError Content := do
  let p ← d.locate path
  if d.isDirAt p then .error .isDirectory
  else
    match d.contentAt? p with
    | some c => .ok c
    | none => .error .notFound

def put (d : Disk) (p : Place) (c : Content) : Disk :=
  if d.isFileAt p then
    { d with files := d.files.map fun (q, old) => (q, if q = p then c else old) }
  else { d with files := d.files ++ [(p, c)] }

def target (d : Disk) (path : String) : Except FileError Place := do
  checked path
  let ps := Path.parts path
  let named := (ps.reverse.dropWhile (· = "")).reverse
  let p ← d.walk (d.start path) named
  if d.isDirAt p || named.length < ps.length then .error .isDirectory else .ok p

def write (d : Disk) (path text : String) : Except FileError Disk := do
  return d.put (← d.target path) (.text text)

def remove (d : Disk) (path : String) : Except FileError Disk := do
  let p ← d.locate path
  if d.isDirAt p then .error .isDirectory
  else if d.isFileAt p then .ok { d with files := d.files.filter (·.1 ≠ p) }
  else .error .notFound

def namesAt (d : Disk) (p : Place) : List String :=
  (d.files.map (·.1) ++ d.dirs).filterMap fun q =>
    match q.getLast? with
    | some name => if q.dropLast = p then some name else none
    | none => none

def list (d : Disk) (path : String) : Except FileError (List String) := do
  let p ← d.locate path
  if d.isDirAt p then .ok (d.namesAt p)
  else if d.isFileAt p then .error .notDirectory
  else .error .notFound

def removeDir (d : Disk) (path : String) : Except FileError Disk := do
  let p ← d.locate path
  if d.isDirAt p then
    if (d.namesAt p).isEmpty then .ok { d with dirs := d.dirs.filter (· ≠ p) }
    else .error .notEmpty
  else if d.isFileAt p then .error .notDirectory
  else .error .notFound

end Disk

end CondResolve
