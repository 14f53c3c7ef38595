import CondResolve.Disk

/-! # The host of a command: files, standard input and output

Commands run in any monad with these operations. `World` is a host that is a value, so that what a
command does can be reasoned about. -/

namespace CondResolve

class Host (m : Type → Type) where
  readFile : String → m (Except FileError Content)
  writeFile : String → String → m (Except FileError Unit)
  removeFile : String → m (Except FileError Unit)
  removeDir : String → m (Except FileError Unit)
  listDir : String → m (Except FileError (List String))
  isFile : String → m Bool
  isDir : String → m Bool
  workingDir : m String
  /-- At least as many as there are paths that lead to a file or directory. -/
  reach : m Nat
  /-- Writes to standard output. -/
  print : String → m Unit
  /-- Writes to standard error. -/
  complain : String → m Unit
  /-- The next line of standard input without its newline; `none` at the end. -/
  readLine : m (Option String)
  /-- The rest of standard input. -/
  readInput : m String

structure World where
  disk : Disk
  input : Chars := []
  output : String := ""
  errors : String := ""

namespace World

/-- An operation that changes the disk, or fails and changes nothing. -/
def change (f : Disk → Except FileError Disk) : StateM World (Except FileError Unit) := fun w =>
  match f w.disk with
  | .ok d => (.ok (), { w with disk := d })
  | .error e => (.error e, w)

def takeLine : StateM World (Option String) := fun w =>
  match w.input with
  | [] => (none, w)
  | cs =>
    (some (String.ofList (cs.takeWhile (· ≠ '\n'))),
      { w with input := (cs.dropWhile (· ≠ '\n')).drop 1 })

instance : Host (StateM World) where
  readFile path := return (← get).disk.read path
  writeFile path text := change (·.write path text)
  removeFile path := change (·.remove path)
  removeDir path := change (·.removeDir path)
  listDir path := return (← get).disk.list path
  isFile path := return (← get).disk.isFile path
  isDir path := return (← get).disk.isDir path
  workingDir := return "/" ++ Path.ofParts (← get).disk.cwd
  -- a path may climb past the root any number of times, but is shorter than 4096 characters
  reach := return 4096 * ((← get).disk.files.length + (← get).disk.dirs.length + 1)
  print text := modify fun w => { w with output := w.output ++ text }
  complain text := modify fun w => { w with errors := w.errors ++ text }
  readLine := takeLine
  readInput := modifyGet fun w => (String.ofList w.input, { w with input := [] })

end World

end CondResolve
