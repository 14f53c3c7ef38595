import CondResolve.Command

/-! # The command on a real host -/

namespace CondResolve.Main

def refusal : IO.Error → FileError
  | .noFileOrDirectory .. => .notFound
  | .inappropriateType _ code details => byCode code details
  | e => .other 5 (toString e)
where
  byCode (code : UInt32) (details : String) : FileError :=
    if code = 20 then .notDirectory
    else if code = 21 then .isDirectory
    else .other code.toNat details

def attempt {α : Type} (x : IO α) : IO (Except FileError α) := do
  try return .ok (← x) catch e => return .error (refusal e)

def isDirectory (path : String) : IO Bool := do
  try (← IO.FS.realPath path).isDir catch _ => return false

def exists? (path : String) : IO Bool := do
  try (← IO.FS.realPath path).pathExists catch _ => return false

def read (path : String) : IO (Except FileError Content) := do
  if ← isDirectory path then return .error .isDirectory
  else return (← attempt (IO.FS.readBinFile path)).map .ofBytes

def write (path text : String) : IO (Except FileError Unit) := do
  if ← isDirectory path then return .error .isDirectory
  else attempt (IO.FS.writeFile path text)

def names (path : String) : IO (List String) := do
  return ((← (← IO.FS.realPath path).readDir).map (·.fileName)).toList

def nextLine : IO (Option String) := do
  let line ← (← IO.getStdin).getLine
  if line.isEmpty then return none
  else return some (if line.endsWith "\n" then (line.dropEnd 1).toString else line)

instance : Host IO where
  readFile := read
  writeFile := write
  removeFile path := attempt (IO.FS.removeFile path)
  removeDir path := attempt (IO.FS.removeDir path)
  listDir path := attempt (names path)
  isFile path := return (← exists? path) && !(← isDirectory path)
  isDir := isDirectory
  workingDir := return (← IO.currentDir).toString
  reach := return 0x100000000
  print := IO.print
  complain := IO.eprint
  readLine := nextLine
  readInput := do (← IO.getStdin).readToEnd

def usage : String :=
  "usage: pyunifdef [-h] [-o OUTPUT] [-D SYM[=VAL]] [-U SYM] [--ignore-define SYM[=VAL]]\n" ++
  "                 [--ignore-undef SYM] [-f DEFINE_FILE] [-BbcdeKknsStv] [--line-file LINE_FILE]\n" ++
  "                 [--project MANIFEST] [--config CONFIG] [--keep SYM] [--discard SYM] [--ask]\n" ++
  "                 [source]\n"

def status : Except Usage Ending → IO UInt32
  | .error .help => do
    IO.print usage
    return 0
  | .error .wrong => do
    IO.eprint usage
    return 2
  | .ok (.exit n) => return n.toUInt32
  | .ok .undecodable => broken "a file is not text"
  | .ok .malformedPath => broken "a path holds a null character"
  | .ok (.nameless _) => broken "an option lacks its name"
  | .ok .endOfInput => broken "there is no more input"
  | .ok .endless => broken "the project has no end"
where
  broken (why : String) : IO UInt32 := do
    IO.eprint ("Error: " ++ why ++ "\n")
    return 1

end CondResolve.Main

def main (args : List String) : IO UInt32 := do
  CondResolve.Main.status (← CondResolve.Command.run args)
