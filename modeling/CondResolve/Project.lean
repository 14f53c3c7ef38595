import CondResolve.Host
import CondResolve.Project.Comment
import CondResolve.Project.Marker
import CondResolve.Resolve

/-! # Resolving a project

A manifest lists the files of a project. Each of them is resolved, quoted includes are followed, a file
that comes out empty is deleted, and at the end so are the tracked files that nothing leads to. A file
that fails is reported and left as it is, and then nothing is pruned, since its includes are not
known. -/

namespace CondResolve

structure ProjectConfig where
  settings : Settings
  symbols : List Symbol
  /-- The extensions of files that are pruned when nothing leads to them. -/
  extensions : List String

namespace ProjectConfig

def defaultSettings : Settings := { compressBlanks := true, strictLogic := true }

def defaultExtensions : List String := [".qc", ".h"]

end ProjectConfig

structure Report where
  processed : List String := []
  removed : List String := []
  errors : List String := []
  deriving DecidableEq, Repr

def Report.success (r : Report) : Bool := r.errors.isEmpty

/-- A report in the making, and the files that are needed. -/
structure Session where
  report : Report := {}
  includes : List String := []
  deriving DecidableEq, Repr

/-- What ends a session early. -/
inductive Crash where
  | file (e : FileError) (path : String)
  /-- A file that should hold text does not. -/
  | undecodable
  /-- A chain of includes or directories is longer than the host has paths. -/
  | endless
  deriving DecidableEq, Repr

/-- A session keeps its state when it ends early. -/
abbrev SessionM (m : Type → Type) := ExceptT Crash (StateT Session m)

namespace SessionM

variable {m : Type → Type} [Monad m] [Host m]

def host {α : Type} (x : m α) : SessionM m α := ExceptT.lift (StateT.lift x)

def log (level text : String) : SessionM m Unit :=
  host (Host.complain (level ++ ": pyunifdef.project: " ++ text ++ "\n"))

def info (text : String) : SessionM m Unit := log "INFO" text

def warn (text : String) : SessionM m Unit := log "WARNING" text

def change (f : Session → Session) : SessionM m Unit := modify f

def session : SessionM m Session := get

def fail (path error : String) : SessionM m Unit := do
  let line := path ++ ": " ++ error
  warn line
  change fun s => { s with report.errors := s.report.errors ++ [line] }

def must {α : Type} (path : String) (x : m (Except FileError α)) : SessionM m α := do
  match ← host x with
  | .ok a => return a
  | .error e => throw (.file e path)

def textOf : Content → SessionM m Chars
  | .text s => return s.toList
  | .binary _ => throw .undecodable

def remove (path : String) : SessionM m Unit := do
  must path (Host.removeFile path)
  change fun s => { s with report.removed := s.report.removed ++ [path] }

def need (path : String) : SessionM m Unit :=
  change fun s => { s with includes := s.includes ++ [path] }

def forget (path : String) : SessionM m Unit :=
  change fun s => { s with includes := s.includes.filter (· ≠ path) }

def resolveFile (cfg : ProjectConfig) (path : String) : SessionM m (Option Resolved) := do
  match ← host (Host.readFile path) with
  | .error .malformedPath => throw (.file .malformedPath path)
  | .error e =>
    fail path (e.message path)
    return none
  | .ok content =>
    match resolve cfg.settings cfg.symbols [] (← textOf content) with
    | .error f =>
      fail path f.message
      return none
    | .ok r => return some r

/-- Resolves a file and, through at most `depth` includes, the files it includes. The answer tells
whether the file is still there. -/
def processFile (cfg : ProjectConfig) (depth : Nat) (path name : String) : SessionM m Bool := do
  match depth with
  | 0 => throw .endless
  | depth + 1 =>
    info ("Processing " ++ (if name.isEmpty then path else name) ++ "...")
    match ← resolveFile cfg path with
    | none => return true
    | some r =>
      change fun s => { s with report.processed := s.report.processed ++ [path] }
      let stripped := stripComments r.text
      if stripped.all isWhite then
        remove path
        return false
      else
        let base := Path.directory path
        (quotedIncludes stripped).forM fun quotedName => do
          let target := Path.normal (Path.join base quotedName)
          unless (← session).includes.contains target do
            need target
            if ← host (Host.isFile target) then
              let cwd ← host Host.workingDir
              discard <| processFile cfg depth target (Path.relative cwd target base)
            else fail target "included file not found"
        if r.altered then must path (Host.writeFile path (String.ofList r.text))
        return true

def process (cfg : ProjectConfig) (path name : String) : SessionM m Bool := do
  processFile cfg (← host Host.reach) path name

/-- Deletes the tracked files of a directory that are not needed, and the directory if it is empty
then. -/
def pruneDir (cfg : ProjectConfig) (depth : Nat) (dir : String) : SessionM m Unit := do
  match depth with
  | 0 => throw .endless
  | depth + 1 =>
    let names ← must dir (Host.listDir dir)
    (names.mergeSort fun a b => decide (a ≤ b)).forM fun name => do
      let path := Path.normal (Path.join dir name)
      if ← host (Host.isDir path) then
        unless name.toList.head? = some '.' do pruneDir cfg depth path
      else if cfg.extensions.contains (Path.extension name) then
        unless (← session).includes.contains path do
          info ("Removing unreferenced " ++ path)
          remove path
    if (← must dir (Host.listDir dir)).isEmpty then must dir (Host.removeDir dir)

def processEntry (cfg : ProjectConfig) (base entry : String) : SessionM m Bool := do
  if entry.toList.all isWhite then return true
  else
    let path := Path.normal (Path.join base entry)
    if (← session).includes.contains path then return true
    else
      need path
      let kept ← process cfg path entry
      unless kept do forget path
      return kept

/-- Processes the files that a manifest lists. Its first line names the output of the project and
stays, as do blank lines. -/
def processManifest (cfg : ProjectConfig) (manifest : String) : SessionM m Unit := do
  let manifest := Path.absolute (← host Host.workingDir) manifest
  let base := Path.directory manifest
  let text ← textOf (← must manifest (Host.readFile manifest))
  let entries := splitOn '\n' (unifyNewlines text)
  let kept ← (entries.drop 1).filterM fun entry => processEntry cfg base (String.ofList entry)
  must manifest
    (Host.writeFile manifest (String.ofList (joinWith '\n' (entries.take 1 ++ kept))))
  let errors := (← session).report.errors.length
  if errors = 0 then pruneDir cfg (← host Host.reach) base
  else warn ("Not pruning " ++ base ++ " after " ++ toString errors ++ " error(s)")

def start {α : Type} (x : SessionM m α) : m (Except Crash α × Session) := (ExceptT.run x).run {}

end SessionM

end CondResolve
