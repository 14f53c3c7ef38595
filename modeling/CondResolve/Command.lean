import CondResolve.Command.Arguments
import CondResolve.Project
import CondResolve.Symbol.Argument

/-! # The command

Without a project the command resolves one source, from a file or from standard input, and writes the
result. With one it resolves the files of the project in place. -/

namespace CondResolve

/-- How a command ends: with a status, or without one for a reason that nothing caters for. -/
inductive Ending where
  | exit (status : Nat)
  | undecodable
  | malformedPath
  | endOfInput
  | endless
  /-- A symbol or a component was asked for without its name. -/
  | nameless (v : Valued)
  deriving DecidableEq, Repr

namespace Arguments

def given (o : Option String) : Option String := o.filter (!·.isEmpty)

inductive SymbolError where
  | invalid (text : String)
  | nameless (v : Valued)

def named (v : Valued) (values : List (Option String)) : Except SymbolError (List Symbol) :=
  values.mapM fun
    | none => .error (.nameless v)
    | some text =>
      match Symbol.ofArgument? text "1" with
      | some s => .ok s
      | none => .error (.invalid text)

def symbols (a : Arguments) : Except SymbolError (List Symbol) := do
  let defined ← named .define a.defines
  let undefined ← named .undef a.undefs
  let ignoredDefined ← named .ignoreDefine a.ignoreDefines
  let ignoredUndefined ← named .ignoreUndef a.ignoreUndefs
  return defined ++ undefined.map ({ · with value := none }) ++
    ignoredDefined.map ({ · with ignored := true }) ++
    ignoredUndefined.map ({ · with value := none, ignored := true })

def decisions (a : Arguments) : Except Valued Decisions := do
  let kept ← a.keep.mapM fun name => name.elim (.error .keep) .ok
  let discarded ← a.discard.mapM fun name => name.elim (.error .discard) .ok
  return discarded.foldl (Decisions.put · · (some false))
    (kept.foldl (Decisions.put · · (some true)) [])

end Arguments

namespace Command

variable {m : Type → Type} [Monad m] [Host m]

abbrev CommandM (m : Type → Type) := ExceptT Ending m

def host {α : Type} (x : m α) : CommandM m α := ExceptT.lift x

def abort {α : Type} (message : String) : CommandM m α := do
  host (Host.complain ("Error: " ++ message ++ "\n"))
  throw (.exit 1)

def printLine (text : String) : CommandM m Unit := host (Host.print (text ++ "\n"))

/-- The text of a file that has to be read; `explain` words a refusal. -/
def readText (explain : String → String) (path : String) : CommandM m Chars := do
  match ← host (Host.readFile path) with
  | .ok (.text s) => return s.toList
  | .ok (.binary _) => throw .undecodable
  | .error .malformedPath => throw .malformedPath
  | .error e => abort (explain (e.message path))

/-! ## One source -/

def writeResult (a : Arguments) (text : String) : CommandM m Unit := do
  match Arguments.given a.output with
  | none => host (Host.print text)
  | some path =>
    match ← host (Host.writeFile path text) with
    | .ok () => return
    | .error .malformedPath => throw .malformedPath
    | .error e => abort ("cannot write " ++ path ++ ": " ++ e.message path)

def readSource (a : Arguments) : CommandM m (Chars × String) := do
  match a.source.getD "-" with
  | "-" => return ((← host Host.readInput).toList, "[stdin]")
  | path => return (← readText id path, path)

def runSource (a : Arguments) (symbols : List Symbol) : CommandM m Unit := do
  let script ← match Arguments.given a.defineFile with
    | none => pure []
    | some path => readText id path
  let (source, name) ← readSource a
  let s :=
    if a.settings.lineMarkers && (Arguments.given a.settings.lineFile).isNone then
      { a.settings with lineFile := some name }
    else a.settings
  match resolve s symbols script source with
  | .error f => abort f.message
  | .ok r => writeResult a (String.ofList r.text)

/-! ## A project -/

/-- An answer that starts with `y` or `n` decides. -/
def verdictOf (answer : Chars) : Option Bool :=
  match (trim answer).head? with
  | some 'y' | some 'Y' => some true
  | some 'n' | some 'N' => some false
  | _ => none

def askAbout (c : Component) : CommandM m (Option Bool) := do
  host (Host.print (c.name ++ "; " ++ c.description ++ "\n> "))
  match ← host Host.readLine with
  | some answer => return verdictOf answer.toList
  | none => throw .endOfInput

def askAboutAll (ds : Decisions) : List Component → CommandM m Decisions
  | [] => return ds
  | c :: cs => do
    if ds.mentions c.name then askAboutAll ds cs
    else askAboutAll (ds.put c.name (← askAbout c)) cs

def question : String :=
  "Which optional components would you like to KEEP? Enter Y to keep, " ++
    "N to discard, or leave blank to keep the option."

def collectDecisions (a : Arguments) (manifest : String) : CommandM m Decisions := do
  let ds ← match a.decisions with
    | .ok ds => pure ds
    | .error v => throw (.nameless v)
  if a.ask then
    let config ← match Arguments.given a.config with
      | some path => pure path
      | none =>
        let cwd ← host Host.workingDir
        pure (Path.join (Path.directory (Path.absolute cwd manifest)) "config.qc")
    let text ← readText (("cannot read " ++ config ++ ": ") ++ ·) config
    printLine question
    askAboutAll ds (components (unifyNewlines text))
  else return ds

def verdictText : Option Bool → String
  | some true => "resolve as true"
  | some false => "resolve as false"
  | none => "leave alone"

/-- A project has settings of its own unless some were asked for. -/
def projectConfig (a : Arguments) (symbols : List Symbol) : ProjectConfig :=
  { settings := if a.settings = {} then ProjectConfig.defaultSettings else a.settings
    symbols
    extensions := ProjectConfig.defaultExtensions }

def runProject (a : Arguments) (manifest : String) (symbols : List Symbol) : CommandM m Unit := do
  let ds ← collectDecisions a manifest
  ds.forM fun (name, keep) => printLine (" - " ++ name ++ ": " ++ verdictText keep)
  let cfg := projectConfig a (symbols ++ ds.symbols)
  unless cfg.settings.isValid do
    abort (Failure.message ⟨.exclusiveBlanks, none, none⟩)
  let (ended, session) ← host (SessionM.processManifest cfg manifest).start
  match ended with
  | .error (.file .malformedPath _) => throw .malformedPath
  | .error (.file e path) => abort (e.message path)
  | .error .undecodable => throw .undecodable
  | .error .endless => throw .endless
  | .ok () =>
    session.report.errors.forM fun e => host (Host.complain ("Error: " ++ e ++ "\n"))
    printLine ("Done: " ++ toString session.report.processed.length ++ " processed, " ++
      toString session.report.removed.length ++ " removed")
    unless session.report.success do throw (.exit 1)

/-! ## The whole command -/

def runArguments (a : Arguments) : CommandM m Unit := do
  match a.symbols with
  | .error (.invalid text) => abort (Symbol.invalidName text)
  | .error (.nameless v) => throw (.nameless v)
  | .ok symbols =>
    match Arguments.given a.project with
    | some manifest => runProject a manifest symbols
    | none => runSource a symbols

def run (args : List String) : m (Except Usage Ending) := do
  match Arguments.read args with
  | .error u => return .error u
  | .ok a =>
    match ← (runArguments a).run with
    | .ok () => return .ok (.exit 0)
    | .error e => return .ok e

end Command

end CondResolve
