import CondResolve.Settings
import CondResolve.Text.Digit
import CondResolve.Text

/-! # Command-line arguments

Options may stand before and after the one source. A short option is a dash and a letter; more short
options may follow a flag in the same argument, and a value may follow its option there. A long option
may be cut short as long as it stays the only one that starts so, and takes its value after an equals
sign or from the next argument. Two dashes end the options. -/

namespace CondResolve

inductive Flag where
  | compressBlanks | blankPlaceholders | complement | debug | permitObfuscated | strictLogic
  | forceConstantUnresolved | lineMarkers | symbolList | symbolDepth | passthroughText
  | verbose | ask | help
  deriving DecidableEq, Repr

inductive Valued where
  | output | define | undef | ignoreDefine | ignoreUndef | defineFile | lineFile
  | project | config | keep | discard
  deriving DecidableEq, Repr

inductive Opt where
  | flag (f : Flag)
  | valued (v : Valued)
  deriving DecidableEq, Repr

def Opt.names : List (String × Opt) :=
  [("-h", .flag .help), ("--help", .flag .help), ("-o", .valued .output), ("-D", .valued .define),
   ("-U", .valued .undef), ("--ignore-define", .valued .ignoreDefine),
   ("--ignore-undef", .valued .ignoreUndef), ("-f", .valued .defineFile),
   ("-B", .flag .compressBlanks), ("-b", .flag .blankPlaceholders), ("-c", .flag .complement),
   ("-d", .flag .debug), ("-e", .flag .permitObfuscated), ("-K", .flag .strictLogic),
   ("-k", .flag .forceConstantUnresolved), ("-n", .flag .lineMarkers),
   ("--line-file", .valued .lineFile), ("-s", .flag .symbolList), ("-S", .flag .symbolDepth),
   ("-t", .flag .passthroughText), ("-v", .flag .verbose), ("--verbose", .flag .verbose),
   ("--project", .valued .project), ("--config", .valued .config), ("--keep", .valued .keep),
   ("--discard", .valued .discard), ("--ask", .flag .ask)]

def Opt.ofName? (name : String) : Option Opt := names.lookup name

/-- Where an option may be repeated, `none` stands for one without a text. -/
structure Arguments where
  source : Option String := none
  output : Option String := none
  defines : List (Option String) := []
  undefs : List (Option String) := []
  ignoreDefines : List (Option String) := []
  ignoreUndefs : List (Option String) := []
  defineFile : Option String := none
  settings : Settings := {}
  project : Option String := none
  config : Option String := none
  keep : List (Option String) := []
  discard : List (Option String) := []
  ask : Bool := false
  deriving DecidableEq, Repr

inductive Usage where
  | help
  | wrong
  deriving DecidableEq, Repr

namespace Arguments

def setFlag (a : Arguments) : Flag → Except Usage Arguments
  | .compressBlanks => .ok { a with settings.compressBlanks := true }
  | .blankPlaceholders => .ok { a with settings.blankPlaceholders := true }
  | .complement => .ok { a with settings.complement := true }
  | .debug => .ok { a with settings.debug := true }
  | .permitObfuscated => .ok { a with settings.permitObfuscated := true }
  | .strictLogic => .ok { a with settings.strictLogic := true }
  | .forceConstantUnresolved => .ok { a with settings.forceConstantUnresolved := true }
  | .lineMarkers => .ok { a with settings.lineMarkers := true }
  | .symbolList => .ok { a with settings.symbolList := true }
  | .symbolDepth => .ok { a with settings.symbolDepth := true, settings.symbolList := true }
  | .passthroughText => .ok { a with settings.passthroughText := true }
  | .verbose => .ok a
  | .ask => .ok { a with ask := true }
  | .help => .error .help

/-- An option without a text counts as given and empty. -/
def setValue (a : Arguments) (v : Valued) (x : Option String) : Arguments :=
  let text := some (x.getD "")
  match v with
  | .output => { a with output := text }
  | .define => { a with defines := a.defines ++ [x] }
  | .undef => { a with undefs := a.undefs ++ [x] }
  | .ignoreDefine => { a with ignoreDefines := a.ignoreDefines ++ [x] }
  | .ignoreUndef => { a with ignoreUndefs := a.ignoreUndefs ++ [x] }
  | .defineFile => { a with defineFile := text }
  | .lineFile => { a with settings.lineFile := text }
  | .project => { a with project := text }
  | .config => { a with config := text }
  | .keep => { a with keep := a.keep ++ [x] }
  | .discard => { a with discard := a.discard ++ [x] }

/-! ## One argument -/

inductive Word where
  | plain
  /-- It looks like an option, and there is none like it. -/
  | unknown
  /-- It is the start of more than one long option. -/
  | ambiguous
  | short (o : Opt) (more : Option Chars)
  | long (o : Opt) (value : Option Chars)

/-- A dash and a decimal number in the digits of any script, with or without a newline after it. -/
def isNegativeNumber : Chars → Bool
  | '-' :: cs =>
    let cs := if cs.getLast? = some '\n' then cs.dropLast else cs
    let whole := cs.takeWhile isAnyDigit
    match cs.drop whole.length with
    | [] => !whole.isEmpty
    | '.' :: frac => !frac.isEmpty && frac.all isAnyDigit
    | _ => false
  | _ => false

def isLong : Chars → Bool
  | '-' :: '-' :: _ => true
  | _ => false

def Word.ofOpt (name : Chars) (o : Opt) (value : Option Chars) : Word :=
  if isLong name then .long o value else .short o value

def longWord? (name : Chars) (value : Option Chars) : Option Word :=
  match Opt.names.filter (name.isPrefixOf ·.1.toList) with
  | [] => none
  | [(_, o)] => some (.long o value)
  | _ => some .ambiguous

def shortWord? (c : Char) (more : Chars) : Option Word :=
  (Opt.ofName? (String.ofList ['-', c])).map (.short · (some more))

/-- An option by its whole name comes first, then one by its name up to an equals sign. -/
def readWord (arg : String) : Word :=
  let cs := arg.toList
  let name := cs.takeWhile (· ≠ '=')
  let value := (cs.drop name.length).tail?
  match Opt.ofName? arg, Opt.ofName? (String.ofList name), cs with
  | some o, _, _ => .ofOpt cs o none
  | none, some o, _ => .ofOpt name o value
  | none, none, '-' :: c :: more =>
    let known := if c = '-' then longWord? name value else shortWord? c more
    known.getD (if isNegativeNumber cs || cs.contains ' ' then .plain else .unknown)
  | _, _, _ => .plain

/-! ## Options -/

/-- The options of one argument: flags, and at the end perhaps an option with a value, which the next
argument is unless it is given here. -/
structure Cluster where
  flags : List Flag
  valued : Option (Valued × Option Chars)

def joined? (o : Opt) : Chars → Option Cluster
  | [] =>
    match o with
    | .flag f => some ⟨[f], none⟩
    | .valued v => some ⟨[], some (v, none)⟩
  | c :: cs =>
    match o with
    | .valued v => some ⟨[], some (v, some (c :: cs))⟩
    | .flag f => do
      let k ← joined? (← Opt.ofName? (String.ofList ['-', c])) cs
      return { k with flags := f :: k.flags }

/-- A short option; after an equals sign nothing may follow only if that is its value. -/
def shortCluster? (o : Opt) : Option Chars → Option Cluster
  | none => joined? o []
  | some [] =>
    match o with
    | .flag _ => none
    | .valued v => some ⟨[], some (v, some [])⟩
  | some cs => joined? o cs

def longCluster? : Opt → Option Chars → Option Cluster
  | .flag f, none => some ⟨[f], none⟩
  | .flag _, some _ => none
  | .valued v, value => some ⟨[], some (v, value)⟩

/-- Two dashes for a value are no text. -/
def valueText (cs : Chars) : Option String :=
  if cs = ['-', '-'] then none else some (String.ofList cs)

/-! ## All arguments -/

def isPlain (arg : String) : Bool :=
  arg ≠ "--" && match readWord arg with
    | .plain => true
    | _ => false

/-- The arguments after two dashes, at most one of which may be the source. `adjacent` tells that the
source came just before them. -/
def readPlain (a : Arguments) (adjacent : Bool) : List String → Except Usage Arguments
  | [] => if a.source.isNone || adjacent then .ok a else .error .wrong
  | [x] => if a.source.isNone then .ok { a with source := some x } else .error .wrong
  | _ => .error .wrong

/-- Reads arguments from left to right. What is left over, an unknown option or a second source, is an
error only at the end. -/
def readFrom (a : Arguments) (extra adjacent : Bool) : List String → Except Usage Arguments
  | [] => if extra then .error .wrong else .ok a
  | arg :: args =>
    if arg = "--" then if extra then .error .wrong else readPlain a adjacent args
    else
      let cluster? : Option Cluster → Except Usage Arguments
        | none => .error .wrong
        | some ⟨flags, none⟩ => do readFrom (← flags.foldlM setFlag a) extra false args
        | some ⟨flags, some (v, some x)⟩ => do
          readFrom ((← flags.foldlM setFlag a).setValue v (valueText x)) extra false args
        | some ⟨flags, some (v, none)⟩ =>
          match args with
          | [] => .error .wrong
          | x :: args =>
            if isPlain x then do
              readFrom ((← flags.foldlM setFlag a).setValue v (some x)) extra false args
            else .error .wrong
      match readWord arg with
      | .ambiguous => .error .wrong
      | .unknown => readFrom a true false args
      | .plain =>
        if a.source.isNone then readFrom { a with source := some arg } extra true args
        else readFrom a true false args
      | .short o more => cluster? (shortCluster? o more)
      | .long o value => cluster? (longCluster? o value)

def isAmbiguous (arg : String) : Bool :=
  match readWord arg with
  | .ambiguous => true
  | _ => false

/-- The arguments of a command. An ambiguous option is wrong wherever it stands among the options. -/
def read (args : List String) : Except Usage Arguments :=
  if (args.takeWhile (· ≠ "--")).any isAmbiguous then .error .wrong
  else readFrom {} false false args

end Arguments

end CondResolve
