import CondResolve.Failure
import CondResolve.Settings
import CondResolve.Symbol

/-! # Define scripts

A script is a text of `#define` and `#undef` directives that change a table one after another; other
lines are skipped. What was read before a failure stays in the table. -/

namespace CondResolve.Script

section
variable (verbatim : Bool) (n : Nat)

def placed {α : Type} (x : Except Broken α) : Except Failure α := x.mapError (Failure.ofBroken n)

def fail {α : Type} (cause : Cause) : Except Failure α := .error ⟨cause, some n, none⟩

def stripped (line : Chars) : Chars := (line.reverse.dropWhile isSpaceOrNewline).reverse

/-- The symbol of a `#define`. A function-like one counts as defined to 1; any other has what is left
of the line for its value. -/
def readDefine (lx : Lexical) (line cs : Chars) : Except Failure (Symbol × Lexical × Chars) := do
  match ← placed n (nextSymbol verbatim lx cs) with
  | (_, none, _) => fail n (.missingName .define)
  | (lx, some name, '(' :: r) => return (⟨name, some "1", false⟩, lx, '(' :: r)
  | (lx, some name, rest) =>
    let (lx, rest) ← placed n (skip verbatim lx rest)
    let value := rest.take ((stripped line).length - (line.length - rest.length))
    return (⟨name, some (String.ofList value), false⟩, lx, rest)

def readUndef (lx : Lexical) (cs : Chars) : Except Failure (Symbol × Lexical × Chars) := do
  match ← placed n (nextSymbol verbatim lx cs) with
  | (_, none, _) => fail n (.missingName .undef)
  | (lx, some name, rest) =>
    let (lx, rest) ← placed n (skip verbatim lx rest)
    return (⟨name, none, false⟩, lx, rest)

def readDirective (lx : Lexical) (line : Chars) :
    Except Failure (Option Symbol × Lexical × Chars) := do
  let (lx, rest) ← placed n (findKeyword verbatim lx line)
  if rest.isEmpty then return (none, lx, [])
  else if (stripped line).getLast? = some '\\' then fail n .obfuscated
  else
    let (sym, lx, rest) ←
      match afterWord? "define".toList rest, afterWord? "undef".toList rest with
      | some r, _ => readDefine verbatim n lx line r
      | none, some r => readUndef verbatim n lx r
      | none, none => fail n .unrecognized
    return (some sym, lx, rest)

def readLine (t : Table) (lx : Lexical) (line : Chars) : Table × Except Failure Lexical :=
  match readDirective verbatim n lx line with
  | .error f => (t, .error f)
  | .ok (sym, lx, rest) =>
    (match sym with | none => t | some sym => t.put sym, placed n (skipLine verbatim lx rest))

end

def readLines (verbatim : Bool) (n : Nat) (t : Table) (lx : Lexical) :
    List Chars → Table × Option Failure
  | [] =>
    if lx.mode = .code || lx.mode = .lineComment then (t, none)
    else (t, some ⟨.endInComment, some n, none⟩)
  | line :: ls =>
    match readLine verbatim n t lx line with
    | (t, .error f) => (t, some f)
    | (t, .ok lx) => readLines verbatim (n + 1) t lx ls

end CondResolve.Script

namespace CondResolve

/-- The table after `script`, or up to its failure. -/
def Table.readScript (t : Table) (s : Settings) (script : Chars) : Table × Option Failure :=
  Script.readLines s.passthroughText 1 t {} (lines script)

end CondResolve
