import CondResolve.Expr.Reading
import CondResolve.Line
import CondResolve.Listing

/-! # Classifying a line -/

namespace CondResolve

/-- What the lines before a line leave for reading it. -/
structure View where
  /-- Comments and literals are not recognised. -/
  verbatim : Bool
  depth : Nat
  number : Nat
  newline : Newline
  /-- Some symbol was listed before. -/
  listed : Bool

structure Judged where
  directive : Directive
  lex : Lexical
  rest : Chars
  names : List String := []
  note : Chars := []

structure Classified where
  kind : LineKind
  line : Chars
  lex : Lexical
  /-- The number of characters before the keyword. -/
  keyword : Nat := 0
  altered : Bool := false
  names : List String := []
  out : Chars := []

section
variable (s : Settings) (t : Table) (v : View)

/-- In a listing nothing is known, so that every condition stays open. -/
def View.knowledge : Knowledge := if s.listing then .none else t.knowledge

def testFor (negated : Bool) (name : String) : Directive :=
  match if s.listing then none else t.lookup name with
  | none => .opening .unknown
  | some sym =>
    let holds := sym.isDefined != negated
    if sym.ignored then .guard holds else .opening (.ofBool holds)

def judgeTest (negated : Bool) (lx : Lexical) (cs : Chars) : Except Broken Judged := do
  let (lx, rest) ← skip v.verbatim lx cs
  let name := symbolOf rest
  if name.isEmpty then return ⟨.opening .unknown, lx, rest, [], []⟩
  else
    let name := String.ofList name
    return ⟨testFor s t negated name, lx, afterSymbol rest, [name], []⟩

def judgeCondition (form : Truth → Directive) (lx : Lexical) (cs : Chars) :
    Except Broken Judged :=
  let e := evaluate s v.verbatim (View.knowledge s t) lx cs
  match e.result with
  | .ok (a, lx, rest) => .ok ⟨form a.truth, lx, rest, e.mentioned, []⟩
  | .error (.fault f lx) =>
    .ok ⟨form .unknown, lx, cs, e.mentioned, note s ("eval error: " ++ f.text)⟩
  | .error (.broken b) => .error b

/-- The directive at a keyword; `none` for keywords that are not about conditions. -/
def judge (lx : Lexical) (cs : Chars) : Except Broken (Option Judged) :=
  let on (word : String) := afterWord? word.toList cs
  if let some r := on "ifdef" then some <$> judgeTest s t v false lx r
  else if let some r := on "ifndef" then some <$> judgeTest s t v true lx r
  else if let some r := on "if" then some <$> judgeCondition s t v .opening lx r
  else if let some r := on "elif" then some <$> judgeCondition s t v .elif lx r
  else if let some r := on "else" then .ok (some ⟨.otherwise, lx, r, [], []⟩)
  else if let some r := on "endif" then .ok (some ⟨.closing, lx, r, [], []⟩)
  else .ok none

/-- Reads what follows a directive. Anything but space and comments makes its condition
untrustworthy. -/
def finish (j : Judged) : Except Broken (Lexical × Directive) := do
  let (lx, rest) ← skip v.verbatim j.lex j.rest
  if rest.isEmpty then return (lx, j.directive)
  else return (← skipLine v.verbatim lx rest, j.directive.untrusted)

def lacksNewline (line : Chars) : Bool := line.getLast? ≠ some '\n'

/-- The line of a directive that has been read: a last line gets the newline it lacks, and a directive
that shares its line with a comment from before or runs over its end is dodgy. -/
def settleLine (wasComment : Bool) (keyword : Nat) (line : Chars) (j : Judged) (lx : Lexical)
    (d : Directive) : Classified :=
  let lacking := lx.line = .hash && lacksNewline line
  let lx := if lacking then { lx with line := .start } else lx
  let dodgy := wasComment || lx.line ≠ .start
  { kind := .directive d dodgy
    line := if lacking then line ++ v.newline.chars else line
    lex := if dodgy then { lx with line := .dirty } else lx
    keyword
    altered := lacking
    names := j.names
    out := listNames s v.newline v.depth true v.listed j.names ++ j.note ++
      if lacking then note s "parser insert newline at EOF" else [] }

def classify (lx : Lexical) (line : Chars) : Except Failure Classified := do
  let placed {α : Type} (x : Except Broken α) : Except Failure α :=
    x.mapError (Failure.ofBroken v.number)
  let (lx', rest) ← placed (findKeyword v.verbatim lx line)
  if rest.isEmpty then return { kind := .plain, line, lex := lx' }
  else
    match ← placed (judge s t v lx' rest) with
    | some j =>
      let (lx'', d) ← placed (finish v j)
      return settleLine s v (lx.mode ≠ .code) (line.length - rest.length) line j lx'' d
    | none =>
      let tail := afterSymbol rest
      if (afterContinuation? tail).isSome then throw ⟨.obfuscated, some v.number, none⟩
      else return { kind := .plain, line, lex := ← placed (skipLine v.verbatim lx' tail) }

end

end CondResolve
