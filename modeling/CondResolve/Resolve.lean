import CondResolve.Line.Classify
import CondResolve.Machine
import CondResolve.Symbol.Indirect
import CondResolve.Symbol.Script

/-! # Resolving a source text

A run takes the physical lines of a source one after another. Its trace holds a step for every line
and for the end of the text; the text that it writes is what the steps write. -/

namespace CondResolve

structure Run where
  number : Nat := 0
  lex : Lexical := {}
  machine : Machine := {}
  newline : Option Newline := none
  deriving DecidableEq, Repr

structure Pending where
  run : Run
  kind : LineKind
  current : Current
  out : Chars

structure Step where
  kind : LineKind
  line : Chars
  run : Run
  out : Chars

namespace Run

def altered (r : Run) : Bool := r.machine.writer.altered

def seen (s : Settings) (r : Run) (nl : Newline) (c : Classified) : Run :=
  { number := r.number + 1
    lex := c.lex
    newline := some nl
    machine :=
      { r.machine with
        writer := { r.machine.writer with altered := r.machine.writer.altered || c.altered }
        listed := r.machine.listed || (s.listing && !c.names.isEmpty) } }

/-- The newline for all that is written, which the first line sets. -/
def newlineAt (r : Run) (line : Chars) : Newline := r.newline.getD (.ofLine line)

def view (s : Settings) (r : Run) (line : Chars) : View :=
  { verbatim := s.passthroughText || r.machine.stack.ignoring
    depth := r.machine.stack.length
    number := r.number + 1
    newline := r.newlineAt line
    listed := r.machine.listed }

def read (s : Settings) (t : Table) (r : Run) (line : Chars) : Except Failure Pending := do
  let c ← classify s t (r.view s line) r.lex line
  return ⟨r.seen s (r.newlineAt line) c, c.kind,
    ⟨c.line, r.number + 1, c.keyword, c.lex.mode, r.newlineAt line⟩, c.out⟩

def readEnd (r : Run) : Pending :=
  ⟨{ r with number := r.number + 1 }, .eof,
    ⟨[], r.number + 1, 0, r.lex.mode, r.newline.getD .lf⟩, []⟩

end Run

namespace Pending

def step (s : Settings) (p : Pending) : Except Failure Step := do
  let r ← p.run.machine.step s p.current p.kind
  return ⟨p.kind, r.line, { p.run with machine := r.machine }, p.out ++ r.out⟩

def unfinished (p : Pending) : Step := ⟨p.kind, p.current.line, p.run, p.out⟩

end Pending

/-- The steps of a run and the failure that ended it, if one did. A line that cannot be classified has
no step. -/
structure Trace where
  steps : List Step
  failure : Option Failure

namespace Run

def finish (s : Settings) (r : Run) : Trace :=
  match r.readEnd.step s with
  | .error f => ⟨[r.readEnd.unfinished], some f⟩
  | .ok last => ⟨[last], none⟩

def trace (s : Settings) (t : Table) (r : Run) : List Chars → Trace
  | [] => r.finish s
  | line :: ls =>
    match r.read s t line with
    | .error f => ⟨[], some f⟩
    | .ok p =>
      match p.step s with
      | .error f => ⟨[p.unfinished], some f⟩
      | .ok st =>
        let tr := st.run.trace s t ls
        ⟨st :: tr.steps, tr.failure⟩

end Run

/-- The table that a run consults: the symbols, changed by the script, every value followed to its
end. -/
def buildTable (s : Settings) (symbols : List Symbol) (script : Chars) : Except Failure Table :=
  match Table.readScript symbols s script with
  | (_, some f) => .error f
  | (t, none) => .ok t.settle.1

def traceSource (s : Settings) (symbols : List Symbol) (script source : Chars) : Trace :=
  if s.isValid then
    match buildTable s symbols script with
    | .error f => ⟨[], some f⟩
    | .ok t => Run.trace s t {} (lines source)
  else ⟨[], some ⟨.exclusiveBlanks, none, none⟩⟩

structure Resolved where
  text : Chars
  altered : Bool

def Trace.resolved (tr : Trace) : Except Failure Resolved :=
  match tr.failure with
  | some f => .error f
  | none => .ok ⟨tr.steps.flatMap (·.out), tr.steps.getLast?.any (·.run.altered)⟩

/-- The source without the conditional groups that `symbols` and `script` decide. -/
def resolve (s : Settings) (symbols : List Symbol) (script source : Chars) :
    Except Failure Resolved :=
  (traceSource s symbols script source).resolved

end CondResolve
