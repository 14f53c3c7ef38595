import CondResolve.Lexical
import CondResolve.Text.Quoted

/-! # Failures: their causes, their place and their wording -/

namespace CondResolve

inductive Fault where
  | badExpression
  | unclosedParen
  | unclosedDefined
  | divisor
  | modulus
  | shiftCount (n : Int)
  | nonNumeric (name value : String)
  deriving DecidableEq, Repr

def Fault.text : Fault → String
  | .badExpression => "bad expression"
  | .unclosedParen => "missing ')' in expression"
  | .unclosedDefined => "defined missing ')'"
  | .divisor => "division by zero or unknown value"
  | .modulus => "modulo by zero or unknown value"
  | .shiftCount n => "shift count " ++ toString n ++ " out of range"
  | .nonNumeric name value => "symbol " ++ name ++ " has non-numeric value " ++ quoted value

inductive Continuation where
  | elif
  | otherwise
  | closing
  deriving DecidableEq, Repr

def Continuation.keyword : Continuation → String
  | .elif => "elif"
  | .otherwise => "else"
  | .closing => "endif"

inductive DefineKeyword where
  | define
  | undef
  deriving DecidableEq, Repr

def DefineKeyword.keyword : DefineKeyword → String
  | .define => "define"
  | .undef => "undef"

inductive Cause where
  | exclusiveBlanks
  | misplaced (d : Continuation)
  | prematureEnd
  | endInComment
  | unterminated (q : Quote)
  | obfuscated
  | missingName (k : DefineKeyword)
  | unrecognized
  | expression (f : Fault)
  | unevaluable
  | leavingOutermost
  deriving DecidableEq, Repr

inductive Category where
  | configuration
  | structural
  | lexical
  | directive
  | expression
  | internal
  deriving DecidableEq, Repr

namespace Cause

def category : Cause → Category
  | .exclusiveBlanks => .configuration
  | .misplaced _ | .prematureEnd | .endInComment => .structural
  | .unterminated _ => .lexical
  | .obfuscated | .missingName _ | .unrecognized => .directive
  | .expression _ => .expression
  | .unevaluable | .leavingOutermost => .internal

def text : Cause → String
  | .exclusiveBlanks =>
    "compressing blank lines and blank placeholder lines are mutually exclusive"
  | .misplaced d => "Inappropriate #" ++ d.keyword
  | .prematureEnd => "Premature EOF"
  | .endInComment => "EOF in comment"
  | .unterminated .single => "Unterminated char literal"
  | .unterminated .double => "Unterminated string literal"
  | .obfuscated => "Obfuscated preprocessor control line"
  | .missingName k => "Missing macro name in #" ++ k.keyword
  | .unrecognized => "Unrecognized preprocessor directive"
  | .expression f => f.text
  | .unevaluable => "unevaluable #if reached the state machine"
  | .leavingOutermost => "attempt to leave the outermost state"

end Cause

/-- The innermost open group: the line that opened it and how deep it lies. -/
structure Enclosing where
  opened : Nat
  depth : Nat
  deriving DecidableEq, Repr

/-- A cause with the group and the physical line it was met in, if there is one. -/
structure Failure where
  cause : Cause
  line : Option Nat
  group : Option Enclosing := none
  deriving DecidableEq, Repr

namespace Failure

def category (f : Failure) : Category := f.cause.category

def groupText : Option Enclosing → String
  | none => ""
  | some g => " (#if line " ++ toString g.opened ++ " depth " ++ toString g.depth ++ ")"

def message (f : Failure) : String :=
  f.cause.text ++ groupText f.group ++
    match f.line with
    | none => ""
    | some n => " at line " ++ toString n

def ofBroken (n : Nat) (b : Broken) : Failure := ⟨.unterminated b.quote, some n, none⟩

def ofFault (n : Nat) (f : Fault) : Failure :=
  ⟨.expression f, match f with | .shiftCount _ => none | _ => some n, none⟩

end Failure

end CondResolve
