import CondResolve.Expr.Operand

/-! # Kinds of lines -/

namespace CondResolve

inductive Directive where
  /-- An `#ifdef` or `#ifndef` that is decided by a symbol whose groups are not parsed. -/
  | guard (holds : Bool)
  | opening (t : Truth)
  | elif (t : Truth)
  | otherwise
  | closing
  deriving DecidableEq, Repr

namespace Directive

def label : Directive → String
  | .guard true => "TRUEI"
  | .guard false => "FALSEI"
  | .opening .unknown => "IF"
  | .opening .yes => "TRUE"
  | .opening .no => "FALSE"
  | .elif .unknown => "ELIF"
  | .elif .yes => "ELTRUE"
  | .elif .no => "ELFALSE"
  | .otherwise => "ELSE"
  | .closing => "ENDIF"

def all : List Directive :=
  [.guard true, .guard false, .opening .unknown, .opening .yes, .opening .no,
   .elif .unknown, .elif .yes, .elif .no, .otherwise, .closing]

def asElif? : Directive → Option Directive
  | .opening t => some (.elif t)
  | _ => none

def untrusted : Directive → Directive
  | .guard _ | .opening _ => .opening .unknown
  | .elif _ => .elif .unknown
  | d => d

end Directive

inductive LineKind where
  | directive (d : Directive) (dodgy : Bool)
  | plain
  | eof
  | unevaluable
  deriving DecidableEq, Repr

namespace LineKind

def label : LineKind → String
  | .directive d false => d.label
  | .directive d true => "DODGY " ++ d.label
  | .plain => "PLAIN"
  | .eof => "EOF"
  | .unevaluable => "ERROR"

def all : List LineKind :=
  Directive.all.map (.directive · false) ++ Directive.all.map (.directive · true) ++
    [.plain, .eof, .unevaluable]

def ofLabel? (label : String) : Option LineKind := all.find? (·.label = label)

def ordinal (k : LineKind) : Nat := all.idxOf k

def isDodgy : LineKind → Bool
  | .directive _ dodgy => dodgy
  | _ => false

def asDodgy : LineKind → LineKind
  | .directive d _ => .directive d true
  | k => k

def asElif? : LineKind → Option LineKind
  | .directive d false => d.asElif?.map (.directive · false)
  | _ => none

end LineKind

end CondResolve
