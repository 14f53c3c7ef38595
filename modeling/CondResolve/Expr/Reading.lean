import CondResolve.Expr.Code
import CondResolve.Settings

/-! # Reading conditions

Operators are read by precedence climbing. The reader looks at the text alone, never at the value of
a symbol, so where it stops and the code it gives do not depend on what is known. -/

namespace CondResolve

/-- Why reading or running a condition stopped, with the lexical state it leaves. -/
inductive Halt where
  | fault (f : Fault) (lex : Lexical)
  | broken (b : Broken)
  deriving DecidableEq, Repr

def Halt.lex : Halt → Lexical
  | .fault _ lx => lx
  | .broken b => b.lex

structure Reading where
  code : List Instr
  next : Except Halt (Lexical × Chars)

namespace Reading

def done (code : List Instr) (lx : Lexical) (rest : Chars) : Reading := ⟨code, .ok (lx, rest)⟩

def halt (h : Halt) : Reading := ⟨[], .error h⟩

def after (code : List Instr) (p : Reading) : Reading := { p with code := code ++ p.code }

/-- `p` as what a reader finds so many calls further down. -/
def nested (calls : Nat) (p : Reading) : Reading := { p with code := .enter calls :: p.code ++ [.leave calls] }

/-- Goes on where `p` got to, which is within the last `n` characters. -/
def andThen (p : Reading) (n : Nat)
    (k : Lexical → (rest : Chars) → rest.length ≤ n → Reading) : Reading :=
  match p.next with
  | .error _ => p
  | .ok (lx, rest) => if h : rest.length ≤ n then (k lx rest h).after p.code else p

end Reading

theorem BinaryOp.prefix_of_ofChars? {cs : Chars} {op : BinaryOp} (h : ofChars? cs = some op) : op.chars <+: cs := by
  have hf : all.find? (fun op => op.startsHere cs) = some op := h
  have hs := List.find?_some hf
  simp only [startsHere, Bool.and_eq_true, List.isPrefixOf_iff_prefix] at hs
  exact hs.1

theorem BinaryOp.length_of_ofChars? {cs : Chars} {op : BinaryOp} (h : ofChars? cs = some op) :
    (cs.drop op.chars.length).length < cs.length := by
  have hp := prefix_of_ofChars? h
  have h₀ : 0 < op.chars.length := by cases op <;> decide
  have h₁ := hp.length_le
  rw [List.length_drop]
  omega

section
variable (verbatim : Bool)

def closeParen (lx : Lexical) (cs : Chars) : Reading :=
  match skip verbatim lx cs with
  | .error b => .halt (.broken b)
  | .ok (lx, ')' :: r) => .done [] lx r
  | .ok (lx, _) => .halt (.fault .unclosedParen lx)

/-- The name after `defined`, and the parenthesis after it if there was one before it. -/
def definedName (paren : Bool) (lx : Lexical) (cs : Chars) : Reading :=
  let name := if (symbolOf cs).isEmpty then none else some (String.ofList (symbolOf cs))
  Reading.after (name.toList.map .mention) <|
    match skip verbatim lx (afterSymbol cs) with
    | .error b => .halt (.broken b)
    | .ok (lx, rest) =>
      if paren then
        match rest with
        | ')' :: r => .done [.defined name] lx r
        | _ => .halt (.fault .unclosedDefined lx)
      else .done [.defined name] lx rest

def definedTest (lx : Lexical) (cs : Chars) : Reading :=
  match skip verbatim lx cs with
  | .error b => .halt (.broken b)
  | .ok (lx, '(' :: r) =>
    match skip verbatim lx r with
    | .error b => .halt (.broken b)
    | .ok (lx, rest) => definedName verbatim true lx rest
  | .ok (lx, rest) => definedName verbatim false lx rest

def symbolUse (lx : Lexical) (cs : Chars) : Reading :=
  Reading.after [.load (String.ofList (symbolOf cs)) lx] <|
    match skipArgs verbatim lx (afterSymbol cs) with
    | .error b => .halt (.broken b)
    | .ok (lx, rest) => .done [] lx rest

def atom (lx : Lexical) (cs : Chars) : Reading :=
  match cs with
  | [] => .halt (.fault .badExpression lx)
  | c :: _ =>
    if isDigit c then .done [.numeral (cs.takeWhile isDigit)] lx (cs.dropWhile isDigit)
    else
      match afterWord? "defined".toList cs with
      | some rest => definedTest verbatim lx rest
      | none =>
        if isSymbolChar c then symbolUse verbatim lx cs else .halt (.fault .badExpression lx)

/-- A reader calls itself for the operand of a unary operator. -/
def unaryCalls : Nat := 1

/-- For a subexpression in parentheses it goes through all levels of operators again, two calls for each, and one
for the operand. -/
def parenCalls : Nat := 2 * (BinaryOp.maxLevel + 1) + 1

mutual

def operand (lx : Lexical) (cs : Chars) : Reading :=
  match h : skip verbatim lx cs with
  | .error b => .halt (.broken b)
  | .ok (lx, []) => .halt (.fault .badExpression lx)
  | .ok (lx, c :: r) =>
    have := length_of_skip h
    match UnaryOp.ofChar? c with
    | some op =>
      ((operand lx r).nested unaryCalls).andThen r.length fun lx rest _ => .done [.unary op] lx rest
    | none =>
      if c = '(' then
        ((climb 0 lx r).nested parenCalls).andThen r.length fun lx rest _ => closeParen verbatim lx rest
      else atom verbatim lx (c :: r)
termination_by (cs.length, 0)
decreasing_by all_goals exact Prod.Lex.left _ _ (by simp at this; omega)

/-- An operand and the operators after it that bind at least as tightly as `least`. -/
def climb (least : Nat) (lx : Lexical) (cs : Chars) : Reading :=
  (operand lx cs).andThen cs.length fun lx rest _ => climbOn least lx rest
termination_by (cs.length, 2)
decreasing_by
  · exact Prod.Lex.right _ (by decide)
  · rw [Prod.lex_def]; omega

/-- The operators after an operand. Behind an operator of the tightest level the reader does not look
past its right operand. -/
def climbOn (least : Nat) (lx : Lexical) (cs : Chars) : Reading :=
  if BinaryOp.maxLevel < least then .done [] lx cs
  else
    match h : skip verbatim lx cs with
    | .error b => .halt (.broken b)
    | .ok (lx, rest) =>
      match h' : BinaryOp.ofChars? rest with
      | none => .done [] lx rest
      | some op =>
        have := length_of_skip h
        have := BinaryOp.length_of_ofChars? h'
        if op.level < least then .done [] lx rest
        else
          (climb (op.level + 1) lx (rest.drop op.chars.length)).andThen
            (rest.drop op.chars.length).length
            fun lx rest' _ => (climbOn least lx rest').after [.binary op lx]
termination_by (cs.length, 1)
decreasing_by all_goals exact Prod.Lex.left _ _ (by omega)

end

end

/-! ## Evaluation -/

structure Evaluated where
  result : Except Halt (Operand × Lexical × Chars)
  constant : Bool
  mentioned : List String

/-- Reads and runs the condition that `cs` starts with. A fault in the code comes before whatever
stopped the reader later on. -/
def evaluate (s : Settings) (verbatim : Bool) (k : Knowledge) (lx : Lexical) (cs : Chars) :
    Evaluated :=
  let p := climb verbatim 0 lx cs
  let (e, fault) := Evaluation.run k s.strictLogic {} p.code
  let result := match fault with
    | some (f, lx) => .error (.fault f lx)
    | none =>
      match p.next with
      | .error h => .error h
      | .ok (lx, rest) =>
        let a := e.stack.headD (.unknown 0)
        .ok (if s.forceConstantUnresolved && e.constant then .unknown a.value else a, lx, rest)
  ⟨result, e.constant, e.mentioned⟩

end CondResolve
