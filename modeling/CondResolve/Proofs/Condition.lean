import CondResolve.Proofs.Demand
import CondResolve.Proofs.Word

/-!
# Conditions as trees

The text of a condition has the parentheses that precedence and association to the left call for, and no
others. Its meaning is a three-valued word, or a fault in one of its parts. The code of a condition comes to
its meaning on every stack.
-/

namespace CondResolve

structure Ident where
  chars : Chars
  symbol : isSymbol chars = true
  leading : chars.head?.any isDigit = false
  ne_defined : chars ≠ "defined".toList

def Ident.name (x : Ident) : String := String.ofList x.chars

inductive Condition where
  | number (n : Nat)
  | symbol (x : Ident)
  | defined (x : Ident) (paren : Bool)
  | unary (op : UnaryOp) (e : Condition)
  | binary (op : BinaryOp) (l r : Condition)

namespace Condition

def textAt : Condition → Nat → Chars
  | .number n, _ => Nat.toDigits 10 n
  | .symbol x, _ => x.chars
  | .defined x true, _ => "defined(".toList ++ x.chars ++ [')']
  | .defined x false, _ => "defined ".toList ++ x.chars
  | .unary op e, _ => op.char :: e.textAt (BinaryOp.maxLevel + 1)
  | .binary op l r, least =>
    let text := l.textAt op.level ++ ' ' :: op.chars ++ ' ' :: r.textAt (op.level + 1)
    if op.level < least then '(' :: text ++ [')'] else text

def text (e : Condition) : Chars := e.textAt 0

/-- What the text asks for that a condition has where an operator looser than `least` needs parentheses, `deep`
calls down: for each number that its digits are turned into one, for each symbol the same for its value, and for
each pair of parentheses and each unary operator that the calls nest. -/
def demandsAt (k : Knowledge) : Condition → (least deep : Nat) → List Demand
  | .number n, _, _ => [.numeral (Nat.toDigits 10 n).length]
  | .symbol x, _, _ => (valueDemand? k x.name).toList
  | .defined _ _, _, _ => []
  | .unary _ e, _, deep => .nesting (deep + unaryCalls) :: e.demandsAt k (BinaryOp.maxLevel + 1) (deep + unaryCalls)
  | .binary op l r, least, deep =>
    let parts (deep : Nat) := l.demandsAt k op.level deep ++ r.demandsAt k (op.level + 1) deep
    if op.level < least then .nesting (deep + parenCalls) :: parts (deep + parenCalls) else parts deep

/-- The ways to write a condition where an operator looser than `least` needs parentheses, `deep` calls down, that
ask for nothing but what `A` grants. Binary operators stand between spaces; numbers have any digits that come to
them, and there may be more parentheses than are needed. -/
inductive Spelled (A : Demand → Prop) : Condition → (least deep : Nat) → Chars → Prop
  | number {ds : Chars} (least deep : Nat) : ds ≠ [] → (∀ d ∈ ds, isDigit d = true) →
    A (.numeral ds.length) → Spelled A (.number (digitsValue ds)) least deep ds
  | symbol (x : Ident) (least deep : Nat) : Spelled A (.symbol x) least deep x.chars
  | defined (x : Ident) (least deep : Nat) : Spelled A (.defined x false) least deep ("defined ".toList ++ x.chars)
  | definedParen (x : Ident) (least deep : Nat) :
    Spelled A (.defined x true) least deep ("defined(".toList ++ x.chars ++ [')'])
  | unary {op : UnaryOp} {e : Condition} {cs : Chars} (least deep : Nat) :
    A (.nesting (deep + unaryCalls)) → Spelled A e (BinaryOp.maxLevel + 1) (deep + unaryCalls) cs →
    Spelled A (.unary op e) least deep (op.char :: cs)
  | binary {op : BinaryOp} {l r : Condition} {least deep : Nat} {cs ds : Chars} : least ≤ op.level →
    Spelled A l op.level deep cs → Spelled A r (op.level + 1) deep ds →
    Spelled A (.binary op l r) least deep (cs ++ ' ' :: op.chars ++ ' ' :: ds)
  | parens {e : Condition} {cs : Chars} (least deep : Nat) :
    A (.nesting (deep + parenCalls)) → Spelled A e 0 (deep + parenCalls) cs →
    Spelled A e least deep ('(' :: cs ++ [')'])

theorem textAt_paren {op : BinaryOp} {l r : Condition} {least : Nat} (h : op.level < least) :
    (binary op l r).textAt least =
      '(' :: (l.textAt op.level ++ ' ' :: op.chars ++ ' ' :: r.textAt (op.level + 1)) ++ [')'] := if_pos h

theorem textAt_bare {op : BinaryOp} {l r : Condition} {least : Nat} (h : least ≤ op.level) :
    (binary op l r).textAt least = l.textAt op.level ++ ' ' :: op.chars ++ ' ' :: r.textAt (op.level + 1) :=
  if_neg (Nat.not_lt.2 h)

def parts : Condition → List Condition
  | .unary op e => .unary op e :: e.parts
  | .binary op l r => .binary op l r :: (l.parts ++ r.parts)
  | e => [e]

def isConstant : Condition → Bool
  | .number _ => true
  | .symbol _ | .defined _ _ => false
  | .unary _ e => e.isConstant
  | .binary _ l r => l.isConstant && r.isConstant

def names : Condition → List String
  | .number _ => []
  | .symbol x | .defined x _ => [x.name]
  | .unary _ e => e.names
  | .binary _ l r => l.names ++ r.names

/-- What a reader makes of a condition that it comes to in state `lx`, `deep` calls down. An operation is run in the
state behind its right operand: `ly` if the reader went on to what follows, which may be the end of the line. -/
inductive Coded (A : Demand → Prop) (lx ly : Lexical) : Condition → Nat → List Instr → Prop
  | number {ds : Chars} {deep : Nat} : A (.numeral ds.length) →
    Coded A lx ly (.number (digitsValue ds)) deep [.numeral ds]
  | symbol (x : Ident) {deep : Nat} : Coded A lx ly (.symbol x) deep [.load x.name lx]
  | defined (x : Ident) (paren : Bool) {deep : Nat} :
    Coded A lx ly (.defined x paren) deep [.mention x.name, .defined (some x.name)]
  | unary {op : UnaryOp} {e : Condition} {deep : Nat} {p : List Instr} :
    A (.nesting (deep + unaryCalls)) → Coded A lx ly e (deep + unaryCalls) p →
    Coded A lx ly (.unary op e) deep (.enter unaryCalls :: p ++ [.leave unaryCalls] ++ [.unary op])
  | binary {op : BinaryOp} {l r : Condition} {deep : Nat} {p q : List Instr} {lz : Lexical} :
    Coded A lx ly l deep p → Coded A lx ly r deep q → lz = lx ∨ lz = ly →
    Coded A lx ly (.binary op l r) deep (p ++ q ++ [.binary op lz])
  | parens {e : Condition} {deep : Nat} {p : List Instr} :
    A (.nesting (deep + parenCalls)) → Coded A lx ly e (deep + parenCalls) p →
    Coded A lx ly e deep (.enter parenCalls :: p ++ [.leave parenCalls])

theorem Coded.mono {A : Demand → Prop} {lx ly : Lexical} {e : Condition} {deep : Nat} {p : List Instr}
    (h : Coded A lx lx e deep p) : Coded A lx ly e deep p := by
  induction h with
  | number hd => exact .number hd
  | symbol x => exact .symbol x
  | defined x paren => exact .defined x paren
  | unary hc _ ih => exact .unary hc ih
  | binary _ _ hz ihl ihr => exact .binary ihl ihr (.inl (hz.elim id id))
  | parens hc _ ih => exact .parens hc ih

end Condition

/-! ## Meaning -/

namespace Meaning

def ofSymbol (k : Knowledge) (name : String) : Except Fault Meaning :=
  match k name with
  | none => .ok (.unknown 0)
  | some none => .ok (.known 0)
  | some (some v) =>
    match parseInt? v.toList with
    | some n => .ok (.known (.ofInt 64 n))
    | none => .error (.nonNumeric name v)

def ofDefined (k : Knowledge) (name : String) : Meaning :=
  match k name with
  | none => .unknown 0
  | some v => .known (wordOfBool v.isSome)

end Meaning

def Numeral (cs : Chars) (n : Int) : Prop :=
  ∃ ds, ds ≠ [] ∧ (∀ d ∈ ds, isDigit d = true) ∧
    ((cs = ds ∨ cs = '+' :: ds) ∧ n = Nat.ofDigitChars 10 ds 0 ∨ cs = '-' :: ds ∧ n = -Nat.ofDigitChars 10 ds 0)

theorem unsigned_eq_some_iff {ds : Chars} {n : Int} :
    (if !ds.isEmpty && ds.all isDigit then some (digitsValue ds : Int) else none) = some n ↔
      ds ≠ [] ∧ (∀ d ∈ ds, isDigit d = true) ∧ n = Nat.ofDigitChars 10 ds 0 := by
  have hv : digitsValue ds = Nat.ofDigitChars 10 ds 0 := rfl
  rw [hv]
  by_cases h : (!ds.isEmpty && ds.all isDigit) = true
  · rw [if_pos h]
    have h' : ds ≠ [] ∧ ∀ d ∈ ds, isDigit d = true := by simpa using h
    constructor
    · intro hn
      cases hn
      exact ⟨h'.1, h'.2, rfl⟩
    · rintro ⟨-, -, rfl⟩
      rfl
  · rw [if_neg h]
    have h' : ¬ (ds ≠ [] ∧ ∀ d ∈ ds, isDigit d = true) := by simpa using h
    constructor
    · intro hn
      cases hn
    · rintro ⟨h₁, h₂, -⟩
      exact absurd ⟨h₁, h₂⟩ h'

theorem parseInt?_eq_some_iff {cs : Chars} {n : Int} : parseInt? cs = some n ↔ Numeral cs n := by
  unfold parseInt? Numeral
  split
  · rename_i ds
    simp only [Option.map_eq_some_iff, unsigned_eq_some_iff]
    constructor
    · rintro ⟨m, ⟨h₁, h₂, rfl⟩, rfl⟩
      exact ⟨ds, h₁, h₂, .inr ⟨rfl, rfl⟩⟩
    · rintro ⟨ds', h₁, h₂, ⟨rfl | h, -⟩ | ⟨h, rfl⟩⟩
      · exact absurd (h₂ '-' List.mem_cons_self) (by decide)
      · cases h
      · cases h
        exact ⟨_, ⟨h₁, h₂, rfl⟩, rfl⟩
  · rename_i ds
    rw [unsigned_eq_some_iff]
    constructor
    · rintro ⟨h₁, h₂, rfl⟩
      exact ⟨ds, h₁, h₂, .inl ⟨.inr rfl, rfl⟩⟩
    · rintro ⟨ds', h₁, h₂, ⟨rfl | h, hn⟩ | ⟨h, -⟩⟩
      · exact absurd (h₂ '+' List.mem_cons_self) (by decide)
      · cases h
        exact ⟨h₁, h₂, hn⟩
      · cases h
  · rename_i hm hp
    rw [unsigned_eq_some_iff]
    constructor
    · rintro ⟨h₁, h₂, rfl⟩
      exact ⟨cs, h₁, h₂, .inl ⟨.inl rfl, rfl⟩⟩
    · rintro ⟨ds', h₁, h₂, ⟨rfl | rfl, hn⟩ | ⟨rfl, -⟩⟩
      · exact ⟨h₁, h₂, hn⟩
      · exact absurd rfl (hp ds')
      · exact absurd rfl (hm ds')
section
variable (strict : Bool) (k : Knowledge)

namespace Condition

/-- A fault in a part is one of the whole, whether or not the other parts would settle the result. -/
def meaning : Condition → Except Fault Meaning
  | .number n => .ok (.known (.ofNat 64 n))
  | .symbol x => Meaning.ofSymbol k x.name
  | .defined x _ => .ok (Meaning.ofDefined k x.name)
  | .unary op e => e.meaning.map (·.unary op)
  | .binary op l r => do
    let a ← l.meaning
    let b ← r.meaning
    a.binary strict op b

/-- The condition itself is at fault, rather than a part of it. -/
inductive Fails : Condition → Prop
  | symbol {x : Ident} {v : String} : k x.name = some (some v) → (∀ n, ¬ Numeral v.toList n) → Fails (.symbol x)
  | divisor {op : BinaryOp} {l r : Condition} {b : Meaning} : op = .div ∨ op = .mod → r.meaning strict k = .ok b →
      b.truth ≠ .yes → Fails (.binary op l r)
  | count {op : BinaryOp} {l r : Condition} {v w : Word} : op = .shiftLeft ∨ op = .shiftRight →
      l.meaning strict k = .ok (.known v) → r.meaning strict k = .ok (.known w) →
      ¬ (0 ≤ w.toInt ∧ w.toInt < 64) → Fails (.binary op l r)

end Condition

end

/-! ## Faults in parts -/

namespace Condition

section
variable {strict : Bool} {k : Knowledge} {op : BinaryOp} {l r : Condition} {a b m : Meaning} {f : Fault}

theorem meaning_unary_eq_ok {op : UnaryOp} {e : Condition} :
    (unary op e).meaning strict k = .ok m ↔ ∃ a, e.meaning strict k = .ok a ∧ a.unary op = m := by
  simp only [meaning]
  cases e.meaning strict k <;> simp [Except.map]

theorem meaning_unary_eq_error {op : UnaryOp} {e : Condition} :
    (unary op e).meaning strict k = .error f ↔ e.meaning strict k = .error f := by
  simp only [meaning]
  cases e.meaning strict k <;> simp [Except.map]

theorem meaning_binary_eq_ok : (binary op l r).meaning strict k = .ok m ↔
    ∃ a b, l.meaning strict k = .ok a ∧ r.meaning strict k = .ok b ∧ a.binary strict op b = .ok m := by
  simp only [meaning]
  cases l.meaning strict k <;> cases r.meaning strict k <;> simp [bind, Except.bind]

theorem meaning_binary_eq_error : (binary op l r).meaning strict k = .error f ↔
    l.meaning strict k = .error f ∨ ∃ a, l.meaning strict k = .ok a ∧
      (r.meaning strict k = .error f ∨ ∃ b, r.meaning strict k = .ok b ∧ a.binary strict op b = .error f) := by
  simp only [meaning]
  cases l.meaning strict k <;> cases r.meaning strict k <;> simp [bind, Except.bind]

theorem Fails.of_ofSymbol {x : Ident} (h : Meaning.ofSymbol k x.name = .error f) :
    Fails strict k (.symbol x) := by
  unfold Meaning.ofSymbol at h
  split at h
  · cases h
  · cases h
  · rename_i v hv
    split at h
    · cases h
    · rename_i hn
      refine .symbol hv ?_
      intro n hv'
      rw [parseInt?_eq_some_iff.2 hv'] at hn
      cases hn

theorem Fails.of_binary (hl : l.meaning strict k = .ok a) (hr : r.meaning strict k = .ok b)
    (h : a.binary strict op b = .error f) : Fails strict k (.binary op l r) := by
  have hf : a.fault? op b = some f := by
    unfold Meaning.binary at h
    split at h
    · cases h
      assumption
    · cases h
  have shift : op = .shiftLeft ∨ op = .shiftRight → a.fault? .shiftLeft b = some f →
      Fails strict k (.binary op l r) := by
    intro hop hs
    cases a with
    | unknown v => cases hs
    | known v =>
      cases b with
      | unknown w => cases hs
      | known w =>
        refine .count hop hl hr ?_
        rw [toInt_count]
        intro hw
        simp [Meaning.fault?, hw] at hs
  cases op with
  | div =>
    refine .divisor (.inl rfl) hr ?_
    intro hb
    simp [Meaning.fault?, hb] at hf
  | mod =>
    refine .divisor (.inr rfl) hr ?_
    intro hb
    simp [Meaning.fault?, hb] at hf
  | shiftLeft => exact shift (.inl rfl) hf
  | shiftRight => exact shift (.inr rfl) hf
  | _ => cases hf

theorem Fails.meaning {e : Condition} (h : Fails strict k e) : ∃ f, e.meaning strict k = .error f := by
  cases h with
  | @symbol x v hv hn =>
    have hp : parseInt? v.toList = none := by
      cases hp : parseInt? v.toList with
      | none => rfl
      | some n => exact absurd (parseInt?_eq_some_iff.1 hp) (hn n)
    exact ⟨.nonNumeric x.name v, by simp [Condition.meaning, Meaning.ofSymbol, hv, hp]⟩
  | @divisor op l r b hop hr hb =>
    cases hl : l.meaning strict k with
    | error f => exact ⟨f, meaning_binary_eq_error.2 (.inl hl)⟩
    | ok a =>
      have hfault : ∃ f, a.binary strict op b = .error f := by
        rcases hop with rfl | rfl <;> simp [Meaning.binary, Meaning.fault?, hb]
      obtain ⟨f, hf⟩ := hfault
      exact ⟨f, meaning_binary_eq_error.2 (.inr ⟨a, hl, .inr ⟨b, hr, hf⟩⟩)⟩
  | @count op l r v w hop hl hr hw =>
    rw [toInt_count] at hw
    refine ⟨.shiftCount w.toInt, meaning_binary_eq_error.2 (.inr ⟨_, hl, .inr ⟨_, hr, ?_⟩⟩)⟩
    rcases hop with rfl | rfl <;> simp [Meaning.binary, Meaning.fault?, hw]

theorem mem_parts (e : Condition) : e ∈ e.parts := by
  cases e <;> simp [parts]

theorem mem_parts_binary {x : Condition} :
    x ∈ (binary op l r).parts ↔ x = binary op l r ∨ x ∈ l.parts ∨ x ∈ r.parts := by
  simp [parts]

/-- A condition has no meaning exactly if one of its parts is at fault. -/
theorem meaning_eq_error_iff (e : Condition) :
    (∃ f, e.meaning strict k = .error f) ↔ ∃ x ∈ e.parts, Fails strict k x := by
  induction e with
  | number n =>
    constructor
    · rintro ⟨f, h⟩
      cases h
    · rintro ⟨x, hx, h⟩
      obtain rfl : x = number n := by simpa [parts] using hx
      cases h
  | symbol x =>
    constructor
    · rintro ⟨f, h⟩
      exact ⟨_, mem_parts _, .of_ofSymbol h⟩
    · rintro ⟨y, hy, h⟩
      obtain rfl : y = symbol x := by simpa [parts] using hy
      exact h.meaning
  | defined x paren =>
    constructor
    · rintro ⟨f, h⟩
      cases h
    · rintro ⟨y, hy, h⟩
      obtain rfl : y = defined x paren := by simpa [parts] using hy
      cases h
  | unary op e ih =>
    simp only [meaning_unary_eq_error, ih]
    constructor
    · rintro ⟨x, hx, h⟩
      exact ⟨x, List.mem_cons_of_mem _ hx, h⟩
    · rintro ⟨x, hx, h⟩
      rcases List.mem_cons.1 hx with rfl | hx
      · cases h
      · exact ⟨x, hx, h⟩
  | binary op l r ihl ihr =>
    constructor
    · rintro ⟨f, h⟩
      -- The fault is in an operand or, if both have a meaning, in the operation.
      rcases meaning_binary_eq_error.1 h with hl | ⟨a, hl, hr | ⟨b, hr, hop⟩⟩
      · obtain ⟨x, hx, hf⟩ := ihl.1 ⟨f, hl⟩
        exact ⟨x, by simp [parts, hx], hf⟩
      · obtain ⟨x, hx, hf⟩ := ihr.1 ⟨f, hr⟩
        exact ⟨x, by simp [parts, hx], hf⟩
      · exact ⟨_, mem_parts _, .of_binary hl hr hop⟩
    · rintro ⟨x, hx, h⟩
      rcases mem_parts_binary.1 hx with rfl | hx' | hx'
      · exact h.meaning
      · obtain ⟨f, hf⟩ := ihl.2 ⟨x, hx', h⟩
        exact ⟨f, meaning_binary_eq_error.2 (.inl hf)⟩
      · obtain ⟨f, hf⟩ := ihr.2 ⟨x, hx', h⟩
        cases hl : l.meaning strict k with
        | error g => exact ⟨g, meaning_binary_eq_error.2 (.inl hl)⟩
        | ok a => exact ⟨f, meaning_binary_eq_error.2 (.inr ⟨a, hl, .inl hf⟩)⟩

end

end Condition

/-! ## Running code -/

section
variable {strict : Bool} {k : Knowledge} {A : Demand → Prop} {lx ly : Lexical} {e : Condition} {deep : Nat}
  {code : List Instr}

theorem valueOf_ofSymbol (name : String) :
    Evaluation.valueOf k name = (Meaning.ofSymbol k name).map (·.operand) := by
  unfold Evaluation.valueOf Meaning.ofSymbol
  cases k name with
  | none => rfl
  | some v =>
    cases v with
    | none => rfl
    | some v =>
      cases hp : parseInt? v.toList with
      | none => simp only [hp, Except.map]
      | some n => simp only [hp, Except.map, operand_known]

theorem definedness_ofDefined (name : String) :
    Evaluation.definedness k (some name) = (Meaning.ofDefined k name).operand := by
  unfold Evaluation.definedness Meaning.ofDefined
  cases hk : k name with
  | none => simp only [hk]; rfl
  | some v => simp only [hk, operand_ofBool]

/-- The code of a condition with a meaning pushes it, on any stack. -/
theorem run_coded (hc : e.Coded A lx ly deep code) {m : Meaning}
    (h : e.meaning strict k = .ok m) (ev : Evaluation) :
    ev.run k strict code =
      (⟨m.operand :: ev.stack, ev.constant && e.isConstant, ev.mentioned ++ e.names⟩, none) := by
  induction hc generalizing m ev with
  | number =>
    cases h
    simp [Evaluation.run, Evaluation.step, Evaluation.push, Condition.isConstant, Condition.names, operand_known]
  | symbol x =>
    have hv : Evaluation.valueOf k x.name = .ok m.operand := by
      rw [valueOf_ofSymbol]
      exact congrArg (Except.map (·.operand)) h
    simp [Evaluation.run, Evaluation.step, Evaluation.push, Evaluation.mention, Condition.isConstant,
      Condition.names, hv]
  | defined x paren =>
    cases h
    simp [Evaluation.run, Evaluation.step, Evaluation.push, Evaluation.mention, Condition.isConstant,
      Condition.names, definedness_ofDefined]
  | unary _ _ ih =>
    obtain ⟨a, he, rfl⟩ := Condition.meaning_unary_eq_ok.1 h
    simp [Evaluation.run_append, ih he, Evaluation.run, Evaluation.step, apply_unary, Condition.isConstant,
      Condition.names]
  | @binary op _ _ _ _ _ _ _ _ _ ihl ihr =>
    obtain ⟨a, b, hl, hr, hm⟩ := Condition.meaning_binary_eq_ok.1 h
    have hop : op.apply strict a.operand b.operand = .ok m.operand := by
      rw [apply_binary, hm]
      rfl
    simp [Evaluation.run_append, ihl hl, ihr hr, Evaluation.run, Evaluation.step, hop, Condition.isConstant,
      Condition.names, Bool.and_assoc]
  | parens _ _ ih => simp [Evaluation.run_append, ih h, Evaluation.run, Evaluation.step]

theorem run_append_fault {p q : List Instr} {x : Fault × Lexical} {ev : Evaluation}
    (h : (ev.run k strict p).2 = some x) : (ev.run k strict (p ++ q)).2 = some x := by
  rw [Evaluation.run_append]
  split
  · rename_i h'
    rw [h'] at h
    cases h
  · exact h

/-- The code of a condition at fault stops with the fault. -/
theorem run_coded_fault (hc : e.Coded A lx ly deep code) {f : Fault}
    (h : e.meaning strict k = .error f) (ev : Evaluation) :
    ∃ lz, (lz = lx ∨ lz = ly) ∧ (ev.run k strict code).2 = some (f, lz) := by
  induction hc generalizing ev with
  | number => cases h
  | defined x paren => cases h
  | symbol x =>
    have hv : Evaluation.valueOf k x.name = .error f := by
      rw [valueOf_ofSymbol]
      exact congrArg (Except.map (·.operand)) h
    exact ⟨lx, .inl rfl, by simp [Evaluation.run, Evaluation.step, hv]⟩
  | unary _ _ ih =>
    obtain ⟨lz, hz, hrun⟩ := ih (Condition.meaning_unary_eq_error.1 h) ev
    exact ⟨lz, hz, run_append_fault (run_append_fault hrun)⟩
  | parens _ _ ih =>
    obtain ⟨lz, hz, hrun⟩ := ih h ev
    exact ⟨lz, hz, run_append_fault hrun⟩
  | @binary op _ _ _ _ _ lz hcl hcr hz ihl ihr =>
    -- The left operand runs first, so its fault comes before one in the right operand.
    rcases Condition.meaning_binary_eq_error.1 h with hl | ⟨a, hl, hr | ⟨b, hr, hm⟩⟩
    · obtain ⟨lf, hf, hrun⟩ := ihl hl ev
      exact ⟨lf, hf, run_append_fault (run_append_fault hrun)⟩
    · obtain ⟨lf, hf, hrun⟩ := ihr hr _
      refine ⟨lf, hf, run_append_fault ?_⟩
      rw [Evaluation.run_append, run_coded hcl hl]
      exact hrun
    · have hop : op.apply strict a.operand b.operand = .error f := by
        rw [apply_binary, hm]
        rfl
      exact ⟨lz, hz, by
        simp [Evaluation.run_append, run_coded hcl hl, run_coded hcr hr, Evaluation.run, Evaluation.step, hop]⟩

/-- The code of a condition asks for what is granted, and comes back up to where it started. -/
theorem asked_coded (hc : e.Coded A lx ly deep code)
    (hk : ∀ x, .symbol x ∈ e.parts → ∀ d ∈ valueDemand? k x.name, A d) :
    (∀ d ∈ asked k deep code, A d) ∧ code.foldl Instr.depth deep = deep := by
  induction hc with
  | number hd => simpa [asked, Instr.demand?, Instr.depth] using hd
  | symbol x => simpa [asked, Instr.demand?, Instr.depth] using hk x (Condition.mem_parts _)
  | defined x paren => simp [asked, Instr.demand?, Instr.depth]
  | @unary op _ deep _ hd _ ih =>
    obtain ⟨hp, hdeep⟩ := ih fun x hx => hk x (List.mem_cons_of_mem _ hx)
    obtain ⟨hnested, hback⟩ := asked_nested (k := k) hdeep
    refine ⟨?_, by rw [List.foldl_append, hback]; rfl⟩
    have hop : asked k deep [.unary op] = [] := rfl
    rw [asked_append, hnested, hback, hop, List.append_nil, List.forall_mem_cons]
    exact ⟨hd, hp⟩
  | @binary op _ _ deep p q lz _ _ _ ihl ihr =>
    obtain ⟨hp, hdeep⟩ := ihl fun x hx => hk x (Condition.mem_parts_binary.2 (.inr (.inl hx)))
    obtain ⟨hq, hdeep'⟩ := ihr fun x hx => hk x (Condition.mem_parts_binary.2 (.inr (.inr hx)))
    have hboth : (p ++ q).foldl Instr.depth deep = deep := by rw [List.foldl_append, hdeep, hdeep']
    refine ⟨?_, by rw [List.foldl_append, hboth]; rfl⟩
    have hop : asked k deep [.binary op lz] = [] := rfl
    rw [asked_append, asked_append, hboth, hdeep, hop, List.append_nil]
    exact List.forall_mem_append.2 ⟨hp, hq⟩
  | parens hd _ ih =>
    obtain ⟨hp, hdeep⟩ := ih hk
    obtain ⟨hnested, hback⟩ := asked_nested (k := k) hdeep
    rw [hnested, List.forall_mem_cons]
    exact ⟨⟨hd, hp⟩, hback⟩

end

end CondResolve
