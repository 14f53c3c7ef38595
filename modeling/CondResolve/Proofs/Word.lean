import CondResolve.Expr.Code

/-!
# Three-valued words

The meaning of a condition is a 64-bit word, or an unknown word with a number left over from its operands.
The operators are those of two's complement. The operands of the evaluator, which are integers that are
wrapped after each operation, come to the same.
-/

namespace CondResolve

abbrev Word := BitVec 64

inductive Meaning where
  | known (w : Word)
  | unknown (w : Word)
  deriving DecidableEq, Repr

namespace Meaning

def word : Meaning → Word
  | .known w | .unknown w => w

def truth : Meaning → Truth
  | .known w => .ofBool (w ≠ 0)
  | .unknown _ => .unknown

def operand (m : Meaning) : Operand := ⟨m.truth, m.word.toInt⟩

end Meaning

/-! ## Operators on words -/

def wordOfBool (b : Bool) : Word := if b then 1 else 0

def UnaryOp.word : UnaryOp → Word → Word
  | .not, w => wordOfBool (w = 0)
  | .complement, w => ~~~w
  | .negate, w => -w

def BinaryOp.word : BinaryOp → Word → Word → Word
  | .or, a, b => wordOfBool (a ≠ 0 || b ≠ 0)
  | .and, a, b => wordOfBool (a ≠ 0 && b ≠ 0)
  | .bitOr, a, b => a ||| b
  | .bitXor, a, b => a ^^^ b
  | .bitAnd, a, b => a &&& b
  | .eq, a, b => wordOfBool (a = b)
  | .ne, a, b => wordOfBool (a ≠ b)
  | .le, a, b => wordOfBool (a.sle b)
  | .ge, a, b => wordOfBool (b.sle a)
  | .lt, a, b => wordOfBool (a.slt b)
  | .gt, a, b => wordOfBool (b.slt a)
  | .shiftLeft, a, b => a <<< b.toNat
  | .shiftRight, a, b => a.sshiftRight b.toNat
  | .add, a, b => a + b
  | .sub, a, b => a - b
  | .mul, a, b => a * b
  | .div, a, b => a.sdiv b
  | .mod, a, b => a.srem b

namespace Meaning

def unary (op : UnaryOp) : Meaning → Meaning
  | .known w => .known (op.word w)
  | .unknown w => .unknown w

/-- Division needs a divisor that is known and not zero, and a shift by a known count one from 0 to 63. -/
def fault? (op : BinaryOp) (a b : Meaning) : Option Fault :=
  match op with
  | .div => if b.truth = .yes then none else some .divisor
  | .mod => if b.truth = .yes then none else some .modulus
  | .shiftLeft | .shiftRight =>
    match a, b with
    | .known _, .known n => if n.toNat < 64 then none else some (.shiftCount n.toInt)
    | _, _ => none
  | _ => none

/-- A true operand settles a disjunction and a false one a conjunction, whatever the other one is. -/
def settled? (op : BinaryOp) (a b : Meaning) : Option Meaning :=
  match op with
  | .or => if a.truth = .yes ∨ b.truth = .yes then some (.known 1) else none
  | .and => if a.truth = .no ∨ b.truth = .no then some (.known 0) else none
  | _ => none

def joined (op : BinaryOp) (a b : Meaning) : Meaning :=
  match a, b with
  | .known v, .known w => .known (op.word v w)
  | a, _ => .unknown a.word

def binary (strict : Bool) (op : BinaryOp) (a b : Meaning) : Except Fault Meaning :=
  match fault? op a b with
  | some f => .error f
  | none => .ok (if strict then joined op a b else (settled? op a b).getD (joined op a b))

end Meaning

/-! ## Operands are words -/

theorem toInt_eq_zero_iff {w : Word} : w.toInt = 0 ↔ w = 0 := by
  constructor
  · intro h
    exact BitVec.eq_of_toInt_eq h
  · rintro rfl
    rfl

theorem ofInt_sub (a b : Int) : BitVec.ofInt 64 (a - b) = BitVec.ofInt 64 a - BitVec.ofInt 64 b := by
  rw [Int.sub_eq_add_neg, BitVec.ofInt_add, BitVec.ofInt_neg, BitVec.sub_eq_add_neg]

/-- A shift count from 0 to 63 is the same with a sign and without one. -/
theorem toInt_count {w : Word} : (0 ≤ w.toInt ∧ w.toInt < 64) ↔ w.toNat < 64 := by
  rw [BitVec.toInt_eq_toNat_cond]
  split <;> omega

theorem toNat_count {w : Word} (h : w.toNat < 64) : w.toInt.toNat = w.toNat := by
  rw [BitVec.toInt_eq_toNat_cond]
  split <;> omega

theorem operand_known (n : Int) : Operand.known n = (Meaning.known (BitVec.ofInt 64 n)).operand := by
  have hw : wrap n = (BitVec.ofInt 64 n).toInt := by
    rw [BitVec.toInt_ofInt]
    rfl
  have hz : (decide (wrap n ≠ 0)) = decide (BitVec.ofInt 64 n ≠ 0) := by
    simp only [hw, ne_eq, toInt_eq_zero_iff]
  unfold Operand.known Meaning.operand Meaning.truth Meaning.word
  rw [hz, hw]

theorem operand_ofBool (b : Bool) : Operand.ofBool b = (Meaning.known (wordOfBool b)).operand := by
  cases b <;> decide

theorem isKnown_known (w : Word) : (Meaning.known w).operand.isKnown = true := by
  show decide (Truth.ofBool (decide (w ≠ 0)) ≠ .unknown) = true
  cases decide (w ≠ 0) <;> rfl

theorem isKnown_unknown (w : Word) : (Meaning.unknown w).operand.isKnown = false := rfl

theorem apply_unary (op : UnaryOp) (m : Meaning) : op.apply m.operand = (m.unary op).operand := by
  cases m with
  | unknown w => rfl
  | known w =>
    simp only [UnaryOp.apply, isKnown_known, if_true, Meaning.unary]
    cases op with
    | not =>
      show Operand.ofBool (decide (w.toInt = 0)) = _
      simp only [operand_ofBool, toInt_eq_zero_iff, UnaryOp.word]
    | complement =>
      show Operand.known (-w.toInt - 1) = _
      rw [operand_known, ofInt_sub, BitVec.ofInt_neg, BitVec.ofInt_toInt, UnaryOp.word, BitVec.not_eq_neg_add]
      rfl
    | negate =>
      show Operand.known (-w.toInt) = _
      rw [operand_known, BitVec.ofInt_neg, BitVec.ofInt_toInt, UnaryOp.word]

/-- The exact result of an operator, cut to a word, is that of the operator on words. -/
theorem ofInt_exact (op : BinaryOp) (a b : Word) (hs : op = .shiftLeft ∨ op = .shiftRight → b.toNat < 64) :
    BitVec.ofInt 64 (op.exact a.toInt b.toInt) = op.word a b := by
  have ofBool : ∀ (p : Prop) [Decidable p] (c : Bool), (p ↔ c = true) →
      BitVec.ofInt 64 (if p then 1 else 0) = wordOfBool c := by
    intro p _ c hc
    cases c <;> simp_all [wordOfBool]
  cases op with
  | or => exact ofBool _ _ (by simp [toInt_eq_zero_iff])
  | and => exact ofBool _ _ (by simp [toInt_eq_zero_iff])
  | bitOr => simp only [BinaryOp.exact, BinaryOp.bits, BinaryOp.word, BitVec.ofInt_toInt]
  | bitXor => simp only [BinaryOp.exact, BinaryOp.bits, BinaryOp.word, BitVec.ofInt_toInt]
  | bitAnd => simp only [BinaryOp.exact, BinaryOp.bits, BinaryOp.word, BitVec.ofInt_toInt]
  | eq => exact ofBool _ _ (by simp [BitVec.toInt_inj])
  | ne => exact ofBool _ _ (by simp [BitVec.toInt_inj])
  | le => exact ofBool _ _ (by simp [BitVec.sle_iff_toInt_le])
  | ge => exact ofBool _ _ (by simp [BitVec.sle_iff_toInt_le])
  | lt => exact ofBool _ _ (by simp [BitVec.slt_iff_toInt_lt])
  | gt => exact ofBool _ _ (by simp [BitVec.slt_iff_toInt_lt])
  | shiftLeft =>
    simp only [BinaryOp.exact, BinaryOp.word, toNat_count (hs (.inl rfl))]
    have hpow : BitVec.ofInt 64 (Int.pow 2 b.toNat) = BitVec.twoPow 64 b.toNat := by
      have hcast : Int.pow 2 b.toNat = (Nat.pow 2 b.toNat : Nat) := (Int.natCast_pow 2 b.toNat).symm
      rw [hcast, BitVec.ofInt_natCast]
      exact BitVec.eq_of_toNat_eq (BitVec.toNat_twoPow 64 b.toNat).symm
    rw [BitVec.ofInt_mul, BitVec.ofInt_toInt, hpow, BitVec.shiftLeft_eq_mul_twoPow]
  | shiftRight =>
    simp only [BinaryOp.exact, BinaryOp.word, toNat_count (hs (.inr rfl))]
    have hshift : a.toInt.shiftRight b.toNat = (a.sshiftRight b.toNat).toInt := BitVec.toInt_sshiftRight.symm
    rw [hshift, BitVec.ofInt_toInt]
  | add => simp only [BinaryOp.exact, BinaryOp.word, BitVec.ofInt_add, BitVec.ofInt_toInt]
  | sub => simp only [BinaryOp.exact, BinaryOp.word, ofInt_sub, BitVec.ofInt_toInt]
  | mul => simp only [BinaryOp.exact, BinaryOp.word, BitVec.ofInt_mul, BitVec.ofInt_toInt]
  | div =>
    refine BitVec.eq_of_toInt_eq ?_
    rw [BitVec.toInt_ofInt]
    exact (BitVec.toInt_sdiv a b).symm
  | mod =>
    simp only [BinaryOp.exact, BinaryOp.word]
    rw [← BitVec.toInt_srem, BitVec.ofInt_toInt]

theorem fault?_operand (op : BinaryOp) (a b : Meaning) : op.fault? a.operand b.operand = a.fault? op b := by
  have shift : (if a.operand.isKnown && b.operand.isKnown && !(0 ≤ b.operand.value && b.operand.value < 64) then
      some (Fault.shiftCount b.operand.value) else none) = a.fault? .shiftLeft b := by
    cases a with
    | unknown v => simp [isKnown_unknown, Meaning.fault?]
    | known v =>
      cases b with
      | unknown w => simp [isKnown_unknown, Meaning.fault?]
      | known w =>
        have hcount : (decide (0 ≤ w.toInt) && decide (w.toInt < 64)) = decide (w.toNat < 64) := by
          rw [← Bool.decide_and, decide_eq_decide]
          exact toInt_count
        simp only [isKnown_known, Meaning.fault?]
        show (if true && true && !(decide (0 ≤ w.toInt) && decide (w.toInt < 64)) then
          some (Fault.shiftCount w.toInt) else none) = _
        rw [hcount]
        by_cases h : w.toNat < 64 <;> simp [h]
  cases op with
  | shiftLeft => exact shift
  | shiftRight => exact shift
  | _ => rfl

theorem absorbs?_operand (op : BinaryOp) (a b : Meaning) :
    op.absorbs? a.operand b.operand = (a.settled? op b).map (·.operand) := by
  cases op with
  | or =>
    show (if a.truth = .yes || b.truth = .yes then some (Operand.known 1) else none) = _
    by_cases h : a.truth = .yes ∨ b.truth = .yes
    · simp [Meaning.settled?, h, operand_known]
    · simp [Meaning.settled?, h]
  | and =>
    show (if a.truth = .no || b.truth = .no then some (Operand.known 0) else none) = _
    by_cases h : a.truth = .no ∨ b.truth = .no
    · simp [Meaning.settled?, h, operand_known]
    · simp [Meaning.settled?, h]
  | _ => rfl

theorem combine_operand (op : BinaryOp) (a b : Meaning) (h : a.fault? op b = none) :
    op.combine a.operand b.operand = (a.joined op b).operand := by
  cases a with
  | unknown v => simp [BinaryOp.combine, isKnown_unknown, Meaning.joined]; rfl
  | known v =>
    cases b with
    | unknown w => simp [BinaryOp.combine, isKnown_unknown, Meaning.joined]; rfl
    | known w =>
      have hcount : op = .shiftLeft ∨ op = .shiftRight → w.toNat < 64 := by
        rintro (rfl | rfl) <;> simpa [Meaning.fault?] using h
      simp only [BinaryOp.combine, isKnown_known, Bool.and_self, if_true, Meaning.joined]
      rw [operand_known]
      show (Meaning.known (BitVec.ofInt 64 (op.exact v.toInt w.toInt))).operand = _
      rw [ofInt_exact op v w hcount]

/-- The evaluator's operators are those on words. -/
theorem apply_binary (strict : Bool) (op : BinaryOp) (a b : Meaning) :
    op.apply strict a.operand b.operand = (a.binary strict op b).map (·.operand) := by
  unfold BinaryOp.apply Meaning.binary
  rw [fault?_operand]
  cases hf : a.fault? op b with
  | some f => rfl
  | none =>
    rw [combine_operand op a b hf, absorbs?_operand]
    cases strict with
    | true => rfl
    | false => cases a.settled? op b <;> rfl

end CondResolve
