import Mathlib.Data.Int.Bitwise
import CondResolve.Proofs.Knowledge

/-!
# Exact results, cut to words

Operands are signed 64-bit words whose truth, if known, is that of their number. An operator on known ones gives its
exact result, the one among all whole numbers, cut to such a word: `UnaryOp.gives_apply` and
`BinaryOp.gives_of_apply`.
-/

namespace CondResolve

/-- `m` is the signed 64-bit number that agrees with `n` modulo the size of a word. -/
structure Wraps (n m : Int) : Prop where
  lower : -0x8000000000000000 ≤ m
  upper : m < 0x8000000000000000
  agrees : (wordSize : Int) ∣ n - m

/-- The number is a signed 64-bit word, and the truth is that of the number if it is known. -/
structure Operand.IsWord (a : Operand) : Prop where
  lower : -0x8000000000000000 ≤ a.value
  upper : a.value < 0x8000000000000000
  yes : a.truth = .yes → a.value ≠ 0
  no : a.truth = .no → a.value = 0

/-- `q` and `r` are quotient and remainder of `a` by `b`, cut off toward zero. -/
structure Divides (a b q r : Int) : Prop where
  sum : a = b * q + r
  small : r.natAbs < b.natAbs
  sign : r = 0 ∨ r.sign = a.sign

/-- In whole numbers without bounds, `n` is what an operator makes of `a` and `b`. Those have infinitely many bits,
which go on with the sign. -/
def BinaryOp.Computes (op : BinaryOp) (a b n : Int) : Prop :=
  match op with
  | .or => n = if a ≠ 0 ∨ b ≠ 0 then 1 else 0
  | .and => n = if a ≠ 0 ∧ b ≠ 0 then 1 else 0
  | .bitOr => ∀ i, n.testBit i = (a.testBit i || b.testBit i)
  | .bitXor => ∀ i, n.testBit i = (a.testBit i ^^ b.testBit i)
  | .bitAnd => ∀ i, n.testBit i = (a.testBit i && b.testBit i)
  | .eq => n = if a = b then 1 else 0
  | .ne => n = if a = b then 0 else 1
  | .le => n = if a ≤ b then 1 else 0
  | .ge => n = if a < b then 0 else 1
  | .lt => n = if a < b then 1 else 0
  | .gt => n = if a ≤ b then 0 else 1
  | .shiftLeft => n = a * 2 ^ b.toNat
  | .shiftRight => n * 2 ^ b.toNat ≤ a ∧ a < (n + 1) * 2 ^ b.toNat
  | .add => n = a + b
  | .sub => n = a - b
  | .mul => n = a * b
  | .div => ∃ r, Divides a b n r
  | .mod => ∃ q, Divides a b q n

def UnaryOp.Computes (op : UnaryOp) (a n : Int) : Prop :=
  match op with
  | .not => n = if a = 0 then 1 else 0
  | .complement => ∀ i, n.testBit i = !a.testBit i
  | .negate => n = -a

def BinaryOp.Admits (op : BinaryOp) (b : Int) : Prop :=
  match op with
  | .div | .mod => b ≠ 0
  | .shiftLeft | .shiftRight => 0 ≤ b ∧ b < 64
  | _ => True

def UnaryOp.exact : UnaryOp → Int → Int
  | .not, a => if a = 0 then 1 else 0
  | .complement, a => -a - 1
  | .negate, a => -a

/-! ## Words -/

theorem wraps_wrap (n : Int) : Wraps n (wrap n) where
  lower := Int.le_bmod (m := wordSize) (by decide)
  upper := Int.bmod_lt (m := wordSize) (by decide)
  agrees := Int.dvd_self_sub_bmod

namespace Truth

variable {b : Bool}

@[simp] theorem ofBool_eq_yes : ofBool b = .yes ↔ b = true := by cases b <;> simp [ofBool]

@[simp] theorem ofBool_eq_no : ofBool b = .no ↔ b = false := by cases b <;> simp [ofBool]

@[simp] theorem ofBool_ne_unknown : ofBool b ≠ .unknown := by cases b <;> simp [ofBool]

end Truth

namespace Operand

theorem isWord_known (n : Int) : (known n).IsWord where
  lower := (wraps_wrap n).lower
  upper := (wraps_wrap n).upper
  yes := by simp [known]
  no := by simp [known]

theorem IsWord.unknown {a : Operand} (h : a.IsWord) : (Operand.unknown a.value).IsWord :=
  ⟨h.lower, h.upper, nofun, nofun⟩

theorem isWord_unknown : (Operand.unknown 0).IsWord := ⟨by decide, by decide, nofun, nofun⟩

theorem IsWord.sound {a : Operand} (h : a.IsWord) : a.Sound := by
  intro hk
  cases ht : a.truth with
  | yes => simp [h.yes ht, Truth.ofBool]
  | no => simp [h.no ht, Truth.ofBool]
  | unknown => simp [isKnown, ht] at hk

/-- A number that is a word is that of a machine word. -/
theorem IsWord.exists_word {a : Operand} (h : a.IsWord) : ∃ w : Word, w.toInt = a.value := by
  refine ⟨.ofInt 64 a.value, ?_⟩
  rw [BitVec.toInt_ofInt]
  exact Int.bmod_eq_of_le h.lower h.upper

end Operand

theorem Operand.kept_isWord : Kept IsWord where
  known := isWord_known
  zero := isWord_unknown
  unknown := fun _ h => h.unknown

/-! ## Exact results -/

/-- Beyond its length, a word goes on with its sign. -/
theorem testBit_toInt (w : Word) (i : Nat) : w.toInt.testBit i = if i < 64 then w.getLsbD i else w.msb := by
  cases hm : w.msb with
  | false =>
    rw [BitVec.toInt_eq_toNat_of_msb hm]
    show w.getLsbD i = _
    split
    · rfl
    · rename_i hi
      exact BitVec.getLsbD_of_ge w i (Nat.le_of_not_lt hi)
  | true =>
    have hneg : w.toInt = Int.negSucc (~~~w).toNat := by
      have := w.isLt
      rw [BitVec.toInt_eq_msb_cond, hm, if_pos rfl, BitVec.toNat_not, Int.negSucc_eq]
      omega
    rw [hneg]
    show (!(~~~w).getLsbD i) = _
    rw [BitVec.getLsbD_not]
    split <;> simp_all

theorem divides_tdiv (a : Int) {b : Int} (hb : b ≠ 0) : Divides a b (a.tdiv b) (a.tmod b) where
  sum := (Int.mul_tdiv_add_tmod a b).symm
  small := by
    rw [Int.natAbs_tmod]
    exact Nat.mod_lt _ (Int.natAbs_pos.2 hb)
  sign := by
    have h := Int.sign_tmod a b
    split at h
    · exact .inl (Int.sign_eq_zero_iff_zero.1 h)
    · exact .inr h

theorem UnaryOp.computes_exact (op : UnaryOp) (a : Int) : op.Computes a (op.exact a) := by
  cases op with
  | not => rfl
  | complement =>
    intro i
    have hnot : -a - 1 = a.lnot := by
      cases a with
      | ofNat n =>
        show -(n : Int) - 1 = Int.negSucc n
        rw [Int.negSucc_eq]
        omega
      | negSucc n =>
        show -Int.negSucc n - 1 = n
        rw [Int.negSucc_eq]
        omega
    show (-a - 1).testBit i = _
    rw [hnot, Int.testBit_lnot]
  | negate => rfl

/-- Bits of words are those of their numbers, behind the words too. -/
theorem testBit_bits {f : Word → Word → Word} {g : Bool → Bool → Bool} (v w : Word)
    (hbit : ∀ i, i < 64 → (f v w).getLsbD i = g (v.getLsbD i) (w.getLsbD i)) (hmsb : (f v w).msb = g v.msb w.msb)
    (i : Nat) : (BinaryOp.bits f v.toInt w.toInt).testBit i = g (v.toInt.testBit i) (w.toInt.testBit i) := by
  rw [BinaryOp.bits, BitVec.ofInt_toInt, BitVec.ofInt_toInt, testBit_toInt, testBit_toInt, testBit_toInt]
  split
  · rename_i hi
    exact hbit i hi
  · exact hmsb

theorem shiftRight_bounds (a : Int) (n : Nat) : a.shiftRight n * 2 ^ n ≤ a ∧ a < (a.shiftRight n + 1) * 2 ^ n := by
  have hpos : (0 : Int) < 2 ^ n := Int.pow_pos (by decide)
  have hdiv : a.shiftRight n = a / 2 ^ n := by
    show a >>> n = _
    rw [Int.shiftRight_eq_div_pow]
    rfl
  rw [hdiv]
  exact ⟨Int.ediv_mul_le a (Int.ne_of_gt hpos), Int.lt_ediv_add_one_mul_self a hpos⟩

theorem BinaryOp.computes_exact (op : BinaryOp) (v w : Word) (h : op.Admits w.toInt) :
    op.Computes v.toInt w.toInt (op.exact v.toInt w.toInt) := by
  cases op with
  | bitOr => exact testBit_bits v w (fun _ _ => BitVec.getLsbD_or) BitVec.msb_or
  | bitXor => exact testBit_bits v w (fun _ _ => BitVec.getLsbD_xor) BitVec.msb_xor
  | bitAnd => exact testBit_bits v w (fun _ _ => BitVec.getLsbD_and) BitVec.msb_and
  | ne => simp only [Computes, exact, ne_eq, ite_not]
  | ge => simp only [Computes, exact, ← Int.not_lt, ite_not]
  | gt => simp only [Computes, exact, ← Int.not_le, ite_not]
  | shiftRight => exact shiftRight_bounds _ _
  | div => exact ⟨_, divides_tdiv _ h⟩
  | mod => exact ⟨_, divides_tdiv _ h⟩
  | _ => rfl

structure UnaryOp.Gives (op : UnaryOp) (a c : Operand) : Prop where
  computes : op.Computes a.value (op.exact a.value)
  wraps : Wraps (op.exact a.value) c.value
  known : c.isKnown = true

/-- On known operands, one that the operator is defined for, the exact result cut to a word. Quotient and remainder
go together. -/
structure BinaryOp.Gives (op : BinaryOp) (a b c : Operand) : Prop where
  admits : op.Admits b.value
  computes : op.Computes a.value b.value (op.exact a.value b.value)
  divides : op = .div ∨ op = .mod →
    Divides a.value b.value (BinaryOp.div.exact a.value b.value) (BinaryOp.mod.exact a.value b.value)
  wraps : Wraps (op.exact a.value b.value) c.value
  known : c.isKnown = true

theorem Operand.isKnown_of_known (n : Int) : (known n).isKnown = true := by simp [known, isKnown]

theorem UnaryOp.gives_apply (op : UnaryOp) {a : Operand} (hk : a.isKnown = true) : op.Gives a (op.apply a) := by
  have happly : op.apply a = .known (op.exact a.value) := by
    unfold apply
    rw [if_pos hk]
    cases op with
    | not => simp only [exact, Operand.ofBool, decide_eq_true_eq]
    | _ => rfl
  rw [happly]
  exact ⟨op.computes_exact _, wraps_wrap _, Operand.isKnown_of_known _⟩

theorem BinaryOp.admits_of_apply {a b c : Operand} {op : BinaryOp} {strict : Bool} (ha : a.isKnown = true)
    (hb : b.IsWord) (hk : b.isKnown = true) (h : op.apply strict a b = .ok c) : op.Admits b.value := by
  have hfault : op.fault? a b = none := by
    unfold apply at h
    split at h
    · cases h
    · assumption
  cases op with
  | div => exact hb.yes (by simpa [fault?] using hfault)
  | mod => exact hb.yes (by simpa [fault?] using hfault)
  | shiftLeft => simpa [fault?, Admits, ha, hk] using hfault
  | shiftRight => simpa [fault?, Admits, ha, hk] using hfault
  | _ => trivial

theorem BinaryOp.gives_of_apply {a b c : Operand} {op : BinaryOp} {strict : Bool} (ha : a.IsWord) (hb : b.IsWord)
    (hka : a.isKnown = true) (hkb : b.isKnown = true) (h : op.apply strict a b = .ok c) : op.Gives a b c := by
  have hadmits := admits_of_apply hka hb hkb h
  have hc : c = .known (op.exact a.value b.value) := by
    have hcombine : op.combine a b = .known (op.exact a.value b.value) := by
      rw [combine, if_pos (by simp [hka, hkb])]
    rw [← hcombine]
    rcases apply_eq_ok h with ⟨-, habs⟩ | ⟨rfl, -⟩
    · exact (combine_of_absorbs? ha.sound hb.sound hka hkb habs).symm
    · rfl
  obtain ⟨v, hv⟩ := ha.exists_word
  obtain ⟨w, hw⟩ := hb.exists_word
  refine ⟨hadmits, ?_, ?_, ?_, ?_⟩
  · rw [← hw] at hadmits
    rw [← hv, ← hw]
    exact op.computes_exact v w hadmits
  · rintro (rfl | rfl) <;> exact divides_tdiv _ hadmits
  · rw [hc]
    exact wraps_wrap _
  · rw [hc]
    exact Operand.isKnown_of_known _

/-- The only quotient of words that no word holds wraps around. -/
example : BinaryOp.div.apply false (.known (-0x8000000000000000)) (.known (-1)) =
    .ok (.known (-0x8000000000000000)) := by decide

end CondResolve
