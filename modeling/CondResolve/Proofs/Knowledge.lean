import Mathlib.Data.List.Forall2
import CondResolve.Proofs.Climbing

/-!
# Learning more about symbols

What is decided with less knowledge stays so with more, unless the added knowledge makes the condition
fail. It also stays so if the logic is no longer strict. The code of a condition is the same in all cases, so
its two runs are compared instruction by instruction. `evaluate_stable`: the condition ends at the same place,
and a result that was known is the same.
-/

namespace CondResolve

def Knowledge.Le (k k' : Knowledge) : Prop := ∀ name v, k name = some v → k' name = some v

def Operand.Refines (a a' : Operand) : Prop := a.isKnown = true → a' = a

theorem Operand.refines_unknown (n : Int) (a : Operand) : (Operand.unknown n).Refines a := by
  intro h
  cases h

theorem UnaryOp.refines_apply {a a' : Operand} (op : UnaryOp) (h : a.Refines a') :
    (op.apply a).Refines (op.apply a') := by
  by_cases hk : a.isKnown = true
  · rw [h hk]
    exact fun _ => rfl
  · intro hk'
    simp only [UnaryOp.apply, hk, Bool.false_eq_true, if_false] at hk'

theorem BinaryOp.refines_combine {a a' b b' : Operand} (op : BinaryOp) (ha : a.Refines a') (hb : b.Refines b') :
    (op.combine a b).Refines (op.combine a' b') := by
  intro hk
  unfold combine at hk
  split at hk
  · rename_i hab
    rw [Bool.and_eq_true] at hab
    rw [ha hab.1, hb hab.2]
  · cases hk

/-- An operand that settles a result is known. -/
theorem BinaryOp.absorbs?_refines {a a' b b' c : Operand} {op : BinaryOp} (ha : a.Refines a') (hb : b.Refines b')
    (h : op.absorbs? a b = some c) : op.absorbs? a' b' = some c := by
  have known : ∀ {a a' : Operand} {x : Truth}, a.Refines a' → x ≠ .unknown → a.truth = x → a'.truth = x := by
    intro a a' x h hx ha
    rw [h (by simp [Operand.isKnown, ha, hx]), ha]
  cases op with
  | or =>
    simp only [absorbs?, Bool.or_eq_true, decide_eq_true_eq, Option.ite_none_right_eq_some] at h ⊢
    exact ⟨h.1.imp (known ha (by simp)) (known hb (by simp)), h.2⟩
  | and =>
    simp only [absorbs?, Bool.or_eq_true, decide_eq_true_eq, Option.ite_none_right_eq_some] at h ⊢
    exact ⟨h.1.imp (known ha (by simp)) (known hb (by simp)), h.2⟩
  | _ => cases h

def Operand.Sound (a : Operand) : Prop := a.isKnown = true → a.truth = .ofBool (a.value ≠ 0)

theorem Operand.sound_known (n : Int) : (Operand.known n).Sound := by
  intro _
  rfl

theorem Operand.sound_unknown (n : Int) : (Operand.unknown n).Sound := by
  intro h
  cases h

/-- The result of an operator: what an operand settles by itself, if the logic allows it, or what both come to. -/
theorem BinaryOp.apply_eq_ok {a b c : Operand} {op : BinaryOp} {strict : Bool} (h : op.apply strict a b = .ok c) :
    (strict = false ∧ op.absorbs? a b = some c) ∨
    (c = op.combine a b ∧ (strict = false → op.absorbs? a b = none)) := by
  unfold apply at h
  split at h
  · cases h
  · cases strict with
    | true =>
      cases h
      exact .inr ⟨rfl, by simp⟩
    | false =>
      cases habs : op.absorbs? a b with
      | none =>
        rw [habs] at h
        cases h
        exact .inr ⟨rfl, fun _ => rfl⟩
      | some d =>
        rw [habs] at h
        cases h
        exact .inl ⟨rfl, rfl⟩

/-- The result is known, or unknown with the left number. -/
theorem BinaryOp.eq_of_apply {a b c : Operand} {op : BinaryOp} {strict : Bool} (h : op.apply strict a b = .ok c) :
    (∃ n, c = .known n) ∨ c = .unknown a.value := by
  rcases apply_eq_ok h with ⟨-, habs⟩ | ⟨rfl, -⟩
  · unfold absorbs? at habs
    split at habs
    · rw [Option.ite_none_right_eq_some, Option.some.injEq] at habs
      exact .inl ⟨1, habs.2.symm⟩
    · rw [Option.ite_none_right_eq_some, Option.some.injEq] at habs
      exact .inl ⟨0, habs.2.symm⟩
    · cases habs
  · unfold combine
    split
    · exact .inl ⟨_, rfl⟩
    · exact .inr rfl

/-- A property that every known operand has, and every unknown one whose number is zero or that of an operand with
the property. -/
structure Operand.Kept (P : Operand → Prop) : Prop where
  known : ∀ n, P (.known n)
  zero : P (.unknown 0)
  unknown : ∀ a, P a → P (.unknown a.value)

theorem Operand.kept_sound : Kept Sound where
  known := sound_known
  zero := sound_unknown 0
  unknown := fun a _ => sound_unknown a.value

/-- What an operand settles by itself is what both come to if both are known. -/
theorem BinaryOp.combine_of_absorbs? {a b c : Operand} {op : BinaryOp} (ha : a.Sound) (hb : b.Sound)
    (hka : a.isKnown = true) (hkb : b.isKnown = true) (h : op.absorbs? a b = some c) : op.combine a b = c := by
  have htruth : ∀ {a : Operand} {x : Bool}, a.Sound → a.isKnown = true → a.truth = .ofBool x →
      decide (a.value ≠ 0) = x := by
    intro a x ha hk hx
    rw [ha hk] at hx
    by_cases hv : a.value ≠ 0 <;> cases x <;> simp_all [Truth.ofBool]
  unfold combine
  rw [if_pos (by simp [hka, hkb])]
  cases op with
  | or =>
    simp only [absorbs?, Bool.or_eq_true, decide_eq_true_eq, Option.ite_none_right_eq_some, Option.some.injEq] at h
    obtain ⟨hab, rfl⟩ := h
    have hne : a.value ≠ 0 ∨ b.value ≠ 0 := by
      rcases hab with h | h
      · exact .inl (of_decide_eq_true (htruth (x := true) ha hka h))
      · exact .inr (of_decide_eq_true (htruth (x := true) hb hkb h))
    simp only [exact, if_pos hne]
  | and =>
    simp only [absorbs?, Bool.or_eq_true, decide_eq_true_eq, Option.ite_none_right_eq_some, Option.some.injEq] at h
    obtain ⟨hab, rfl⟩ := h
    have hz : ¬(a.value ≠ 0 ∧ b.value ≠ 0) := by
      rcases hab with h | h
      · exact fun hn => of_decide_eq_false (htruth (x := false) ha hka h) hn.1
      · exact fun hn => of_decide_eq_false (htruth (x := false) hb hkb h) hn.2
    simp only [exact, if_neg hz]
  | _ => cases h

theorem BinaryOp.refines_apply {a a' b b' c c' : Operand} {op : BinaryOp} {strict strict' : Bool}
    (hs : strict' = true → strict = true) (ha : a.Refines a') (hb : b.Refines b') (hsa : a.Sound) (hsb : b.Sound)
    (h : op.apply strict a b = .ok c) (h' : op.apply strict' a' b' = .ok c') : c.Refines c' := by
  rcases apply_eq_ok h with ⟨hf, habs⟩ | ⟨rfl, -⟩
  · have hf' : strict' = false := by
      cases strict' with
      | false => rfl
      | true => rw [hs rfl] at hf; cases hf
    have habs' := absorbs?_refines ha hb habs
    rcases apply_eq_ok h' with ⟨-, hc'⟩ | ⟨-, hn⟩
    · rw [habs'] at hc'
      cases hc'
      exact fun _ => rfl
    · rw [hn hf'] at habs'
      cases habs'
  · rcases apply_eq_ok h' with ⟨-, hc'⟩ | ⟨rfl, -⟩
    · -- The result is known only if both operands are, and then it does not matter which of them settles it.
      intro hk
      unfold combine at hk
      split at hk
      · rename_i hab
        rw [Bool.and_eq_true] at hab
        rw [ha hab.1, hb hab.2] at hc'
        exact (combine_of_absorbs? hsa hsb hab.1 hab.2 hc').symm
      · cases hk
    · exact op.refines_combine ha hb

namespace Evaluation

structure Refines (e e' : Evaluation) : Prop where
  stack : List.Forall₂ Operand.Refines e.stack e'.stack
  constant : e'.constant = e.constant

def Sound (e : Evaluation) : Prop := ∀ a ∈ e.stack, a.Sound

variable {k k' : Knowledge} {strict strict' : Bool}

section
variable {P : Operand → Prop} (hP : Operand.Kept P)
include hP

theorem kept_definedness (name : Option String) : P (definedness k name) := by
  unfold definedness
  split
  · exact hP.zero
  · split
    · exact hP.zero
    · exact hP.known _

theorem kept_valueOf {name : String} {a : Operand} (h : valueOf k name = .ok a) : P a := by
  unfold valueOf at h
  split at h
  · cases h
    exact hP.zero
  · cases h
    exact hP.known 0
  · split at h
    · cases h
      exact hP.known _
    · cases h

theorem kept_unary {a : Operand} (op : UnaryOp) (h : P a) : P (op.apply a) := by
  unfold UnaryOp.apply
  split
  · cases op <;> exact hP.known _
  · exact h

theorem kept_binary {a b c : Operand} {op : BinaryOp} (h : op.apply strict a b = .ok c) (ha : P a) : P c := by
  rcases BinaryOp.eq_of_apply h with ⟨n, rfl⟩ | rfl
  · exact hP.known n
  · exact hP.unknown a ha

/-- What evaluation keeps is so for all operands after an instruction if it was before. -/
theorem kept_step {e : Evaluation} (h : ∀ a ∈ e.stack, P a) (i : Instr) :
    ∀ a ∈ (e.step k strict i).1.stack, P a := by
  cases i with
  | numeral ds => exact List.forall_mem_cons.2 ⟨hP.known _, h⟩
  | enter | leave | mention => exact h
  | defined name => exact List.forall_mem_cons.2 ⟨kept_definedness hP name, h⟩
  | load name lex =>
    simp only [step]
    split
    · rename_i a ha
      exact List.forall_mem_cons.2 ⟨kept_valueOf hP ha, h⟩
    · exact h
  | unary op =>
    simp only [step]
    split
    · rename_i a st hst
      rw [hst, List.forall_mem_cons] at h
      exact List.forall_mem_cons.2 ⟨kept_unary hP op h.1, h.2⟩
    · exact h
  | binary op lex =>
    simp only [step]
    split
    · rename_i b a st hst
      split
      · rename_i c hc
        rw [hst, List.forall_mem_cons, List.forall_mem_cons] at h
        exact List.forall_mem_cons.2 ⟨kept_binary hP hc h.2.1, h.2.2⟩
      · exact h
    · exact h

theorem kept_run {e : Evaluation} (h : ∀ a ∈ e.stack, P a) (code : List Instr) :
    ∀ a ∈ (e.run k strict code).1.stack, P a := by
  induction code generalizing e with
  | nil => exact h
  | cons i code ih =>
    have hi : ∀ a ∈ (e.step k strict i).1.stack, P a := kept_step hP h i
    rw [run]
    split
    · rename_i e' he
      rw [he] at hi
      exact ih hi
    · exact hi

end

theorem sound_step {e : Evaluation} (h : e.Sound) (i : Instr) : (e.step k strict i).1.Sound :=
  kept_step Operand.kept_sound h i

theorem valueOf_refines (hk : k.Le k') {name : String} {a a' : Operand} (h : valueOf k name = .ok a)
    (h' : valueOf k' name = .ok a') : a.Refines a' := by
  unfold valueOf at h
  cases hn : k name with
  | none =>
    rw [hn] at h
    cases h
    exact Operand.refines_unknown _ _
  | some v =>
    unfold valueOf at h'
    rw [hk name v hn] at h'
    rw [hn] at h
    rw [h] at h'
    cases h'
    exact fun _ => rfl

theorem step_refines (hk : k.Le k') (hs : strict' = true → strict = true) {e e' : Evaluation} (he : e.Sound)
    (h : e.Refines e') {i : Instr} (hi : (e.step k strict i).2 = none) (hi' : (e'.step k' strict' i).2 = none) :
    (e.step k strict i).1.Refines (e'.step k' strict' i).1 := by
  cases i with
  | numeral ds => exact ⟨.cons (fun _ => rfl) h.stack, h.constant⟩
  | enter | leave => exact h
  | mention name => exact ⟨h.stack, h.constant⟩
  | defined name =>
    refine ⟨.cons ?_ h.stack, rfl⟩
    cases name with
    | none => exact Operand.refines_unknown _ _
    | some name =>
      simp only [definedness]
      cases hn : k name with
      | none => exact Operand.refines_unknown _ _
      | some v =>
        rw [hk name v hn]
        exact fun _ => rfl
  | load name lex =>
    simp only [step] at hi hi' ⊢
    cases hv : valueOf k name with
    | error f => rw [hv] at hi; cases hi
    | ok a =>
      cases hv' : valueOf k' name with
      | error f => rw [hv'] at hi'; cases hi'
      | ok a' => exact ⟨.cons (valueOf_refines hk hv hv') h.stack, rfl⟩
  | unary op =>
    simp only [step] at hi hi' ⊢
    have hst := h.stack
    cases hse : e.stack with
    | nil =>
      rw [hse] at hst
      rw [List.forall₂_nil_left_iff.mp hst]
      exact h
    | cons a st =>
      rw [hse] at hst
      obtain ⟨a', st', ha, hst, hse'⟩ := List.forall₂_cons_left_iff.mp hst
      rw [hse']
      exact ⟨.cons (op.refines_apply ha) hst, h.constant⟩
  | binary op lex =>
    simp only [step] at hi hi' ⊢
    have hrel := h.stack
    generalize hst : e.stack = st at hrel hi ⊢
    generalize hst' : e'.stack = st' at hrel hi' ⊢
    cases hrel with
    | nil => exact h
    | @cons b b' _ _ hb hrel =>
      cases hrel with
      | nil => exact h
      | @cons a a' _ _ ha hrel =>
        -- Both operators have a result; soundness tells what a known operand stands for.
        simp only at hi hi' ⊢
        split at hi
        · rename_i c hc
          split at hi'
          · rename_i c' hc'
            have hsa : a.Sound := he a (by simp [hst])
            have hsb : b.Sound := he b (by simp [hst])
            exact ⟨.cons (BinaryOp.refines_apply hs ha hb hsa hsb hc hc') hrel, h.constant⟩
          · cases hi'
        · cases hi

theorem run_refines (hk : k.Le k') (hs : strict' = true → strict = true) {code : List Instr} {e e' : Evaluation}
    (he : e.Sound) (h : e.Refines e') (hr : (e.run k strict code).2 = none)
    (hr' : (e'.run k' strict' code).2 = none) :
    (e.run k strict code).1.Refines (e'.run k' strict' code).1 := by
  induction code generalizing e e' with
  | nil => exact h
  | cons i code ih =>
    have next : ∀ {k : Knowledge} {strict : Bool} {e : Evaluation}, (e.run k strict (i :: code)).2 = none →
        (e.step k strict i).2 = none ∧ e.run k strict (i :: code) = (e.step k strict i).1.run k strict code := by
      intro k strict e hr
      cases hs : e.step k strict i with
      | mk e₁ fault =>
        cases fault with
        | none => simp [run, hs]
        | some f => simp [run, hs] at hr
    obtain ⟨hi, hrun⟩ := next hr
    obtain ⟨hi', hrun'⟩ := next hr'
    rw [hrun] at hr ⊢
    rw [hrun'] at hr' ⊢
    exact ih (sound_step he i) (step_refines hk hs he h hi hi') hr hr'

end Evaluation

theorem headD_refines {st st' : List Operand} (h : List.Forall₂ Operand.Refines st st') :
    (st.headD (.unknown 0)).Refines (st'.headD (.unknown 0)) := by
  cases h with
  | nil => exact Operand.refines_unknown _ _
  | cons ha _ => exact ha

theorem evaluate_refines {s s' : Settings} {verbatim : Bool} {k k' : Knowledge} {lx ly ly' : Lexical}
    {cs rest rest' : Chars} {a a' : Operand} (hk : k.Le k') (hs : s'.strictLogic = true → s.strictLogic = true)
    (hf : s'.forceConstantUnresolved = s.forceConstantUnresolved)
    (h : (evaluate s verbatim k lx cs).result = .ok (a, ly, rest))
    (h' : (evaluate s' verbatim k' lx cs).result = .ok (a', ly', rest')) :
    ly' = ly ∧ rest' = rest ∧ a.Refines a' := by
  obtain ⟨e, hr, hn, rfl⟩ := exists_of_evaluate h
  obtain ⟨e', hr', hn', rfl⟩ := exists_of_evaluate h'
  cases hn.symm.trans hn'
  have hempty : Evaluation.Sound {} := by simp [Evaluation.Sound]
  have hrun := Evaluation.run_refines hk hs hempty ⟨.nil, rfl⟩ (congrArg Prod.snd hr) (congrArg Prod.snd hr')
  rw [hr, hr'] at hrun
  refine ⟨rfl, rfl, ?_⟩
  rw [hf, hrun.constant]
  split
  · exact Operand.refines_unknown _ _
  · exact headD_refines hrun.stack

/-! ## Directives -/

/-- Every symbol of `t` has its first entry with the same value in `t'`. -/
def Table.Le (t t' : Table) : Prop :=
  ∀ name x, t.lookup name = some x → ∃ y, t'.lookup name = some y ∧ y.value = x.value

theorem Table.Le.append (t u : Table) : t.Le (t ++ u) := by
  intro name x hx
  refine ⟨x, ?_, rfl⟩
  simp only [Table.lookup] at hx ⊢
  rw [List.find?_append, hx]
  rfl

theorem Table.Le.knowledge {t t' : Table} (h : t.Le t') : t.knowledge.Le t'.knowledge := by
  intro name v hv
  obtain ⟨x, hx, rfl⟩ := Option.map_eq_some_iff.mp hv
  obtain ⟨y, hy, hyx⟩ := h name x hx
  exact Option.map_eq_some_iff.mpr ⟨y, hy, hyx⟩

/-- More knowledge, or logic that is no longer strict, moves the end of no condition and changes no known
result, unless the condition fails. -/
theorem evaluate_stable (s s' : Settings) (verbatim : Bool) (t t' : Table) (lx ly : Lexical) (cs rest : Chars)
    (a : Operand) (hs : s' = s ∨ s.strictLogic = true ∧ s' = { s with strictLogic := false }) (ht : t.Le t')
    (h : (evaluate s verbatim (View.knowledge s t) lx cs).result = .ok (a, ly, rest))
    (h' : ∀ halt, (evaluate s' verbatim (View.knowledge s' t') lx cs).result ≠ .error halt) :
    ∃ a', (evaluate s' verbatim (View.knowledge s' t') lx cs).result = .ok (a', ly, rest) ∧
      (a.truth ≠ .unknown → a'.truth = a.truth ∧ a'.value = a.value) := by
  obtain ⟨hlist, hstrict, hforce⟩ : s'.listing = s.listing ∧ (s'.strictLogic = true → s.strictLogic = true) ∧
      s'.forceConstantUnresolved = s.forceConstantUnresolved := by
    rcases hs with rfl | ⟨hs, rfl⟩
    · exact ⟨rfl, id, rfl⟩
    · exact ⟨rfl, fun _ => hs, rfl⟩
  have hk : (View.knowledge s t).Le (View.knowledge s' t') := by
    unfold View.knowledge
    rw [hlist]
    by_cases hl : s.listing = true
    · simp [hl, Knowledge.Le, Knowledge.none]
    · simpa [hl] using ht.knowledge
  cases hr : (evaluate s' verbatim (View.knowledge s' t') lx cs).result with
  | error halt => exact absurd hr (h' halt)
  | ok p =>
    obtain ⟨a', ly', rest'⟩ := p
    obtain ⟨rfl, rfl, href⟩ := evaluate_refines hk hstrict hforce h hr
    refine ⟨a', rfl, ?_⟩
    intro hne
    have hknown : a.isKnown = true := by simpa [Operand.isKnown] using hne
    rw [href hknown]
    exact ⟨rfl, rfl⟩

def orCondition : Condition := .binary .or (.binary .lt (.number 1) (.symbol identA)) (.symbol identB)

theorem evaluate_stable_orCondition :
    orCondition.text = "1 < A || B".toList ∧
    (evaluate {} false (View.knowledge {} [⟨"A", some "2", false⟩]) {} orCondition.text).result =
      .ok (⟨.yes, 1⟩, {}, []) ∧
    ∃ a', (evaluate {} false (View.knowledge {} [⟨"A", some "2", false⟩, ⟨"B", some "0", false⟩]) {}
        orCondition.text).result = .ok (a', {}, []) ∧ a'.truth = .yes ∧ a'.value = 1 := by
  have hle : Table.Le [⟨"A", some "2", false⟩] ([⟨"A", some "2", false⟩] ++ [⟨"B", some "0", false⟩]) := .append _ _
  have h : (evaluate {} false (View.knowledge {} [⟨"A", some "2", false⟩]) {} orCondition.text).result =
      .ok (⟨.yes, 1⟩, {}, []) := (result_text rfl ..).trans rfl
  have h' : (evaluate {} false (View.knowledge {} [⟨"A", some "2", false⟩, ⟨"B", some "0", false⟩]) {}
      orCondition.text).result = .ok (⟨.yes, 1⟩, {}, []) := (result_text rfl ..).trans rfl
  obtain ⟨a', hres, hsame⟩ := evaluate_stable {} {} false _ _ {} {} orCondition.text [] ⟨.yes, 1⟩ (.inl rfl) hle h
    (by intro halt herr; cases h'.symm.trans herr)
  exact ⟨by decide, h, a', hres, hsame (by decide)⟩

def Directive.isDecided : Directive → Bool
  | .opening x | .elif x => x ≠ .unknown
  | _ => false

def Directive.Refines (d d' : Directive) : Prop :=
  d'.untrusted = d.untrusted ∧ (d.isDecided = true → d' = d)

/-- The condition of an `#if` or `#elif` on its own line cannot be evaluated. -/
def conditionFaults (s : Settings) (t : Table) (line : Chars) : Bool :=
  match findKeyword s.passthroughText {} line with
  | .error _ => false
  | .ok (lk, w) =>
    match (afterWord? "if".toList w).or (afterWord? "elif".toList w) with
    | none => false
    | some r =>
      match (evaluate s s.passthroughText t.knowledge lk r).result with
      | .error (.fault _ _) => true
      | _ => false

section
variable {s : Settings} {t t' : Table} {v v' : View} {lk : Lexical} {w r : Chars} {j j' : Judged}

theorem testFor_refines (hle : t.Le t') (ht : t.NoneIgnored) (ht' : t'.NoneIgnored) (hs : s.listing = false)
    (negated : Bool) (name : String) (hd : (testFor s t negated name).isDecided = true) :
    testFor s t' negated name = testFor s t negated name := by
  unfold testFor at hd ⊢
  simp only [hs, Bool.false_eq_true, if_false] at hd ⊢
  cases hx : t.lookup name with
  | none => rw [hx] at hd; cases hd
  | some x =>
    obtain ⟨y, hy, hyx⟩ := hle name x hx
    have hi : x.ignored = false := ht x (List.mem_of_find?_eq_some hx)
    have hi' : y.ignored = false := ht' y (List.mem_of_find?_eq_some hy)
    simp only [hy, Symbol.isDefined, hyx, hi, hi']

theorem judgeTest_refines (hle : t.Le t') (ht : t.NoneIgnored) (ht' : t'.NoneIgnored) (hs : s.listing = false)
    (hv : v'.verbatim = v.verbatim) {negated : Bool} (h : judgeTest s t v negated lk r = .ok j)
    (h' : judgeTest s t' v' negated lk r = .ok j') (hd : j.directive.isDecided = true) :
    j'.directive = j.directive ∧ j'.lex = j.lex ∧ j'.rest = j.rest := by
  obtain ⟨ly, rest, hskip, ⟨-, rfl⟩ | ⟨hn, rfl⟩⟩ := judgeTest_eq_ok h
  · cases hd
  · obtain ⟨ly', rest', hskip', hcase⟩ := judgeTest_eq_ok h'
    rw [hv, hskip] at hskip'
    cases hskip'
    rcases hcase with ⟨hn', -⟩ | ⟨-, rfl⟩
    · exact absurd hn' hn
    · exact ⟨testFor_refines hle ht ht' hs negated _ hd, rfl, rfl⟩

theorem judgeCondition_refines (hle : t.Le t') (hs : s.listing = false) (hv : v'.verbatim = v.verbatim)
    {form : Truth → Directive} (hform : ∀ x, (form x).isDecided = true → x ≠ .unknown)
    (hf : ∀ f lf, (evaluate s v.verbatim t'.knowledge lk r).result ≠ .error (.fault f lf))
    (h : judgeCondition s t v form lk r = .ok j) (h' : judgeCondition s t' v' form lk r = .ok j')
    (hd : j.directive.isDecided = true) :
    j'.directive = j.directive ∧ j'.lex = j.lex ∧ j'.rest = j.rest := by
  have hknow : ∀ t : Table, View.knowledge s t = t.knowledge := by
    intro t
    simp [View.knowledge, hs]
  rcases judgeCondition_eq_ok h with ⟨a, ly, rest, he, rfl⟩ | ⟨_, _, -, rfl⟩
  · rcases judgeCondition_eq_ok h' with ⟨a', ly', rest', he', rfl⟩ | ⟨f, lf, he', rfl⟩
    · rw [hknow] at he he'
      rw [hv] at he'
      obtain ⟨rfl, rfl, ha⟩ := evaluate_refines hle.knowledge id rfl he he'
      have hk : a.isKnown = true := by simpa [Operand.isKnown] using hform _ hd
      exact ⟨by rw [ha hk], rfl, rfl⟩
    · rw [hknow, hv] at he'
      exact absurd he' (hf f lf)
  · exact absurd rfl (hform _ hd)

theorem judge_refines (hle : t.Le t') (ht : t.NoneIgnored) (ht' : t'.NoneIgnored) (hs : s.listing = false)
    (hv : v'.verbatim = v.verbatim)
    (hf : ∀ r, (afterWord? "if".toList w).or (afterWord? "elif".toList w) = some r →
      ∀ f lf, (evaluate s v.verbatim t'.knowledge lk r).result ≠ .error (.fault f lf))
    (h : judge s t v lk w = .ok (some j)) (h' : judge s t' v' lk w = .ok (some j'))
    (hd : j.directive.isDecided = true) :
    j'.directive = j.directive ∧ j'.lex = j.lex ∧ j'.rest = j.rest := by
  have some_map : ∀ {x : Except Broken Judged} {j : Judged}, some <$> x = .ok (some j) → x = .ok j := by
    intro x j hx
    cases x <;> cases hx
    rfl
  unfold judge at h h'
  simp only at h h'
  cases hifdef : afterWord? "ifdef".toList w with
  | some r =>
    rw [hifdef] at h h'
    exact judgeTest_refines hle ht ht' hs hv (some_map h) (some_map h') hd
  | none =>
    rw [hifdef] at h h'
    simp only at h h'
    cases hifndef : afterWord? "ifndef".toList w with
    | some r =>
      rw [hifndef] at h h'
      exact judgeTest_refines hle ht ht' hs hv (some_map h) (some_map h') hd
    | none =>
      rw [hifndef] at h h'
      simp only at h h'
      cases hif : afterWord? "if".toList w with
      | some r =>
        rw [hif] at h h' hf
        refine judgeCondition_refines hle hs hv ?_ (hf r rfl) (some_map h) (some_map h') hd
        intro x hx
        simpa [Directive.isDecided] using hx
      | none =>
        rw [hif] at h h' hf
        simp only at h h'
        cases helif : afterWord? "elif".toList w with
        | some r =>
          rw [helif] at h h' hf
          refine judgeCondition_refines hle hs hv ?_ (hf r rfl) (some_map h) (some_map h') hd
          intro x hx
          simpa [Directive.isDecided] using hx
        | none =>
          -- An `#else` or `#endif` has no condition that could be decided.
          rw [helif] at h
          simp only at h
          split at h
          · cases h
            cases hd
          · split at h
            · cases h
              cases hd
            · cases h

/-- More knowledge refines a directive, unless its condition was decided and now fails. -/
theorem Clean.refines {lx lx' lk' ly ly' : Lexical} {line w' : Chars} {d d' : Directive} (hle : t.Le t')
    (ht : t.NoneIgnored) (ht' : t'.NoneIgnored) (hs : s.listing = false) (hv : v.verbatim = s.passthroughText)
    (hv' : v'.verbatim = s.passthroughText) (hc : Clean s t v lx line d lk w j ly)
    (hc' : Clean s t' v' lx' line d' lk' w' j' ly')
    (hf : d.isDecided = true → conditionFaults s t' line = false) : d.Refines d' ∧ w' = w := by
  have hfound := hc.found
  have hfound' := hc'.found
  rw [hc.start, hv] at hfound
  rw [hc'.start, hv', hfound] at hfound'
  cases hfound'
  have hform : d'.untrusted = d.untrusted := by
    rw [untrusted_of_finish hc.finished, untrusted_of_finish hc'.finished, untrusted_of_judge hc.judged,
      untrusted_of_judge hc'.judged]
  refine ⟨⟨hform, fun hd => ?_⟩, rfl⟩
  obtain ⟨lz, rest, hskip, ⟨rfl, -, rfl⟩ | ⟨-, -, rfl⟩⟩ := finish_eq_ok_iff.mp hc.finished
  · -- The second table finds no fault in the condition, as the line is decided.
    have hnf : ∀ r, (afterWord? "if".toList w).or (afterWord? "elif".toList w) = some r →
        ∀ f lf, (evaluate s v.verbatim t'.knowledge lk r).result ≠ .error (.fault f lf) := by
      intro r hr f lf he
      have hcf := hf hd
      rw [hv] at he
      unfold conditionFaults at hcf
      rw [hfound] at hcf
      simp only at hcf
      rw [hr] at hcf
      simp only [he] at hcf
      cases hcf
    obtain ⟨hdir, hlex, hrest⟩ := judge_refines hle ht ht' hs (hv'.trans hv.symm) hnf hc.judged hc'.judged hd
    obtain ⟨lz', rest', hskip', hend⟩ := finish_eq_ok_iff.mp hc'.finished
    rw [hlex, hrest, hv', ← hv, hskip] at hskip'
    cases hskip'
    rcases hend with ⟨-, -, hd'⟩ | ⟨hne, -⟩
    · rw [hd', hdir]
    · exact absurd rfl hne
  · -- A directive with something behind it is not decided.
    cases hjd : j.directive <;> rw [hjd] at hd <;> cases hd

end

end CondResolve
