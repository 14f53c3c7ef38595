import CondResolve.Symbol.Indirect
import Mathlib.Data.Option.Basic
import Mathlib.Logic.Function.Iterate

/-!
# Chains of values

A value leads on to the value of the first symbol that it names, unless that is the same value. The chain of a value
is what it leads to step by step. A redirection takes over the second value of a chain in place of the first, so it
shortens the chains that pass through its symbol and moves no end: `Reaches.pass` says that each pass takes a step
off every chain that has an end.
-/

namespace CondResolve.Table

def next? (t : Table) (v : String) : Option String :=
  ((t.lookup v).bind Symbol.value).filter fun w => isSymbol v.toList && w ≠ v

def onward (t : Table) (o : Option String) : Option String := o.bind t.next?

def chain (t : Table) (v : String) (k : Nat) : Option String := t.onward^[k] (some v)

def valueAt (t : Table) (i : Nat) : Option String := t[i]?.bind Symbol.value

def EndsAt (t : Table) (v : String) (k : Nat) (z : String) : Prop := t.chain v k = some z ∧ t.next? z = none

/-- The value of entry `i` is at most `k` steps before the end `z` of its chain. -/
def Reaches (t : Table) (i k : Nat) (z : String) : Prop := ∃ v, t.valueAt i = some v ∧ ∃ n ≤ k, t.EndsAt v n z

section
variable {t : Table} {i j k n : Nat} {u v w x z : String}

/-! ## What a value leads on to -/

theorem lookup_eq_bind (t : Table) (x : String) : t.lookup x = (t.index? x).bind (t[·]?) := by
  induction t with
  | nil => rfl
  | cons s t ih =>
    unfold lookup index? at *
    by_cases hs : s.name = x
    · simp [hs, List.findIdx?_cons]
    · simp [hs, List.findIdx?_cons, ih, Option.bind_map]

theorem name_of_index? (h : t.index? x = some i) : t[i]?.map Symbol.name = some x := by
  obtain ⟨hi, hx, -⟩ := List.findIdx?_eq_some_iff_getElem.1 h
  simpa [hi] using hx

theorem lookup_bind_value (t : Table) (x : String) :
    (t.lookup x).bind Symbol.value = (t.index? x).bind t.valueAt := by
  rw [lookup_eq_bind, Option.bind_assoc]
  rfl

/-- What a name leads on to stands in the first entry of the name. -/
theorem next?_eq_some_iff : t.next? x = some w ↔
    ∃ i, t.index? x = some i ∧ t.valueAt i = some w ∧ isSymbol x.toList = true ∧ w ≠ x := by
  simp only [next?, lookup_bind_value, Option.filter_eq_some_iff, Option.bind_eq_some_iff, Bool.and_eq_true,
    decide_eq_true_eq]
  grind

/-- An entry whose value is its own name takes nothing over: the value it names is that value. -/
theorem redirect?_eq (t : Table) (i : Nat) : t.redirect? i = (t.valueAt i).bind t.next? := by
  ext w
  have hvalue : ∀ j u, t.valueAt j = some u ↔ ∃ s, t[j]? = some s ∧ s.value = some u := fun j u =>
    Option.bind_eq_some_iff
  simp only [redirect?, Option.bind_eq_bind, Option.bind_eq_some_iff, next?_eq_some_iff, hvalue,
    Option.ite_none_right_eq_some, Bool.and_eq_true, decide_eq_true_eq]
  grind

/-! ## The table after a redirection -/

theorem redirect_of_none (h : t.redirect? i = none) : t.redirect i = (t, 0) := by
  simp [redirect, h]

theorem redirect_of_some (h : t.redirect? i = some w) :
    t.redirect i = (t.modify i fun s => { s with value := some w }, 1) := by
  simp [redirect, h]

/-- Only the values of defined symbols change. -/
theorem map_redirect {α : Type} {f : Symbol → α}
    (hf : ∀ s : Symbol, s.isDefined = true → ∀ w, f { s with value := some w } = f s) (t : Table) (i : Nat) :
    (t.redirect i).1.map f = t.map f := by
  cases hr : t.redirect? i with
  | none => rw [redirect_of_none hr]
  | some w =>
    rw [redirect_of_some hr]
    refine List.ext_getElem? fun j => ?_
    rw [List.getElem?_map, List.getElem?_map, List.getElem?_modify]
    by_cases hij : i = j
    · subst hij
      obtain ⟨s, hs, hr⟩ := Option.bind_eq_some_iff.1 hr
      obtain ⟨v, hv, -⟩ := Option.bind_eq_some_iff.1 hr
      simp [hs, hf s (by simp [Symbol.isDefined, hv])]
    · simp [hij]

theorem index?_eq_map (t : Table) (x : String) : t.index? x = (t.map Symbol.name).findIdx? (· = x) := by
  simp [index?, Function.comp_def]

theorem index?_redirect (t : Table) (i : Nat) (x : String) : (t.redirect i).1.index? x = t.index? x := by
  rw [index?_eq_map, index?_eq_map, map_redirect fun _ _ _ => rfl]

theorem valueAt_redirect (t : Table) (i : Nat) : (t.redirect i).1.valueAt i = (t.redirect? i).or (t.valueAt i) := by
  cases hr : t.redirect? i with
  | none => simp [redirect_of_none hr]
  | some w =>
    obtain ⟨s, hs, -⟩ := Option.bind_eq_some_iff.1 hr
    simp [redirect_of_some hr, valueAt, hs]

theorem valueAt_redirect_of_ne (h : i ≠ j) : (t.redirect i).1.valueAt j = t.valueAt j := by
  cases hr : t.redirect? i with
  | none => rw [redirect_of_none hr]
  | some w => simp [redirect_of_some hr, valueAt, h]

theorem next?_redirect_of_ne (h : t.index? x ≠ some i) : (t.redirect i).1.next? x = t.next? x := by
  ext w
  simp only [next?_eq_some_iff, index?_redirect]
  constructor
  all_goals
    rintro ⟨j, hj, hw, hx⟩
    have hij : i ≠ j := fun he => h (he ▸ hj)
    exact ⟨j, hj, by simpa [valueAt_redirect_of_ne hij] using hw, hx⟩

theorem next?_redirect_first (hi : t.index? x = some i) (hv : t.next? x = some v) (hw : t.next? v = some w) :
    (t.redirect i).1.next? x = if w = x then none else some w := by
  obtain ⟨j, hj, hval, hx, -⟩ := next?_eq_some_iff.1 hv
  obtain rfl : i = j := by simpa [hi] using hj
  have hafter : (t.redirect i).1.valueAt i = some w := by simp [valueAt_redirect, redirect?_eq, hval, hw]
  ext u
  simp only [next?_eq_some_iff, index?_redirect, hi, Option.some.injEq, exists_eq_left', hafter, hx, true_and]
  grind

/-- A redirection leads a name past what it led on to, or nowhere if it would lead back. Nothing else changes. -/
theorem next?_redirect (t : Table) (i : Nat) (x : String) : (t.redirect i).1.next? x = t.next? x ∨
    ∃ v w, t.next? x = some v ∧ t.next? v = some w ∧
      (t.redirect i).1.next? x = if w = x then none else some w := by
  by_cases hi : t.index? x = some i
  · cases hr : t.redirect? i with
    | none => exact .inl (by rw [redirect_of_none hr])
    | some w =>
      rw [redirect?_eq] at hr
      obtain ⟨v, hval, hw⟩ := Option.bind_eq_some_iff.1 hr
      cases hv : t.next? x with
      | none =>
        refine .inl (Option.eq_none_iff_forall_ne_some.2 fun u hu => ?_)
        obtain ⟨-, -, -, hx, -⟩ := next?_eq_some_iff.1 hu
        -- the entry holds its own name, so it leads to itself and takes nothing over
        have hvx : v = x := by
          by_contra hne
          simp [next?_eq_some_iff.2 ⟨i, hi, hval, hx, hne⟩] at hv
        simp [← hvx, hw] at hv
      | some v' =>
        obtain ⟨j, hj, hval', -⟩ := next?_eq_some_iff.1 hv
        obtain rfl : i = j := by simpa [hi] using hj
        obtain rfl : v = v' := by simpa [hval] using hval'
        exact .inr ⟨v, w, rfl, hw, next?_redirect_first hi hv hw⟩
  · exact .inl (next?_redirect_of_ne hi)

/-! ## Ends of chains -/

@[simp] theorem chain_zero (t : Table) (v : String) : t.chain v 0 = some v := rfl

theorem onward_none (t : Table) (k : Nat) : t.onward^[k] none = none := by
  induction k with
  | zero => rfl
  | succ k ih => simpa [Function.iterate_succ_apply, onward] using ih

theorem chain_succ (t : Table) (v : String) (k : Nat) : t.chain v (k + 1) = (t.next? v).bind (t.chain · k) := by
  rw [chain, Function.iterate_succ_apply]
  cases hu : t.next? v with
  | none => simp [onward, hu, onward_none]
  | some u => simp [onward, hu, chain]

theorem endsAt_zero : t.EndsAt v 0 z ↔ v = z ∧ t.next? z = none := by
  simp [EndsAt]

theorem endsAt_succ : t.EndsAt v (k + 1) z ↔ ∃ u, t.next? v = some u ∧ t.EndsAt u k z := by
  simp only [EndsAt, chain_succ, Option.bind_eq_some_iff]
  grind

/-- A chain has one end. -/
theorem EndsAt.unique {z' : String} (h : t.EndsAt v k z) (h' : t.EndsAt v n z') : k = n ∧ z = z' := by
  induction k generalizing v n with
  | zero =>
    obtain ⟨rfl, hnone⟩ := endsAt_zero.1 h
    cases n with
    | zero => exact ⟨rfl, (endsAt_zero.1 h').1⟩
    | succ n =>
      obtain ⟨u, hu, -⟩ := endsAt_succ.1 h'
      simp [hnone] at hu
  | succ k ih =>
    obtain ⟨u, hu, hend⟩ := endsAt_succ.1 h
    cases n with
    | zero =>
      obtain ⟨rfl, hnone⟩ := endsAt_zero.1 h'
      simp [hnone] at hu
    | succ n =>
      obtain ⟨u', hu', hend'⟩ := endsAt_succ.1 h'
      obtain rfl : u = u' := by simpa [hu] using hu'
      obtain ⟨rfl, rfl⟩ := ih hend hend'
      exact ⟨rfl, rfl⟩

/-- A redirection moves no end and makes no chain longer. -/
theorem EndsAt.redirect (h : t.EndsAt v k z) (i : Nat) : ∃ n ≤ k, (t.redirect i).1.EndsAt v n z := by
  induction k using Nat.strongRecOn generalizing v with
  | _ k ih =>
    cases k with
    | zero =>
      obtain ⟨rfl, hnone⟩ := endsAt_zero.1 h
      refine ⟨0, Nat.le_refl 0, endsAt_zero.2 ⟨rfl, ?_⟩⟩
      rcases next?_redirect t i v with hsame | ⟨u, w, hu, -⟩
      · rw [hsame, hnone]
      · simp [hnone] at hu
    | succ k =>
      obtain ⟨u, hu, hend⟩ := endsAt_succ.1 h
      rcases next?_redirect t i v with hsame | ⟨u', w, hu', hw, hpast⟩
      · obtain ⟨n, hn, hend'⟩ := ih k (by omega) hend
        exact ⟨n + 1, by omega, endsAt_succ.2 ⟨u, hsame.trans hu, hend'⟩⟩
      · obtain rfl : u = u' := by simpa [hu] using hu'
        cases k with
        | zero =>
          obtain ⟨rfl, hnone⟩ := endsAt_zero.1 hend
          simp [hnone] at hw
        | succ k =>
          obtain ⟨w', hw', hend⟩ := endsAt_succ.1 hend
          obtain rfl : w = w' := by simpa [hw] using hw'
          -- The chain does not come back to its start, or it would have two ends.
          have hne : w ≠ v := by
            rintro rfl
            have := (hend.unique h).1
            omega
          rw [if_neg hne] at hpast
          obtain ⟨n, hn, hend'⟩ := ih k (by omega) hend
          exact ⟨n + 1, by omega, endsAt_succ.2 ⟨w, hpast, hend'⟩⟩

/-! ## Passes -/

theorem Reaches.mono (h : t.Reaches i k z) (hk : k ≤ n) : t.Reaches i n z := by
  obtain ⟨v, hv, m, hm, hend⟩ := h
  exact ⟨v, hv, m, Nat.le_trans hm hk, hend⟩

/-- The entry that is redirected comes a step nearer to its end. -/
theorem Reaches.redirect_self (h : t.Reaches i k z) : (t.redirect i).1.Reaches i (k - 1) z := by
  obtain ⟨v, hv, n, hn, hend⟩ := h
  cases n with
  | zero =>
    have hnone : t.redirect? i = none := by
      obtain ⟨rfl, hnone⟩ := endsAt_zero.1 hend
      simp [redirect?_eq, hv, hnone]
    rw [redirect_of_none hnone]
    exact ⟨v, hv, 0, by omega, hend⟩
  | succ n =>
    obtain ⟨u, hu, hend⟩ := endsAt_succ.1 hend
    obtain ⟨m, hm, hend⟩ := hend.redirect i
    refine ⟨u, ?_, m, by omega, hend⟩
    simp [valueAt_redirect, redirect?_eq, hv, hu]

theorem Reaches.redirect (h : t.Reaches j k z) (i : Nat) : (t.redirect i).1.Reaches j k z := by
  by_cases hij : i = j
  · subst hij
    exact h.redirect_self.mono (Nat.sub_le k 1)
  · obtain ⟨v, hv, n, hn, hend⟩ := h
    obtain ⟨m, hm, hend⟩ := hend.redirect i
    exact ⟨v, (valueAt_redirect_of_ne hij).trans hv, m, Nat.le_trans hm hn, hend⟩

theorem Reaches.redirectAll (h : t.Reaches j k z) (is : List Nat) : (t.redirectAll is).1.Reaches j k z := by
  induction is generalizing t with
  | nil => exact h
  | cons i is ih => exact ih (h.redirect i)

theorem Reaches.redirectAll_of_mem {is : List Nat} (h : t.Reaches j k z) (hj : j ∈ is) :
    (t.redirectAll is).1.Reaches j (k - 1) z := by
  induction is generalizing t with
  | nil => cases hj
  | cons i is ih =>
    rcases List.mem_cons.1 hj with rfl | hj
    · exact h.redirect_self.redirectAll is
    · exact ih (h.redirect i) hj

theorem lt_length_of_valueAt (h : t.valueAt i = some v) : i < t.length := by
  obtain ⟨s, hs, -⟩ := Option.bind_eq_some_iff.1 h
  exact (List.getElem?_eq_some_iff.1 hs).1

theorem Reaches.pass (h : t.Reaches i k z) : t.pass.1.Reaches i (k - 1) z := by
  have ⟨v, hv, _⟩ := h
  exact h.redirectAll_of_mem (List.mem_range.2 (lt_length_of_valueAt hv))

end

/-! ## Repeated passes -/

def after (t : Table) (k : Nat) : Table := (fun t => t.pass.1)^[k] t

section
variable {t : Table} {i j k n : Nat} {v z : String}

@[simp] theorem after_zero (t : Table) : t.after 0 = t := rfl

theorem after_succ (t : Table) (k : Nat) : t.after (k + 1) = t.pass.1.after k := rfl

theorem after_add (t : Table) (k n : Nat) : t.after (k + n) = (t.after k).after n := by
  rw [after, Nat.add_comm, Function.iterate_add_apply]
  rfl

theorem Reaches.after (h : t.Reaches i k z) (n : Nat) : (t.after n).Reaches i (k - n) z := by
  induction n generalizing t k with
  | zero => exact h
  | succ n ih =>
    rw [after_succ, Nat.add_comm, ← Nat.sub_sub]
    exact ih h.pass

theorem map_redirectAll {α : Type} {f : Symbol → α}
    (hf : ∀ s : Symbol, s.isDefined = true → ∀ w, f { s with value := some w } = f s) (t : Table) (is : List Nat) :
    (t.redirectAll is).1.map f = t.map f := by
  induction is generalizing t with
  | nil => rfl
  | cons i is ih => exact (ih _).trans (map_redirect hf t i)

theorem map_after {α : Type} {f : Symbol → α}
    (hf : ∀ s : Symbol, s.isDefined = true → ∀ w, f { s with value := some w } = f s) (t : Table) (k : Nat) :
    (t.after k).map f = t.map f := by
  induction k generalizing t with
  | zero => rfl
  | succ k ih => exact (ih _).trans (map_redirectAll hf t _)

theorem redirectAll_eq_zero_iff {is : List Nat} : (t.redirectAll is).2 = 0 ↔ ∀ i ∈ is, t.redirect? i = none := by
  induction is generalizing t with
  | nil => simp [redirectAll]
  | cons i is ih =>
    show (t.redirect i).2 + ((t.redirect i).1.redirectAll is).2 = 0 ↔ _
    cases hr : t.redirect? i with
    | none => simp [redirect_of_none hr, ih, hr]
    | some w => simp [redirect_of_some hr, hr]

theorem redirectAll_of_none {is : List Nat} (h : ∀ i ∈ is, t.redirect? i = none) : t.redirectAll is = (t, 0) := by
  induction is with
  | nil => rfl
  | cons i is ih =>
    simp only [List.mem_cons, forall_eq_or_imp] at h
    simp [redirectAll, redirect_of_none h.1, ih h.2]

/-- A pass that redirects nothing leaves the table as it is. -/
theorem pass_of_eq_zero (h : t.pass.2 = 0) : t.pass = (t, 0) :=
  redirectAll_of_none (redirectAll_eq_zero_iff.1 h)

/-- Where all chains have come to their ends, a pass redirects nothing. -/
theorem pass_of_reaches (h : ∀ i v, t.valueAt i = some v → ∃ z, t.Reaches i 0 z) : t.pass.2 = 0 := by
  refine redirectAll_eq_zero_iff.2 fun i _ => ?_
  rw [redirect?_eq]
  cases hv : t.valueAt i with
  | none => rfl
  | some v =>
    obtain ⟨z, v', hv', n, hn, hend⟩ := h i v hv
    obtain rfl : v = v' := by simpa [hv] using hv'
    obtain rfl : n = 0 := by omega
    obtain ⟨rfl, hnone⟩ := endsAt_zero.1 hend
    exact hnone

/-! ## Repeated passes -/

theorem passes_of_eq_zero (h : t.pass.2 = 0) (n : Nat) : t.passes n = (t, 0) := by
  cases n with
  | zero => rfl
  | succ n => simp [passes, pass_of_eq_zero h]

theorem passes_succ (h : t.pass.2 ≠ 0) (n : Nat) :
    t.passes (n + 1) = ((t.pass.1.passes n).1, t.pass.2 + (t.pass.1.passes n).2) := by
  rw [passes]
  split
  · rename_i hp
    simp [hp] at h
  · rename_i hp
    rw [hp]

theorem passes_fst (t : Table) (n : Nat) : (t.passes n).1 = t.after n := by
  induction n generalizing t with
  | zero => rfl
  | succ n ih =>
    by_cases h : t.pass.2 = 0
    · have hsame := ih t
      rw [passes_of_eq_zero h] at hsame ⊢
      rw [after_succ, pass_of_eq_zero h]
      exact hsame
    · rw [passes_succ h, after_succ]
      exact ih _

theorem settle_fst (t : Table) : t.settle.1 = t.after (2 * t.length + 1) := t.passes_fst _

/-- Settling leaves the entries as they are but for the values of defined ones. -/
theorem map_settle {α : Type} {f : Symbol → α}
    (hf : ∀ s : Symbol, s.isDefined = true → ∀ w, f { s with value := some w } = f s) (t : Table) :
    t.settle.1.map f = t.map f := by
  rw [settle_fst]
  exact map_after hf t _

end

end CondResolve.Table
