import CondResolve.Expr.Demand

/-!
# Demands and limits

A host that is not asked for more than it allows gives what a host without limits gives; one that is refuses the
first such demand. What a run asks for is the beginning of what its code lists.
-/

namespace CondResolve

namespace Limits

variable {α : Type} {lim : Limits} {ds : List Demand} {d : Demand} {x : α}

theorem allows_lifted (d : Demand) : Limits.allows {} d = true := by cases d <;> rfl

theorem impose_of_allows (h : ∀ d ∈ ds, lim.allows d = true) : lim.impose ds x = .ok x := by
  have hnone : ds.find? (!lim.allows ·) = none := List.find?_eq_none.2 fun d hd => by simp [h d hd]
  simp only [impose, hnone]

theorem impose_lifted : Limits.impose {} ds x = .ok x := impose_of_allows fun d _ => allows_lifted d

theorem refused_of_impose (h : lim.impose ds x = .error d) : d ∈ ds ∧ lim.allows d = false := by
  unfold impose at h
  split at h
  · rename_i d' hd
    cases h
    exact ⟨List.mem_of_find?_eq_some hd, by simpa using List.find?_some hd⟩
  · cases h

/-- Work is refused or goes on as if there were no limits. -/
theorem impose_cases (lim : Limits) (ds : List Demand) (x : α) :
    lim.impose ds x = .ok x ∨ ∃ d ∈ ds, lim.allows d = false ∧ lim.impose ds x = .error d := by
  cases h : lim.impose ds x with
  | error d =>
    obtain ⟨hd, hrefused⟩ := refused_of_impose h
    exact .inr ⟨d, hd, hrefused, rfl⟩
  | ok y =>
    unfold impose at h
    split at h <;> cases h
    exact .inl rfl

theorem impose_cons (h : lim.allows d = false) : lim.impose (d :: ds) x = .error d := by simp [impose, h]

theorem impose_of_mem (hd : d ∈ ds) (h : lim.allows d = false) : ∃ d', lim.impose ds x = .error d' := by
  rcases lim.impose_cases ds x with hok | ⟨d', -, -, herror⟩
  · unfold impose at hok
    split at hok
    · cases hok
    · rename_i hnone
      exact absurd (by simp [h]) (List.find?_eq_none.1 hnone d hd)
  · exact ⟨d', herror⟩

end Limits

/-! ## Demands of code -/

/-- What code lists, whether or not a run comes to it. -/
def asked (k : Knowledge) (deep : Nat) : List Instr → List Demand
  | [] => []
  | i :: code => (i.demand? k deep).toList ++ asked k (i.depth deep) code

section
variable {k : Knowledge} {strict : Bool} {e : Evaluation} {deep : Nat} {code p q : List Instr}

/-- A run asks for what its code lists up to where it ends. -/
theorem demands_starts_asked : e.demands k strict deep code <+: asked k deep code := by
  induction code generalizing e deep with
  | nil => exact List.prefix_rfl
  | cons i code ih =>
    rw [Evaluation.demands, asked]
    refine (List.prefix_append_right_inj _).2 ?_
    split
    · exact ih
    · exact List.nil_prefix

/-- More code asks for more. -/
theorem demands_starts_demands (h : p <+: q) : e.demands k strict deep p <+: e.demands k strict deep q := by
  induction p generalizing q e deep with
  | nil => exact List.nil_prefix
  | cons i p ih =>
    obtain ⟨u, rfl⟩ := h
    rw [List.cons_append, Evaluation.demands, Evaluation.demands]
    refine (List.prefix_append_right_inj _).2 ?_
    split
    · exact ih (List.prefix_append ..)
    · exact List.prefix_rfl

theorem asked_append : asked k deep (p ++ q) = asked k deep p ++ asked k (p.foldl Instr.depth deep) q := by
  induction p generalizing deep with
  | nil => rfl
  | cons i p ih => rw [List.cons_append, asked, asked, ih, List.foldl_cons, List.append_assoc]

/-- Code that is read some calls further down asks for these calls first, and comes back up. -/
theorem asked_nested {calls : Nat} (h : p.foldl Instr.depth (deep + calls) = deep + calls) :
    asked k deep (.enter calls :: p ++ [.leave calls]) = .nesting (deep + calls) :: asked k (deep + calls) p ∧
      (Instr.enter calls :: p ++ [Instr.leave calls]).foldl Instr.depth deep = deep := by
  have henter : Instr.depth deep (.enter calls) = deep + calls := rfl
  have hleave : Instr.depth (deep + calls) (.leave calls) = deep := Nat.add_sub_cancel ..
  constructor
  · rw [List.cons_append, asked, asked_append, henter, h]
    simp [asked, Instr.demand?]
  · rw [List.cons_append, List.foldl_cons, List.foldl_append, henter, h, List.foldl_cons, hleave, List.foldl_nil]

end

end CondResolve
