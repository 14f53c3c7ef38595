import Mathlib
import CondResolve.Proofs.Chains

/-!
# Passes come to an end

Redirections can go round a cycle of names without any chain getting nearer to an end. But each takes a name off the
cycle that it is on, so a pass over a table with a cycle leaves fewer names on cycles; once there are none, all
chains have ends and get shorter. `settle_ends` says that the passes end, and `settle_follows` what they come to.
-/

namespace CondResolve.Table

open Function

/-! ## Names on cycles -/

/-- The names whose chains come back to them. -/
def cycles (t : Table) : Set String := {x | some x ∈ periodicPts t.onward}

section
variable {t : Table} {i k n : Nat} {v w x y z : String}

theorem mem_cycles : x ∈ t.cycles ↔ ∃ k > 0, t.chain x k = some x := mem_periodicPts

theorem exists_next_of_mem_cycles (h : x ∈ t.cycles) : ∃ v, t.next? x = some v := by
  obtain ⟨k, hk, hx⟩ := mem_cycles.1 h
  obtain ⟨k, rfl⟩ := Nat.exists_eq_succ_of_ne_zero (Nat.pos_iff_ne_zero.1 hk)
  rw [chain_succ] at hx
  obtain ⟨v, hv, -⟩ := Option.bind_eq_some_iff.1 hx
  exact ⟨v, hv⟩

/-- Two names on cycles that lead on to the same value are the same. -/
theorem eq_of_mem_cycles (hx : x ∈ t.cycles) (hy : y ∈ t.cycles) (h : t.next? x = t.next? y) : x = y :=
  Option.some.inj ((bijOn_periodicPts _).injOn hx hy h)

theorem exists_pred_of_mem_cycles (h : y ∈ t.cycles) : ∃ x ∈ t.cycles, t.next? x = some y := by
  obtain ⟨o, ho, hy⟩ := (bijOn_periodicPts _).surjOn h
  cases o with
  | none => cases hy
  | some x => exact ⟨x, ho, hy⟩

theorem chain_of_redirect (h : (t.redirect i).1.chain x k = some y) : ∃ n ≥ k, t.chain x n = some y := by
  induction k generalizing x with
  | zero => exact ⟨0, le_rfl, h⟩
  | succ k ih =>
    rw [chain_succ] at h
    obtain ⟨u, hu, h⟩ := Option.bind_eq_some_iff.1 h
    obtain ⟨n, hn, hchain⟩ := ih h
    rcases next?_redirect t i x with hsame | ⟨v, w, hv, hw, hpast⟩
    · exact ⟨n + 1, by omega, by simp [chain_succ, ← hsame, hu, hchain]⟩
    · obtain ⟨-, rfl⟩ : w ≠ x ∧ w = u := by simpa [hpast] using hu
      exact ⟨n + 2, by omega, by simp [chain_succ, hv, hw, hchain]⟩

theorem cycles_redirect_subset (t : Table) (i : Nat) : (t.redirect i).1.cycles ⊆ t.cycles := by
  intro x hx
  obtain ⟨k, hk, h⟩ := mem_cycles.1 hx
  obtain ⟨n, hn, h⟩ := chain_of_redirect h
  exact mem_cycles.2 ⟨n, by omega, h⟩

/-- A name on a cycle is led past its successor, which is then on no cycle any more. -/
theorem cycles_redirect_ssubset (hx : x ∈ t.cycles) (hi : t.index? x = some i) :
    (t.redirect i).1.cycles ⊂ t.cycles := by
  obtain ⟨v, hv⟩ := exists_next_of_mem_cycles hx
  have hvc : v ∈ t.cycles := by
    have hmaps : t.onward (some x) ∈ periodicPts t.onward := (bijOn_periodicPts _).mapsTo hx
    rwa [show t.onward (some x) = some v from hv] at hmaps
  obtain ⟨w, hw⟩ := exists_next_of_mem_cycles hvc
  have hne : w ≠ v := (next?_eq_some_iff.1 hw).choose_spec.2.2.2
  refine (Set.ssubset_iff_of_subset (cycles_redirect_subset t i)).2 ⟨v, hvc, fun hv' => ?_⟩
  obtain ⟨y, hy, hyv⟩ := exists_pred_of_mem_cycles hv'
  by_cases hyx : y = x
  · subst hyx
    rw [next?_redirect_first hi hv hw] at hyv
    exact hne (by grind)
  · have hiy : t.index? y ≠ some i := by
      intro hiy
      exact hyx (Option.some.inj ((name_of_index? hiy).symm.trans (name_of_index? hi)))
    rw [next?_redirect_of_ne hiy] at hyv
    exact hyx (eq_of_mem_cycles (cycles_redirect_subset t i hy) hx (hyv.trans hv.symm))

theorem cycles_redirectAll_subset (t : Table) (is : List Nat) : (t.redirectAll is).1.cycles ⊆ t.cycles := by
  induction is generalizing t with
  | nil => exact subset_rfl
  | cons i is ih => exact (ih _).trans (cycles_redirect_subset t i)

theorem cycles_redirectAll_ssubset {is : List Nat} (hx : x ∈ t.cycles) (hi : t.index? x = some i) (hmem : i ∈ is) :
    (t.redirectAll is).1.cycles ⊂ t.cycles := by
  induction is generalizing t with
  | nil => cases hmem
  | cons j is ih =>
    rcases (cycles_redirect_subset t j).eq_or_ssubset with heq | hlt
    · have hij : i ≠ j := by
        rintro rfl
        exact (cycles_redirect_ssubset hx hi).ne heq
      have hrest := ih (heq ▸ hx) ((index?_redirect t j x).trans hi) ((List.mem_cons.1 hmem).resolve_left hij)
      exact hrest.trans_eq heq
    · exact (cycles_redirectAll_subset _ is).trans_ssubset hlt

/-! ## Counting the names on cycles -/

theorem exists_index?_of_next? (h : t.next? x = some v) : ∃ i < t.length, t.index? x = some i := by
  obtain ⟨i, hi, hv, -⟩ := next?_eq_some_iff.1 h
  exact ⟨i, lt_length_of_valueAt hv, hi⟩

theorem cycles_subset_names (t : Table) : t.cycles ⊆ (t.map Symbol.name).toFinset := by
  intro x hx
  obtain ⟨v, hv⟩ := exists_next_of_mem_cycles hx
  obtain ⟨i, -, hi⟩ := exists_index?_of_next? hv
  obtain ⟨s, hs, rfl⟩ := Option.map_eq_some_iff.1 (name_of_index? hi)
  simpa using ⟨s, List.mem_of_getElem? hs, rfl⟩

theorem finite_cycles (t : Table) : t.cycles.Finite := (Finset.finite_toSet _).subset t.cycles_subset_names

theorem ncard_cycles_le (t : Table) : t.cycles.ncard ≤ t.length := by
  calc t.cycles.ncard ≤ ((t.map Symbol.name).toFinset : Set String).ncard :=
        Set.ncard_le_ncard t.cycles_subset_names (Finset.finite_toSet _)
    _ = (t.map Symbol.name).toFinset.card := Set.ncard_coe_finset _
    _ ≤ (t.map Symbol.name).length := List.toFinset_card_le _
    _ = t.length := List.length_map ..

/-- A pass leaves fewer names on cycles, if there are any. -/
theorem ncard_cycles_pass (t : Table) : t.pass.1.cycles.ncard ≤ t.cycles.ncard - 1 := by
  rcases t.cycles.eq_empty_or_nonempty with hempty | ⟨x, hx⟩
  · have hsub : t.pass.1.cycles ⊆ t.cycles := cycles_redirectAll_subset t _
    rw [hempty, Set.subset_empty_iff] at hsub
    simp [hsub]
  · obtain ⟨v, hv⟩ := exists_next_of_mem_cycles hx
    obtain ⟨i, hlt, hi⟩ := exists_index?_of_next? hv
    have hless := Set.ncard_lt_ncard (cycles_redirectAll_ssubset hx hi (List.mem_range.2 hlt)) t.finite_cycles
    exact Nat.le_sub_one_of_lt hless

theorem ncard_cycles_after (t : Table) (k : Nat) : (t.after k).cycles.ncard ≤ t.cycles.ncard - k := by
  induction k generalizing t with
  | zero => exact le_rfl
  | succ k ih =>
    have hpass := t.ncard_cycles_pass
    have hrest := ih t.pass.1
    rw [after_succ]
    omega

theorem cycles_after_length (t : Table) : (t.after t.length).cycles = ∅ := by
  rw [← Set.ncard_eq_zero (finite_cycles _)]
  have hle := t.ncard_cycles_after t.length
  have hlen := t.ncard_cycles_le
  omega

/-! ## Chains without cycles -/

theorem chain_add (t : Table) (v : String) (k n : Nat) : t.chain v (k + n) = (t.chain v k).bind (t.chain · n) := by
  induction k generalizing v with
  | zero => simp
  | succ k ih =>
    rw [Nat.add_right_comm, chain_succ, chain_succ, Option.bind_assoc]
    simp only [ih]

theorem exists_chain_of_not_ends (h : ∀ n < k, ¬ ∃ z, t.EndsAt v n z) : ∃ y, t.chain v k = some y := by
  induction k with
  | zero => exact ⟨v, rfl⟩
  | succ k ih =>
    obtain ⟨y, hy⟩ := ih fun n hn => h n (by omega)
    cases hu : t.next? y with
    | none => exact absurd ⟨y, hy, hu⟩ (h k (Nat.lt_succ_self k))
    | some u => exact ⟨u, by rw [chain_add, hy]; simp [chain_succ, hu]⟩

theorem mem_cycles_of_chain (hkn : k < n) (hk : t.chain v k = some x) (hn : t.chain v n = some x) :
    x ∈ t.cycles := by
  refine mem_cycles.2 ⟨n - k, by omega, ?_⟩
  rwa [← Nat.add_sub_of_le hkn.le, chain_add, hk] at hn

/-- A chain that is longer than the table comes to a name twice. -/
theorem exists_endsAt (h : t.cycles = ∅) (v : String) : ∃ k ≤ t.length, ∃ z, t.EndsAt v k z := by
  by_contra hno
  have hno : ∀ k < t.length + 1, ¬ ∃ z, t.EndsAt v k z := fun k hk hz => hno ⟨k, by omega, hz⟩
  have hentry : ∀ k ∈ Finset.range (t.length + 1),
      ∃ i ∈ Finset.range t.length, t.chain v k = t[i]?.map Symbol.name := by
    intro k hk
    have hk := Finset.mem_range.1 hk
    obtain ⟨y, hy⟩ := exists_chain_of_not_ends fun n (hn : n < k) => hno n (by omega)
    cases hu : t.next? y with
    | none => exact absurd ⟨y, hy, hu⟩ (hno k hk)
    | some u =>
      obtain ⟨i, hlt, hi⟩ := exists_index?_of_next? hu
      exact ⟨i, Finset.mem_range.2 hlt, hy.trans (name_of_index? hi).symm⟩
  choose! f hf hname using hentry
  obtain ⟨a, ha, b, hb, hne, heq⟩ :=
    Finset.exists_ne_map_eq_of_card_lt_of_maps_to (by simp) fun k hk => Finset.mem_coe.2 (hf k hk)
  have hsame : t.chain v a = t.chain v b := by rw [hname a ha, hname b hb, heq]
  obtain ⟨x, hx⟩ := exists_chain_of_not_ends fun n (hn : n < a) => hno n (by have := Finset.mem_range.1 ha; omega)
  have hcycle : x ∈ t.cycles := by
    rcases Nat.lt_or_gt_of_ne hne with hab | hba
    · exact mem_cycles_of_chain hab hx (hsame ▸ hx)
    · exact mem_cycles_of_chain hba (hsame ▸ hx) hx
  simp [h] at hcycle

/-! ## The end of the passes -/

theorem length_after (t : Table) (k : Nat) : (t.after k).length = t.length := by
  have hnames := map_after (f := Symbol.name) (fun _ _ _ => rfl) t k
  simpa using congrArg List.length hnames

theorem isSome_valueAt_after (t : Table) (k i : Nat) : ((t.after k).valueAt i).isSome = (t.valueAt i).isSome := by
  have hdefined := map_after (f := Symbol.isDefined) (by simp [Symbol.isDefined]) t k
  have hvalue : ∀ u : Table, (u.valueAt i).isSome = (u.map Symbol.isDefined)[i]?.getD false := by
    intro u
    cases hs : u[i]? <;> simp [valueAt, Symbol.isDefined, hs]
  rw [hvalue, hvalue, hdefined]

/-- Twice as many passes as entries leave nothing to redirect. -/
theorem pass_after (h : 2 * t.length ≤ k) : (t.after k).pass.2 = 0 := by
  refine pass_of_reaches fun i v hv => ?_
  obtain ⟨n, rfl⟩ := Nat.exists_eq_add_of_le (Nat.le_trans (Nat.le_mul_of_pos_left _ Nat.two_pos) h)
  rw [after_add] at hv ⊢
  have hsome := isSome_valueAt_after (t.after t.length) n i
  rw [hv] at hsome
  obtain ⟨u, hu⟩ := Option.isSome_iff_exists.1 hsome.symm
  obtain ⟨m, hm, z, hend⟩ := exists_endsAt t.cycles_after_length u
  rw [length_after] at hm
  -- After so many passes there are no cycles left, so the chain of every value has an end.
  have hreach : (t.after t.length).Reaches i n z := ⟨u, hu, m, by omega, hend⟩
  exact ⟨z, by simpa using hreach.after n⟩

/-- Passes are repeated up to the first that redirects nothing. -/
theorem passes_eq (hk : ∀ j < k, (t.after j).pass.2 ≠ 0) (hend : (t.after k).pass.2 = 0) (hn : k ≤ n) :
    t.passes n = (t.after k, ∑ j ∈ Finset.range k, (t.after j).pass.2) := by
  induction k generalizing t n with
  | zero => exact passes_of_eq_zero hend n
  | succ k ih =>
    cases n with
    | zero => omega
    | succ n =>
      have hfirst : t.pass.2 ≠ 0 := hk 0 (by omega)
      have hrest := ih (t := t.pass.1) (fun j hj => hk (j + 1) (by omega)) hend (Nat.le_of_succ_le_succ hn)
      rw [passes_succ hfirst, hrest, Finset.sum_range_succ', Nat.add_comm]
      rfl

end

/-- Whatever the table, some pass is the first that redirects nothing, and settling stops there. -/
theorem settle_ends (t : Table) : ∃ k ≤ 2 * t.length, (t.after k).pass.2 = 0 ∧ (∀ j < k, (t.after j).pass.2 ≠ 0) ∧
    t.settle = (t.after k, ∑ j ∈ Finset.range k, (t.after j).pass.2) := by
  classical
  have hlast : (t.after (2 * t.length)).pass.2 = 0 := pass_after le_rfl
  have hex : ∃ k, (t.after k).pass.2 = 0 := ⟨_, hlast⟩
  have hle : Nat.find hex ≤ 2 * t.length := Nat.find_min' hex hlast
  have hmin : ∀ j < Nat.find hex, (t.after j).pass.2 ≠ 0 := fun j hj => Nat.find_min hex hj
  exact ⟨_, hle, Nat.find_spec hex, hmin, passes_eq hmin (Nat.find_spec hex) (by omega)⟩

/-! ## What values come to -/

/-- The entry without its value, but for whether it has one. -/
def frame (s : Symbol) : String × Bool × Bool := (s.name, s.ignored, s.isDefined)

section
variable {t t' : Table} {i k : Nat} {v z : String} {s : Symbol}

theorem map_frame_settle (t : Table) : t.settle.1.map frame = t.map frame :=
  map_settle (by simp [frame, Symbol.isDefined]) t

theorem pass_settle (t : Table) : t.settle.1.pass.2 = 0 := by
  rw [settle_fst]
  exact pass_after (by omega)

theorem Reaches.valueAt (h : t.Reaches i k z) (ht : t.pass.2 = 0) : t.valueAt i = some z := by
  obtain ⟨v, hv, n, -, hend⟩ := h
  have hnone : t.redirect? i = none :=
    redirectAll_eq_zero_iff.1 ht i (List.mem_range.2 (lt_length_of_valueAt hv))
  rw [redirect?_eq, hv, Option.bind_some] at hnone
  obtain ⟨-, rfl⟩ := hend.unique (endsAt_zero.2 ⟨rfl, hnone⟩)
  exact hv

theorem getElem?_settle (hs : t[i]? = some s) (hv : s.value = some v) (hend : t.EndsAt v k z) :
    t.settle.1[i]? = some { s with value := some z } := by
  have hreach : t.Reaches i k z := ⟨v, by simp [Table.valueAt, hs, hv], k, le_rfl, hend⟩
  have hvalue : t.settle.1.valueAt i = some z := by
    have hafter := hreach.after (2 * t.length + 1)
    rw [← settle_fst] at hafter
    exact hafter.valueAt t.pass_settle
  obtain ⟨s', hs', hz⟩ := Option.bind_eq_some_iff.1 hvalue
  have hframe : frame s' = frame s := by
    have hmap := congrArg (·[i]?) t.map_frame_settle
    simpa [hs, hs'] using hmap
  obtain ⟨name, value, ignored⟩ := s'
  simp_all [frame]

theorem next?_congr (h : ∀ name, t'.lookup name = t.lookup name) : t'.next? = t.next? := by
  funext x
  simp only [next?, h]

theorem EndsAt.congr (hend : t.EndsAt v k z) (h : ∀ name, t'.lookup name = t.lookup name) : t'.EndsAt v k z := by
  have honward : t'.onward = t.onward := funext fun o => by rw [onward, onward, next?_congr h]
  rwa [EndsAt, chain, honward, next?_congr h]

end

/-- Settling leaves the entries as they are but for the values of defined ones, and a second time changes nothing. A
value whose chain has an end comes to that end, wherever its entry stands in a table with the same first entries. -/
theorem settle_follows (t : Table) :
    t.settle.1.map frame = t.map frame ∧ t.settle.1.settle = (t.settle.1, 0) ∧
      ∀ (i : Nat) (s : Symbol) v k z, t[i]? = some s → s.value = some v → t.chain v k = some z → t.next? z = none →
        t.settle.1[i]? = some { s with value := some z } ∧
          ∀ (t' : Table) (j : Nat), (∀ name, t'.lookup name = t.lookup name) → t'[j]? = some s →
            t'.settle.1[j]? = some { s with value := some z } := by
  refine ⟨t.map_frame_settle, passes_of_eq_zero t.pass_settle _, fun i s v k z hs hv hchain hnone => ?_⟩
  have hend : t.EndsAt v k z := ⟨hchain, hnone⟩
  exact ⟨getElem?_settle hs hv hend, fun t' j hlookup hs' => getElem?_settle hs' hv (hend.congr hlookup)⟩

def links : Table :=
  [⟨"A", some "B", false⟩, ⟨"B", some "C", true⟩, ⟨"U", none, false⟩, ⟨"C", some "42", false⟩,
    ⟨"B", some "U", false⟩]

def movedLinks : Table :=
  [⟨"U", none, false⟩, ⟨"C", some "42", false⟩, ⟨"B", some "C", true⟩, ⟨"B", some "U", false⟩,
    ⟨"A", some "B", false⟩]

theorem settle_follows_links :
    links[0]? = some ⟨"A", some "B", false⟩ ∧ links.chain "B" 2 = some "42" ∧ links.next? "42" = none ∧
      (∀ name, movedLinks.lookup name = links.lookup name) ∧ movedLinks[4]? = some ⟨"A", some "B", false⟩ ∧
      links.settle.1[0]? = some ⟨"A", some "42", false⟩ ∧
      movedLinks.settle.1[4]? = some ⟨"A", some "42", false⟩ := by
  have hchain : links.chain "B" 2 = some "42" := by decide +kernel
  have hnone : links.next? "42" = none := by decide +kernel
  have hlookup : ∀ name, movedLinks.lookup name = links.lookup name := by
    intro name
    simp only [lookup, movedLinks, links, List.find?_cons]
    grind
  obtain ⟨hfirst, hmoved⟩ := (settle_follows links).2.2 0 ⟨"A", some "B", false⟩ "B" 2 "42" rfl rfl hchain hnone
  exact ⟨rfl, hchain, hnone, hlookup, rfl, hfirst, hmoved movedLinks 4 hlookup rfl⟩

/-- On a cycle there is no end, and the order of the entries tells. -/
example :
    settle [⟨"A", some "B", false⟩, ⟨"B", some "A", false⟩] =
        ([⟨"A", some "A", false⟩, ⟨"B", some "A", false⟩], 1) ∧
      settle [⟨"B", some "A", false⟩, ⟨"A", some "B", false⟩] =
        ([⟨"B", some "B", false⟩, ⟨"A", some "B", false⟩], 1) := by
  decide +kernel

end CondResolve.Table
