import CondResolve.Resolve
import CondResolve.Proofs.Chains
import CondResolve.Proofs.Classify

/-!
# Tables without ignored symbols

Neither a script nor the following of values makes a symbol one whose groups are not parsed.
-/

namespace CondResolve

namespace Table

theorem NoneIgnored.put {t : Table} {x : Symbol} (ht : t.NoneIgnored) (hx : x.ignored = false) :
    (t.put x).NoneIgnored := by
  induction t with
  | nil => simpa [Table.put, NoneIgnored] using hx
  | cons y t ih =>
    have hy : y.ignored = false := ht y (List.mem_cons_self ..)
    have ht' : Table.NoneIgnored t := fun z hz => ht z (List.mem_cons_of_mem _ hz)
    rw [Table.put]
    split
    · exact fun z hz => (List.mem_cons.mp hz).elim (fun h => h ▸ hx) (ht' z)
    · exact fun z hz => (List.mem_cons.mp hz).elim (fun h => h ▸ hy) (ih ht' z)

theorem NoneIgnored.settle {t : Table} (ht : t.NoneIgnored) : t.settle.1.NoneIgnored := by
  have hmap : t.settle.1.map Symbol.ignored = t.map Symbol.ignored := map_settle (fun _ _ _ => rfl) t
  intro x hx
  have hmem : x.ignored ∈ t.map Symbol.ignored := hmap ▸ List.mem_map_of_mem hx
  obtain ⟨y, hy, he⟩ := List.mem_map.1 hmem
  exact he ▸ ht y hy

end Table

namespace Script

variable {verbatim : Bool} {n : Nat} {lx lx' : Lexical} {line cs rest : Chars} {x : Symbol}

theorem ignored_of_readDefine (h : readDefine verbatim n lx line cs = .ok (x, lx', rest)) : x.ignored = false := by
  unfold readDefine at h
  obtain ⟨a, -, h⟩ := bind_eq_ok.mp h
  split at h
  · cases h
  · cases h
    rfl
  · obtain ⟨b, -, h⟩ := bind_eq_ok.mp h
    cases h
    rfl

theorem ignored_of_readUndef (h : readUndef verbatim n lx cs = .ok (x, lx', rest)) : x.ignored = false := by
  unfold readUndef at h
  obtain ⟨a, -, h⟩ := bind_eq_ok.mp h
  split at h
  · cases h
  · obtain ⟨b, -, h⟩ := bind_eq_ok.mp h
    cases h
    rfl

theorem ignored_of_readDirective (h : readDirective verbatim n lx line = .ok (some x, lx', rest)) :
    x.ignored = false := by
  unfold readDirective at h
  obtain ⟨⟨lk, w⟩, -, h⟩ := bind_eq_ok.mp h
  simp only at h
  split at h
  · cases h
  · split at h
    · cases h
    · split at h <;> obtain ⟨⟨y, ly, rest'⟩, hy, h⟩ := bind_eq_ok.mp h <;> cases h
      · exact ignored_of_readDefine hy
      · exact ignored_of_readUndef hy
      · cases hy

theorem noneIgnored_readLines {ls : List Chars} {t : Table} (ht : t.NoneIgnored) :
    (readLines verbatim n t lx ls).1.NoneIgnored := by
  induction ls generalizing n t lx with
  | nil =>
    rw [readLines]
    split <;> exact ht
  | cons line ls ih =>
    have hline : (readLine verbatim n t lx line).1.NoneIgnored := by
      unfold readLine
      split
      · exact ht
      · rename_i sym ly rest hr
        cases sym with
        | none => exact ht
        | some x => exact ht.put (ignored_of_readDirective hr)
    rw [readLines]
    split
    · rename_i hl
      rwa [hl] at hline
    · rename_i hl
      rw [hl] at hline
      exact ih hline

end Script

theorem noneIgnored_buildTable {s : Settings} {symbols : List Symbol} {script : Chars} {t : Table}
    (hs : Table.NoneIgnored symbols) (h : buildTable s symbols script = .ok t) : t.NoneIgnored := by
  unfold buildTable at h
  split at h
  · cases h
  · rename_i t' hr
    cases h
    have ht' : Table.NoneIgnored t' := by
      have hread : (Table.readScript symbols s script).1.NoneIgnored := Script.noneIgnored_readLines hs
      rwa [hr] at hread
    exact ht'.settle

end CondResolve
