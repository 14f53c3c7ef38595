import CondResolve.Disk
import Mathlib.Data.List.Basic

/-! # Normal paths and the places they lead to

A normal path from the root is some slashes and the names on the way. On a disk without links such a
path leads to the place with these names if it leads anywhere, so that two of them with as many slashes
lead to one place only if they are equal. -/

namespace CondResolve

/-! ## Splitting what was joined -/

theorem not_mem_of_mem_splitOn {sep : Char} {cs p : Chars} (h : p ∈ splitOn sep cs) : sep ∉ p := by
  induction cs generalizing p with
  | nil => simp_all [splitOn]
  | cons c cs ih =>
    rw [splitOn] at h
    split at h
    · rcases List.mem_cons.1 h with rfl | h
      · simp
      · exact ih h
    · rename_i hc
      obtain ⟨q, qs, hq⟩ := List.exists_cons_of_ne_nil (splitOn_ne_nil sep cs)
      rw [hq] at h ih
      rcases List.mem_cons.1 h with rfl | h
      · simpa [Ne.symm hc] using ih (List.mem_cons_self ..)
      · exact ih (List.mem_cons_of_mem _ h)

theorem splitOn_of_not_mem {sep : Char} {cs : Chars} (h : sep ∉ cs) : splitOn sep cs = [cs] := by
  induction cs with
  | nil => rfl
  | cons c cs ih =>
    simp only [List.mem_cons, not_or] at h
    rw [splitOn, if_neg (Ne.symm h.1), ih h.2]

theorem splitOn_append (sep : Char) (a b : Chars) :
    splitOn sep (a ++ sep :: b) = splitOn sep a ++ splitOn sep b := by
  induction a with
  | nil => simp [splitOn]
  | cons c a ih =>
    simp only [List.cons_append, splitOn]
    split
    · rw [ih, List.cons_append]
    · obtain ⟨q, qs, hq⟩ := List.exists_cons_of_ne_nil (splitOn_ne_nil sep a)
      rw [ih, hq]
      rfl

theorem joinWith_cons {sep : Char} {p : Chars} {ps : List Chars} (h : ps ≠ []) :
    joinWith sep (p :: ps) = p ++ sep :: joinWith sep ps := by
  obtain ⟨q, qs, rfl⟩ := List.exists_cons_of_ne_nil h
  rfl

theorem splitOn_joinWith {sep : Char} {ps : List Chars} (hne : ps ≠ []) (h : ∀ p ∈ ps, sep ∉ p) :
    splitOn sep (joinWith sep ps) = ps := by
  induction ps with
  | nil => exact absurd rfl hne
  | cons p ps ih =>
    simp only [List.mem_cons, forall_eq_or_imp] at h
    by_cases hps : ps = []
    · subst hps
      exact splitOn_of_not_mem h.1
    · rw [joinWith_cons hps, splitOn_append, splitOn_of_not_mem h.1, ih hps h.2]
      rfl

theorem mem_joinWith {sep c : Char} {ps : List Chars} (hc : c ≠ sep) :
    c ∈ joinWith sep ps ↔ ∃ p ∈ ps, c ∈ p := by
  induction ps with
  | nil => simp [joinWith]
  | cons p ps ih =>
    by_cases hps : ps = []
    · subst hps
      simp [joinWith]
    · rw [joinWith_cons hps]
      simp [hc, ih]

namespace Path

/-! ## Names -/

structure ProperName (name : String) : Prop where
  ne_empty : name ≠ ""
  ne_dot : name ≠ "."
  ne_dots : name ≠ ".."
  no_slash : '/' ∉ name.toList

instance (name : String) : Decidable (ProperName name) :=
  decidable_of_iff (name ≠ "" ∧ name ≠ "." ∧ name ≠ ".." ∧ '/' ∉ name.toList)
    ⟨fun ⟨h₁, h₂, h₃, h₄⟩ => ⟨h₁, h₂, h₃, h₄⟩, fun h => ⟨h.ne_empty, h.ne_dot, h.ne_dots, h.no_slash⟩⟩

def ProperNames (ps : List String) : Prop := ∀ name ∈ ps, ProperName name

instance (ps : List String) : Decidable (ProperNames ps) :=
  inferInstanceAs (Decidable (∀ name ∈ ps, ProperName name))

variable {k : Nat} {ps : List String} {name path : String}

theorem ProperNames.append_singleton (h : ProperNames ps) (hn : ProperName name) :
    ProperNames (ps ++ [name]) := by
  intro x hx
  rcases List.mem_append.1 hx with hx | hx
  · exact h x hx
  · rw [List.mem_singleton.1 hx]
    exact hn

theorem parts_of_proper (h : ProperName name) : parts name = [name] := by
  simp [parts, splitOn_of_not_mem h.no_slash]

theorem pushPart_proper (h : ProperName name) (st : List String) :
    pushPart true st name = name :: st := by
  simp [pushPart, h.ne_empty, h.ne_dot, h.ne_dots]

theorem foldl_pushPart_proper (h : ProperNames ps) (st : List String) :
    ps.foldl (pushPart true) st = ps.reverse ++ st := by
  induction ps generalizing st with
  | nil => rfl
  | cons p ps ih =>
    rw [List.foldl_cons, pushPart_proper (h p (List.mem_cons_self ..)),
      ih fun q hq => h q (List.mem_cons_of_mem _ hq)]
    simp

theorem properNames_pushPart {st : List String} (h : ProperNames st) (hp : '/' ∉ name.toList) :
    ProperNames (pushPart true st name) := by
  unfold pushPart
  split
  · exact h
  · rename_i hn
    simp only [not_or] at hn
    split
    · intro x hx
      rcases List.mem_cons.1 hx with rfl | hx
      · exact ⟨hn.1, hn.2, ‹_›, hp⟩
      · exact h x hx
    · split
      · exact h
      · rename_i top below
        have htop := h top (List.mem_cons_self ..)
        rw [if_neg htop.ne_dots]
        exact fun x hx => h x (List.mem_cons_of_mem _ hx)

theorem properNames_foldl {qs st : List String} (h : ProperNames st)
    (hq : ∀ q ∈ qs, '/' ∉ q.toList) : ProperNames (qs.foldl (pushPart true) st) := by
  induction qs generalizing st with
  | nil => exact h
  | cons q qs ih =>
    exact ih (properNames_pushPart h (hq q (List.mem_cons_self ..)))
      fun x hx => hq x (List.mem_cons_of_mem _ hx)

theorem not_mem_of_mem_parts {q : String} (h : q ∈ parts path) : '/' ∉ q.toList := by
  obtain ⟨cs, hcs, rfl⟩ := List.mem_map.1 h
  simpa using not_mem_of_mem_splitOn hcs

/-! ## Paths from the root -/

/-- The normal path with `k` slashes in front to the names `ps`. -/
def rooted (k : Nat) (ps : List String) : String :=
  String.ofList (List.replicate k '/') ++ ofParts ps

def Rooted (k : Nat) (path : String) : Prop := ∃ ps, ProperNames ps ∧ path = rooted k ps

def stem (ps : List String) : Chars := ps.flatMap fun name => name.toList ++ ['/']

theorem joinWith_append_singleton (ps : List Chars) (p : Chars) :
    joinWith '/' (ps ++ [p]) = ps.flatMap (· ++ ['/']) ++ p := by
  induction ps with
  | nil => rfl
  | cons q qs ih =>
    have hne : qs ++ [p] ≠ [] := by simp
    obtain ⟨x, xs, hx⟩ := List.exists_cons_of_ne_nil hne
    rw [List.cons_append, List.flatMap_cons, hx]
    rw [hx] at ih
    simp [joinWith, ih]

theorem toList_rooted_append (k : Nat) (ps : List String) (name : String) :
    (rooted k (ps ++ [name])).toList = List.replicate k '/' ++ (stem ps ++ name.toList) := by
  simp [rooted, ofParts, joinWith_append_singleton, stem, List.flatMap_map]

theorem toList_rooted_nil (k : Nat) : (rooted k []).toList = List.replicate k '/' := by
  simp [rooted, ofParts, joinWith]

theorem splitOn_stem (h : ProperNames ps) (cs : Chars) :
    splitOn '/' (stem ps ++ cs) = ps.map String.toList ++ splitOn '/' cs := by
  induction ps with
  | nil => rfl
  | cons p ps ih =>
    have hp := (h p (List.mem_cons_self ..)).no_slash
    have hps := ih fun q hq => h q (List.mem_cons_of_mem _ hq)
    calc splitOn '/' (stem (p :: ps) ++ cs)
        = splitOn '/' (p.toList ++ '/' :: (stem ps ++ cs)) := by simp [stem]
      _ = splitOn '/' p.toList ++ splitOn '/' (stem ps ++ cs) := splitOn_append ..
      _ = (p :: ps).map String.toList ++ splitOn '/' cs := by
        rw [splitOn_of_not_mem hp, hps]
        rfl

theorem splitOn_slashes (k : Nat) (cs : Chars) :
    splitOn '/' (List.replicate k '/' ++ cs) = List.replicate k [] ++ splitOn '/' cs := by
  induction k with
  | zero => rfl
  | succ k ih =>
    rw [List.replicate_succ, List.cons_append, splitOn, if_pos rfl, ih]
    rfl

theorem parts_of_toList {q : String} (h : ProperNames ps)
    (hp : path.toList = List.replicate k '/' ++ (stem ps ++ q.toList)) :
    parts path = List.replicate k "" ++ (ps ++ parts q) := by
  simp [parts, hp, splitOn_slashes, splitOn_stem h]

/-! ## Joining, normalising and going up -/

theorem stem_append_singleton (ps : List String) (name : String) :
    stem (ps ++ [name]) = stem ps ++ (name.toList ++ ['/']) := by
  simp [stem]

theorem join_of_relative {p q : String} (hq : isAbsolute q = false) :
    join p q = if p.isEmpty || p.toList.getLast? = some '/' then p ++ q else p ++ "/" ++ q := by
  simp [join, hq]

theorem toList_join_rooted {q : String} (hk : 0 < k) (h : ProperNames ps)
    (hq : isAbsolute q = false) :
    (join (rooted k ps) q).toList = List.replicate k '/' ++ (stem ps ++ q.toList) := by
  rw [join_of_relative hq]
  rcases List.eq_nil_or_concat' ps with rfl | ⟨qs, x, rfl⟩
  · have hlast : (rooted k []).toList.getLast? = some '/' := by
      rw [toList_rooted_nil, List.getLast?_replicate, if_neg (Nat.pos_iff_ne_zero.1 hk)]
    rw [if_pos (by simp [hlast]), String.toList_append, toList_rooted_nil]
    rfl
  · have hx := h x (by simp)
    have hne : x.toList ≠ [] := by simpa using hx.ne_empty
    have hlast : (rooted k (qs ++ [x])).toList.getLast? ≠ some '/' := by
      intro he
      have hmem := List.mem_of_getLast? (l := x.toList) (a := '/') (by
        rw [toList_rooted_append, ← List.append_assoc,
          List.getLast?_append_of_ne_nil _ hne] at he
        exact he)
      exact hx.no_slash hmem
    have hempty : (rooted k (qs ++ [x])).isEmpty = false := by
      rw [Bool.eq_false_iff, ne_eq, String.isEmpty_iff, ← String.toList_eq_nil_iff,
        toList_rooted_append]
      simp [hne, -String.toList_eq_nil_iff]
    rw [if_neg (by simp [hempty, hlast]), String.toList_append, String.toList_append,
      toList_rooted_append, stem_append_singleton]
    simp

theorem head?_stem_append {cs : Chars} (h : ProperNames ps) (hcs : cs.head? ≠ some '/') :
    (stem ps ++ cs).head? ≠ some '/' := by
  cases ps with
  | nil => exact hcs
  | cons p ps =>
    have hp := h p (List.mem_cons_self ..)
    obtain ⟨c, r, hc⟩ := List.exists_cons_of_ne_nil (l := p.toList) (by simpa using hp.ne_empty)
    have hne : c ≠ '/' := fun he => hp.no_slash (by simp [hc, he])
    simpa [stem, hc] using hne

theorem leading_of_toList {cs : Chars} (hk : k = 1 ∨ k = 2)
    (hp : path.toList = List.replicate k '/' ++ cs) (hcs : cs.head? ≠ some '/') :
    leading path = k := by
  unfold leading
  cases cs with
  | nil => rcases hk with rfl | rfl <;> simp [hp, List.replicate_succ]
  | cons c r =>
    have hc : c ≠ '/' := by simpa using hcs
    rw [hp]
    rcases hk with rfl | rfl
    · simp only [List.replicate_one, List.singleton_append]
      split <;> grind
    · simp only [List.replicate_succ, List.replicate_zero, List.cons_append, List.nil_append]
      split <;> grind

theorem isAbsolute_iff {p : String} : isAbsolute p = true ↔ p.toList.head? = some '/' := by
  unfold isAbsolute leading
  cases h : p.toList with
  | nil => simp
  | cons c r =>
    by_cases hc : c = '/'
    · subst hc
      split <;> simp_all
    · split <;> simp_all

theorem head?_of_relative {q : String} (hq : isAbsolute q = false) : q.toList.head? ≠ some '/' :=
  fun h => Bool.eq_false_iff.1 hq (isAbsolute_iff.2 h)

theorem isAbsolute_join {p : String} (q : String) (hp : isAbsolute p = true) : isAbsolute (join p q) = true := by
  by_cases hq : isAbsolute q = true
  · simp [join, hq]
  · obtain ⟨r, hr⟩ := List.head?_eq_some_iff.1 (isAbsolute_iff.1 hp)
    rw [isAbsolute_iff, join_of_relative (by simpa using hq)]
    split <;> simp [hr]

theorem relative_of_proper (h : ProperName name) : isAbsolute name = false := by
  rw [Bool.eq_false_iff, ne_eq, isAbsolute_iff]
  exact fun he => h.no_slash (List.mem_of_head? he)

theorem leading_join_rooted {q : String} (hk : k = 1 ∨ k = 2) (h : ProperNames ps)
    (hq : isAbsolute q = false) : leading (join (rooted k ps) q) = k :=
  leading_of_toList hk (toList_join_rooted (by omega) h hq)
    (head?_stem_append h (head?_of_relative hq))

theorem leading_le_two (p : String) : leading p ≤ 2 := by
  unfold leading
  split <;> simp

theorem normal_of_absolute {p : String} (hp : isAbsolute p = true) :
    normal p = rooted (leading p) ((parts p).foldl (pushPart true) []).reverse := by
  unfold normal
  have hne : leading p ≠ 0 := by simpa [isAbsolute] using hp
  rw [hp, if_neg]
  · rfl
  · obtain ⟨n, hn⟩ := Nat.exists_eq_succ_of_ne_zero hne
    simp [hn, List.replicate_succ]

theorem rooted_normal {p : String} (hp : isAbsolute p = true) : Rooted (leading p) (normal p) := by
  refine ⟨_, ?_, normal_of_absolute hp⟩
  intro x hx
  exact properNames_foldl (fun _ h => absurd h (List.not_mem_nil))
    (fun q hq => not_mem_of_mem_parts hq) x (List.mem_reverse.1 hx)

theorem exists_rooted_absolute {cwd : String} (p : String) (hcwd : isAbsolute cwd = true) :
    ∃ k, (k = 1 ∨ k = 2) ∧ Rooted k (absolute cwd p) := by
  have hj := isAbsolute_join p hcwd
  refine ⟨_, ?_, rooted_normal hj⟩
  have hpos : leading (join cwd p) ≠ 0 := by simpa [isAbsolute] using hj
  have := leading_le_two (join cwd p)
  omega

theorem isAbsolute_of_leading {p : String} (hk : k = 1 ∨ k = 2) (hp : leading p = k) :
    isAbsolute p = true := by
  simp only [isAbsolute, hp]
  rcases hk with rfl | rfl <;> rfl

/-- What a file names by a relative path is a path of the same kind as that of the file. -/
theorem Rooted.normal_join {q : String} (hk : k = 1 ∨ k = 2) (hp : Rooted k path)
    (hq : isAbsolute q = false) : Rooted k (normal (join path q)) := by
  obtain ⟨ps, hps, rfl⟩ := hp
  have hl := leading_join_rooted hk hps hq
  have := rooted_normal (isAbsolute_of_leading hk hl)
  rwa [hl] at this

theorem foldl_pushPart_slashes (b : Bool) (k : Nat) (st : List String) :
    (List.replicate k "").foldl (pushPart b) st = st := by
  induction k with
  | zero => rfl
  | succ k ih => simpa [List.replicate_succ, pushPart] using ih

theorem normal_join_proper (hk : k = 1 ∨ k = 2) (hps : ProperNames ps) (hn : ProperName name) :
    normal (join (rooted k ps) name) = rooted k (ps ++ [name]) := by
  have hrel := relative_of_proper hn
  have hl := leading_join_rooted hk hps hrel
  have hparts : parts (join (rooted k ps) name) = List.replicate k "" ++ (ps ++ [name]) := by
    rw [parts_of_toList hps (toList_join_rooted (by omega) hps hrel), parts_of_proper hn]
  rw [normal_of_absolute (isAbsolute_of_leading hk hl), hl, hparts, List.foldl_append,
    foldl_pushPart_slashes, foldl_pushPart_proper (hps.append_singleton hn)]
  simp

theorem dropWhile_append_of_all {p : Char → Bool} {a b : Chars} (ha : ∀ c ∈ a, p c = true)
    (hb : ∀ c, b.head? = some c → p c = false) : (a ++ b).dropWhile p = b := by
  induction a with
  | nil =>
    cases b with
    | nil => rfl
    | cons c b => simp [hb c rfl]
  | cons c a ih =>
    simp only [List.mem_cons, forall_eq_or_imp] at ha
    simp [ha.1, ih ha.2]

/-- The name is cut off with the slashes before it. -/
theorem directory_of_toList {name : String} {cs : Chars} (hn : '/' ∉ name.toList)
    (hp : path.toList = cs ++ '/' :: name.toList) :
    (directory path).toList =
      if (cs.reverse.dropWhile (· = '/')).isEmpty then cs ++ ['/']
      else (cs.reverse.dropWhile (· = '/')).reverse := by
  have hhead : (path.toList.reverse.dropWhile (· ≠ '/')).reverse = cs ++ ['/'] := by
    have : path.toList.reverse = name.toList.reverse ++ ('/' :: cs.reverse) := by simp [hp]
    rw [this, dropWhile_append_of_all]
    · simp
    · intro c hc
      simpa using fun he : c = '/' => hn (he ▸ List.mem_reverse.1 hc)
    · simp
  unfold directory
  simp only [hhead, List.reverse_append, List.reverse_singleton, List.singleton_append]
  simp

theorem directory_of_slashes {n : Nat} {name : String} (hn : '/' ∉ name.toList)
    (hp : path.toList = List.replicate (n + 1) '/' ++ name.toList) :
    directory path = rooted (n + 1) [] := by
  apply String.toList_injective
  have hcs : path.toList = List.replicate n '/' ++ '/' :: name.toList := by
    rw [hp, List.replicate_succ', List.append_assoc]
    rfl
  rw [directory_of_toList hn hcs, toList_rooted_nil, List.replicate_succ']
  simp

theorem directory_of_last {cs : Chars} {name : String} {c : Char} (hn : '/' ∉ name.toList)
    (hp : path.toList = (cs ++ [c]) ++ '/' :: name.toList) (hc : c ≠ '/') :
    directory path = String.ofList (cs ++ [c]) := by
  apply String.toList_injective
  have hcut : (cs ++ [c]).reverse.dropWhile (· = '/') = (cs ++ [c]).reverse := by
    simp [hc]
  rw [directory_of_toList hn hp, hcut]
  simp

theorem exists_last_of_proper (h : ProperName name) :
    ∃ cs c, name.toList = cs ++ [c] ∧ c ≠ '/' := by
  obtain ⟨cs, c, hc⟩ := (List.eq_nil_or_concat' name.toList).resolve_left (by simpa using h.ne_empty)
  exact ⟨cs, c, hc, fun he => h.no_slash (by simp [hc, he])⟩

theorem directory_rooted (hk : 0 < k) (h : ProperNames ps) :
    directory (rooted k ps) = rooted k ps.dropLast := by
  obtain ⟨n, rfl⟩ := Nat.exists_eq_succ_of_ne_zero (Nat.pos_iff_ne_zero.1 hk)
  rcases List.eq_nil_or_concat' ps with rfl | ⟨qs, x, rfl⟩
  · have hp : (rooted (n + 1) []).toList = List.replicate (n + 1) '/' ++ "".toList := by
      simp [toList_rooted_nil]
    exact directory_of_slashes (by simp) hp
  · have hx := h x (by simp)
    rw [List.dropLast_concat]
    rcases List.eq_nil_or_concat' qs with rfl | ⟨rs, y, rfl⟩
    · exact directory_of_slashes hx.no_slash (toList_rooted_append ..)
    · obtain ⟨cs, c, hy, hc⟩ := exists_last_of_proper (h y (by simp))
      have hdir : (rooted (n + 1) (rs ++ [y])).toList =
          (List.replicate (n + 1) '/' ++ (stem rs ++ cs)) ++ [c] := by
        simp [toList_rooted_append, hy]
      have hfile : (rooted (n + 1) (rs ++ [y] ++ [x])).toList =
          ((List.replicate (n + 1) '/' ++ (stem rs ++ cs)) ++ [c]) ++ '/' :: x.toList := by
        rw [toList_rooted_append, stem_append_singleton, hy]
        simp
      rw [directory_of_last hx.no_slash hfile hc, ← hdir, String.ofList_toList]

theorem Rooted.directory (hk : 0 < k) (hp : Rooted k path) : Rooted k (directory path) := by
  obtain ⟨ps, hps, rfl⟩ := hp
  exact ⟨_, fun x hx => hps x (List.dropLast_subset _ hx), directory_rooted hk hps⟩

theorem parts_rooted (k : Nat) (h : ProperNames ps) :
    parts (rooted k ps) = List.replicate k "" ++ (if ps = [] then [""] else ps) := by
  rcases List.eq_nil_or_concat' ps with rfl | ⟨qs, x, rfl⟩
  · have hp : (rooted k []).toList = List.replicate k '/' ++ (stem [] ++ "".toList) := by
      simp [toList_rooted_nil, stem]
    rw [parts_of_toList h hp, if_pos rfl]
    rfl
  · have hqs : ProperNames qs := fun y hy => h y (by simp [hy])
    rw [parts_of_toList hqs (toList_rooted_append ..), parts_of_proper (h x (by simp))]
    simp

theorem of_mem_parts_rooted {x : String} (h : ProperNames ps) (hx : x ∈ parts (rooted k ps)) :
    x = "" ∨ ProperName x := by
  rw [parts_rooted k h] at hx
  rcases List.mem_append.1 hx with hx | hx
  · exact .inl (List.eq_of_mem_replicate hx)
  · split at hx
    · exact .inl (List.mem_singleton.1 hx)
    · exact .inr (h x hx)

theorem isAbsolute_rooted (hk : k = 1 ∨ k = 2) (h : ProperNames ps) :
    isAbsolute (rooted k ps) = true := by
  rcases List.eq_nil_or_concat' ps with rfl | ⟨qs, x, rfl⟩
  · have hp : (rooted k []).toList = List.replicate k '/' ++ [] := by
      simp [toList_rooted_nil]
    exact isAbsolute_of_leading hk (leading_of_toList hk hp (by simp))
  · have hqs : ProperNames qs := fun y hy => h y (by simp [hy])
    have hx := head?_of_relative (relative_of_proper (h x (by simp)))
    exact isAbsolute_of_leading hk
      (leading_of_toList hk (toList_rooted_append ..) (head?_stem_append hqs hx))

end Path

/-! ## Where a path leads -/

namespace Disk

open CondResolve.Path

variable {d d' : Disk} {p q : Place} {path : String}

theorem walk_proper {ps : List String} (h : ∀ x ∈ ps, x = "" ∨ ProperName x)
    (hw : d.walk p ps = .ok q) : q = p ++ ps.filter (· ≠ "") := by
  induction ps generalizing p with
  | nil => simp_all [walk]
  | cons x ps ih =>
    have hps := fun y hy => h y (List.mem_cons_of_mem _ hy)
    rw [walk] at hw
    split at hw
    · rcases h x (List.mem_cons_self ..) with rfl | hx
      · simpa using ih hps (by simpa using hw)
      · simp only [hx.ne_empty, hx.ne_dot, hx.ne_dots, or_self, if_false] at hw
        split at hw
        · cases hw
        · simpa [hx.ne_empty] using ih hps hw
    · split at hw <;> cases hw

theorem walk_mono {ps : List String} (h : ∀ x, d.isDirAt x = true → d'.isDirAt x = true)
    (hw : d.walk p ps = .ok q) : d'.walk p ps = .ok q := by
  induction ps generalizing p with
  | nil => simpa [walk] using hw
  | cons x ps ih =>
    rw [walk] at hw ⊢
    by_cases hp : d.isDirAt p = true
    · rw [if_pos hp] at hw
      rw [if_pos (h p hp)]
      grind
    · rw [if_neg hp] at hw
      split at hw <;> cases hw

theorem locate_eq_ok_iff :
    d.locate path = .ok p ↔
      checked path = .ok () ∧ d.walk (d.start path) (Path.parts path) = .ok p := by
  unfold locate
  cases checked path <;> simp [bind, Except.bind]

/-- A normal path leads to the place with its names, on any disk. -/
theorem eq_of_locate {k : Nat} {ps : List String} (hk : k = 1 ∨ k = 2) (h : ProperNames ps)
    (hl : d.locate (rooted k ps) = .ok p) : p = ps := by
  have hw := (locate_eq_ok_iff.1 hl).2
  rw [start, isAbsolute_rooted hk h, if_pos rfl] at hw
  have hplace := walk_proper (fun x hx => of_mem_parts_rooted h hx) hw
  have hfilter : ps.filter (· ≠ "") = ps :=
    List.filter_eq_self.2 fun x hx => by simpa using (h x hx).ne_empty
  rw [hplace, parts_rooted k h, List.nil_append, List.filter_append]
  split
  · simp_all
  · rw [hfilter]
    simp

theorem eq_of_locate_of_locate {k : Nat} {path₁ path₂ : String} (hk : k = 1 ∨ k = 2)
    (h₁ : Rooted k path₁) (h₂ : Rooted k path₂) (hl₁ : d.locate path₁ = .ok p)
    (hl₂ : d'.locate path₂ = .ok p) : path₁ = path₂ := by
  obtain ⟨ps, hps, rfl⟩ := h₁
  obtain ⟨qs, hqs, rfl⟩ := h₂
  rw [← eq_of_locate hk hps hl₁, ← eq_of_locate hk hqs hl₂]

structure Widens (d d' : Disk) : Prop where
  cwd_eq : d.cwd = d'.cwd
  isDirAt_mono : ∀ x, d.isDirAt x = true → d'.isDirAt x = true

theorem Widens.refl (d : Disk) : Widens d d := ⟨rfl, fun _ => id⟩

theorem Widens.trans {d₁ d₂ d₃ : Disk} (h₁ : Widens d₁ d₂) (h₂ : Widens d₂ d₃) : Widens d₁ d₃ :=
  ⟨h₁.cwd_eq.trans h₂.cwd_eq, fun x hx => h₂.isDirAt_mono x (h₁.isDirAt_mono x hx)⟩

theorem Widens.locate (h : Widens d d') (hl : d.locate path = .ok p) : d'.locate path = .ok p := by
  rw [locate_eq_ok_iff] at hl ⊢
  have hs : d'.start path = d.start path := by simp [start, h.cwd_eq]
  rw [hs]
  exact ⟨hl.1, walk_mono h.isDirAt_mono hl.2⟩

/-! ## What an operation does to the files -/

structure Proper (d : Disk) : Prop where
  files : ∀ q, d.isFileAt q = true → ProperNames q
  dirs : ∀ q ∈ d.dirs, ProperNames q

theorem lookup_cons_eq_ite (l : List (Place × Content)) (p q : Place) (c : Content) :
    ((p, c) :: l).lookup q = if q = p then some c else l.lookup q := by
  by_cases h : q = p
  · simp [h]
  · simp [List.lookup_cons, beq_eq_false_iff_ne.2 h, h]

theorem lookup_map_replace (l : List (Place × Content)) (p q : Place) (c : Content) :
    (l.map fun (x, old) => (x, if x = p then c else old)).lookup q =
      if q = p then (l.lookup q).map (fun _ => c) else l.lookup q := by
  induction l with
  | nil => simp
  | cons e l ih =>
    obtain ⟨x, old⟩ := e
    simp only [List.map_cons, lookup_cons_eq_ite, ih]
    by_cases hx : q = x <;> by_cases hp : q = p <;> simp_all

theorem contentAt?_put (d : Disk) (p q : Place) (c : Content) :
    (d.put p c).contentAt? q = if q = p then some c else d.contentAt? q := by
  unfold put isFileAt contentAt?
  split
  · rename_i hp
    rw [lookup_map_replace]
    split
    · rename_i hq
      obtain ⟨old, hold⟩ := Option.isSome_iff_exists.1 hp
      simp [hq, hold]
    · rfl
  · rename_i hp
    simp only [Bool.not_eq_true, Option.isSome_eq_false_iff, Option.isNone_iff_eq_none] at hp
    rw [List.lookup_append, lookup_cons_eq_ite]
    by_cases hq : q = p <;> simp [hq, hp]

theorem isFileAt_of_mem (h : p ∈ d.files.map (·.1)) : d.isFileAt p = true := by
  unfold isFileAt contentAt?
  generalize d.files = l at h
  induction l with
  | nil => simp at h
  | cons e l ih =>
    obtain ⟨q, c⟩ := e
    rw [lookup_cons_eq_ite]
    by_cases hq : p = q <;> simp_all

theorem mem_of_isFileAt (h : d.isFileAt p = true) : p ∈ d.files.map (·.1) := by
  unfold isFileAt contentAt? at h
  generalize d.files = l at h
  induction l with
  | nil => simp at h
  | cons e l ih =>
    obtain ⟨q, c⟩ := e
    rw [lookup_cons_eq_ite] at h
    by_cases hq : p = q <;> simp_all

theorem proper_iff : d.Proper ↔ ∀ q ∈ d.files.map (·.1) ++ d.dirs, ProperNames q := by
  simp only [List.mem_append]
  constructor
  · intro h q hq
    exact hq.elim (fun hq => h.files q (isFileAt_of_mem hq)) (h.dirs q)
  · intro h
    exact ⟨fun q hq => h q (.inl (mem_of_isFileAt hq)), fun q hq => h q (.inr hq)⟩

instance : Decidable d.Proper := decidable_of_iff _ proper_iff.symm

theorem Proper.name {name : String} (h : d.Proper) (hn : name ∈ d.namesAt p) : ProperName name := by
  obtain ⟨q, hq, hlast⟩ := List.mem_filterMap.1 hn
  have hmem : name ∈ q := by
    split at hlast
    · rename_i x hx
      split at hlast
      · cases hlast
        exact List.mem_of_getLast? hx
      · cases hlast
    · cases hlast
  rcases List.mem_append.1 hq with hq | hq
  · exact h.files q (isFileAt_of_mem hq) name hmem
  · exact h.dirs q hq name hmem

def without (d : Disk) (p : Place) : Disk := { d with files := d.files.filter (·.1 ≠ p) }

theorem contentAt?_without (d : Disk) (p q : Place) :
    (d.without p).contentAt? q = if q = p then none else d.contentAt? q := by
  unfold without contentAt?
  induction d.files with
  | nil => simp
  | cons e l ih =>
    obtain ⟨x, old⟩ := e
    rw [List.filter_cons, lookup_cons_eq_ite]
    by_cases hx : x = p
    · simp only [hx, ne_eq, not_true_eq_false, decide_false, Bool.false_eq_true, if_false]
      rw [ih]
      grind
    · simp only [ne_eq, hx, not_false_eq_true, decide_true, if_true]
      rw [lookup_cons_eq_ite, ih]
      grind

@[simp] theorem dirs_put (d : Disk) (p : Place) (c : Content) : (d.put p c).dirs = d.dirs := by
  unfold put
  split <;> rfl

@[simp] theorem cwd_put (d : Disk) (p : Place) (c : Content) : (d.put p c).cwd = d.cwd := by
  unfold put
  split <;> rfl

theorem widens_put (d : Disk) (p : Place) (c : Content) : (d.put p c).Widens d :=
  ⟨cwd_put d p c, fun x hx => by simpa [isDirAt] using hx⟩

theorem Proper.put (h : d.Proper) (hp : ProperNames p) (c : Content) : (d.put p c).Proper := by
  refine ⟨fun q hq => ?_, fun q hq => h.dirs q (by simpa using hq)⟩
  rw [isFileAt, contentAt?_put] at hq
  split at hq
  · rename_i he
    rwa [he]
  · exact h.files q hq

@[simp] theorem dirs_without (d : Disk) (p : Place) : (d.without p).dirs = d.dirs := rfl

@[simp] theorem cwd_without (d : Disk) (p : Place) : (d.without p).cwd = d.cwd := rfl

/-- What is done with a path succeeds if the path leads to a place and it succeeds there. -/
theorem locate_bind_eq_ok {α : Type} {f : Place → Except FileError α} {a : α} :
    (d.locate path >>= f) = .ok a ↔ ∃ p, d.locate path = .ok p ∧ f p = .ok a := by
  cases d.locate path <;> simp [bind, Except.bind]

theorem read_eq_ok_iff {c : Content} :
    d.read path = .ok c ↔ ∃ p, d.locate path = .ok p ∧ d.isDirAt p = false ∧ d.contentAt? p = some c := by
  unfold read
  rw [locate_bind_eq_ok]
  refine exists_congr fun p => and_congr_right fun _ => ?_
  cases d.isDirAt p with
  | true => simp
  | false => cases d.contentAt? p <;> simp

theorem read_without {c : Content} (hl : d.locate path ≠ .ok p) (h : d.read path = .ok c) :
    (d.without p).read path = .ok c := by
  obtain ⟨q, hq, hd, hc⟩ := read_eq_ok_iff.1 h
  have hne : q ≠ p := fun he => hl (he ▸ hq)
  have hwidens : d.Widens (d.without p) := ⟨rfl, fun _ => id⟩
  exact read_eq_ok_iff.2 ⟨q, hwidens.locate hq, hd, by rw [contentAt?_without, if_neg hne, hc]⟩

theorem read_put {c c' : Content} (hl : d.locate path = .ok q) (hd : d.isDirAt q = false)
    (h : (d.put p c').contentAt? q = some c) : (d.put p c').read path = .ok c := by
  have hwidens : d.Widens (d.put p c') := ⟨(cwd_put d p c').symm, fun x hx => by simpa [isDirAt] using hx⟩
  exact read_eq_ok_iff.2 ⟨q, hwidens.locate hl, by simpa [isDirAt] using hd, h⟩

theorem isFile_of_read {c : Content} (h : d.read path = .ok c) : d.isFile path = true := by
  obtain ⟨p, hl, -, hc⟩ := read_eq_ok_iff.1 h
  simp [isFile, hl, isFileAt, hc]

theorem target_eq_ok (h : d.target path = .ok p) : d.locate path = .ok p := by
  unfold target at h
  cases hc : checked path with
  | error e => simp [hc, bind, Except.bind] at h
  | ok _ =>
    simp only [hc, bind, Except.bind] at h
    split at h
    · cases h
    · rename_i q hq
      split at h
      · cases h
      · rename_i hlen
        cases h
        simp only [Bool.or_eq_true, decide_eq_true_eq, not_or, Nat.not_lt] at hlen
        have hall : (Path.parts path).reverse.dropWhile (· = "") = (Path.parts path).reverse :=
          (List.dropWhile_suffix _).eq_of_length_le (by simpa using hlen.2)
        rw [hall, List.reverse_reverse] at hq
        exact locate_eq_ok_iff.2 ⟨hc, hq⟩

theorem write_eq_ok {text : String} (h : d.write path text = .ok d') :
    ∃ p, d.locate path = .ok p ∧ d' = d.put p (.text text) := by
  unfold write at h
  cases ht : d.target path with
  | error e => simp [ht, bind, Except.bind] at h
  | ok p =>
    simp only [ht, bind, Except.bind, pure, Except.pure, Except.ok.injEq] at h
    exact ⟨p, target_eq_ok ht, h.symm⟩

theorem remove_eq_ok (h : d.remove path = .ok d') :
    ∃ p, d.locate path = .ok p ∧ d' = d.without p := by
  unfold remove at h
  obtain ⟨p, hl, h⟩ := locate_bind_eq_ok.1 h
  split at h
  · cases h
  · split at h
    · exact ⟨p, hl, (Except.ok.inj h).symm⟩
    · cases h

theorem list_eq_ok {names : List String} (h : d.list path = .ok names) :
    ∃ p, d.locate path = .ok p ∧ d.isDirAt p = true ∧ names = d.namesAt p := by
  unfold list at h
  obtain ⟨p, hl, h⟩ := locate_bind_eq_ok.1 h
  split at h
  · exact ⟨p, hl, ‹_›, (Except.ok.inj h).symm⟩
  · split at h <;> cases h

def withoutDir (d : Disk) (p : Place) : Disk := { d with dirs := d.dirs.filter (· ≠ p) }

theorem removeDir_eq_ok (h : d.removeDir path = .ok d') : ∃ p, d.namesAt p = [] ∧ d' = d.withoutDir p := by
  unfold removeDir at h
  obtain ⟨p, -, h⟩ := locate_bind_eq_ok.1 h
  split at h
  · split at h
    · rename_i hempty
      exact ⟨p, List.isEmpty_iff.1 hempty, (Except.ok.inj h).symm⟩
    · cases h
  · split at h <;> cases h

theorem isDirAt_withoutDir {x : Place} : (d.withoutDir p).isDirAt x = true ↔ x = [] ∨ x ∈ d.dirs ∧ x ≠ p := by
  simp [isDirAt, withoutDir]

theorem widens_withoutDir (d : Disk) (p : Place) : (d.withoutDir p).Widens d := by
  refine ⟨rfl, fun x hx => ?_⟩
  rcases isDirAt_withoutDir.1 hx with rfl | hx
  · rfl
  · simp [isDirAt, hx.1]

/-! ## Files in directories that hold nothing -/

theorem mem_namesAt {name : String} (h : p ++ [name] ∈ d.files.map (·.1) ++ d.dirs) : name ∈ d.namesAt p := by
  refine List.mem_filterMap.2 ⟨p ++ [name], h, ?_⟩
  simp

theorem isDirAt_of_walk_cons {x : String} {ps : List String} (h : d.walk p (x :: ps) = .ok q) :
    d.isDirAt p = true := by
  rw [walk] at h
  split at h
  · assumption
  · split at h <;> cases h

/-- On the way to a file, each directory holds something. -/
theorem namesAt_ne_nil {ps : List String} (h : ∀ x ∈ ps, x = "" ∨ ProperName x) (hw : d.walk p ps = .ok q)
    (hp : d.isDirAt p = true) (hd : d.isDirAt q = false) (hf : d.isFileAt q = true) : d.namesAt p ≠ [] := by
  induction ps with
  | nil =>
    obtain rfl : p = q := by simpa [walk] using hw
    simp [hp] at hd
  | cons x ps ih =>
    simp only [List.mem_cons, forall_eq_or_imp] at h
    rw [walk, if_pos hp] at hw
    rcases h.1 with rfl | hx
    · exact ih h.2 (by simpa using hw)
    · rw [if_neg (by simp [hx.ne_empty, hx.ne_dot]), if_neg hx.ne_dots] at hw
      split at hw
      · cases hw
      · have hmem : p ++ [x] ∈ d.files.map (·.1) ++ d.dirs := by
          rw [List.mem_append]
          cases ps with
          | nil =>
            obtain rfl : p ++ [x] = q := by simpa [walk] using hw
            exact .inl (mem_of_isFileAt hf)
          | cons y ps => exact .inr (by simpa [isDirAt] using isDirAt_of_walk_cons hw)
        exact List.ne_nil_of_mem (mem_namesAt hmem)

theorem walk_withoutDir {x : Place} {ps : List String} (hempty : d.namesAt x = [])
    (h : ∀ y ∈ ps, y = "" ∨ ProperName y) (hw : d.walk p ps = .ok q) (hd : d.isDirAt q = false)
    (hf : d.isFileAt q = true) : (d.withoutDir x).walk p ps = .ok q := by
  induction ps generalizing p with
  | nil => simpa [walk] using hw
  | cons y ps ih =>
    have hp := isDirAt_of_walk_cons hw
    have hne : p ≠ x := by
      rintro rfl
      exact namesAt_ne_nil h hw hp hd hf hempty
    have hp' : (d.withoutDir x).isDirAt p = true := by
      rw [isDirAt_withoutDir]
      simpa [isDirAt, hne] using hp
    simp only [List.mem_cons, forall_eq_or_imp] at h
    rw [walk, if_pos hp] at hw
    rw [walk, if_pos hp']
    rcases h.1 with rfl | hy
    · exact ih h.2 hw
    · rw [if_neg (by simp [hy.ne_empty, hy.ne_dot]), if_neg hy.ne_dots] at hw ⊢
      split at hw
      · cases hw
      · rename_i hlen
        rw [if_neg hlen]
        exact ih h.2 hw

/-- A directory that holds nothing is not on the way to a file. -/
theorem read_withoutDir {k : Nat} {x : Place} {c : Content} (hr : Rooted k path) (hempty : d.namesAt x = [])
    (h : d.read path = .ok c) : (d.withoutDir x).read path = .ok c := by
  obtain ⟨p, hl, hd, hc⟩ := read_eq_ok_iff.1 h
  obtain ⟨hchecked, hw⟩ := locate_eq_ok_iff.1 hl
  obtain ⟨ps, hps, rfl⟩ := hr
  have hf : d.isFileAt p = true := by simp [isFileAt, hc]
  rw [read_eq_ok_iff]
  refine ⟨p, locate_eq_ok_iff.2 ⟨hchecked, ?_⟩, ?_, hc⟩
  · exact walk_withoutDir hempty (fun y hy => of_mem_parts_rooted hps hy) hw hd hf
  · rw [Bool.eq_false_iff] at hd ⊢
    exact fun hx => hd ((widens_withoutDir d x).isDirAt_mono p hx)

end Disk
end CondResolve
