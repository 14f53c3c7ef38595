import CondResolve.Text

/-! # Splitting, joining and searching text -/

namespace CondResolve

def splitOn (sep : Char) : Chars → List Chars
  | [] => [[]]
  | c :: cs =>
    if c = sep then [] :: splitOn sep cs
    else match splitOn sep cs with
      | [] => [[c]]
      | p :: ps => (c :: p) :: ps

def joinWith (sep : Char) : List Chars → Chars
  | [] => []
  | [p] => p
  | p :: ps => p ++ sep :: joinWith sep ps

theorem splitOn_ne_nil (sep : Char) (cs : Chars) : splitOn sep cs ≠ [] := by
  cases cs with
  | nil => simp [splitOn]
  | cons c cs =>
    rw [splitOn]
    split
    · simp
    · split <;> simp

theorem joinWith_splitOn (sep : Char) (cs : Chars) : joinWith sep (splitOn sep cs) = cs := by
  induction cs with
  | nil => rfl
  | cons c cs ih =>
    rw [splitOn]
    obtain ⟨p, ps, hp⟩ := List.exists_cons_of_ne_nil (splitOn_ne_nil sep cs)
    rw [hp] at ih ⊢
    split
    · rename_i hc
      rw [joinWith, ih, hc]
      · rfl
      · simp
    · cases ps with
      | nil => simpa [joinWith] using ih
      | cons q qs => simpa [joinWith] using ih

def cutAt? (word : Chars) : Chars → Option (Chars × Chars)
  | [] => if word.isEmpty then some ([], []) else none
  | c :: cs =>
    if word.isPrefixOf (c :: cs) then some ([], (c :: cs).drop word.length)
    else (cutAt? word cs).map fun (before, rest) => (c :: before, rest)

theorem length_of_cutAt? {word cs before rest : Chars} (h : cutAt? word cs = some (before, rest)) :
    rest.length ≤ cs.length := by
  induction cs generalizing before rest with
  | nil =>
    rw [cutAt?] at h
    split at h <;> cases h
    simp
  | cons c cs ih =>
    rw [cutAt?] at h
    split at h
    · cases h; simp
    · obtain ⟨⟨b, r⟩, hr, he⟩ := Option.map_eq_some_iff.1 h
      cases he
      exact Nat.le_succ_of_le (ih hr)

/-- The line break conventions made one: CR LF and a lone CR count as LF. -/
def unifyNewlines : Chars → Chars
  | '\r' :: '\n' :: cs => '\n' :: unifyNewlines cs
  | c :: cs => (if c = '\r' then '\n' else c) :: unifyNewlines cs
  | [] => []

end CondResolve
