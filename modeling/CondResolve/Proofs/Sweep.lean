import CondResolve.Proofs.Quick

/-!
# Scans of a text line by line

A scan reads each line to its end, whether or not it holds a directive. `Visits` says which positions the cursor
comes to on the way, and in which modes; the state of the line has no part in it. Behind whole lines the cursor
comes to the same positions in a line as in the text that the line starts (`visits_of_skipLines`).
-/

namespace CondResolve

def skipLines (lx : Lexical) (ls : List Chars) : Except Broken Lexical := ls.foldlM (skipLine false) lx

/-- From mode `m` at `cs`, a scan comes to other modes at what is left of `cs`. It moves over what is not code, and
goes on behind each character of code. -/
inductive Visits : Mode → Chars → Mode → Chars → Prop
  | here {m cs} : Visits m cs m cs
  | eat {lx next : Lexical} {c r rest m cs} (step : move lx c r = .eat next rest)
      (onward : Visits next.mode rest m cs) : Visits lx.mode (c :: r) m cs
  | pass {lx next : Lexical} {c r m cs} (step : move lx c r = .stop next) (onward : Visits next.mode r m cs) :
      Visits lx.mode (c :: r) m cs

section
variable {m m₁ m₂ : Mode} {lx lx' next : Lexical} {c : Char} {cs cs₁ cs₂ r rest X : Chars} {b : Broken}

theorem Visits.trans (h : Visits m cs m₁ cs₁) (h' : Visits m₁ cs₁ m₂ cs₂) : Visits m cs m₂ cs₂ := by
  induction h with
  | here => exact h'
  | eat step _ ih => exact .eat step (ih h')
  | pass step _ ih => exact .pass step (ih h')

theorem Visits.suffix (h : Visits m cs m₁ rest) : rest <:+ cs := by
  induction h with
  | here => exact List.suffix_rfl
  | eat step _ ih => exact ih.trans ((suffix_of_move step).trans (List.suffix_cons ..))
  | pass step _ ih => exact ih.trans (List.suffix_cons ..)

theorem Visits.mode_eq (h : Visits m [] m₁ rest) : m₁ = m := by
  generalize hnil : ([] : Chars) = cs at h
  cases h with
  | here => rfl
  | eat => cases hnil
  | pass => cases hnil

/-! ## One line -/

theorem visits_of_skipParsed (h : skipParsed lx cs = .ok (lx', rest)) : Visits lx.mode cs lx'.mode rest.tail := by
  fun_induction skipParsed lx cs with
  | case1 =>
    cases h
    exact .here
  | case2 lx c r next hm =>
    cases h
    exact .pass hm .here
  | case3 => cases h
  | case4 lx c r next rest' hm hle ih => exact .eat hm (ih h)

theorem visits_of_skipParsed_error (h : skipParsed lx cs = .error b) :
    ∃ rest, Visits lx.mode cs (.literal b.quote) rest := by
  fun_induction skipParsed lx cs with
  | case1 => cases h
  | case2 => cases h
  | case3 lx c r q hm =>
    cases h
    rw [mode_of_broken hm]
    exact ⟨_, .here⟩
  | case4 lx c r next rest' hm hle ih =>
    obtain ⟨rest, hv⟩ := ih h
    exact ⟨rest, .eat hm hv⟩

theorem visits_of_drain (h : drain false lx cs = .ok lx') : Visits lx.mode cs lx'.mode [] := by
  fun_induction drain false lx cs with
  | case1 => cases h
  | case2 lx cs ly hs =>
    cases h
    exact visits_of_skipParsed hs
  | case3 lx cs ly c r hs hle ih => exact (visits_of_skipParsed hs).trans (ih h)

theorem visits_of_drain_error (h : drain false lx cs = .error b) :
    ∃ rest, Visits lx.mode cs (.literal b.quote) rest := by
  fun_induction drain false lx cs with
  | case1 lx cs b' hs =>
    cases h
    exact visits_of_skipParsed_error hs
  | case2 => cases h
  | case3 lx cs ly c r hs hle ih =>
    obtain ⟨rest, hv⟩ := ih h
    exact ⟨rest, (visits_of_skipParsed hs).trans hv⟩

theorem visits_of_skipLine (h : skipLine false lx cs = .ok lx') : Visits lx.mode cs lx'.mode [] := by
  unfold skipLine at h
  split at h
  · rename_i hnil
    cases h
    rw [List.isEmpty_iff.1 hnil]
    exact .here
  · have hmode : Visits (Lexical.mk lx.mode .dirty).mode cs lx'.mode [] := visits_of_drain h
    exact hmode

theorem visits_of_skipLine_error (h : skipLine false lx cs = .error b) :
    ∃ rest, Visits lx.mode cs (.literal b.quote) rest := by
  unfold skipLine at h
  split at h
  · cases h
  · have hmode : ∃ rest, Visits (Lexical.mk lx.mode .dirty).mode cs (.literal b.quote) rest :=
      visits_of_drain_error h
    exact hmode

/-! ## A line and the text that it starts -/

/-- Whole lines hold all of a word that starts in them, if the word holds no newline but at its end. -/
theorem EndsLine.prefix_onward {w : Chars} (h : EndsLine cs) (hne : cs ≠ []) (hw : OneLine w) (hp : w <+: cs ++ X) :
    w <+: cs := by
  obtain ⟨t, ht⟩ := hp
  rcases List.append_eq_append_iff.1 ht with ⟨x, rfl, -⟩ | ⟨x, rfl, -⟩
  · exact List.prefix_append ..
  · by_cases hx : x = []
    · simp [hx]
    · refine absurd ?_ hw
      rw [List.dropLast_append_of_ne_nil hx]
      exact List.mem_append_left _ (h.mem hne)

theorem afterContinuation?_onward (h : EndsLine cs) (hne : cs ≠ []) :
    afterContinuation? (cs ++ X) = (afterContinuation? cs).map (· ++ X) := by
  refine Option.ext fun x => ?_
  simp only [Option.map_eq_some_iff, afterContinuation?_eq_some]
  constructor
  · intro hx
    rcases hx with hx | hx
    · obtain ⟨y, rfl⟩ : ['\\', '\r', '\n'] <+: cs := h.prefix_onward hne (by simp [OneLine]) ⟨x, hx.symm⟩
      exact ⟨y, .inl rfl, by simpa using hx⟩
    · obtain ⟨y, rfl⟩ : ['\\', '\n'] <+: cs := h.prefix_onward hne (by simp [OneLine]) ⟨x, hx.symm⟩
      exact ⟨y, .inr rfl, by simpa using hx⟩
  · rintro ⟨y, rfl | rfl, rfl⟩ <;> simp

theorem moveSlash_onward {l : LineState} (h : EndsLine r) (hne : r ≠ []) :
    moveSlash l (r ++ X) = (moveSlash l r).append X := by
  unfold moveSlash
  rw [afterContinuation?_onward h hne]
  cases afterContinuation? r with
  | some r' => rfl
  | none =>
    rcases r with _ | ⟨d, r⟩
    · exact absurd rfl hne
    · simp only [Option.map_none, List.cons_append]
      split <;> simp_all [Move.append]

theorem moveCode_onward {l : LineState} (h : EndsLine r) (hne : r ≠ []) :
    moveCode l c (r ++ X) = (moveCode l c r).append X := by
  unfold moveCode
  rw [moveSlash_onward h hne]
  by_cases hR : ['"', '('] <+: r
  · obtain ⟨r', rfl⟩ := hR
    repeat' split
    all_goals simp_all [Move.append]
  · have hR' : ¬ ['"', '('] <+: r ++ X := fun hp => hR (h.prefix_onward hne (by simp [OneLine]) hp)
    repeat' split
    all_goals simp_all [Move.append]

theorem moveBlock_onward {l : LineState} (h : EndsLine r) (hne : r ≠ []) :
    moveBlock l c (r ++ X) = (moveBlock l c r).append X := by
  unfold moveBlock
  rw [afterContinuation?_onward h hne]
  split
  · rcases r with _ | ⟨d, r⟩
    · exact absurd rfl hne
    · cases afterContinuation? (d :: r) with
      | some r' => rfl
      | none =>
        by_cases hd : d = '/'
        · simp [hd, Move.append]
        · simp [hd, Move.append]
  · rfl

/-- What a move does in a whole line it does in front of other lines, too. -/
theorem move_onward (hX : X = [] ∨ EndsLine (c :: r)) : move lx c (r ++ X) = (move lx c r).append X := by
  rcases hX with rfl | h
  · cases hm : move lx c r <;> simp [hm, Move.append]
  unfold move
  rw [← List.cons_append, afterContinuation?_onward h (by simp)]
  cases hc : afterContinuation? (c :: r) with
  | some r' => rfl
  | none =>
    simp only [Option.map_none]
    obtain ⟨m, l⟩ := lx
    -- Only the newline is left, or the move can look at a character that was there before.
    by_cases hne : r = []
    · subst hne
      obtain rfl := h [] c rfl
      cases m with
      | literal q => cases q <;> simp [moveIn, moveLiteral, Quote.char, Move.append]
      | _ => simp [moveIn, moveCode, moveBlock, Move.append]
    · have hr : EndsLine r := h.suffix (List.suffix_cons ..)
      obtain ⟨d, r, rfl⟩ := List.exists_cons_of_ne_nil hne
      cases m with
      | code => exact moveCode_onward hr hne
      | blockComment => exact moveBlock_onward hr hne
      | lineComment => rfl
      | slash =>
        simp only [moveIn, moveCode_onward hr hne]
        repeat' split
        all_goals rfl
      | star =>
        simp only [moveIn, moveBlock_onward hr hne]
        split <;> rfl
      | literal q =>
        simp only [moveIn, moveLiteral]
        repeat' split
        all_goals rfl
      | rawLiteral =>
        by_cases hq : c = ')' ∧ d = '"'
        · simp [moveIn, hq, Move.append]
        · simp only [moveIn, List.cons_append]
          split <;> simp_all [Move.append]

theorem Visits.onward (h : Visits m cs m₁ rest) (hX : X = [] ∨ EndsLine cs) :
    Visits m (cs ++ X) m₁ (rest ++ X) := by
  induction h with
  | here => exact .here
  | @eat lx next c r rest m cs step _ ih =>
    have hs : rest <:+ c :: r := (suffix_of_move step).trans (List.suffix_cons ..)
    rw [List.cons_append]
    refine .eat ?_ (ih (hX.imp_right fun h => h.suffix hs))
    rw [move_onward hX, step]
    rfl
  | @pass lx next c r m cs step _ ih =>
    rw [List.cons_append]
    refine .pass ?_ (ih (hX.imp_right fun h => h.suffix (List.suffix_cons ..)))
    rw [move_onward hX, step]
    rfl

/-! ## Lines one after another -/

section
variable {ls ls' : List Chars} (hp : Physical (ls ++ ls'))
include hp

theorem visits_of_skipLines (h : skipLines lx ls = .ok lx') :
    Visits lx.mode (ls ++ ls').flatten lx'.mode ls'.flatten := by
  induction ls generalizing lx with
  | nil =>
    cases h
    exact .here
  | cons l ls ih =>
    obtain ⟨ly, hl, hls⟩ := bind_eq_ok.1 h
    have hline := (visits_of_skipLine hl).onward hp.endsLine
    exact hline.trans (ih hp.tail hls)

theorem visits_of_skipLines_error (h : skipLines lx ls = .error b) :
    ∃ rest, Visits lx.mode (ls ++ ls').flatten (.literal b.quote) rest := by
  induction ls generalizing lx with
  | nil => cases h
  | cons l ls ih =>
    cases hl : skipLine false lx l with
    | error b' =>
      have h : (skipLine false lx l >>= fun lx => skipLines lx ls) = .error b := h
      rw [hl] at h
      cases h
      obtain ⟨rest, hv⟩ := visits_of_skipLine_error hl
      exact ⟨_, hv.onward hp.endsLine⟩
    | ok ly =>
      have h : (skipLine false lx l >>= fun lx => skipLines lx ls) = .error b := h
      rw [hl] at h
      have hline := (visits_of_skipLine hl).onward hp.endsLine
      obtain ⟨rest, hv⟩ := ih hp.tail h
      exact ⟨rest, hline.trans hv⟩

end

end

end CondResolve
