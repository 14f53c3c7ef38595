import CondResolve.Proofs.Splice

/-!
# The loops of the scanner end

A loop takes turns until one of them ends it or fails; `EndsIn` counts the turns that go on, and a loop that turns
forever has no such count. Each loop of the scanner comes to what the function for it gives, after at most as many
turns as characters are left. Only the look at a slash or a star that a continuation has split off may take one turn
more, since a delimiter that comes to nothing is looked at again from where the cursor is.
-/

namespace CondResolve

/-! ## Loops -/

section
variable {σ ρ ε : Type}

/-- The loop that starts in `x` goes on for `n` turns and then comes to `y`. -/
inductive EndsIn (turn : σ → Except ε (σ ⊕ ρ)) : Nat → σ → Except ε ρ → Prop
  | done {x : σ} {y : ρ} : turn x = .ok (.inr y) → EndsIn turn 0 x (.ok y)
  | failed {x : σ} {e : ε} : turn x = .error e → EndsIn turn 0 x (.error e)
  | next {n : Nat} {x z : σ} {y : Except ε ρ} : turn x = .ok (.inl z) → EndsIn turn n z y → EndsIn turn (n + 1) x y

/-- The turn from `x` comes to what `f` says, or goes on with a smaller state for which `f` says the same. -/
inductive Descends (turn : σ → Except ε (σ ⊕ ρ)) (f : σ → Except ε ρ) (size : σ → Nat) (x : σ) : Prop
  | done {y : ρ} : turn x = .ok (.inr y) → f x = .ok y → Descends turn f size x
  | failed {e : ε} : turn x = .error e → f x = .error e → Descends turn f size x
  | next {z : σ} : turn x = .ok (.inl z) → f x = f z → size z < size x → Descends turn f size x

theorem endsIn_of_descends {turn : σ → Except ε (σ ⊕ ρ)} {f : σ → Except ε ρ} {size : σ → Nat}
    (h : ∀ x, Descends turn f size x) (x : σ) : ∃ n ≤ size x, EndsIn turn n x (f x) := by
  induction hn : size x using Nat.strongRecOn generalizing x with
  | ind n ih =>
    cases h x with
    | done ht hf =>
      rw [hf]
      exact ⟨0, Nat.zero_le _, .done ht⟩
    | failed ht hf =>
      rw [hf]
      exact ⟨0, Nat.zero_le _, .failed ht⟩
    | @next z ht hf hlt =>
      obtain ⟨m, hm, hends⟩ := ih (size z) (by omega) z rfl
      rw [hf]
      exact ⟨m + 1, by omega, .next ht hends⟩

end

/-! ## On to the next code character -/

/-- One look at what is under the cursor. Where a slash or a star was split off and what follows makes no delimiter
of it, the cursor stays. -/
def look (verbatim : Bool) : Lexical × Chars → Except Broken ((Lexical × Chars) ⊕ (Lexical × Chars))
  | (lx, []) => .ok (.inr (lx, []))
  | (lx, c :: r) =>
    if verbatim then
      if c = '\n' then .ok (.inl ({ lx with line := .start }, r))
      else if isSpace c then .ok (.inl (lx, r))
      else .ok (.inr (lx, c :: r))
    else
      match afterContinuation? (c :: r) with
      | some rest => .ok (.inl (lx, rest))
      | none =>
        if lx.mode = .slash ∧ c ≠ '*' ∧ c ≠ '/' then .ok (.inl (⟨.code, .dirty⟩, c :: r))
        else if lx.mode = .star ∧ c ≠ '/' then .ok (.inl (⟨.blockComment, lx.line⟩, c :: r))
        else
          match moveIn lx c r with
          | .stop next => .ok (.inr (next, c :: r))
          | .eat next rest => .ok (.inl (next, rest))
          | .broken q => .error ⟨q, lx.line⟩

/-- The turns that are left, if each takes one character and a split delimiter one look more. -/
def looks (x : Lexical × Chars) : Nat := x.2.length + if x.1.mode.isSplit then 1 else 0

section
variable {lx ly next : Lexical} {c : Char} {cs r rest : Chars}

theorem looks_of_move (h : move lx c r = .eat next rest) : looks (next, rest) < looks (lx, c :: r) := by
  have hle := length_of_move h
  have hsplit : next.mode.isSplit = true → lx.mode.isSplit = true ∨ rest.length < r.length := by
    intro hn
    have hmode : next.mode = .slash ∨ next.mode = .star := by
      cases hm : next.mode <;> simp_all [Mode.isSplit]
    rcases split_of_move h hmode with he | ⟨-, hc⟩
    · exact .inl (he ▸ hn)
    · exact .inr (length_of_afterContinuation? hc)
  simp only [looks, List.length_cons]
  cases hn : next.mode.isSplit with
  | false =>
    simp only [Bool.false_eq_true, if_false]
    omega
  | true =>
    rcases hsplit hn with hl | hlt
    · simp only [hl, if_true]
      omega
    · simp only [if_true]
      omega

theorem skipParsed_broken {q : Quote} (h : move lx c r = .broken q) :
    skipParsed lx (c :: r) = .error ⟨q, lx.line⟩ := by
  rw [skipParsed]
  split <;> simp_all

/-- A second look at a character, after a split delimiter came to nothing. -/
theorem descends_again (hl : look false (lx, c :: r) = .ok (.inl (next, c :: r))) (hm : move lx c r = move next c r)
    (hs : lx.mode.isSplit = true) (hn : next.mode.isSplit = false) :
    Descends (look false) (fun x => skipParsed x.1 x.2) looks (lx, c :: r) := by
  refine .next hl ?_ ?_
  · cases h : move lx c r with
    | stop ly => exact (skipParsed_stop h).trans (skipParsed_stop (hm ▸ h)).symm
    | eat ly rest => exact (skipParsed_eat h).trans (skipParsed_eat (hm ▸ h)).symm
    | broken q =>
      rw [mode_of_broken h] at hs
      cases hs
  · simp [looks, hs, hn]

theorem descends_parsed (x : Lexical × Chars) : Descends (look false) (fun x => skipParsed x.1 x.2) looks x := by
  obtain ⟨lx, _ | ⟨c, r⟩⟩ := x
  · exact .done rfl (skipParsed_nil lx)
  cases hc : afterContinuation? (c :: r) with
  | some rest =>
    have hm : move lx c r = .eat lx rest := by simp [move, hc]
    exact .next (z := (lx, rest)) (by simp [look, hc]) (skipParsed_eat hm) (looks_of_move hm)
  | none =>
    have hmove : ∀ lx, move lx c r = moveIn lx c r := fun lx => by simp [move, hc]
    by_cases hslash : lx.mode = .slash ∧ c ≠ '*' ∧ c ≠ '/'
    · have hsame : move lx c r = move ⟨.code, .dirty⟩ c r := by simp [hmove, moveIn, hslash]
      exact descends_again (by simp [look, hc, hslash]) hsame (by simp [hslash, Mode.isSplit]) rfl
    by_cases hstar : lx.mode = .star ∧ c ≠ '/'
    · have hsame : move lx c r = move ⟨.blockComment, lx.line⟩ c r := by simp [hmove, moveIn, hstar]
      exact descends_again (by simp [look, hc, hstar]) hsame (by simp [hstar, Mode.isSplit]) rfl
    have hlook : look false (lx, c :: r) =
        match move lx c r with
        | .stop next => .ok (.inr (next, c :: r))
        | .eat next rest => .ok (.inl (next, rest))
        | .broken q => .error ⟨q, lx.line⟩ := by
      simp only [look, Bool.false_eq_true, if_false, hc, if_neg hslash, if_neg hstar, hmove]
    cases hm : move lx c r with
    | stop next =>
      rw [hm] at hlook
      exact .done hlook (skipParsed_stop hm)
    | eat next rest =>
      rw [hm] at hlook
      exact .next hlook (skipParsed_eat hm) (looks_of_move hm)
    | broken q =>
      rw [hm] at hlook
      exact .failed hlook (skipParsed_broken hm)

theorem descends_space (x : Lexical × Chars) :
    Descends (look true) (fun x => .ok (skipSpace x.1 x.2)) (fun x => x.2.length) x := by
  obtain ⟨lx, _ | ⟨c, r⟩⟩ := x
  · exact .done rfl rfl
  by_cases hn : c = '\n'
  · exact .next (z := ({ lx with line := .start }, r)) (by simp [look, hn]) (by simp [skipSpace, hn]) (by simp)
  by_cases hs : isSpace c = true
  · exact .next (z := (lx, r)) (by simp [look, hn, hs]) (by simp [skipSpace, hn, hs]) (by simp)
  · exact .done (y := (lx, c :: r)) (by simp [look, hn, hs]) (by simp [skipSpace, hn, hs])

/-- The cursor comes to the next code character. -/
theorem endsIn_look (verbatim : Bool) (lx : Lexical) (cs : Chars) :
    ∃ n ≤ cs.length + 1, EndsIn (look verbatim) n (lx, cs) (skip verbatim lx cs) := by
  cases verbatim with
  | false =>
    obtain ⟨n, hn, h⟩ := endsIn_of_descends descends_parsed (lx, cs)
    refine ⟨n, Nat.le_trans hn ?_, h⟩
    simp only [looks]
    split <;> omega
  | true =>
    obtain ⟨n, hn, h⟩ := endsIn_of_descends descends_space (lx, cs)
    exact ⟨n, Nat.le_succ_of_le hn, h⟩

end

/-- What white space, literals, comments and continuations start with. A slash may be split off the rest of its
delimiter. -/
def openers : List Chars :=
  [[' '], ['\t'], ['\r'], ['\n'], ['\''], ['"'], ['R', '"', '('], ['/', '*'], ['/', '/'], ['/', '\\', '\n'],
   ['/', '\\', '\r', '\n'], ['\\', '\n'], ['\\', '\r', '\n']]

def StartsCode (cs : Chars) : Prop := cs ≠ [] ∧ ∀ w ∈ openers, ¬ w <+: cs

section
variable {lx ly next : Lexical} {c : Char} {cs r rest : Chars} {verbatim : Bool}

theorem startsCode_of_stop (h : move lx c r = .stop next) : StartsCode (c :: r) := by
  refine ⟨by simp, fun w hw hp => ?_⟩
  obtain ⟨t, ht⟩ := hp
  have hagain := stop_again h
  have hmode := (line_of_stop h).1
  obtain ⟨m, l⟩ := next
  cases hmode
  have hcases : ∀ w ∈ openers, ∀ t, w ++ t = c :: r → ∃ ly rest, move ⟨.code, l⟩ c r = .eat ly rest := by
    intro w hw t ht
    simp only [openers, List.mem_cons, List.not_mem_nil, or_false] at hw
    rcases hw with rfl | rfl | rfl | rfl | rfl | rfl | rfl | rfl | rfl | rfl | rfl | rfl | rfl
    all_goals
      cases ht
      exact ⟨_, _, rfl⟩
  obtain ⟨ly, rest, he⟩ := hcases w hw t ht
  rw [he] at hagain
  cases hagain

theorem startsCode_of_skipParsed (h : skipParsed lx cs = .ok (ly, rest)) :
    rest = [] ∨ ly.mode = .code ∧ StartsCode rest := by
  fun_induction skipParsed lx cs with
  | case1 =>
    cases h
    exact .inl rfl
  | case2 lx c r next hm =>
    cases h
    exact .inr ⟨(line_of_stop hm).1, startsCode_of_stop hm⟩
  | case3 => cases h
  | case4 lx c r next rest' hm hle ih => exact ih h

/-! ## On to the end of the line -/

def drainTurn (verbatim : Bool) : Lexical × Chars → Except Broken ((Lexical × Chars) ⊕ (Lexical × Chars))
  | (lx, []) => .ok (.inr (lx, []))
  | (lx, c :: r) => do
    let (ly, rest) ← skip verbatim lx (c :: r)
    return .inl (ly, if rest.length = (c :: r).length then r else rest)

theorem descends_drain (verbatim : Bool) (x : Lexical × Chars) :
    Descends (drainTurn verbatim) (fun x => (drain verbatim x.1 x.2).map fun ly => (ly, []))
      (fun x => x.2.length) x := by
  obtain ⟨lx, _ | ⟨c, r⟩⟩ := x
  · refine .done rfl ?_
    simp only [drain_done (skip_nil lx)]
    rfl
  cases hs : skip verbatim lx (c :: r) with
  | error b =>
    refine .failed (e := b) (by simp only [drainTurn, hs]; rfl) ?_
    simp only [drain_error hs]
    rfl
  | ok next =>
    obtain ⟨ly, rest⟩ := next
    have hle := length_of_skip hs
    have hturn : drainTurn verbatim (lx, c :: r) =
        .ok (.inl (ly, if rest.length = (c :: r).length then r else rest)) := by
      simp only [drainTurn, hs]
      rfl
    by_cases hlen : rest.length = (c :: r).length
    · obtain rfl : rest = c :: r := (suffix_of_skip hs).eq_of_length hlen
      rw [if_pos rfl] at hturn
      refine .next hturn ?_ (by simp)
      simp only [drain_next hs]
    · rw [if_neg hlen] at hturn
      refine .next hturn ?_ (by simp only; omega)
      simp only [drain_congr (hs.trans (skip_again hs).symm)]

theorem endsIn_drain (verbatim : Bool) (lx : Lexical) (cs : Chars) :
    ∃ n ≤ cs.length, EndsIn (drainTurn verbatim) n (if cs.isEmpty then lx else { lx with line := .dirty }, cs)
      ((skipLine verbatim lx cs).map fun ly => (ly, [])) := by
  obtain ⟨n, hn, h⟩ :=
    endsIn_of_descends (descends_drain verbatim) (if cs.isEmpty then lx else { lx with line := .dirty }, cs)
  refine ⟨n, hn, ?_⟩
  cases cs with
  | nil =>
    simp only [List.isEmpty_nil, if_true, drain_done (skip_nil lx)] at h
    exact h
  | cons c r => exact h

/-! ## On to the end of arguments -/

def argsTurn (verbatim : Bool) :
    Nat × Lexical × Chars → Except Broken ((Nat × Lexical × Chars) ⊕ (Lexical × Option Chars))
  | (_, lx, []) => .ok (.inr (lx, none))
  | (depth, lx, c :: r) => do
    let depth := if c = '(' then depth + 1 else if c = ')' then depth - 1 else depth
    let (ly, rest) ← skip verbatim lx r
    if depth = 0 then return .inr (ly, some rest) else return .inl (depth, ly, rest)

theorem closeArgs_cons {depth d : Nat} {c : Char} {r : Chars} (hs : skip verbatim lx r = .ok (ly, rest))
    (hd : (if c = '(' then depth + 1 else if c = ')' then depth - 1 else depth) = d) :
    closeArgs verbatim depth lx (c :: r) = if d = 0 then .ok (ly, some rest) else closeArgs verbatim d ly rest := by
  rw [closeArgs]
  split <;> simp_all

theorem descends_args (verbatim : Bool) (x : Nat × Lexical × Chars) :
    Descends (argsTurn verbatim) (fun x => closeArgs verbatim x.1 x.2.1 x.2.2) (fun x => x.2.2.length) x := by
  obtain ⟨depth, lx, _ | ⟨c, r⟩⟩ := x
  · exact .done rfl (by simp only [closeArgs])
  generalize hd : (if c = '(' then depth + 1 else if c = ')' then depth - 1 else depth) = d
  cases hs : skip verbatim lx r with
  | error b =>
    refine .failed (e := b) (by simp only [argsTurn, hs]; rfl) ?_
    simp only [closeArgs]
    split <;> simp_all
  | ok next =>
    obtain ⟨ly, rest⟩ := next
    have hle := length_of_skip hs
    have hclose := closeArgs_cons hs hd
    have hturn : argsTurn verbatim (depth, lx, c :: r) =
        if d = 0 then .ok (.inr (ly, some rest)) else .ok (.inl (d, ly, rest)) := by
      simp only [argsTurn, hs, hd]
      rfl
    by_cases hz : d = 0
    · rw [if_pos hz] at hclose hturn
      exact .done hturn hclose
    · rw [if_neg hz] at hclose hturn
      exact .next hturn hclose (by simp only [List.length_cons]; omega)

theorem endsIn_args (verbatim : Bool) (depth : Nat) (lx : Lexical) (cs : Chars) :
    ∃ n ≤ cs.length, EndsIn (argsTurn verbatim) n (depth, lx, cs) (closeArgs verbatim depth lx cs) :=
  endsIn_of_descends (descends_args verbatim) (depth, lx, cs)

theorem suffix_of_closeArgs {depth : Nat} (h : closeArgs verbatim depth lx cs = .ok (ly, some rest)) :
    rest <:+ cs := by
  fun_induction closeArgs verbatim depth lx cs with
  | case1 => cases h
  | case2 => cases h
  | case3 depth lx c r _ lz u hs =>
    cases h
    exact (suffix_of_skip hs).trans (List.suffix_cons ..)
  | case4 depth lx c r _ lz u hs _ _ ih => exact (ih h).trans ((suffix_of_skip hs).trans (List.suffix_cons ..))

/-- There are no arguments, they are closed, or they are not and the cursor goes back in front of them. -/
theorem skipArgs_cases (h : skipArgs verbatim lx cs = .ok (ly, rest)) :
    skip verbatim lx cs = .ok (ly, rest) ∨
    ∃ lz r, skip verbatim lx cs = .ok (lz, '(' :: r) ∧
      (closeArgs verbatim 0 lz ('(' :: r) = .ok (ly, some rest) ∨
        closeArgs verbatim 0 lz ('(' :: r) = .ok (ly, none) ∧ rest = cs) := by
  unfold skipArgs at h
  split at h
  · rename_i lz r hs
    refine .inr ⟨lz, r, hs, ?_⟩
    cases hc : closeArgs verbatim 0 lz ('(' :: r) with
    | error b =>
      rw [hc] at h
      cases h
    | ok p =>
      obtain ⟨lw, _ | u⟩ := p <;> rw [hc] at h <;> cases h
      · exact .inr ⟨rfl, rfl⟩
      · exact .inl rfl
  · exact .inl h

theorem suffix_of_skipArgs (h : skipArgs verbatim lx cs = .ok (ly, rest)) : rest <:+ cs := by
  rcases skipArgs_cases h with hs | ⟨lz, r, hs, hc | ⟨-, rfl⟩⟩
  · exact suffix_of_skip hs
  · exact (suffix_of_closeArgs hc).trans (suffix_of_skip hs)
  · exact List.suffix_rfl

end

end CondResolve
