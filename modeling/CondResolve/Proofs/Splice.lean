import CondResolve.Proofs.Scan

/-!
# Spliced lines

Lines are edited by replacing what follows a point where the cursor stopped, by spaces in front of a
condition, and by a newline at the end. None of this changes how the rest is read, with one exception:
a backslash before the new newline joins the line to the next.
-/

namespace CondResolve

theorem afterContinuation?_eq_some {cs r : Chars} :
    afterContinuation? cs = some r ↔ cs = '\\' :: '\r' :: '\n' :: r ∨ cs = '\\' :: '\n' :: r := by
  unfold afterContinuation?
  split <;> simp_all

/-! ## Lines that end in a split delimiter -/

def Mode.isSplit : Mode → Bool
  | .slash | .star => true
  | _ => false

def SplitEnd (cs : Chars) : Prop :=
  ∃ p x k, cs = p ++ x :: k ∧ (x = '/' ∨ x = '*') ∧ afterContinuation? k = some []

theorem SplitEnd.of_suffix {cs full : Chars} (h : SplitEnd cs) (hs : cs <:+ full) : SplitEnd full := by
  obtain ⟨p, x, k, rfl, hx, hk⟩ := h
  obtain ⟨q, rfl⟩ := hs
  exact ⟨q ++ p, x, k, by simp, hx, hk⟩

/-- The newline of such a text is read only as part of the continuation. -/
def Tucked (cs : Chars) : Prop := cs = [] ∨ afterContinuation? cs = some [] ∨ SplitEnd cs

theorem SplitEnd.tucked_tail {c : Char} {r : Chars} (h : SplitEnd (c :: r)) : Tucked r := by
  obtain ⟨p, x, k, he, hx, hk⟩ := h
  cases p with
  | nil =>
    cases he
    exact .inr (.inl hk)
  | cons d p =>
    cases he
    exact .inr (.inr ⟨p, x, k, rfl, hx, hk⟩)

theorem OneLine.afterContinuation? {cs rest : Chars} (ho : OneLine cs) (h : afterContinuation? cs = some rest) :
    rest = [] := by
  unfold CondResolve.afterContinuation? at h
  split at h <;> cases h
  · cases rest with
    | nil => rfl
    | cons d r => exact absurd rfl (ho.tail.tail.ne_newline (by simp))
  · cases rest with
    | nil => rfl
    | cons d r => exact absurd rfl (ho.tail.ne_newline (by simp))

theorem move_continuation {lx : Lexical} {c : Char} {r rest : Chars}
    (h : afterContinuation? (c :: r) = some rest) : move lx c r = .eat lx rest := by
  simp [move, h]

theorem Tucked.of_move {lx next : Lexical} {c : Char} {r rest : Chars} (ht : Tucked (c :: r))
    (ho : OneLine (c :: r)) (h : move lx c r = .eat next rest) : Tucked rest := by
  rcases ht with ht | ht | ht
  · cases ht
  · rw [move_continuation ht] at h
    cases h
    exact .inl rfl
  · rcases rest_of_move h with hc | rfl | ⟨-, hc⟩ | ⟨d, rfl, hd⟩ | rfl
    · exact .inl (ho.afterContinuation? hc)
    · exact ht.tucked_tail
    · exact .inl (ho.tail.afterContinuation? hc)
    · obtain ⟨p, x, k, he, hx, hk⟩ := ht
      rcases p with _ | ⟨_, p⟩
      · -- The pair would end in the backslash of the continuation.
        cases he
        unfold CondResolve.afterContinuation? at hk
        split at hk <;> simp_all
      · have he' : d :: rest = p ++ x :: k := (List.cons.inj he).2
        exact SplitEnd.tucked_tail ⟨p, x, k, he', hx, hk⟩
    · obtain ⟨p, x, k, he, hx, hk⟩ := ht
      rcases p with _ | ⟨_, _ | ⟨_, _ | ⟨_, p⟩⟩⟩ <;> cases he
      · cases hk
      · simp at hx
      · simp at hx
      · exact .inr (.inr ⟨p, x, k, rfl, hx, hk⟩)

theorem Tucked.ne_newline {c : Char} {r : Chars} (ht : Tucked (c :: r)) (ho : OneLine (c :: r)) : c ≠ '\n' := by
  rcases ht with ht | ht | ⟨p, x, k, he, hx, hk⟩
  · cases ht
  · rintro rfl
    cases ht
  · cases p with
    | nil =>
      cases he
      rcases hx with rfl | rfl <;> decide
    | cons d p =>
      cases he
      exact ho.ne_newline (by simp)

section
variable {lx lx' : Lexical} {cs rest : Chars} {verbatim : Bool}

theorem Tucked.skipParsed (ht : Tucked cs) (ho : OneLine cs) (hl : lx.line ≠ .start)
    (h : skipParsed lx cs = .ok (lx', rest)) : lx'.line ≠ .start ∧ Tucked rest := by
  fun_induction CondResolve.skipParsed lx cs with
  | case1 => cases h; exact ⟨hl, ht⟩
  | case2 lx c r next hm =>
    cases h
    refine ⟨?_, ht⟩
    rcases (line_of_stop hm).2 with hn | hn <;> rw [hn]
    · exact hl
    · decide
  | case3 => cases h
  | case4 lx c r next rest' hm hle ih =>
    have ho' := ho.tail.suffix (suffix_of_move hm)
    refine ih (ht.of_move ho hm) ho' ?_ h
    rcases line_of_move hm with hn | hn | ⟨hc, -, -⟩
    · rwa [hn]
    · simp [hn]
    · exact absurd hc (ht.ne_newline ho)

theorem not_continuation_of_stop {c : Char} {r : Chars} (h : CondResolve.skipParsed lx cs = .ok (lx', c :: r)) :
    afterContinuation? (c :: r) = none := by
  fun_induction CondResolve.skipParsed lx cs with
  | case1 => cases h
  | case2 lx c' r' next hm =>
    cases h
    cases hc : afterContinuation? (c :: r) with
    | none => rfl
    | some rest => rw [move_continuation hc] at hm; cases hm
  | case3 => cases h
  | case4 lx c' r' next rest' hm hle ih => exact ih h

theorem Tucked.drain (ht : Tucked cs) (ho : OneLine cs) (hl : lx.line ≠ .start)
    (h : drain false lx cs = .ok lx') : lx'.line ≠ .start := by
  generalize hv : false = verbatim at h
  fun_induction CondResolve.drain verbatim lx cs with
  | case1 => cases h
  | case2 lx cs ly hs =>
    subst hv
    cases h
    exact (ht.skipParsed ho hl hs).1
  | case3 lx cs ly c r hs hle ih =>
    subst hv
    obtain ⟨hl', ht'⟩ := ht.skipParsed ho hl hs
    have ho' := ho.suffix (suffix_of_skip hs)
    refine ih ?_ ho'.tail hl' h
    rcases ht' with h' | h' | h'
    · cases h'
    · rw [not_continuation_of_stop hs] at h'
      cases h'
    · exact h'.tucked_tail

theorem splitEnd_of_skipParsed (ho : OneLine cs) (h : CondResolve.skipParsed lx cs = .ok (lx', rest))
    (hm : lx'.mode.isSplit = true) : lx.mode.isSplit = true ∨ SplitEnd cs := by
  fun_induction CondResolve.skipParsed lx cs with
  | case1 => cases h; exact .inl hm
  | case2 lx c r next hs =>
    cases h
    rw [(line_of_stop hs).1] at hm
    cases hm
  | case3 => cases h
  | case4 lx c r next rest' he hle ih =>
    have hsuf := (suffix_of_move he).trans (List.suffix_cons c r)
    rcases ih (ho.suffix hsuf) h with hn | hn
    · have hn' : next.mode = .slash ∨ next.mode = .star := by
        cases hmode : next.mode <;> simp_all [Mode.isSplit]
      rcases split_of_move he hn' with h' | ⟨hc, h'⟩
      · rw [h'] at hn
        exact .inl hn
      · exact .inr ⟨[], c, r, rfl, hc, ho.tail.afterContinuation? h' ▸ h'⟩
    · exact .inr (hn.of_suffix hsuf)

/-! ## Spaces in front -/

theorem move_space {r : Chars} (hm : lx.mode.isSplit = false) : move lx ' ' r = .eat lx r := by
  obtain ⟨m, l⟩ := lx
  cases m <;> simp_all [Mode.isSplit, move, afterContinuation?, moveIn, moveCode, moveBlock, moveLiteral, isSpace]
  rename_i q
  cases q <;> decide

theorem skip_space (hm : lx.mode.isSplit = false) : skip verbatim lx (' ' :: cs) = skip verbatim lx cs := by
  cases verbatim with
  | false => exact skipParsed_eat (move_space hm)
  | true => simp [skip, skipSpace, isSpace]

theorem skip_stop {c : Char} {r : Chars} (hc : isSpaceOrNewline c = false) (h : move lx c r = .stop lx) :
    skip verbatim lx (c :: r) = .ok (lx, c :: r) := by
  cases verbatim with
  | false => exact skipParsed_stop h
  | true =>
    have hc' : isSpace c = false ∧ c ≠ '\n' := by simpa [isSpaceOrNewline] using hc
    simp [skip, skipSpace, hc'.1, hc'.2]

/-! ## Another word at the cursor -/

/-- A word starts with a letter that opens nothing. -/
def StartsWord (w : Chars) : Prop := ∃ c r, w = c :: r ∧ isSymbolChar c = true ∧ c ≠ 'R'

def Move.append (w : Chars) : Move → Move
  | .stop next => .stop next
  | .eat next rest => .eat next (rest ++ w)
  | .broken q => .broken q

theorem ne_of_isSymbolChar {c : Char} (hc : isSymbolChar c = true) :
    c ≠ '/' ∧ c ≠ '*' ∧ c ≠ '\\' ∧ c ≠ '\r' ∧ c ≠ '\n' ∧ c ≠ '"' ∧ c ≠ '\'' ∧ c ≠ '(' ∧ c ≠ ')' := by
  refine ⟨?_, ?_, ?_, ?_, ?_, ?_, ?_, ?_, ?_⟩ <;> rintro rfl <;> cases hc

theorem afterContinuation?_append {w : Chars} (hw : StartsWord w) (p : Chars) :
    afterContinuation? (p ++ w) = (afterContinuation? p).map (· ++ w) := by
  obtain ⟨c, r, rfl, hc, -⟩ := hw
  obtain ⟨-, -, h₁, h₂, h₃, -⟩ := ne_of_isSymbolChar hc
  refine Option.ext fun x => ?_
  simp only [Option.map_eq_some_iff, afterContinuation?_eq_some]
  constructor
  · intro h
    rcases p with _ | ⟨a, _ | ⟨b, _ | ⟨d, p⟩⟩⟩ <;> simp_all
    rcases h with ⟨rfl, rfl, rfl, rfl⟩ | ⟨rfl, rfl, rfl⟩
    · exact ⟨p, .inl ⟨rfl, rfl, rfl, rfl⟩, rfl⟩
    · exact ⟨d :: p, .inr ⟨rfl, rfl, rfl⟩, rfl⟩
  · rintro ⟨y, rfl | rfl, rfl⟩ <;> simp

theorem moveSlash_append {w : Chars} (hw : StartsWord w) (l : LineState) (p : Chars) :
    moveSlash l (p ++ w) = (moveSlash l p).append w := by
  unfold moveSlash
  rw [afterContinuation?_append hw]
  obtain ⟨d, r, rfl, hd, -⟩ := hw
  obtain ⟨h₁, h₂, -⟩ := ne_of_isSymbolChar hd
  cases afterContinuation? p with
  | some r' => rfl
  | none =>
    cases p with
    | nil => simp_all [Move.append]
    | cons a p =>
      simp_all [Move.append]
      split <;> simp_all

theorem moveCode_append {w : Chars} (hw : StartsWord w) (l : LineState) (c : Char) (p : Chars) :
    moveCode l c (p ++ w) = (moveCode l c p).append w := by
  by_cases hR : c = 'R'
  · obtain ⟨d, r, rfl, hd, -⟩ := hw
    obtain ⟨-, -, -, -, -, h₃, -, h₄, -⟩ := ne_of_isSymbolChar hd
    subst hR
    rcases p with _ | ⟨a, _ | ⟨b, p⟩⟩ <;> simp [moveCode, Move.append, h₃, h₄]
    split <;> simp_all
  · unfold moveCode
    rw [moveSlash_append hw]
    simp only [hR, ite_false]
    repeat' split
    all_goals rfl

theorem moveBlock_append {w : Chars} (hw : StartsWord w) (l : LineState) (c : Char) (p : Chars) :
    moveBlock l c (p ++ w) = (moveBlock l c p).append w := by
  unfold moveBlock
  rw [afterContinuation?_append hw]
  obtain ⟨d, r, rfl, hd, -⟩ := hw
  obtain ⟨h₁, h₂, -⟩ := ne_of_isSymbolChar hd
  split
  · cases afterContinuation? p with
    | some r' => rfl
    | none =>
      cases p with
      | nil => simp_all [Move.append]
      | cons a p =>
        simp_all [Move.append]
        split <;> simp_all
  · rfl

theorem move_append {w : Chars} (hw : StartsWord w) {lx : Lexical} {c : Char} {p : Chars}
    (hp : ∀ q, lx.mode = .literal q → p = [] → c ≠ '\\') : move lx c (p ++ w) = (move lx c p).append w := by
  have hcont : afterContinuation? (c :: (p ++ w)) = (afterContinuation? (c :: p)).map (· ++ w) :=
    afterContinuation?_append hw (c :: p)
  unfold move
  rw [hcont]
  cases afterContinuation? (c :: p) with
  | some r' => rfl
  | none =>
    show moveIn lx c (p ++ w) = (moveIn lx c p).append w
    obtain ⟨m, l⟩ := lx
    cases m with
    | code => exact moveCode_append hw l c p
    | lineComment => rfl
    | blockComment => exact moveBlock_append hw l c p
    | slash =>
      simp only [moveIn, moveCode_append hw]
      repeat' split
      all_goals rfl
    | star =>
      simp only [moveIn, moveBlock_append hw]
      split <;> rfl
    | rawLiteral =>
      by_cases hc : c = ')'
      · obtain ⟨d, r, rfl, hd, -⟩ := hw
        obtain ⟨-, -, -, -, -, h₃, -⟩ := ne_of_isSymbolChar hd
        subst hc
        rcases p with _ | ⟨a, p⟩ <;> simp [moveIn, Move.append, h₃]
        split <;> simp_all
      · simp [moveIn, Move.append, hc]
    | literal q =>
      -- An escape takes the next character with it, so one has to be left in `p`.
      have hdrop : c = '\\' → (p ++ w).drop 1 = p.drop 1 ++ w := by
        intro hc
        cases p with
        | nil => exact absurd hc (hp q rfl rfl)
        | cons a p => rfl
      simp only [moveIn, moveLiteral]
      split
      · rfl
      · split
        · rename_i hc
          rw [hdrop hc]; rfl
        · split <;> rfl

theorem isSpace_of_isSymbolChar {c : Char} (hc : isSymbolChar c = true) : isSpace c = false := by
  cases hs : isSpace c with
  | false => rfl
  | true =>
    simp only [isSpace, Bool.or_eq_true, decide_eq_true_eq] at hs
    rcases hs with (rfl | rfl) | rfl <;> cases hc

theorem moveCode_word {l : LineState} {c : Char} {r : Chars} (hc : isSymbolChar c = true) (hR : c ≠ 'R') :
    moveCode l c r = .stop ⟨.code, l⟩ := by
  simp [moveCode, ne_of_isSymbolChar hc, hR, isSpace_of_isSymbolChar hc]

theorem move_word {lx next : Lexical} {c c' : Char} {r r' : Chars} (hc : isSymbolChar c = true) (hR : c ≠ 'R')
    (hc' : isSymbolChar c' = true) (hR' : c' ≠ 'R') (h : move lx c r = .stop next) :
    move lx c' r' = .stop next := by
  have hcont : ∀ {d : Char} {r : Chars}, isSymbolChar d = true → afterContinuation? (d :: r) = none := by
    intro d r hd
    simp [afterContinuation?, ne_of_isSymbolChar hd]
  unfold move at h ⊢
  rw [hcont hc] at h
  rw [hcont hc']
  obtain ⟨m, l⟩ := lx
  cases m with
  | code =>
    simp only [moveIn, moveCode_word hc hR] at h
    simp only [moveIn, moveCode_word hc' hR', h]
  | slash =>
    simp only [moveIn, moveCode_word hc hR, ne_of_isSymbolChar hc, ite_false] at h
    simp only [moveIn, moveCode_word hc' hR', ne_of_isSymbolChar hc', ite_false, h]
  | lineComment => cases h
  | literal q => cases q <;> simp [moveIn, moveLiteral, Quote.char, ne_of_isSymbolChar hc] at h
  | _ => simp [moveIn, moveBlock, ne_of_isSymbolChar hc] at h

/-- What stands in place of a word makes no difference to a cursor that did not get past it. -/
theorem skipParsed_word {w w' : Chars} (hw : StartsWord w) (hw' : StartsWord w') {lx lx' : Lexical} {p q : Chars}
    (h : skipParsed lx (p ++ w) = .ok (lx', q ++ w)) : skipParsed lx (p ++ w') = .ok (lx', q ++ w') := by
  generalize hcs : p ++ w = cs at h
  fun_induction CondResolve.skipParsed lx cs generalizing p with
  | case1 =>
    obtain ⟨c, r, rfl, -⟩ := hw
    simp at hcs
  | case2 lx c r next hm =>
    obtain ⟨rfl, he⟩ : next = lx' ∧ c :: r = q ++ w := by simpa using h
    have hp : p = q := List.append_cancel_right (hcs.trans he)
    subst hp
    cases p with
    | nil =>
      obtain ⟨c', r', rfl, hc', hR'⟩ := hw'
      obtain ⟨c'', r'', rfl, hc, hR⟩ := hw
      cases he
      exact skipParsed_stop (move_word hc hR hc' hR' hm)
    | cons d p =>
      rw [List.cons_append] at hcs
      obtain ⟨rfl, rfl⟩ := List.cons.inj hcs
      have hp : ∀ q, lx.mode = .literal q → p = [] → d ≠ '\\' := by
        rintro q hq rfl rfl
        have hn := not_continuation_of_stop (skipParsed_stop hm)
        rw [List.nil_append] at hn hm
        cases q <;> simp [move, hn, moveIn, moveLiteral, hq, Quote.char] at hm
      rw [move_append hw hp] at hm
      rw [List.cons_append]
      refine skipParsed_stop ?_
      rw [move_append hw' hp]
      cases hmp : move lx d p <;> rw [hmp] at hm <;> cases hm
      rfl
  | case3 => cases h
  | case4 lx c r next rest hm hle ih =>
    have hlen := (suffix_of_skipParsed h).length_le
    rw [List.length_append] at hlen
    cases p with
    | nil =>
      -- A move from `w` on would have passed the place where the cursor stopped.
      have : w = c :: r := hcs
      simp only [this, List.length_cons] at hlen
      omega
    | cons d p =>
      rw [List.cons_append] at hcs
      obtain ⟨rfl, rfl⟩ := List.cons.inj hcs
      have hp : ∀ q, lx.mode = .literal q → p = [] → d ≠ '\\' := by
        rintro q hq rfl rfl
        obtain ⟨c, r, rfl, hc, -⟩ := hw
        have hm' : move lx '\\' (c :: r) = .eat ⟨.literal q, lx.line⟩ r := by
          cases q <;> simp [move, afterContinuation?, moveIn, moveLiteral, hq, Quote.char, ne_of_isSymbolChar hc]
        rw [List.nil_append, hm'] at hm
        cases hm
        simp only [List.length_cons] at hlen
        omega
      rw [move_append hw hp] at hm
      cases hmp : move lx d p with
      | eat next' rest' =>
        rw [hmp] at hm
        cases hm
        have hm' : move lx d (p ++ w') = .eat next (rest' ++ w') := by rw [move_append hw' hp, hmp]; rfl
        rw [List.cons_append, skipParsed_eat hm']
        exact ih rfl h
      | _ => rw [hmp] at hm; cases hm

theorem skipSpace_word {w w' : Chars} (hw : StartsWord w) (hw' : StartsWord w') {lx lx' : Lexical} {p q : Chars}
    (h : skipSpace lx (p ++ w) = (lx', q ++ w)) : skipSpace lx (p ++ w') = (lx', q ++ w') := by
  have stops : ∀ {lx : Lexical} {w : Chars}, StartsWord w → skipSpace lx w = (lx, w) := by
    rintro lx _ ⟨c, r, rfl, hc, -⟩
    simp [skipSpace, isSpace_of_isSymbolChar hc, ne_of_isSymbolChar hc]
  induction p generalizing lx with
  | nil =>
    rw [List.nil_append, stops hw] at h
    obtain ⟨rfl, he⟩ : lx = lx' ∧ w = q ++ w := by simpa using h
    have hq : q = [] := by simpa using he
    rw [hq, List.nil_append, stops hw']
  | cons c p ih =>
    simp only [List.cons_append, skipSpace] at h ⊢
    split
    · rw [if_pos (by assumption)] at h
      exact ih h
    · rw [if_neg (by assumption)] at h
      split
      · rw [if_pos (by assumption)] at h
        exact ih h
      · rw [if_neg (by assumption)] at h
        obtain ⟨rfl, he⟩ : lx = lx' ∧ c :: (p ++ w) = q ++ w := by simpa using h
        have hq : c :: p = q := List.append_cancel_right he
        rw [← hq, List.cons_append]

theorem skip_word {w w' : Chars} (hw : StartsWord w) (hw' : StartsWord w') {p q : Chars}
    (h : skip verbatim lx (p ++ w) = .ok (lx', q ++ w)) : skip verbatim lx (p ++ w') = .ok (lx', q ++ w') := by
  cases verbatim with
  | false => exact skipParsed_word hw hw' h
  | true => exact congrArg Except.ok (skipSpace_word hw hw' (Except.ok.inj h))

/-- What is read up to the keyword of a directive. -/
theorem findKeyword_eq_ok {line w : Chars} (hw : w ≠ []) (h : findKeyword verbatim lx line = .ok (lx', w)) :
    ∃ ly r, skip verbatim lx line = .ok (ly, '#' :: r) ∧ ly.line = .start ∧
      skip verbatim { ly with line := .hash } r = .ok (lx', w) := by
  rcases findKeyword_cases h with hk | ⟨_, _, -, -, rfl⟩
  · exact hk
  · exact absurd rfl hw

theorem suffix_of_findKeyword {line w : Chars} (hw : w ≠ []) (h : findKeyword verbatim lx line = .ok (lx', w)) :
    w <:+ line := by
  obtain ⟨ly, r, hs, -, hk⟩ := findKeyword_eq_ok hw h
  exact (suffix_of_skip hk).trans ((List.suffix_cons ..).trans (suffix_of_skip hs))

theorem findKeyword_word {w w' p : Chars} (hw : StartsWord w) (hw' : StartsWord w')
    (h : findKeyword verbatim lx (p ++ w) = .ok (lx', w)) : findKeyword verbatim lx (p ++ w') = .ok (lx', w') := by
  have hne : w ≠ [] := by
    obtain ⟨c, r, rfl, -⟩ := hw
    simp
  obtain ⟨⟨m, l⟩, r, hs, rfl, hk⟩ := findKeyword_eq_ok hne h
  obtain ⟨q, rfl⟩ := suffix_of_skip hk
  have hs' := skip_word hw hw' (q := '#' :: q) hs
  have hk' : skip verbatim ⟨m, .hash⟩ (q ++ w') = .ok (lx', w') := skip_word hw hw' (q := []) hk
  simp [findKeyword, hs', hk', bind, Except.bind]

/-! ## A newline at the end -/

def Joins (cs : Chars) : Prop := ∃ p k, cs = p ++ k ∧ afterContinuation? k = some []

theorem Joins.of_suffix {cs full : Chars} (h : Joins cs) (hs : cs <:+ full) : Joins full := by
  obtain ⟨p, k, rfl, hk⟩ := h
  obtain ⟨q, rfl⟩ := hs
  exact ⟨q ++ p, k, by simp, hk⟩

theorem afterContinuation?_eq_none {cs : Chars} (h : '\n' ∉ cs) : afterContinuation? cs = none := by
  cases hc : afterContinuation? cs with
  | none => rfl
  | some r => rcases afterContinuation?_eq_some.mp hc with rfl | rfl <;> simp at h

/-- A newline completes a continuation only after a backslash, or after a backslash and a return. -/
theorem afterContinuation?_newline {nl : Newline} {r x : Chars} (hn : '\n' ∉ r)
    (h : afterContinuation? (r ++ nl.chars) = some x) : x = [] ∧ (r = ['\\'] ∨ r = ['\\', '\r']) := by
  rcases r with _ | ⟨a, _ | ⟨b, _ | ⟨d, r⟩⟩⟩ <;> cases nl <;>
    simp_all [afterContinuation?_eq_some, Newline.chars]
  all_goals grind

theorem moveCode_newline {nl : Newline} {l : LineState} {next : Lexical} {c : Char} {r rest : Chars}
    (hn : '\n' ∉ r) (h : moveCode l c r = .eat next rest) :
    moveCode l c (r ++ nl.chars) = .eat next (rest ++ nl.chars) := by
  unfold moveCode at h ⊢
  split
  · rw [if_pos (by assumption)] at h
    unfold moveSlash at h ⊢
    rw [afterContinuation?_eq_none hn] at h
    simp only at h
    split at h <;> cases h <;> rfl
  · rw [if_neg (by assumption)] at h
    repeat' split at h
    all_goals cases h
    all_goals simp_all

theorem moveBlock_newline {nl : Newline} {l : LineState} {next : Lexical} {c : Char} {r rest : Chars}
    (hn : '\n' ∉ r) (hb : c = '*' → afterContinuation? (r ++ nl.chars) = none)
    (h : moveBlock l c r = .eat next rest) :
    moveBlock l c (r ++ nl.chars) = .eat next (rest ++ nl.chars) := by
  unfold moveBlock at h ⊢
  split
  · rename_i hc
    rw [if_pos hc, afterContinuation?_eq_none hn] at h
    rw [hb hc]
    cases r with
    | nil =>
      cases h
      cases nl <;> rfl
    | cons d r =>
      by_cases hd : d = '/'
      · subst hd
        cases h
        rfl
      · have h : Move.eat ⟨.blockComment, l⟩ (d :: r) = .eat next rest := by simpa [hd] using h
        cases h
        simp [hd]
  · rw [if_neg (by assumption)] at h
    cases h
    rfl

theorem move_newline {nl : Newline} {lx next : Lexical} {c : Char} {r rest : Chars} (hn : '\n' ∉ c :: r)
    (hj : afterContinuation? (c :: (r ++ nl.chars)) = none)
    (hb : lx.mode = .blockComment ∨ lx.mode = .star → c = '*' → afterContinuation? (r ++ nl.chars) = none)
    (h : move lx c r = .eat next rest) : move lx c (r ++ nl.chars) = .eat next (rest ++ nl.chars) := by
  have hr : '\n' ∉ r := fun hm => hn (List.mem_cons_of_mem _ hm)
  unfold move at h ⊢
  rw [afterContinuation?_eq_none hn] at h
  rw [hj]
  have h : moveIn lx c r = .eat next rest := h
  show moveIn lx c (r ++ nl.chars) = .eat next (rest ++ nl.chars)
  obtain ⟨m, l⟩ := lx
  -- In each mode a move looks at most one character ahead, which the newline does not change.
  cases m with
  | code => exact moveCode_newline hr h
  | blockComment => exact moveBlock_newline hr (hb (.inl rfl)) h
  | lineComment => cases h; rfl
  | slash =>
    simp only [moveIn] at h ⊢
    split
    · rw [if_pos (by assumption)] at h
      cases h; rfl
    · rw [if_neg (by assumption)] at h
      split
      · rw [if_pos (by assumption)] at h
        cases h; rfl
      · rw [if_neg (by assumption)] at h
        exact moveCode_newline hr h
  | star =>
    simp only [moveIn] at h ⊢
    split
    · rw [if_pos (by assumption)] at h
      cases h; rfl
    · rw [if_neg (by assumption)] at h
      exact moveBlock_newline hr (hb (.inr rfl)) h
  | rawLiteral =>
    by_cases hc : c = ')'
    · subst hc
      cases r with
      | nil => cases h; cases nl <;> rfl
      | cons d r =>
        by_cases hd : d = '"'
        · subst hd
          cases h
          rfl
        · have h : Move.eat ⟨.rawLiteral, l⟩ (d :: r) = .eat next rest := by simpa [moveIn, hd] using h
          cases h
          simp [moveIn, hd]
    · have h : Move.eat ⟨.rawLiteral, l⟩ r = .eat next rest := by simpa [moveIn, hc] using h
      cases h
      simp [moveIn, hc]
  | literal q =>
    simp only [moveIn, moveLiteral] at h ⊢
    split
    · rw [if_pos (by assumption)] at h
      cases h; rfl
    · rw [if_neg (by assumption)] at h
      split
      · rename_i hc
        rw [if_pos hc] at h
        cases r with
        | nil => cases nl <;> simp [Newline.chars, afterContinuation?, hc] at hj
        | cons d r =>
          cases h
          rfl
      · rw [if_neg (by assumption)] at h
        split at h <;> cases h
        simp_all

theorem skipParsed_star {lx : Lexical} {r : Chars} (hm : lx.mode = .blockComment ∨ lx.mode = .star)
    (hr : r = ['\\'] ∨ r = ['\\', '\r']) : skipParsed lx ('*' :: r) = .ok (⟨.blockComment, lx.line⟩, []) := by
  obtain ⟨m, l⟩ := lx
  have hs : skipParsed ⟨m, l⟩ ('*' :: r) = skipParsed ⟨.blockComment, l⟩ r := by
    rcases hm with rfl | rfl <;> rcases hr with rfl | rfl <;> exact skipParsed_eat rfl
  rw [hs]
  rcases hr with rfl | rfl
  · rw [skipParsed_eat rfl, skipParsed_nil]
  · rw [skipParsed_eat rfl, skipParsed_eat rfl, skipParsed_nil]

theorem skipParsed_backslash {lx lx' : Lexical} {cs : Chars} (hcs : cs = ['\\'] ∨ cs = ['\\', '\r'])
    (h : skipParsed lx cs = .ok (lx', [])) (hm : lx'.mode = .code ∨ lx'.mode = .lineComment) :
    lx.mode = .lineComment ∧ lx' = lx := by
  obtain ⟨m, l⟩ := lx
  -- In a comment or literal of another kind the cursor stays; in code a backslash stops it.
  cases m with
  | code => rcases hcs with rfl | rfl <;> rw [skipParsed_stop rfl] at h <;> cases h
  | slash => rcases hcs with rfl | rfl <;> rw [skipParsed_stop rfl] at h <;> cases h
  | literal q =>
    have hmove : ∀ r, afterContinuation? ('\\' :: r) = none →
        move ⟨.literal q, l⟩ '\\' r = .eat ⟨.literal q, l⟩ (r.drop 1) := by
      intro r hr
      cases q <;> simp [move, hr, moveIn, moveLiteral, Quote.char]
    rcases hcs with rfl | rfl <;> rw [skipParsed_eat (hmove _ rfl)] at h <;>
      simp only [List.drop_nil, List.drop_one, List.tail_cons, skipParsed_nil] at h <;> cases h <;> simp at hm
  | _ =>
    rcases hcs with rfl | rfl
    · rw [skipParsed_eat rfl, skipParsed_nil] at h
      cases h
      simp_all
    · rw [skipParsed_eat rfl, skipParsed_eat rfl, skipParsed_nil] at h
      cases h
      simp_all

theorem skipParsed_newline_nil {nl : Newline} {lx : Lexical} (hm : lx.mode = .code ∨ lx.mode = .lineComment) :
    skipParsed lx nl.chars = .ok (⟨.code, .start⟩, []) := by
  obtain ⟨m, l⟩ := lx
  cases nl with
  | lf =>
    show skipParsed ⟨m, l⟩ ['\n'] = _
    rcases hm with rfl | rfl
    · rw [skipParsed_eat rfl, skipParsed_nil]
    · rw [skipParsed_eat rfl, skipParsed_nil]
      rfl
  | crlf =>
    show skipParsed ⟨m, l⟩ ['\r', '\n'] = _
    rcases hm with rfl | rfl
    · rw [skipParsed_eat rfl, skipParsed_eat rfl, skipParsed_nil]
    · rw [skipParsed_eat rfl, skipParsed_eat rfl, skipParsed_nil]
      rfl

/-- A line that was read to its end without a newline, in code or in a line comment, is read anew with
one. Behind a backslash the newline is part of a continuation, so that the comment goes on. -/
theorem skipParsed_newline {nl : Newline} {lx lx' : Lexical} {r : Chars} (hn : '\n' ∉ r)
    (h : CondResolve.skipParsed lx r = .ok (lx', [])) (hm : lx'.mode = .code ∨ lx'.mode = .lineComment) :
    CondResolve.skipParsed lx (r ++ nl.chars) = .ok (⟨.code, .start⟩, []) ∨
      Joins (r ++ nl.chars) ∧ lx'.mode = .lineComment ∧
        CondResolve.skipParsed lx (r ++ nl.chars) = .ok (lx', []) := by
  fun_induction CondResolve.skipParsed lx r with
  | case1 =>
    cases h
    exact .inl (skipParsed_newline_nil hm)
  | case2 => cases h
  | case3 => cases h
  | case4 lx c r next rest he hle ih =>
    have hr : '\n' ∉ rest := fun hm => hn (List.mem_cons_of_mem _ ((suffix_of_move he).mem hm))
    cases hj : afterContinuation? (c :: (r ++ nl.chars)) with
    | some x =>
      -- The backslash before the newline continues the line, which can only be in a line comment.
      obtain ⟨rfl, hx⟩ := afterContinuation?_newline (r := c :: r) hn hj
      rw [← skipParsed_eat he] at h
      obtain ⟨hmode, rfl⟩ := skipParsed_backslash hx h hm
      refine .inr ⟨⟨[], _, rfl, hj⟩, hmode, ?_⟩
      rw [List.cons_append, skipParsed_eat (move_continuation hj), skipParsed_nil]
    | none =>
      -- A star in a comment that a continuation follows would be left in the comment, not in code.
      have hb : lx.mode = .blockComment ∨ lx.mode = .star → c = '*' →
          afterContinuation? (r ++ nl.chars) = none := by
        rintro hmode rfl
        cases hx : afterContinuation? (r ++ nl.chars) with
        | none => rfl
        | some x =>
          have hx := (afterContinuation?_newline (fun hm => hn (List.mem_cons_of_mem _ hm)) hx).2
          have hs := skipParsed_star hmode hx
          rw [skipParsed_eat he, h] at hs
          cases hs
          simp at hm
      have he' := move_newline hn hj hb he
      rw [List.cons_append, skipParsed_eat he']
      rcases ih hr h with ih | ⟨hjoin, hmode, ih⟩
      · exact .inl ih
      · refine .inr ⟨hjoin.of_suffix ?_, hmode, ih⟩
        exact (suffix_of_move he').trans (List.suffix_cons ..)

theorem skipSpace_newline {nl : Newline} {r : Chars} (h : (skipSpace lx r).2 = []) :
    skipSpace lx (r ++ nl.chars) = (⟨lx.mode, .start⟩, []) := by
  induction r generalizing lx with
  | nil => cases nl <;> simp [Newline.chars, skipSpace, isSpace]
  | cons c r ih =>
    rw [List.cons_append]
    rw [skipSpace] at h ⊢
    split
    · rw [if_pos (by assumption)] at h
      exact ih h
    · rw [if_neg (by assumption)] at h
      split
      · rw [if_pos (by assumption)] at h
        exact ih h
      · rw [if_neg (by assumption)] at h
        cases h

theorem skip_newline (nl : Newline) {r : Chars} (hf : lx.Fits verbatim) (hn : '\n' ∉ r)
    (h : skip verbatim lx r = .ok (lx', [])) (hm : lx'.mode = .code ∨ lx'.mode = .lineComment) :
    skip verbatim lx (r ++ nl.chars) = .ok (⟨.code, .start⟩, []) ∨
      Joins (r ++ nl.chars) ∧ lx'.mode = .lineComment ∧ skip verbatim lx (r ++ nl.chars) = .ok (lx', []) := by
  cases verbatim with
  | false => exact skipParsed_newline hn h hm
  | true =>
    have hs : skipSpace lx r = (lx', []) := Except.ok.inj h
    refine .inl (congrArg Except.ok ?_)
    rw [skipSpace_newline (by rw [hs]), hf rfl]

end

end CondResolve
