import CondResolve.Lexical

/-!
# Reading on in a line

The cursor only ever moves to suffixes of the line, and the newline that ends a line is the one
character that makes its state `start` again.
-/

namespace CondResolve

/-! ## Single lines -/

/-- A newline can only be the last character. -/
def OneLine (cs : Chars) : Prop := '\n' ∉ cs.dropLast

theorem OneLine.tail {c : Char} {cs : Chars} (h : OneLine (c :: cs)) : OneLine cs := by
  cases cs with
  | nil => simp [OneLine]
  | cons d cs => exact fun hm => h (List.mem_cons_of_mem _ hm)

theorem OneLine.ne_newline {c : Char} {cs : Chars} (h : OneLine (c :: cs)) (hc : cs ≠ []) : c ≠ '\n' := by
  rintro rfl
  cases cs with
  | nil => exact hc rfl
  | cons d cs => exact h (List.mem_cons_self ..)

theorem OneLine.cons {c : Char} {cs : Chars} (hc : c ≠ '\n') (h : OneLine cs) : OneLine (c :: cs) := by
  cases cs with
  | nil => simp [OneLine]
  | cons d cs =>
    intro hm
    rcases List.mem_cons.mp hm with hm | hm
    · exact hc hm.symm
    · exact h hm

theorem OneLine.suffix {cs rest : Chars} (h : OneLine cs) (hs : rest <:+ cs) : OneLine rest := by
  obtain ⟨p, rfl⟩ := hs
  induction p with
  | nil => exact h
  | cons c p ih => exact ih h.tail

/-! ## One move -/

theorem suffix_of_afterContinuation? {cs rest : Chars} (h : afterContinuation? cs = some rest) :
    rest <:+ cs := by
  unfold afterContinuation? at h
  split at h <;> cases h
  · exact ⟨['\\', '\r', '\n'], rfl⟩
  · exact ⟨['\\', '\n'], rfl⟩

theorem rest_of_moveLiteral {q : Quote} {line : LineState} {next : Lexical} {c : Char} {r rest : Chars}
    (h : moveLiteral q line c r = .eat next rest) : rest = r ∨ c = '\\' ∧ ∃ d, r = d :: rest := by
  unfold moveLiteral at h
  split at h
  · cases h
    exact .inl rfl
  · split at h
    · cases h
      cases r with
      | nil => exact .inl rfl
      | cons d r => exact .inr ⟨by assumption, d, rfl⟩
    · split at h <;> cases h
      exact .inl rfl

/-- All that a move can pass over: a continuation, one character, a slash or star with the continuation
after it, or one of the pairs and triples that open or close something. -/
theorem rest_of_move {lx next : Lexical} {c : Char} {r rest : Chars} (h : move lx c r = .eat next rest) :
    afterContinuation? (c :: r) = some rest ∨ rest = r ∨
      ((c = '/' ∨ c = '*') ∧ afterContinuation? r = some rest) ∨
      (∃ d, r = d :: rest ∧ (c = '\\' ∨ d = '*' ∨ d = '/' ∨ d = '"')) ∨ r = '"' :: '(' :: rest := by
  unfold move at h
  split at h
  · rename_i hc
    cases h
    exact .inl hc
  · unfold moveIn moveCode moveSlash moveBlock at h
    split at h
    case h_3 =>
      rcases rest_of_moveLiteral h with rfl | ⟨hc, d, rfl⟩
      · exact .inr (.inl rfl)
      · exact .inr (.inr (.inr (.inl ⟨d, rfl, .inl hc⟩)))
    all_goals repeat' split at h
    all_goals cases h
    all_goals simp_all

theorem suffix_of_move {lx next : Lexical} {c : Char} {r rest : Chars} (h : move lx c r = .eat next rest) :
    rest <:+ r := by
  rcases rest_of_move h with hc | rfl | ⟨-, hc⟩ | ⟨d, rfl, -⟩ | rfl
  · rcases List.suffix_cons_iff.mp (suffix_of_afterContinuation? hc) with rfl | h'
    · exact absurd (length_of_afterContinuation? hc) (Nat.lt_irrefl _)
    · exact h'
  · exact List.suffix_rfl
  · exact suffix_of_afterContinuation? hc
  · exact List.suffix_cons ..
  · exact ⟨['"', '('], rfl⟩

theorem line_of_move {lx next : Lexical} {c : Char} {r rest : Chars} (h : move lx c r = .eat next rest) :
    next.line = lx.line ∨ next.line = .dirty ∨ c = '\n' ∧ rest = r ∧ next = ⟨.code, .start⟩ := by
  unfold move at h
  split at h
  · cases h
    exact .inl rfl
  · unfold moveIn moveCode moveSlash moveBlock moveLiteral at h
    repeat' split at h
    all_goals cases h
    all_goals simp_all

theorem line_of_stop {lx next : Lexical} {c : Char} {r : Chars} (h : move lx c r = .stop next) :
    next.mode = .code ∧ (next.line = lx.line ∨ next.line = .dirty) := by
  unfold move moveIn moveCode moveSlash moveBlock moveLiteral at h
  repeat' split at h
  all_goals cases h
  all_goals simp

theorem mode_of_broken {lx : Lexical} {c : Char} {r : Chars} {q : Quote} (h : move lx c r = .broken q) :
    lx.mode = .literal q := by
  unfold move moveIn moveCode moveSlash moveBlock moveLiteral at h
  repeat' split at h
  all_goals cases h
  assumption

theorem stop_again {lx next : Lexical} {c : Char} {r : Chars} (h : move lx c r = .stop next) :
    move next c r = .stop next := by
  unfold move at h
  split at h
  · cases h
  · rename_i hc
    have hnext : move next c r = moveIn next c r := by simp [move, hc]
    rw [hnext]
    unfold moveIn moveCode moveSlash moveBlock moveLiteral at h
    repeat' split at h
    all_goals cases h
    all_goals simp_all [moveIn, moveCode, moveSlash]

/-- A continuation that splits a comment delimiter ends the text eaten. -/
theorem split_of_move {lx next : Lexical} {c : Char} {r rest : Chars} (h : move lx c r = .eat next rest)
    (hn : next.mode = .slash ∨ next.mode = .star) :
    next.mode = lx.mode ∨ (c = '/' ∨ c = '*') ∧ afterContinuation? r = some rest := by
  unfold move at h
  split at h
  · cases h
    exact .inl rfl
  · unfold moveIn moveCode moveSlash moveBlock moveLiteral at h
    repeat' split at h
    all_goals cases h
    all_goals simp_all

def Move.mapLine (f : LineState → LineState) : Move → Move
  | .stop next => .stop { next with line := f next.line }
  | .eat next rest => .eat { next with line := f next.line } rest
  | .broken q => .broken q

/-- How the modes go on does not depend on the state of the line. -/
theorem mode_of_move (m : Mode) (l l' : LineState) (c : Char) (r : Chars) :
    (move ⟨m, l⟩ c r).mapLine (fun _ => .start) = (move ⟨m, l'⟩ c r).mapLine (fun _ => .start) := by
  unfold move
  split
  · rfl
  · unfold moveIn moveCode moveSlash moveBlock moveLiteral
    cases m <;> simp only <;> repeat' split
    all_goals rfl

/-! ## On to the next code character -/

@[simp] theorem skipParsed_nil (lx : Lexical) : skipParsed lx [] = .ok (lx, []) := by
  rw [skipParsed]

theorem skipParsed_stop {lx next : Lexical} {c : Char} {r : Chars} (h : move lx c r = .stop next) :
    skipParsed lx (c :: r) = .ok (next, c :: r) := by
  rw [skipParsed]
  split <;> simp_all

theorem skipParsed_eat {lx next : Lexical} {c : Char} {r rest : Chars} (h : move lx c r = .eat next rest) :
    skipParsed lx (c :: r) = skipParsed next rest := by
  rw [skipParsed]
  split <;> simp_all

section
variable {lx lx' : Lexical} {cs rest : Chars}

theorem suffix_of_skipParsed (h : skipParsed lx cs = .ok (lx', rest)) : rest <:+ cs := by
  fun_induction skipParsed lx cs with
  | case1 => cases h; exact List.suffix_rfl
  | case2 => cases h; exact List.suffix_rfl
  | case3 => cases h
  | case4 lx c r next rest' hm hle ih =>
    exact (ih h).trans ((suffix_of_move hm).trans (List.suffix_cons ..))

theorem line_of_skipParsed (ho : OneLine cs) (h : skipParsed lx cs = .ok (lx', rest)) :
    lx'.line = lx.line ∨ lx'.line = .dirty ∨ rest = [] ∧ lx' = ⟨.code, .start⟩ := by
  fun_induction skipParsed lx cs with
  | case1 => cases h; exact .inl rfl
  | case2 lx c r next hm =>
    cases h
    rcases (line_of_stop hm).2 with hn | hn
    · exact .inl hn
    · exact .inr (.inl hn)
  | case3 => cases h
  | case4 lx c r next rest' hm hle ih =>
    have ih := ih (ho.tail.suffix (suffix_of_move hm)) h
    rcases line_of_move hm with hn | hn | ⟨rfl, rfl, rfl⟩
    · rwa [hn] at ih
    · rw [hn] at ih
      exact .inr (ih.elim .inl id)
    · -- The newline was the last character.
      cases rest' with
      | nil =>
        rw [skipParsed_nil] at h
        cases h
        exact .inr (.inr ⟨rfl, rfl⟩)
      | cons d r => exact absurd rfl (ho.ne_newline (by simp))

theorem skipParsed_again (h : skipParsed lx cs = .ok (lx', rest)) : skipParsed lx' rest = .ok (lx', rest) := by
  fun_induction skipParsed lx cs with
  | case1 => cases h; exact skipParsed_nil _
  | case2 lx c r next hm => cases h; exact skipParsed_stop (stop_again hm)
  | case3 => cases h
  | case4 lx c r next rest' hm hle ih => exact ih h

theorem mode_of_skipParsed_stop (h : skipParsed lx cs = .ok (lx', rest)) (hr : rest ≠ []) : lx'.mode = .code := by
  fun_induction skipParsed lx cs with
  | case1 => cases h; exact absurd rfl hr
  | case2 lx c r next hm => cases h; exact (line_of_stop hm).1
  | case3 => cases h
  | case4 lx c r next rest' hm hle ih => exact ih h

theorem skipParsed_mode {m : Mode} {l : LineState} (l' : LineState)
    (h : skipParsed ⟨m, l⟩ cs = .ok (lx', rest)) :
    ∃ l'', skipParsed ⟨m, l'⟩ cs = .ok (⟨lx'.mode, l''⟩, rest) := by
  generalize hlx : (⟨m, l⟩ : Lexical) = lx at h
  fun_induction skipParsed lx cs generalizing m l l' with
  | case1 =>
    cases h
    subst hlx
    exact ⟨l', skipParsed_nil _⟩
  | case2 lx c r next hm =>
    cases h
    subst hlx
    have hmode := mode_of_move m l l' c r
    rw [hm] at hmode
    cases hm' : move ⟨m, l'⟩ c r with
    | stop next' =>
      rw [hm'] at hmode
      simp only [Move.mapLine, Move.stop.injEq, Lexical.mk.injEq, and_true] at hmode
      refine ⟨next'.line, ?_⟩
      rw [skipParsed_stop hm', hmode]
    | _ => rw [hm'] at hmode; cases hmode
  | case3 => cases h
  | case4 lx c r next rest' hm hle ih =>
    subst hlx
    have hmode := mode_of_move m l l' c r
    rw [hm] at hmode
    cases hm' : move ⟨m, l'⟩ c r with
    | eat next' rest'' =>
      rw [hm'] at hmode
      simp only [Move.mapLine, Move.eat.injEq, Lexical.mk.injEq, and_true] at hmode
      obtain ⟨hn, rfl⟩ := hmode
      obtain ⟨l'', hl⟩ := ih next'.line rfl h
      refine ⟨l'', ?_⟩
      rw [skipParsed_eat hm', ← hl, hn]
    | _ => rw [hm'] at hmode; cases hmode

theorem suffix_skipSpace (lx : Lexical) (cs : Chars) : (skipSpace lx cs).2 <:+ cs := by
  induction cs generalizing lx with
  | nil => exact List.suffix_rfl
  | cons c r ih =>
    rw [skipSpace]
    split
    · exact (ih _).trans (List.suffix_cons ..)
    · split
      · exact (ih _).trans (List.suffix_cons ..)
      · exact List.suffix_rfl

theorem mode_skipSpace (lx : Lexical) (cs : Chars) : (skipSpace lx cs).1.mode = lx.mode := by
  induction cs generalizing lx with
  | nil => rfl
  | cons c r ih =>
    rw [skipSpace]
    split
    · rw [ih]
    · split
      · rw [ih]
      · rfl

theorem line_skipSpace (lx : Lexical) {cs : Chars} (ho : OneLine cs) :
    (skipSpace lx cs).1.line = lx.line ∨ (skipSpace lx cs).2 = [] ∧ (skipSpace lx cs).1.line = .start := by
  induction cs generalizing lx with
  | nil => exact .inl rfl
  | cons c r ih =>
    rw [skipSpace]
    split
    · rename_i hc
      cases r with
      | nil => exact .inr ⟨rfl, rfl⟩
      | cons d r => exact absurd hc (ho.ne_newline (by simp))
    · split
      · exact ih lx ho.tail
      · exact .inl rfl

theorem skipSpace_mode (m : Mode) (l : LineState) (m' : Mode) (l' : LineState) (cs : Chars) :
    (skipSpace ⟨m, l⟩ cs).2 = (skipSpace ⟨m', l'⟩ cs).2 := by
  induction cs generalizing l l' with
  | nil => rfl
  | cons c r ih =>
    rw [skipSpace, skipSpace]
    split
    · exact ih ..
    · split
      · exact ih ..
      · rfl

theorem skipSpace_again (lx : Lexical) (cs : Chars) :
    skipSpace (skipSpace lx cs).1 (skipSpace lx cs).2 = skipSpace lx cs := by
  induction cs generalizing lx with
  | nil => rfl
  | cons c r ih =>
    rw [skipSpace]
    split
    · exact ih _
    · split
      · exact ih _
      · simp_all [skipSpace]

/-- In verbatim text the cursor is never in a comment or literal. -/
def Lexical.Fits (verbatim : Bool) (lx : Lexical) : Prop := verbatim = true → lx.mode = .code

variable {verbatim : Bool}

theorem suffix_of_skip (h : skip verbatim lx cs = .ok (lx', rest)) : rest <:+ cs := by
  cases verbatim with
  | false => exact suffix_of_skipParsed h
  | true =>
    have hs : skipSpace lx cs = (lx', rest) := Except.ok.inj h
    have := suffix_skipSpace lx cs
    rwa [hs] at this

theorem fits_of_skip (hf : lx.Fits verbatim) (h : skip verbatim lx cs = .ok (lx', rest)) : lx'.Fits verbatim := by
  rintro rfl
  have hs : skipSpace lx cs = (lx', rest) := Except.ok.inj h
  have := mode_skipSpace lx cs
  rw [hs] at this
  exact this.trans (hf rfl)

theorem line_of_skip (hf : lx.Fits verbatim) (ho : OneLine cs) (h : skip verbatim lx cs = .ok (lx', rest)) :
    lx'.line = lx.line ∨ lx'.line = .dirty ∨ rest = [] ∧ lx' = ⟨.code, .start⟩ := by
  cases verbatim with
  | false => exact line_of_skipParsed ho h
  | true =>
    have hs : skipSpace lx cs = (lx', rest) := Except.ok.inj h
    have hl := line_skipSpace lx ho
    rw [hs] at hl
    rcases hl with hl | ⟨hr, hl⟩
    · exact .inl hl
    · have hm : lx'.mode = .code := fits_of_skip hf h rfl
      exact .inr (.inr ⟨hr, by rw [← hm, ← hl]⟩)

theorem mode_of_skip_stop (hf : lx.Fits verbatim) (h : skip verbatim lx cs = .ok (lx', rest)) (hr : rest ≠ []) :
    lx'.mode = .code := by
  cases verbatim with
  | false => exact mode_of_skipParsed_stop h hr
  | true => exact fits_of_skip hf h rfl

theorem skip_again (h : skip verbatim lx cs = .ok (lx', rest)) : skip verbatim lx' rest = .ok (lx', rest) := by
  cases verbatim with
  | false => exact skipParsed_again h
  | true =>
    have hs : skipSpace lx cs = (lx', rest) := Except.ok.inj h
    have hagain := skipSpace_again lx cs
    rw [hs] at hagain
    exact congrArg Except.ok hagain

theorem skip_mode {ly : Lexical} (hm : ly.mode = lx.mode) (h : skip verbatim lx cs = .ok (lx', rest)) :
    ∃ l, skip verbatim ly cs = .ok (⟨lx'.mode, l⟩, rest) := by
  obtain ⟨m, l⟩ := lx
  obtain ⟨m', l'⟩ := ly
  cases hm
  cases verbatim with
  | false => exact skipParsed_mode l' h
  | true =>
    have hs : skipSpace ⟨m, l⟩ cs = (lx', rest) := Except.ok.inj h
    have hm := (mode_skipSpace ⟨m, l⟩ cs).trans (mode_skipSpace ⟨m, l'⟩ cs).symm
    have hr := skipSpace_mode m l m l' cs
    rw [hs] at hm hr
    refine ⟨(skipSpace ⟨m, l'⟩ cs).1.line, congrArg Except.ok (Prod.ext ?_ hr.symm)⟩
    rw [hm]

theorem skip_line (l : LineState) (h : skip verbatim lx cs = .ok (lx', rest)) :
    ∃ l', skip verbatim ⟨lx.mode, l⟩ cs = .ok (⟨lx'.mode, l'⟩, rest) := by
  have hm : (⟨lx.mode, l⟩ : Lexical).mode = lx.mode := rfl
  exact skip_mode hm h

@[simp] theorem skip_nil (lx : Lexical) : skip verbatim lx [] = .ok (lx, []) := by
  cases verbatim
  · exact skipParsed_nil lx
  · rfl

/-! ## On to the end of the line -/

theorem drain_done (h : skip verbatim lx cs = .ok (lx', [])) : drain verbatim lx cs = .ok lx' := by
  rw [drain]
  split <;> simp_all

theorem drain_next {c : Char} (h : skip verbatim lx cs = .ok (lx', c :: rest)) :
    drain verbatim lx cs = drain verbatim lx' rest := by
  rw [drain]
  split <;> simp_all

theorem drain_error {b : Broken} (h : skip verbatim lx cs = .error b) : drain verbatim lx cs = .error b := by
  rw [drain]
  split <;> simp_all

/-- What is read to the end of the line depends only on the next code character. -/
theorem drain_congr {ly : Lexical} {ds : Chars} (h : skip verbatim lx cs = skip verbatim ly ds) :
    drain verbatim lx cs = drain verbatim ly ds := by
  cases hs : skip verbatim lx cs with
  | error b => rw [drain_error hs, drain_error (h ▸ hs)]
  | ok next =>
    have hs' := h ▸ hs
    obtain ⟨lx', rest⟩ := next
    cases rest with
    | nil => rw [drain_done hs, drain_done hs']
    | cons c r => rw [drain_next hs, drain_next hs']

theorem drain_mode (l : LineState) (h : drain verbatim lx cs = .ok lx') :
    ∃ l', drain verbatim ⟨lx.mode, l⟩ cs = .ok ⟨lx'.mode, l'⟩ := by
  fun_induction drain verbatim lx cs generalizing l with
  | case1 => cases h
  | case2 lx cs lz hs =>
    cases h
    obtain ⟨l', hs'⟩ := skip_line l hs
    exact ⟨l', drain_done hs'⟩
  | case3 lx cs lz c r hs hle ih =>
    obtain ⟨l', hs'⟩ := skip_line l hs
    rw [drain_next hs']
    exact ih l' h

/-- There is a hash and what follows it, or none and the line is read to its end. -/
theorem findKeyword_cases {line w : Chars} (h : findKeyword verbatim lx line = .ok (lx', w)) :
    (∃ ly r, skip verbatim lx line = .ok (ly, '#' :: r) ∧ ly.line = .start ∧
      skip verbatim { ly with line := .hash } r = .ok (lx', w)) ∨
    ∃ ly rest, skip verbatim lx line = .ok (ly, rest) ∧ skipLine verbatim ly rest = .ok lx' ∧ w = [] := by
  unfold findKeyword at h
  cases hs : skip verbatim lx line with
  | error b => rw [hs] at h; cases h
  | ok p =>
    obtain ⟨⟨m, l⟩, rest⟩ := p
    rw [hs] at h
    simp only [bind, Except.bind] at h
    split at h
    · exact .inl ⟨_, _, rfl, rfl, h⟩
    · split at h
      · cases h
      · rename_i hline
        cases h
        exact .inr ⟨_, _, rfl, hline, rfl⟩

/-- A line without a keyword is scanned as it is read for one. -/
theorem scan_of_findKeyword {line : Chars} (hne : line ≠ []) (l : LineState)
    (h : findKeyword false lx line = .ok (lx', [])) :
    ∃ l', skipLine false ⟨lx.mode, l⟩ line = .ok ⟨lx'.mode, l'⟩ := by
  rw [skipLine, if_neg (by simpa using hne)]
  rcases findKeyword_cases h with ⟨ly, r, hs, -, hw⟩ | ⟨ly, rest, hs, hline, -⟩
  · obtain ⟨l₁, hs₁⟩ := skip_line .dirty hs
    obtain ⟨l₂, hs₂⟩ := skip_line l₁ hw
    rw [drain_next hs₁]
    exact ⟨l₂, drain_done hs₂⟩
  · obtain ⟨l₁, hs₁⟩ := skip_line .dirty hs
    cases rest with
    | nil =>
      cases hline
      exact ⟨l₁, drain_done hs₁⟩
    | cons c r =>
      have hagain : skip false ly (c :: r) = .ok (ly, c :: r) := skipParsed_again hs
      obtain ⟨l₂, hs₂⟩ := skip_line .dirty hagain
      rw [skipLine, if_neg (by simp), drain_next hs₂] at hline
      rw [drain_next hs₁]
      have hdrain := drain_mode l₁ hline
      exact hdrain

def Lexical.Sound (lx : Lexical) : Prop := lx.line = .start → lx.mode = .code

theorem sound_of_skip (hf : lx.Fits verbatim) (hl : lx.line ≠ .start) (ho : OneLine cs)
    (h : skip verbatim lx cs = .ok (lx', rest)) : lx'.Sound ∧ (rest ≠ [] → lx'.line ≠ .start) := by
  rcases line_of_skip hf ho h with h' | h' | ⟨rfl, rfl⟩
  · rw [← h'] at hl
    exact ⟨fun hs => absurd hs hl, fun _ => hl⟩
  · have hn : lx'.line ≠ .start := by simp [h']
    exact ⟨fun hs => absurd hs hn, fun _ => hn⟩
  · exact ⟨fun _ => rfl, fun hr => absurd rfl hr⟩

theorem sound_of_drain (hf : lx.Fits verbatim) (hl : lx.line ≠ .start) (ho : OneLine cs)
    (h : drain verbatim lx cs = .ok lx') : lx'.Sound ∧ lx'.Fits verbatim := by
  fun_induction drain verbatim lx cs with
  | case1 => cases h
  | case2 lx cs ly hs =>
    cases h
    exact ⟨(sound_of_skip hf hl ho hs).1, fits_of_skip hf hs⟩
  | case3 lx cs ly c r hs hle ih =>
    have ho' := (ho.suffix (suffix_of_skip hs)).tail
    exact ih (fits_of_skip hf hs) ((sound_of_skip hf hl ho hs).2 (by simp)) ho' h

theorem sound_of_skipLine (hf : lx.Fits verbatim) (ho : OneLine cs) (hc : cs ≠ [])
    (h : skipLine verbatim lx cs = .ok lx') : lx'.Sound ∧ lx'.Fits verbatim := by
  rw [skipLine, if_neg (by simpa using hc)] at h
  have hf' : Lexical.Fits verbatim { lx with line := .dirty } := hf
  exact sound_of_drain hf' (by simp) ho h

theorem line_of_drain (hf : lx.Fits verbatim) (hl : lx.line ≠ .hash) (ho : OneLine cs)
    (h : drain verbatim lx cs = .ok lx') : lx'.line ≠ .hash := by
  have hskip : ∀ {lx lx' : Lexical} {cs rest : Chars}, lx.Fits verbatim → lx.line ≠ .hash → OneLine cs →
      skip verbatim lx cs = .ok (lx', rest) → lx'.line ≠ .hash := by
    intro lx lx' cs rest hf hl ho hs
    rcases line_of_skip hf ho hs with h' | h' | ⟨-, rfl⟩
    · rwa [h']
    · simp [h']
    · decide
  fun_induction drain verbatim lx cs with
  | case1 => cases h
  | case2 lx cs ly hs =>
    cases h
    exact hskip hf hl ho hs
  | case3 lx cs ly c r hs hle ih =>
    exact ih (fits_of_skip hf hs) (hskip hf hl ho hs) (ho.suffix (suffix_of_skip hs)).tail h

theorem line_of_skipLine (hf : lx.Fits verbatim) (ho : OneLine cs) (hc : cs ≠ [])
    (h : skipLine verbatim lx cs = .ok lx') : lx'.line ≠ .hash := by
  rw [skipLine, if_neg (by simpa using hc)] at h
  have hf' : Lexical.Fits verbatim { lx with line := .dirty } := hf
  exact line_of_drain hf' (by simp) ho h

end

end CondResolve
