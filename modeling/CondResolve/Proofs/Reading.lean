import CondResolve.Proofs.Rules

/-!
# Where conditions leave the cursor

A condition is read within its line. Arguments that are never closed send the reader back to their
parenthesis with the state of the end of the line, and a fault sends it back to the keyword; the state it
keeps from there is one that the line has led to.
-/

namespace CondResolve

variable {verbatim : Bool} {full : Chars}

structure Lexical.Within (verbatim : Bool) (full : Chars) (lx : Lexical) : Prop where
  fits : lx.Fits verbatim
  sound : lx.Sound
  split : lx.mode.isSplit = true → SplitEnd full

/-- The cursor stands at `cs` in `full`. If the line was read to its end before, nothing is left or the
cursor is back at an opening parenthesis. -/
structure Standing (verbatim : Bool) (full : Chars) (lx : Lexical) (cs : Chars) : Prop where
  within : lx.Within verbatim full
  suffix : cs <:+ full
  begun : lx.line = .start → cs = [] ∨ ∃ ly r, skip verbatim lx cs = .ok (ly, '(' :: r)

section
variable {lx lx' : Lexical} {cs rest : Chars}

theorem skip_paren {r : Chars} (hm : lx.mode = .code) : skip verbatim lx ('(' :: r) = .ok (lx, '(' :: r) := by
  obtain ⟨m, l⟩ := lx
  cases hm
  cases verbatim with
  | false => exact skipParsed_stop rfl
  | true => rfl

theorem splitEnd_of_skip (ho : OneLine cs) (hf : lx.Fits verbatim) (h : skip verbatim lx cs = .ok (lx', rest))
    (hm : lx'.mode.isSplit = true) : lx.mode.isSplit = true ∨ SplitEnd cs := by
  cases verbatim with
  | false => exact splitEnd_of_skipParsed ho h hm
  | true =>
    rw [fits_of_skip hf h rfl] at hm
    cases hm

namespace Standing

theorem of_line (hw : lx.Within verbatim full) (hs : cs <:+ full) (hl : lx.line ≠ .start) :
    Standing verbatim full lx cs :=
  ⟨hw, hs, fun h => absurd h hl⟩

theorem advance (h : Standing verbatim full lx cs) (hl : lx.line ≠ .start) (hs : rest <:+ cs) :
    Standing verbatim full lx rest :=
  of_line h.within (hs.trans h.suffix) hl

theorem oneLine (ho : OneLine full) (h : Standing verbatim full lx cs) : OneLine cs := ho.suffix h.suffix

theorem split_of_skip (ho : OneLine full) (h : Standing verbatim full lx cs)
    (hs : skip verbatim lx cs = .ok (lx', rest)) (hm : lx'.mode.isSplit = true) : SplitEnd full := by
  rcases splitEnd_of_skip (h.oneLine ho) h.within.fits hs hm with hm' | hm'
  · exact h.within.split hm'
  · exact hm'.of_suffix h.suffix

theorem skip (ho : OneLine full) (h : Standing verbatim full lx cs)
    (hs : CondResolve.skip verbatim lx cs = .ok (lx', rest)) : Standing verbatim full lx' rest := by
  have hf := h.within.fits
  have hsuf := (suffix_of_skip hs).trans h.suffix
  have hsplit := h.split_of_skip ho hs
  by_cases hl : lx.line = .start
  · rcases h.begun hl with rfl | ⟨ly, r, hp⟩
    · rw [skip_nil] at hs
      cases hs
      exact h
    · rw [hp] at hs
      cases hs
      have hm := mode_of_skip_stop hf hp (by simp)
      exact ⟨⟨fits_of_skip hf hp, fun _ => hm, hsplit⟩, hsuf, fun _ => .inr ⟨lx', r, skip_paren hm⟩⟩
  · obtain ⟨hsound, hrest⟩ := sound_of_skip hf hl (h.oneLine ho) hs
    refine ⟨⟨fits_of_skip hf hs, hsound, hsplit⟩, hsuf, fun hb => .inl ?_⟩
    exact Decidable.byContradiction fun hr => hrest hr hb

/-- Past anything but an opening parenthesis the line has not been read to its end. -/
theorem line_of_skip (ho : OneLine full) (h : Standing verbatim full lx cs) {c : Char} {r : Chars}
    (hs : CondResolve.skip verbatim lx cs = .ok (lx', c :: r)) (hc : c ≠ '(') : lx'.line ≠ .start := by
  by_cases hl : lx.line = .start
  · rcases h.begun hl with rfl | ⟨ly, r', hp⟩
    · rw [skip_nil] at hs
      cases hs
    · rw [hp] at hs
      cases hs
      exact absurd rfl hc
  · exact (sound_of_skip h.within.fits hl (h.oneLine ho) hs).2 (by simp)

theorem line_of_skip_ne (ho : OneLine full) (h : Standing verbatim full lx cs)
    (hs : CondResolve.skip verbatim lx cs = .ok (lx', rest)) (hl : lx.line ≠ .start) (hr : rest ≠ []) :
    lx'.line ≠ .start :=
  (sound_of_skip h.within.fits hl (h.oneLine ho) hs).2 hr

end Standing

/-! ## Arguments -/

theorem standing_of_closeArgs {depth : Nat} {end? : Option Chars} (ho : OneLine full)
    (h : Standing verbatim full lx cs) (hl : cs ≠ [] → lx.line ≠ .start)
    (hc : closeArgs verbatim depth lx cs = .ok (lx', end?)) :
    lx'.Within verbatim full ∧ ∀ rest, end? = some rest → Standing verbatim full lx' rest := by
  fun_induction closeArgs verbatim depth lx cs with
  | case1 depth lx =>
    cases hc
    exact ⟨h.within, fun rest hr => by cases hr⟩
  | case2 => cases hc
  | case3 depth lx c r _ ly rest hs =>
    cases hc
    have h' := (h.advance (hl (by simp)) (List.suffix_cons ..)).skip ho hs
    refine ⟨h'.within, fun rest' hr => ?_⟩
    cases hr
    exact h'
  | case4 depth lx c r _ ly rest hs _ _ ih =>
    have hr := h.advance (hl (by simp)) (List.suffix_cons c r)
    exact ih (hr.skip ho hs) (hr.line_of_skip_ne ho hs (hl (by simp))) hc

theorem standing_of_skipArgs (ho : OneLine full) (h : Standing verbatim full lx cs) (hm : lx.mode = .code)
    (hl : lx.line ≠ .start) (ha : skipArgs verbatim lx cs = .ok (lx', rest)) : Standing verbatim full lx' rest := by
  rcases skipArgs_cases ha with hs | ⟨lz, r, hs, hc | ⟨hc, rfl⟩⟩
  · exact h.skip ho hs
  · have hline := h.line_of_skip_ne ho hs hl (by simp)
    exact (standing_of_closeArgs ho (h.skip ho hs) (fun _ => hline) hc).2 rest rfl
  · -- The cursor goes back to where the parenthesis was found.
    have hline := h.line_of_skip_ne ho hs hl (by simp)
    have hw := (standing_of_closeArgs ho (h.skip ho hs) (fun _ => hline) hc).1
    refine ⟨hw, h.suffix, fun hb => .inr ?_⟩
    obtain ⟨l, hs'⟩ := skip_mode ((hw.sound hb).trans hm.symm) hs
    exact ⟨_, r, hs'⟩

end

/-! ## Readings -/

def Instr.lex? : Instr → Option Lexical
  | .load _ lx | .binary _ lx => some lx
  | _ => none

structure Reading.Within (verbatim : Bool) (full cs : Chars) (p : Reading) : Prop where
  code : ∀ i ∈ p.code, ∀ lx, i.lex? = some lx → lx.Within verbatim full
  fault : ∀ f lx, p.next = .error (.fault f lx) → lx.Within verbatim full
  next : ∀ lx rest, p.next = .ok (lx, rest) → Standing verbatim full lx rest ∧ rest <:+ cs

namespace Reading

section
variable {lx : Lexical} {cs rest : Chars} {code : List Instr} {p : Reading}

theorem within_broken (b : Broken) : (halt (.broken b)).Within verbatim full cs :=
  ⟨fun _ hi => (by cases hi), fun _ _ h => (by cases h), fun _ _ h => (by cases h)⟩

theorem within_fault {f : Fault} (h : lx.Within verbatim full) : (halt (.fault f lx)).Within verbatim full cs := by
  refine ⟨fun _ hi => (by cases hi), fun f' lx' h' => ?_, fun _ _ h' => (by cases h')⟩
  cases h'
  exact h

theorem within_done (h : Standing verbatim full lx rest) (hs : rest <:+ cs)
    (hc : ∀ i ∈ code, ∀ lx, i.lex? = some lx → lx.Within verbatim full) :
    (done code lx rest).Within verbatim full cs := by
  refine ⟨hc, fun _ _ h' => (by cases h'), fun lx' rest' h' => ?_⟩
  cases h'
  exact ⟨h, hs⟩

namespace Within

theorem after (h : p.Within verbatim full cs)
    (hc : ∀ i ∈ code, ∀ lx, i.lex? = some lx → lx.Within verbatim full) :
    (p.after code).Within verbatim full cs := by
  refine ⟨fun i hi => ?_, h.fault, h.next⟩
  rcases List.mem_append.mp hi with hi | hi
  · exact hc i hi
  · exact h.code i hi

theorem nested (h : p.Within verbatim full cs) (calls : Nat) : (p.nested calls).Within verbatim full cs := by
  refine ⟨fun i hi lx he => ?_, h.fault, h.next⟩
  simp only [Reading.nested, List.mem_append, List.mem_cons, List.not_mem_nil, or_false] at hi
  rcases hi with (rfl | hi) | rfl
  · cases he
  · exact h.code i hi lx he
  · cases he

theorem of_suffix (h : p.Within verbatim full rest) (hs : rest <:+ cs) : p.Within verbatim full cs := by
  refine ⟨h.code, h.fault, fun lx rest' he => ?_⟩
  obtain ⟨hst, hsuf⟩ := h.next lx rest' he
  exact ⟨hst, hsuf.trans hs⟩

theorem bind {k : Lexical → Chars → Reading} (h : p.Within verbatim full cs)
    (hk : ∀ lx rest, p.next = .ok (lx, rest) → Standing verbatim full lx rest →
    (k lx rest).Within verbatim full rest) :
    (p.bind k).Within verbatim full cs := by
  unfold Reading.bind
  split
  · exact h
  · rename_i lx rest he
    obtain ⟨hst, hsuf⟩ := h.next lx rest he
    exact ((hk lx rest he hst).of_suffix hsuf).after h.code

end Within

end

end Reading

section
variable {lx lx' : Lexical} {cs rest : Chars}

theorem within_closeParen (ho : OneLine full) (h : Standing verbatim full lx cs) :
    (closeParen verbatim lx cs).Within verbatim full cs := by
  unfold closeParen
  split
  · exact Reading.within_broken _
  · rename_i ly r hs
    have hl := h.line_of_skip ho hs (by decide)
    have hr : r <:+ cs := (List.suffix_cons ..).trans (suffix_of_skip hs)
    exact Reading.within_done ((h.skip ho hs).advance hl (List.suffix_cons ..)) hr (by simp)
  · rename_i hs
    exact Reading.within_fault (h.skip ho hs).within

theorem within_definedName (ho : OneLine full) {paren : Bool} (h : Standing verbatim full lx cs)
    (hl : cs ≠ [] → lx.line ≠ .start) : (definedName verbatim paren lx cs).Within verbatim full cs := by
  have ha : Standing verbatim full lx (afterSymbol cs) := by
    cases cs with
    | nil => exact h
    | cons c r => exact h.advance (hl (by simp)) (suffix_afterSymbol _)
  unfold definedName
  refine Reading.Within.after ?_ ?_
  · split
    · exact Reading.within_broken _
    · rename_i ly rest hs
      have hr : rest <:+ cs := (suffix_of_skip hs).trans (suffix_afterSymbol cs)
      split
      · split
        · rename_i r
          have hl' := ha.line_of_skip ho hs (by decide)
          exact Reading.within_done ((ha.skip ho hs).advance hl' (List.suffix_cons ..))
            ((List.suffix_cons ..).trans hr) (by simp [Instr.lex?])
        · exact Reading.within_fault (ha.skip ho hs).within
      · exact Reading.within_done (ha.skip ho hs) hr (by simp [Instr.lex?])
  · simp [Instr.lex?]

theorem within_definedTest (ho : OneLine full) (h : Standing verbatim full lx cs) (hl : lx.line ≠ .start) :
    (definedTest verbatim lx cs).Within verbatim full cs := by
  unfold definedTest
  split
  · exact Reading.within_broken _
  · rename_i ly r hs
    have hl' := h.line_of_skip_ne ho hs hl (by simp)
    have hr := (h.skip ho hs).advance hl' (List.suffix_cons ..)
    have hsuf : r <:+ cs := (List.suffix_cons ..).trans (suffix_of_skip hs)
    split
    · exact Reading.within_broken _
    · rename_i lz rest hs'
      refine (within_definedName ho (hr.skip ho hs') fun hne => ?_).of_suffix ((suffix_of_skip hs').trans hsuf)
      exact hr.line_of_skip_ne ho hs' hl' hne
  · rename_i ly rest _ hs
    refine (within_definedName ho (h.skip ho hs) fun hne => ?_).of_suffix (suffix_of_skip hs)
    exact h.line_of_skip_ne ho hs hl hne

theorem within_symbolUse (ho : OneLine full) (h : Standing verbatim full lx cs) (hm : lx.mode = .code)
    (hl : lx.line ≠ .start) : (symbolUse verbatim lx cs).Within verbatim full cs := by
  unfold symbolUse
  refine Reading.Within.after ?_ ?_
  · split
    · exact Reading.within_broken _
    · rename_i ly rest ha
      have hst := standing_of_skipArgs ho (h.advance hl (suffix_afterSymbol cs)) hm hl ha
      exact Reading.within_done hst ((suffix_of_skipArgs ha).trans (suffix_afterSymbol cs)) (by simp)
  · intro i hi lx' he
    cases List.mem_singleton.mp hi
    cases he
    exact h.within

theorem within_atom (ho : OneLine full) (h : Standing verbatim full lx cs) (hm : lx.mode = .code)
    (hl : lx.line ≠ .start) : (atom verbatim lx cs).Within verbatim full cs := by
  unfold atom
  split
  · exact Reading.within_fault h.within
  · rename_i c r
    split
    · have hd : (c :: r).dropWhile isDigit <:+ c :: r := List.dropWhile_suffix _
      exact Reading.within_done (h.advance hl hd) hd (by simp [Instr.lex?])
    · split
      · rename_i rest hw
        have hr := suffix_of_afterWord? hw
        exact (within_definedTest ho (h.advance hl hr) hl).of_suffix hr
      · split
        · exact within_symbolUse ho h hm hl
        · exact Reading.within_fault h.within

/-- All readers of conditions stay in the line. That of operators may stand where arguments were never closed. -/
theorem Yields.within (ho : OneLine full) {task : Task} {p : Reading} (hy : Yields verbatim task lx cs p)
    (h : Standing verbatim full lx cs) (hl : (∀ least, task ≠ .climbOn least) → lx.line ≠ .start) :
    p.Within verbatim full cs := by
  induction hy with
  | unreadable => exact Reading.within_broken _
  | missing hs => exact Reading.within_fault (h.skip ho hs).within
  | unary hs _ _ ih =>
    have hl' := h.line_of_skip_ne ho hs (hl nofun) (by simp)
    have hr := (h.skip ho hs).advance hl' (List.suffix_cons ..)
    have hsuf := (List.suffix_cons ..).trans (suffix_of_skip hs)
    refine (((ih hr fun _ => hl').nested _).bind fun lz rest _ hst => ?_).of_suffix hsuf
    exact Reading.within_done hst List.suffix_rfl (by simp [Instr.lex?])
  | paren hs _ ih =>
    have hl' := h.line_of_skip_ne ho hs (hl nofun) (by simp)
    have hr := (h.skip ho hs).advance hl' (List.suffix_cons ..)
    have hsuf := (List.suffix_cons ..).trans (suffix_of_skip hs)
    refine (((ih hr fun _ => hl').nested _).bind fun lz rest _ hst => ?_).of_suffix hsuf
    exact within_closeParen ho hst
  | atom hs =>
    have hl' := h.line_of_skip_ne ho hs (hl nofun) (by simp)
    have hm := mode_of_skip_stop h.within.fits hs (by simp)
    exact (within_atom ho (h.skip ho hs) hm hl').of_suffix (suffix_of_skip hs)
  | climb _ _ ih ihon =>
    exact (ih h fun _ => hl nofun).bind fun ly rest he hst => ihon ly rest he hst fun hne => absurd rfl (hne _)
  | tight => exact Reading.within_done h List.suffix_rfl (by simp)
  | unreadableOn => exact Reading.within_broken _
  | stop _ hs => exact Reading.within_done (h.skip ho hs) (suffix_of_skip hs) (by simp)
  | @operator _ ly _ rest _ op _ _ _ hs hop _ _ ih ihon =>
    -- An operator stands there, so the line was not read to its end.
    have hl' : ly.line ≠ .start := by
      cases rest with
      | nil => cases hop
      | cons c r =>
        refine h.line_of_skip ho hs ?_
        rintro rfl
        cases hop
    have hdrop : rest.drop op.chars.length <:+ rest := List.drop_suffix ..
    have hr := (h.skip ho hs).advance hl' hdrop
    refine ((ih hr fun _ => hl').bind fun lz u he hst => ?_).of_suffix (hdrop.trans (suffix_of_skip hs))
    refine (ihon lz u he hst fun hne => absurd rfl (hne _)).after fun i hi lx' hlex => ?_
    cases List.mem_singleton.mp hi
    cases hlex
    exact hst.within

theorem within_climb (ho : OneLine full) (least : Nat) (h : Standing verbatim full lx cs) (hl : lx.line ≠ .start) :
    (climb verbatim least lx cs).Within verbatim full cs :=
  (yields_read (.climb least)).within ho h fun _ => hl

/-! ## Evaluated conditions -/

def Instr.names : Instr → List String
  | .mention name => [name]
  | .load name _ => [name]
  | _ => []

theorem mentioned_step (k : Knowledge) (strict : Bool) (e : Evaluation) (i : Instr) :
    (e.step k strict i).1.mentioned = e.mentioned ++ i.names := by
  cases i with
  | mention name => rfl
  | load name lex =>
    simp only [Evaluation.step]
    split <;> rfl
  | unary op =>
    simp only [Evaluation.step]
    split <;> simp [Instr.names]
  | binary op lex =>
    simp only [Evaluation.step]
    repeat' split
    all_goals simp [Instr.names]
  | _ => simp [Evaluation.step, Evaluation.push, Instr.names]

theorem mentioned_run (k : Knowledge) (strict : Bool) (e : Evaluation) (code : List Instr) :
    ∃ names, (e.run k strict code).1.mentioned = e.mentioned ++ names ∧ names <+: code.flatMap Instr.names := by
  induction code generalizing e with
  | nil => exact ⟨[], by simp [Evaluation.run]⟩
  | cons i code ih =>
    have hstep := mentioned_step k strict e i
    rw [Evaluation.run]
    split
    · rename_i e' hs
      obtain ⟨names, hnames, hpre⟩ := ih e'
      rw [hs] at hstep
      refine ⟨i.names ++ names, by rw [hnames, hstep, List.append_assoc], ?_⟩
      simpa using hpre
    · exact ⟨i.names, hstep, by simp⟩

theorem lex_of_run {k : Knowledge} {strict : Bool} {f : Fault} {e : Evaluation} {code : List Instr}
    (h : (e.run k strict code).2 = some (f, lx)) : ∃ i ∈ code, i.lex? = some lx := by
  induction code generalizing e with
  | nil => cases h
  | cons i code ih =>
    rw [Evaluation.run] at h
    split at h
    · obtain ⟨i', hi', he⟩ := ih h
      exact ⟨i', List.mem_cons_of_mem _ hi', he⟩
    · refine ⟨i, List.mem_cons_self .., ?_⟩
      cases i with
      | load name lex =>
        simp only [Evaluation.step] at h
        split at h <;> cases h
        rfl
      | binary op lex =>
        simp only [Evaluation.step] at h
        repeat' split at h
        all_goals cases h
        rfl
      | unary op =>
        simp only [Evaluation.step] at h
        split at h <;> cases h
      | _ => cases h

section
variable {s : Settings} {k : Knowledge} (ho : OneLine full) (h : Standing verbatim full lx cs)
  (hl : lx.line ≠ .start)
include ho h hl

theorem standing_of_evaluate {a : Operand} {ly : Lexical}
    (he : (evaluate s verbatim k lx cs).result = .ok (a, ly, rest)) : Standing verbatim full ly rest :=
  ((within_climb ho 0 h hl).next ly rest (next_of_evaluate he)).1

/-- A fault leaves a state that the line led to. If there was no condition at all, that is its end. -/
theorem within_of_evaluate {f : Fault} {lf : Lexical}
    (he : (evaluate s verbatim k lx cs).result = .error (.fault f lf)) :
    lf.Within verbatim full ∧ ∀ lz, skip verbatim lx cs = .ok (lz, []) → lf = lz := by
  have hw := within_climb ho 0 h hl
  unfold evaluate at he
  simp only at he
  constructor
  · split at he
    · rename_i f' lf' hf
      cases he
      obtain ⟨i, hi, hlex⟩ := lex_of_run hf
      exact hw.code i hi _ hlex
    · split at he
      · rename_i hn
        cases he
        exact hw.fault _ _ hn
      · cases he
  · intro lz hs
    have hc : climb verbatim 0 lx cs = .halt (.fault .badExpression lz) := by
      rw [climb_eq, operand_missing hs]
      rfl
    rw [hc] at he
    cases he
    rfl

end

/-! ## Spaces in front of a condition -/

section
variable (hm : lx.mode.isSplit = false)
include hm

theorem operand_space : operand verbatim lx (' ' :: cs) = operand verbatim lx cs := by
  rw [operand]
  conv => rhs; rw [operand]
  simp only
  rw [skip_space hm]

theorem evaluate_space {s : Settings} {k : Knowledge} :
    evaluate s verbatim k lx (' ' :: cs) = evaluate s verbatim k lx cs := by
  have hclimb : climb verbatim 0 lx (' ' :: cs) = climb verbatim 0 lx cs := by
    rw [climb_eq, climb_eq, operand_space hm]
  unfold evaluate
  rw [hclimb]

end

end

end CondResolve
