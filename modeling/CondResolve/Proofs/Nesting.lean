import CondResolve.Proofs.Inclusion

/-!
# Which texts the machine accepts

The machine knows of each open group only whether its `#else` was met, as far as the place of a line is
concerned: all phases agree on that, also in dropped lines and behind edited ones. `steps_nested`: it accepts
exactly the well nested texts, and it stops at the first line that no text can make up for.
-/

namespace CondResolve

/-! ## Open groups -/

/-- The open groups after a line, given by whether their `#else` was met; `none` for a line out of place. -/
def Token.next (gs : List Bool) : Token → Option (List Bool)
  | .text _ => some gs
  | .opening _ => some (false :: gs)
  | .elif _ =>
    match gs with
    | false :: gs => some (false :: gs)
    | _ => none
  | .otherwise =>
    match gs with
    | false :: gs => some (true :: gs)
    | _ => none
  | .closing => gs.tail?

def opened (gs : List Bool) (ts : List Token) : Option (List Bool) := ts.foldlM Token.next gs

@[simp] theorem opened_nil (gs : List Bool) : opened gs [] = some gs := rfl

@[simp] theorem opened_cons (gs : List Bool) (t : Token) (ts : List Token) :
    opened gs (t :: ts) = (t.next gs).bind fun gs => opened gs ts := rfl

@[simp] theorem opened_append (gs : List Bool) (ts us : List Token) :
    opened gs (ts ++ us) = (opened gs ts).bind fun gs => opened gs us := by
  simp [opened, List.foldlM_append]

theorem opened_closings (gs : List Bool) : opened gs (List.replicate gs.length .closing) = some [] := by
  induction gs with
  | nil => rfl
  | cons last gs ih => simpa [List.replicate_succ, Token.next] using ih

mutual

theorem Nested.opened : ∀ {ts : List Token}, Nested ts → ∀ gs, opened gs ts = some gs
  | _, .nil, _ => rfl
  | _, .text h, gs => by simpa [Token.next] using h.opened gs
  | _, .group hb ht h, gs => by simp [Token.next, hb.opened (false :: gs), ht.opened gs, h.opened gs]

theorem Tail.opened : ∀ {last : Bool} {ts : List Token}, Tail last ts → ∀ gs, opened (last :: gs) ts = some gs
  | _, _, .closing, _ => rfl
  | _, _, .elif hb ht, gs => by simp [Token.next, hb.opened (false :: gs), ht.opened gs]
  | _, _, .otherwise hb ht, gs => by simp [Token.next, hb.opened (true :: gs), ht.opened gs]

end

theorem Token.exists_read {t : Token} {gs : List Branch} {gs' : List Bool}
    (h : t.next (gs.map (·.last)) = some gs') : ∃ bs now, t.read gs = some (bs, now) ∧ bs.map (·.last) = gs' := by
  cases t with
  | text line => simpa [read, next] using h
  | opening holds => simpa [read, next] using h
  | elif holds => rcases gs with _ | ⟨⟨taken, selected, _ | _⟩, gs⟩ <;> simp_all [read, next]
  | otherwise => rcases gs with _ | ⟨⟨taken, selected, _ | _⟩, gs⟩ <;> simp_all [read, next]
  | closing => cases gs <;> simp_all [read, next]

theorem exists_select {ts : List Token} {gs : List Branch} (h : opened (gs.map (·.last)) ts = some []) :
    ∃ chosen, select gs ts = some chosen := by
  induction ts generalizing gs with
  | nil =>
    have hgs : gs = [] := by simpa using h
    exact ⟨[], by simp [select, hgs]⟩
  | cons t ts ih =>
    rw [opened_cons, Option.bind_eq_some_iff] at h
    obtain ⟨gs', ht, hts⟩ := h
    obtain ⟨bs, now, hr, rfl⟩ := Token.exists_read ht
    obtain ⟨later, hl⟩ := ih hts
    exact ⟨now ++ later, select_cons.mpr ⟨bs, now, later, hr, hl, rfl⟩⟩

theorem nested_iff_opened {ts : List Token} : Nested ts ↔ opened [] ts = some [] := by
  constructor
  · intro h
    exact h.opened []
  · intro h
    obtain ⟨chosen, hc⟩ : ∃ chosen, select [] ts = some chosen := exists_select h
    exact nested_of_select hc

def Completable (ts : List Token) : Prop := ∃ more, Nested (ts ++ more)

theorem completable_iff_opened {ts : List Token} : Completable ts ↔ ∃ gs, opened [] ts = some gs := by
  constructor
  · rintro ⟨more, h⟩
    rw [nested_iff_opened, opened_append, Option.bind_eq_some_iff] at h
    obtain ⟨gs, hg, -⟩ := h
    exact ⟨gs, hg⟩
  · rintro ⟨gs, hg⟩
    refine ⟨List.replicate gs.length .closing, nested_iff_opened.mpr ?_⟩
    simp [hg, opened_closings]

/-! ## One line -/

def Stack.elses (st : Stack) : List Bool := st.phases.map (·.isElse)

inductive Placed (permit : Bool) (ps : List Phase) (k : LineKind) : Option (List Bool) → Prop
  | inPlace {turn : Turn} : k.turn permit ps.head? = .ok turn →
    (ps ≠ [] ∨ turn.shift = .stay ∨ ∃ p b, turn.shift = .enter p b) →
    Placed permit ps k (some ((turn.shift.phases ps).map (·.isElse)))
  | misplaced {d : Continuation} : k.turn permit ps.head? = .error (.misplaced d) → Placed permit ps k none

section
variable (permit : Bool)

theorem open_placed (ps : List Phase) (t : Truth) (ignored : Bool) {d : Directive}
    (hd : d.turn permit ps.head? false = openTurn permit ps.head? t ignored false) :
    Placed permit ps (.directive d false) (some (false :: ps.map (·.isElse))) := by
  have enters : ∀ keep p, openTurn permit ps.head? t ignored false = .ok ⟨keep, .enter p ignored, none⟩ →
      p.isElse = false → Placed permit ps (.directive d false) (some (false :: ps.map (·.isElse))) := by
    intro keep p h hp
    have ht : LineKind.turn permit ps.head? (.directive d false) = _ := hd.trans h
    have hplace := Placed.inPlace ht (.inr (.inr ⟨p, ignored, rfl⟩))
    rwa [Shift.phases, List.map_cons, hp] at hplace
  by_cases hdrop : dropping ps.head? = true
  · exact enters false .falseTrailer (by simp [openTurn, hdrop, dropAnd]) rfl
  · cases t with
    | yes => exact enters false .truePrefix (by simp [openTurn, hdrop, dropAnd]) rfl
    | no => exact enters false .falsePrefix (by simp [openTurn, hdrop, dropAnd]) rfl
    | unknown => exact enters true .passMiddle (by simp [openTurn, hdrop, keepAnd]) rfl

theorem elif_placed (p : Phase) (ps : List Phase) (t : Truth) :
    Placed permit (p :: ps) (.directive (.elif t) false)
      (if p.isElse then none else some (false :: ps.map (·.isElse))) := by
  by_cases hp : p.isElse = true
  · rw [if_pos hp]
    refine .misplaced (d := .elif) ?_
    cases p <;> simp_all [Phase.isElse, LineKind.turn, Directive.turn, elifTurn]
  · rw [if_neg hp]
    obtain ⟨turn, q, ht, hq, hs⟩ : ∃ turn q, elifTurn permit (some p) t false = .ok turn ∧ q.isElse = false ∧
        turn.shift.phases (p :: ps) = q :: ps := by
      cases p <;> cases t <;> simp_all [Phase.isElse, elifTurn, keepAnd, dropAnd, editAnd, Shift.phases]
    have h : Placed permit (p :: ps) (.directive (.elif t) false) _ := .inPlace ht (.inl (by simp))
    rwa [hs, List.map_cons, hq] at h

theorem else_placed (p : Phase) (ps : List Phase) :
    Placed permit (p :: ps) (.directive .otherwise false)
      (if p.isElse then none else some (true :: ps.map (·.isElse))) := by
  by_cases hp : p.isElse = true
  · rw [if_pos hp]
    refine .misplaced (d := .otherwise) ?_
    cases p <;> simp_all [Phase.isElse, LineKind.turn, Directive.turn, elseTurn]
  · rw [if_neg hp]
    obtain ⟨turn, q, ht, hq, hs⟩ : ∃ turn q, elseTurn (some p) false = .ok turn ∧ q.isElse = true ∧
        turn.shift.phases (p :: ps) = q :: ps := by
      cases p <;> simp_all [Phase.isElse, elseTurn, keepAnd, dropAnd, editAnd, Shift.phases]
    have h : Placed permit (p :: ps) (.directive .otherwise false) _ := .inPlace ht (.inl (by simp))
    rwa [hs, List.map_cons, hq] at h

theorem close_placed (p : Phase) (ps : List Phase) :
    Placed permit (p :: ps) (.directive .closing false) (some (ps.map (·.isElse))) := by
  obtain ⟨turn, ht, hs⟩ : ∃ turn, closeTurn (some p) false = .ok turn ∧ turn.shift.phases (p :: ps) = ps := by
    cases p <;> simp [closeTurn, keepAnd, dropAnd, Shift.phases]
  have h : Placed permit (p :: ps) (.directive .closing false) _ := .inPlace ht (.inl (by simp))
  rwa [hs] at h

/-- A line that is not dodgy is in place exactly where the text allows it, whatever the phases. -/
theorem Occurrence.placed {o : Occurrence} (hc : o.kind.isDodgy = false) (ps : List Phase) :
    Placed permit ps o.kind (o.token.next (ps.map (·.isElse))) := by
  obtain ⟨c, _ | ⟨d, dodgy⟩, holds⟩ := o
  · have ht : LineKind.turn permit ps.head? .plain = .ok ⟨!dropping ps.head?, .stay, none⟩ := rfl
    exact .inPlace ht (.inr (.inl rfl))
  · have hdodgy : dodgy = false := hc
    subst hdodgy
    cases d with
    | guard b => exact open_placed permit ps (.ofBool b) true rfl
    | opening t => exact open_placed permit ps t false rfl
    | elif t =>
      cases ps with
      | nil => exact .misplaced (d := .elif) rfl
      | cons p ps =>
        have h := elif_placed permit p ps t
        cases hp : p.isElse <;> simpa [token, Token.next, kind, hp] using h
    | otherwise =>
      cases ps with
      | nil => exact .misplaced (d := .otherwise) rfl
      | cons p ps =>
        have h := else_placed permit p ps
        cases hp : p.isElse <;> simpa [token, Token.next, kind, hp] using h
    | closing =>
      cases ps with
      | nil => exact .misplaced (d := .closing) rfl
      | cons p ps => exact close_placed permit p ps

end

section
variable {s : Settings} {m : Machine} {c : Current} {k : LineKind}

theorem step_of_inPlace (hk : k ≠ .eof) {gs : List Bool}
    (h : Placed s.permitObfuscated m.stack.phases k (some gs)) :
    ∃ r, m.step s c k = .ok r ∧ r.machine.stack.elses = gs := by
  cases h with
  | @inPlace turn ht hs =>
    rw [← Stack.phase?_eq] at ht
    obtain ⟨stack, hstack⟩ := Shift.exists_apply c.number hs
    refine ⟨_, (Machine.step_eq_ok_iff hk).mpr ⟨turn, stack, ht, hstack, rfl⟩, ?_⟩
    show stack.phases.map _ = _
    rw [Shift.phases_of_apply hstack]

theorem step_of_misplaced (hk : k ≠ .eof) (h : Placed s.permitObfuscated m.stack.phases k none) :
    ∃ f, m.step s c k = .error f ∧ f.category = .structural := by
  cases h with
  | @misplaced d hd =>
    rw [← Stack.phase?_eq] at hd
    refine ⟨m.failure c.number (.misplaced d), ?_, rfl⟩
    unfold Machine.step
    rw [Machine.stepCause_line s c m hk, hd]
    rfl

/-- The end of the text is in place outside all groups. -/
theorem step_eof (hl : c.mode = .code ∨ c.mode = .lineComment) :
    (m.stack.elses = [] ∧ ∃ r, m.step s c .eof = .ok r) ∨
    (m.stack.elses ≠ [] ∧ ∃ f, m.step s c .eof = .error f ∧ f.category = .structural) := by
  have hmode : Machine.endFault? c.mode = none := by rcases hl with hl | hl <;> rw [hl] <;> rfl
  by_cases hm : m.stack = []
  · left
    simp [Stack.elses, Stack.phases, Machine.step, Machine.stepCause, Machine.atEnd, hm, hmode]
  · right
    refine ⟨by simpa [Stack.elses, Stack.phases] using hm, m.failure c.number .prematureEnd, ?_, rfl⟩
    simp [Machine.step, Machine.stepCause, Machine.atEnd, hm]

end

/-! ## Whole texts -/

/-- Steps through all lines and the end of the text. With a failure comes the number of lines before it. -/
def Machine.steps (s : Settings) (last : Current) (m : Machine) :
    List Occurrence → Except (Nat × Failure) Machine
  | [] =>
    match m.step s last .eof with
    | .error f => .error (0, f)
    | .ok r => .ok r.machine
  | o :: os =>
    match m.step s o.current o.kind with
    | .error f => .error (0, f)
    | .ok r => (r.machine.steps s last os).mapError fun (n, f) => (n + 1, f)

/-- The first `n` lines of `ts`, and no more, go on from open groups `gs`. -/
def StopsAt (gs : List Bool) (ts : List Token) (n : Nat) : Prop :=
  n ≤ ts.length ∧ ∀ i ≤ ts.length, (∃ gs', opened gs (ts.take i) = some gs') ↔ i ≤ n

theorem StopsAt.here {gs : List Bool} {t : Token} (ts : List Token) (h : t.next gs = none) :
    StopsAt gs (t :: ts) 0 := by
  refine ⟨Nat.zero_le _, ?_⟩
  intro i _
  cases i with
  | zero => simp
  | succ i => simp [h]

theorem StopsAt.later {gs gs' : List Bool} {t : Token} {ts : List Token} {n : Nat} (h : t.next gs = some gs')
    (hs : StopsAt gs' ts n) : StopsAt gs (t :: ts) (n + 1) := by
  refine ⟨Nat.succ_le_succ hs.1, ?_⟩
  intro i hi
  cases i with
  | zero => simp
  | succ i => simpa [h] using hs.2 i (Nat.le_of_succ_le_succ hi)

section
variable {s : Settings} {last : Current} (hl : last.mode = .code ∨ last.mode = .lineComment)
include hl

theorem steps_cases {os : List Occurrence} (hc : ∀ o ∈ os, o.kind.isDodgy = false) (m : Machine) :
    (opened m.stack.elses (os.map (·.token)) = some [] ∧ ∃ m', m.steps s last os = .ok m') ∨
    (opened m.stack.elses (os.map (·.token)) ≠ some [] ∧ ∃ n f, m.steps s last os = .error (n, f) ∧
      f.category = .structural ∧ StopsAt m.stack.elses (os.map (·.token)) n) := by
  induction os generalizing m with
  | nil =>
    rcases step_eof (s := s) (m := m) hl with ⟨he, r, hr⟩ | ⟨he, f, hf, hcat⟩
    · exact .inl ⟨by simp [he], r.machine, by simp [Machine.steps, hr]⟩
    · refine .inr ⟨by simpa using he, 0, f, by simp [Machine.steps, hf], hcat, Nat.le_refl _, ?_⟩
      simp
  | cons o os ih =>
    have hplace := o.placed s.permitObfuscated (hc o (by simp)) m.stack.phases
    have hos : ∀ o ∈ os, o.kind.isDodgy = false := fun o ho => hc o (by simp [ho])
    cases hnext : o.token.next m.stack.elses with
    | none =>
      have hplace : Placed s.permitObfuscated m.stack.phases o.kind none := hnext ▸ hplace
      obtain ⟨f, hf, hcat⟩ := step_of_misplaced (c := o.current) o.kind_ne_eof hplace
      exact .inr ⟨by simp [hnext], 0, f, by simp [Machine.steps, hf], hcat, .here _ hnext⟩
    | some gs =>
      have hplace : Placed s.permitObfuscated m.stack.phases o.kind (some gs) := hnext ▸ hplace
      obtain ⟨r, hr, rfl⟩ := step_of_inPlace (c := o.current) o.kind_ne_eof hplace
      rcases ih hos r.machine with ⟨ho, m', hm⟩ | ⟨ho, n, f, hf, hcat, hn⟩
      · refine .inl ⟨by simpa [hnext] using ho, m', ?_⟩
        simp only [Machine.steps, hr, hm]
        rfl
      · refine .inr ⟨by simpa [hnext] using ho, n + 1, f, ?_, hcat, hn.later hnext⟩
        simp only [Machine.steps, hr, hf]
        rfl

theorem steps_eq_ok_iff {os : List Occurrence} (hc : ∀ o ∈ os, o.kind.isDodgy = false) {m : Machine}
    (hm : m.stack = []) : (∃ m', m.steps s last os = .ok m') ↔ Nested (os.map (·.token)) := by
  have helses : m.stack.elses = [] := by rw [hm]; rfl
  rw [nested_iff_opened, ← helses]
  rcases steps_cases (s := s) hl hc m with ⟨ho, hok⟩ | ⟨ho, n, f, hf, -⟩
  · rw [helses] at ho ⊢
    exact ⟨fun _ => ho, fun _ => hok⟩
  · rw [helses] at ho ⊢
    exact ⟨fun ⟨m', hok⟩ => (by rw [hf] at hok; cases hok), fun h => absurd h ho⟩

end

def Occurrence.form (o : Occurrence) : Option Directive := o.directive?.map fun (d, _) => d.untrusted

theorem Occurrence.next_of_form {o o' : Occurrence} (h : o'.form = o.form) (gs : List Bool) :
    o'.token.next gs = o.token.next gs := by
  obtain ⟨c, _ | ⟨d, dodgy⟩, holds⟩ := o <;> obtain ⟨c', _ | ⟨d', dodgy'⟩, holds'⟩ := o'
  · rfl
  · cases h
  · cases h
  · have h : d'.untrusted = d.untrusted := Option.some.inj h
    cases d <;> cases d' <;> cases h <;> rfl

theorem opened_of_forms {os os' : List Occurrence} (h : os'.map (·.form) = os.map (·.form)) (gs : List Bool) :
    opened gs (os'.map (·.token)) = opened gs (os.map (·.token)) := by
  induction os generalizing os' gs with
  | nil => rw [List.map_eq_nil_iff.mp h]
  | cons o os ih =>
    cases os' with
    | nil => cases h
    | cons o' os' =>
      rw [List.map_cons, List.map_cons, List.cons.injEq] at h
      simp only [List.map_cons, opened_cons, Occurrence.next_of_form h.1, ih h.2]

/-- Lines without dodgy directives are accepted iff they are well nested. Otherwise the run fails at the first line
that no more lines could make part of a well nested text. The truths of the conditions make no difference to that.
-/
theorem steps_nested (s : Settings) (m : Machine) (os : List Occurrence) (last : Current) (hm : m.stack = [])
    (hc : ∀ o ∈ os, o.kind.isDodgy = false) (hl : last.mode = .code ∨ last.mode = .lineComment) :
    ((∃ m', m.steps s last os = .ok m') ↔ Nested (os.map (·.token))) ∧
    (∀ n f, m.steps s last os = .error (n, f) → f.category = .structural ∧ n ≤ os.length ∧
      ∀ i ≤ os.length, Completable ((os.take i).map (·.token)) ↔ i ≤ n) ∧
    ∀ os' : List Occurrence, (∀ o ∈ os', o.kind.isDodgy = false) → os'.map (·.form) = os.map (·.form) →
      ((∃ m', m.steps s last os' = .ok m') ↔ ∃ m', m.steps s last os = .ok m') := by
  have helses : m.stack.elses = [] := by rw [hm]; rfl
  refine ⟨steps_eq_ok_iff hl hc hm, ?_, ?_⟩
  · intro n f hf
    rcases steps_cases (s := s) hl hc m with ⟨-, m', hok⟩ | ⟨-, n', f', hf', hcat, hlen, hstop⟩
    · rw [hf] at hok
      cases hok
    · rw [hf] at hf'
      cases hf'
      rw [helses, List.length_map] at hstop
      refine ⟨hcat, by simpa using hlen, ?_⟩
      intro i hi
      rw [completable_iff_opened, List.map_take]
      exact hstop i hi
  · intro os' hc' hforms
    rw [steps_eq_ok_iff hl hc' hm, steps_eq_ok_iff hl hc hm, nested_iff_opened, nested_iff_opened,
      opened_of_forms hforms]

def strayElifLines : List Occurrence :=
  [⟨⟨"#if 0\n".toList, 1, 1, .code, .lf⟩, some (.opening .no, false), false⟩,
   ⟨⟨"#ifdef A\n".toList, 2, 1, .code, .lf⟩, some (.opening .unknown, false), false⟩,
   ⟨⟨"#else\n".toList, 3, 1, .code, .lf⟩, some (.otherwise, false), false⟩,
   ⟨⟨"#elif 1\n".toList, 4, 1, .code, .lf⟩, some (.elif .yes, false), false⟩,
   ⟨⟨"#endif\n".toList, 5, 1, .code, .lf⟩, some (.closing, false), false⟩]

theorem steps_nested_strayElifLines :
    ¬Nested (strayElifLines.map (·.token)) ∧ Completable ((strayElifLines.take 3).map (·.token)) ∧
      ¬Completable ((strayElifLines.take 4).map (·.token)) := by
  obtain ⟨haccept, hstop, -⟩ :=
    steps_nested {} {} strayElifLines ⟨[], 6, 0, .code, .lf⟩ rfl (by decide) (.inl rfl)
  have hrun : ({} : Machine).steps {} ⟨[], 6, 0, .code, .lf⟩ strayElifLines =
      .error (3, ⟨.misplaced .elif, some 4, some ⟨2, 2⟩⟩) := rfl
  obtain ⟨-, -, hstart⟩ := hstop _ _ hrun
  refine ⟨?_, (hstart 3 (by decide)).mpr (by decide), ?_⟩
  · rw [← haccept, hrun]
    rintro ⟨m', hok⟩
    cases hok
  · rw [hstart 4 (by decide)]
    decide

end CondResolve
