import CondResolve.Proofs.Comments

/-!
# The open groups in the course of a run

`stack_inv`: in every state that a run comes to, the groups lie on the stack in the order of the lines that opened
them, as many as there are openings without their `#endif`; what lies in a dropped branch is dropped as a whole, and
what lies in an ignored group is ignored.
-/

namespace CondResolve

/-! ## Frames -/

/-- A group on the stack or, without a phase, the text outside all groups. -/
structure Frame where
  phase? : Option Phase
  ignored : Bool
  opened : Nat
  deriving DecidableEq, Repr

def Frame.outside : Frame := ⟨none, false, 0⟩

def Frame.ofGroup (g : Group) : Frame := ⟨some g.phase, g.ignored, g.opened⟩

def Stack.frames (st : Stack) : List Frame := st.map .ofGroup ++ [.outside]

@[simp] theorem Stack.frames_nil : Stack.frames [] = [.outside] := rfl

@[simp] theorem Stack.frames_cons (g : Group) (st : Stack) :
    Stack.frames (g :: st) = .ofGroup g :: Stack.frames st := rfl

theorem Stack.pairwise_frames {st : Stack} {R : Frame → Frame → Prop} :
    st.frames.Pairwise R ↔
      st.Pairwise (fun above below => R (.ofGroup above) (.ofGroup below)) ∧ ∀ g ∈ st, R (.ofGroup g) .outside := by
  simp [frames, List.pairwise_append, List.pairwise_map]

/-- The machine sees the groups through the innermost frame. -/
theorem Stack.head?_frames (st : Stack) :
    st.frames.head? = some ⟨st.phase?, st.ignoring, st.head?.elim 0 (·.opened)⟩ := by
  cases st <;> simp [frames, phase?, ignoring, Frame.ofGroup, Frame.outside]

/-! ## Reached states -/

/-- The steps taken over the first lines of `ls`, and the run after them. -/
inductive Reached (s : Settings) (t : Table) (ls : List Chars) : List Step → Run → Prop
  | start : Reached s t ls [] {}
  | next {steps : List Step} {r : Run} {line : Chars} {st : Step} :
    Reached s t ls steps r → ls[steps.length]? = some line → r.advance s t line = .ok st →
      Reached s t ls (steps ++ [st]) st.run

/-- All that reading a line and taking its turn does to the open groups. -/
theorem shift_of_advance {s : Settings} {t : Table} {r : Run} {line : Chars} {st : Step}
    (h : r.advance s t line = .ok st) :
    st.run.number = r.number + 1 ∧ st.run.newline = some (r.newlineAt line) ∧
      ∃ turn, st.kind.turn s.permitObfuscated r.machine.stack.phase? = .ok turn ∧
        turn.shift.apply (r.number + 1) r.machine.stack = .ok st.run.machine.stack := by
  obtain ⟨p, hp, hst⟩ := bind_eq_ok.mp h
  obtain ⟨c, hc, he⟩ := bind_eq_ok.mp hp
  cases he
  obtain ⟨m, hm, he⟩ := bind_eq_ok.mp hst
  cases he
  obtain ⟨turn, stack, ht, hs, rfl⟩ := (Machine.step_eq_ok_iff (kind_ne_eof_of_classify hc)).mp hm
  exact ⟨rfl, rfl, turn, ht, hs⟩

/-- The end of the text changes nothing in the machine. -/
theorem machine_of_eof {s : Settings} {c : Current} {m : Machine} {r : Stepped} (h : m.step s c .eof = .ok r) :
    r.machine = m := by
  unfold Machine.step at h
  split at h
  · cases h
  · rename_i r' hr
    cases h
    have hr : m.atEnd s c = .ok r' := hr
    unfold Machine.atEnd at hr
    split at hr
    · split at hr
      · cases hr
      · cases hr
        rfl
    · cases hr

/-! ## Openings and their ends -/

def LineKind.opens : LineKind → Bool
  | .directive (.guard _) _ | .directive (.opening _) _ => true
  | _ => false

def LineKind.closes : LineKind → Bool
  | .directive .closing _ => true
  | _ => false

def openLines (steps : List Step) : List Nat :=
  steps.foldl
    (fun ns st => if st.kind.opens then st.run.number :: ns else if st.kind.closes then ns.tail else ns) []

@[simp] theorem openLines_snoc (steps : List Step) (st : Step) :
    openLines (steps ++ [st]) =
      if st.kind.opens then st.run.number :: openLines steps
      else if st.kind.closes then (openLines steps).tail else openLines steps := by
  simp [openLines, List.foldl_append]

section
variable {permit : Bool} {here : Option Phase} {k : LineKind} {turn : Turn}

/-- Openings enter a group, an `#endif` leaves one, and all other lines stay in theirs. -/
theorem shift_of_kind (h : k.turn permit here = .ok turn) :
    (k.opens = true ∧ k.closes = false ∧ ∃ p b, turn.shift = .enter p b) ∨
    (k.opens = false ∧ k.closes = true ∧ turn.shift = .leave) ∨
    (k.opens = false ∧ k.closes = false ∧
      (turn.shift = .stay ∨ ∃ p, turn.shift = .branch p ∨ turn.shift = .switch p)) := by
  cases k with
  | plain => cases h; simp [LineKind.opens, LineKind.closes]
  | eof => cases h
  | unevaluable => cases h
  | directive d dodgy =>
    cases d with
    | guard holds =>
      rcases openTurn_cases h with ⟨-, rfl⟩ | ⟨-, -, rfl⟩ | ⟨-, -, -, rfl⟩ | ⟨-, -, -, rfl⟩ <;>
        simp [LineKind.opens, LineKind.closes]
    | opening t =>
      rcases openTurn_cases h with ⟨-, rfl⟩ | ⟨-, -, rfl⟩ | ⟨-, -, -, rfl⟩ | ⟨-, -, -, rfl⟩ <;>
        simp [LineKind.opens, LineKind.closes]
    | elif t =>
      cases here with
      | none => cases h
      | some p =>
        cases p <;> cases t <;> cases dodgy <;> cases permit <;> cases h <;> simp [LineKind.opens, LineKind.closes]
    | otherwise =>
      cases here with
      | none => cases h
      | some p => cases p <;> cases dodgy <;> cases h <;> simp [LineKind.opens, LineKind.closes]
    | closing =>
      cases here with
      | none => cases h
      | some p => cases p <;> cases dodgy <;> cases h <;> simp [LineKind.opens, LineKind.closes]

end

def Shift.openings (n : Nat) : Shift → List Nat → List Nat
  | .enter _ _, ns => n :: ns
  | .leave, ns => ns.tail
  | _, ns => ns

theorem Shift.opened_of_apply {sh : Shift} {n : Nat} {st st' : Stack} (h : sh.apply n st = .ok st') :
    st'.map (·.opened) = sh.openings n (st.map (·.opened)) := by
  cases sh <;> cases st <;> cases h <;> rfl

theorem ne_nil_of_leave {n : Nat} {st st' : Stack} (h : Shift.leave.apply n st = .ok st') : st ≠ [] := by
  rintro rfl
  cases h

/-! ## The invariant -/

def Stack.Ignores (st : Stack) : Prop := st.Pairwise fun above below => below.ignored = true → above.ignored = true

theorem Stack.Ignores.ignoring {st : Stack} (h : st.Ignores) {g : Group} (hg : g ∈ st) (hi : g.ignored = true) :
    st.ignoring = true := by
  cases st with
  | nil => cases hg
  | cons top st =>
    rw [Stack.ignoring, List.head?_cons, Option.any_some]
    rcases List.mem_cons.mp hg with rfl | hg
    · exact hi
    · exact (List.pairwise_cons.mp h).1 g hg hi

theorem Stack.Ignores.apply {st st' : Stack} (h : st.Ignores) {sh : Shift} {n : Nat}
    (ha : sh.apply n st = .ok st') :
    st'.Ignores := by
  cases sh with
  | stay => cases ha; exact h
  | enter p b =>
    cases ha
    refine List.pairwise_cons.mpr ⟨?_, h⟩
    intro g hg hi
    simp [h.ignoring hg hi]
  | branch p =>
    cases st with
    | nil => cases ha
    | cons top st =>
      cases ha
      have hst : Stack.Ignores st := (List.pairwise_cons.mp h).2
      refine List.pairwise_cons.mpr ⟨?_, hst⟩
      intro g hg hi
      exact hst.ignoring hg hi
  | switch p =>
    cases st with
    | nil => cases ha
    | cons top st => cases ha; exact List.pairwise_cons.mpr (List.pairwise_cons.mp h)
  | leave =>
    cases st with
    | nil => cases ha
    | cons top st => cases ha; exact (List.pairwise_cons.mp h).2

/-- In lines that are dropped, whatever branch makes them so, every group is dropped as a whole. -/
theorem DroppedWhole.pairwise : ∀ {ps : List Phase}, DroppedWhole ps →
    ps.Pairwise fun above below => below.drops = true → above = .falseTrailer ∨ above = .falseElse
  | [], _ => .nil
  | p :: ps, h => by
    have ih := h.2.pairwise
    refine List.pairwise_cons.mpr ⟨?_, ih⟩
    intro q hq hd
    refine Phase.eq_of_muted (h.1 ?_)
    cases ps with
    | nil => cases hq
    | cons top ps =>
      rcases List.mem_cons.mp hq with rfl | hq
      · exact hd
      · rcases (List.pairwise_cons.mp ih).1 q hq hd with rfl | rfl <;> rfl

structure OpenGroups (steps : List Step) (r : Run) : Prop where
  number : r.number = steps.length
  numbers : ∀ i st, steps[i]? = some st → st.run.number = i + 1
  opened : r.machine.stack.map (·.opened) = openLines steps
  ascending : (openLines steps).Pairwise (· > ·)
  within : ∀ n ∈ openLines steps, 0 < n ∧ n ≤ steps.length
  depth : r.machine.stack.length + steps.countP (·.kind.closes) = steps.countP (·.kind.opens)
  whole : DroppedWhole r.machine.stack.phases
  ignores : r.machine.stack.Ignores

theorem openGroups_start : OpenGroups [] {} := by
  constructor <;> simp [openLines, Stack.phases, DroppedWhole, Stack.Ignores]

section
variable {s : Settings} {t : Table} {r : Run} {line : Chars} {steps : List Step} {st : Step}

theorem droppedWhole_of_kind {permit : Bool} {ps : List Phase} {k : LineKind} {turn : Turn} (hn : DroppedWhole ps)
    (h : k.turn permit ps.head? = .ok turn) : DroppedWhole (turn.shift.phases ps) := by
  cases k with
  | plain => cases h; exact hn
  | directive d dodgy => exact droppedWhole_of_turn hn h
  | eof => cases h
  | unevaluable => cases h

theorem OpenGroups.next (h : OpenGroups steps r) (ha : r.advance s t line = .ok st) :
    OpenGroups (steps ++ [st]) st.run := by
  obtain ⟨hnum, -, turn, ht, hs⟩ := shift_of_advance ha
  have hwhole : DroppedWhole st.run.machine.stack.phases := by
    rw [Shift.phases_of_apply hs]
    rw [Stack.phase?_eq] at ht
    exact droppedWhole_of_kind h.whole ht
  have hnumbers : ∀ i x, (steps ++ [st])[i]? = some x → x.run.number = i + 1 := by
    intro i x hx
    by_cases hi : i < steps.length
    · rw [List.getElem?_append_left hi] at hx
      exact h.numbers i x hx
    · have hi : i = steps.length := by
        have := (List.getElem?_eq_some_iff.mp hx).1
        simp only [List.length_append, List.length_singleton] at this
        omega
      subst hi
      rw [List.getElem?_concat_length] at hx
      cases hx
      rw [hnum, h.number]
  have hst : st.run.number = steps.length + 1 := by rw [hnum, h.number]
  have hbound : ∀ n ∈ openLines steps, n < st.run.number := by
    intro n hn
    rw [hst]
    exact Nat.lt_succ_of_le (h.within n hn).2
  refine ⟨by simp [hst], hnumbers, ?_, ?_, ?_, ?_, hwhole, h.ignores.apply hs⟩
  · rw [Shift.opened_of_apply hs, h.opened, openLines_snoc, hnum]
    -- The line that opened a group is entered when the group is, and leaves with it.
    rcases shift_of_kind ht with ⟨ho, -, p, b, hsh⟩ | ⟨ho, hc, hsh⟩ | ⟨ho, hc, hsh | ⟨p, hsh | hsh⟩⟩ <;>
      simp [Shift.openings, *]
  · rw [openLines_snoc]
    split
    · exact List.pairwise_cons.mpr ⟨hbound, h.ascending⟩
    · split
      · exact h.ascending.tail
      · exact h.ascending
  · intro n hn
    have hold : ∀ n ∈ openLines steps, 0 < n ∧ n ≤ (steps ++ [st]).length := by
      intro n hn
      have := h.within n hn
      simp only [List.length_append, List.length_singleton]
      omega
    rw [openLines_snoc] at hn
    split at hn
    · rcases List.mem_cons.mp hn with rfl | hn
      · simp [hst]
      · exact hold n hn
    · split at hn
      · exact hold n (List.mem_of_mem_tail hn)
      · exact hold n hn
  · -- Each kind of shift changes the depth as the line changes the two counts.
    have hdepth := h.depth
    have hlen := congrArg List.length (Shift.opened_of_apply hs)
    simp only [List.length_map] at hlen
    simp only [List.countP_append, List.countP_singleton, hlen]
    rcases shift_of_kind ht with ⟨ho, hc, p, b, hsh⟩ | ⟨ho, hc, hsh⟩ | ⟨ho, hc, hsh | ⟨p, hsh | hsh⟩⟩
    · simp only [hsh, Shift.openings, ho, hc, List.length_cons, List.length_map, if_true, Bool.false_eq_true,
        if_false]
      omega
    · have hpos : 0 < r.machine.stack.length := List.length_pos_iff.mpr (ne_nil_of_leave (hsh ▸ hs))
      simp only [hsh, Shift.openings, ho, hc, List.length_tail, List.length_map, if_true, Bool.false_eq_true,
        if_false]
      omega
    all_goals
      simp only [hsh, Shift.openings, ho, hc, List.length_map, Bool.false_eq_true, if_false]
      omega

theorem Reached.openGroups {ls : List Chars} (h : Reached s t ls steps r) : OpenGroups steps r := by
  induction h with
  | start => exact openGroups_start
  | next _ _ ha ih => exact ih.next ha

/-- Every state that a trace shows has the open groups of a state reached. -/
theorem Reached.of_trace {ls rest : List Chars} (h : Reached s t ls steps r) (hrest : ls.drop steps.length = rest)
    {st : Step} (hst : st ∈ (r.trace s t rest).steps) :
    ∃ steps' r', Reached s t ls steps' r' ∧ st.run.machine.stack = r'.machine.stack := by
  induction rest generalizing steps r with
  | nil =>
    refine ⟨steps, r, h, ?_⟩
    rw [Run.trace, Run.finish] at hst
    split at hst
    · obtain rfl := List.mem_singleton.mp hst
      rfl
    · rename_i last hlast
      obtain rfl := List.mem_singleton.mp hst
      -- The end of the text does not change the stack.
      obtain ⟨m, hm, he⟩ := bind_eq_ok.mp hlast
      cases he
      exact congrArg Machine.stack (machine_of_eof hm)
  | cons line rest ih =>
    rw [Run.trace] at hst
    split at hst
    · cases hst
    · rename_i p hp
      split at hst
      · -- A step that fails leaves the stack as the line found it.
        obtain rfl := List.mem_singleton.mp hst
        obtain ⟨c, -, he⟩ := bind_eq_ok.mp hp
        cases he
        exact ⟨steps, r, h, rfl⟩
      · rename_i next hnext
        have hline : ls[steps.length]? = some line := by
          rw [← List.head?_drop, hrest]
          rfl
        have hreach := h.next hline (bind_eq_ok.mpr ⟨p, hp, hnext⟩)
        rcases List.mem_cons.mp hst with rfl | hst
        · exact ⟨_, _, hreach, rfl⟩
        · refine ih hreach ?_ hst
          rw [List.length_append, List.length_singleton, ← List.tail_drop, hrest]
          rfl

end

/-- The frames of the machine tell the groups that a run has open, under one that stays as it was. There is one for
each directive that opened a group and that no `#endif` has closed, in the order of their lines; what stands in a
group that is dropped is dropped as a whole, and what stands in one that is ignored is ignored. -/
theorem stack_inv (s : Settings) (source : Chars) :
    (∀ t steps r, Reached s t (lines source) steps r →
      r.machine.stack.frames.getLast? = some ⟨none, false, 0⟩ ∧
      (∀ f ∈ r.machine.stack.frames.dropLast, f.phase? ≠ none) ∧
      (r.machine.stack.frames.length : Int) - 1 =
        (steps.countP (·.kind.opens) : Int) - (steps.countP (·.kind.closes) : Int) ∧
      (∀ i st, steps[i]? = some st → st.run.number = i + 1) ∧
      r.machine.stack.frames.dropLast.map (·.opened) = openLines steps ∧
      r.machine.stack.frames.Pairwise (fun above below => below.opened < above.opened) ∧
      r.machine.stack.frames.Pairwise (fun above below => dropping below.phase? = true →
        above.phase? = some .falseTrailer ∨ above.phase? = some .falseElse) ∧
      r.machine.stack.frames.Pairwise (fun above below => below.ignored = true → above.ignored = true)) ∧
    ∀ symbols script, ∀ st ∈ (traceSource s symbols script source).steps,
      ∃ t steps r, Reached s t (lines source) steps r ∧ st.run.machine.stack = r.machine.stack := by
  refine ⟨?_, ?_⟩
  · intro t steps r h
    have hgroups := h.openGroups
    have hopened : r.machine.stack.Pairwise fun above below => below.opened < above.opened := by
      have := hgroups.ascending
      rwa [← hgroups.opened, List.pairwise_map] at this
    have hpos : ∀ g ∈ r.machine.stack, 0 < g.opened := by
      intro g hg
      refine (hgroups.within g.opened ?_).1
      rw [← hgroups.opened]
      exact List.mem_map_of_mem hg
    -- The order of the lines and the nesting are facts about the groups, carried over to the frames.
    have hdropped := hgroups.whole.pairwise
    rw [Stack.phases, List.pairwise_map] at hdropped
    refine ⟨by simp [Stack.frames, Frame.outside], by simp [Stack.frames, Frame.ofGroup], ?_, hgroups.numbers, ?_,
      ?_, ?_, ?_⟩
    · have hdepth := hgroups.depth
      simp only [Stack.frames, List.length_append, List.length_map, List.length_singleton]
      omega
    · simpa [Stack.frames, Frame.ofGroup, Function.comp_def] using hgroups.opened
    · exact Stack.pairwise_frames.mpr ⟨hopened, hpos⟩
    · exact Stack.pairwise_frames.mpr
        ⟨by simpa [Frame.ofGroup, dropping] using hdropped, by simp [Frame.outside, dropping]⟩
    · exact Stack.pairwise_frames.mpr ⟨hgroups.ignores, by simp [Frame.outside]⟩
  · intro symbols script st hst
    unfold traceSource at hst
    split at hst
    · split at hst
      · cases hst
      · rename_i t _
        obtain ⟨steps, r, hr, he⟩ := Reached.start.of_trace rfl hst
        exact ⟨t, steps, r, hr, he⟩
    · cases hst

/-- A group in a dropped branch that is ignored. -/
theorem stack_inv_guarded : ∃ t steps r, Reached {} t (lines "#ifdef A\n#if B\n".toList) steps r ∧
    r.machine.stack = [⟨.falseTrailer, true, 2⟩, ⟨.falsePrefix, true, 1⟩] ∧ openLines steps = [2, 1] := by
  obtain ⟨hinv, hall⟩ := stack_inv {} "#ifdef A\n#if B\n".toList
  have hany : (traceSource {} [⟨"A", none, true⟩] [] "#ifdef A\n#if B\n".toList).steps.any (fun st =>
      st.run.machine.stack = [⟨.falseTrailer, true, 2⟩, ⟨.falsePrefix, true, 1⟩]) = true := by cbv
  obtain ⟨st, hst, hstack⟩ := List.any_eq_true.mp hany
  obtain ⟨t, steps, r, hr, he⟩ := hall _ _ st hst
  rw [he, decide_eq_true_eq] at hstack
  obtain ⟨-, -, -, -, hlines, -⟩ := hinv t steps r hr
  exact ⟨t, steps, r, hr, hstack, by rw [← hlines, hstack]; rfl⟩

end CondResolve
