import CondResolve.Proofs.Knowledge
import CondResolve.Proofs.Turn

/-!
# Groups resolved in two stages

Three runs meet the same groups: the first run knows few symbols, the full run knows more, and the second
run reads with the symbols of the full run what the first one wrote. `Meet` relates the phases that they
have the open groups in, and `directive_follows` says that a directive takes them on.
-/

namespace CondResolve

namespace Phase

/-- The phase of a group in the full run, if the first run has it in `p` and the second run in `q`. -/
def through : Phase → Phase → Phase
  | .falseMiddle, .falsePrefix => .falsePrefix
  | .falseMiddle, .passMiddle | .falseMiddle, .falseMiddle => .falseMiddle
  | .falseMiddle, _ => .falseTrailer
  | .trueMiddle, .trueElse => .truePrefix
  | .trueMiddle, .falseElse => .falseTrailer
  | .trueMiddle, _ => .trueMiddle
  | _, q => q

end Phase

/-- The phases of the open groups in the first run, the full run and the second run. The flag tells that the
full run has written an `#endif` that the second run has still to write. -/
inductive Meet : List Phase → List Phase → List Phase → Bool → Prop
  | nil : Meet [] [] [] false
  /-- A group in lines that the first run drops. -/
  | hidden {ps qs rs : List Phase} {b : Bool} {p : Phase} (hp : dropping ps.head? = true) (h : p.muted = p)
      (outer : Meet ps qs rs b) : Meet (p :: ps) (p :: qs) rs b
  /-- A group in lines that only the other two drop. -/
  | muted {ps qs rs : List Phase} {p q : Phase} (hp : dropping ps.head? = false) (hq : dropping qs.head? = true)
      (h : q.muted = q) (outer : Meet ps qs rs false) :
      Meet (p :: ps) (q :: qs) ((p.echo.map .muted).toList ++ rs) false
  /-- A group of which the first run leaves no directive. -/
  | decided {ps qs rs : List Phase} {p : Phase} (hp : dropping ps.head? = false) (hq : dropping qs.head? = false)
      (h : p.echo = none) (outer : Meet ps qs rs false) : Meet (p :: ps) (p :: qs) rs false
  | left {ps qs rs : List Phase} {p e q : Phase} (hp : dropping ps.head? = false) (hq : dropping qs.head? = false)
      (h : p.echo = some e) (he : q.isElse = e.isElse) (outer : Meet ps qs rs false) :
      Meet (p :: ps) (p.through q :: qs) (q :: rs) (p = .falseMiddle ∧ q = .trueMiddle)

namespace Meet

variable {ps qs rs : List Phase} {b : Bool}

theorem of_left {p q r : Phase} (hp : dropping ps.head? = false) (hq : dropping qs.head? = false)
    (outer : Meet ps qs rs false) (hb : b = decide (p = .falseMiddle ∧ r = .trueMiddle))
    (h : q = p.through r ∧ p.echo.map Phase.isElse = some r.isElse) : Meet (p :: ps) (q :: qs) (r :: rs) b := by
  obtain ⟨rfl, h⟩ := h
  obtain ⟨e, he, hr⟩ := Option.map_eq_some_iff.mp h
  rw [hb]
  exact .left hp hq he hr.symm outer

theorem dropping_full (h : Meet ps qs rs b) (hp : dropping ps.head? = true) : dropping qs.head? = true := by
  cases h with
  | nil => cases hp
  | hidden _ h => exact hp
  | muted _ _ h => exact Phase.drops_of_muted h
  | decided => exact hp
  | @left _ _ _ p e q _ _ h he =>
    have hp : p.drops = true := hp
    show (p.through q).drops = true
    revert he
    cases p <;> cases h <;> cases hp
    cases q <;> decide

theorem dropping_second (h : Meet ps qs rs b) (hp : dropping ps.head? = false) :
    dropping rs.head? = dropping qs.head? ∧ b = false := by
  induction h with
  | nil => exact ⟨rfl, rfl⟩
  | hidden _ h =>
    have := Phase.drops_of_muted h
    simp_all [dropping]
  | @muted _ _ _ p q hp' hq h _ ih =>
    have hq' : q.drops = true := Phase.drops_of_muted h
    refine ⟨?_, rfl⟩
    show _ = q.drops
    rw [hq']
    cases hecho : p.echo with
    | none => exact (ih hp').1.trans hq
    | some e =>
      show e.muted.drops = true
      cases e <;> rfl
  | @decided _ _ _ p hp' hq h _ ih =>
    refine ⟨((ih hp').1.trans hq).trans ?_, rfl⟩
    exact hp.symm
  | @left _ _ _ p e q _ _ h he =>
    have hp : p.drops = false := hp
    show q.drops = (p.through q).drops ∧ _
    revert he
    cases p <;> cases h <;> cases hp <;> cases q <;> decide

end Meet

/-! ## Directives -/

def SameText (d : Directive) (e e' e'' : Option Edit) : Prop :=
  (e = none ∧ e' = e'' ∧ e' ≠ some .toElse ∧ e' ≠ some .toEndif) ∨
  (e = some .toIf ∧ e' = some .toIf ∧ e'' = none) ∨
  (d.edited e' = .otherwise ∧ (d.edited e).edited e'' = .otherwise) ∨
  (d.edited e' = .closing ∧ (d.edited e).edited e'' = .closing)

def Written (d : Directive) (b : Bool) (turn turn' turn'' : Turn) : Prop :=
  (b = false ∧ turn'.keep = false ∧ turn''.keep = false) ∨
  (b = false ∧ turn'.keep = true ∧ turn''.keep = true ∧ SameText d turn.edit turn'.edit turn''.edit) ∨
  (b = true ∧ turn'.keep = false ∧ turn''.keep = true ∧ (d.edited turn.edit).edited turn''.edit = .closing)

/-- The turns of the first run and of the full run at a directive that the full run reads as `d`, and the turn
of the second run if it is kept for it. -/
inductive Follows (permit : Bool) (d : Directive) (ps qs rs : List Phase) : Bool → Turn → Turn → Prop
  | skip {b : Bool} {turn turn' : Turn} (hk : turn.keep = false) (hk' : turn'.keep = false)
      (hm : Meet (turn.shift.phases ps) (turn'.shift.phases qs) rs b) : Follows permit d ps qs rs b turn turn'
  /-- The full run ends the group that is left, and the first run goes on in it. -/
  | ahead {turn turn' : Turn} (hk : turn.keep = false) (hk' : turn'.keep = true)
      (hd : d.edited turn'.edit = .closing) (hm : Meet (turn.shift.phases ps) (turn'.shift.phases qs) rs true) :
      Follows permit d ps qs rs false turn turn'
  | read {b : Bool} {turn turn' turn'' : Turn} (hk : turn.keep = true)
      (ht : (d.edited turn.edit).turn permit rs.head? false = .ok turn'')
      (hs : rs ≠ [] ∨ ∃ p b, turn''.shift = .enter p b)
      (hm : Meet (turn.shift.phases ps) (turn'.shift.phases qs) (turn''.shift.phases rs) false)
      (hw : Written d b turn turn' turn'') : Follows permit d ps qs rs b turn turn'

section
variable {permit b : Bool} {ps qs rs : List Phase} {x x' : Truth} {turn turn' : Turn}

theorem openTurn_dropping {here : Option Phase} (h : dropping here = true) :
    openTurn permit here x false false = .ok ⟨false, .enter .falseTrailer false, none⟩ := by
  simp [openTurn, dropAnd, h]

def Truth.entered : Truth → Phase
  | .unknown => .passMiddle
  | .yes => .truePrefix
  | .no => .falsePrefix

theorem openTurn_keeping {here : Option Phase} (h : dropping here = false) :
    openTurn permit here x false false = .ok ⟨x = .unknown, .enter x.entered false, none⟩ := by
  cases x <;> simp [openTurn, keepAnd, dropAnd, h, Truth.entered]

theorem written_same {d : Directive} (he : turn.edit = none) : Written d false turn turn' turn' := by
  unfold Written SameText
  rw [he]
  cases hk : turn'.keep with
  | false => simp
  | true =>
    cases hed : turn'.edit with
    | none => simp
    | some e => cases e <;> simp [Directive.edited, Edit.read]

theorem opening_follows (h : Meet ps qs rs b) (hx : x ≠ .unknown → x' = x)
    (ht : openTurn permit ps.head? x false false = .ok turn)
    (ht' : openTurn permit qs.head? x' false false = .ok turn') :
    Follows permit (.opening x') ps qs rs b turn turn' := by
  cases hp : dropping ps.head? with
  | true =>
    have hq := h.dropping_full hp
    rw [openTurn_dropping hp] at ht
    rw [openTurn_dropping hq] at ht'
    cases ht
    cases ht'
    exact .skip rfl rfl (.hidden hp rfl h)
  | false =>
    -- The first run writes here, so the second run stands in a branch like that of the full run.
    obtain ⟨hr, rfl⟩ := h.dropping_second hp
    cases hq : dropping qs.head? with
    | true =>
      rw [hq] at hr
      rw [openTurn_dropping hq] at ht'
      cases ht'
      rcases openTurn_cases ht with ⟨hp', -⟩ | ⟨-, -, rfl⟩ | ⟨-, -, -, rfl⟩ | ⟨-, -, -, rfl⟩
      · rw [hp] at hp'
        cases hp'
      · exact .read rfl (openTurn_dropping hr) (.inr ⟨_, _, rfl⟩) (.muted hp hq rfl h) (.inl ⟨rfl, rfl, rfl⟩)
      · exact .skip rfl rfl (.muted hp hq rfl h)
      · exact .skip rfl rfl (.muted hp hq rfl h)
    | false =>
      rw [hq] at hr
      rw [openTurn_keeping hq] at ht'
      cases ht'
      -- All three runs write here: an open condition is left to the later runs, a decided one is decided alike.
      rcases openTurn_cases ht with ⟨hp', -⟩ | ⟨-, hu, rfl⟩ | ⟨-, -, rfl, rfl⟩ | ⟨-, -, rfl, rfl⟩
      · rw [hp] at hp'
        cases hp'
      · refine .read rfl (openTurn_keeping hr) (.inr ⟨_, _, rfl⟩) (.left hp hq rfl ?_ h) (written_same rfl)
        cases x' <;> rfl
      · cases hx (by decide)
        exact .skip rfl rfl (.decided hp hq rfl h)
      · cases hx (by decide)
        exact .skip rfl rfl (.decided hp hq rfl h)

theorem elifTurn_trailer :
    elifTurn permit (some .falseTrailer) x false = .ok ⟨false, .branch .falseTrailer, none⟩ := by
  cases x <;> rfl

/-! ### Groups that are left -/

def Directive.continues : Directive → Bool
  | .elif _ | .otherwise | .closing => true
  | _ => false

theorem turn_through {d : Directive} {q : Phase} (hd : d.continues = true) (he : q.isElse = false)
    (hq : q ≠ .trueMiddle) :
    d.turn permit (some (Phase.falseMiddle.through q)) false = d.turn permit (some q) false := by
  cases d with
  | elif x => cases q <;> cases x <;> simp_all [Phase.isElse] <;> rfl
  | otherwise => cases q <;> simp_all [Phase.isElse] <;> rfl
  | closing => cases q <;> simp_all [Phase.isElse] <;> rfl
  | _ => cases hd

/-- The full run has ended the group that is left; the second run ends it now. -/
theorem turn_behind {d : Directive} (hd : d.continues = true)
    (ht : d.turn permit (some .falseTrailer) false = .ok turn) : turn.keep = false ∧
      ∃ turn', d.turn permit (some .trueMiddle) false = .ok turn' ∧ turn'.keep = true ∧
        d.edited turn'.edit = .closing ∧
        ∀ p q ps, turn'.shift.phases (p :: ps) = turn.shift.phases (q :: ps) := by
  cases d with
  | elif x => cases x <;> cases ht <;> exact ⟨rfl, _, rfl, rfl, rfl, fun _ _ _ => rfl⟩
  | otherwise => cases ht; exact ⟨rfl, _, rfl, rfl, rfl, fun _ _ _ => rfl⟩
  | closing => cases ht; exact ⟨rfl, _, rfl, rfl, rfl, fun _ _ _ => rfl⟩
  | _ => cases hd

theorem follows_of_kept {d : Directive} {p q : Phase} {sh : Shift} (hd : d.continues = true)
    (hp : p.echo = some .passMiddle) (he : q.isElse = false)
    (ht : d.turn permit (some (p.through q)) false = .ok turn')
    (hm : ∀ q' turn'', d.turn permit (some q) false = .ok turn'' →
      Meet (sh.phases (p :: ps)) (turn''.shift.phases (q' :: qs)) (turn''.shift.phases (q :: rs)) false) :
    Follows permit d (p :: ps) (p.through q :: qs) (q :: rs) (p = .falseMiddle ∧ q = .trueMiddle)
      ⟨true, sh, none⟩ turn' := by
  by_cases hb : p = .falseMiddle ∧ q = .trueMiddle
  · obtain ⟨rfl, rfl⟩ := hb
    obtain ⟨hk, turn'', ht'', hk', hclose, hphases⟩ := turn_behind hd ht
    have hmeet := hm .falseTrailer turn'' ht''
    rw [hphases .falseTrailer .falseTrailer] at hmeet
    exact .read rfl ht'' (.inl (by simp)) hmeet (.inr (.inr ⟨by simp, hk, hk', hclose⟩))
  · have hsame : d.turn permit (some (p.through q)) false = d.turn permit (some q) false := by
      cases p with
      | passMiddle => rfl
      | falseMiddle => exact turn_through hd he fun hq => hb ⟨rfl, hq⟩
      | _ => cases hp
    rw [hsame] at ht
    rw [decide_eq_false hb]
    exact .read rfl ht (.inl (by simp)) (hm _ _ ht) (written_same rfl)

theorem elif_phases {q : Phase} (h : elifTurn permit (some q) x false = .ok turn) :
    ∃ q' : Phase, q'.isElse = false ∧ ∀ p ps, turn.shift.phases (p :: ps) = q' :: ps := by
  cases q <;> cases x <;> cases h <;> exact ⟨_, rfl, fun _ _ => rfl⟩

theorem elif_left {p e q : Phase} (hp : dropping ps.head? = false) (hq : dropping qs.head? = false)
    (h : p.echo = some e) (he : q.isElse = e.isElse) (outer : Meet ps qs rs false) (hx : x ≠ .unknown → x' = x)
    (ht : elifTurn permit (some p) x false = .ok turn)
    (ht' : elifTurn permit (some (p.through q)) x' false = .ok turn') :
    Follows permit (.elif x') (p :: ps) (p.through q :: qs) (q :: rs) (p = .falseMiddle ∧ q = .trueMiddle)
      turn turn' := by
  -- If the first run leaves the `#elif`, the second run reads it as the full run does.
  have hkept : p.echo = some .passMiddle → turn = ⟨true, .branch .passMiddle, none⟩ →
      Follows permit (.elif x') (p :: ps) (p.through q :: qs) (q :: rs) (p = .falseMiddle ∧ q = .trueMiddle)
        turn turn' := by
    rintro hecho rfl
    rw [hecho] at h
    cases h
    refine follows_of_kept rfl hecho he ht' fun q' turn'' ht'' => ?_
    obtain ⟨q'', he'', hphases⟩ := elif_phases ht''
    rw [hphases, hphases]
    exact .left hp hq rfl he'' outer
  rcases elifTurn_cases ht with ⟨rfl, -, -⟩ | ⟨rfl, -, -, -⟩ | ⟨rfl, -, -, -⟩ | ⟨rfl, -, -⟩ |
    ⟨rfl, -, rfl⟩ | ⟨rfl, -, -, rfl⟩ | ⟨hp', rfl, -, rfl⟩ | ⟨hp', rfl, -, rfl⟩ | ⟨rfl, -, rfl⟩ | ⟨rfl, -⟩
  · cases h
  · cases h
  · cases h
  · cases h
  · exact hkept rfl rfl
  · exact hkept rfl rfl
  · -- The second run reads an `#else`.
    cases hx (by decide)
    rcases hp' with rfl | rfl <;> cases h <;> cases q <;> cases he <;> cases ht'
    all_goals
      refine .read rfl rfl (.inl (by simp)) (.of_left hp hq outer (by decide) (by decide)) ?_
      simp [Written, SameText, Directive.edited, Edit.read]
  · cases hx (by decide)
    rcases hp' with rfl | rfl <;> cases h
    · -- The condition is false: only after a branch that the later runs take does the full run write an
      -- `#endif` now.
      cases q with
      | trueMiddle =>
        cases ht'
        exact .ahead rfl rfl rfl (.of_left hp hq outer (by decide) (by decide))
      | passElse | falseElse | trueElse => cases he
      | _ =>
        cases ht'
        exact .skip rfl rfl (.of_left hp hq outer (by decide) (by decide))
    · cases q <;> cases he <;> cases ht' <;>
        exact .skip rfl rfl (.of_left hp hq outer (by decide) (by decide))
  · -- The second run reads an `#endif`.
    cases h
    cases q <;> cases he <;> cases x' <;> cases ht'
    all_goals
      refine .read rfl rfl (.inl (by simp)) (.decided hp hq rfl outer) ?_
      simp [Written, SameText, Directive.edited, Edit.read]
  · cases h

theorem otherwise_left {p e q : Phase} (hp : dropping ps.head? = false) (hq : dropping qs.head? = false)
    (h : p.echo = some e) (he : q.isElse = e.isElse) (outer : Meet ps qs rs false)
    (ht : elseTurn (some p) false = .ok turn) (ht' : elseTurn (some (p.through q)) false = .ok turn') :
    Follows permit .otherwise (p :: ps) (p.through q :: qs) (q :: rs) (p = .falseMiddle ∧ q = .trueMiddle)
      turn turn' := by
  have hkept : p.echo = some .passMiddle → turn = ⟨true, .switch .passElse, none⟩ →
      Follows permit .otherwise (p :: ps) (p.through q :: qs) (q :: rs) (p = .falseMiddle ∧ q = .trueMiddle)
        turn turn' := by
    rintro hecho rfl
    rw [hecho] at h
    cases h
    refine follows_of_kept rfl hecho he ht' fun q' turn'' ht'' => ?_
    have ht'' : elseTurn (some q) false = .ok turn'' := ht''
    rcases elseTurn_cases ht'' with ⟨-, rfl⟩ | ⟨-, rfl⟩ | ⟨-, -, rfl⟩ | ⟨-, -, rfl⟩ <;>
      exact .of_left hp hq outer (by decide) (by decide)
  rcases elseTurn_cases ht with ⟨rfl | ⟨rfl, -⟩, rfl⟩ | ⟨rfl | ⟨rfl, -⟩, -⟩ | ⟨rfl, -, -⟩ | ⟨rfl, -, rfl⟩
  · exact hkept rfl rfl
  · exact hkept rfl rfl
  · cases h
  · cases h
  · cases h
  · -- The second run reads an `#endif`.
    cases h
    cases q <;> cases he <;> cases ht'
    all_goals
      refine .read rfl rfl (.inl (by simp)) (.decided hp hq rfl outer) ?_
      simp [Written, SameText, Directive.edited, Edit.read]

theorem closing_left {p e q : Phase} (h : p.echo = some e) (he : q.isElse = e.isElse) (outer : Meet ps qs rs false)
    (ht : closeTurn (some p) false = .ok turn) (ht' : closeTurn (some (p.through q)) false = .ok turn') :
    Follows permit .closing (p :: ps) (p.through q :: qs) (q :: rs) (p = .falseMiddle ∧ q = .trueMiddle)
      turn turn' := by
  cases p <;> cases h <;> cases ht <;> cases q <;> cases he <;> cases ht'
  all_goals
    refine .read rfl rfl (.inl (by simp)) outer ?_
    simp [Written, SameText, Directive.edited]

/-! ### All groups -/

theorem elif_follows (h : Meet ps qs rs b) (hx : x ≠ .unknown → x' = x)
    (ht : elifTurn permit ps.head? x false = .ok turn) (ht' : elifTurn permit qs.head? x' false = .ok turn') :
    Follows permit (.elif x') ps qs rs b turn turn' := by
  cases h with
  | nil => cases ht
  | hidden hp h outer =>
    obtain rfl | rfl := Phase.eq_of_muted h
    · -- Both runs drop the group as a whole.
      have ht : elifTurn permit (some .falseTrailer) x false = .ok turn := ht
      have ht' : elifTurn permit (some .falseTrailer) x' false = .ok turn' := ht'
      rw [elifTurn_trailer] at ht ht'
      cases ht
      cases ht'
      exact .skip rfl rfl (.hidden hp rfl outer)
    · cases x <;> cases ht
  | @muted ps qs rs p q hp hq h outer =>
    have hr := (outer.dropping_second hp).1.trans hq
    obtain rfl | rfl := Phase.eq_of_muted h
    · have ht' : elifTurn permit (some .falseTrailer) x' false = .ok turn' := ht'
      rw [elifTurn_trailer] at ht'
      cases ht'
      -- The full run drops the group, the first run may write parts of it, which the second run drops.
      rcases elifTurn_cases ht with ⟨rfl, -, rfl⟩ | ⟨rfl, -, -, rfl⟩ | ⟨rfl, -, -, rfl⟩ | ⟨rfl, -, rfl⟩ |
        ⟨rfl, -, rfl⟩ | ⟨rfl, -, -, rfl⟩ | ⟨rfl | rfl, -, -, rfl⟩ | ⟨rfl | rfl, -, -, rfl⟩ | ⟨rfl, -, rfl⟩ |
        ⟨rfl, rfl⟩
      · exact .read rfl (openTurn_dropping hr) (.inr ⟨_, _, rfl⟩) (.muted hp hq rfl outer) (.inl ⟨rfl, rfl, rfl⟩)
      · exact .skip rfl rfl (.muted hp hq rfl outer)
      · exact .skip rfl rfl (.muted hp hq rfl outer)
      · exact .skip rfl rfl (.muted hp hq rfl outer)
      · exact .read rfl ht' (.inl (by simp [Phase.echo])) (.muted hp hq rfl outer) (.inl ⟨rfl, rfl, rfl⟩)
      · exact .read rfl ht' (.inl (by simp [Phase.echo])) (.muted hp hq rfl outer) (.inl ⟨rfl, rfl, rfl⟩)
      · exact .read rfl rfl (.inl (by simp [Phase.echo])) (.muted hp hq rfl outer) (.inl ⟨rfl, rfl, rfl⟩)
      · exact .read rfl rfl (.inl (by simp [Phase.echo])) (.muted hp hq rfl outer) (.inl ⟨rfl, rfl, rfl⟩)
      · exact .skip rfl rfl (.muted hp hq rfl outer)
      · exact .skip rfl rfl (.muted hp hq rfl outer)
      · exact .read rfl rfl (.inl (by simp [Phase.echo])) (.muted hp hq rfl outer) (.inl ⟨rfl, rfl, rfl⟩)
      · exact .skip rfl rfl (.muted hp hq rfl outer)
    · cases x' <;> cases ht'
  | @decided ps qs rs p hp hq h outer =>
    have hr := (outer.dropping_second hp).1.trans hq
    rcases elifTurn_cases ht with ⟨rfl, -, rfl⟩ | ⟨rfl, rfl, -, rfl⟩ | ⟨rfl, rfl, -, rfl⟩ | ⟨rfl, -, rfl⟩ |
      ⟨rfl, -⟩ | ⟨rfl, -⟩ | ⟨rfl | rfl, -⟩ | ⟨rfl | rfl, -⟩ | ⟨rfl, -⟩ | ⟨rfl, rfl⟩
    · -- What is left of the group begins here.
      have hopen : (Directive.opening x').turn permit rs.head? false =
          .ok ⟨x' = .unknown, .enter x'.entered false, none⟩ := openTurn_keeping hr
      cases x' <;> cases ht'
      all_goals
        refine .read rfl hopen (.inr ⟨_, _, rfl⟩) (.of_left hp hq outer (by decide) (by decide)) ?_
        simp [Written, SameText]
    · cases hx (by decide)
      cases ht'
      exact .skip rfl rfl (.decided hp hq rfl outer)
    · cases hx (by decide)
      cases ht'
      exact .skip rfl rfl (.decided hp hq rfl outer)
    · cases x' <;> cases ht' <;> exact .skip rfl rfl (.decided hp hq rfl outer)
    · cases h
    · cases h
    · cases h
    · cases h
    · cases h
    · cases h
    · cases h
    · cases x' <;> cases ht' <;> exact .skip rfl rfl (.decided hp hq rfl outer)
  | left hp hq h he outer => exact elif_left hp hq h he outer hx ht ht'

theorem otherwise_follows (h : Meet ps qs rs b) (ht : elseTurn ps.head? false = .ok turn)
    (ht' : elseTurn qs.head? false = .ok turn') : Follows permit .otherwise ps qs rs b turn turn' := by
  cases h with
  | nil => cases ht
  | hidden hp h outer =>
    obtain rfl | rfl := Phase.eq_of_muted h <;> cases ht
    cases ht'
    exact .skip rfl rfl (.hidden hp rfl outer)
  | @muted ps qs rs p q hp hq h outer =>
    obtain rfl | rfl := Phase.eq_of_muted h <;> cases ht'
    rcases elseTurn_cases ht with ⟨rfl | ⟨rfl, -⟩, rfl⟩ | ⟨rfl | ⟨rfl, -⟩, rfl⟩ | ⟨rfl, -, rfl⟩ | ⟨rfl, -, rfl⟩
    · exact .read rfl rfl (.inl (by simp [Phase.echo])) (.muted hp hq rfl outer) (.inl ⟨rfl, rfl, rfl⟩)
    · exact .read rfl rfl (.inl (by simp [Phase.echo])) (.muted hp hq rfl outer) (.inl ⟨rfl, rfl, rfl⟩)
    · exact .skip rfl rfl (.muted hp hq rfl outer)
    · exact .skip rfl rfl (.muted hp hq rfl outer)
    · exact .skip rfl rfl (.muted hp hq rfl outer)
    · exact .read rfl rfl (.inl (by simp [Phase.echo])) (.muted hp hq rfl outer) (.inl ⟨rfl, rfl, rfl⟩)
  | @decided ps qs rs p hp hq h outer =>
    cases p <;> cases h <;> cases ht <;> cases ht' <;> exact .skip rfl rfl (.decided hp hq rfl outer)
  | left hp hq h he outer => exact otherwise_left hp hq h he outer ht ht'

theorem closing_follows (h : Meet ps qs rs b) (ht : closeTurn ps.head? false = .ok turn)
    (ht' : closeTurn qs.head? false = .ok turn') : Follows permit .closing ps qs rs b turn turn' := by
  cases h with
  | nil => cases ht
  | hidden hp h outer =>
    obtain rfl | rfl := Phase.eq_of_muted h <;> cases ht <;> cases ht' <;> exact .skip rfl rfl outer
  | @muted ps qs rs p q hp hq h outer =>
    have hdrop : turn' = ⟨false, .leave, none⟩ := by
      obtain rfl | rfl := Phase.eq_of_muted h <;> cases ht' <;> rfl
    subst hdrop
    rcases closeTurn_cases ht with ⟨rfl | rfl | rfl | ⟨rfl, -⟩, rfl⟩ | ⟨rfl | rfl | rfl | rfl | rfl, -, rfl⟩
    · exact .read rfl rfl (.inl (by simp [Phase.echo])) outer (.inl ⟨rfl, rfl, rfl⟩)
    · exact .read rfl rfl (.inl (by simp [Phase.echo])) outer (.inl ⟨rfl, rfl, rfl⟩)
    · exact .read rfl rfl (.inl (by simp [Phase.echo])) outer (.inl ⟨rfl, rfl, rfl⟩)
    · exact .read rfl rfl (.inl (by simp [Phase.echo])) outer (.inl ⟨rfl, rfl, rfl⟩)
    all_goals exact .skip rfl rfl outer
  | @decided ps qs rs p hp hq h outer =>
    cases p <;> cases h <;> cases ht <;> cases ht' <;> exact .skip rfl rfl outer
  | left hp hq h he outer => exact closing_left h he outer ht ht'

theorem closeTurn_dodgy {here : Option Phase} (h : closeTurn here false = .ok turn) :
    closeTurn here true = .ok turn ∨ closeTurn here true = .error .obfuscated := by
  cases here with
  | none => cases h
  | some p => cases p <;> cases h <;> simp [closeTurn, keepAnd]

/-- Every directive takes the three runs on together. -/
theorem directive_follows {d d' : Directive} (h : Meet ps qs rs b) (hg : ∀ holds, d ≠ .guard holds)
    (hg' : ∀ holds, d' ≠ .guard holds) (hr : d.Refines d') (ht : d.turn permit ps.head? false = .ok turn)
    (ht' : d'.turn permit qs.head? false = .ok turn') : Follows permit d' ps qs rs b turn turn' := by
  obtain ⟨hform, hsame⟩ := hr
  cases d with
  | guard holds => exact absurd rfl (hg holds)
  | opening x =>
    cases d' with
    | opening x' =>
      refine opening_follows h (fun hx => ?_) ht ht'
      simpa using hsame (by simpa [Directive.isDecided] using hx)
    | guard holds => exact absurd rfl (hg' holds)
    | _ => cases hform
  | elif x =>
    cases d' with
    | elif x' =>
      refine elif_follows h (fun hx => ?_) ht ht'
      simpa using hsame (by simpa [Directive.isDecided] using hx)
    | _ => cases hform
  | otherwise => cases d' <;> cases hform; exact otherwise_follows h ht ht'
  | closing => cases d' <;> cases hform; exact closing_follows h ht ht'

end

end CondResolve
