import Mathlib
import CondResolve.Proofs.Advance
import CondResolve.Proofs.Climbing
import CondResolve.Proofs.Table

/-!
# Comments across dropped lines

A comment that opens in a dropped line has to end in a dropped line, or the text written has half of it. A dodgy
directive makes no change from writing lines to dropping them or back, with one exception: the unknown `#elif`
that is edited to an `#if`. Where that one is met in a comment or a literal, and only there, the text written
goes on in a mode that it has not got into.
-/

namespace CondResolve

/-! ## Dodgy directives -/

def DroppedWhole : List Phase → Prop
  | [] => True
  | p :: ps => (dropping ps.head? = true → p.muted = p) ∧ DroppedWhole ps

section
variable {permit dodgy : Bool} {ps : List Phase} {d : Directive} {turn : Turn}

theorem muted_of_turn {p q : Phase} (hp : p.muted = p) (h : d.turn permit (some p) dodgy = .ok turn)
    (hs : turn.shift = .branch q ∨ turn.shift = .switch q) : q.muted = q := by
  have hdrop : dropping (some p) = true := Phase.drops_of_muted hp
  cases d with
  | guard holds =>
    rcases openTurn_cases h with ⟨-, rfl⟩ | ⟨hd, -⟩ | ⟨hd, -⟩ | ⟨hd, -⟩
    · simp at hs
    all_goals simp [hdrop] at hd
  | opening x =>
    rcases openTurn_cases h with ⟨-, rfl⟩ | ⟨hd, -⟩ | ⟨hd, -⟩ | ⟨hd, -⟩
    · simp at hs
    all_goals simp [hdrop] at hd
  | elif x =>
    obtain rfl | rfl := Phase.eq_of_muted hp <;> cases x <;> cases dodgy <;> cases h <;>
      obtain ⟨⟨⟩⟩ | ⟨⟨⟩⟩ := hs <;> rfl
  | otherwise =>
    obtain rfl | rfl := Phase.eq_of_muted hp <;> cases dodgy <;> cases h <;> obtain ⟨⟨⟩⟩ | ⟨⟨⟩⟩ := hs <;> rfl
  | closing => rcases closeTurn_cases h with ⟨-, rfl⟩ | ⟨-, -, rfl⟩ <;> simp at hs

theorem muted_of_enter {here : Option Phase} {q : Phase} {b : Bool} (hd : dropping here = true)
    (h : d.turn permit here dodgy = .ok turn) (hs : turn.shift = .enter q b) : q.muted = q := by
  have opened : ∀ {x : Truth} {ignored : Bool}, openTurn permit here x ignored dodgy = .ok turn → q.muted = q := by
    intro x ignored h
    rcases openTurn_cases h with ⟨-, rfl⟩ | ⟨hd', -⟩ | ⟨hd', -⟩ | ⟨hd', -⟩
    · cases hs
      rfl
    all_goals simp [hd] at hd'
  cases here with
  | none => cases hd
  | some p =>
    cases d with
    | guard holds => exact opened h
    | opening x => exact opened h
    | elif x => cases p <;> cases x <;> cases dodgy <;> cases permit <;> cases h <;> cases hs
    | otherwise => cases p <;> cases dodgy <;> cases h <;> cases hs
    | closing => rcases closeTurn_cases h with ⟨-, rfl⟩ | ⟨-, -, rfl⟩ <;> cases hs

theorem droppedWhole_of_turn (hn : DroppedWhole ps) (h : d.turn permit ps.head? dodgy = .ok turn) :
    DroppedWhole (turn.shift.phases ps) := by
  rcases shift_of_turn h with ⟨-, hs, -⟩ | ⟨q, b, hs, -⟩ | ⟨q, hs⟩
  · rw [hs]
    cases ps with
    | nil => trivial
    | cons p ps => exact hn.2
  · rw [hs]
    exact ⟨fun hd => muted_of_enter hd h hs, hn⟩
  · cases ps with
    | nil => rcases hs with hs | hs <;> rw [hs] <;> exact ⟨by simp [dropping], trivial⟩
    | cons p ps =>
      have hq : dropping ps.head? = true → q.muted = q := fun hd => muted_of_turn (hn.1 hd) h hs
      rcases hs with hs | hs <;> rw [hs] <;> exact ⟨hq, hn.2⟩

/-- A dodgy directive makes no change from writing lines to dropping them or back, except for one. -/
theorem dropping_of_dodgy (hn : DroppedWhole ps) (h : d.turn permit ps.head? true = .ok turn) :
    (d = .elif .unknown ∧ ps.head? = some .falsePrefix ∧ turn = ⟨true, .branch .passMiddle, some .toIf⟩) ∨
    (turn.keep = (!dropping ps.head?) ∧ turn.edit = none ∧
      dropping (turn.shift.phases ps).head? = dropping ps.head?) := by
  have opened : ∀ {x : Truth} {ignored : Bool}, openTurn permit ps.head? x ignored true = .ok turn →
      turn.keep = (!dropping ps.head?) ∧ turn.edit = none ∧
        dropping (turn.shift.phases ps).head? = dropping ps.head? := by
    intro x ignored h
    rcases openTurn_cases h with ⟨hd, rfl⟩ | ⟨hd, -, rfl⟩ | ⟨-, ⟨⟩, -⟩ | ⟨-, ⟨⟩, -⟩ <;> rw [hd] <;>
      exact ⟨rfl, rfl, rfl⟩
  cases d with
  | guard holds => exact .inr (opened h)
  | opening x => exact .inr (opened h)
  | elif x =>
    cases ps with
    | nil => cases h
    | cons p ps =>
      rcases elifTurn_cases h with ⟨rfl, rfl, rfl⟩ | ⟨-, -, ⟨⟩, -⟩ | ⟨-, -, ⟨⟩, -⟩ | ⟨-, ⟨⟩, -⟩ | ⟨rfl, -, rfl⟩ |
        ⟨-, -, ⟨⟩, -⟩ | ⟨-, -, ⟨⟩, -⟩ | ⟨-, -, ⟨⟩, -⟩ | ⟨-, ⟨⟩, -⟩ | ⟨rfl, rfl⟩
      · exact .inl ⟨rfl, rfl, rfl⟩
      · exact .inr ⟨rfl, rfl, rfl⟩
      · exact .inr ⟨rfl, rfl, rfl⟩
  | otherwise =>
    cases ps with
    | nil => cases h
    | cons p ps => cases p <;> cases h <;> exact .inr ⟨rfl, rfl, rfl⟩
  | closing =>
    cases ps with
    | nil => cases h
    | cons p ps =>
      -- The group around is not dropped, or this one would be dropped with it.
      have houter : p.muted ≠ p → dropping ps.head? = false := fun hp => by
        cases hd : dropping ps.head? with
        | false => rfl
        | true => exact absurd (hn.1 hd) hp
      cases p <;> cases h <;> exact .inr ⟨rfl, rfl, houter (by decide)⟩

end

/-! ## Kept lines and their modes -/

structure Kept where
  before : Mode
  text : Chars
  after : Mode
  deriving DecidableEq, Repr

def kept (before : Mode) : List Step → List Kept
  | [] => []
  | st :: steps =>
    if st.out = [] then kept st.run.lex.mode steps
    else ⟨before, st.out, st.run.lex.mode⟩ :: kept st.run.lex.mode steps

def Unbroken (mode : Mode) : List Kept → Prop
  | [] => True
  | k :: ks => k.before = mode ∧ Unbroken k.after ks

/-- An unknown `#elif` after false branches, met inside a comment or a literal. -/
def cutsAt (r : Run) (st : Step) : Bool :=
  r.machine.stack.phase? = some .falsePrefix ∧ st.kind = .directive (.elif .unknown) true ∧ r.lex.mode ≠ .code

/-- Some step ends dropped lines inside a comment or a literal. -/
def cuts (r : Run) : List Step → Bool
  | [] => false
  | st :: steps => cutsAt r st || cuts st.run steps

/-- The modes at the start of each line, when the lines are scanned without regard to directives. -/
def scanModes (lx : Except Broken Lexical) : List Chars → List (Except Broken Mode)
  | [] => []
  | line :: ls => (lx.map (·.mode)) :: scanModes (lx >>= fun lx => skipLine false lx line) ls

/-- Scanning the line leaves the mode that the run was left in. -/
def Kept.Rescans (k : Kept) : Prop := (skipLine false ⟨k.before, .start⟩ k.text).map (·.mode) = .ok k.after

def Kept.holdsKeyword (k : Kept) : Bool :=
  match findKeyword false ⟨k.before, .start⟩ k.text with
  | .ok (_, _ :: _) => true
  | _ => false

def SameModes (lx : Lexical) (ks : List Kept) : Prop :=
  scanModes (.ok lx) (ks.map (·.text)) = ks.map fun k => .ok k.before

section
variable {lx lx' : Lexical} {k : Kept} {ks : List Kept}

theorem rescans_iff (hk : k.before = lx.mode) :
    k.Rescans ↔ (skipLine false lx k.text).map (·.mode) = .ok k.after := by
  unfold Kept.Rescans skipLine
  rw [hk]
  split <;> rfl

theorem exists_of_rescans (hk : k.before = lx.mode) (h : k.Rescans) :
    ∃ lx', skipLine false lx k.text = .ok lx' ∧ lx'.mode = k.after := by
  rw [rescans_iff hk] at h
  cases hs : skipLine false lx k.text with
  | error b =>
    rw [hs] at h
    cases h
  | ok lx' =>
    rw [hs] at h
    exact ⟨lx', rfl, Except.ok.inj h⟩

theorem sameModes_cons (hk : k.before = lx.mode) (hs : skipLine false lx k.text = .ok lx') :
    SameModes lx (k :: ks) ↔ SameModes lx' ks := by
  simp only [SameModes, List.map_cons, scanModes, hk, List.cons.injEq]
  have hnext : (Except.ok lx >>= fun lx => skipLine false lx k.text) = .ok lx' := hs
  rw [hnext]
  exact and_iff_right rfl

theorem before_of_sameModes (h : SameModes lx (k :: ks)) : k.before = lx.mode := by
  simp only [SameModes, List.map_cons, scanModes, List.cons.injEq] at h
  exact (Except.ok.inj h.1).symm

theorem sameModes_iff_unbroken : ∀ {ks : List Kept} {lx : Lexical}, (∀ k ∈ ks.dropLast, k.Rescans) →
    (SameModes lx ks ↔ Unbroken lx.mode ks)
  | [], lx, _ => by simp [SameModes, scanModes, Unbroken]
  | [k], lx, _ => by
    constructor
    · intro h
      exact ⟨before_of_sameModes h, trivial⟩
    · rintro ⟨hk, -⟩
      simp [SameModes, scanModes, hk, Except.map]
  | k :: k' :: ks, lx, h => by
    rw [List.dropLast_cons_cons, List.forall_mem_cons] at h
    have next : k.before = lx.mode → (SameModes lx (k :: k' :: ks) ↔ Unbroken k.after (k' :: ks)) := by
      intro hk
      obtain ⟨lx', hs, ha⟩ := exists_of_rescans hk h.1
      rw [sameModes_cons hk hs, ← ha]
      exact sameModes_iff_unbroken h.2
    constructor
    · intro hs
      have hk := before_of_sameModes hs
      exact ⟨hk, (next hk).mp hs⟩
    · rintro ⟨hk, hu⟩
      exact (next hk).mpr hu

theorem rescans_of_sameModes : ∀ {ks : List Kept} {lx : Lexical}, Unbroken lx.mode ks → SameModes lx ks →
    ∀ k ∈ ks.dropLast, k.Rescans
  | [], _, _, _ => by simp
  | [k], _, _, _ => by simp
  | k :: k' :: ks, lx, hu, hs => by
    obtain ⟨hk, hk', hu⟩ := hu
    rw [List.dropLast_cons_cons, List.forall_mem_cons]
    have hr : k.Rescans := by
      simp only [SameModes, List.map_cons, scanModes, List.cons.injEq] at hs
      rw [rescans_iff hk, ← hk']
      exact hs.2.1
    obtain ⟨lx', hscan, ha⟩ := exists_of_rescans hk hr
    refine ⟨hr, rescans_of_sameModes ⟨?_, hu⟩ ((sameModes_cons hk hscan).mp hs)⟩
    rw [hk', ha]

end

/-! ## One line -/

/-- The line written last left the mode `e`: where lines are dropped it was code, elsewhere it is the mode of the
run. -/
structure Joined (s : Settings) (r : Run) (e : Mode) : Prop where
  even : r.Even s
  whole : DroppedWhole r.machine.stack.phases
  mode : e = if dropping r.machine.stack.phase? then .code else r.lex.mode
  blanks : dropping r.machine.stack.phase? = false → r.machine.writer.blanks ≠ r.machine.writer.blankMax →
    r.lex = {}

section
variable {s : Settings} {t : Table} {r : Run} {line : Chars} {c : Classified} {turn : Turn} {st : Step} {e : Mode}

theorem Joined.mode_of_code (hj : Joined s r e) (hr : r.lex.mode = .code) : e = .code := by
  rw [hj.mode, hr, ite_self]

theorem Joined.mode_of_writing (hj : Joined s r e) (hd : dropping r.machine.stack.phase? = false) :
    r.lex.mode = e := by
  rw [hj.mode, hd]
  rfl

theorem cutsAt_of_ne (h : st.kind ≠ .directive (.elif .unknown) true) : cutsAt r st = false := by
  simp [cutsAt, h]

def JoinStep (s : Settings) (r : Run) (st : Step) (e : Mode) : Prop :=
  (st.out = [] ∧ cutsAt r st = false ∧ Joined s st.run e) ∨
  (FullLine st.out ∧ (r.lex.mode = e ↔ cutsAt r st = false) ∧ Joined s st.run st.run.lex.mode)

theorem plain_joined (hq : s.Quiet) (hb : s.blankPlaceholders = false) (ht : t.NoneIgnored) (hj : Joined s r e)
    (hfull : FullLine line) (ha : Advances s t r line c turn st) (hk : c.kind = .plain) : JoinStep s r st e := by
  have heven := hj.even.advances ht hfull.oneLine ha
  have hcut : cutsAt r st = false := cutsAt_of_ne (by simp [ha.kind, hk])
  obtain ⟨hline, rfl, hstack⟩ := ha.plain hk
  have hwhole : DroppedWhole st.run.machine.stack.phases := by
    rw [hstack]
    exact hj.whole
  cases hd : dropping r.machine.stack.phase? with
  | true =>
    have hout := ha.out_of_drop hq (by simp [hd])
    rw [hb] at hout
    refine .inl ⟨hout, hcut, heven, hwhole, ?_, fun h => ?_⟩
    · rw [hstack, hj.mode, hd]
      rfl
    · rw [hstack, hd] at h
      cases h
  | false =>
    have he := hj.mode_of_writing hd
    rcases ha.cases_of_keep hq (by simp [hd]) with ⟨hout, hblank, hlow, -⟩ | ⟨hout, hlevel, -⟩
    · -- An absorbed blank line follows lines that were dropped, where the mode is that of code.
      have hr := hj.blanks hd hlow
      have hblank : isBlank line = true := by
        rw [← hline]
        exact hblank
      have hc : c.lex = {} := by
        have hcl := ha.classified
        rw [hr] at hcl
        exact ((reads_blank hblank).eq rfl hcl).2.2.1
      refine .inl ⟨hout, hcut, heven, hwhole, ?_, fun _ _ => by rw [ha.lex, hc]⟩
      rw [hstack, hd, ha.lex, hc, ← he, hr]
      rfl
    · have hout : st.out = line := hout.trans hline
      refine .inr ⟨by rwa [hout], by simp [he, hcut], heven, hwhole, ?_, fun _ hlow => absurd hlevel hlow⟩
      rw [hstack, hd]
      rfl

theorem fullLine_text (hfull : FullLine line) (ha : Advances s t r line c turn st) {d : Directive} {dodgy : Bool}
    (hk : c.kind = .directive d dodgy) : FullLine (turn.text (r.current line c)) := by
  obtain ⟨p, w, -, rfl, -, hw, hkw, helif, -, hline⟩ := keyword_of_classify ha.classified hk
  have hline : c.line = p ++ w := hline.resolve_right fun h => by simp [hfull.lacksNewline] at h
  unfold Turn.text
  cases hed : turn.edit with
  | none =>
    show FullLine c.line
    rwa [hline]
  | some e =>
    refine fullLine_edit hfull hw e (fun he => ?_) hline hkw
    obtain ⟨x, hx⟩ := elif_of_toIf (ha.directive hk).1 (hed.trans (congrArg some he))
    exact helif x hx

theorem not_blank_of_mem {cs : Chars} {a : Char} (h : a ∈ cs) (ha : isSpaceOrNewline a = false) :
    isBlank cs = false := by
  rw [Bool.eq_false_iff]
  intro hb
  rw [List.all_eq_true.mp hb a h] at ha
  cases ha

theorem not_blank_of_directive (ha : Advances s t r line c turn st) {d : Directive} {dodgy : Bool}
    (hk : c.kind = .directive d dodgy) : isBlank (turn.text (r.current line c)) = false := by
  obtain ⟨p, w, -, rfl, -, ⟨a, w, rfl, hsym, -⟩, -, -, -, hline⟩ := keyword_of_classify ha.classified hk
  unfold Turn.text
  cases hed : turn.edit with
  | none =>
    have hspace : isSpaceOrNewline a = false := by
      simp [isSpaceOrNewline, isSpace_of_isSymbolChar hsym, ne_of_isSymbolChar hsym]
    refine not_blank_of_mem (a := a) ?_ hspace
    show a ∈ c.line
    rcases hline with hline | ⟨-, hline⟩ <;> simp [hline]
  | some e =>
    cases e with
    | toIf => exact not_blank_of_mem (a := 'i') (by simp [Edit.apply]) rfl
    | toElse => exact not_blank_of_mem (a := 'e') (by simp [Edit.apply]) rfl
    | toEndif => exact not_blank_of_mem (a := 'e') (by simp [Edit.apply]) rfl

theorem out_of_directive (hq : s.Quiet) (hb : s.blankPlaceholders = false) (ha : Advances s t r line c turn st)
    {d : Directive} {dodgy : Bool} (hk : c.kind = .directive d dodgy) :
    (turn.keep = false ∧ st.out = []) ∨
    (turn.keep = true ∧ st.out = turn.text (r.current line c) ∧
      st.run.machine.writer.blanks = st.run.machine.writer.blankMax) := by
  cases hkeep : turn.keep with
  | false =>
    have hout := ha.out_of_drop hq hkeep
    rw [hb] at hout
    exact .inl ⟨rfl, hout⟩
  | true =>
    rcases ha.cases_of_keep hq hkeep with ⟨-, hblank, -⟩ | ⟨hout, hlevel, -⟩
    · rw [not_blank_of_directive ha hk] at hblank
      cases hblank
    · exact .inr ⟨rfl, hout, hlevel⟩

theorem DroppedWhole.directive (hn : DroppedWhole r.machine.stack.phases) (ha : Advances s t r line c turn st)
    {d : Directive} {dodgy : Bool} (hk : c.kind = .directive d dodgy) :
    DroppedWhole st.run.machine.stack.phases := by
  obtain ⟨hturn, hphases⟩ := ha.directive hk
  rw [hphases]
  exact droppedWhole_of_turn hn hturn

theorem clean_joined (hq : s.Quiet) (hb : s.blankPlaceholders = false) (ht : t.NoneIgnored) (hj : Joined s r e)
    (hfull : FullLine line) (ha : Advances s t r line c turn st) {d : Directive}
    (hk : c.kind = .directive d false) :
    JoinStep s r st e := by
  have heven := hj.even.advances ht hfull.oneLine ha
  have hcut : cutsAt r st = false := cutsAt_of_ne (by simp [ha.kind, hk])
  obtain ⟨lk, w, j, hclean, -, -, hlex⟩ := ha.clean hj.even hfull hk
  have hcode : r.lex.mode = .code := by rw [hclean.start]
  have he := hj.mode_of_code hcode
  have hwhole := hj.whole.directive ha hk
  have hjoined : Joined s st.run .code := ⟨heven, hwhole, by rw [hlex, ite_self], fun _ _ => hlex⟩
  rcases out_of_directive hq hb ha hk with ⟨-, hout⟩ | ⟨-, hout, -⟩
  · exact .inl ⟨hout, hcut, he ▸ hjoined⟩
  · refine .inr ⟨?_, by simp [hcode, he, hcut], by rwa [hlex]⟩
    rw [hout]
    exact fullLine_text hfull ha hk

theorem dodgy_joined (hq : s.Quiet) (hb : s.blankPlaceholders = false) (ht : t.NoneIgnored) (hj : Joined s r e)
    (hfull : FullLine line) (ha : Advances s t r line c turn st) {d : Directive} (hk : c.kind = .directive d true) :
    JoinStep s r st e := by
  have heven := hj.even.advances ht hfull.oneLine ha
  obtain ⟨hturn, hphases⟩ := ha.directive hk
  have hwhole := hj.whole.directive ha hk
  have hwritten : turn.keep = true → dropping st.run.machine.stack.phase? = false → FullLine st.out ∧
      Joined s st.run st.run.lex.mode := by
    intro hkeep hd
    rcases out_of_directive hq hb ha hk with ⟨hdrop, -⟩ | ⟨-, hout, hlevel⟩
    · rw [hdrop] at hkeep
      cases hkeep
    · refine ⟨hout ▸ fullLine_text hfull ha hk, heven, hwhole, ?_, fun _ hlow => absurd hlevel hlow⟩
      rw [hd]
      rfl
  rcases dropping_of_dodgy hj.whole hturn with ⟨rfl, hhead, rfl⟩ | ⟨hkeep, hedit, hsame⟩
  · have hd : dropping st.run.machine.stack.phase? = false := by
      rw [Stack.phase?_eq, hphases]
      rfl
    obtain ⟨hout, hjoined⟩ := hwritten rfl hd
    refine .inr ⟨hout, ?_, hjoined⟩
    -- The one change from dropping to writing: the cut is there iff the line did not start in code.
    have he : e = .code := by
      rw [hj.mode, Stack.phase?_eq, hhead]
      rfl
    rw [he]
    simp [cutsAt, Stack.phase?_eq, hhead, ha.kind, hk]
  · -- Every other dodgy directive stays on its side of the line between dropping and writing.
    have hcut : cutsAt r st = false := by
      rw [Bool.eq_false_iff]
      intro hcut
      obtain ⟨hhead, hkind, -⟩ := of_decide_eq_true hcut
      rw [ha.kind, hk] at hkind
      cases hkind
      rw [← Stack.phase?_eq, hhead] at hturn
      cases hturn
      cases hedit
    rw [← hphases, ← Stack.phase?_eq, ← Stack.phase?_eq] at hsame
    rw [← Stack.phase?_eq] at hkeep
    cases hd : dropping r.machine.stack.phase? with
    | true =>
      rw [hd] at hkeep hsame
      rcases out_of_directive hq hb ha hk with ⟨-, hout⟩ | ⟨hkeep', -⟩
      · refine .inl ⟨hout, hcut, heven, hwhole, ?_, fun h => ?_⟩
        · rw [hj.mode, hsame, hd]
          rfl
        · rw [hsame] at h
          cases h
      · rw [hkeep'] at hkeep
        cases hkeep
    | false =>
      rw [hd] at hkeep hsame
      obtain ⟨hout, hjoined⟩ := hwritten hkeep hsame
      exact .inr ⟨hout, by simp [hj.mode_of_writing hd, hcut], hjoined⟩

/-! ## Whole texts -/

theorem last_joined (hq : s.Quiet) (hb : s.blankPlaceholders = false) (hj : Joined s r e)
    (hne : line ≠ []) (hn : '\n' ∉ line) (ha : Advances s t r line c turn st) (hc : st.run.Complete) :
    cutsAt r st = false ∧ (st.out = [] ∨ (st.out ≠ [] ∧ lines st.out = [st.out] ∧ r.lex.mode = e)) := by
  have written : ∀ {out : Chars}, out = line ∨ FullLine out → out ≠ [] ∧ lines out = [out] := by
    intro out h
    refine ⟨?_, lines_written hne hn h⟩
    rcases h with rfl | h
    · exact hne
    · exact h.ne_nil
  rcases kind_of_classify ha.classified with hk | ⟨d, dodgy, hk, -⟩
  · refine ⟨cutsAt_of_ne (by simp [ha.kind, hk]), ?_⟩
    obtain ⟨hline, rfl, hstack⟩ := ha.plain hk
    have hd : dropping r.machine.stack.phase? = false := by
      rw [← hstack, hc.1]
      rfl
    rcases ha.cases_of_keep hq (by simp [hd]) with ⟨hout, -⟩ | ⟨hout, -⟩
    · exact .inl hout
    · obtain ⟨hout, hlines⟩ := written (.inl (hout.trans hline))
      exact .inr ⟨hout, hlines, hj.mode_of_writing hd⟩
  · obtain ⟨rfl, hedit, -⟩ := ha.closing hk hc
    refine ⟨cutsAt_of_ne (by simp [ha.kind, hk]), ?_⟩
    rcases out_of_directive hq hb ha hk with ⟨-, hout⟩ | ⟨hkeep, hout, -⟩
    · exact .inl hout
    · obtain ⟨-, -, -, -, -, -, -, -, hcode, hline⟩ := keyword_of_classify ha.classified hk
      have hout : st.out = c.line := by
        rw [hout, Turn.text, hedit]
        rfl
      have hshape : st.out = line ∨ FullLine st.out := by
        rw [hout]
        refine hline.imp_right fun h => ?_
        rw [h.2]
        exact fullLine_append hn _
      obtain ⟨hne', hlines⟩ := written hshape
      refine .inr ⟨hne', hlines, ?_⟩
      -- A clean directive starts in code; a dodgy one closes a group only where lines are written.
      cases dodgy with
      | false =>
        have hcode := hcode rfl
        rw [hj.mode_of_code hcode, hcode]
      | true =>
        rcases dropping_of_dodgy hj.whole (ha.directive hk).1 with ⟨⟨⟩, -⟩ | ⟨hdrop, -, -⟩
        refine hj.mode_of_writing ?_
        rw [hkeep, ← Stack.phase?_eq] at hdrop
        simpa using hdrop.symm

/-- The lines written join in their modes exactly if no step cuts. -/
theorem trace_joined (hq : s.Quiet) (hb : s.blankPlaceholders = false) (ht : t.NoneIgnored) :
    ∀ {ls : List Chars} {r : Run} {e : Mode}, Physical ls → Joined s r e → (r.trace s t ls).failure = none →
    lines (r.trace s t ls).text = (kept r.lex.mode (r.trace s t ls).steps).map (·.text) ∧
      (Unbroken e (kept r.lex.mode (r.trace s t ls).steps) ↔ cuts r (r.trace s t ls).steps = false)
  | [], r, e, _, _, hf => by
    have hend : r.trace s t [] = _ := finish_of_complete hq.silent (complete_of_finish hf)
    rw [hend]
    exact ⟨rfl, by simp [kept, cuts, cutsAt, Unbroken]⟩
  | line :: ls, r, e, hp, hj, hf => by
    obtain ⟨st, c, turn, hadv, ha⟩ := advances_of_trace hq.silent hf
    rw [trace_of_advance hadv] at hf ⊢
    rw [text_cons]
    simp only [kept, cuts, Bool.or_eq_false_iff]
    rcases hp with ⟨hfull, hp⟩ | ⟨rfl, hne, hn⟩
    · have hstep : JoinStep s r st e := by
        rcases kind_of_classify ha.classified with hk | ⟨d, dodgy, hk, -⟩
        · exact plain_joined hq hb ht hj hfull ha hk
        · cases dodgy with
          | false => exact clean_joined hq hb ht hj hfull ha hk
          | true => exact dodgy_joined hq hb ht hj hfull ha hk
      -- A line that is not written leaves the mode that the next written line has to continue.
      rcases hstep with ⟨hout, hcut, hj'⟩ | ⟨hout, hcut, hj'⟩
      · obtain ⟨hl, hu⟩ := trace_joined hq hb ht hp hj' hf
        rw [if_pos hout, hout]
        exact ⟨hl, by simp [hu, hcut]⟩
      · obtain ⟨hl, hu⟩ := trace_joined hq hb ht hp hj' hf
        rw [if_neg hout.ne_nil, lines_full hout, hl]
        exact ⟨rfl, and_congr hcut hu⟩
    · have hc := complete_of_finish hf
      have hend : st.run.trace s t [] = _ := finish_of_complete hq.silent hc
      obtain ⟨hcut, hlast⟩ := last_joined hq hb hj hne hn ha hc
      -- Nothing follows the last line, so no later line can be cut from it.
      have hcuts : cuts st.run (st.run.trace s t []).steps = false := by
        rw [hend]
        simp [cuts, cutsAt]
      have hkept : kept st.run.lex.mode (st.run.trace s t []).steps = [] := by
        rw [hend]
        simp [kept]
      rw [text_of_complete hq.silent hc, List.append_nil, hkept, hcuts, hcut]
      rcases hlast with hout | ⟨hout, hlines, he⟩
      · rw [if_pos hout, hout]
        exact ⟨rfl, by simp [Unbroken]⟩
      · rw [if_neg hout, hlines]
        exact ⟨rfl, by simp [Unbroken, he]⟩

/-! ## Lines that hold no directive -/

theorem holdsKeyword_of_findKeyword {k : Kept} {lk : Lexical} {w : Chars} (hw : w ≠ [])
    (h : findKeyword false ⟨k.before, .start⟩ k.text = .ok (lk, w)) : k.holdsKeyword = true := by
  obtain ⟨a, w, rfl⟩ := List.exists_cons_of_ne_nil hw
  simp [Kept.holdsKeyword, h]

theorem keyword_of_text (ha : Advances s t r line c turn st) {d : Directive} {dodgy : Bool}
    (hk : c.kind = .directive d dodgy) : ∃ lk w, w ≠ [] ∧
      findKeyword (r.view s line).verbatim r.lex (turn.text (r.current line c)) = .ok (lk, w) := by
  obtain ⟨p, w, lk, rfl, hfind, hw, hkw, -, -, hline⟩ := keyword_of_classify ha.classified hk
  obtain ⟨w', hw', htext⟩ : ∃ w', StartsWord w' ∧ turn.text (r.current (p ++ w) c) = p ++ w' := by
    have htake : c.line.take c.keyword = p := by
      rw [hkw]
      rcases hline with hline | ⟨-, hline⟩ <;> simp [hline]
    unfold Turn.text
    cases hed : turn.edit with
    | none =>
      rcases hline with hline | ⟨-, hline⟩
      · exact ⟨w, hw, hline⟩
      · obtain ⟨a, w, rfl, hsym⟩ := hw
        exact ⟨_, ⟨a, _, rfl, hsym⟩, hline.trans (List.append_assoc ..)⟩
    | some e =>
      cases e with
      | toIf =>
        refine ⟨"if  ".toList ++ c.line.drop (c.keyword + 4), ⟨'i', _, rfl, rfl, by decide⟩, ?_⟩
        simp [Edit.apply, Run.current, htake]
      | toElse =>
        refine ⟨"else".toList ++ (r.newlineAt (p ++ w)).chars, ⟨'e', _, rfl, rfl, by decide⟩, ?_⟩
        simp [Edit.apply, Run.current, htake]
      | toEndif =>
        refine ⟨"endif".toList ++ (r.newlineAt (p ++ w)).chars, ⟨'e', _, rfl, rfl, by decide⟩, ?_⟩
        simp [Edit.apply, Run.current, htake]
  rw [htext]
  refine ⟨lk, w', ?_, findKeyword_word hw hw' hfind⟩
  obtain ⟨a, w, rfl, -⟩ := hw'
  simp

theorem out_of_plain (hq : s.Quiet) (hb : s.blankPlaceholders = false) (ha : Advances s t r line c turn st)
    (hk : c.kind = .plain) (hout : st.out ≠ []) : st.out = line := by
  obtain ⟨hline, rfl, -⟩ := ha.plain hk
  by_cases hd : dropping r.machine.stack.phase? = true
  · have hdrop := ha.out_of_drop hq (by simp [hd])
    simp [hb, hout] at hdrop
  · rcases ha.cases_of_keep hq (by simpa using hd) with ⟨hnil, -⟩ | ⟨hwritten, -⟩
    · exact absurd hnil hout
    · exact hwritten.trans hline

/-- A line in which the classifier finds no keyword scans as it was read. -/
theorem rescans_of_nil (hv : (r.view s line).verbatim = false) (hne : line ≠ [])
    (ha : Advances s t r line c turn st) {lk : Lexical}
    (hfind : findKeyword (r.view s line).verbatim r.lex line = .ok (lk, [])) :
    Kept.Rescans ⟨r.lex.mode, line, st.run.lex.mode⟩ := by
  obtain ⟨lk', w, hfind', hc⟩ := classify_eq_ok_iff.mp ha.classified
  cases hfind.symm.trans hfind'
  have hc : c = { kind := .plain, line, lex := lk } := by simpa using hc
  rw [hv] at hfind
  obtain ⟨l, hscan⟩ := scan_of_findKeyword hne .start hfind
  unfold Kept.Rescans
  rw [hscan, ha.lex, hc]
  rfl

/-- Only a line that holds a directive may be scanned otherwise than it was read. -/
theorem rescans_of_step (hq : s.Quiet) (hp : s.passthroughText = false) (hb : s.blankPlaceholders = false)
    (he : r.Even s) (ho : OneLine line) (hne : line ≠ []) (ha : Advances s t r line c turn st) (hout : st.out ≠ [])
    (hw : Kept.holdsKeyword ⟨r.lex.mode, st.out, st.run.lex.mode⟩ = false) :
    Kept.Rescans ⟨r.lex.mode, st.out, st.run.lex.mode⟩ := by
  have hv : (r.view s line).verbatim = false := he.verbatim.trans hp
  -- A keyword is found at the start of a line only.
  have hstart : ∀ {lk w}, w ≠ [] → findKeyword (r.view s line).verbatim r.lex line = .ok (lk, w) →
      r.lex = ⟨r.lex.mode, .start⟩ := by
    intro lk w hw' hfind
    have hfits : r.lex.Fits (r.view s line).verbatim := by
      rw [he.verbatim]
      exact he.fits
    rw [← (AtKeyword.of_findKeyword ho hfits hw' hfind).2]
  have hnone : ∀ {lk w}, w ≠ [] → findKeyword false ⟨r.lex.mode, .start⟩ st.out ≠ .ok (lk, w) := by
    intro lk w hw' hfind
    rw [holdsKeyword_of_findKeyword hw' hfind] at hw
    cases hw
  rcases kind_of_classify ha.classified with hk | ⟨d, dodgy, hk, -⟩
  · rw [out_of_plain hq hb ha hk hout] at hnone ⊢
    obtain ⟨lk, w, hfind, -⟩ := classify_eq_ok_iff.mp ha.classified
    by_cases hw' : w = []
    · exact rescans_of_nil hv hne ha (hw' ▸ hfind)
    · have hlex := hstart hw' hfind
      rw [hv, hlex] at hfind
      exact absurd hfind (hnone hw')
  · obtain ⟨p, w, lk, -, hfind, ⟨a, w, rfl, -⟩, -⟩ := keyword_of_classify ha.classified hk
    have hlex := hstart (by simp) hfind
    obtain ⟨lk, w, hw', hfind⟩ := keyword_of_text ha hk
    rcases out_of_directive hq hb ha hk with ⟨-, hnil⟩ | ⟨-, htext, -⟩
    · exact absurd hnil hout
    · rw [← htext, hv, hlex] at hfind
      exact absurd hfind (hnone hw')

theorem rescans_of_trace (hq : s.Quiet) (hp : s.passthroughText = false) (hb : s.blankPlaceholders = false)
    (ht : t.NoneIgnored) : ∀ {ls : List Chars} {r : Run}, Physical ls → r.Even s →
    (r.trace s t ls).failure = none →
    ∀ k ∈ kept r.lex.mode (r.trace s t ls).steps, k.holdsKeyword = false → k.Rescans
  | [], r, _, _, hf => by
    have hend : r.trace s t [] = _ := finish_of_complete hq.silent (complete_of_finish hf)
    rw [hend]
    simp [kept]
  | line :: ls, r, hl, he, hf => by
    obtain ⟨st, c, turn, hadv, ha⟩ := advances_of_trace hq.silent hf
    rw [trace_of_advance hadv] at hf ⊢
    have hne : line ≠ [] := by
      rcases hl with ⟨hfull, -⟩ | ⟨-, hne, -⟩
      · exact hfull.ne_nil
      · exact hne
    have ih := rescans_of_trace hq hp hb ht hl.tail (he.advances ht hl.oneLine ha) hf
    simp only [kept]
    split
    · exact ih
    · rename_i hout
      intro k hk hw
      rcases List.mem_cons.mp hk with rfl | hk
      · exact rescans_of_step hq hp hb he hl.oneLine hne ha hout hw
      · exact ih k hk hw

end

/-! ## Sources -/

/-- Lines that are dropped cut no comment, unless the one that ends them is itself in a comment. Apart from that,
the text written scans as the run has read it if the lines in it that hold a directive do. -/
theorem modes_across_drops (s : Settings) (symbols : List Symbol) (script source : Chars) (out : Resolved)
    (hs : ∀ x ∈ symbols, x.ignored = false) (hp : s.passthroughText = false) (hc : s.complement = false)
    (hd : s.debug = false) (hm : s.lineMarkers = false) (hb : s.blankPlaceholders = false)
    (hl : s.symbolList = false ∧ s.symbolDepth = false) (h : resolve s symbols script source = .ok out) :
    let steps := (traceSource s symbols script source).steps
    let ks := kept .code steps
    let agree := scanModes (.ok {}) (lines out.text) = ks.map fun k => .ok k.before
    let reread := ∀ k ∈ ks.dropLast, k.holdsKeyword = true → k.Rescans
    lines out.text = ks.map (·.text) ∧ (Unbroken .code ks ↔ cuts {} steps = false) ∧
      (reread → (agree ↔ cuts {} steps = false)) ∧ (cuts {} steps = false → (agree ↔ reread)) := by
  have hq : s.Quiet := ⟨hc, hd, hm, hl.1, hl.2⟩
  obtain ⟨t, hv, hbuild, hres⟩ := resolve_eq_ok_iff.mp h
  obtain ⟨hf, rfl⟩ := resolved_eq_ok_iff.mp hres
  rw [traceSource_of_table hv hbuild]
  have ht := noneIgnored_buildTable hs hbuild
  have hj : Joined s {} .code := ⟨⟨by simp, fun _ => rfl⟩, trivial, rfl, fun _ _ => rfl⟩
  obtain ⟨hlines, hcuts⟩ := trace_joined hq hb ht (physical_lines source) hj hf
  have hplain := rescans_of_trace hq hp hb ht (physical_lines source) hj.even hf
  intro steps ks agree reread
  have hagree : agree ↔ SameModes {} ks := by
    show scanModes (.ok {}) (lines _) = _ ↔ _
    rw [hlines]
    rfl
  -- Lines without a keyword always scan as they were read.
  have hreread : reread ↔ ∀ k ∈ ks.dropLast, k.Rescans := by
    constructor
    · intro hr k hk
      by_cases hw : k.holdsKeyword = true
      · exact hr k hk hw
      · exact hplain k (List.mem_of_mem_dropLast hk) (by simpa using hw)
    · intro hr k hk _
      exact hr k hk
  refine ⟨hlines, hcuts, fun hr => ?_, fun hcut => ?_⟩
  · rw [hagree, ← hcuts]
    exact sameModes_iff_unbroken (hreread.mp hr)
  · have hu : Unbroken .code ks := hcuts.mpr hcut
    rw [hagree, hreread]
    exact ⟨rescans_of_sameModes hu, fun hr => (sameModes_iff_unbroken hr).mpr hu⟩

def hangingComment : Chars := "#ifndef B\n/* x\n*/\n#endif\n#ifdef A /* y\n*/\n#endif\n".toList

def hangingEnd : Chars := [' ', '/', '*', ' ', 'y', '\n']

theorem skipLine_hangingComment :
    skipLine false {} ('#' :: (['i', 'f', 'd', 'e', 'f'] ++ ' ' :: 'A' :: hangingEnd)) =
      .ok ⟨.blockComment, .dirty⟩ := by
  have hhash : skip false ⟨.code, .dirty⟩ ('#' :: (['i', 'f', 'd', 'e', 'f'] ++ ' ' :: 'A' :: hangingEnd)) =
      .ok (⟨.code, .dirty⟩, '#' :: (['i', 'f', 'd', 'e', 'f'] ++ ' ' :: 'A' :: hangingEnd)) := by cbv
  have hname : skip false ⟨.code, .dirty⟩ (' ' :: 'A' :: hangingEnd) =
    .ok (⟨.code, .dirty⟩, 'A' :: hangingEnd) := by
    cbv
  have hopen : skip false ⟨.code, .dirty⟩ hangingEnd = .ok (⟨.blockComment, .dirty⟩, []) := by cbv
  calc drain false ⟨.code, .dirty⟩ ('#' :: (['i', 'f', 'd', 'e', 'f'] ++ ' ' :: 'A' :: hangingEnd))
    _ = drain false ⟨.code, .dirty⟩ (['i', 'f', 'd', 'e', 'f'] ++ ' ' :: 'A' :: hangingEnd) := drain_next hhash
    _ = drain false ⟨.code, .dirty⟩ (' ' :: 'A' :: hangingEnd) :=
      drain_symbolChars rfl (List.all_eq_true.mp rfl) (by simp)
    _ = drain false ⟨.code, .dirty⟩ hangingEnd := drain_next hname
    _ = .ok ⟨.blockComment, .dirty⟩ := drain_done hopen

/-- A comment in dropped lines and one that hangs off a directive that is kept. -/
theorem modes_across_drops_ifdefs :
    let written := "#ifdef A /* y\n*/\n#endif\n".toList
    let ks := kept .code (traceSource {} [⟨"B", some "1", false⟩] [] hangingComment).steps
    Unbroken .code ks ∧ scanModes (.ok {}) (lines written) = ks.map fun k => .ok k.before := by
  intro written ks
  have hks : ks = [⟨.code, '#' :: (['i', 'f', 'd', 'e', 'f'] ++ ' ' :: 'A' :: hangingEnd), .blockComment⟩,
      ⟨.blockComment, ['*', '/', '\n'], .code⟩, ⟨.code, ['#', 'e', 'n', 'd', 'i', 'f', '\n'], .code⟩] := by
    show kept .code (traceSource {} [⟨"B", some "1", false⟩] [] hangingComment).steps = _
    cbv
  have hcuts : cuts {} (traceSource {} [⟨"B", some "1", false⟩] [] hangingComment).steps = false := by cbv
  have hreread : ∀ k ∈ ks.dropLast, k.holdsKeyword = true → k.Rescans := by
    rw [hks]
    rintro k hk -
    simp only [List.dropLast, List.mem_cons, List.not_mem_nil, or_false] at hk
    have hend : skip false ⟨.blockComment, .dirty⟩ ['*', '/', '\n'] = .ok ({}, []) := by cbv
    rcases hk with rfl | rfl
    · exact congrArg (Except.map (·.mode)) skipLine_hangingComment
    · have hscan : skipLine false ⟨.blockComment, .start⟩ ['*', '/', '\n'] = .ok {} := drain_done hend
      exact congrArg (Except.map (·.mode)) hscan
  obtain ⟨-, hunbroken, hagree, -⟩ :=
    modes_across_drops {} [⟨"B", some "1", false⟩] [] hangingComment ⟨written, true⟩ (by simp) rfl rfl rfl rfl rfl
      ⟨rfl, rfl⟩ (by cbv)
  exact ⟨hunbroken.mpr hcuts, (hagree hreread).mpr hcuts⟩

end CondResolve
