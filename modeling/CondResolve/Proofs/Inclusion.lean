import CondResolve.Proofs.Turn

/-!
# Conditional inclusion

Conditional inclusion reads a text line by line and selects the plain lines whose branch is the first
true one of its group, in every group around them. The machine does not know all truths: it keeps some
lines, drops others and edits a few. `walk_select`: whatever the open conditions come to, conditional
inclusion selects the same plain lines from what is kept as from what was given.
-/

namespace CondResolve

/-! ## Tokens and well nested texts -/

inductive Token where
  | text (line : Chars)
  | opening (holds : Bool)
  | elif (holds : Bool)
  | otherwise
  | closing
  deriving DecidableEq, Repr

mutual

/-- Plain lines and groups, one after another. -/
inductive Nested : List Token → Prop
  | nil : Nested []
  | text {line : Chars} {ts : List Token} : Nested ts → Nested (.text line :: ts)
  | group {holds : Bool} {body tail ts : List Token} :
    Nested body → Tail false tail → Nested ts → Nested (.opening holds :: (body ++ tail ++ ts))

/-- What follows the body of a branch; after the `#else` only the `#endif` does. -/
inductive Tail : Bool → List Token → Prop
  | closing {last : Bool} : Tail last [.closing]
  | elif {holds : Bool} {body tail : List Token} :
    Nested body → Tail false tail → Tail false (.elif holds :: (body ++ tail))
  | otherwise {body tail : List Token} :
    Nested body → Tail true tail → Tail false (.otherwise :: (body ++ tail))

end

/-! ## Selecting -/

/-- An open group: whether one of its branches was taken, whether the lines of the current one are
selected, and whether that is the `#else`. -/
structure Branch where
  taken : Bool
  selected : Bool
  last : Bool
  deriving DecidableEq, Repr

def selecting : List Branch → Bool
  | [] => true
  | b :: _ => b.selected

/-- The open groups after a line and the lines selected; `none` for a line out of place. -/
def Token.read (gs : List Branch) : Token → Option (List Branch × List Chars)
  | .text line => some (gs, if selecting gs then [line] else [])
  | .opening holds => some (⟨holds, selecting gs && holds, false⟩ :: gs, [])
  | .elif holds =>
    match gs with
    | ⟨taken, _, false⟩ :: gs =>
      some (⟨taken || holds, selecting gs && !taken && holds, false⟩ :: gs, [])
    | _ => none
  | .otherwise =>
    match gs with
    | ⟨taken, _, false⟩ :: gs => some (⟨true, selecting gs && !taken, true⟩ :: gs, [])
    | _ => none
  | .closing => gs.tail?.map (·, [])

/-- The plain lines that conditional inclusion selects; `none` for a text that is not well nested. -/
def select (gs : List Branch) : List Token → Option (List Chars)
  | [] => if gs.isEmpty then some [] else none
  | t :: ts => do
    let (gs', chosen) ← t.read gs
    return chosen ++ (← select gs' ts)

theorem select_cons {gs : List Branch} {t : Token} {ts : List Token} {chosen : List Chars} :
    select gs (t :: ts) = some chosen ↔ ∃ gs' now later, t.read gs = some (gs', now) ∧
      select gs' ts = some later ∧ chosen = now ++ later := by
  simp only [select, Option.bind_eq_bind, Option.bind_eq_some_iff, Prod.exists, Option.pure_def,
    Option.some.injEq]
  constructor
  · rintro ⟨gs', now, ht, later, hl, rfl⟩
    exact ⟨gs', now, later, ht, hl, rfl⟩
  · rintro ⟨gs', now, later, ht, hl, rfl⟩
    exact ⟨gs', now, ht, later, hl, rfl⟩

def Ends : List Bool → List Token → Prop
  | [], ts => Nested ts
  | last :: gs, ts => ∃ body tail rest, ts = body ++ tail ++ rest ∧ Nested body ∧ Tail last tail ∧ Ends gs rest

theorem Ends.text {gs : List Bool} {ts : List Token} (line : Chars) (h : Ends gs ts) :
    Ends gs (.text line :: ts) := by
  cases gs with
  | nil => exact Nested.text h
  | cons last gs =>
    obtain ⟨body, tail, rest, rfl, hb, ht, hr⟩ := h
    exact ⟨.text line :: body, tail, rest, rfl, .text hb, ht, hr⟩

theorem Ends.opening {gs : List Bool} {ts : List Token} (holds : Bool) (h : Ends (false :: gs) ts) :
    Ends gs (.opening holds :: ts) := by
  obtain ⟨body, tail, rest, rfl, hb, ht, h⟩ := h
  cases gs with
  | nil => exact Nested.group hb ht h
  | cons last gs =>
    obtain ⟨body', tail', rest, rfl, hb', ht', hr⟩ := h
    exact ⟨.opening holds :: (body ++ tail ++ body'), tail', rest, by simp, .group hb ht hb', ht', hr⟩

theorem Ends.elif {gs : List Bool} {ts : List Token} (holds : Bool) (h : Ends (false :: gs) ts) :
    Ends (false :: gs) (.elif holds :: ts) := by
  obtain ⟨body, tail, rest, rfl, hb, ht, hr⟩ := h
  exact ⟨[], .elif holds :: (body ++ tail), rest, by simp, .nil, .elif hb ht, hr⟩

theorem Ends.otherwise {gs : List Bool} {ts : List Token} (h : Ends (true :: gs) ts) :
    Ends (false :: gs) (.otherwise :: ts) := by
  obtain ⟨body, tail, rest, rfl, hb, ht, hr⟩ := h
  exact ⟨[], .otherwise :: (body ++ tail), rest, by simp, .nil, .otherwise hb ht, hr⟩

theorem Ends.closing {gs : List Bool} {ts : List Token} (last : Bool) (h : Ends gs ts) :
    Ends (last :: gs) (.closing :: ts) :=
  ⟨[], [.closing], ts, rfl, .nil, .closing, h⟩

/-- A line that is read leaves a text that ends the groups before it, if what follows ends those after it. -/
theorem Ends.of_read {gs gs' : List Branch} {t : Token} {now : List Chars} {ts : List Token}
    (ht : t.read gs = some (gs', now)) (h : Ends (gs'.map (·.last)) ts) : Ends (gs.map (·.last)) (t :: ts) := by
  cases t with
  | text line =>
    simp only [Token.read, Option.some.injEq, Prod.mk.injEq] at ht
    rw [← ht.1] at h
    exact h.text line
  | opening holds =>
    simp only [Token.read, Option.some.injEq, Prod.mk.injEq] at ht
    rw [← ht.1] at h
    exact h.opening holds
  | elif holds =>
    simp only [Token.read] at ht
    split at ht
    · simp only [Option.some.injEq, Prod.mk.injEq] at ht
      rw [← ht.1] at h
      exact h.elif holds
    · cases ht
  | otherwise =>
    simp only [Token.read] at ht
    split at ht
    · simp only [Option.some.injEq, Prod.mk.injEq] at ht
      rw [← ht.1] at h
      exact h.otherwise
    · cases ht
  | closing =>
    cases gs with
    | nil => cases ht
    | cons g gs =>
      simp only [Token.read, List.tail?_cons, Option.map_some, Option.some.injEq, Prod.mk.injEq] at ht
      rw [← ht.1] at h
      exact h.closing g.last

theorem ends_of_select : ∀ {ts : List Token} {gs : List Branch} {chosen : List Chars},
    select gs ts = some chosen → Ends (gs.map (·.last)) ts
  | [], gs, chosen, h => by
    simp only [select, List.isEmpty_iff, Option.ite_none_right_eq_some] at h
    rw [h.1]
    exact Nested.nil
  | t :: ts, gs, chosen, h => by
    obtain ⟨gs', now, later, ht, hs, -⟩ := select_cons.mp h
    exact .of_read ht (ends_of_select hs)

theorem nested_of_select {ts : List Token} {chosen : List Chars} (h : select [] ts = some chosen) :
    Nested ts :=
  ends_of_select h

/-! ## What the machine keeps -/

def Truth.under (holds : Bool) : Truth → Bool
  | .yes => true
  | .no => false
  | .unknown => holds

structure Occurrence where
  current : Current
  /-- The directive and whether it is dodgy; a plain line has none. -/
  directive? : Option (Directive × Bool)
  holds : Bool

namespace Occurrence

def kind (o : Occurrence) : LineKind :=
  match o.directive? with
  | none => .plain
  | some (d, dodgy) => .directive d dodgy

def token (o : Occurrence) : Token :=
  match o.directive? with
  | none => .text o.current.line
  | some (.guard holds, _) => .opening holds
  | some (.opening t, _) => .opening (t.under o.holds)
  | some (.elif t, _) => .elif (t.under o.holds)
  | some (.otherwise, _) => .otherwise
  | some (.closing, _) => .closing

def edited (o : Occurrence) : Option Edit → Token
  | none => o.token
  | some .toIf =>
    match o.token with
    | .elif holds => .opening holds
    | t => t
  | some .toElse => .otherwise
  | some .toEndif => .closing

def kept (o : Occurrence) (turn : Turn) : List Token :=
  if turn.keep then [o.edited turn.edit] else []

theorem kind_ne_eof (o : Occurrence) : o.kind ≠ .eof := by
  unfold kind
  split <;> simp

end Occurrence

/-- Steps through all lines; gives the machine at the end and the lines kept on the way. -/
def Machine.walk (s : Settings) (m : Machine) : List Occurrence → Except Failure (Machine × List Token)
  | [] => .ok (m, [])
  | o :: os => do
    let r ← m.step s o.current o.kind
    let (m', ts) ← r.machine.walk s os
    let now := match o.kind.turn s.permitObfuscated m.stack.phase? with
      | .ok turn => o.kept turn
      | .error _ => []
    return (m', now ++ ts)

/-- What a walk keeps of a line is what the step does with it: the line of `r` is the one that the turn edits, and
the writer is given that line, to be kept if the walk keeps its token. -/
structure Occurrence.Dealt (s : Settings) (m : Machine) (o : Occurrence) (turn : Turn) (r : Stepped) : Prop where
  turn_eq : o.kind.turn s.permitObfuscated m.stack.phase? = .ok turn
  line : r.line = turn.text o.current
  stack : turn.shift.apply o.current.number m.stack = .ok r.machine.stack
  written : ∃ out, { m.writer with altered := m.writer.altered || turn.edit.isSome }.flush s o.current.newline
      o.current.number (!(o.kept turn).isEmpty) r.line = (r.machine.writer, out) ∧
    r.out = out ++ Machine.report s o.current.number o.kind r.machine

theorem Occurrence.isEmpty_kept (o : Occurrence) (turn : Turn) : (o.kept turn).isEmpty = !turn.keep := by
  unfold kept
  cases turn.keep <;> rfl

theorem Occurrence.dealt_of_step {s : Settings} {m : Machine} {o : Occurrence} {r : Stepped}
    (h : m.step s o.current o.kind = .ok r) : ∃ turn, o.Dealt s m turn r := by
  obtain ⟨turn, stack, ht, ha, rfl⟩ := (Machine.step_eq_ok_iff o.kind_ne_eof).mp h
  refine ⟨turn, ht, rfl, ha, _, ?_, rfl⟩
  rw [o.isEmpty_kept, Bool.not_not]
  rfl

/-- A walk takes the steps one by one and keeps the token of each line that a step gives to the writer to keep. -/
theorem Machine.walk_cons_iff {s : Settings} {m m' : Machine} {o : Occurrence} {os : List Occurrence}
    {ts : List Token} :
    m.walk s (o :: os) = .ok (m', ts) ↔ ∃ r turn ts', m.step s o.current o.kind = .ok r ∧ o.Dealt s m turn r ∧
      r.machine.walk s os = .ok (m', ts') ∧ ts = o.kept turn ++ ts' := by
  rw [walk]
  cases hs : m.step s o.current o.kind with
  | error f => simp [bind, Except.bind]
  | ok r =>
    obtain ⟨turn, hd⟩ := o.dealt_of_step hs
    have hu : ∀ turn', o.Dealt s m turn' r → turn' = turn := fun turn' hd' =>
      Except.ok.inj (hd'.turn_eq.symm.trans hd.turn_eq)
    simp only [bind, Except.bind, hd.turn_eq]
    cases hw : r.machine.walk s os with
    | error f => simp [hw]
    | ok p =>
      simp only [pure, Except.pure, Except.ok.injEq, Prod.mk.injEq]
      constructor
      · rintro ⟨rfl, rfl⟩
        exact ⟨r, turn, p.2, rfl, hd, hw, rfl⟩
      · rintro ⟨_, turn', ts', rfl, hd', hw', rfl⟩
        cases hu turn' hd'
        cases hw.symm.trans hw'
        exact ⟨rfl, rfl⟩

/-! ## The two readings of a group -/

/-- How a group in a given phase is read in the lines given and, if it was kept at all, in the lines
kept; `around` tells whether the lines around it are selected. -/
inductive Read (around : Bool) : Phase → Branch → Option Branch → Prop
  | falsePrefix : Read around .falsePrefix ⟨false, false, false⟩ none
  | truePrefix : Read around .truePrefix ⟨true, around, false⟩ none
  | passMiddle (taken selected : Bool) :
    Read around .passMiddle ⟨taken, selected, false⟩ (some ⟨taken, selected, false⟩)
  | falseMiddle (taken selected : Bool) :
    Read around .falseMiddle ⟨taken, false, false⟩ (some ⟨taken, selected, false⟩)
  | trueMiddle (selected : Bool) :
    Read around .trueMiddle ⟨true, selected, false⟩ (some ⟨true, selected, true⟩)
  | passElse (selected : Bool) : Read around .passElse ⟨true, selected, true⟩ (some ⟨true, selected, true⟩)
  | falseElse (taken : Bool) : Read around .falseElse ⟨taken, false, true⟩ none
  | trueElse (taken : Bool) : Read around .trueElse ⟨taken, around, true⟩ none
  | falseTrailer (taken : Bool) (h : around = true → taken = true) :
    Read around .falseTrailer ⟨taken, false, false⟩ none

/-- The open groups of the machine, of the lines given and of the lines kept. In dropped lines no group
has a branch that could be kept. -/
inductive Aligned : Stack → List Branch → List Branch → Prop
  | nil : Aligned [] [] []
  | cons {g : Group} {st : Stack} {b : Branch} {bs os : List Branch} {o : Option Branch} :
    Aligned st bs os → (dropping st.phase? = true → g.phase = .falseTrailer ∨ g.phase = .falseElse) →
    Read (selecting bs) g.phase b o → Aligned (g :: st) (b :: bs) (o.toList ++ os)

theorem Read.middle {around : Bool} {p : Phase} {b : Branch} {o : Option Branch} (h : Read around p b o)
    (hp : p = .passMiddle ∨ p = .falseMiddle) :
    ∃ taken sel sel', b = ⟨taken, sel, false⟩ ∧ o = some ⟨taken, sel', false⟩ := by
  cases h with
  | passMiddle taken selected => exact ⟨taken, selected, selected, rfl, rfl⟩
  | falseMiddle taken selected => exact ⟨taken, false, selected, rfl, rfl⟩
  | _ => rcases hp with hp | hp <;> cases hp

namespace Aligned

variable {st : Stack} {bs os : List Branch}

theorem not_selecting (h : Aligned st bs os) (hd : dropping st.phase? = true) : selecting bs = false := by
  cases h with
  | nil => cases hd
  | @cons g st b bs os o h hp hr =>
    have hg : g.phase.drops = true := hd
    generalize g.phase = p at hg hr
    cases hr with
    | falsePrefix | falseMiddle | falseElse | falseTrailer => rfl
    | _ => cases hg

theorem selecting_eq (h : Aligned st bs os) (hd : dropping st.phase? = false) : selecting bs = selecting os := by
  induction h with
  | nil => rfl
  | @cons g st b bs os o h hp hr ih =>
    have around : g.phase.drops = false → dropping st.phase? = false := by
      intro hg
      cases hs : dropping st.phase? with
      | false => rfl
      | true => rcases hp hs with h' | h' <;> rw [h'] at hg <;> cases hg
    have hg : g.phase.drops = false := hd
    have hs := ih (around hg)
    generalize g.phase = p at hg hr
    cases hr with
    | truePrefix | trueElse => exact hs
    | passMiddle | trueMiddle | passElse => rfl
    | _ => cases hg

theorem hidden (h : Aligned st bs os) {g : Group} {b : Branch}
    (hp : dropping st.phase? = true → g.phase = .falseTrailer ∨ g.phase = .falseElse)
    (hr : Read (selecting bs) g.phase b none) : Aligned (g :: st) (b :: bs) os :=
  cons h hp hr

theorem shown (h : Aligned st bs os) (hd : dropping st.phase? = false) {g : Group} {b o : Branch}
    (hr : Read (selecting bs) g.phase b (some o)) : Aligned (g :: st) (b :: bs) (o :: os) :=
  cons h (by simp [hd]) hr

/-- A line has been dealt with: it reads to the same selected lines in the text given and in the text
kept, and the groups stay aligned. -/
def Follows (o : Occurrence) (turn : Turn) (st : Stack) (bs os : List Branch) : Prop :=
  ∃ bs' os' now, o.token.read bs = some (bs', now) ∧
    (∀ rest later, select os' rest = some later → select os (o.kept turn ++ rest) = some (now ++ later)) ∧
    Aligned st bs' os'

theorem follows_drop {o : Occurrence} {turn : Turn} {st : Stack} {bs bs' os : List Branch}
    (hk : turn.keep = false) (hr : o.token.read bs = some (bs', [])) (ha : Aligned st bs' os) :
    Follows o turn st bs os := by
  refine ⟨bs', os, [], hr, fun rest later h => ?_, ha⟩
  simpa [Occurrence.kept, hk] using h

theorem follows_keep {o : Occurrence} {turn : Turn} {st : Stack} {bs bs' os os' : List Branch}
    {now : List Chars} (hk : turn.keep = true) (hr : o.token.read bs = some (bs', now))
    (he : (o.edited turn.edit).read os = some (os', now)) (ha : Aligned st bs' os') :
    Follows o turn st bs os := by
  refine ⟨bs', os', now, hr, fun rest later h => ?_, ha⟩
  simp only [Occurrence.kept, hk, ite_true, List.singleton_append]
  exact select_cons.mpr ⟨os', now, later, he, h, rfl⟩

section
variable {permit dodgy ignored : Bool} {turn : Turn} {st' : Stack} {n : Nat} {o : Occurrence}

theorem plain_follows (h : Aligned st bs os) (ho : o.token = .text o.current.line) :
    Follows o ⟨!dropping st.phase?, .stay, none⟩ st bs os := by
  cases hd : dropping st.phase? with
  | true =>
    have hr : o.token.read bs = some (bs, []) := by simp [ho, Token.read, h.not_selecting hd]
    exact follows_drop rfl hr h
  | false =>
    have hr : o.token.read bs = some (bs, if selecting bs then [o.current.line] else []) := by
      rw [ho]; rfl
    refine follows_keep rfl hr ?_ h
    simp [Occurrence.edited, ho, Token.read, h.selecting_eq hd]

theorem open_follows (h : Aligned st bs os) {t : Truth} {b : Bool} (ho : o.token = .opening b)
    (hb : ∀ c, t = .ofBool c → b = c) (ht : openTurn permit st.phase? t ignored dodgy = .ok turn)
    (hs : turn.shift.apply n st = .ok st') : Follows o turn st' bs os := by
  have hr : o.token.read bs = some (⟨b, selecting bs && b, false⟩ :: bs, []) := by rw [ho]; rfl
  rcases openTurn_cases ht with ⟨hd, rfl⟩ | ⟨hd, -, rfl⟩ | ⟨hd, -, rfl, rfl⟩ | ⟨hd, -, rfl, rfl⟩ <;> cases hs
  · refine follows_drop rfl hr (h.hidden (fun _ => .inl rfl) ?_)
    rw [h.not_selecting hd]
    exact .falseTrailer b (by simp)
  · refine follows_keep rfl hr ?_ (h.shown hd (.passMiddle b (selecting bs && b)))
    simp [Occurrence.edited, ho, Token.read, h.selecting_eq hd]
  · have : b = true := hb true rfl
    subst this
    refine follows_drop rfl hr (h.hidden (by simp [hd]) ?_)
    rw [Bool.and_true]
    exact .truePrefix
  · have : b = false := hb false rfl
    subst this
    refine follows_drop rfl hr (h.hidden (by simp [hd]) ?_)
    rw [Bool.and_false]
    exact .falsePrefix

/-- Only a group that is dropped from its start on lies in dropped lines. -/
theorem around_of_cons {g : Group} (h : Aligned (g :: st) bs os) (h₁ : g.phase ≠ .falseTrailer)
    (h₂ : g.phase ≠ .falseElse) : dropping st.phase? = false := by
  cases h with
  | cons h hp hr =>
    cases hd : dropping st.phase? with
    | false => rfl
    | true => rcases hp hd with h' | h' <;> contradiction

theorem elif_follows {g : Group} (h : Aligned (g :: st) bs os) {t : Truth} {b : Bool}
    (ho : o.token = .elif b) (hb : ∀ c, t = .ofBool c → b = c)
    (ht : elifTurn permit (some g.phase) t dodgy = .ok turn)
    (hs : turn.shift.apply n (g :: st) = .ok st') : Follows o turn st' bs os := by
  have around := h.around_of_cons
  cases h with
  | @cons g st f bs os o' h hp hr =>
    have read : ∀ taken selected, o.token.read (⟨taken, selected, false⟩ :: bs) =
        some (⟨taken || b, selecting bs && !taken && b, false⟩ :: bs, []) := by
      intro taken selected
      rw [ho]; rfl
    have htrue : t = .yes → b = true := hb true
    have hfalse : t = .no → b = false := hb false
    generalize hg : g.phase = p at *
    -- One case for each entry of the transition table, in its order.
    rcases elifTurn_cases ht with ⟨rfl, rfl, rfl⟩ | ⟨rfl, rfl, -, rfl⟩ | ⟨rfl, rfl, -, rfl⟩ | ⟨rfl, -, rfl⟩ |
      ⟨rfl, -, rfl⟩ | ⟨rfl, rfl, -, rfl⟩ | ⟨hp', rfl, -, rfl⟩ | ⟨hp', rfl, -, rfl⟩ | ⟨rfl, -, rfl⟩ | ⟨rfl, rfl⟩ <;>
      cases hs
    · cases hr
      have hd := around (by simp) (by simp)
      refine follows_keep rfl (read _ _) ?_ (h.shown hd (.passMiddle _ _))
      simp [Occurrence.edited, ho, Token.read, h.selecting_eq hd]
    · cases hr
      have hd := around (by simp) (by simp)
      rw [htrue rfl] at read
      refine follows_drop rfl (read _ _) (h.hidden (by simp [hd]) ?_)
      simpa using Read.truePrefix
    · cases hr
      have hd := around (by simp) (by simp)
      rw [hfalse rfl] at read
      refine follows_drop rfl (read _ _) (h.hidden (by simp [hd]) ?_)
      simpa using Read.falsePrefix
    · cases hr
      refine follows_drop rfl (read _ _) (h.hidden (fun _ => .inl rfl) ?_)
      simpa using Read.falseTrailer true (by simp)
    · obtain ⟨taken, sel, sel', rfl, rfl⟩ := hr.middle (.inl rfl)
      have hd := around (by simp) (by simp)
      refine follows_keep rfl (read _ _) ?_ (h.shown hd (.passMiddle _ _))
      simp [Occurrence.edited, ho, Token.read, h.selecting_eq hd]
    · obtain ⟨taken, sel, sel', rfl, rfl⟩ := hr.middle (.inr rfl)
      have hd := around (by simp) (by simp)
      refine follows_keep rfl (read _ _) ?_ (h.shown hd (.passMiddle _ _))
      simp [Occurrence.edited, ho, Token.read, h.selecting_eq hd]
    · obtain ⟨taken, sel, sel', rfl, rfl⟩ := hr.middle hp'
      have hd := around (by rcases hp' with rfl | rfl <;> simp) (by rcases hp' with rfl | rfl <;> simp)
      rw [htrue rfl] at read
      have hm : Read (selecting bs) .trueMiddle ⟨taken || true, selecting bs && !taken && true, false⟩
          (some ⟨true, selecting bs && !taken, true⟩) := by
        simpa using Read.trueMiddle (selecting bs && !taken)
      refine follows_keep rfl (read _ _) ?_ (h.shown hd hm)
      simp [Occurrence.edited, Token.read, h.selecting_eq hd]
    · obtain ⟨taken, sel, sel', rfl, rfl⟩ := hr.middle hp'
      have hd := around (by rcases hp' with rfl | rfl <;> simp) (by rcases hp' with rfl | rfl <;> simp)
      rw [hfalse rfl] at read
      refine follows_drop rfl (read _ _) (h.shown hd ?_)
      simpa using Read.falseMiddle taken sel'
    · cases hr
      refine follows_keep rfl (read _ _) (by simp [Occurrence.edited, Token.read])
        (h.hidden (fun _ => .inl rfl) ?_)
      simpa using Read.falseTrailer true (by simp)
    · cases hr
      rename_i taken htaken
      refine follows_drop rfl (read _ _) (h.hidden (fun _ => .inl rfl) ?_)
      -- The branch is not selected: an earlier one was taken, or the lines around it are not selected.
      have hsel : (selecting bs && !taken && b) = false := by
        cases hs : selecting bs with
        | false => rfl
        | true => simp [htaken hs]
      rw [hsel]
      exact .falseTrailer _ fun hs => by simp [htaken hs]

theorem else_follows {g : Group} (h : Aligned (g :: st) bs os) (ho : o.token = .otherwise)
    (ht : elseTurn (some g.phase) dodgy = .ok turn) (hs : turn.shift.apply n (g :: st) = .ok st') :
    Follows o turn st' bs os := by
  have around := h.around_of_cons
  cases h with
  | @cons g st f bs os o' h hp hr =>
    have read : ∀ taken selected, o.token.read (⟨taken, selected, false⟩ :: bs) =
        some (⟨true, selecting bs && !taken, true⟩ :: bs, []) := by
      intro taken selected
      rw [ho]; rfl
    generalize hg : g.phase = p at *
    rcases elseTurn_cases ht with ⟨hp', rfl⟩ | ⟨hp', rfl⟩ | ⟨rfl, -, rfl⟩ | ⟨rfl, -, rfl⟩ <;> cases hs
    · have hp' : p = .passMiddle ∨ p = .falseMiddle := hp'.imp_right And.left
      obtain ⟨taken, sel, sel', rfl, rfl⟩ := hr.middle hp'
      have hd := around (by rcases hp' with rfl | rfl <;> simp) (by rcases hp' with rfl | rfl <;> simp)
      refine follows_keep rfl (read _ _) ?_ (h.shown hd (.passElse _))
      simp [Occurrence.edited, ho, Token.read, h.selecting_eq hd]
    · -- The branch is not selected: the group is dropped as a whole, or its true branch came before.
      have hf : ∃ taken sel, f = ⟨taken, sel, false⟩ ∧ o' = none ∧ (selecting bs && !taken) = false := by
        rcases hp' with rfl | ⟨rfl, -⟩
        · cases hr with
          | falseTrailer taken h' => exact ⟨taken, false, rfl, rfl, by cases hs : selecting bs <;> simp_all⟩
        · cases hr
          exact ⟨true, selecting bs, rfl, rfl, by simp⟩
      obtain ⟨taken, sel, rfl, rfl, hn⟩ := hf
      refine follows_drop rfl (read _ _) (h.hidden (fun _ => .inr rfl) ?_)
      rw [hn]
      exact .falseElse true
    · cases hr
      have hd := around (by simp) (by simp)
      refine follows_drop rfl (read _ _) (h.hidden (by simp [hd]) ?_)
      simpa using Read.trueElse true
    · cases hr
      refine follows_keep rfl (read _ _) (by simp [Occurrence.edited, Token.read])
        (h.hidden (fun _ => .inr rfl) ?_)
      simpa using Read.falseElse true

theorem close_follows {g : Group} (h : Aligned (g :: st) bs os) (ho : o.token = .closing)
    (ht : closeTurn (some g.phase) dodgy = .ok turn) (hs : turn.shift.apply n (g :: st) = .ok st') :
    Follows o turn st' bs os := by
  cases h with
  | @cons g st f bs os o' h hp hr =>
    have read : o.token.read (f :: bs) = some (bs, []) := by rw [ho]; rfl
    generalize hg : g.phase = p at *
    rcases closeTurn_cases ht with ⟨hp', rfl⟩ | ⟨hp', -, rfl⟩ <;> cases hs
    · have ho' : ∃ f', o' = some f' := by
        rcases hp' with rfl | rfl | rfl | ⟨rfl, -⟩ <;> cases hr <;> exact ⟨_, rfl⟩
      obtain ⟨f', rfl⟩ := ho'
      exact follows_keep rfl read (by simp [Occurrence.edited, ho, Token.read]) h
    · have ho' : o' = none := by
        rcases hp' with rfl | rfl | rfl | rfl | rfl <;> cases hr <;> rfl
      subst ho'
      exact follows_drop rfl read h

theorem line_follows (h : Aligned st bs os) (ht : o.kind.turn permit st.phase? = .ok turn)
    (hs : turn.shift.apply n st = .ok st') : Follows o turn st' bs os := by
  obtain ⟨c, directive?, holds⟩ := o
  rcases directive? with _ | ⟨d, dodgy⟩
  · cases ht
    cases hs
    exact h.plain_follows rfl
  · have hd : d.turn permit st.phase? dodgy = .ok turn := ht
    cases d with
    | guard b => exact h.open_follows rfl (by cases b <;> simp [Truth.ofBool]) hd hs
    | opening t => exact h.open_follows rfl (by rintro ⟨⟩ rfl <;> rfl) hd hs
    | elif t =>
      cases st with
      | nil => cases hd
      | cons g st => exact h.elif_follows rfl (by rintro ⟨⟩ rfl <;> rfl) hd hs
    | otherwise =>
      cases st with
      | nil => cases hd
      | cons g st => exact h.else_follows rfl hd hs
    | closing =>
      cases st with
      | nil => cases hd
      | cons g st => exact h.close_follows rfl hd hs

end

end Aligned

/-! ## Whole texts -/

theorem select_of_walk {s : Settings} : ∀ {os : List Occurrence} {m m' : Machine} {kept : List Token}
    {gs gs' : List Branch}, m.walk s os = .ok (m', kept) → m'.stack = [] → Aligned m.stack gs gs' →
    ∃ chosen, select gs (os.map (·.token)) = some chosen ∧ select gs' kept = some chosen
  | [], m, m', kept, gs, gs', hw, he, ha => by
    cases hw
    rw [he] at ha
    cases ha
    exact ⟨[], rfl, rfl⟩
  | o :: os, m, m', kept, gs, gs', hw, he, ha => by
    obtain ⟨r, turn, kept', -, hd, hw', rfl⟩ := Machine.walk_cons_iff.mp hw
    obtain ⟨bs, bs', now, hr, hk, ha'⟩ := ha.line_follows hd.turn_eq hd.stack
    obtain ⟨later, hl, hl'⟩ := select_of_walk hw' he ha'
    exact ⟨now ++ later, select_cons.mpr ⟨bs, now, later, hr, hl, rfl⟩, hk kept' later hl'⟩

/-- Whatever the open conditions come to, conditional inclusion selects the same plain lines, in the same order,
from the lines that a walk keeps as from those it was given. The lines kept are well nested. -/
theorem walk_select (s : Settings) (m m' : Machine) (os : List Occurrence) (kept : List Token)
    (hm : m.stack = []) (hw : m.walk s os = .ok (m', kept)) (he : m'.stack = []) :
    Nested kept ∧
      ∃ chosen, select [] (os.map (·.token)) = some chosen ∧ select [] kept = some chosen := by
  have ha : Aligned m.stack [] [] := hm ▸ Aligned.nil
  obtain ⟨chosen, hg, hk⟩ := select_of_walk hw he ha
  exact ⟨nested_of_select hk, chosen, hg, hk⟩

def trueElifLines : List Occurrence :=
  [⟨⟨"#if A\n".toList, 1, 1, .code, .lf⟩, some (.opening .unknown, false), false⟩,
   ⟨⟨"a\n".toList, 2, 0, .code, .lf⟩, none, false⟩,
   ⟨⟨"#elif 1\n".toList, 3, 1, .code, .lf⟩, some (.elif .yes, false), false⟩,
   ⟨⟨"b\n".toList, 4, 0, .code, .lf⟩, none, false⟩,
   ⟨⟨"#else\n".toList, 5, 1, .code, .lf⟩, some (.otherwise, false), false⟩,
   ⟨⟨"c\n".toList, 6, 0, .code, .lf⟩, none, false⟩,
   ⟨⟨"#endif\n".toList, 7, 1, .code, .lf⟩, some (.closing, false), false⟩]

theorem walk_select_trueElifLines :
    let kept : List Token :=
      [.opening false, .text "a\n".toList, .otherwise, .text "b\n".toList, .closing]
    Nested kept ∧ ∃ chosen, select [] (trueElifLines.map (·.token)) = some chosen ∧
      select [] kept = some chosen :=
  walk_select {} {} _ trueElifLines _ rfl rfl rfl

end CondResolve
