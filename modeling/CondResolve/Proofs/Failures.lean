import CondResolve.Proofs.Effects
import CondResolve.Proofs.Limits

/-!
# What a failure can be

`resolve_failures`: a run fails because of the settings, the groups, a literal or a directive, and of nothing else,
as long as the host allows what its conditions ask for. A condition that cannot be evaluated leaves its directive
undecided, but one that is refused a demand ends the run. A line never asks for a frame, a letter or a newline that
is not there, and a step that fails leaves everything as it was.
-/

namespace CondResolve

/-! ## Failures that are reported -/

/-- Not about the value of a condition and not about the machine itself. -/
def Cause.Reported (cause : Cause) : Prop :=
  cause.category = .configuration ∨ cause.category = .structural ∨ cause.category = .lexical ∨
    cause.category = .directive

instance (cause : Cause) : Decidable cause.Reported :=
  inferInstanceAs (Decidable (cause.category = .configuration ∨ cause.category = .structural ∨
    cause.category = .lexical ∨ cause.category = .directive))

def Reports {α : Type} (x : Except Failure α) : Prop := ∀ f, x = .error f → f.cause.Reported

section
variable {α β : Type} {n : Nat}

theorem reports_ok (a : α) : Reports (.ok a) := by
  intro f h
  cases h

theorem reports_error {f : Failure} (h : f.cause.Reported) : Reports (.error f : Except Failure α) := by
  intro g hg
  cases hg
  exact h

theorem reports_cause {cause : Cause} (h : cause.Reported) {line : Option Nat} {group : Option Enclosing} :
    Reports (.error ⟨cause, line, group⟩ : Except Failure α) :=
  reports_error h

theorem Reports.bind {x : Except Failure α} {g : α → Except Failure β} (hx : Reports x) (hg : ∀ a, Reports (g a)) :
    Reports (x >>= g) := by
  cases x with
  | error f => exact reports_error (hx f rfl)
  | ok a => exact hg a

theorem reports_broken (x : Except Broken α) : Reports (x.mapError (Failure.ofBroken n)) := by
  cases x with
  | error b => exact reports_cause (by simp [Cause.Reported, Cause.category])
  | ok a => exact reports_ok a

end

/-! ## Scripts -/

namespace Script

variable (verbatim : Bool) (n : Nat) (lx : Lexical) (line cs : Chars)

theorem reports_readDefine : Reports (readDefine verbatim n lx line cs) := by
  refine (reports_broken _).bind ?_
  rintro ⟨ly, _ | name, rest⟩
  · exact reports_cause (by decide)
  · simp only
    split
    · rename_i h
      cases h
    · exact reports_ok _
    · exact (reports_broken _).bind fun _ => reports_ok _

theorem reports_readUndef : Reports (readUndef verbatim n lx cs) := by
  refine (reports_broken _).bind ?_
  rintro ⟨ly, _ | name, rest⟩
  · exact reports_cause (by decide)
  · exact (reports_broken _).bind fun _ => reports_ok _

theorem reports_readDirective : Reports (readDirective verbatim n lx line) := by
  refine (reports_broken _).bind ?_
  rintro ⟨ly, rest⟩
  simp only
  split
  · exact reports_ok _
  · split
    · exact reports_cause (by decide)
    · split
      · exact Reports.bind (reports_readDefine verbatim n ly line _) fun _ => reports_ok _
      · exact Reports.bind (reports_readUndef verbatim n ly _) fun _ => reports_ok _
      · exact reports_cause (by decide)

theorem reports_readLines {t : Table} {ls : List Chars} {f : Failure}
    (h : (readLines verbatim n t lx ls).2 = some f) :
    f.cause.Reported := by
  induction ls generalizing n t lx with
  | nil =>
    rw [readLines] at h
    split at h
    · cases h
    · cases h
      show Cause.Reported .endInComment
      decide
  | cons line ls ih =>
    have hline : Reports (readLine verbatim n t lx line).2 := by
      unfold readLine
      split
      · rename_i g hg
        exact reports_error (reports_readDirective _ _ _ _ g hg)
      · exact reports_broken _
    rw [readLines] at h
    split at h
    · rename_i g hg
      cases h
      rw [hg] at hline
      exact hline f rfl
    · exact ih _ _ h

end Script

theorem reports_buildTable (s : Settings) (symbols : List Symbol) (script : Chars) :
    Reports (buildTable s symbols script) := by
  unfold buildTable
  split
  · rename_i f hf
    have hread : (Table.readScript symbols s script).2 = some f := congrArg Prod.snd hf
    exact reports_error (Script.reports_readLines s.passthroughText 1 {} hread)
  · exact reports_ok _

/-! ## Lines -/

section
variable {s : Settings} {t : Table} {v : View} {lx : Lexical} {line : Chars}

theorem reports_classify : Reports (classify s t v lx line) := by
  unfold classify
  refine (reports_broken _).bind ?_
  rintro ⟨lk, w⟩
  simp only
  split
  · exact reports_ok _
  · refine (reports_broken _).bind ?_
    rintro (_ | j)
    · simp only
      split
      · exact reports_cause (by decide)
      · exact (reports_broken _).bind fun _ => reports_ok _
    · exact (reports_broken _).bind fun _ => reports_ok _

theorem reported_of_turn {permit : Bool} {here : Option Phase} {d : Directive} {dodgy : Bool} {cause : Cause}
    (h : d.turn permit here dodgy = .error cause) : cause.Reported := by
  have opened : ∀ {x : Truth} {ignored : Bool}, openTurn permit here x ignored dodgy = .error cause →
      cause.Reported := by
    intro x ignored h
    unfold openTurn dropAnd keepAnd at h
    cases hd : dropping here <;> cases x <;> cases dodgy <;> cases permit <;> simp [hd] at h <;> subst h <;> decide
  cases d with
  | guard holds => exact opened h
  | opening x => exact opened h
  | elif x =>
    rcases here with _ | p
    · cases h; decide
    · cases p <;> cases x <;> cases dodgy <;> cases permit <;> cases h <;> decide
  | otherwise =>
    rcases here with _ | p
    · cases h; decide
    · cases p <;> cases dodgy <;> cases h <;> decide
  | closing =>
    rcases here with _ | p
    · cases h; decide
    · cases p <;> cases dodgy <;> cases h <;> decide

theorem reported_of_stepCause {m : Machine} {c : Current} {k : LineKind} {cause : Cause} (hk : k ≠ .unevaluable)
    (h : m.stepCause s c k = .error cause) : cause.Reported := by
  by_cases he : k = .eof
  · subst he
    have h : m.atEnd s c = .error cause := h
    unfold Machine.atEnd at h
    split at h
    · cases hm : c.mode <;> rw [hm] at h <;> cases h <;> simp [Cause.Reported, Cause.category]
    · cases h
      decide
  · rw [Machine.stepCause_line s c m he] at h
    cases ht : k.turn s.permitObfuscated m.stack.phase? with
    | error cause' =>
      rw [ht] at h
      cases h
      cases k with
      | plain => cases ht
      | directive d dodgy => exact reported_of_turn ht
      | eof => exact absurd rfl he
      | unevaluable => exact absurd rfl hk
    | ok turn =>
      -- A turn that is given can be taken, so the groups are never at fault.
      obtain ⟨stack, hs⟩ := exists_apply_of_turn ht c.number
      rw [ht] at h
      simp only [bind, Except.bind, Machine.take_eq, hs, Except.map] at h
      cases h

theorem reports_step {m : Machine} {c : Current} {k : LineKind} (hk : k ≠ .unevaluable) :
    Reports (m.step s c k) := by
  unfold Machine.step
  split
  · rename_i cause h
    refine reports_error ?_
    have hfail : (m.failure c.number cause).cause = cause := by
      unfold Machine.failure
      split <;> rfl
    rw [hfail]
    exact reported_of_stepCause hk h
  · exact reports_ok _

theorem kind_of_read {r : Run} {p : Pending} (h : r.read s t line = .ok p) : p.kind ≠ .unevaluable := by
  obtain ⟨c, hc, he⟩ := bind_eq_ok.mp h
  cases he
  rcases kind_of_classify hc with hk | ⟨d, dodgy, hk, -⟩ <;> simp [hk]

theorem reports_pending {p : Pending} (hk : p.kind ≠ .unevaluable) : Reports (p.step s) :=
  (reports_step hk).bind fun _ => reports_ok _

theorem reported_of_trace {ls : List Chars} {r : Run} {f : Failure} (h : (r.trace s t ls).failure = some f) :
    f.cause.Reported := by
  induction ls generalizing r with
  | nil =>
    rw [Run.trace, Run.finish] at h
    split at h
    · rename_i g hg
      cases h
      exact reports_pending (by simp [Run.readEnd]) f hg
    · cases h
  | cons line ls ih =>
    rw [Run.trace] at h
    split at h
    · rename_i g hg
      cases h
      have hread : Reports (r.read s t line) := reports_classify.bind fun _ => reports_ok _
      exact hread f hg
    · rename_i p hp
      split at h
      · rename_i g hg
        cases h
        exact reports_pending (kind_of_read hp) f hg
      · exact ih h

end

theorem reports_resolve (s : Settings) (symbols : List Symbol) (script source : Chars) :
    Reports (resolve s symbols script source) := by
  intro f h
  unfold resolve Trace.resolved at h
  split at h
  · rename_i g hg
    cases h
    unfold traceSource at hg
    split at hg
    · split at hg
      · rename_i g' hb
        cases hg
        exact reports_buildTable s symbols script f hb
      · exact reported_of_trace hg
    · cases hg
      decide
  · cases h

/-! ## What a line asks for -/

section
variable {s : Settings} {t : Table} {v : View} {lx lk : Lexical} {line w rest : Chars} {r : Run} {p : Pending}

/-- The third letter of `ifdef` and `ifndef` is in the line and tells them apart. -/
theorem letter_of_test (hk : findKeyword v.verbatim lx line = .ok (lk, w)) :
    (afterWord? "ifdef".toList w = some rest → (line.drop (line.length - w.length))[2]? = some 'd') ∧
    (afterWord? "ifndef".toList w = some rest → (line.drop (line.length - w.length))[2]? = some 'n') := by
  have hline : w ≠ [] → line.drop (line.length - w.length) = w := by
    intro hw
    obtain ⟨p, rfl⟩ := suffix_of_findKeyword hw hk
    rw [List.length_append, Nat.add_sub_cancel, List.drop_left]
  constructor
  all_goals
    intro h
    obtain ⟨rfl, -⟩ := afterWord?_eq_some.mp h
    rw [hline (by simp)]
    rfl

/-- The condition of an `#elif` is judged as that of an `#if`, which has a form as an `#elif`. -/
theorem elif_of_opening {j : Judged} (h : judgeCondition s t v .opening lk rest = .ok j) :
    ∃ d, j.directive.asElif? = some d ∧ judgeCondition s t v .elif lk rest = .ok { j with directive := d } := by
  unfold judgeCondition at h ⊢
  simp only at h ⊢
  cases he : (evaluate s v.verbatim (View.knowledge s t) lk rest).result with
  | ok a =>
    rw [he] at h
    cases h
    exact ⟨_, rfl, rfl⟩
  | error halt =>
    rw [he] at h
    cases halt with
    | fault f lx =>
      cases h
      exact ⟨_, rfl, rfl⟩
    | broken b => cases h

theorem newline_of_read (h : r.read s t line = .ok p) : p.run.newline = some p.current.newline := by
  obtain ⟨c, -, he⟩ := bind_eq_ok.mp h
  cases he
  rfl

/-- Whatever `line` asks for when it is read after `r` and takes its turn is there. -/
structure Run.Serves (s : Settings) (t : Table) (r : Run) (line : Chars) : Prop where
  /-- The letter by which `ifdef` and `ifndef` differ. -/
  letter : ∀ lk w rest, findKeyword (r.view s line).verbatim r.lex line = .ok (lk, w) →
    (afterWord? "ifdef".toList w = some rest → (line.drop (line.length - w.length))[2]? = some 'd') ∧
    (afterWord? "ifndef".toList w = some rest → (line.drop (line.length - w.length))[2]? = some 'n')
  /-- The `#elif` with a condition that was judged. -/
  elif : ∀ lk rest j, judgeCondition s t (r.view s line) .opening lk rest = .ok j →
    ∃ d, j.directive.asElif? = some d ∧
      judgeCondition s t (r.view s line) .elif lk rest = .ok { j with directive := d }
  /-- A turn for the kind of the line. -/
  kind : ∀ p, r.read s t line = .ok p → p.kind ≠ .unevaluable
  newline : ∀ p, r.read s t line = .ok p → p.run.newline = some p.current.newline
  /-- The frames that its effects work on, so that an interrupt is a refusal and comes before them. -/
  frames : ∀ p e b, r.read s t line = .ok p →
    EffectM.react s p.current p.run.newline p.run.machine.listed p.kind
      (p.run.machine.board p.current.line p.out) = .error e b →
    b = p.run.machine.board p.current.line p.out ∧ ∃ cause, e = .refused cause ∧ cause.Reported

theorem Run.serves (s : Settings) (t : Table) (r : Run) (line : Chars) : r.Serves s t line := by
  refine ⟨fun lk w rest hk => letter_of_test hk, fun lk rest j hj => elif_of_opening hj,
    fun p hp => kind_of_read hp, fun p hp => newline_of_read hp, ?_⟩
  intro p e b hp he
  rw [react_eq s p.current p.run.machine p.kind p.out (.inr (newline_of_read hp))] at he
  cases hm : p.run.machine.stepCause s p.current p.kind with
  | ok r =>
    rw [hm] at he
    cases he
  | error cause =>
    rw [hm] at he
    cases he
    exact ⟨rfl, cause, rfl, reported_of_stepCause (kind_of_read hp) hm⟩

end

/-- The step of `m` and its effects on a board come to the same, and if the step fails, they are none. -/
def Machine.Atomic (s : Settings) (c : Current) (m : Machine) (k : LineKind) (out : Chars) : Prop :=
  match m.step s c k with
  | .ok r => ∃ text, r.out = text ++ report s c.number k r.machine ∧
      EffectM.react s c (some c.newline) m.listed k (m.board c.line out) =
        .ok () (r.machine.board r.line (out ++ text))
  | .error f => ∃ cause, f = m.failure c.number cause ∧
      EffectM.react s c (some c.newline) m.listed k (m.board c.line out) =
        .error (.refused cause) (m.board c.line out)

theorem Machine.atomic (s : Settings) (c : Current) (m : Machine) (k : LineKind) (out : Chars) :
    m.Atomic s c k out := by
  have hreact := react_eq s c m k out (.inr rfl)
  unfold Atomic step
  cases hm : m.stepCause s c k with
  | ok r =>
    rw [hm] at hreact
    exact ⟨r.out, rfl, hreact⟩
  | error cause =>
    rw [hm] at hreact
    exact ⟨cause, rfl, hreact⟩

def numeralLine (n : Nat) : Chars := "#if ".toList ++ List.replicate n '1' ++ Newline.lf.chars

def parensLine (n : Nat) : Chars :=
  "#if ".toList ++ (List.replicate n '(' ++ '1' :: List.replicate n ')') ++ Newline.lf.chars

/-- No limit goes unnoticed: a numeral and parentheses that are beyond it end the run. -/
theorem resolveOn_refuses (lim : Limits) (n : Nat) (rest : Chars) :
    (lim.allows (.numeral n) = false → resolveOn lim {} [] [] (numeralLine n ++ rest) = .error (.numeral n)) ∧
    (lim.allows (.nesting (parenCalls * n)) = false →
      ∃ d, resolveOn lim {} [] [] (parensLine n ++ rest) = .error d) := by
  have hb : buildTable {} [] [] = .ok [] := rfl
  constructor
  · intro h
    have hne : List.replicate n '1' ≠ [] := by
      rintro hnil
      obtain rfl := List.replicate_eq_nil_iff _ |>.1 hnil
      cases lim with | mk digits calls => cases digits <;> cases h
    have hdigits : ∀ c ∈ List.replicate n '1', isDigit c = true := by
      intro c hc
      rw [List.eq_of_mem_replicate hc]
      rfl
    have hlen : (List.replicate n '1').length = n := List.length_replicate
    rw [← hlen] at h
    have hrefused := resolveOn_numeral rfl hb hne hdigits h .lf rest
    rwa [hlen] at hrefused
  · intro h
    exact resolveOn_parens rfl hb (by simp [List.mem_replicate]) h .lf rest

/-- On a host with limits a run returns, fails with one of four kinds of failures, or ends with the refusal of a
demand that is beyond them. Without limits there are no refusals, and with any limit there are some. No line asks
for what is not there, and every step that fails leaves all as it was. -/
theorem resolve_failures (s : Settings) (symbols : List Symbol) (script source : Chars) :
    (∀ lim, (∃ r, resolveOn lim s symbols script source = .ok (.ok r)) ∨
      (∃ f, resolveOn lim s symbols script source = .ok (.error f) ∧
        (f.category = .configuration ∨ f.category = .structural ∨ f.category = .lexical ∨
          f.category = .directive)) ∨
      ∃ d, lim.allows d = false ∧ resolveOn lim s symbols script source = .error d) ∧
    resolveOn {} s symbols script source = .ok (resolve s symbols script source) ∧
    (∀ lim n rest,
      (lim.allows (.numeral n) = false → resolveOn lim {} [] [] (numeralLine n ++ rest) = .error (.numeral n)) ∧
      (lim.allows (.nesting (parenCalls * n)) = false →
        ∃ d, resolveOn lim {} [] [] (parensLine n ++ rest) = .error d)) ∧
    (∀ (t : Table) (r : Run) (line : Chars), r.Serves s t line) ∧
    ∀ (m : Machine) (c : Current) (k : LineKind) (out : Chars), m.Atomic s c k out := by
  refine ⟨fun lim => ?_, Limits.impose_lifted, resolveOn_refuses, fun t r line => r.serves s t line,
    fun m c k out => m.atomic s c k out⟩
  rcases lim.impose_cases (sourceDemands s symbols script source) (resolve s symbols script source) with
    hok | ⟨d, -, hrefused, herror⟩
  · cases h : resolve s symbols script source with
    | ok r => exact .inl ⟨r, h ▸ hok⟩
    | error f => exact .inr (.inl ⟨f, h ▸ hok, reports_resolve s symbols script source f h⟩)
  · exact .inr (.inr ⟨d, hrefused, herror⟩)

theorem resolve_failures_numeral : Limits.allows ⟨some 4300, none⟩ (.numeral 4301) = false ∧
    resolveOn ⟨some 4300, none⟩ {} [] [] (numeralLine 4301 ++ "#endif\n".toList) = .error (.numeral 4301) := by
  obtain ⟨-, -, hrefuses, -, -⟩ := resolve_failures {} [] [] []
  exact ⟨by decide, (hrefuses ⟨some 4300, none⟩ 4301 "#endif\n".toList).1 (by decide)⟩

end CondResolve
