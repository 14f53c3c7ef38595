import CondResolve.Proofs.Altered

/-!
# The shape of the output

How the output is shaped, whether lines are compressed, marked, annotated or written in complement, is a matter of
the writer alone. Two runs whose settings differ in nothing else go in lockstep (`resolve_reshaped`): they read the
same kinds of lines, keep the same groups open, edit the same lines and fail with the same failure. A line that the
one writes is the one that the complement leaves out.
-/

namespace CondResolve

/-! ## Settings of one mind -/

/-- The settings differ at most in the shape that they ask for. -/
def Settings.Reshaped (s s' : Settings) : Prop :=
  s' = { s with
    compressBlanks := s'.compressBlanks
    blankPlaceholders := s'.blankPlaceholders
    complement := s'.complement
    debug := s'.debug
    lineMarkers := s'.lineMarkers
    lineFile := s'.lineFile }

instance (s s' : Settings) : Decidable (s.Reshaped s') := inferInstanceAs (Decidable (s' = _))

/-- All that decisions depend on. -/
structure Settings.Alike (s s' : Settings) : Prop where
  permit : s.permitObfuscated = s'.permitObfuscated
  strict : s.strictLogic = s'.strictLogic
  force : s.forceConstantUnresolved = s'.forceConstantUnresolved
  passthrough : s.passthroughText = s'.passthroughText
  listing : s.listing = false
  listing' : s'.listing = false

theorem Settings.Reshaped.alike {s s' : Settings} (h : s.Reshaped s') (hl : s.listing = false) : s.Alike s' := by
  have hl' : s'.listing = false := by
    rw [h]
    exact hl
  constructor
  · rw [h]
  · rw [h]
  · rw [h]
  · rw [h]
  · exact hl
  · exact hl'

/-! ## Two computations -/

/-- Both fail, with the same failure, or both succeed, with related results. -/
inductive Lockstep {ε α β : Type} (R : α → β → Prop) : Except ε α → Except ε β → Prop
  | error (e : ε) : Lockstep R (.error e) (.error e)
  | ok {a : α} {b : β} : R a b → Lockstep R (.ok a) (.ok b)

namespace Lockstep

variable {ε ε' α β γ δ : Type} {R : α → β → Prop} {S : γ → δ → Prop} {x : Except ε α} {y : Except ε β}

theorem of_eq {R : α → α → Prop} (hr : ∀ a, R a a) : ∀ x : Except ε α, Lockstep R x x
  | .error e => .error e
  | .ok a => .ok (hr a)

theorem bind {f : α → Except ε γ} {g : β → Except ε δ} (h : Lockstep R x y)
    (hfg : ∀ a b, R a b → Lockstep S (f a) (g b)) : Lockstep S (x >>= f) (y >>= g) := by
  cases h with
  | error e => exact .error e
  | ok hab => exact hfg _ _ hab

theorem bind_same {x : Except ε α} {f : α → Except ε γ} {g : α → Except ε δ}
    (hfg : ∀ a, Lockstep S (f a) (g a)) : Lockstep S (x >>= f) (x >>= g) := by
  cases x with
  | error e => exact .error e
  | ok a => exact hfg a

theorem mapError (f : ε → ε') (h : Lockstep R x y) : Lockstep R (x.mapError f) (y.mapError f) := by
  cases h with
  | error e => exact .error (f e)
  | ok hab => exact .ok hab

theorem map {f : α → γ} {g : β → δ} (h : Lockstep R x y) (hfg : ∀ a b, R a b → S (f a) (g b)) :
    Lockstep S (f <$> x) (g <$> y) := by
  cases h with
  | error e => exact .error e
  | ok hab => exact .ok (hfg _ _ hab)

end Lockstep

/-! ## Reading a line -/

def Judged.Agrees (j j' : Judged) : Prop := { j with note := [] } = { j' with note := [] }

def Classified.Agrees (c c' : Classified) : Prop := { c with out := [] } = { c' with out := [] }

section
variable {s s' : Settings} (h : s.Alike s') (t : Table) (v : View)
include h

theorem testFor_alike : testFor s t = testFor s' t := by
  funext negated name
  simp only [testFor, h.listing, h.listing']

theorem judgeTest_alike : judgeTest s t v = judgeTest s' t v := by
  funext negated lx cs
  simp only [judgeTest, testFor_alike h]

theorem evaluate_alike (k : Knowledge) : evaluate s v.verbatim k = evaluate s' v.verbatim k := by
  funext lx cs
  simp only [evaluate, h.strict, h.force]

theorem knowledge_alike : View.knowledge s t = View.knowledge s' t := by
  simp only [View.knowledge, h.listing, h.listing']

theorem judgeCondition_lockstep (form : Truth → Directive) (lx : Lexical) (cs : Chars) :
    Lockstep Judged.Agrees (judgeCondition s t v form lx cs) (judgeCondition s' t v form lx cs) := by
  simp only [judgeCondition, evaluate_alike h, knowledge_alike h]
  split
  · exact .ok rfl
  · exact .ok rfl
  · exact .error _

theorem judge_lockstep (lx : Lexical) (cs : Chars) :
    Lockstep (Option.Rel Judged.Agrees) (judge s t v lx cs) (judge s' t v lx cs) := by
  have hrefl : ∀ j : Judged, Judged.Agrees j j := fun _ => rfl
  have hsome : ∀ {x y : Except Broken Judged}, Lockstep Judged.Agrees x y →
      Lockstep (Option.Rel Judged.Agrees) (some <$> x) (some <$> y) :=
    fun hxy => hxy.map fun _ _ hj => .some hj
  unfold judge
  rw [judgeTest_alike h]
  dsimp only
  split
  · exact hsome (.of_eq hrefl _)
  · split
    · exact hsome (.of_eq hrefl _)
    · split
      · exact hsome (judgeCondition_lockstep h t v ..)
      · split
        · exact hsome (judgeCondition_lockstep h t v ..)
        · split
          · exact .ok (.some rfl)
          · split
            · exact .ok (.some rfl)
            · exact .ok .none

theorem classify_lockstep (lx : Lexical) (line : Chars) :
    Lockstep Classified.Agrees (classify s t v lx line) (classify s' t v lx line) := by
  unfold classify
  dsimp only
  refine .bind_same fun (lx', rest) => ?_
  dsimp only
  split
  · exact .ok rfl
  · refine .bind ((judge_lockstep h t v lx' rest).mapError _) fun j? j?' hj => ?_
    cases hj with
    | none =>
      dsimp only
      split
      · exact .error _
      · exact .bind_same fun lx'' => .ok rfl
    | some hj =>
      rename_i j j'
      have hfinish : finish v j' = finish v j := by
        obtain ⟨d, ly, r, names, note⟩ := j
        obtain ⟨d', ly', r', names', note'⟩ := j'
        cases hj
        rfl
      have hnames : j.names = j'.names := congrArg (·.names) hj
      dsimp only
      rw [hfinish]
      refine .bind_same fun (lx'', d) => .ok ?_
      simp only [Classified.Agrees, settleLine, hnames]

end

/-! ## Runs in lockstep -/

structure Run.Agrees (r r' : Run) : Prop where
  number : r.number = r'.number
  lex : r.lex = r'.lex
  newline : r.newline = r'.newline
  stack : r.machine.stack = r'.machine.stack
  listed : r.machine.listed = r'.machine.listed

structure Step.Agrees (st st' : Step) : Prop where
  kind : st.kind = st'.kind
  line : st.line = st'.line
  run : st.run.Agrees st'.run

structure Pending.Agrees (p p' : Pending) : Prop where
  run : p.run.Agrees p'.run
  kind : p.kind = p'.kind
  current : p.current = p'.current

structure Stepped.Agrees (x x' : Stepped) : Prop where
  stack : x.machine.stack = x'.machine.stack
  listed : x.machine.listed = x'.machine.listed
  line : x.line = x'.line

structure Trace.Agrees (tr tr' : Trace) : Prop where
  steps : List.Forall₂ Step.Agrees tr.steps tr'.steps
  failure : tr.failure = tr'.failure

section
variable {s s' : Settings} (h : s.Alike s') {t : Table} {r r' : Run}
include h

theorem read_lockstep (hr : r.Agrees r') (line : Chars) :
    Lockstep Pending.Agrees (r.read s t line) (r'.read s' t line) := by
  have hnewline : r.newlineAt line = r'.newlineAt line := by simp only [Run.newlineAt, hr.newline]
  have hview : r.view s line = r'.view s' line := by
    simp only [Run.view, h.passthrough, hr.number, hr.stack, hr.listed, hnewline]
  unfold Run.read
  rw [hview, hnewline, hr.number, hr.lex]
  refine .bind (classify_lockstep h t _ r'.lex line) fun c c' hc => .ok ?_
  obtain ⟨kind, l, lex, keyword, altered, names, out⟩ := c
  obtain ⟨kind', l', lex', keyword', altered', names', out'⟩ := c'
  cases hc
  refine ⟨⟨?_, rfl, rfl, hr.stack, ?_⟩, rfl, rfl⟩
  · simp only [Run.seen, hr.number]
  · simp only [Run.seen, hr.listed, h.listing, h.listing']

theorem step_lockstep (c : Current) {m m' : Machine} (hs : m.stack = m'.stack) (hl : m.listed = m'.listed)
    (k : LineKind) : Lockstep Stepped.Agrees (m.step s c k) (m'.step s' c k) := by
  -- A step depends on the stack alone, which the two machines share.
  have htake : ∀ turn : Turn, Lockstep Stepped.Agrees (m.take s c turn) (m'.take s' c turn) := by
    intro turn
    unfold Machine.take
    rw [hs]
    exact .bind_same fun stack => .ok ⟨rfl, hl, rfl⟩
  have hcause : Lockstep Stepped.Agrees (m.stepCause s c k) (m'.stepCause s' c k) := by
    cases k with
    | plain =>
      simp only [Machine.stepCause, hs]
      exact htake _
    | directive d dodgy =>
      simp only [Machine.stepCause, hs, h.permit]
      exact .bind_same htake
    | eof =>
      simp only [Machine.stepCause, Machine.atEnd, hs]
      split
      · split
        · exact .error _
        · exact .ok ⟨hs, hl, rfl⟩
      · exact .error _
    | unevaluable => exact .error _
  have hfailure : ∀ n cause, m.failure n cause = m'.failure n cause := by
    intro n cause
    simp only [Machine.failure, hs]
  unfold Machine.step
  generalize m.stepCause s c k = x at hcause
  generalize m'.stepCause s' c k = y at hcause
  cases hcause with
  | error cause =>
    simp only [hfailure]
    exact .error _
  | ok hx => exact .ok ⟨hx.stack, hx.listed, hx.line⟩

theorem pending_lockstep {p p' : Pending} (hp : p.Agrees p') : Lockstep Step.Agrees (p.step s) (p'.step s') := by
  unfold Pending.step
  rw [hp.kind, hp.current]
  refine .bind (step_lockstep h p'.current hp.run.stack hp.run.listed p'.kind) fun x x' hx => .ok ?_
  exact ⟨rfl, hx.line, hp.run.number, hp.run.lex, hp.run.newline, hx.stack, hx.listed⟩

theorem finish_agrees (hr : r.Agrees r') : (r.finish s).Agrees (r'.finish s') := by
  have hread : r.readEnd.Agrees r'.readEnd := by
    refine ⟨⟨?_, hr.lex, hr.newline, hr.stack, hr.listed⟩, rfl, ?_⟩
    · simp only [Run.readEnd, hr.number]
    · simp only [Run.readEnd, hr.number, hr.lex, hr.newline]
  have hstep := pending_lockstep h hread
  unfold Run.finish
  generalize r.readEnd.step s = x at hstep
  generalize r'.readEnd.step s' = y at hstep
  cases hstep with
  | error f => exact ⟨.cons ⟨hread.kind, congrArg (·.line) hread.current, hread.run⟩ .nil, rfl⟩
  | ok hst => exact ⟨.cons hst .nil, rfl⟩

theorem trace_agrees (ls : List Chars) (hr : r.Agrees r') : (r.trace s t ls).Agrees (r'.trace s' t ls) := by
  induction ls generalizing r r' with
  | nil => exact finish_agrees h hr
  | cons line ls ih =>
    have hread := read_lockstep h (t := t) hr line
    rw [Run.trace, Run.trace]
    generalize r.read s t line = x at hread
    generalize r'.read s' t line = y at hread
    cases hread with
    | error f => exact ⟨.nil, rfl⟩
    | ok hp =>
      rename_i p p'
      have hstep := pending_lockstep h hp
      dsimp only
      generalize p.step s = x at hstep
      generalize p'.step s' = y at hstep
      cases hstep with
      | error f => exact ⟨.cons ⟨hp.kind, congrArg (·.line) hp.current, hp.run⟩ .nil, rfl⟩
      | ok hst =>
        have htail := ih hst.run
        exact ⟨.cons hst htail.steps, htail.failure⟩

end

/-! ## A text and its complement -/

/-- Lines are written as they stand or not at all, and nothing else is written. -/
structure Settings.Unadorned (s : Settings) : Prop where
  compressBlanks : s.compressBlanks = false
  blankPlaceholders : s.blankPlaceholders = false
  debug : s.debug = false
  lineMarkers : s.lineMarkers = false
  listing : s.listing = false

/-- What a line of the source comes to: it gets the newline that it lacks, or its keyword is edited. -/
def Rendered (line out : Chars) : Prop :=
  ∃ whole, (whole = line ∨ lacksNewline line = true ∧ ∃ nl : Newline, whole = line ++ nl.chars) ∧
    (out = whole ∨ ∃ (e : Edit) (c : Current), c.line = whole ∧ out = e.apply c)

def Step.Divides (st st' : Step) : Prop :=
  st.line ≠ [] ∧ (st.out = st.line ∧ st'.out = [] ∨ st.out = [] ∧ st'.out = st.line)

/-- Between them, two runs write the whole source, edited. -/
structure Trace.Divides (source : List Chars) (tr tr' : Trace) : Prop where
  rendered : List.Forall₂ (fun line st => Rendered line st.line) source tr.steps.dropLast
  divided : List.Forall₂ Step.Divides tr.steps.dropLast tr'.steps.dropLast
  merged : (List.zipWith (fun st st' => st.out ++ st'.out) tr.steps tr'.steps).flatten = tr.steps.flatMap (·.line)

section
variable {s s' : Settings} {t : Table} {r r' : Run} {line : Chars} {c : Classified} {turn : Turn} {st st' : Step}

theorem Settings.Unadorned.silent (hb : s.Unadorned) : s.Silent := by
  have hl := hb.listing
  simp only [Settings.listing, Bool.or_eq_false_iff] at hl
  exact ⟨hb.debug, hl.1, hl.2⟩

theorem flush_unadorned (hb : s.Unadorned) (nl : Newline) (n : Nat) (keep : Bool) (l : Chars) (w : Writer) :
    (w.flush s nl n keep l).2 = if keep != s.complement then l else [] := by
  simp only [Writer.flush, hb.listing, hb.compressBlanks, Writer.write, Writer.drop, hb.lineMarkers,
    hb.blankPlaceholders]
  by_cases hk : (keep != s.complement) = true
  · simp [hk]
  · simp [hk]

theorem Advances.line_eq (ha : Advances s t r line c turn st) (hadv : r.advance s t line = .ok st) :
    st.line = turn.text (r.current line c) := by
  rw [advance_eq ha.classified] at hadv
  cases hm : (r.seen s (r.newlineAt line) c).machine.step s (r.current line c) c.kind with
  | error f =>
    rw [hm] at hadv
    cases hadv
  | ok m =>
    rw [hm] at hadv
    cases hadv
    obtain ⟨turn', stack, hturn, -, rfl⟩ :=
      (Machine.step_eq_ok_iff (kind_ne_eof_of_classify ha.classified)).mp hm
    have hsame : turn' = turn := Except.ok.inj (hturn.symm.trans ha.turned)
    rw [hsame]

theorem rendered_of_advance (ha : Advances s t r line c turn st) (hadv : r.advance s t line = .ok st) :
    Rendered line st.line := by
  refine ⟨c.line, ?_, ?_⟩
  · rcases line_of_classify ha.classified with ⟨-, hline⟩ | ⟨-, hlacks, hline⟩
    · exact .inl hline
    · exact .inr ⟨hlacks, _, hline⟩
  · rw [ha.line_eq hadv]
    unfold Turn.text
    cases turn.edit with
    | none => exact .inl rfl
    | some e => exact .inr ⟨e, _, rfl, rfl⟩

theorem rendered_ne_nil {out : Chars} (hne : line ≠ []) (h : Rendered line out) : out ≠ [] := by
  obtain ⟨whole, hwhole, hout⟩ := h
  have hwhole' : whole ≠ [] := by
    rcases hwhole with rfl | ⟨-, nl, rfl⟩
    · exact hne
    · simp [hne]
  rcases hout with rfl | ⟨e, c, -, rfl⟩
  · exact hwhole'
  · cases e <;> simp [Edit.apply]

/-- Both runs take the same turn on the line, and one of them writes what is kept. -/
theorem divides_of_advance (h : s.Alike s') (hb : s.Unadorned) (hb' : s'.Unadorned)
    (hc : s'.complement = !s.complement) (hr : r.Agrees r') (hst : st.Agrees st') (hne : line ≠ [])
    (hadv : r.advance s t line = .ok st) (hadv' : r'.advance s' t line = .ok st') : st.Divides st' := by
  obtain ⟨c, turn, ha⟩ := advances_of_advance hb.silent hadv
  obtain ⟨c', turn', ha'⟩ := advances_of_advance hb'.silent hadv'
  have hturn : turn' = turn := by
    have hkind : c'.kind = c.kind := by rw [← ha.kind, ← ha'.kind, hst.kind]
    have hturned := ha'.turned
    rw [hkind, ← h.permit, ← hr.stack, ha.turned] at hturned
    exact (Except.ok.inj hturned).symm
  have hout : st.out = if turn.keep != s.complement then st.line else [] := by
    rw [ha.out, Run.written, flush_unadorned hb, ha.line_eq hadv]
  have hout' : st'.out = if turn.keep != s'.complement then st.line else [] := by
    rw [ha'.out, Run.written, flush_unadorned hb', ← ha'.line_eq hadv', ← hst.line, hturn]
  refine ⟨rendered_ne_nil hne (rendered_of_advance ha hadv), ?_⟩
  rw [hout, hout', hc]
  by_cases hk : turn.keep = s.complement
  · right
    simp [hk]
  · left
    have hk' : turn.keep = !s.complement := Bool.eq_not.2 hk
    simp [hk']

theorem Trace.divides_cons {source : List Chars} {tr tr' : Trace} (hne : tr.steps ≠ []) (hne' : tr'.steps ≠ [])
    (hline : Rendered line st.line) (hst : st.Divides st') (htr : tr.Divides source tr') :
    Trace.Divides (line :: source) ⟨st :: tr.steps, tr.failure⟩ ⟨st' :: tr'.steps, tr'.failure⟩ := by
  refine ⟨?_, ?_, ?_⟩
  · simp only [List.dropLast_cons_of_ne_nil hne]
    exact .cons hline htr.rendered
  · simp only [List.dropLast_cons_of_ne_nil hne, List.dropLast_cons_of_ne_nil hne']
    exact .cons hst htr.divided
  · have hout : st.out ++ st'.out = st.line := by
      rcases hst.2 with ⟨ho, ho'⟩ | ⟨ho, ho'⟩ <;> simp [ho, ho']
    simp [htr.merged, hout]

theorem trace_divides (h : s.Alike s') (hb : s.Unadorned) (hb' : s'.Unadorned) (hc : s'.complement = !s.complement)
    {ls : List Chars} (hls : Physical ls) (hr : r.Agrees r') (hf : (r.trace s t ls).failure = none) :
    (r.trace s t ls).Divides ls (r'.trace s' t ls) := by
  induction ls generalizing r r' with
  | nil =>
    have hf' : (r'.finish s').failure = none := by
      have hagree := finish_agrees h hr
      rw [← hagree.failure]
      exact hf
    rw [Run.trace, Run.trace, finish_of_complete hb.silent (complete_of_finish hf),
      finish_of_complete hb'.silent (complete_of_finish hf')]
    exact ⟨.nil, .nil, rfl⟩
  | cons line ls ih =>
    have hne : line ≠ [] := by
      rcases hls with ⟨hfull, -⟩ | ⟨-, hne, -⟩
      · exact hfull.ne_nil
      · exact hne
    have hagree := trace_agrees h (t := t) (line :: ls) hr
    have hf' : (r'.trace s' t (line :: ls)).failure = none := by rw [← hagree.failure, hf]
    obtain ⟨st, hadv⟩ := advance_of_trace hf
    obtain ⟨st', hadv'⟩ := advance_of_trace hf'
    rw [trace_of_advance hadv] at hf
    rw [trace_of_advance hadv'] at hf'
    rw [trace_of_advance hadv, trace_of_advance hadv'] at hagree ⊢
    obtain ⟨hst, -⟩ := List.forall₂_cons.1 hagree.steps
    obtain ⟨c, turn, ha⟩ := advances_of_advance hb.silent hadv
    exact Trace.divides_cons (steps_ne_nil hf) (steps_ne_nil hf') (rendered_of_advance ha hadv)
      (divides_of_advance h hb hb' hc hr hst hne hadv hadv') (ih hls.tail hst.run hf)

end

/-! ## Whole sources -/

section
variable {s s' : Settings} (h : s.Alike s') (symbols : List Symbol) (script : Chars)
include h

theorem buildTable_alike : buildTable s symbols script = buildTable s' symbols script := by
  simp only [buildTable, Table.readScript, h.passthrough]

theorem traceSource_agrees (hv : s.isValid = true) (hv' : s'.isValid = true) (source : Chars) :
    (traceSource s symbols script source).Agrees (traceSource s' symbols script source) := by
  simp only [traceSource, hv, hv', if_true, buildTable_alike h]
  split
  · exact ⟨.nil, rfl⟩
  · exact trace_agrees h _ ⟨rfl, rfl, rfl, rfl, rfl⟩

theorem traceSource_divides (hv : s.isValid = true) (hv' : s'.isValid = true) (hb : s.Unadorned)
    (hb' : s'.Unadorned) (hc : s'.complement = !s.complement) {source : Chars} {out : Resolved}
    (hres : resolve s symbols script source = .ok out) :
    (traceSource s symbols script source).Divides (lines source) (traceSource s' symbols script source) := by
  obtain ⟨t, -, ht, hres⟩ := resolve_eq_ok_iff.mp hres
  have ht' : buildTable s' symbols script = .ok t := by rw [← buildTable_alike h, ht]
  rw [traceSource_of_table hv ht, traceSource_of_table hv' ht']
  exact trace_divides h hb hb' hc (physical_lines source) ⟨rfl, rfl, rfl, rfl, rfl⟩ (resolved_eq_ok_iff.mp hres).1

end

/-- Settings that only shape the output change no step and no failure of a run. Between them, a run that adorns
nothing and its complement write the whole source, edited. -/
theorem resolve_reshaped {s s' : Settings} (hs : s.Reshaped s') (hl : s.listing = false) (hv : s.isValid = true)
    (hv' : s'.isValid = true) (symbols : List Symbol) (script source : Chars) :
    List.Forall₂ Step.Agrees (traceSource s symbols script source).steps
        (traceSource s' symbols script source).steps ∧
      (∀ f, resolve s symbols script source = .error f ↔ resolve s' symbols script source = .error f) ∧
      (s.Unadorned → s'.Unadorned → s'.complement = !s.complement →
    ∀ out, resolve s symbols script source = .ok out →
        (traceSource s symbols script source).Divides (lines source) (traceSource s' symbols script source)) := by
  have h := hs.alike hl
  have hagree := traceSource_agrees h symbols script hv hv' source
  refine ⟨hagree.steps, ?_, ?_⟩
  · intro f
    simp only [resolve, Trace.resolved, hagree.failure]
    split <;> simp
  · intro hb hb' hc out hres
    exact traceSource_divides h symbols script hv hv' hb hb' hc hres

def threeBranches : Chars := "#ifdef A\n// a\n#else\n// b\n#endif\n#ifdef B\n\n#endif\n".toList

theorem resolve_reshaped_threeBranches :
    Settings.Reshaped {} { complement := true } ∧
      resolve {} [⟨"A", none, false⟩] [] threeBranches = .ok ⟨"// b\n#ifdef B\n\n#endif\n".toList, true⟩ ∧
      resolve { complement := true } [⟨"A", none, false⟩] [] threeBranches =
        .ok ⟨"#ifdef A\n// a\n#else\n#endif\n".toList, true⟩ ∧
      List.Forall₂ Step.Agrees (traceSource {} [⟨"A", none, false⟩] [] threeBranches).steps
        (traceSource { complement := true } [⟨"A", none, false⟩] [] threeBranches).steps ∧
      (traceSource {} [⟨"A", none, false⟩] [] threeBranches).Divides (lines threeBranches)
        (traceSource { complement := true } [⟨"A", none, false⟩] [] threeBranches) := by
  have hout : resolve {} [⟨"A", none, false⟩] [] threeBranches =
      .ok ⟨"// b\n#ifdef B\n\n#endif\n".toList, true⟩ := by cbv
  have hout' : resolve { complement := true } [⟨"A", none, false⟩] [] threeBranches =
      .ok ⟨"#ifdef A\n// a\n#else\n#endif\n".toList, true⟩ := by cbv
  have hshape : Settings.Reshaped {} { complement := true } := rfl
  obtain ⟨hsteps, -, hdivides⟩ := resolve_reshaped hshape rfl rfl rfl [⟨"A", none, false⟩] [] threeBranches
  refine ⟨hshape, hout, hout', hsteps, ?_⟩
  exact hdivides ⟨rfl, rfl, rfl, rfl, rfl⟩ ⟨rfl, rfl, rfl, rfl, rfl⟩ rfl _ hout

end CondResolve
