import Mathlib
import CondResolve.Proofs.Advance
import CondResolve.Proofs.Table

/-!
# Resolving a text twice

The text that a run writes has only groups left whose conditions are unknown. A second run over it finds
them in the phases that `Phase.echo` tells, keeps every line and changes none. Where the first run drops
lines, the second one waits in code at the start of a line: a directive that is not dodgy is met there and
leaves its line there.
-/

namespace CondResolve

/-! ## Phases of the groups that are left -/

def echoes : List Phase → List Phase
  | [] => []
  | p :: ps =>
    match p.echo with
    | none => echoes ps
    | some q => q :: echoes ps

theorem dropping_echoes : ∀ ps : List Phase, dropping (echoes ps).head? = false
  | [] => rfl
  | p :: ps => by
    cases hp : p.echo with
    | none => simpa [echoes, hp] using dropping_echoes ps
    | some q => cases p <;> cases hp <;> rfl

def Turn.Echoed (permit : Bool) (ps : List Phase) (d : Directive) (turn : Turn) : Prop :=
  (turn.keep = false ∧ turn.edit = none ∧ echoes (turn.shift.phases ps) = echoes ps) ∨
  (turn.keep = true ∧
    ∃ sh, (d.edited turn.edit).turn permit (echoes ps).head? false = .ok ⟨true, sh, none⟩ ∧
      (echoes ps ≠ [] ∨ ∃ p b, sh = .enter p b) ∧ sh.phases (echoes ps) = echoes (turn.shift.phases ps))

section
variable {permit : Bool} {ps : List Phase} {p : Phase} {x : Truth} {turn : Turn}

theorem opening_echoed (h : openTurn permit ps.head? x false false = .ok turn) :
    turn.Echoed permit ps (.opening x) := by
  rcases openTurn_cases h with ⟨-, rfl⟩ | ⟨-, hx, rfl⟩ | ⟨-, -, -, rfl⟩ | ⟨-, -, -, rfl⟩
  · exact .inl ⟨rfl, rfl, rfl⟩
  · have hx : x = .unknown := by simpa using hx
    subst hx
    refine .inr ⟨rfl, .enter .passMiddle false, ?_, .inr ⟨_, _, rfl⟩, rfl⟩
    show openTurn permit (echoes ps).head? .unknown false false = _
    rw [openTurn, dropping_echoes]
    rfl
  · exact .inl ⟨rfl, rfl, rfl⟩
  · exact .inl ⟨rfl, rfl, rfl⟩

theorem elif_echoed (h : elifTurn permit (some p) x false = .ok turn) :
    turn.Echoed permit (p :: ps) (.elif x) := by
  rcases elifTurn_cases h with ⟨rfl, rfl, rfl⟩ | ⟨rfl, rfl, -, rfl⟩ | ⟨rfl, rfl, -, rfl⟩ | ⟨rfl, -, rfl⟩ |
    ⟨rfl, hx, rfl⟩ | ⟨rfl, rfl, -, rfl⟩ | ⟨hp, rfl, -, rfl⟩ | ⟨hp, rfl, -, rfl⟩ | ⟨rfl, -, rfl⟩ | ⟨rfl, rfl⟩
  · refine .inr ⟨rfl, .enter .passMiddle false, ?_, .inr ⟨_, _, rfl⟩, rfl⟩
    show openTurn permit (echoes ps).head? .unknown false false = _
    rw [openTurn, dropping_echoes]
    rfl
  · exact .inl ⟨rfl, rfl, rfl⟩
  · exact .inl ⟨rfl, rfl, rfl⟩
  · exact .inl ⟨rfl, rfl, rfl⟩
  · have hx : x = .unknown := by simpa using hx
    subst hx
    exact .inr ⟨rfl, .branch .passMiddle, rfl, .inl (by simp [echoes, Phase.echo]), rfl⟩
  · exact .inr ⟨rfl, .branch .passMiddle, rfl, .inl (by simp [echoes, Phase.echo]), rfl⟩
  · rcases hp with rfl | rfl <;>
      exact .inr ⟨rfl, .switch .passElse, rfl, .inl (by simp [echoes, Phase.echo]), rfl⟩
  · rcases hp with rfl | rfl <;> exact .inl ⟨rfl, rfl, rfl⟩
  · exact .inr ⟨rfl, .leave, rfl, .inl (by simp [echoes, Phase.echo]), rfl⟩
  · exact .inl ⟨rfl, rfl, rfl⟩

theorem otherwise_echoed (h : elseTurn (some p) false = .ok turn) : turn.Echoed permit (p :: ps) .otherwise := by
  rcases elseTurn_cases h with ⟨hp, rfl⟩ | ⟨hp, rfl⟩ | ⟨rfl, -, rfl⟩ | ⟨rfl, -, rfl⟩
  · rcases hp with rfl | ⟨rfl, -⟩ <;>
      exact .inr ⟨rfl, .switch .passElse, rfl, .inl (by simp [echoes, Phase.echo]), rfl⟩
  · rcases hp with rfl | ⟨rfl, -⟩ <;> exact .inl ⟨rfl, rfl, rfl⟩
  · exact .inl ⟨rfl, rfl, rfl⟩
  · exact .inr ⟨rfl, .leave, rfl, .inl (by simp [echoes, Phase.echo]), rfl⟩

theorem closing_echoed (h : closeTurn (some p) false = .ok turn) : turn.Echoed permit (p :: ps) .closing := by
  rcases closeTurn_cases h with ⟨hp, rfl⟩ | ⟨hp, -, rfl⟩
  · rcases hp with rfl | rfl | rfl | ⟨rfl, -⟩ <;>
      exact .inr ⟨rfl, .leave, rfl, .inl (by simp [echoes, Phase.echo]), rfl⟩
  · rcases hp with rfl | rfl | rfl | rfl | rfl <;> exact .inl ⟨rfl, rfl, rfl⟩

theorem directive_echoed {d : Directive} (hg : ∀ b, d ≠ .guard b) (h : d.turn permit ps.head? false = .ok turn) :
    turn.Echoed permit ps d := by
  cases d with
  | guard b => exact absurd rfl (hg b)
  | opening x => exact opening_echoed h
  | elif x =>
    cases ps with
    | nil => cases h
    | cons p ps => exact elif_echoed h
  | otherwise =>
    cases ps with
    | nil => cases h
    | cons p ps => exact otherwise_echoed h
  | closing =>
    cases ps with
    | nil => cases h
    | cons p ps => exact closing_echoed h

end

/-! ## The second run -/

/-- The second run `r'` has read what the first run `r` has written so far. -/
structure Echoes (s : Settings) (r r' : Run) : Prop where
  even : r.Even s
  even' : r'.Even s
  stack : r'.machine.stack.phases = echoes r.machine.stack.phases
  lex : r'.lex = if dropping r.machine.stack.phase? then {} else r.lex
  /-- Blank lines are absorbed only where lines were dropped before them. -/
  blanks : dropping r.machine.stack.phase? = false → r.machine.writer.blanks ≠ r.machine.writer.blankMax →
    r.lex = {}
  level : r'.machine.writer.blanks = r'.machine.writer.blankMax
  altered : r'.altered = false

section
variable {s : Settings} {t : Table} {r r' : Run} {line : Chars} {c : Classified} {turn : Turn} {st : Step}

theorem advance_kept (hq : s.Quiet) (ht : t.NoneIgnored) {k : LineKind} {keyword : Nat} {lx : Lexical} {sh : Shift}
    (he : r'.Even s) (hl : r'.machine.writer.blanks = r'.machine.writer.blankMax) (hn : r'.altered = false)
    (ho : OneLine line) (hr : Reads s t s.passthroughText r'.lex line k keyword lx)
    (hk : k.turn s.permitObfuscated r'.machine.stack.phase? = .ok ⟨true, sh, none⟩)
    (hs : r'.machine.stack.phases ≠ [] ∨ sh = .stay ∨ ∃ p b, sh = .enter p b) :
    ∃ st, r'.advance s t line = .ok st ∧ st.out = line ∧ st.run.Even s ∧ st.run.lex = lx ∧
      st.run.machine.stack.phases = sh.phases r'.machine.stack.phases ∧
      st.run.machine.writer.blanks = st.run.machine.writer.blankMax ∧ st.run.altered = false := by
  obtain ⟨c, st, hadv, ha, hline, -, hc, heven, hlx, hphases⟩ := advance_reads hq ht he ho hr hk hs
  rcases ha.cases_of_keep hq rfl with ⟨-, -, hne, -⟩ | ⟨hout, hlevel, halt⟩
  · exact absurd hl hne
  · refine ⟨st, hadv, hout.trans hline, heven, hlx, hphases, hlevel, ?_⟩
    rw [halt, hn, hc]
    rfl

def EchoStep (s : Settings) (t : Table) (st : Step) (r' : Run) : Prop :=
  (st.out = [] ∧ Echoes s st.run r') ∨
    st.out ≠ [] ∧ ∃ st', r'.advance s t st.out = .ok st' ∧ st'.out = st.out ∧ Echoes s st.run st'.run

theorem Echoes.plain_turn (he : Echoes s r r') :
    LineKind.turn s.permitObfuscated r'.machine.stack.phase? .plain = .ok ⟨true, .stay, none⟩ := by
  rw [LineKind.turn, Stack.phase?_eq, he.stack, dropping_echoes]
  rfl

theorem echo_drop (hq : s.Quiet) (ht : t.NoneIgnored) (he : Echoes s r r') (ha : Advances s t r line c turn st)
    (hk : turn.keep = false) (hl : r'.lex = {}) (hst : st.run.Even s)
    (hphases : echoes st.run.machine.stack.phases = echoes r.machine.stack.phases)
    (hlex : dropping st.run.machine.stack.phase? = false → st.run.lex = {}) : EchoStep s t st r' := by
  have hout := ha.out_of_drop hq hk
  have hafter : (if dropping st.run.machine.stack.phase? then {} else st.run.lex) = ({} : Lexical) := by
    split
    · rfl
    · rename_i hd
      exact hlex (Bool.eq_false_iff.mpr hd)
  -- Nothing is written, or the second run reads a blank line in the place of the line.
  cases hp : s.blankPlaceholders with
  | false =>
    rw [hp] at hout
    refine .inl ⟨hout, hst, he.even', ?_, ?_, fun hd _ => hlex hd, he.level, he.altered⟩
    · rw [he.stack, hphases]
    · rw [hafter, hl]
  | true =>
    rw [hp] at hout
    have hout : st.out = (r.newlineAt line).chars := hout
    have hr : Reads s t s.passthroughText r'.lex st.out .plain 0 {} := by
      rw [hl, hout]
      exact reads_blank (by cases r.newlineAt line <;> rfl)
    have ho : OneLine st.out := by
      rw [hout]
      exact (fullLine_newline _).oneLine
    obtain ⟨st', hadv, hout', heven, hlx, hstack, hlevel, halt⟩ :=
      advance_kept hq ht he.even' he.level he.altered ho hr he.plain_turn (.inr (.inl rfl))
    have hne : st.out ≠ [] := by
      rw [hout]
      exact (fullLine_newline _).ne_nil
    refine .inr ⟨hne, st', hadv, hout', hst, heven, ?_, ?_, fun hd _ => hlex hd, hlevel, halt⟩
    · rw [hstack, hphases, ← he.stack]
      rfl
    · rw [hafter, hlx]

theorem plain_echo (hq : s.Quiet) (ht : t.NoneIgnored) (he : Echoes s r r') (hne : line ≠ []) (ho : OneLine line)
    (ha : Advances s t r line c turn st) (hk : c.kind = .plain) :
    EchoStep s t st r' ∧ (st.out = [] ∨ st.out = line ∨ FullLine st.out) := by
  have hst := he.even.advances ht ho ha
  obtain ⟨hline, rfl, hstack⟩ := ha.plain hk
  cases hd : dropping r.machine.stack.phase? with
  | true =>
    have hkeep : (!dropping r.machine.stack.phase?) = false := by simp [hd]
    constructor
    · refine echo_drop hq ht he ha hkeep (by rw [he.lex, hd]; rfl) hst (by rw [hstack]) fun hd' => ?_
      rw [hstack, hd] at hd'
      cases hd'
    · rw [ha.out_of_drop hq hkeep]
      split
      · exact .inr (.inr (fullLine_newline _))
      · exact .inl rfl
  | false =>
    have hlex : r'.lex = r.lex := by rw [he.lex, hd]; rfl
    have hreads := reads_plain t ha.classified hk
    rw [he.even.verbatim] at hreads
    rcases ha.cases_of_keep hq (by simp [hd]) with ⟨hout, hb, hlow, -⟩ | ⟨hout, hlevel, -⟩
    · -- A blank line is absorbed: it changes no mode, since lines were dropped before it.
      have hr := he.blanks hd hlow
      have hblank : isBlank line = true := by rwa [← hline]
      have hc : c.lex = {} := by
        have hcl := ha.classified
        rw [hr] at hcl
        exact ((reads_blank hblank).eq rfl hcl).2.2.1
      refine ⟨.inl ⟨hout, hst, he.even', by rw [hstack, he.stack], ?_, fun _ _ => by rw [ha.lex, hc], he.level,
        he.altered⟩, .inl hout⟩
      rw [hstack, hd, ha.lex, hc, hlex, hr]
      rfl
    · have hout : st.out = line := hout.trans hline
      rw [← hlex, ← hout] at hreads
      rw [← hout] at ho
      obtain ⟨st', hadv, hout', heven, hlx, hstack', hlevel', halt⟩ :=
        advance_kept hq ht he.even' he.level he.altered ho hreads he.plain_turn (.inr (.inl rfl))
      refine ⟨.inr ⟨hout ▸ hne, st', hadv, hout', hst, heven, ?_, ?_, fun _ hlow => absurd hlevel hlow, hlevel',
        halt⟩, .inr (.inl hout)⟩
      · rw [hstack', hstack, ← he.stack]
        rfl
      · rw [hstack, hd, hlx, ha.lex]
        rfl

theorem directive_echo (hq : s.Quiet) (ht : t.NoneIgnored) (he : Echoes s r r') (hfull : FullLine line)
    (ha : Advances s t r line c turn st) {d : Directive} (hk : c.kind = .directive d false) :
    EchoStep s t st r' ∧ (st.out = [] ∨ FullLine st.out) := by
  have hst := he.even.advances ht hfull.oneLine ha
  have hv : (r.view s line).verbatim = s.passthroughText := he.even.verbatim
  obtain ⟨lk, w, j, hclean, hline, hkw, hlex⟩ := ha.clean he.even hfull hk
  have hr' : r'.lex = {} := by rw [he.lex, hclean.start, ite_self]
  obtain ⟨hturn, hphases⟩ := ha.directive hk
  rcases directive_echoed (ha.ne_guard ht hk) hturn with
    ⟨hkeep, -, hsame⟩ | ⟨hkeep, sh, hturn', hsh, hsame⟩
  · have hstep := echo_drop hq ht he ha hkeep hr' hst (by rw [hphases, hsame]) fun _ => hlex
    refine ⟨hstep, ?_⟩
    rw [ha.out_of_drop hq hkeep]
    split
    · exact .inr (fullLine_newline _)
    · exact .inl rfl
  · have hcur : (r.current line c).line = line := hline
    obtain ⟨hreads, hfull'⟩ := hclean.reads_text hfull (elif_of_toIf hturn) hcur hkw
    rw [hv] at hreads
    -- No directive is absorbed as a blank line, so it is written, and read as it was edited.
    rcases ha.cases_of_keep hq hkeep with ⟨-, hb, -⟩ | ⟨hout, hlevel, -⟩
    · exact absurd (reads_blank hb) hreads.not_plain
    · rw [← hout] at hreads hfull'
      rw [← hr'] at hreads
      rw [← he.stack] at hturn' hsh hsame
      rw [← Stack.phase?_eq] at hturn'
      obtain ⟨st', hadv, hout', heven, hlx, hstack', hlevel', halt⟩ :=
        advance_kept hq ht he.even' he.level he.altered hfull'.oneLine hreads hturn' (hsh.imp_right .inr)
      refine ⟨.inr ⟨hfull'.ne_nil, st', hadv, hout', hst, heven, ?_, ?_, fun _ hlow => absurd hlevel hlow, hlevel',
        halt⟩, .inr hfull'⟩
      · rw [hstack', hphases, hsame]
      · rw [hlx, hlex, ite_self, hr']

theorem Echoes.complete (he : Echoes s r r') (h : r.Complete) : r'.Complete := by
  obtain ⟨hstack, hmode⟩ := h
  have hlex : r'.lex = r.lex := by rw [he.lex, hstack]; rfl
  have hnil : r'.machine.stack.phases = [] := by rw [he.stack, hstack]; rfl
  exact ⟨List.map_eq_nil_iff.mp hnil, by rw [hlex]; exact hmode⟩

/-! ## A last line without a newline -/

def EchoEnd (s : Settings) (t : Table) (st : Step) (r' : Run) : Prop :=
  (st.out = [] ∧ r'.Complete ∧ r'.altered = false) ∨
    ∃ st', r'.advance s t st.out = .ok st' ∧ st'.out = st.out ∧ lines st.out = [st.out] ∧ st'.run.Complete ∧
      st'.run.altered = false

theorem last_kept (hq : s.Quiet) (ht : t.NoneIgnored) (he : Echoes s r r') (hr' : r'.lex = {}) {text : Chars}
    {dodgy : Bool} {keyword : Nat} {lx : Lexical} (ho : OneLine text)
    (hreads : Reads s t s.passthroughText {} text (.directive .closing dodgy) keyword lx)
    (hopen : r'.machine.stack.phases = [.passMiddle] ∨ r'.machine.stack.phases = [.passElse])
    (hmode : Machine.endFault? lx.mode = none) :
    ∃ st', r'.advance s t text = .ok st' ∧ st'.out = text ∧ st'.run.Complete ∧ st'.run.altered = false := by
  have hclose : closeTurn r'.machine.stack.phase? dodgy = .ok ⟨true, .leave, none⟩ := by
    rw [Stack.phase?_eq]
    rcases hopen with h | h <;> rw [h] <;> cases dodgy <;> rfl
  rw [← hr'] at hreads
  obtain ⟨st', hadv, hout', -, hlx, hst', -, halt⟩ := advance_kept hq ht he.even' he.level he.altered ho hreads
    hclose (.inl (by rcases hopen with h | h <;> simp [h]))
  have hnil : st'.run.machine.stack.phases = [] := by
    rw [hst']
    rcases hopen with h | h <;> rw [h] <;> rfl
  exact ⟨st', hadv, hout', complete_of_phases hnil (by rw [hlx]; exact hmode), halt⟩

theorem last_dropped (hq : s.Quiet) (ht : t.NoneIgnored) (he : Echoes s r r') (hr' : r'.lex = {})
    (hnil : r'.machine.stack.phases = []) (ha : Advances s t r line c turn st) (hk : turn.keep = false) :
    EchoEnd s t st r' := by
  have hout := ha.out_of_drop hq hk
  split at hout
  · have hfull : FullLine st.out := hout ▸ fullLine_newline _
    have hreads : Reads s t s.passthroughText r'.lex st.out .plain 0 {} := by
      rw [hr', hout]
      exact reads_blank (by cases r.newlineAt line <;> rfl)
    obtain ⟨st', hadv, hout', -, hlx, hst', -, halt⟩ :=
      advance_kept hq ht he.even' he.level he.altered hfull.oneLine hreads he.plain_turn (.inr (.inl rfl))
    have hc : st'.run.Complete := complete_of_phases (by rw [hst', hnil]; rfl) (by rw [hlx]; rfl)
    exact .inr ⟨st', hadv, hout', by simpa [lines] using lines_full hfull [], hc, halt⟩
  · exact .inl ⟨hout, complete_of_phases hnil (by rw [hr']; rfl), he.altered⟩

theorem last_echo (hq : s.Quiet) (ht : t.NoneIgnored) (he : Echoes s r r') (hne : line ≠ []) (hn : '\n' ∉ line)
    (ha : Advances s t r line c turn st) (hk : c.kind.isDodgy = false) (hc : st.run.Complete) :
    EchoEnd s t st r' := by
  rcases kind_of_classify ha.classified with hp | ⟨d, dodgy, hd, -⟩
  · obtain ⟨hstep, hout⟩ := plain_echo hq ht he hne (.of_not_mem hn) ha hp
    rcases hstep with ⟨hnil, he'⟩ | ⟨hne', st', hadv, hout', he'⟩
    · exact .inl ⟨hnil, he'.complete hc, he'.altered⟩
    · exact .inr ⟨st', hadv, hout', lines_written hne hn (hout.resolve_left hne'), he'.complete hc, he'.altered⟩
  · rw [hd] at hk
    cases hk
    -- The only directive that can stand last is the `#endif` of the last open group.
    obtain ⟨rfl, -, g, hg⟩ := ha.closing hd hc
    obtain ⟨hr, dodgy, lx, hreads, hmode, -, hline⟩ := closing_reads t he.even hn ha hd hc.2
    have hr' : r'.lex = {} := by rw [he.lex, hr, ite_self]
    have hphases : r'.machine.stack.phases = echoes [g.phase] := by rw [he.stack, hg]; rfl
    have hturn : closeTurn (some g.phase) false = .ok turn := by
      have hturn := ha.turned
      rwa [hd, hg] at hturn
    rcases closeTurn_cases hturn with ⟨hp, rfl⟩ | ⟨hp, -, rfl⟩
    · have hopen : r'.machine.stack.phases = [.passMiddle] ∨ r'.machine.stack.phases = [.passElse] := by
        rw [hphases]
        rcases hp with hp | hp | hp | ⟨hp, -⟩ <;> rw [hp] <;> simp [echoes, Phase.echo]
      rcases ha.cases_of_keep hq rfl with ⟨-, hb, -⟩ | ⟨hout, -⟩
      · exact absurd (reads_blank hb) hreads.not_plain
      · have hout : st.out = c.line := hout
        rw [← hout] at hreads hline
        have ho : OneLine st.out := by
          rcases hline with hline | hline
          · rw [hline]
            exact .of_not_mem hn
          · exact hline.oneLine
        obtain ⟨st', hadv, hout', hc', halt⟩ := last_kept hq ht he hr' ho hreads hopen hmode
        exact .inr ⟨st', hadv, hout', lines_written hne hn hline, hc', halt⟩
    · refine last_dropped hq ht he hr' ?_ ha rfl
      rw [hphases]
      rcases hp with hp | hp | hp | hp | hp <;> rw [hp] <;> rfl

/-! ## Whole texts -/

def Repeats (s : Settings) (t : Table) (r' : Run) (text : Chars) : Prop :=
  (r'.trace s t (lines text)).failure = none ∧ (r'.trace s t (lines text)).text = text ∧
    (r'.trace s t (lines text)).steps.getLast?.any (·.run.altered) = false

theorem repeats_nil (hq : s.Quiet) (hc : r'.Complete) (hn : r'.altered = false) : Repeats s t r' [] := by
  have hend : r'.trace s t (lines []) = _ := finish_of_complete hq.silent hc
  unfold Repeats
  rw [hend]
  exact ⟨rfl, rfl, hn⟩

theorem repeats_cons {st' : Step} {line text : Chars} (hl : lines (line ++ text) = line :: lines text)
    (hadv : r'.advance s t line = .ok st') (hout : st'.out = line) (h : Repeats s t st'.run text) :
    Repeats s t r' (line ++ text) := by
  unfold Repeats at h ⊢
  rw [hl, trace_of_advance hadv]
  obtain ⟨hf, ht, hn⟩ := h
  refine ⟨hf, ?_, ?_⟩
  · rw [text_cons, hout, ht]
  · obtain ⟨a, steps, hsteps⟩ := List.exists_cons_of_ne_nil (steps_ne_nil hf)
    rw [hsteps] at hn ⊢
    rw [List.getLast?_cons_cons]
    exact hn

theorem trace_echo (hq : s.Quiet) (ht : t.NoneIgnored) :
    ∀ {ls : List Chars} {r r' : Run}, Physical ls → Echoes s r r' → (r.trace s t ls).failure = none →
    (r.trace s t ls).steps.any (·.kind.isDodgy) = false →
    Repeats s t r' (r.trace s t ls).text
  | [], r, r', _, he, hf, _ => by
    have hc := complete_of_finish hf
    rw [text_of_complete hq.silent hc]
    exact repeats_nil hq (he.complete hc) he.altered
  | line :: ls, r, r', hp, he, hf, hd => by
    obtain ⟨st, c, turn, hadv, ha⟩ := advances_of_trace hq.silent hf
    rw [trace_of_advance hadv] at hf hd ⊢
    simp only [List.any_cons, Bool.or_eq_false_iff, ha.kind] at hd
    rw [text_cons]
    rcases hp with ⟨hfull, hp⟩ | ⟨rfl, hne, hn⟩
    · -- What is written for a whole line is nothing or a whole line, so that the second run reads it by itself.
      have hstep : EchoStep s t st r' ∧ (st.out = [] ∨ FullLine st.out) := by
        rcases kind_of_classify ha.classified with hk | ⟨d, dodgy, hk, -⟩
        · obtain ⟨hstep, hout⟩ := plain_echo hq ht he hfull.ne_nil hfull.oneLine ha hk
          refine ⟨hstep, ?_⟩
          rcases hout with hout | hout | hout
          · exact .inl hout
          · exact .inr (hout ▸ hfull)
          · exact .inr hout
        · have hclean : dodgy = false := by
            have := hd.1
            rwa [hk] at this
          subst hclean
          exact directive_echo hq ht he hfull ha hk
      -- If nothing was written, the second run stays where it is.
      rcases hstep with ⟨⟨hout, he'⟩ | ⟨hne, st', hadv', hout', he'⟩, hline⟩
      · rw [hout]
        exact trace_echo hq ht hp he' hf hd.2
      · have hfull' := hline.resolve_left hne
        exact repeats_cons (lines_full hfull' _) hadv' hout' (trace_echo hq ht hp he' hf hd.2)
    · have hc := complete_of_finish hf
      rw [text_of_complete hq.silent hc]
      -- A line without a newline is the last of the text, and what is written for it is the last one written.
      rcases last_echo hq ht he hne hn ha hd.1 hc with ⟨hout, hc', halt⟩ | ⟨st', hadv', hout', hline, hc', halt⟩
      · rw [hout]
        exact repeats_nil hq hc' halt
      · refine repeats_cons ?_ hadv' hout' (repeats_nil hq hc' halt)
        rw [List.append_nil]
        exact hline

end

/-! ## Sources -/

/-- What a run without dodgy directives writes is a text that the same run leaves as it is. -/
theorem resolve_idempotent (s : Settings) (symbols : List Symbol) (script source : Chars) (out : Resolved)
    (hs : ∀ x ∈ symbols, x.ignored = false) (hc : s.complement = false) (hd : s.debug = false)
    (hm : s.lineMarkers = false) (hl : s.symbolList = false ∧ s.symbolDepth = false)
    (h : resolve s symbols script source = .ok out)
    (hk : (traceSource s symbols script source).steps.any (·.kind.isDodgy) = false) :
    resolve s symbols script out.text = .ok ⟨out.text, false⟩ := by
  have hq : s.Quiet := ⟨hc, hd, hm, hl.1, hl.2⟩
  obtain ⟨t, hv, hb, hres⟩ := resolve_eq_ok_iff.mp h
  obtain ⟨hf, rfl⟩ := resolved_eq_ok_iff.mp hres
  rw [traceSource_of_table hv hb] at hk
  have ht := noneIgnored_buildTable hs hb
  have heven : Run.Even s {} := ⟨by simp, fun _ => rfl⟩
  have hecho : Echoes s {} {} := ⟨heven, heven, rfl, rfl, fun _ _ => rfl, rfl, rfl⟩
  obtain ⟨hf', htext, halt⟩ := trace_echo hq ht (physical_lines source) hecho hf hk
  refine resolve_eq_ok_iff.mpr ⟨t, hv, hb, resolved_eq_ok_iff.mpr ⟨hf', ?_⟩⟩
  rw [halt, htext]

/-- An `#ifdef` that is decided and one that is not. -/
theorem resolve_idempotent_ifdefs :
    resolve {} [⟨"A", some "1", false⟩] [] "#ifdef B\n#endif\n".toList =
      .ok ⟨"#ifdef B\n#endif\n".toList, false⟩ :=
  resolve_idempotent {} [⟨"A", some "1", false⟩] [] "#ifdef A\n#else\n#endif\n#ifdef B\n#endif\n".toList
    ⟨"#ifdef B\n#endif\n".toList, true⟩ (by simp) rfl rfl rfl ⟨rfl, rfl⟩ (by cbv) (by cbv)

end CondResolve
