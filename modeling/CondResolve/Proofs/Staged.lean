import Mathlib
import CondResolve.Proofs.Advance
import CondResolve.Proofs.Groups

/-!
# Resolving a text in two stages

A text is resolved with few symbols, and the result with more. Where both runs succeed on the text itself, the
second stage writes the lines that resolving with all symbols at once writes: dropped lines start and end in
code, and a directive that is left reads with more symbols as the one it was left from does. Only the last line
can go wrong, when it gets a newline behind a backslash.
-/

namespace CondResolve

/-- Only what the settings say on conditions and literals may be on. -/
structure Settings.Bare (s : Settings) : Prop extends s.Quiet where
  compressBlanks : s.compressBlanks = false
  blankPlaceholders : s.blankPlaceholders = false
  permitObfuscated : s.permitObfuscated = false

section
variable {s : Settings} {t t' : Table} {r r' r'' : Run} {line : Chars} {c c' : Classified} {turn turn' : Turn}
  {st st' : Step} {owed : List Chars}

theorem Advances.out_of_bare (hb : s.Bare) (ha : Advances s t r line c turn st) :
    st.out = if turn.keep then turn.text (r.current line c) else [] := by
  cases hk : turn.keep with
  | false => simp [ha.out_of_drop hb.toQuiet hk, hb.blankPlaceholders]
  | true =>
    have hw :
        (r.writing c turn).flush s (r.newlineAt line) (r.number + 1) true (turn.text (r.current line c)) = _ :=
      flush_write hb.toQuiet (by simp [hb.compressBlanks])
    rw [ha.out, Run.written, hk, hw]
    rfl

/-! ## Lines that say the same -/

def IsDirective (s : Settings) (t : Table) (d : Directive) (line : Chars) : Prop :=
  ∃ dodgy keyword lx, Reads s t s.passthroughText {} line (.directive d dodgy) keyword lx

def SameLine (s : Settings) (t : Table) (l l' : Chars) : Prop :=
  l = l' ∨ ∃ d, (d = .otherwise ∨ d = .closing) ∧ IsDirective s t d l ∧ IsDirective s t d l'

def stepLines (out : Chars) : List Chars := if out = [] then [] else [out]

theorem lines_step {out : Chars} (h : out = [] ∨ FullLine out) (text : Chars) :
    lines (out ++ text) = stepLines out ++ lines text := by
  rcases h with rfl | h
  · simp [stepLines]
  · simp [stepLines, h.ne_nil, lines_full h]

/-- What the full run writes at a step, after the lines `owed`, against what the second run writes. -/
def Settles (s : Settings) (t : Table) (owed out out' owed' : List Chars) : Prop :=
  ∃ now, owed ++ out = now ++ owed' ∧ List.Forall₂ (SameLine s t) out' now

theorem Settles.forall₂ {owed out out' owed' ls ls' : List Chars} (h : Settles s t owed out out' owed')
    (hr : List.Forall₂ (SameLine s t) ls' (owed' ++ ls)) :
    List.Forall₂ (SameLine s t) (out' ++ ls') (owed ++ (out ++ ls)) := by
  obtain ⟨now, he, hn⟩ := h
  rw [← List.append_assoc, he, List.append_assoc]
  exact List.rel_append hn hr

/-! ## One line -/

/-- The `#endif` that the full run has written and the second run has not. -/
def Owed (s : Settings) (t : Table) (b : Bool) (owed : List Chars) : Prop :=
  (b = false ∧ owed = []) ∨ (b = true ∧ ∃ l, owed = [l] ∧ IsDirective s t .closing l)

theorem Owed.eq_nil (h : Owed s t false owed) : owed = [] := by simpa [Owed] using h

theorem Owed.eq_closing (h : Owed s t true owed) : ∃ l, owed = [l] ∧ IsDirective s t .closing l := by
  simpa [Owed] using h

/-- The first run `r` and the full run `r'` stand before the same line, and the second run `r''` has read what
the first has written. -/
structure Stages (s : Settings) (t : Table) (r r' r'' : Run) (owed : List Chars) : Prop where
  even : r.Even s
  even' : r'.Even s
  even'' : r''.Even s
  meet : ∃ b, Meet r.machine.stack.phases r'.machine.stack.phases r''.machine.stack.phases b ∧ Owed s t b owed
  lex : r'.lex = r.lex
  lex' : r''.lex = if dropping r.machine.stack.phase? then {} else r.lex

theorem Settles.same (out : List Chars) : Settles s t [] out out [] :=
  ⟨out, by simp, List.forall₂_same.mpr fun _ _ => .inl rfl⟩

theorem Settles.none (owed : List Chars) : Settles s t owed [] [] owed := ⟨[], by simp, .nil⟩

theorem Stages.dropping_full (hs : Stages s t r r' r'' owed) (hd : dropping r.machine.stack.phase? = true) :
    dropping r'.machine.stack.phase? = true := by
  obtain ⟨b, hm, -⟩ := hs.meet
  rw [Stack.phase?_eq] at hd ⊢
  exact hm.dropping_full hd

theorem Stages.dropping_second (hs : Stages s t r r' r'' owed) (hd : dropping r.machine.stack.phase? = false) :
    dropping r''.machine.stack.phase? = dropping r'.machine.stack.phase? ∧ owed = [] ∧ r''.lex = r.lex := by
  obtain ⟨b, hm, ho⟩ := hs.meet
  have hlex := hs.lex'
  rw [hd] at hlex
  rw [Stack.phase?_eq] at hd
  obtain ⟨hr, rfl⟩ := hm.dropping_second hd
  rw [Stack.phase?_eq, Stack.phase?_eq]
  exact ⟨hr, ho.eq_nil, hlex⟩

def Shaped (line out : Chars) : Prop := out = [] ∨ out = line ∨ FullLine out

theorem shaped_of_text {out text : Chars} {keep : Bool} (h : out = if keep then text else [])
    (ht : text = line ∨ FullLine text) : Shaped line out := by
  cases keep with
  | false => exact .inl h
  | true => exact .inr (h ▸ ht)

def StageStep (s : Settings) (t : Table) (line : Chars) (st st' : Step) (r'' : Run) (owed : List Chars) : Prop :=
  Shaped line st.out ∧ Shaped line st'.out ∧
  ((st.out = [] ∧ ∃ owed', Settles s t owed (stepLines st'.out) [] owed' ∧ Stages s t st.run st'.run r'' owed') ∨
  (st.out ≠ [] ∧ ∃ owed' st'', r''.advance s t st.out = .ok st'' ∧ Shaped line st''.out ∧
    Settles s t owed (stepLines st'.out) (stepLines st''.out) owed' ∧ Stages s t st.run st'.run st''.run owed'))

theorem plain_stage (hb : s.Bare) (ht : t.NoneIgnored) (ht' : t'.NoneIgnored) (hs : Stages s t' r r' r'' owed)
    (hne : line ≠ []) (ho : OneLine line) (ha : Advances s t r line c turn st)
    (ha' : Advances s t' r' line c' turn' st') (hk : c.kind = .plain) : StageStep s t' line st st' r'' owed := by
  have hreads := reads_plain t' ha.classified hk
  rw [hs.even.verbatim] at hreads
  have hcl' := ha'.classified
  rw [hs.lex] at hcl'
  obtain ⟨hk', -, hlex', -⟩ := hreads.eq hs.even'.verbatim hcl'
  obtain ⟨hline, rfl, hstack⟩ := ha.plain hk
  obtain ⟨hline', rfl, hstack'⟩ := ha'.plain hk'
  have heven := hs.even.advances ht ho ha
  have heven' := hs.even'.advances ht' ho ha'
  have hlex : st'.run.lex = st.run.lex := by rw [ha'.lex, ha.lex, hlex']
  have hout := ha.out_of_bare hb
  have hout' := ha'.out_of_bare hb
  -- Lines that the first run drops the full run drops as well; others the second run meets as they are.
  cases hd : dropping r.machine.stack.phase? with
  | true =>
    have hd' := hs.dropping_full hd
    simp only [hd, hd'] at hout hout'
    refine ⟨.inl hout, .inl hout', .inl ⟨hout, owed, ?_, heven, heven', hs.even'', ?_, hlex, ?_⟩⟩
    · rw [hout']
      exact .none owed
    · rw [hstack, hstack']
      exact hs.meet
    · rw [hs.lex', hstack, hd]
      rfl
  | false =>
    obtain ⟨hd', rfl, hlex''⟩ := hs.dropping_second hd
    have hout : st.out = line := by
      simp only [hd, Bool.not_false, if_true] at hout
      exact hout.trans hline
    rw [← hlex''] at hreads
    rw [← hout] at hreads ho
    obtain ⟨c'', st'', hadv, ha'', hline'', -, -, heven'', hlx, hphases⟩ :=
      advance_reads hb.toQuiet ht' hs.even'' ho hreads rfl (.inr (.inl rfl))
    have hsame : st''.out = st'.out := by
      rw [hout', ha''.out_of_bare hb]
      simp only [hd']
      show (if _ then c''.line else []) = if _ then c'.line else []
      rw [hline'', hline', hout]
    have hshape : Shaped line st'.out := shaped_of_text hout' (.inl hline')
    refine ⟨.inr (.inl hout), hshape,
      .inr ⟨hout ▸ hne, [], st'', hadv, hsame ▸ hshape, ?_, heven, heven', heven'', ?_, hlex, ?_⟩⟩
    · rw [hsame]
      exact .same _
    · rw [hstack, hstack', hphases]
      exact hs.meet
    · rw [hlx, hstack, hd, ha.lex]
      rfl

theorem sameLine_of_sameText {d : Directive} {turn'' : Turn} {cur cur' cur'' : Current}
    (hline' : cur'.line = cur.line) (hkw' : cur'.keyword = cur.keyword) (hline'' : cur''.line = turn.text cur)
    (hkw'' : cur''.keyword = cur.keyword) (hr' : IsDirective s t (d.edited turn'.edit) (turn'.text cur'))
    (hr'' : IsDirective s t ((d.edited turn.edit).edited turn''.edit) (turn''.text cur''))
    (h : SameText d turn.edit turn'.edit turn''.edit) : SameLine s t (turn''.text cur'') (turn'.text cur') := by
  rcases h with ⟨hn, he, helse, hendif⟩ | ⟨hif, he', he''⟩ | ⟨hd', hd''⟩ | ⟨hd', hd''⟩
  · refine .inl ?_
    have hline'' : cur''.line = cur.line := by rw [hline'', Turn.text, hn]
    unfold Turn.text
    rw [he] at helse hendif ⊢
    cases hed : turn''.edit with
    | none => simp only [hline'', hline']
    | some e =>
      cases e with
      | toIf => simp only [Edit.apply, hline'', hline', hkw', hkw'']
      | toElse => exact absurd hed helse
      | toEndif => exact absurd hed hendif
  · refine .inl ?_
    unfold Turn.text at hline'' ⊢
    rw [hif] at hline''
    rw [he', he'']
    simp only [Edit.apply] at hline'' ⊢
    rw [hline'', hline', hkw']
  · rw [hd'] at hr'
    rw [hd''] at hr''
    exact .inr ⟨_, .inl rfl, hr'', hr'⟩
  · rw [hd'] at hr'
    rw [hd''] at hr''
    exact .inr ⟨_, .inr rfl, hr'', hr'⟩

theorem directive_of_full (hs : Stages s t' r r' r'' owed) (ha : Advances s t r line c turn st)
    (ha' : Advances s t' r' line c' turn' st') {d : Directive} (hk : c.kind = .directive d false)
    (hclean : c'.kind.isDodgy = false) : ∃ d', c'.kind = .directive d' false := by
  rcases kind_of_classify ha'.classified with hp | ⟨d', dodgy, hd, -⟩
  · have hreads := reads_plain t ha'.classified hp
    rw [hs.even'.verbatim, hs.lex] at hreads
    have hplain := (hreads.eq hs.even.verbatim ha.classified).1
    rw [hk] at hplain
    cases hplain
  · rw [hd] at hclean
    cases hclean
    exact ⟨d', hd⟩

theorem advance_directive (hb : s.Bare) (ht : t.NoneIgnored) (he : r.Even s) (hr : r.lex = {})
    (hfull : FullLine line) {d : Directive} {keyword : Nat}
    (hreads : Reads s t s.passthroughText {} line (.directive d false) keyword {})
    (hturn : d.turn s.permitObfuscated r.machine.stack.phases.head? false = .ok turn)
    (hsh : r.machine.stack.phases ≠ [] ∨ ∃ p b, turn.shift = .enter p b) :
    ∃ st cur, r.advance s t line = .ok st ∧ st.run.Even s ∧ st.run.lex = {} ∧
      st.run.machine.stack.phases = turn.shift.phases r.machine.stack.phases ∧ cur.line = line ∧
      cur.keyword = keyword ∧ st.out = (if turn.keep then turn.text cur else []) ∧ FullLine (turn.text cur) ∧
      IsDirective s t (d.edited turn.edit) (turn.text cur) := by
  rw [← Stack.phase?_eq] at hturn
  rw [← hr] at hreads
  obtain ⟨c, st, hadv, ha, hline, hkw, -, heven, hlx, hphases⟩ :=
    advance_reads hb.toQuiet ht he hfull.oneLine hreads hturn (hsh.imp_right .inr)
  have hk : c.kind = .directive d false := (hreads.eq he.verbatim ha.classified).1
  obtain ⟨lk, w, j, hc, -, hkw', -⟩ := ha.clean he hfull hk
  have hcur : (r.current line c).line = line := hline
  obtain ⟨htext, hfull'⟩ := hc.reads_text hfull (elif_of_toIf hturn) hcur hkw'
  rw [he.verbatim] at htext
  exact ⟨st, r.current line c, hadv, heven, hlx.trans hr, hphases, hcur, hkw, ha.out_of_bare hb, hfull', _, _, _,
    htext⟩

theorem settles_of_written {d : Directive} {b : Bool} {turn'' : Turn} {text' text'' : Chars}
    (hw : Written d b turn turn' turn'') (ho : Owed s t b owed) (hne' : text' ≠ []) (hne'' : text'' ≠ [])
    (hsame : SameText d turn.edit turn'.edit turn''.edit → SameLine s t text'' text')
    (hclose : (d.edited turn.edit).edited turn''.edit = .closing → IsDirective s t .closing text'') :
    Settles s t owed (stepLines (if turn'.keep then text' else []))
      (stepLines (if turn''.keep then text'' else [])) [] := by
  rcases hw with ⟨rfl, hk', hk''⟩ | ⟨rfl, hk', hk'', he⟩ | ⟨rfl, hk', hk'', hd⟩ <;> rw [hk', hk'']
  · obtain rfl := ho.eq_nil
    exact .same _
  · obtain rfl := ho.eq_nil
    refine ⟨[text'], by simp [stepLines, hne'], ?_⟩
    simpa [stepLines, hne''] using hsame he
  · obtain ⟨l, rfl, hl⟩ := ho.eq_closing
    have hsame : SameLine s t text'' l := .inr ⟨_, .inr rfl, hclose hd, hl⟩
    refine ⟨[l], by simp [stepLines], ?_⟩
    simpa [stepLines, hne''] using hsame

theorem directive_stage (hb : s.Bare) (ht : t.NoneIgnored) (ht' : t'.NoneIgnored) (hle : t.Le t')
    (hs : Stages s t' r r' r'' owed) (hfull : FullLine line) (ha : Advances s t r line c turn st)
    (ha' : Advances s t' r' line c' turn' st') {d : Directive} (hk : c.kind = .directive d false)
    (hclean : c'.kind.isDodgy = false) (hf : d.isDecided = true → conditionFaults s t' line = false) :
    StageStep s t' line st st' r'' owed := by
  obtain ⟨d', hk'⟩ := directive_of_full hs ha ha' hk hclean
  obtain ⟨lk, w, j, hc, hline, hkw, hlex⟩ := ha.clean hs.even hfull hk
  obtain ⟨lk', w', j', hc', hline', hkw', hlex'⟩ := ha'.clean hs.even' hfull hk'
  -- The full run reads the same directive, at the same place; only its condition may be decided now.
  obtain ⟨href, rfl⟩ := hc.refines hle ht ht' hb.listing hs.even.verbatim hs.even'.verbatim hc' hf
  have hr'' : r''.lex = {} := by rw [hs.lex', hc.start, ite_self]
  obtain ⟨hturn, hphases⟩ := ha.directive hk
  obtain ⟨hturn', hphases'⟩ := ha'.directive hk'
  obtain ⟨b, hm, howed⟩ := hs.meet
  have hfollows := directive_follows hm (ha.ne_guard ht hk) (ha'.ne_guard ht' hk') href hturn hturn'
  have hout := ha.out_of_bare hb
  have hout' := ha'.out_of_bare hb
  -- Whatever the runs do, the first and the full run go on after this line; only the second run is open.
  have stages : ∀ {r₂ : Run} {b : Bool} {owed : List Chars}, r₂.Even s → r₂.lex = {} →
      Meet (turn.shift.phases r.machine.stack.phases) (turn'.shift.phases r'.machine.stack.phases)
        r₂.machine.stack.phases b → Owed s t' b owed → Stages s t' st.run st'.run r₂ owed := by
    intro r₂ b owed heven hlx hm ho
    refine ⟨hs.even.advances ht hfull.oneLine ha, hs.even'.advances ht' hfull.oneLine ha', heven, ⟨b, ?_, ho⟩,
      ?_, ?_⟩
    · rw [hphases, hphases']
      exact hm
    · rw [hlex, hlex']
    · rw [hlx, hlex, ite_self]
  have hcur : (r.current line c).line = line := hline
  have hcur' : (r'.current line c').line = line := hline'
  obtain ⟨hreads', hfull'⟩ := hc'.reads_text hfull (elif_of_toIf hturn') hcur' hkw'
  rw [hs.even'.verbatim] at hreads'
  cases hfollows with
  | skip hkeep hkeep' hm =>
    rw [hkeep] at hout
    rw [hkeep'] at hout'
    refine ⟨.inl hout, .inl hout', .inl ⟨hout, owed, ?_, stages hs.even'' hr'' hm howed⟩⟩
    rw [hout']
    exact .none owed
  | ahead hkeep hkeep' hd hm =>
    obtain rfl := howed.eq_nil
    rw [hkeep] at hout
    rw [hkeep'] at hout'
    have hout' : st'.out = turn'.text (r'.current line c') := hout'
    rw [← hout'] at hreads' hfull'
    rw [hd] at hreads'
    -- An `#endif` that the second run is still to write for the full run.
    have howed : Owed s t' true [st'.out] := .inr ⟨rfl, _, rfl, _, _, _, hreads'⟩
    refine ⟨.inl hout, .inr (.inr hfull'), .inl ⟨hout, [st'.out], ?_, stages hs.even'' hr'' hm howed⟩⟩
    refine ⟨[], ?_, .nil⟩
    simp [stepLines, hfull'.ne_nil]
  | @read _ _ _ turn'' hkeep hturn'' hsh hm hw =>
    -- Where the first run makes an `#if` of an `#elif`, the full run has an `#elif` there too.
    have hedit : turn.edit = some .toIf → ∃ x, d' = .elif x := by
      intro he
      obtain ⟨x, rfl⟩ := elif_of_toIf hturn he
      have hform := href.1
      cases d' <;> cases hform
      exact ⟨_, rfl⟩
    obtain ⟨hreads, hfull''⟩ := hc'.reads_text hfull hedit hcur hkw
    rw [hkeep] at hout
    have hout : st.out = turn.text (r.current line c) := hout
    rw [← hout] at hreads hfull''
    rw [hs.even'.verbatim] at hreads
    obtain ⟨st'', cur'', hadv, heven'', hlx, hphases'', hline'', hkw'', hout'', hshape, hdir⟩ :=
      advance_directive hb ht' hs.even'' hr'' hfull'' hreads hturn'' hsh
    rw [← hphases''] at hm
    have hset : Settles s t' owed (stepLines st'.out) (stepLines st''.out) [] := by
      rw [hout', hout'']
      refine settles_of_written hw howed hfull'.ne_nil hshape.ne_nil (fun hsame => ?_) fun hd => hd ▸ hdir
      exact sameLine_of_sameText (hcur'.trans hcur.symm) (hkw'.trans hkw.symm) (hline''.trans hout) hkw''
        ⟨_, _, _, hreads'⟩ hdir hsame
    exact ⟨.inr (.inr hfull''), shaped_of_text hout' (.inr hfull'), .inr ⟨hfull''.ne_nil, [], st'', hadv,
      shaped_of_text hout'' (.inr hshape), hset, stages heven'' hlx hm (.inl ⟨rfl, rfl⟩)⟩⟩

/-! ## The end of the text -/

theorem Meet.of_nil {qs rs : List Phase} {b : Bool} (h : Meet [] qs rs b) : rs = [] ∧ b = false := by
  cases h
  exact ⟨rfl, rfl⟩

theorem Stages.complete (hs : Stages s t r r' r'' owed) (hc : r.Complete) : r''.Complete ∧ owed = [] := by
  obtain ⟨b, hm, ho⟩ := hs.meet
  have hlex := hs.lex'
  rw [hc.1] at hm hlex
  obtain ⟨hnil, rfl⟩ := Meet.of_nil hm
  refine ⟨complete_of_phases hnil ?_, ho.eq_nil⟩
  rw [hlex]
  exact hc.2

def Run.over (s : Settings) (t : Table) (r : Run) : List Chars → Except Failure Run
  | [] => .ok r
  | line :: ls => r.advance s t line >>= fun st => st.run.over s t ls

/-- The last line of the text is an `#endif` with a backslash before its newline, and it would end a group that
it cannot end when it is not on one line. -/
def EndRefused (s : Settings) (t : Table) (r : Run) (text : Chars) : Prop :=
  ∃ front last r' c, lines text = front ++ [last] ∧ r.over s t front = .ok r' ∧ Joins last ∧
    classify s t (r'.view s last) r'.lex last = .ok c ∧ c.kind = .directive .closing true ∧
    closeTurn r'.machine.stack.phase? true = .error .obfuscated

/-- The second stage goes wrong at the end, or it writes the lines that are still owed and those of `text'`. -/
def Agrees (s : Settings) (t : Table) (r : Run) (owed : List Chars) (text text' : Chars) : Prop :=
  EndRefused s t r text ∨ ((r.trace s t (lines text)).failure = none ∧
    List.Forall₂ (SameLine s t) (lines (r.trace s t (lines text)).text) (owed ++ lines text'))

theorem agrees_nil (hb : s.Bare) (hc : r.Complete) : Agrees s t r [] [] [] := by
  have hend : r.trace s t (lines []) = _ := finish_of_complete hb.toQuiet.silent hc
  refine .inr ⟨by rw [hend], ?_⟩
  rw [hend]
  exact .nil

theorem agrees_skip {out' text text' : Chars} {owed' : List Chars}
    (hl' : lines (out' ++ text') = stepLines out' ++ lines text')
    (hset : Settles s t owed (stepLines out') [] owed') (h : Agrees s t r owed' text text') :
    Agrees s t r owed text (out' ++ text') := by
  refine h.imp_right fun ⟨hf, hsame⟩ => ⟨hf, ?_⟩
  rw [hl']
  exact hset.forall₂ hsame

theorem agrees_cons {out out' text text' : Chars} {owed' : List Chars}
    (hl : lines (out ++ text) = out :: lines text)
    (hl' : lines (out' ++ text') = stepLines out' ++ lines text') (hadv : r.advance s t out = .ok st)
    (hl'' : lines (st.out ++ (st.run.trace s t (lines text)).text) =
      stepLines st.out ++ lines (st.run.trace s t (lines text)).text)
    (hset : Settles s t owed (stepLines out') (stepLines st.out) owed') (h : Agrees s t st.run owed' text text') :
    Agrees s t r owed (out ++ text) (out' ++ text') := by
  rcases h with ⟨front, last, r', c, hlines, hover, hrest⟩ | ⟨hf, hsame⟩
  · refine .inl ⟨out :: front, last, r', c, by rw [hl, hlines]; rfl, ?_, hrest⟩
    exact bind_eq_ok.mpr ⟨st, hadv, hover⟩
  · refine .inr ?_
    rw [hl, hl', trace_of_advance hadv, text_cons, hl'']
    exact ⟨hf, hset.forall₂ hsame⟩

theorem ne_nil_of_written {out : Chars} (hne : line ≠ []) (h : out = line ∨ FullLine out) : out ≠ [] := by
  rcases h with rfl | h
  · exact hne
  · exact h.ne_nil

theorem lines_shaped {out : Chars} (hne : line ≠ []) (hn : '\n' ∉ line) (h : Shaped line out) :
    lines out = stepLines out := by
  rcases h with rfl | h
  · rfl
  · rw [lines_written hne hn h, stepLines, if_neg (ne_nil_of_written hne h)]

theorem agrees_last_skip (hb : s.Bare) {out' : Chars} (hl' : lines out' = stepLines out') (hc : r.Complete)
    (hset : Settles s t owed (stepLines out') [] []) : Agrees s t r owed [] out' := by
  have h := agrees_skip (by simpa [lines] using hl') hset (agrees_nil (t := t) hb hc)
  rwa [List.append_nil] at h

theorem agrees_last (hb : s.Bare) {out out' : Chars} (hl : lines out = [out]) (hl' : lines out' = stepLines out')
    (hadv : r.advance s t out = .ok st) (hl'' : lines st.out = stepLines st.out) (hc : st.run.Complete)
    (hset : Settles s t owed (stepLines out') (stepLines st.out) []) : Agrees s t r owed out out' := by
  have htext : (st.run.trace s t (lines [])).text = [] := text_of_complete hb.toQuiet.silent hc
  have h : Agrees s t r owed (out ++ []) (out' ++ []) :=
    agrees_cons (by simpa [lines] using hl) (by simpa [lines] using hl') hadv
      (by rw [htext]; simpa [lines] using hl'') hset (agrees_nil hb hc)
  rwa [List.append_nil, List.append_nil] at h

theorem edit_of_closing {here : Option Phase} {dodgy : Bool} (h : closeTurn here dodgy = .ok turn) :
    turn.edit = none := by
  cases here with
  | none => cases h
  | some p => rcases closeTurn_cases h with ⟨-, rfl⟩ | ⟨-, -, rfl⟩ <;> rfl

theorem Advances.out_of_closing (hb : s.Bare) (ha : Advances s t r line c turn st) {here : Option Phase}
    {dodgy : Bool} (h : closeTurn here dodgy = .ok turn) : st.out = if turn.keep then c.line else [] := by
  rw [ha.out_of_bare hb, Turn.text, edit_of_closing h]
  rfl

/-- An `#endif` that only its newline can make dodgy closes its group, or it is refused because it is dodgy. -/
theorem closing_second (hb : s.Bare) (ht : t.NoneIgnored) (he : r.Even s) (hr : r.lex = {}) (ho : OneLine line)
    {dodgy : Bool} {keyword : Nat} {lx : Lexical}
    (hreads : Reads s t s.passthroughText {} line (.directive .closing dodgy) keyword lx)
    (hturn : closeTurn r.machine.stack.phases.head? false = .ok turn) :
    (∃ st, r.advance s t line = .ok st ∧ st.out = (if turn.keep then line else []) ∧ st.run.lex = lx ∧
      st.run.machine.stack.phases = turn.shift.phases r.machine.stack.phases) ∨
    ∃ c, classify s t (r.view s line) r.lex line = .ok c ∧ c.kind = .directive .closing true ∧ dodgy = true ∧
      closeTurn r.machine.stack.phase? true = .error .obfuscated := by
  rw [← hr] at hreads
  have hcases : closeTurn r.machine.stack.phase? dodgy = .ok turn ∨
      (dodgy = true ∧ closeTurn r.machine.stack.phase? true = .error .obfuscated) := by
    rw [Stack.phase?_eq]
    cases dodgy with
    | false => exact .inl hturn
    | true => exact (closeTurn_dodgy hturn).imp_right fun h => ⟨rfl, h⟩
  rcases hcases with hclose | ⟨rfl, hrefused⟩
  · have hopen : r.machine.stack.phases ≠ [] := by
      intro hnil
      rw [hnil] at hturn
      cases hturn
    obtain ⟨c, st, hadv, ha, hline, -, -, -, hlx, hphases⟩ :=
      advance_reads hb.toQuiet ht he ho hreads hclose (.inl hopen)
    refine .inl ⟨st, hadv, ?_, hlx, hphases⟩
    rw [ha.out_of_closing hb hclose, ← hline]
  · obtain ⟨names, out, hcl⟩ := hreads (r.view s line) he.verbatim
    exact .inr ⟨_, hcl, rfl, rfl, hrefused⟩

/-- The last `#endif`. The newline that it gets may make it dodgy for the second run. -/
theorem last_closing (hb : s.Bare) (ht' : t'.NoneIgnored) (hs : Stages s t' r r' r'' owed)
    (hne : line ≠ []) (hn : '\n' ∉ line) (ha : Advances s t r line c turn st)
    (ha' : Advances s t' r' line c' turn' st') (hk : c.kind = .directive .closing false)
    (hk' : c'.kind = .directive .closing false) (hc : st.run.Complete) (hc' : st'.run.Complete) :
    Agrees s t' r'' owed st.out st'.out := by
  obtain ⟨hr, dodgy, lx, hreads, hmode, hjoin, hline⟩ := closing_reads t' hs.even hn ha hk hc.2
  obtain ⟨-, dodgy', lx', hreads', -, -, hline'⟩ := closing_reads t' hs.even' hn ha' hk' hc'.2
  have hr'' : r''.lex = {} := by rw [hs.lex', hr, ite_self]
  obtain ⟨hturn, hphases⟩ := ha.directive hk
  obtain ⟨hturn', -⟩ := ha'.directive hk'
  have hturn : closeTurn r.machine.stack.phases.head? false = .ok turn := hturn
  have hturn' : closeTurn r'.machine.stack.phases.head? false = .ok turn' := hturn'
  have hout := ha.out_of_closing hb hturn
  have hout' := ha'.out_of_closing hb hturn'
  have hlines' := lines_shaped hne hn (shaped_of_text hout' hline')
  have hphases : turn.shift.phases r.machine.stack.phases = [] := by
    rw [← hphases, hc.1]
    rfl
  obtain ⟨b, hm, howed⟩ := hs.meet
  have hfollows : Follows s.permitObfuscated .closing _ _ _ b turn turn' := closing_follows hm hturn hturn'
  cases hfollows with
  | skip hkeep hkeep' hm =>
    rw [hphases] at hm
    obtain ⟨hnil, rfl⟩ := Meet.of_nil hm
    -- The first run drops it, so the second run has come to its end already.
    obtain rfl := howed.eq_nil
    rw [hkeep] at hout
    rw [hkeep'] at hout'
    rw [hout]
    refine agrees_last_skip hb hlines' (complete_of_phases hnil (by rw [hr'']; rfl)) ?_
    rw [hout']
    exact .none []
  | ahead _ _ _ hm =>
    rw [hphases] at hm
    cases (Meet.of_nil hm).2
  | @read _ _ _ turn'' hkeep hturn'' hsh hm hw =>
    rw [hphases] at hm
    rw [hkeep] at hout
    have hout : st.out = c.line := hout
    -- The second run reads what the first run has written, which may have got a newline.
    rw [edit_of_closing hturn] at hturn''
    have hturn'' : closeTurn r''.machine.stack.phases.head? false = .ok turn'' := hturn''
    rw [← hout] at hreads hjoin hline
    have hlines : lines st.out = [st.out] := lines_written hne hn hline
    have ho : OneLine st.out := hline.elim (fun h => h ▸ .of_not_mem hn) fun h => h.oneLine
    rcases closing_second hb ht' hs.even'' hr'' ho hreads hturn'' with
      ⟨st'', hadv, hout'', hlx, hphases''⟩ | ⟨c'', hcl, hk'', rfl, hrefused⟩
    · have hdir : IsDirective s t' .closing st.out := ⟨_, _, _, hreads⟩
      have hset : Settles s t' owed (stepLines st'.out) (stepLines st''.out) [] := by
        rw [hout', hout'']
        exact settles_of_written hw howed (ne_nil_of_written hne hline') (ne_nil_of_written hne hline)
          (fun _ => .inr ⟨_, .inr rfl, hdir, _, _, _, hreads'⟩) fun _ => hdir
      have hnil : st''.run.machine.stack.phases = [] := hphases''.trans (Meet.of_nil hm).1
      exact agrees_last hb hlines hlines' hadv (lines_shaped hne hn (shaped_of_text hout'' hline))
        (complete_of_phases hnil (by rw [hlx]; exact hmode)) hset
    · exact .inl ⟨[], st.out, r'', c'', hlines, rfl, hjoin rfl, hcl, hk'', hrefused⟩

theorem last_stage (hb : s.Bare) (ht : t.NoneIgnored) (ht' : t'.NoneIgnored) (hs : Stages s t' r r' r'' owed)
    (hne : line ≠ []) (hn : '\n' ∉ line) (ha : Advances s t r line c turn st)
    (ha' : Advances s t' r' line c' turn' st') (hk : c.kind.isDodgy = false) (hk' : c'.kind.isDodgy = false)
    (hc : st.run.Complete) (hc' : st'.run.Complete) : Agrees s t' r'' owed st.out st'.out := by
  rcases kind_of_classify ha.classified with hp | ⟨d, dodgy, hd, -⟩
  · obtain ⟨hshape, hshape', hstep⟩ := plain_stage hb ht ht' hs hne (.of_not_mem hn) ha ha' hp
    have hlines' := lines_shaped hne hn hshape'
    rcases hstep with ⟨hout, owed', hset, hs'⟩ | ⟨hout, owed', st'', hadv, hshape'', hset, hs'⟩
    · obtain ⟨hc'', rfl⟩ := hs'.complete hc
      rw [hout]
      exact agrees_last_skip hb hlines' hc'' hset
    · obtain ⟨hc'', rfl⟩ := hs'.complete hc
      exact agrees_last hb (lines_written hne hn (hshape.resolve_left hout)) hlines' hadv
        (lines_shaped hne hn hshape'') hc'' hset
  · rw [hd] at hk
    cases hk
    obtain ⟨d', hd'⟩ := directive_of_full hs ha ha' hd hk'
    obtain rfl := (ha.closing hd hc).1
    obtain rfl := (ha'.closing hd' hc').1
    exact last_closing hb ht' hs hne hn ha ha' hd hd' hc hc'

/-! ## Whole texts -/

def Evaluable (s : Settings) (t : Table) (ls : List Chars) (steps : List Step) : Prop :=
  ∀ x ∈ ls.zip steps, ∀ d dodgy, x.2.kind = .directive d dodgy → d.isDecided = true →
    conditionFaults s t x.1 = false

theorem shaped_full {out : Chars} (hf : FullLine line) (h : Shaped line out) : out = [] ∨ FullLine out := by
  rcases h with h | rfl | h
  · exact .inl h
  · exact .inr hf
  · exact .inr h

theorem trace_stage (hb : s.Bare) (ht : t.NoneIgnored) (ht' : t'.NoneIgnored) (hle : t.Le t') :
    ∀ {ls : List Chars} {r r' r'' : Run} {owed : List Chars}, Physical ls → Stages s t' r r' r'' owed →
    (r.trace s t ls).failure = none → (r'.trace s t' ls).failure = none →
    (r.trace s t ls).steps.any (·.kind.isDodgy) = false → (r'.trace s t' ls).steps.any (·.kind.isDodgy) = false →
    Evaluable s t' ls (r.trace s t ls).steps →
    Agrees s t' r'' owed (r.trace s t ls).text (r'.trace s t' ls).text
  | [], r, r', r'', owed, _, hs, hf, hf', _, _, _ => by
    -- At the end of the text the first run is outside all groups, and so is the second.
    have hc := complete_of_finish hf
    have hc' := complete_of_finish hf'
    rw [text_of_complete hb.toQuiet.silent hc, text_of_complete hb.toQuiet.silent hc']
    obtain ⟨hc'', rfl⟩ := hs.complete hc
    exact agrees_nil hb hc''
  | line :: ls, r, r', r'', owed, hp, hs, hf, hf', hd, hd', hev => by
    obtain ⟨st, c, turn, hadv, ha⟩ := advances_of_trace hb.toQuiet.silent hf
    obtain ⟨st', c', turn', hadv', ha'⟩ := advances_of_trace hb.toQuiet.silent hf'
    rw [trace_of_advance hadv] at hf hd hev ⊢
    rw [trace_of_advance hadv'] at hf' hd' ⊢
    simp only [List.any_cons, Bool.or_eq_false_iff, ha.kind] at hd
    simp only [List.any_cons, Bool.or_eq_false_iff, ha'.kind] at hd'
    rw [text_cons, text_cons]
    rcases hp with ⟨hfull, hp⟩ | ⟨rfl, hne, hn⟩
    · -- A line with its newline: one step of each run that takes part, and on from there.
      have hstep : StageStep s t' line st st' r'' owed := by
        rcases kind_of_classify ha.classified with hk | ⟨d, dodgy, hk, -⟩
        · exact plain_stage hb ht ht' hs hfull.ne_nil hfull.oneLine ha ha' hk
        · obtain rfl : dodgy = false := by
            have := hd.1
            rwa [hk] at this
          refine directive_stage hb ht ht' hle hs hfull ha ha' hk hd'.1 fun hdec => ?_
          exact hev (line, st) (by simp) d false (ha.kind.trans hk) hdec
      have hev : Evaluable s t' ls (st.run.trace s t ls).steps := fun x hx => hev x (List.mem_cons_of_mem _ hx)
      obtain ⟨hshape, hshape', hstep⟩ := hstep
      have hl' := lines_step (shaped_full hfull hshape') (st'.run.trace s t' ls).text
      -- The second run meets the line only if the first has written it.
      rcases hstep with ⟨hout, owed', hset, hs'⟩ | ⟨hout, owed', st'', hadv'', hshape'', hset, hs'⟩
      · rw [hout]
        exact agrees_skip hl' hset (trace_stage hb ht ht' hle hp hs' hf hf' hd.2 hd'.2 hev)
      · have hl := lines_full ((shaped_full hfull hshape).resolve_left hout) (st.run.trace s t ls).text
        exact agrees_cons hl hl' hadv'' (lines_step (shaped_full hfull hshape'') _) hset
          (trace_stage hb ht ht' hle hp hs' hf hf' hd.2 hd'.2 hev)
    · have hc := complete_of_finish hf
      have hc' := complete_of_finish hf'
      rw [text_of_complete hb.toQuiet.silent hc, text_of_complete hb.toQuiet.silent hc', List.append_nil,
        List.append_nil]
      exact last_stage hb ht ht' hs hne hn ha ha' hd.1 hd'.1 hc hc'

theorem trace_over {front ls : List Chars} (h : r.over s t front = .ok r') :
    (r.trace s t (front ++ ls)).failure = (r'.trace s t ls).failure := by
  induction front generalizing r with
  | nil =>
    cases h
    rfl
  | cons line front ih =>
    obtain ⟨st, hadv, hover⟩ := bind_eq_ok.mp h
    rw [List.cons_append, trace_of_advance hadv]
    exact ih hover

theorem EndRefused.failure (hb : s.Bare) {text : Chars} (h : EndRefused s t r text) :
    (r.trace s t (lines text)).failure ≠ none := by
  obtain ⟨front, last, r', c, hl, hover, -, hcl, hk, hclose⟩ := h
  intro hf
  rw [hl, trace_over hover] at hf
  obtain ⟨st, c', turn, hadv, ha⟩ := advances_of_trace hb.toQuiet.silent hf
  have hturn := ha.turned
  have hcl' := ha.classified
  rw [hcl] at hcl'
  cases hcl'
  rw [hk] at hturn
  have hturn : closeTurn r'.machine.stack.phase? true = .ok turn := hturn
  rw [hclose] at hturn
  cases hturn

theorem EndRefused.backslash {text : Chars} (h : EndRefused s t r text) : '\\' ∈ text := by
  obtain ⟨front, last, -, -, hl, -, ⟨p, k, rfl, hk⟩, -⟩ := h
  rw [← flatten_lines text, hl]
  rcases afterContinuation?_eq_some.mp hk with rfl | rfl <;> simp

end

/-! ## Sources -/

theorem buildTable_of_settled {s : Settings} {t : Table} (h : t.settle.1 = t) : buildTable s t [] = .ok t := by
  have hread : t.readScript s [] = (t, none) := rfl
  unfold buildTable
  rw [hread]
  simp only [h]

theorem resolve_of_settled {s : Settings} {t : Table} (hv : s.isValid = true) (h : t.settle.1 = t) {source : Chars}
    {out : Resolved} : resolve s t [] source = .ok out ↔ (Run.trace s t {} (lines source)).resolved = .ok out := by
  unfold resolve
  rw [traceSource_of_table hv (buildTable_of_settled h)]

/-- Resolving in two stages is resolving at once, unless the first stage puts a newline behind a backslash. -/
theorem resolve_staged (s : Settings) (t t' : Table) (source : Chars) (out out' : Resolved) (hb : s.Bare)
    (ht : t.NoneIgnored) (ht' : t'.NoneIgnored) (hset : t.settle.1 = t) (hset' : t'.settle.1 = t') (hle : t.Le t')
    (h : resolve s t [] source = .ok out) (h' : resolve s t' [] source = .ok out')
    (hd : (traceSource s t [] source).steps.any (·.kind.isDodgy) = false)
    (hd' : (traceSource s t' [] source).steps.any (·.kind.isDodgy) = false)
    (hev : Evaluable s t' (lines source) (traceSource s t [] source).steps) :
    (∃ out'', resolve s t' [] out.text = .ok out'' ∧
      List.Forall₂ (SameLine s t') (lines out''.text) (lines out'.text)) ↔ ¬EndRefused s t' {} out.text := by
  have hv : s.isValid = true := by simp [Settings.isValid, hb.compressBlanks]
  rw [traceSource_of_table hv (buildTable_of_settled hset)] at hd hev
  rw [traceSource_of_table hv (buildTable_of_settled hset')] at hd'
  obtain ⟨hf, rfl⟩ := resolved_eq_ok_iff.mp ((resolve_of_settled hv hset).mp h)
  obtain ⟨hf', rfl⟩ := resolved_eq_ok_iff.mp ((resolve_of_settled hv hset').mp h')
  constructor
  · rintro ⟨out'', h'', -⟩ hrefused
    exact hrefused.failure hb (resolved_eq_ok_iff.mp ((resolve_of_settled hv hset').mp h'')).1
  · intro hnot
    have heven : Run.Even s {} := ⟨by simp, fun _ => rfl⟩
    have hstages : Stages s t' {} {} {} [] := ⟨heven, heven, heven, ⟨false, .nil, .inl ⟨rfl, rfl⟩⟩, rfl, rfl⟩
    rcases trace_stage hb ht ht' hle (physical_lines source) hstages hf hf' hd hd' hev with hrefused | ⟨hf'', hsame⟩
    · exact absurd hrefused hnot
    · exact ⟨_, (resolve_of_settled hv hset').mpr (resolved_eq_ok_iff.mpr ⟨hf'', rfl⟩), hsame⟩

theorem Evaluable.of_all {s : Settings} {t : Table} {ls : List Chars} {steps : List Step}
    (h : ls.all (fun l => !conditionFaults s t l) = true) : Evaluable s t ls steps := by
  intro x hx _ _ _ _
  have hx : x.1 ∈ ls := (List.of_mem_zip hx).1
  simpa using List.all_eq_true.mp h _ hx

/-- One group is decided by the first stage, one by the second, and one is left. -/
theorem resolve_staged_ifdefs :
    ∃ out'', resolve {} [⟨"A", some "1", false⟩, ⟨"B", some "1", false⟩] []
        "#ifdef B\n#endif\n#ifdef C\n#endif\n".toList = .ok out'' ∧
      List.Forall₂ (SameLine {} [⟨"A", some "1", false⟩, ⟨"B", some "1", false⟩]) (lines out''.text)
        (lines "#ifdef C\n#endif\n".toList) := by
  have hle : Table.Le [⟨"A", some "1", false⟩] ([⟨"A", some "1", false⟩] ++ [⟨"B", some "1", false⟩]) := .append _ _
  refine (resolve_staged {} [⟨"A", some "1", false⟩] [⟨"A", some "1", false⟩, ⟨"B", some "1", false⟩]
    "#ifdef A\n#ifdef B\n#endif\n#endif\n#ifdef C\n#endif\n".toList
    ⟨"#ifdef B\n#endif\n#ifdef C\n#endif\n".toList, true⟩ ⟨"#ifdef C\n#endif\n".toList, true⟩
    ⟨⟨rfl, rfl, rfl, rfl, rfl⟩, rfl, rfl, rfl⟩ (by simp [Table.NoneIgnored]) (by simp [Table.NoneIgnored]) (by cbv)
    (by cbv) hle (by cbv) (by cbv) (by cbv) (by cbv) (.of_all (by cbv))).mpr fun hrefused => ?_
  exact absurd hrefused.backslash (by decide)

end CondResolve
