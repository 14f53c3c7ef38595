import CondResolve.Proofs.Climbing
import CondResolve.Proofs.Shaping
import CondResolve.Proofs.Table

/-!
# A text inside a group

A text comes to the same in a branch that is written as it does by itself, and to nothing in a branch that is
dropped: a run inside the branch goes along with a run outside all groups. `resolve_ifdef`: a group around a whole
text that asks whether a symbol is defined is left alone, or leaves the text, or leaves nothing.
-/

namespace CondResolve

/-! ## Groups inside a branch -/

/-- The phases of a text's groups if the text stands in a branch in phase `p`. -/
def Phase.around (p : Phase) (ps : List Phase) : List Phase := (if p.drops then ps.map .muted else ps) ++ [p]

def Truth.branch : Truth → Phase
  | .yes => .truePrefix
  | .no => .falsePrefix
  | .unknown => .passMiddle

section
variable {permit : Bool} {p q : Phase} {ps : List Phase} {k : LineKind} {d : Directive} {x : Truth} {turn : Turn}

theorem Phase.around_ne_nil (p : Phase) (ps : List Phase) : p.around ps ≠ [] := by simp [Phase.around]

theorem Phase.dropping_around (hp : p.drops = true) (ps : List Phase) : dropping (p.around ps).head? = true := by
  cases ps with
  | nil =>
    simp only [Phase.around, hp, if_true, List.map_nil, List.nil_append]
    exact hp
  | cons q ps =>
    simp only [Phase.around, hp, if_true, List.map_cons, List.cons_append, List.head?_cons, dropping]
    cases q <;> rfl

theorem turn_written (hp : p.drops = false) (h : k.turn permit ps.head? = .ok turn) :
    k.turn permit (p.around ps).head? = .ok turn ∧
      turn.shift.phases (p.around ps) = p.around (turn.shift.phases ps) := by
  have haround : ∀ qs, p.around qs = qs ++ [p] := by
    intro qs
    simp [Phase.around, hp]
  rw [haround, haround]
  cases ps with
  | cons q ps =>
    refine ⟨h, ?_⟩
    cases turn.shift <;> rfl
  | nil =>
    have hnone : dropping (some p) = dropping none := hp
    cases k with
    | plain =>
      cases h
      exact ⟨by simp [LineKind.turn, hnone], rfl⟩
    | eof => cases h
    | unevaluable => cases h
    | directive d dodgy =>
      have hopen : ∀ {x : Truth} {ignored : Bool}, openTurn permit none x ignored dodgy = .ok turn →
          openTurn permit (some p) x ignored dodgy = .ok turn ∧
            turn.shift.phases [p] = turn.shift.phases [] ++ [p] := by
        intro x ignored h
        refine ⟨?_, ?_⟩
        · unfold openTurn at h ⊢
          rwa [hnone]
        · rcases openTurn_cases h with ⟨-, rfl⟩ | ⟨-, -, rfl⟩ | ⟨-, -, -, rfl⟩ | ⟨-, -, -, rfl⟩ <;> rfl
      cases d with
      | guard b => exact hopen h
      | opening x => exact hopen h
      | elif x => cases h
      | otherwise => cases h
      | closing => cases h

theorem opening_hidden (hd : dropping ps.head? = true) {ignored : Bool} :
    openTurn permit ps.head? x ignored false = .ok ⟨false, .enter .falseTrailer ignored, none⟩ := by
  simp [openTurn, hd, dropAnd]

theorem elif_hidden (ps : List Phase) (h : elifTurn permit (some q) x false = .ok turn) :
    elifTurn permit (some q.muted) x false = .ok ⟨false, .branch .falseTrailer, none⟩ ∧
      ∃ q', turn.shift.phases (q :: ps) = q' :: ps ∧ q'.muted = .falseTrailer := by
  rcases elifTurn_cases h with ⟨rfl, -, rfl⟩ | ⟨rfl, -, -, rfl⟩ | ⟨rfl, -, -, rfl⟩ | ⟨rfl, -, rfl⟩ | ⟨rfl, -, rfl⟩ |
    ⟨rfl, -, -, rfl⟩ | ⟨rfl | rfl, -, -, rfl⟩ | ⟨rfl | rfl, -, -, rfl⟩ | ⟨rfl, -, rfl⟩ | ⟨rfl, rfl⟩ <;>
    exact ⟨by cases x <;> rfl, _, rfl, rfl⟩

theorem otherwise_hidden (ps : List Phase) (h : elseTurn (some q) false = .ok turn) :
    elseTurn (some q.muted) false = .ok ⟨false, .switch .falseElse, none⟩ ∧
      ∃ q', turn.shift.phases (q :: ps) = q' :: ps ∧ q'.muted = .falseElse := by
  rcases elseTurn_cases h with ⟨rfl | ⟨rfl, -⟩, rfl⟩ | ⟨rfl | ⟨rfl, -⟩, rfl⟩ | ⟨rfl, -, rfl⟩ | ⟨rfl, -, rfl⟩ <;>
    exact ⟨rfl, _, rfl, rfl⟩

theorem closing_hidden (ps : List Phase) (h : closeTurn (some q) false = .ok turn) :
    closeTurn (some q.muted) false = .ok ⟨false, .leave, none⟩ ∧ turn.shift.phases (q :: ps) = ps := by
  rcases closeTurn_cases h with ⟨rfl | rfl | rfl | ⟨rfl, -⟩, rfl⟩ | ⟨rfl | rfl | rfl | rfl | rfl, -, rfl⟩ <;>
    exact ⟨rfl, rfl⟩

theorem turn_hidden (hp : p.drops = true) (hk : k.isDodgy = false) (h : k.turn permit ps.head? = .ok turn) :
    ∃ turn', k.turn permit (p.around ps).head? = .ok turn' ∧ turn'.keep = false ∧
      turn'.shift.phases (p.around ps) = p.around (turn.shift.phases ps) := by
  have hdrop := Phase.dropping_around hp ps
  have haround : ∀ qs, p.around qs = qs.map .muted ++ [p] := by
    intro qs
    simp [Phase.around, hp]
  cases k with
  | plain =>
    cases h
    refine ⟨_, rfl, ?_, rfl⟩
    simp [hdrop]
  | eof => cases h
  | unevaluable => cases h
  | directive d dodgy =>
    have hclean : dodgy = false := hk
    subst hclean
    -- Every group that opens in dropped lines is dropped as a whole, as if its condition were false.
    have hopen : ∀ {x : Truth} {ignored : Bool}, openTurn permit ps.head? x ignored false = .ok turn →
        ∃ turn', openTurn permit (p.around ps).head? x ignored false = .ok turn' ∧ turn'.keep = false ∧
          turn'.shift.phases (p.around ps) = p.around (turn.shift.phases ps) := by
      intro x ignored h
      refine ⟨_, opening_hidden hdrop, rfl, ?_⟩
      simp only [haround]
      rcases openTurn_cases h with ⟨-, rfl⟩ | ⟨-, -, rfl⟩ | ⟨-, -, -, rfl⟩ | ⟨-, -, -, rfl⟩ <;> rfl
    simp only [haround] at hopen ⊢
    cases d with
    | guard b => exact hopen h
    | opening x => exact hopen h
    | elif x =>
      cases ps with
      | nil => cases h
      | cons q ps =>
        obtain ⟨hturn, q', hshift, hq'⟩ := elif_hidden ps h
        refine ⟨_, hturn, rfl, ?_⟩
        simp only [hshift, List.map_cons, hq']
        rfl
    | otherwise =>
      cases ps with
      | nil => cases h
      | cons q ps =>
        obtain ⟨hturn, q', hshift, hq'⟩ := otherwise_hidden ps h
        refine ⟨_, hturn, rfl, ?_⟩
        simp only [hshift, List.map_cons, hq']
        rfl
    | closing =>
      cases ps with
      | nil => cases h
      | cons q ps =>
        obtain ⟨hturn, hshift⟩ := closing_hidden ps h
        refine ⟨_, hturn, rfl, ?_⟩
        simp only [hshift]
        rfl

end

/-! ## A run inside a branch -/

/-- The run `r'` reads in a branch in phase `p` what `r` reads outside all groups. -/
structure Inside (s : Settings) (p : Phase) (nl : Newline) (r r' : Run) : Prop where
  even : r.Even s
  even' : r'.Even s
  stack : r'.machine.stack.phases = p.around r.machine.stack.phases
  lex : r'.lex = r.lex
  newline : r'.newline = some nl

section
variable {s : Settings} {t : Table} {p : Phase} {nl : Newline} {r r' : Run} {line : Chars} {c c' : Classified}
  {turn : Turn} {st : Step}

theorem Settings.Unadorned.quiet (hb : s.Unadorned) (hc : s.complement = false) : s.Quiet :=
  ⟨hc, hb.debug, hb.lineMarkers, hb.silent.symbolList, hb.silent.symbolDepth⟩

theorem newline_of_advance (h : r.advance s t line = .ok st) : st.run.newline = some (r.newlineAt line) := by
  obtain ⟨pending, hread, hstep⟩ := bind_eq_ok.mp h
  obtain ⟨c, -, hread⟩ := bind_eq_ok.mp hread
  cases hread
  obtain ⟨x, -, hstep⟩ := bind_eq_ok.mp hstep
  cases hstep
  rfl

theorem Turn.text_congr (turn : Turn) {x y : Current} (hl : x.line = y.line) (hk : x.keyword = y.keyword)
    (hn : x.newline = y.newline) : turn.text x = turn.text y := by
  unfold Turn.text
  cases turn.edit with
  | none => exact hl
  | some e => cases e <;> simp [Edit.apply, hl, hk, hn]

theorem Advances.out_unadorned (hb : s.Unadorned) (hc : s.complement = false) (ha : Advances s t r line c turn st) :
    st.out = if turn.keep then turn.text (r.current line c) else [] := by
  rw [ha.out, Run.written, flush_unadorned hb, hc, Bool.bne_false]

/-- A line that is not dodgy is read alike wherever it stands. -/
theorem Advances.reads (ha : Advances s t r line c turn st) (he : r.Even s) (hfull : FullLine line)
    (hk : c.kind.isDodgy = false) :
    ∃ keyword, Reads s t s.passthroughText r.lex line c.kind keyword st.run.lex := by
  rcases kind_of_classify ha.classified with hp | ⟨d, dodgy, hd, -⟩
  · have hreads := reads_plain t ha.classified hp
    rw [he.verbatim, ← ha.lex] at hreads
    rw [hp]
    exact ⟨0, hreads⟩
  · have hdodgy : dodgy = false := by rwa [hd] at hk
    subst hdodgy
    obtain ⟨lk, w, j, hclean, -, -, hlex⟩ := ha.clean he hfull hd
    have hreads := hclean.reads
    rw [he.verbatim] at hreads
    rw [hd, hlex, hclean.start]
    exact ⟨_, hreads⟩

theorem Inside.advance (hb : s.Unadorned) (hc : s.complement = false) (ht : t.NoneIgnored) (hi : Inside s p nl r r')
    (hfull : FullLine line) (hnl : r.newlineAt line = nl) (hadv : r.advance s t line = .ok st)
    (hk : st.kind.isDodgy = false) :
    ∃ st', r'.advance s t line = .ok st' ∧ Inside s p nl st.run st'.run ∧
      st'.out = if p.drops then [] else st.out := by
  have hq := hb.quiet hc
  obtain ⟨c, turn, ha⟩ := advances_of_advance hq.silent hadv
  rw [ha.kind] at hk
  obtain ⟨keyword, hreads⟩ := ha.reads hi.even hfull hk
  obtain ⟨-, hline, -, hkeyword, -⟩ := hreads.eq hi.even.verbatim ha.classified
  have hturned := ha.turned
  have hphases := Shift.phases_of_apply ha.stack
  rw [Stack.phase?_eq] at hturned
  -- Inside the branch the line has a turn of its own, which drops it or is the same as outside.
  have hturn : ∃ turn', c.kind.turn s.permitObfuscated (p.around r.machine.stack.phases).head? = .ok turn' ∧
      turn'.shift.phases (p.around r.machine.stack.phases) = p.around (turn.shift.phases r.machine.stack.phases) ∧
      if p.drops then turn'.keep = false else turn' = turn := by
    cases hp : p.drops with
    | true =>
      obtain ⟨turn', hturn', hkeep, hshift⟩ := turn_hidden hp hk hturned
      exact ⟨turn', hturn', hshift, hkeep⟩
    | false =>
      obtain ⟨hturn', hshift⟩ := turn_written hp hturned
      exact ⟨turn, hturn', hshift, rfl⟩
  obtain ⟨turn', hturn', hshift, hkeep⟩ := hturn
  rw [← hi.lex] at hreads
  rw [← hi.stack, ← Stack.phase?_eq] at hturn'
  have hopen : r'.machine.stack.phases ≠ [] := by
    rw [hi.stack]
    exact p.around_ne_nil _
  obtain ⟨c', st', hadv', ha', hline', hkeyword', -, heven', hlex', hphases'⟩ :=
    advance_reads hq ht hi.even' hfull.oneLine hreads hturn' (.inl hopen)
  have hnl' : r'.newlineAt line = nl := by simp [Run.newlineAt, hi.newline]
  refine ⟨st', hadv', ⟨hi.even.advances ht hfull.oneLine ha, heven', ?_, hlex', ?_⟩, ?_⟩
  · rw [hphases', hi.stack, hshift, hphases]
  · rw [newline_of_advance hadv', hnl']
  · rw [ha.out_unadorned hb hc, ha'.out_unadorned hb hc]
    cases hp : p.drops with
    | true =>
      rw [hp] at hkeep
      simp only [if_true] at hkeep ⊢
      simp [hkeep]
    | false =>
      rw [hp] at hkeep
      simp only [Bool.false_eq_true, if_false] at hkeep ⊢
      subst hkeep
      have htext : turn'.text (r'.current line c') = turn'.text (r.current line c) :=
        turn'.text_congr (hline'.trans hline.symm) (hkeyword'.trans hkeyword.symm) (hnl'.trans hnl.symm)
      rw [htext]

end

/-! ## The lines around a text -/

def testLine (negated : Bool) (name : Chars) (nl : Newline) : Chars :=
  (if negated then "#ifndef " else "#ifdef ").toList ++ name ++ nl.chars

def endifLine (nl : Newline) : Chars := "#endif".toList ++ nl.chars

def Table.test (t : Table) (negated : Bool) (name : String) : Truth :=
  match t.lookup name with
  | none => .unknown
  | some x => .ofBool (x.isDefined != negated)

def Truth.around (x : Truth) (opening closing text : Chars) : Chars :=
  match x with
  | .yes => text
  | .no => []
  | .unknown => opening ++ text ++ closing

section
variable {s : Settings} {t : Table} {verbatim : Bool} {nl : Newline} {r r' : Run} {w name : Chars} {x : Truth}

/-- A directive on a line of its own, as it is judged at its keyword. -/
theorem reads_hash (nl : Newline) {d : Directive} (hw : StartsWord w) (ho : OneLine w)
    (hj : ∀ v : View, v.verbatim = verbatim → ∃ names,
      judge s t v ⟨.code, .hash⟩ w = .ok (some ⟨d, ⟨.code, .hash⟩, nl.chars, names, []⟩)) :
    Reads s t verbatim {} ('#' :: w) (.directive d false) 1 {} := by
  have hat : AtKeyword verbatim ⟨.code, .hash⟩ w := ⟨rfl, by simp, ho⟩
  have hne : w ≠ [] := by
    obtain ⟨a, u, rfl, -⟩ := hw
    simp
  refine reads_clean (findKeyword_hash hw) hne (fun v hv => ?_) rfl rfl (by simp)
  obtain ⟨names, hj⟩ := hj v hv
  refine ⟨_, hj, finish_eq_ok_iff.mpr ⟨{}, [], ?_, .inl ⟨rfl, rfl, rfl⟩⟩⟩
  rw [hv]
  exact hat.skip_newline nl

theorem fullLine_endif (nl : Newline) : FullLine (endifLine nl) := fullLine_append (by decide) nl

theorem fullLine_test (hn : isSymbol name = true) (negated : Bool) (nl : Newline) :
    FullLine (testLine negated name nl) := by
  refine fullLine_append ?_ nl
  have hname := not_mem_of_isSymbol hn
  cases negated <;> simp [hname]

theorem endsSymbol_newline (nl : Newline) : endsSymbol nl.chars = true := by cases nl <;> rfl

theorem reads_endif : Reads s t verbatim {} (endifLine nl) (.directive .closing false) 1 {} := by
  have hword : StartsWord ("endif".toList ++ nl.chars) := ⟨'e', _, rfl, rfl, by decide⟩
  refine reads_hash nl hword ?_ fun v hv => ?_
  · exact (fullLine_endif nl).oneLine.tail
  · exact ⟨[], judge_endif (endsSymbol_newline nl)⟩

def testWord (negated : Bool) : Chars := (if negated then "ifndef" else "ifdef").toList

theorem testLine_eq (negated : Bool) (name : Chars) (nl : Newline) :
    testLine negated name nl = '#' :: (testWord negated ++ ' ' :: (name ++ nl.chars)) := by
  cases negated <;> rfl

theorem judge_test (s : Settings) (t : Table) (v : View) (lx : Lexical) (negated : Bool) (u : Chars) :
    judge s t v lx (testWord negated ++ ' ' :: u) = some <$> judgeTest s t v negated lx (' ' :: u) := by
  cases negated with
  | false =>
    have hifdef : afterWord? "ifdef".toList (testWord false ++ ' ' :: u) = some (' ' :: u) := rfl
    simp only [judge, hifdef]
  | true =>
    have hifdef : afterWord? "ifdef".toList (testWord true ++ ' ' :: u) = none := rfl
    have hifndef : afterWord? "ifndef".toList (testWord true ++ ' ' :: u) = some (' ' :: u) := rfl
    simp only [judge, hifdef, hifndef]

theorem testFor_eq (hl : s.listing = false) (ht : t.NoneIgnored) (negated : Bool) (name : String) :
    testFor s t negated name = .opening (t.test negated name) := by
  unfold testFor Table.test
  rw [hl]
  cases h : t.lookup name with
  | none => simp
  | some x =>
    have hx : x.ignored = false := ht x (List.mem_of_find?_eq_some h)
    simp [hx]

theorem judgeTest_name (hl : s.listing = false) (ht : t.NoneIgnored) (hn : isSymbol name = true) (v : View)
    {lx : Lexical} (hm : lx.mode = .code) (negated : Bool) (nl : Newline) :
    judgeTest s t v negated lx (' ' :: (name ++ nl.chars)) =
      .ok ⟨.opening (t.test negated (String.ofList name)), lx, nl.chars, [String.ofList name], []⟩ := by
  obtain ⟨hne, hchars⟩ := symbolChar_of_isSymbol hn
  have hskip : skip v.verbatim lx (' ' :: (name ++ nl.chars)) = .ok (lx, name ++ nl.chars) := by
    rw [skip_space (by rw [hm]; rfl)]
    exact skip_word_append hm hne hchars (by cases nl <;> simp [Newline.chars])
  have hsymbol : symbolOf (name ++ nl.chars) = name ∧ afterSymbol (name ++ nl.chars) = nl.chars :=
    takeWhile_append_ends (fun _ h => h) hchars (endsSymbol_newline nl)
  unfold judgeTest
  rw [hskip]
  simp only [bind, Except.bind, pure, Except.pure, hsymbol, List.isEmpty_iff, hne, if_false, testFor_eq hl ht]

theorem reads_test (hl : s.listing = false) (ht : t.NoneIgnored) (hn : isSymbol name = true) (negated : Bool) :
    Reads s t verbatim {} (testLine negated name nl)
      (.directive (.opening (t.test negated (String.ofList name))) false) 1 {} := by
  rw [testLine_eq]
  have hword : StartsWord (testWord negated ++ ' ' :: (name ++ nl.chars)) := by
    cases negated <;> exact ⟨'i', _, rfl, rfl, by decide⟩
  refine reads_hash nl hword ?_ fun v hv => ?_
  · have hfull := fullLine_test hn negated nl
    rw [testLine_eq] at hfull
    exact hfull.oneLine.tail
  · refine ⟨[String.ofList name], ?_⟩
    rw [judge_test, judgeTest_name hl ht hn v rfl]
    rfl

end

/-! ## A group around a text -/

section
variable {s : Settings} {t : Table} {nl : Newline} {r r' : Run} {name : Chars} {x : Truth}

theorem ofLine_append {w : Chars} (hw : ∀ c ∈ w.getLast?, c ≠ '\r') (nl : Newline) :
    Newline.ofLine (w ++ nl.chars) = nl := by
  have hsuffix : ['\r', '\n'] <:+ w ++ nl.chars ↔ nl = .crlf := by
    cases nl with
    | crlf => simp [Newline.chars]
    | lf =>
      simp only [Newline.chars, reduceCtorEq, iff_false]
      intro h
      rw [show ['\r', '\n'] = ['\r'] ++ ['\n'] from rfl, List.suffix_append_inj_of_length_eq rfl] at h
      obtain ⟨⟨u, rfl⟩, -⟩ := h
      exact hw '\r' (by simp) rfl
  unfold Newline.ofLine
  simp only [List.isSuffixOf_iff_suffix, hsuffix]
  cases nl <;> rfl

theorem ofLine_testLine (hn : isSymbol name = true) (negated : Bool) (nl : Newline) :
    Newline.ofLine (testLine negated name nl) = nl := by
  obtain ⟨hne, hchars⟩ := symbolChar_of_isSymbol hn
  refine ofLine_append ?_ nl
  intro c hc
  rw [List.getLast?_append_of_ne_nil _ hne] at hc
  rintro rfl
  cases hchars _ (List.mem_of_getLast? hc)

theorem opening_inside (hb : s.Unadorned) (hc : s.complement = false) (ht : t.NoneIgnored)
    (hn : isSymbol name = true) (negated : Bool) (nl : Newline) :
    ∃ st, Run.advance s t {} (testLine negated name nl) = .ok st ∧
      Inside s (t.test negated (String.ofList name)).branch nl {} st.run ∧
      st.out = (t.test negated (String.ofList name)).around (testLine negated name nl) [] [] := by
  have hq := hb.quiet hc
  have heven : Run.Even s {} := ⟨by simp, fun _ => rfl⟩
  have hfull := fullLine_test hn negated nl
  generalize hx : t.test negated (String.ofList name) = x
  have hreads : Reads s t s.passthroughText {} (testLine negated name nl) (.directive (.opening x) false) 1 {} :=
    hx ▸ reads_test hb.listing ht hn negated
  have hturn : openTurn s.permitObfuscated none x false false =
      .ok ⟨x = .unknown, .enter x.branch false, none⟩ := by
    cases x <;> rfl
  obtain ⟨c, st, hadv, ha, hline, -, -, heven', hlex, hphases⟩ :=
    advance_reads hq ht heven hfull.oneLine hreads hturn
    (.inr (.inr ⟨_, _, rfl⟩))
  refine ⟨st, hadv, ⟨heven, heven', ?_, hlex, ?_⟩, ?_⟩
  · rw [hphases]
    cases x <;> rfl
  · rw [newline_of_advance hadv]
    exact congrArg some (ofLine_testLine hn negated nl)
  · rw [ha.out_unadorned hb hc]
    have htext : (Run.current {} (testLine negated name nl) c).line = testLine negated name nl := hline
    cases x <;> simp [Turn.text, htext, Truth.around]

theorem closing_inside (hb : s.Unadorned) (hc : s.complement = false) (ht : t.NoneIgnored)
    (hi : Inside s x.branch nl r r') (hr : r.Complete) (hlex : r.lex = {}) :
    ∃ st', r'.advance s t (endifLine nl) = .ok st' ∧ st'.run.Complete ∧
      st'.out = x.around [] (endifLine nl) [] := by
  have hq := hb.quiet hc
  have hphases : r'.machine.stack.phases = [x.branch] := by
    rw [hi.stack, hr.1]
    cases x <;> rfl
  have hreads : Reads s t s.passthroughText r'.lex (endifLine nl) (.directive .closing false) 1 {} := by
    rw [hi.lex, hlex]
    exact reads_endif
  have hturn : closeTurn r'.machine.stack.phase? false = .ok ⟨x = .unknown, .leave, none⟩ := by
    rw [Stack.phase?_eq, hphases]
    cases x <;> rfl
  obtain ⟨c, st', hadv, ha, hline, -, -, -, hlex', hphases'⟩ :=
    advance_reads hq ht hi.even' (fullLine_endif nl).oneLine
    hreads hturn (.inl (by simp [hphases]))
  refine ⟨st', hadv, complete_of_phases ?_ (by rw [hlex']; rfl), ?_⟩
  · rw [hphases', hphases]
    rfl
  · rw [ha.out_unadorned hb hc]
    have htext : (r'.current (endifLine nl) c).line = endifLine nl := hline
    cases x <;> simp [Turn.text, htext, Truth.around]

theorem trace_inside (hb : s.Unadorned) (hc : s.complement = false) (ht : t.NoneIgnored) {ls : List Chars}
    (hls : ∀ l ∈ ls, FullLine l) (hi : Inside s x.branch nl r r') (hnl : ∀ l ∈ ls.head?, r.newlineAt l = nl)
    (hf : (r.trace s t ls).failure = none) (hd : (r.trace s t ls).steps.any (·.kind.isDodgy) = false)
    (hlast : ∀ st ∈ (r.trace s t ls).steps.getLast?, st.run.lex = {}) :
    (r'.trace s t (ls ++ [endifLine nl])).failure = none ∧
      (r'.trace s t (ls ++ [endifLine nl])).text = x.around [] (endifLine nl) (r.trace s t ls).text := by
  have hq := (hb.quiet hc).silent
  induction ls generalizing r r' with
  | nil =>
    have hr := complete_of_finish hf
    have hlex : r.lex = {} := by
      rw [Run.trace, finish_of_complete hq hr] at hlast
      exact hlast _ rfl
    -- The text is over, so the next line inside the branch is its `#endif`.
    obtain ⟨st', hadv, hc', hout⟩ := closing_inside hb hc ht hi hr hlex
    have hend : st'.run.trace s t [] = _ := finish_of_complete hq hc'
    rw [List.nil_append, trace_of_advance hadv, text_cons, text_of_complete hq hc', text_of_complete hq hr, hend,
      hout, List.append_nil]
    exact ⟨rfl, rfl⟩
  | cons line ls ih =>
    obtain ⟨st, hadv⟩ := advance_of_trace hf
    rw [trace_of_advance hadv] at hf hd hlast ⊢
    simp only [List.any_cons, Bool.or_eq_false_iff] at hd
    have hfull : FullLine line := hls line List.mem_cons_self
    obtain ⟨st', hadv', hi', hout⟩ := hi.advance hb hc ht hfull (hnl line rfl) hadv hd.1
    have hnl' : st.run.newline = some nl := by rw [newline_of_advance hadv, hnl line rfl]
    have hlast' : ∀ st' ∈ (st.run.trace s t ls).steps.getLast?, st'.run.lex = {} := by
      intro st' hst'
      refine hlast st' ?_
      obtain ⟨a, steps, hsteps⟩ := List.exists_cons_of_ne_nil (steps_ne_nil hf)
      rw [hsteps] at hst' ⊢
      rwa [List.getLast?_cons_cons]
    obtain ⟨hf', htext⟩ := ih (fun l hl => hls l (List.mem_cons_of_mem _ hl)) hi'
      (fun l _ => by simp [Run.newlineAt, hnl']) hf hd.2 hlast'
    rw [List.cons_append, trace_of_advance hadv', text_cons, text_cons, htext, hout]
    refine ⟨hf', ?_⟩
    cases x <;> simp [Truth.around, Truth.branch, Phase.drops]

end

/-! ## Following values leaves definedness alone -/

namespace Table

/-- The names of a table, and whether they are defined. -/
def outline (t : Table) : List (String × Bool) := t.map fun x => (x.name, x.isDefined)

theorem lookup_outline (t : Table) (name : String) :
    (t.lookup name).map Symbol.isDefined = (t.outline.find? (·.1 = name)).map (·.2) := by
  unfold lookup outline
  rw [List.find?_map, Option.map_map]
  rfl

theorem test_congr {t t' : Table} (h : t.outline = t'.outline) (negated : Bool) (name : String) :
    t.test negated name = t'.test negated name := by
  have hlookup : (t.lookup name).map Symbol.isDefined = (t'.lookup name).map Symbol.isDefined := by
    rw [lookup_outline, lookup_outline, h]
  unfold test
  generalize t.lookup name = x at hlookup
  generalize t'.lookup name = x' at hlookup
  cases x <;> cases x' <;> simp_all

theorem outline_settle (t : Table) : t.settle.1.outline = t.outline := map_settle (by simp [Symbol.isDefined]) t

end Table

/-! ## Sources -/

theorem full_of_physical {ls : List Chars} (hp : Physical ls) (hn : ls = [] ∨ lacksNewline ls.flatten = false) :
    ∀ l ∈ ls, FullLine l := by
  induction ls with
  | nil => simp
  | cons l ls ih =>
    rcases hp with ⟨hfull, hp⟩ | ⟨rfl, hne, hl⟩
    · refine List.forall_mem_cons.2 ⟨hfull, ih hp ?_⟩
      cases ls with
      | nil => exact .inl rfl
      | cons l' ls =>
        right
        have hne : (l' :: ls).flatten ≠ [] := by
          rcases hp with ⟨hfull', -⟩ | ⟨-, hne', -⟩
          · simp [hfull'.ne_nil]
          · simp [hne']
        have hlast := hn.resolve_left (by simp)
        rwa [List.flatten_cons, lacksNewline, List.getLast?_append_of_ne_nil _ hne] at hlast
    · exfalso
      have hlast := hn.resolve_left (by simp)
      simp only [lacksNewline, List.flatten_cons, List.flatten_nil, List.append_nil, ne_eq,
        decide_eq_false_iff_not, Decidable.not_not] at hlast
      exact hl (List.mem_of_getLast? hlast)

theorem lines_append_full {body l : Chars} (hbody : ∀ l ∈ lines body, FullLine l) (hl : FullLine l) :
    lines (body ++ l) = lines body ++ [l] := by
  have hphysical : Physical (lines body ++ [l]) := by
    generalize lines body = ls at hbody
    induction ls with
    | nil => exact .inl ⟨hl, trivial⟩
    | cons l' ls ih =>
      obtain ⟨hl', hls⟩ := List.forall_mem_cons.1 hbody
      exact .inl ⟨hl', ih hls⟩
  rw [← lines_flatten hphysical, List.flatten_append, flatten_lines, List.flatten_singleton]

/-- An `#ifdef` or `#ifndef` put around a body leaves what the body is resolved to, with the two lines or without,
or nothing, as the table knows the name. -/
theorem resolve_ifdef {s : Settings} {symbols : List Symbol} {script body name : Chars} {nl : Newline}
    {out : Resolved} (hb : s.Unadorned) (hc : s.complement = false) (hs : Table.NoneIgnored symbols)
    (hn : isSymbol name = true) (hbody : body = [] ∨ body.getLast? = some '\n')
    (hnl : ∀ l ∈ (lines body).head?, Newline.ofLine l = nl) (h : resolve s symbols script body = .ok out)
    (hd : (traceSource s symbols script body).steps.any (·.kind.isDodgy) = false)
    (hlast : ∀ st ∈ (traceSource s symbols script body).steps.getLast?, st.run.lex = {}) (negated : Bool) :
    ∃ altered, resolve s symbols script (testLine negated name nl ++ body ++ endifLine nl) =
      .ok ⟨((Table.readScript symbols s script).1.test negated (String.ofList name)).around
        (testLine negated name nl) (endifLine nl) out.text, altered⟩ := by
  obtain ⟨t, hv, hbuild, hres⟩ := resolve_eq_ok_iff.mp h
  obtain ⟨hf, rfl⟩ := resolved_eq_ok_iff.mp hres
  rw [traceSource_of_table hv hbuild] at hd hlast
  have ht := noneIgnored_buildTable hs hbuild
  have htest : (Table.readScript symbols s script).1.test negated (String.ofList name) =
      t.test negated (String.ofList name) := by
    unfold buildTable at hbuild
    split at hbuild
    · cases hbuild
    · rename_i t' hread
      cases hbuild
      rw [hread]
      exact (Table.test_congr t'.outline_settle _ _).symm
  have hfull : ∀ l ∈ lines body, FullLine l := by
    refine full_of_physical (physical_lines body) ?_
    rw [flatten_lines]
    refine hbody.imp (fun hnil => by rw [hnil]; rfl) fun hlast => ?_
    simp [lacksNewline, hlast]
  obtain ⟨st, hadv, hi, hout⟩ := opening_inside hb hc ht hn negated nl
  obtain ⟨hf', htext⟩ := trace_inside hb hc ht hfull hi hnl hf hd hlast
  have hlines : lines (testLine negated name nl ++ body ++ endifLine nl) =
      testLine negated name nl :: (lines body ++ [endifLine nl]) := by
    rw [List.append_assoc, lines_full (fullLine_test hn negated nl), lines_append_full hfull (fullLine_endif nl)]
  refine ⟨(Run.trace s t {} (testLine negated name nl :: (lines body ++ [endifLine nl]))).altered,
    resolve_eq_ok_iff.mpr ⟨t, hv, hbuild, resolved_eq_ok_iff.mpr ?_⟩⟩
  rw [hlines, trace_of_advance hadv, text_cons, htext, hout, htest]
  refine ⟨hf', ?_⟩
  congr 1
  cases t.test negated (String.ofList name) <;> simp [Truth.around]

def nestedGroups : Chars := "#ifdef A\r\n\r\n#else\n// a\n#endif\n#ifdef B\n/* b */\n#endif\n".toList

theorem resolve_ifdef_nestedGroups :
    resolve {} [⟨"A", some "1", false⟩, ⟨"S", none, false⟩] [] nestedGroups =
        .ok ⟨"\r\n#ifdef B\n/* b */\n#endif\n".toList, true⟩ ∧
      (∃ altered, resolve {} [⟨"A", some "1", false⟩, ⟨"S", none, false⟩] []
        (testLine true "S".toList .crlf ++ nestedGroups ++ endifLine .crlf) =
          .ok ⟨"\r\n#ifdef B\n/* b */\n#endif\n".toList, altered⟩) ∧
      ∃ altered, resolve {} [⟨"A", some "1", false⟩, ⟨"S", none, false⟩] []
        (testLine false "T".toList .crlf ++ nestedGroups ++ endifLine .crlf) =
          .ok ⟨"#ifdef T\r\n\r\n#ifdef B\n/* b */\n#endif\n#endif\r\n".toList, altered⟩ := by
  have hout : resolve {} [⟨"A", some "1", false⟩, ⟨"S", none, false⟩] [] nestedGroups =
      .ok ⟨"\r\n#ifdef B\n/* b */\n#endif\n".toList, true⟩ := by cbv
  have hd : (traceSource {} [⟨"A", some "1", false⟩, ⟨"S", none, false⟩] [] nestedGroups).steps.any
      (·.kind.isDodgy) = false := by cbv
  have hlast : (traceSource {} [⟨"A", some "1", false⟩, ⟨"S", none, false⟩] [] nestedGroups).steps.getLast?.map
      (·.run.lex) = some {} := by cbv
  have hfirst : (lines nestedGroups).head?.map Newline.ofLine = some .crlf := by cbv
  have hnl : ∀ l ∈ (lines nestedGroups).head?, Newline.ofLine l = .crlf := by
    intro l hl
    rw [Option.mem_def.1 hl] at hfirst
    exact Option.some.inj hfirst
  have hlast' : ∀ st ∈ (traceSource {} [⟨"A", some "1", false⟩, ⟨"S", none, false⟩] [] nestedGroups).steps.getLast?,
      st.run.lex = {} := by
    intro st hst
    rw [Option.mem_def.1 hst] at hlast
    exact Option.some.inj hlast
  have hs : Table.NoneIgnored [⟨"A", some "1", false⟩, ⟨"S", none, false⟩] := by simp [Table.NoneIgnored]
  refine ⟨hout, ?_, ?_⟩
  · have hS : isSymbol "S".toList = true := rfl
    exact resolve_ifdef ⟨rfl, rfl, rfl, rfl, rfl⟩ rfl hs hS (.inr rfl) hnl hout hd hlast' true
  · have hT : isSymbol "T".toList = true := rfl
    exact resolve_ifdef ⟨rfl, rfl, rfl, rfl, rfl⟩ rfl hs hT (.inr rfl) hnl hout hd hlast' false

end CondResolve
