import CondResolve.Proofs.Comments
import CondResolve.Proofs.Grammar

/-!
# Directives that scan as they were read

The classifier stops at words and operators where a scan of the line goes from one code character to the next. They
come to the same end, unless the classifier is sent back in a comment or literal, or passes a word that ends in the
`R` of a raw literal. `rescans_of_plainly` says so of the lines that a run keeps, and `modes_agree_iff` of a text
of such lines that it scans as it was read unless the run cuts a comment or literal.
-/

namespace CondResolve

/-- A scan of the line from the cursor on ends in the mode `m`. -/
def Scans (lx : Lexical) (cs : Chars) (m : Mode) : Prop := ∃ l, drain false lx cs = .ok ⟨m, l⟩

def rawQuote : Chars := ['R', '"', '(']

namespace Scans

variable {lx ly : Lexical} {cs r rest u w : Chars} {c : Char} {m : Mode}

theorem of_mode (h : Scans ly cs m) (hm : ly.mode = lx.mode) : Scans lx cs m := by
  obtain ⟨l, hd⟩ := h
  obtain ⟨l', hd'⟩ := drain_mode lx.line hd
  exact ⟨l', by rwa [hm] at hd'⟩

theorem skip (h : Scans ly rest m) (hs : CondResolve.skip false lx cs = .ok (ly, rest)) : Scans lx cs m := by
  obtain ⟨l, hd⟩ := h
  exact ⟨l, (drain_congr (hs.trans (skip_again hs).symm)).trans hd⟩

theorem past (h : Scans ly r m) (hs : CondResolve.skip false lx cs = .ok (ly, c :: r)) : Scans lx cs m := by
  obtain ⟨l, hd⟩ := h
  exact ⟨l, (drain_next hs).trans hd⟩

/-- Words make no difference, but for the one that ends in the `R` of a raw literal. -/
theorem word_iff (hm : lx.mode = .code) (hw : ∀ c ∈ w, isSymbolChar c = true)
    (hr : w.getLast? = some 'R' → ∀ u, rest ≠ '"' :: '(' :: u) : Scans lx (w ++ rest) m ↔ Scans lx rest m := by
  unfold Scans
  rw [drain_symbolChars hm hw hr]

theorem word (h : Scans lx rest m) (hm : lx.mode = .code) (hw : ∀ c ∈ w, isSymbolChar c = true)
    (hr : ¬ rawQuote <:+: w ++ rest) : Scans lx (w ++ rest) m := by
  refine (word_iff hm hw fun hl u hu => hr ?_).mpr h
  obtain ⟨v, rfl⟩ := List.getLast?_eq_some_iff.1 hl
  exact ⟨v, u, by simp [rawQuote, hu]⟩

theorem afterSymbol (h : Scans lx (afterSymbol cs) m) (hm : lx.mode = .code) (hr : ¬ rawQuote <:+: cs) :
    Scans lx cs m := by
  have hcs : symbolOf cs ++ CondResolve.afterSymbol cs = cs := List.takeWhile_append_dropWhile
  rw [← hcs] at hr ⊢
  exact h.word hm (List.all_eq_true.1 List.all_takeWhile) hr

theorem afterDigits (h : Scans lx (cs.dropWhile isDigit) m) (hm : lx.mode = .code) (hr : ¬ rawQuote <:+: cs) :
    Scans lx cs m := by
  have hcs : cs.takeWhile isDigit ++ cs.dropWhile isDigit = cs := List.takeWhile_append_dropWhile
  have hdigits : ∀ d ∈ cs.takeWhile isDigit, isDigit d = true := List.all_eq_true.1 List.all_takeWhile
  rw [← hcs] at hr ⊢
  exact h.word hm (fun d hd => isSymbolChar_of_isDigit (hdigits d hd)) hr

theorem space (h : Scans lx cs m) (hm : lx.mode = .code) : Scans lx (' ' :: cs) m := by
  unfold Scans
  rw [drain_congr (skip_space (by simp [hm, Mode.isSplit]))]
  exact h

theorem operator {op : BinaryOp} (h : Scans ly (rest.drop op.chars.length) m)
    (hs : CondResolve.skip false lx cs = .ok (ly, rest)) (hop : BinaryOp.ofChars? rest = some op) :
    Scans lx cs m := by
  have hm : ly.mode = .code := mode_of_skip_stop (fun h => by cases h) hs (by rintro rfl; cases hop)
  obtain ⟨r, rfl⟩ := BinaryOp.prefix_of_ofChars? hop
  rw [List.drop_left] at h
  obtain ⟨_, l⟩ := ly
  cases hm
  cases op with
  | or | and | eq | ne | le | ge | shiftLeft | shiftRight => exact past (past h (skip_stop rfl rfl)) hs
  | _ => exact past h hs

theorem closeArgs {depth : Nat} (h : Scans ly rest m) (hs : CondResolve.skip false lx cs = .ok (lx, cs))
    (hc : closeArgs false depth lx cs = .ok (ly, some rest)) : Scans lx cs m := by
  fun_induction CondResolve.closeArgs false depth lx cs with
  | case1 => cases hc
  | case2 => cases hc
  | case3 _ _ _ _ _ _ _ hnext =>
    cases hc
    exact past (h.skip hnext) hs
  | case4 _ _ _ _ _ _ _ hnext _ _ ih => exact past ((ih (skip_again hnext) hc).skip hnext) hs

end Scans

/-! ## Readers of conditions -/

/-- Reading from the cursor on gets to a rest of the text from which a scan ends as from the cursor. -/
def Reading.Scans (text : Chars) (lx : Lexical) (cs : Chars) (p : Reading) : Prop :=
  ∀ ly rest, p.next = .ok (ly, rest) → rest <:+ text ∧ ∀ m, CondResolve.Scans ly rest m → CondResolve.Scans lx cs m

namespace Reading.Scans

variable {text cs rest : Chars} {lx ly : Lexical} {p : Reading}

theorem halt (e : Halt) : (Reading.halt e).Scans text lx cs := fun _ _ h => by cases h

theorem done {code : List Instr} (hs : rest <:+ text)
    (h : ∀ m, CondResolve.Scans ly rest m → CondResolve.Scans lx cs m) :
    (Reading.done code ly rest).Scans text lx cs := by
  intro lz u he
  cases he
  exact ⟨hs, h⟩

theorem after {code : List Instr} (h : p.Scans text lx cs) : (p.after code).Scans text lx cs := h

theorem nested (h : p.Scans text lx cs) (calls : Nat) : (p.nested calls).Scans text lx cs := h

theorem trans (h : p.Scans text ly rest) (hs : ∀ m, CondResolve.Scans ly rest m → CondResolve.Scans lx cs m) :
    p.Scans text lx cs :=
  fun lz u he => ⟨(h lz u he).1, fun m hm => hs m ((h lz u he).2 m hm)⟩

theorem bind {k : Lexical → Chars → Reading} (h : p.Scans text lx cs)
    (hk : ∀ ly rest, p.next = .ok (ly, rest) → rest <:+ text → (k ly rest).Scans text ly rest) :
    (p.bind k).Scans text lx cs := by
  unfold Reading.bind
  split
  · rename_i e he
    intro ly rest hn
    rw [he] at hn
    cases hn
  · rename_i ly rest he
    obtain ⟨hs, hscan⟩ := h ly rest he
    exact ((hk ly rest he hs).trans hscan).after

end Reading.Scans

section
variable {text cs rest r u : Chars} {lx ly : Lexical} {p : Reading}

theorem fits_parsed (lx : Lexical) : lx.Fits false := fun h => by cases h

section
variable (hraw : ¬ rawQuote <:+: text) (hclosed : ∀ u, u <:+ text → ¬ Flaw.At false .unclosed u)

theorem scans_closeParen (hs : cs <:+ text) : (closeParen false lx cs).Scans text lx cs := by
  unfold closeParen
  split
  · exact .halt _
  · rename_i h
    have hr := ((List.suffix_cons ..).trans (suffix_of_skip h)).trans hs
    exact .done hr fun m hm => hm.past h
  · exact .halt _

include hraw in
theorem scans_afterSymbol (hs : cs <:+ text) (hm : cs ≠ [] → lx.mode = .code) {m : Mode}
    (h : Scans lx (afterSymbol cs) m) : Scans lx cs m := by
  cases cs with
  | nil => exact h
  | cons c r => exact h.afterSymbol (hm (by simp)) fun hi => hraw (hi.trans hs.isInfix)

include hraw in
theorem scans_definedName {paren : Bool} (hs : cs <:+ text) (hm : cs ≠ [] → lx.mode = .code) :
    (definedName false paren lx cs).Scans text lx cs := by
  have hafter : afterSymbol cs <:+ text := (suffix_afterSymbol cs).trans hs
  unfold definedName
  refine .after ?_
  split
  · exact .halt _
  · rename_i ly rest h
    have hrest : rest <:+ text := (suffix_of_skip h).trans hafter
    have hskip : ∀ m, Scans ly rest m → Scans lx cs m := fun m hscan =>
      scans_afterSymbol hraw hs hm (hscan.skip h)
    split
    · split
      · exact .done ((List.suffix_cons ..).trans hrest) fun m hscan => hskip m (hscan.past (skip_again h))
      · exact .halt _
    · exact .done hrest hskip

include hraw in
theorem scans_definedTest (hs : cs <:+ text) : (definedTest false lx cs).Scans text lx cs := by
  unfold definedTest
  split
  · exact .halt _
  · rename_i ly r h
    have hr : r <:+ text := ((List.suffix_cons ..).trans (suffix_of_skip h)).trans hs
    split
    · exact .halt _
    · rename_i lz rest h'
      have hm : rest ≠ [] → lz.mode = .code := mode_of_skip_stop (fits_parsed _) h'
      refine (scans_definedName hraw ((suffix_of_skip h').trans hr) hm).trans fun m hscan => ?_
      exact (hscan.skip h').past h
  · rename_i ly rest _ h
    have hm : rest ≠ [] → ly.mode = .code := mode_of_skip_stop (fits_parsed _) h
    exact (scans_definedName hraw ((suffix_of_skip h).trans hs) hm).trans fun m hscan => hscan.skip h

include hclosed in
/-- Arguments that are never closed send the cursor back, but only in code. -/
theorem scans_skipArgs (hs : cs <:+ text) (hm : lx.mode = .code) (h : skipArgs false lx cs = .ok (ly, rest))
    {m : Mode} (hscan : Scans ly rest m) : Scans lx cs m := by
  rcases skipArgs_cases h with hskip | ⟨lz, r, hskip, hclose⟩
  · exact hscan.skip hskip
  · have hmz : lz.mode = .code := mode_of_skip_stop (fits_parsed _) hskip (by simp)
    rcases hclose with hclose | ⟨hclose, rfl⟩
    · exact (hscan.closeArgs (skip_again hskip) hclose).skip hskip
    · have hcode : ly.mode = .code := Decidable.byContradiction fun hne =>
        hclosed _ ((suffix_of_skip hskip).trans hs) (.unclosed hmz hclose hne)
      exact hscan.of_mode (hcode.trans hm.symm)

include hraw hclosed in
theorem scans_atom (hs : cs <:+ text) (hm : lx.mode = .code) : (atom false lx cs).Scans text lx cs := by
  have hinfix : ¬ rawQuote <:+: cs := fun hi => hraw (hi.trans hs.isInfix)
  unfold atom
  split
  · exact .halt _
  · split
    · exact .done ((List.dropWhile_suffix _).trans hs) fun m hscan => hscan.afterDigits hm hinfix
    · split
      · rename_i hdef
        obtain ⟨hcs, -⟩ := afterWord?_eq_some.1 hdef
        rw [hcs] at hs ⊢
        refine (scans_definedTest hraw ((List.suffix_append ..).trans hs)).trans fun m hscan => ?_
        exact (Scans.word_iff hm symbolChar_defined fun h => absurd h (by decide)).mpr hscan
      · split
        · unfold symbolUse
          refine .after ?_
          have hr := (suffix_afterSymbol _).trans hs
          split
          · exact .halt _
          · rename_i ly rest h
            refine .done ((suffix_of_skipArgs h).trans hr) fun m hscan => ?_
            exact (scans_skipArgs hclosed hr hm h hscan).afterSymbol hm hinfix
        · exact .halt _

include hraw hclosed in
theorem Yields.scans {task : Task} (hy : Yields false task lx cs p) (hs : cs <:+ text) : p.Scans text lx cs := by
  induction hy with
  | unreadable => exact .halt _
  | missing => exact .halt _
  | unary hskip _ _ ih =>
    have hr := ((List.suffix_cons ..).trans (suffix_of_skip hskip)).trans hs
    refine (((ih hr).nested _).bind fun ly rest _ hrest => ?_).trans fun m hscan => hscan.past hskip
    exact .done hrest fun m hm => hm
  | paren hskip _ ih =>
    have hr := ((List.suffix_cons ..).trans (suffix_of_skip hskip)).trans hs
    refine (((ih hr).nested _).bind fun ly rest _ hrest => ?_).trans fun m hscan => hscan.past hskip
    exact scans_closeParen hrest
  | atom hskip =>
    have hm := mode_of_skip_stop (fits_parsed _) hskip (by simp)
    exact (scans_atom hraw hclosed ((suffix_of_skip hskip).trans hs) hm).trans fun m hscan => hscan.skip hskip
  | climb _ _ ih ihon => exact (ih hs).bind fun ly rest he hrest => ihon ly rest he hrest
  | tight => exact .done hs fun m hm => hm
  | unreadableOn => exact .halt _
  | stop _ hskip => exact .done ((suffix_of_skip hskip).trans hs) fun m hm => hm.skip hskip
  | @operator _ _ _ rest _ op _ _ _ hskip hop _ _ ih ihon =>
    have hr : rest.drop op.chars.length <:+ text := ((List.drop_suffix ..).trans (suffix_of_skip hskip)).trans hs
    refine ((ih hr).bind fun ly rest he hrest => ?_).trans fun m hscan => hscan.operator hskip hop
    exact (ihon ly rest he hrest).after

end

end

/-! ## Directives -/

/-- Nothing in the line sends the classifier back in a comment or literal or hides a raw literal from it: no word
ends in the `R` of one, arguments that are never closed come to their end in code, and so does a condition that
fails. -/
structure Plainly (s : Settings) (t : Table) (line : Chars) : Prop where
  unquoted : ¬ rawQuote <:+: line
  closed : ∀ u, u <:+ line → ¬ Flaw.At false .unclosed u
  evaluable : ∀ {lx lk w text f lf}, findKeyword false lx line = .ok (lk, w) →
    w = "if".toList ++ text ∨ w = "elif".toList ++ text →
    (evaluate s false (View.knowledge s t) lk text).result = .error (.fault f lf) → lf.mode = .code

section
variable {s : Settings} {t : Table} {v : View} {lk lx lx' : Lexical} {line w r : Chars} {c : Classified}
    {j : Judged} {d : Directive} {m : Mode}

theorem scans_of_skipLine (h : skipLine false lx line = .ok lx') : Scans lx line lx'.mode := by
  unfold skipLine at h
  split at h
  · rename_i hnil
    cases h
    rw [List.isEmpty_iff.mp hnil]
    exact ⟨lx.line, drain_done (skip_nil lx)⟩
  · have hscan : Scans { lx with line := .dirty } line lx'.mode := ⟨lx'.line, h⟩
    exact hscan.of_mode rfl

theorem scans_of_finish (hv : v.verbatim = false) (h : finish v j = .ok (lx', d)) :
    Scans j.lex j.rest lx'.mode := by
  obtain ⟨ly, rest, hskip, ⟨rfl, rfl, -⟩ | ⟨-, hline, -⟩⟩ := finish_eq_ok_iff.mp h
  · rw [hv] at hskip
    exact ⟨lx'.line, drain_done hskip⟩
  · rw [hv] at hskip hline
    exact (scans_of_skipLine hline).skip hskip

theorem scans_of_judgeCondition {form : Truth → Directive} (hv : v.verbatim = false) (hp : Plainly s t line)
    (hfind : findKeyword false lx line = .ok (lk, w)) (hw : w = "if".toList ++ r ∨ w = "elif".toList ++ r)
    (hr : r <:+ line) (hm : lk.mode = .code) (hj : judgeCondition s t v form lk r = .ok j)
    (h : Scans j.lex j.rest m) : Scans lk r m := by
  rcases judgeCondition_eq_ok hj with ⟨a, ly, rest, he, rfl⟩ | ⟨f, lf, he, rfl⟩
  · rw [hv] at he
    have hread : (climb false 0 lk r).Scans line lk r := (yields_read (.climb 0)).scans hp.unquoted hp.closed hr
    exact (hread ly rest (next_of_evaluate he)).2 m h
  · -- The cursor is back behind the keyword.
    rw [hv] at he
    exact h.of_mode ((hp.evaluable hfind hw he).trans hm.symm)

theorem Scans.keyword_iff {word : Chars} (hm : lk.mode = .code) (hw : word.all isSymbolChar = true)
    (hr : word.getLast? ≠ some 'R') : Scans lk (word ++ r) m ↔ Scans lk r m :=
  word_iff hm (List.all_eq_true.1 hw) fun h => absurd h hr

theorem scans_lineEnd (hm : lk.mode = .code) (nl : Newline) : Scans lk nl.chars .code :=
  ⟨.start, drain_done (skip_lineEnd hm nl)⟩

/-- A line scans from its keyword on as it was judged. -/
theorem scans_of_judge (hv : v.verbatim = false) (hp : Plainly s t line)
    (hfind : findKeyword false lx line = .ok (lk, w)) (hw : w ≠ []) (hm : lk.mode = .code)
    (hj : judge s t v lk w = .ok (some j)) (h : Scans j.lex j.rest m) : Scans lk w m := by
  have hsuf : ∀ {word r : Chars}, w = word ++ r → r <:+ line := by
    rintro word r rfl
    exact (List.suffix_append ..).trans (suffix_of_findKeyword hw hfind)
  rcases judge_cases hj with ⟨negated, r, hr, ht⟩ | ⟨r, hr, hc⟩ | ⟨r, hr, hc⟩ | ⟨r, hr, rfl⟩ | ⟨r, hr, -, rfl⟩
  · have hrest : r <:+ line := hr.elim hsuf hsuf
    have hscan : Scans lk r m := by
      obtain ⟨ly, rest, hskip, ⟨-, rfl⟩ | ⟨-, rfl⟩⟩ := judgeTest_eq_ok ht
      · rw [hv] at hskip
        exact h.skip hskip
      · rw [hv] at hskip
        have hname := (suffix_of_skip hskip).trans hrest
        exact (scans_afterSymbol hp.unquoted hname (mode_of_skip_stop (fits_parsed _) hskip) h).skip hskip
    rcases hr with rfl | rfl
    · exact (Scans.keyword_iff hm rfl (by decide)).mpr hscan
    · exact (Scans.keyword_iff hm rfl (by decide)).mpr hscan
  · have hscan := scans_of_judgeCondition hv hp hfind (.inl hr) (hsuf hr) hm hc h
    exact hr ▸ (Scans.keyword_iff hm rfl (by decide)).mpr hscan
  · have hscan := scans_of_judgeCondition hv hp hfind (.inr hr) (hsuf hr) hm hc h
    exact hr ▸ (Scans.keyword_iff hm rfl (by decide)).mpr hscan
  · exact hr ▸ (Scans.keyword_iff hm rfl (by decide)).mpr h
  · exact hr ▸ (Scans.keyword_iff hm rfl (by decide)).mpr h

theorem mode_of_settleLine (was : Bool) (keyword : Nat) :
    (settleLine s v was keyword line j lx' d).lex.mode = lx'.mode := by
  simp only [settleLine]
  split <;> split <;> rfl

theorem scans_of_classify (hv : v.verbatim = false) (hp : Plainly s t line) (ho : OneLine line)
    (h : classify s t v lx line = .ok c) {dodgy : Bool} (hk : c.kind = .directive d dodgy)
    (hfind : findKeyword false lx line = .ok (lk, w)) (hw : w ≠ []) : lk.mode = .code ∧ Scans lk w c.lex.mode := by
  obtain ⟨lk', w', hfind', hc⟩ := classify_eq_ok_iff.mp h
  rw [hv] at hfind'
  cases hfind.symm.trans hfind'
  have hm : lk.mode = .code := (AtKeyword.of_findKeyword ho (fits_parsed lx) hw hfind).1.mode
  refine ⟨hm, ?_⟩
  rcases hc with ⟨-, rfl⟩ | ⟨-, -, -, _, -, rfl⟩ | ⟨-, j, lx', d', hj, hfin, rfl⟩
  · cases hk
  · cases hk
  · rw [mode_of_settleLine]
    exact scans_of_judge hv hp hfind hw hm hj (scans_of_finish hv hfin)

theorem rescans_of_scans {k : Kept} (hw : w ≠ [])
    (hfind : findKeyword false ⟨k.before, .start⟩ k.text = .ok (lk, w)) (h : Scans lk w k.after) :
    k.Rescans := by
  obtain ⟨ly, r, hs, -, hk⟩ := findKeyword_eq_ok hw hfind
  have hne : k.text ≠ [] := by
    intro hnil
    rw [hnil, skip_nil] at hs
    cases hs
  have hhash : Scans ly r k.after := (h.skip hk).of_mode rfl
  obtain ⟨l, hd⟩ : Scans ⟨k.before, .dirty⟩ k.text k.after := (hhash.past hs).of_mode rfl
  rw [Kept.Rescans, skipLine, if_neg (by simpa using hne), hd]
  rfl

end

/-! ## Lines that a run keeps -/

section
variable {s : Settings} {t : Table} {r : Run} {line : Chars} {c : Classified} {turn : Turn} {st : Step}

/-- An edit that leaves no condition is made to a line that shares no comment with others. -/
theorem clean_of_edit {permit dodgy : Bool} {here : Option Phase} {d : Directive} {e : Edit}
    (h : d.turn permit here dodgy = .ok turn) (he : turn.edit = some e) (hne : e ≠ .toIf) : dodgy = false := by
  cases here with
  | none =>
    cases d with
    | guard b => cases b <;> cases dodgy <;> cases permit <;> cases h <;> cases he
    | opening x => cases x <;> cases dodgy <;> cases permit <;> cases h <;> cases he
    | _ => cases h
  | some p =>
    cases dodgy with
    | false => rfl
    | true =>
      cases d with
      | guard b => cases p <;> cases b <;> cases permit <;> cases h <;> cases he
      | opening x => cases p <;> cases x <;> cases permit <;> cases h <;> cases he
      | elif x => cases p <;> cases x <;> cases permit <;> cases h <;> cases he <;> exact absurd rfl hne
      | otherwise => cases p <;> cases h <;> cases he
      | closing => cases p <;> cases h <;> cases he

/-- A directive that is kept scans as it was read, if it was read plainly. -/
theorem rescans_of_directive (hq : s.Quiet) (hp : s.passthroughText = false) (hb : s.blankPlaceholders = false)
    (he : r.Even s) (hfull : FullLine line) (hplain : Plainly s t line) (ha : Advances s t r line c turn st)
    {d : Directive} {dodgy : Bool} (hk : c.kind = .directive d dodgy) (hout : st.out ≠ []) :
    Kept.Rescans ⟨r.lex.mode, st.out, st.run.lex.mode⟩ := by
  have hv : (r.view s line).verbatim = false := he.verbatim.trans hp
  have htext : st.out = turn.text (r.current line c) := by
    rcases out_of_directive hq hb ha hk with ⟨-, hnil⟩ | ⟨-, htext, -⟩
    · exact absurd hnil hout
    · exact htext
  obtain ⟨p, w, lk, rfl, hfind, hw, hkw, helif, -, hline⟩ := keyword_of_classify ha.classified hk
  have hline : c.line = p ++ w := hline.resolve_right fun h => by simp [hfull.lacksNewline] at h
  have hne : w ≠ [] := by
    obtain ⟨a, w, rfl, -⟩ := hw
    simp
  rw [hv] at hfind
  obtain ⟨hm, hscan⟩ := scans_of_classify hv hplain hfull.oneLine ha.classified hk hfind hne
  have hlex : r.lex = ⟨r.lex.mode, .start⟩ := by
    rw [← (AtKeyword.of_findKeyword hfull.oneLine (fits_parsed _) hne hfind).2]
  have htake : (p ++ w).take p.length = p := List.take_left
  -- Whatever word stands at the keyword now, a scan of what follows it ends as the line was read.
  have rescans : ∀ w' : Chars, StartsWord w' → turn.text (r.current (p ++ w) c) = p ++ w' →
      Scans lk w' st.run.lex.mode → Kept.Rescans ⟨r.lex.mode, st.out, st.run.lex.mode⟩ := by
    intro w' hw' hedited hscan'
    have hfind' := findKeyword_word hw hw' hfind
    rw [hlex] at hfind'
    refine rescans_of_scans (k := ⟨r.lex.mode, st.out, st.run.lex.mode⟩) ?_ ?_ hscan'
    · obtain ⟨a, w', rfl, -⟩ := hw'
      simp
    · rw [htext, hedited]
      exact hfind'
  rw [← ha.lex] at hscan
  cases hed : turn.edit with
  | none => exact rescans w hw (by simp [Turn.text, hed, Run.current, hline]) hscan
  | some e =>
    have hturn := (ha.directive hk).1
    cases e with
    | toIf =>
      obtain ⟨x, rfl⟩ := elif_of_toIf hturn hed
      obtain ⟨u, rfl⟩ := helif x rfl
      refine rescans ("if".toList ++ ' ' :: ' ' :: u) ⟨'i', _, rfl, rfl, by decide⟩ ?_ ?_
      · simp [Turn.text, hed, Edit.apply, Run.current, hline, hkw]
      · rw [Scans.keyword_iff hm rfl (by decide)] at hscan ⊢
        exact (hscan.space hm).space hm
    | toElse =>
      cases clean_of_edit hturn hed (by decide)
      obtain ⟨-, -, -, -, -, -, hend⟩ := ha.clean he hfull hk
      refine rescans ("else".toList ++ (r.newlineAt (p ++ w)).chars) ⟨'e', _, rfl, rfl, by decide⟩ ?_ ?_
      · simp [Turn.text, hed, Edit.apply, Run.current, hline, hkw]
      · rw [hend]
        exact (Scans.keyword_iff hm rfl (by decide)).mpr (scans_lineEnd hm _)
    | toEndif =>
      cases clean_of_edit hturn hed (by decide)
      obtain ⟨-, -, -, -, -, -, hend⟩ := ha.clean he hfull hk
      refine rescans ("endif".toList ++ (r.newlineAt (p ++ w)).chars) ⟨'e', _, rfl, rfl, by decide⟩ ?_ ?_
      · simp [Turn.text, hed, Edit.apply, Run.current, hline, hkw]
      · rw [hend]
        exact (Scans.keyword_iff hm rfl (by decide)).mpr (scans_lineEnd hm _)

/-- A line that is kept scans as it was read, if it was read plainly. -/
theorem rescans_of_advances (hq : s.Quiet) (hp : s.passthroughText = false) (hb : s.blankPlaceholders = false)
    (he : r.Even s) (hfull : FullLine line) (hplain : Plainly s t line) (ha : Advances s t r line c turn st)
    (hout : st.out ≠ []) : Kept.Rescans ⟨r.lex.mode, st.out, st.run.lex.mode⟩ := by
  rcases kind_of_classify ha.classified with hk | ⟨d, dodgy, hk, -⟩
  · have hv : (r.view s line).verbatim = false := he.verbatim.trans hp
    rw [out_of_plain hq hb ha hk hout]
    obtain ⟨lk, w, hfind, ⟨rfl, -⟩ | ⟨hw, -, -, lx', hline, rfl⟩ | ⟨-, _, _, _, -, -, rfl⟩⟩ :=
      classify_eq_ok_iff.mp ha.classified
    · exact rescans_of_nil hv hfull.ne_nil ha hfind
    · rw [hv] at hfind hline
      obtain ⟨hat, hstart⟩ := AtKeyword.of_findKeyword hfull.oneLine (fits_parsed _) hw hfind
      have hlex : r.lex = ⟨r.lex.mode, .start⟩ := by rw [← hstart]
      rw [hlex] at hfind
      refine rescans_of_scans hw hfind ?_
      have hscan : Scans lk (afterSymbol w) lx'.mode := scans_of_skipLine hline
      rw [ha.lex]
      exact hscan.afterSymbol hat.mode fun hi =>
        hplain.unquoted (hi.trans (suffix_of_findKeyword hw hfind).isInfix)
    · cases hk
  · exact rescans_of_directive hq hp hb he hfull hplain ha hk hout

theorem rescans_of_plainly (hq : s.Quiet) (hp : s.passthroughText = false) (hb : s.blankPlaceholders = false)
    (ht : t.NoneIgnored) : ∀ {ls : List Chars} {r : Run}, Physical ls → r.Even s → (∀ line ∈ ls, Plainly s t line) →
    (r.trace s t ls).failure = none → ∀ k ∈ (kept r.lex.mode (r.trace s t ls).steps).dropLast, k.Rescans
  | [], r, _, _, _, hf => by
    have hend : r.trace s t [] = _ := finish_of_complete hq.silent (complete_of_finish hf)
    rw [hend]
    simp [kept]
  | line :: ls, r, hl, he, hplain, hf => by
    obtain ⟨st, c, turn, hadv, ha⟩ := advances_of_trace hq.silent hf
    rw [trace_of_advance hadv] at hf ⊢
    have hplain' : ∀ l ∈ ls, Plainly s t l := fun l hl => hplain l (List.mem_cons_of_mem line hl)
    have ih := rescans_of_plainly hq hp hb ht hl.tail (he.advances ht hl.oneLine ha) hplain' hf
    simp only [kept]
    split
    · exact ih
    · rename_i hout
      cases htail : kept st.run.lex.mode (st.run.trace s t ls).steps with
      | nil => simp
      | cons k ks =>
        rw [htail] at ih
        rw [List.dropLast_cons_cons, List.forall_mem_cons]
        refine ⟨?_, ih⟩
        rcases hl with ⟨hfull, -⟩ | ⟨rfl, -⟩
        · exact rescans_of_advances hq hp hb he hfull (hplain line List.mem_cons_self) ha hout
        · have hend : st.run.trace s t [] = _ := finish_of_complete hq.silent (complete_of_finish hf)
          rw [hend] at htail
          cases htail

end

/-- If its lines are read plainly, a source is written so that it scans as the run has read it, unless the run cuts
a comment or literal. -/
theorem modes_agree_iff {s : Settings} {symbols : List Symbol} {script source : Chars} {out : Resolved} {t : Table}
    (hq : s.Quiet) (hs : ∀ x ∈ symbols, x.ignored = false) (hp : s.passthroughText = false)
    (hb : s.blankPlaceholders = false) (ht : buildTable s symbols script = .ok t)
    (hplain : ∀ line ∈ lines source, Plainly s t line) (h : resolve s symbols script source = .ok out) :
    let steps := (traceSource s symbols script source).steps
    scanModes (.ok {}) (lines out.text) = (kept .code steps).map (fun k => .ok k.before) ↔
      cuts {} steps = false := by
  obtain ⟨t', hv, hbuild, hres⟩ := resolve_eq_ok_iff.mp h
  cases ht.symm.trans hbuild
  obtain ⟨hf, rfl⟩ := resolved_eq_ok_iff.mp hres
  have hnone := noneIgnored_buildTable hs ht
  have hj : Joined s {} .code := ⟨⟨by simp, fun _ => rfl⟩, trivial, rfl, fun _ _ => rfl⟩
  obtain ⟨hlines, hcuts⟩ := trace_joined hq hb hnone (physical_lines source) hj hf
  have hrescans := rescans_of_plainly hq hp hb hnone (physical_lines source) hj.even hplain hf
  intro steps
  have hsteps : steps = (({} : Run).trace s t (lines source)).steps := by
    rw [← traceSource_of_table hv ht]
  rw [hsteps, ← hcuts]
  show scanModes (.ok {}) (lines _) = _ ↔ _
  rw [hlines]
  have hagree : SameModes {} _ ↔ Unbroken .code _ := sameModes_iff_unbroken hrescans
  exact hagree

end CondResolve
