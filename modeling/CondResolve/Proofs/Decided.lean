import Mathlib
import CondResolve.Proofs.Grammar

/-!
# Only sentences are decided

A text that is decided is a sentence of the grammar (`sentence_of_decided`), but for three leaks of the reader: it
skips literals as it skips comments, it puts up with a `defined` that has no name, and after arguments that are
never closed it goes back to their parenthesis, in the comment or literal that the line has ended in.
-/

namespace CondResolve

/-! ## Readers keep to the grammar -/

/-- Nothing can be read on: the line splits a delimiter, or the cursor is back at arguments that are never closed.
-/
def Stuck (lx : Lexical) (cs : Chars) : Prop := lx.mode.isSplit = true ∨ cs.head? = some '('

/-- After the gap at the cursor there stands, outside comments and arguments, what satisfies `P`, unless nothing can
be read on. -/
structure Reaches (verbatim : Bool) (text : Chars) (P : Chars → Prop) (lx : Lexical) (cs : Chars) : Prop where
  fits : lx.Fits verbatim
  next : ∀ ly u, skip verbatim lx cs = .ok (ly, u) → (∃ b, Outside verbatim text b u) ∧ P u ∨ Stuck ly u

def Reading.Parses (verbatim : Bool) (text cs : Chars) (P : Chars → Prop) (p : Reading) : Prop :=
  ∀ lx rest, p.next = .ok (lx, rest) → rest <:+ cs ∧ Reaches verbatim text P lx rest

section
variable {verbatim b : Bool} {F : Flaw → Prop} {text : Chars} {P Q : Chars → Prop} {lx lx' ly : Lexical}
  {cs r rest u : Chars} {c : Char} {p : Reading}

theorem Reaches.mono (h : Reaches verbatim text P lx cs) (hpq : ∀ u, P u → Q u) : Reaches verbatim text Q lx cs :=
  ⟨h.fits, fun ly u hs => (h.next ly u hs).imp_left fun ⟨ho, hp⟩ => ⟨ho, hpq u hp⟩⟩

theorem Reaches.skip (h : Reaches verbatim text P lx cs) (hs : skip verbatim lx cs = .ok (ly, u)) :
    Reaches verbatim text P ly u := by
  refine ⟨fits_of_skip h.fits hs, fun lz v hs' => ?_⟩
  rw [skip_again hs] at hs'
  cases hs'
  exact h.next ly u hs

/-- Past any code but an opening parenthesis reading goes on. -/
theorem Reaches.stop (h : Reaches verbatim text P lx cs) (hs : CondResolve.skip verbatim lx cs = .ok (ly, c :: r))
    (hc : c ≠ '(') : (∃ b, Outside verbatim text b (c :: r)) ∧ P (c :: r) := by
  rcases h.next ly _ hs with hp | hm | hm
  · exact hp
  · rw [mode_of_skip_stop h.fits hs (by simp)] at hm
    cases hm
  · exact absurd (Option.some.inj hm) hc

namespace Reading.Parses

theorem halt (e : Halt) : (Reading.halt e).Parses verbatim text cs P := fun _ _ h => by cases h

theorem done {code : List Instr} (hs : rest <:+ cs) (h : Reaches verbatim text P lx rest) :
    (Reading.done code lx rest).Parses verbatim text cs P := by
  intro lx' rest' he
  cases he
  exact ⟨hs, h⟩

theorem after {code : List Instr} (h : p.Parses verbatim text cs P) : (p.after code).Parses verbatim text cs P := h

theorem nested (h : p.Parses verbatim text cs P) (calls : Nat) : (p.nested calls).Parses verbatim text cs P := h

theorem mono (h : p.Parses verbatim text cs P) (hs : cs <:+ rest) (hpq : ∀ u, P u → Q u) :
    p.Parses verbatim text rest Q :=
  fun lx u he => ⟨(h lx u he).1.trans hs, (h lx u he).2.mono hpq⟩

theorem of_suffix (h : p.Parses verbatim text cs P) (hs : cs <:+ rest) : p.Parses verbatim text rest P :=
  h.mono hs fun _ => id

theorem bind {k : Lexical → Chars → Reading} (h : p.Parses verbatim text cs P)
    (hk : ∀ lx rest, p.next = .ok (lx, rest) → rest <:+ cs → Reaches verbatim text P lx rest →
      (k lx rest).Parses verbatim text cs Q) : (p.bind k).Parses verbatim text cs Q := by
  unfold Reading.bind
  split
  · rename_i e he
    intro lx rest hn
    rw [he] at hn
    cases hn
  · rename_i lx rest he
    obtain ⟨hs, hr⟩ := h lx rest he
    exact (hk lx rest he hs hr).after

end Reading.Parses

/-! ### Words -/

theorem symbolOf_afterSymbol (cs : Chars) : symbolOf cs ++ afterSymbol cs = cs := List.takeWhile_append_dropWhile

theorem endsSymbol_afterSymbol (cs : Chars) : endsSymbol (afterSymbol cs) = true := by
  unfold afterSymbol
  cases h : cs.dropWhile isSymbolChar with
  | nil => rfl
  | cons c r =>
    have hc : isSymbolChar c = false := by
      have hhead := List.head_dropWhile_not (p := isSymbolChar) (l := cs) (by simp [h])
      simpa [h] using hhead
    simp [endsSymbol, hc]

theorem isSymbol_symbolOf (h : symbolOf cs ≠ []) : isSymbol (symbolOf cs) = true := by
  have hall : (symbolOf cs).all isSymbolChar = true := List.all_takeWhile
  simp [isSymbol, h, hall]

theorem endsSymbol_of_symbolOf (h : symbolOf cs = []) : endsSymbol cs = true := by
  cases cs with
  | nil => rfl
  | cons c r =>
    cases hc : isSymbolChar c with
    | false => simp [endsSymbol, hc]
    | true => simp [symbolOf, hc] at h

/-- The symbol that stands at the cursor, when it is neither a number nor `defined`. -/
theorem exists_ident (hc : isSymbolChar c = true) (hd : isDigit c = false)
    (hdef : afterWord? "defined".toList (c :: r) = none) : ∃ x : Ident, x.chars = symbolOf (c :: r) := by
  have hhead : (symbolOf (c :: r)).head? = some c := by simp [symbolOf, hc]
  have hne : symbolOf (c :: r) ≠ [] := by
    intro hnil
    rw [hnil] at hhead
    cases hhead
  refine ⟨⟨symbolOf (c :: r), isSymbol_symbolOf hne, by simp [hhead, hd], ?_⟩, rfl⟩
  intro he
  have hafter : afterWord? "defined".toList (c :: r) = some (afterSymbol (c :: r)) :=
    afterWord?_eq_some.2 ⟨by rw [← he, symbolOf_afterSymbol], endsSymbol_afterSymbol _⟩
  rw [hdef] at hafter
  cases hafter

/-! ### Operands -/

theorem fits_of_closeArgs {depth : Nat} {end? : Option Chars} (hf : lx.Fits verbatim)
    (h : closeArgs verbatim depth lx cs = .ok (lx', end?)) : lx'.Fits verbatim := by
  fun_induction closeArgs verbatim depth lx cs with
  | case1 =>
    cases h
    exact hf
  | case2 => cases h
  | case3 _ _ _ _ _ _ _ hskip =>
    cases h
    exact fits_of_skip hf hskip
  | case4 _ _ _ _ _ _ _ hskip _ _ ih => exact ih (fits_of_skip hf hskip) h

/-- Where the scanner has stopped, it stops. -/
theorem stops_of_skip (hf : lx.Fits verbatim) (h : skip verbatim lx cs = .ok (ly, c :: r)) :
    Stops verbatim (c :: r) := by
  have hm : ly.mode = .code := mode_of_skip_stop hf h (by simp)
  obtain ⟨l, hl⟩ : ∃ l, skip verbatim {} (c :: r) = .ok (⟨ly.mode, l⟩, c :: r) := skip_mode hm.symm (skip_again h)
  exact ⟨_, hl⟩

/-- What follows a symbol starts outside comments and arguments if the symbol does. -/
theorem Outside.afterSymbol (h : Outside verbatim text b cs) : ∃ b, Outside verbatim text b (afterSymbol cs) := by
  by_cases hw : symbolOf cs = []
  · have hcs : CondResolve.afterSymbol cs = cs := by
      simpa [hw] using symbolOf_afterSymbol cs
    exact ⟨b, by rwa [hcs]⟩
  · rw [← symbolOf_afterSymbol cs] at h
    exact ⟨_, h.word (isSymbol_symbolOf hw) (endsSymbol_afterSymbol cs)⟩

/-- Of the characters of an operator, each stops the scanner. -/
theorem Outside.operator {op : BinaryOp} (h : Outside verbatim text b cs)
    (hs : ∀ c r, cs = c :: r → Stops verbatim cs) (hop : BinaryOp.ofChars? cs = some op) :
    Outside verbatim text false (cs.drop op.chars.length) := by
  obtain ⟨r, rfl⟩ := BinaryOp.prefix_of_ofChars? hop
  rw [List.drop_left]
  have hstop : Stops verbatim (op.chars ++ r) := by
    cases hc : op.chars ++ r with
    | nil => exact ⟨_, skip_nil _⟩
    | cons c u =>
      rw [← hc]
      exact hs c u hc
  cases op with
  | or | and | eq | ne | le | ge | shiftLeft | shiftRight =>
    have hsecond := h.code hstop (by decide) (by rintro ⟨⟩)
    exact hsecond.code ⟨_, skip_stop (by decide) rfl⟩ (by decide) (by rintro ⟨⟩)
  | _ => exact h.code hstop (by decide) (by rintro ⟨⟩)

theorem Ident.takesArgs_chars (x : Ident) : takesArgs x.chars = true := by
  have hne : x.chars ≠ "defined".toList := x.ne_defined
  rw [takesArgs, x.leading]
  simp only [hne, decide_true, ne_eq, not_false_eq_true, Bool.not_false, Bool.and_self]

section
variable (ho : OneLine text) (hF : ∀ f b u, Outside verbatim text b u → f.At verbatim u → F f)
include ho hF

theorem gap_within (hs : Outside verbatim text b cs) (hm : lx.mode = .code)
    (h : CondResolve.skip verbatim lx cs = .ok (lx', rest)) : Gap verbatim F cs rest ∨ lx'.mode.isSplit = true :=
  gap_of_skip (ho.suffix hs.suffix) hm (fun _ _ hv hg hl => hF _ _ _ (hs.gap hg) (.literal hv hl)) h

theorem gap_to (hs : Outside verbatim text b cs) (hm : lx.mode = .code)
    (h : CondResolve.skip verbatim lx cs = .ok (lx', c :: r)) : Gap verbatim F cs (c :: r) := by
  refine (gap_within ho hF hs hm h).resolve_right ?_
  rw [mode_of_skip_stop (fun _ => hm) h (by simp)]
  decide

theorem outside_to (hs : Outside verbatim text b cs) (hm : lx.mode = .code)
    (h : CondResolve.skip verbatim lx cs = .ok (lx', c :: r)) : Outside verbatim text b (c :: r) :=
  hs.gap ((gap_to ho hF hs hm h).mono fun _ _ => trivial)

theorem outside_past (hs : Outside verbatim text b cs) (hm : lx.mode = .code)
    (h : CondResolve.skip verbatim lx cs = .ok (lx', c :: r)) (hc : isSymbolChar c = false)
    (hb : c = '(' → b = false) :
    Outside verbatim text false r :=
  (outside_to ho hF hs hm h).code (stops_of_skip (fun _ => hm) h) hc hb

theorem reaches_gap (hs : Outside verbatim text b cs) (hm : lx.mode = .code) (hp : ∀ u, Gap verbatim F cs u → P u) :
    Reaches verbatim text P lx cs :=
  ⟨fun _ => hm, fun _ _ h =>
    (gap_within ho hF hs hm h).imp (fun hg => ⟨⟨b, hs.gap (hg.mono fun _ _ => trivial)⟩, hp _ hg⟩) .inl⟩

theorem reaches_skipped (hs : Outside verbatim text b cs) (hm : lx.mode = .code)
    (h : CondResolve.skip verbatim lx cs = .ok (ly, u)) (hp : Gap verbatim F cs u → P u) :
    Reaches verbatim text P ly u := by
  refine ⟨fits_of_skip (fun _ => hm) h, fun lz v h' => ?_⟩
  rw [skip_again h] at h'
  cases h'
  exact (gap_within ho hF hs hm h).imp (fun hg => ⟨⟨b, hs.gap (hg.mono fun _ _ => trivial)⟩, hp hg⟩) .inl

theorem parses_closeParen (hr : Reaches verbatim text P lx cs)
    (hp : ∀ v u, P (')' :: v) → Gap verbatim F v u → Q u) :
    (closeParen verbatim lx cs).Parses verbatim text cs Q := by
  unfold closeParen
  split
  · exact .halt _
  · rename_i ly v h
    have hm : ly.mode = .code := mode_of_skip_stop hr.fits h (by simp)
    have hv : v <:+ cs := (List.suffix_cons ..).trans (suffix_of_skip h)
    obtain ⟨⟨b, hb⟩, hparen⟩ := hr.stop h (by decide)
    have hout : Outside verbatim text false v := hb.code (stops_of_skip hr.fits h) (by decide) (by rintro ⟨⟩)
    exact .done hv (reaches_gap ho hF hout hm (hp v · hparen))
  · exact .halt _

omit hF in
theorem args_of_closeArgs {depth : Nat} (hs : cs <:+ text) (hm : lx.mode = .code)
    (hd : depth ≠ 0 ∨ cs.head? = some '(') (hstop : Stops verbatim cs)
    (h : closeArgs verbatim depth lx cs = .ok (lx', some rest)) :
    ∃ v l, Args verbatim depth cs v ∧ CondResolve.skip verbatim ⟨.code, l⟩ v = .ok (lx', rest) ∧ v <:+ cs := by
  fun_induction closeArgs verbatim depth lx cs with
  | case1 => cases h
  | case2 => cases h
  | case3 depth lx c r depth' ly u hskip hle hzero =>
    cases h
    obtain ⟨m, l⟩ := lx
    cases hm
    -- The depth comes to zero only at a closing parenthesis, when one parenthesis was open.
    have hclose : c = ')' ∧ depth = 1 := by
      have hzero : (if c = '(' then depth + 1 else if c = ')' then depth - 1 else depth) = 0 := hzero
      split at hzero
      · cases hzero
      · rename_i hc
        have hpos : depth ≠ 0 := hd.resolve_right (by simpa using hc)
        split at hzero
        · rename_i hc'
          exact ⟨hc', by omega⟩
        · exact absurd hzero hpos
    obtain ⟨rfl, rfl⟩ := hclose
    exact ⟨r, l, .last r, hskip, List.suffix_cons ..⟩
  | case4 depth lx c r depth' ly u hskip hle hpos ih =>
    have hr : r <:+ text := (List.suffix_cons c r).trans hs
    cases u with
    | nil =>
      rw [closeArgs] at h
      cases h
    | cons d u =>
      have hm' : ly.mode = .code := mode_of_skip_stop (fun _ => hm) hskip (by simp)
      have hgap : Gap verbatim (fun _ => True) r (d :: u) := by
        refine (gap_of_skip (ho.suffix hr) hm (fun _ _ _ _ _ => trivial) hskip).resolve_right ?_
        rw [hm']
        decide
      have hstop' : Stops verbatim (d :: u) := stops_of_skip (fun _ => hm) hskip
      have hsuf : d :: u <:+ r := suffix_of_skip hskip
      obtain ⟨v, l, hargs, hv, hvs⟩ := ih (hsuf.trans hr) hm' (.inl hpos) hstop' h
      refine ⟨v, l, ?_, hv, (hvs.trans hsuf).trans (List.suffix_cons ..)⟩
      obtain ⟨k, hk⟩ := Nat.exists_eq_succ_of_ne_zero hpos
      have hdepth : depth' = if c = '(' then depth + 1 else if c = ')' then depth - 1 else depth := rfl
      -- The character opens or closes a parenthesis, or is code among the arguments.
      split at hdepth
      · rename_i hc
        subst hc
        rw [hdepth] at hargs
        exact .enter hgap hargs
      · rename_i hc
        rw [hk] at hargs
        split at hdepth
        · rename_i hc'
          subst hc'
          have hk' : depth = k + 2 := by omega
          rw [hk']
          exact .close hgap hargs
        · rename_i hc'
          have hk' : depth = k + 1 := by omega
          rw [hk']
          exact .code hc hc' hstop hgap hargs

theorem parses_symbolUse (hs : Outside verbatim text b cs) (hm : lx.mode = .code) {x : Ident}
    (hx : x.chars = symbolOf cs) : (symbolUse verbatim lx cs).Parses verbatim text cs (Term verbatim F cs) := by
  have hcs : x.chars ++ afterSymbol cs = cs := by rw [hx, symbolOf_afterSymbol]
  have hends := endsSymbol_afterSymbol cs
  have hsuf : afterSymbol cs <:+ cs := suffix_afterSymbol cs
  unfold symbolUse
  refine .after ?_
  generalize afterSymbol cs = r at hcs hends hsuf
  subst hcs
  have hr : Outside verbatim text true r := x.takesArgs_chars ▸ hs.word x.symbol hends
  split
  · exact .halt _
  · rename_i ly rest h
    rcases skipArgs_cases h with hskip | ⟨lp, u, hskip, hclose⟩
    · exact .done ((suffix_of_skip hskip).trans hsuf)
        (reaches_skipped ho hF hr hm hskip fun hg => .symbol x hends hg)
    · have hu : '(' :: u <:+ r := suffix_of_skip hskip
      have hm' : lp.mode = .code := mode_of_skip_stop (fun _ => hm) hskip (by simp)
      have hgap := gap_to ho hF hr hm hskip
      have hparen := outside_to ho hF hr hm hskip
      rcases hclose with hclose | ⟨hclose, rfl⟩
      · have hstop : Stops verbatim ('(' :: u) := ⟨_, skip_paren rfl⟩
        obtain ⟨v, l, hargs, hv, hvs⟩ := args_of_closeArgs ho hparen.suffix hm' (.inr rfl) hstop hclose
        refine .done (((suffix_of_skip hv).trans (hvs.trans hu)).trans hsuf) ?_
        exact reaches_skipped ho hF (hparen.args hargs) rfl hv fun hg => .call x hends hgap hargs hg
      · -- The cursor is back behind the symbol, in the mode in which the line has ended.
        refine .done hsuf ⟨fits_of_closeArgs (fun _ => hm') hclose, fun lw w hw => ?_⟩
        by_cases hmz : ly.mode = .code
        · obtain ⟨l, hskip'⟩ := skip_mode (hmz.trans hm.symm) hskip
          rw [hskip'] at hw
          cases hw
          exact .inr (.inr rfl)
        · have hat : Flaw.At verbatim .unclosed ('(' :: u) := .unclosed hm' hclose hmz
          have hout : Outside verbatim text false w :=
            hr.unclosed (hgap.mono fun _ _ => trivial) hat (suffix_of_skip hw)
          exact .inl ⟨⟨false, hout⟩, .unclosed x (hF _ _ _ hparen hat) hgap hm' hclose hmz hw⟩

omit ho hF in
theorem named_symbolOf (h : endsSymbol u = true → F .nameless) : Flaw.Named F (symbolOf u) := by
  by_cases hw : symbolOf u = []
  · exact .inr ⟨hw, h (endsSymbol_of_symbolOf hw)⟩
  · exact .inl (isSymbol_symbolOf hw)

/-- The name in parentheses behind `defined`. -/
theorem parses_definedParen {l : LineState} {lz : Lexical} {v : Chars}
    (hs : Outside verbatim text b ("defined".toList ++ r)) (he : endsSymbol r = true)
    (hparen : skip verbatim ⟨.code, l⟩ r = .ok (ly, '(' :: u)) (hname : skip verbatim ly u = .ok (lz, v)) :
    (definedName verbatim true lz v).Parses verbatim text r (Term verbatim F ("defined".toList ++ r)) := by
  have hr : Outside verbatim text false r := hs.word (by decide) he
  have hm : ly.mode = .code := mode_of_skip_stop (fun _ => rfl) hparen (by simp)
  have hu : Outside verbatim text false u := outside_past ho hF hr rfl hparen (by decide) fun _ => rfl
  have hur : u <:+ r := (List.suffix_cons ..).trans (suffix_of_skip hparen)
  have hnamed : Flaw.Named F (symbolOf v) := named_symbolOf fun hv => hF _ _ _ hs (.namelessParen hparen hname hv)
  have hv : afterSymbol v <:+ r := (suffix_afterSymbol v).trans ((suffix_of_skip hname).trans hur)
  unfold definedName
  refine .after ?_
  split
  · exact .halt _
  · rename_i lw w hclose
    rw [if_pos rfl]
    split
    · rename_i w
      have hne : v ≠ [] := by
        rintro rfl
        have hend : CondResolve.skip verbatim lz [] = .ok (lz, []) := skip_nil lz
        cases hend.symm.trans hclose
      obtain ⟨c, v, rfl⟩ := List.exists_cons_of_ne_nil hne
      have hmz : lz.mode = .code := mode_of_skip_stop (fun _ => hm) hname hne
      have hgap : Gap verbatim F u (symbolOf (c :: v) ++ afterSymbol (c :: v)) := by
        rw [symbolOf_afterSymbol]
        exact gap_to ho hF hu hm hname
      obtain ⟨b', hb'⟩ := (outside_to ho hF hu hm hname).afterSymbol
      have hmw : lw.mode = .code := mode_of_skip_stop (fun _ => hmz) hclose (by simp)
      have hw : w <:+ r := ((List.suffix_cons ..).trans (suffix_of_skip hclose)).trans hv
      have hout : Outside verbatim text false w := outside_past ho hF hb' hmz hclose (by decide) (by rintro ⟨⟩)
      refine .done hw (reaches_gap ho hF hout hmw fun _ hg => ?_)
      exact .definedParen hnamed he (gap_to ho hF hr rfl hparen) hgap (gap_to ho hF hb' hmz hclose) hg
    · exact .halt _

/-- The name right behind `defined`. -/
theorem parses_definedBare {l : LineState} {v : Chars} (hs : Outside verbatim text b ("defined".toList ++ r))
    (he : endsSymbol r = true) (hname : skip verbatim ⟨.code, l⟩ r = .ok (ly, v)) (hparen : ∀ u, v ≠ '(' :: u) :
    (definedName verbatim false ly v).Parses verbatim text r (Term verbatim F ("defined".toList ++ r)) := by
  have hr : Outside verbatim text false r := hs.word (by decide) he
  have hnamed : Flaw.Named F (symbolOf v) := by
    refine named_symbolOf fun hv => hF _ _ _ hs (.nameless hname hv ?_)
    intro hhead
    obtain ⟨u, rfl⟩ := List.head?_eq_some_iff.1 hhead
    exact hparen u rfl
  have hv : afterSymbol v <:+ r := (suffix_afterSymbol v).trans (suffix_of_skip hname)
  unfold definedName
  refine .after ?_
  split
  · exact .halt _
  · rename_i lz w hrest
    have hw : w <:+ r := (suffix_of_skip hrest).trans hv
    simp only [Bool.false_eq_true, if_false]
    refine .done hw ?_
    cases v with
    | nil =>
      have hend : skip verbatim ly [] = .ok (ly, []) := skip_nil ly
      cases hend.symm.trans hrest
      exact reaches_skipped ho hF hr rfl hname fun hg => .defined hnamed he hg rfl (.done [])
    | cons c v =>
      have hm : ly.mode = .code := mode_of_skip_stop (fun _ => rfl) hname (by simp)
      have hgap : Gap verbatim F r (symbolOf (c :: v) ++ afterSymbol (c :: v)) := by
        rw [symbolOf_afterSymbol]
        exact gap_to ho hF hr rfl hname
      obtain ⟨b', hb'⟩ := (outside_to ho hF hr rfl hname).afterSymbol
      exact reaches_skipped ho hF hb' hm hrest fun hg => .defined hnamed he hgap (endsSymbol_afterSymbol _) hg

theorem parses_definedTest (hs : Outside verbatim text b ("defined".toList ++ r)) (hm : lx.mode = .code)
    (he : endsSymbol r = true) :
    (definedTest verbatim lx r).Parses verbatim text r (Term verbatim F ("defined".toList ++ r)) := by
  obtain ⟨m, l⟩ := lx
  cases hm
  unfold definedTest
  split
  · exact .halt _
  · rename_i ly u hparen
    split
    · exact .halt _
    · rename_i lz v hname
      exact parses_definedParen ho hF hs he hparen hname
  · rename_i ly v hparen hname
    exact parses_definedBare ho hF hs he hname hparen

theorem parses_atom (hs : Outside verbatim text b cs) (hm : lx.mode = .code) :
    (atom verbatim lx cs).Parses verbatim text cs (Term verbatim F cs) := by
  unfold atom
  split
  · exact .halt _
  · rename_i c r
    split
    · rename_i hd
      have hcs : (c :: r).takeWhile isDigit ++ (c :: r).dropWhile isDigit = c :: r :=
        List.takeWhile_append_dropWhile
      have hdigits : ∀ d ∈ (c :: r).takeWhile isDigit, isDigit d = true := List.all_eq_true.1 List.all_takeWhile
      have hne : (c :: r).takeWhile isDigit ≠ [] := by simp [hd]
      have hsuf : (c :: r).dropWhile isDigit <:+ c :: r := List.dropWhile_suffix _
      have hrest : ((c :: r).dropWhile isDigit).head?.any isDigit = false := by
        cases h : (c :: r).dropWhile isDigit with
        | nil => rfl
        | cons d u =>
          have hhead := List.head_dropWhile_not (p := isDigit) (l := c :: r) (by simp [h])
          simpa [h] using hhead
      have hout : Outside verbatim text false ((c :: r).dropWhile isDigit) := by
        rw [← hcs] at hs
        exact hs.number hne hdigits hrest
      refine .done hsuf (reaches_gap ho hF hout hm fun u hg => ?_)
      have hterm : Term verbatim F ((c :: r).takeWhile isDigit ++ (c :: r).dropWhile isDigit) u :=
        .number hne hdigits hrest hg
      rwa [hcs] at hterm
    · rename_i hd
      split
      · rename_i u hdef
        obtain ⟨hcs, he⟩ := afterWord?_eq_some.1 hdef
        rw [hcs] at hs ⊢
        exact (parses_definedTest ho hF hs hm he).of_suffix (List.suffix_append ..)
      · rename_i hdef
        split
        · rename_i hc
          obtain ⟨x, hx⟩ := exists_ident hc (by simpa using hd) hdef
          exact parses_symbolUse ho hF hs hm hx
        · exact .halt _

/-- What a reader gets past is an operand, or an operation. That of operators goes on with one that starts at `e`.
-/
def Task.Parses (verbatim : Bool) (F : Flaw → Prop) (text : Chars) (lx : Lexical) (cs : Chars) (p : Reading) :
    Task → Prop
  | .operand => lx.mode = .code → Outside verbatim text false cs →
      p.Parses verbatim text cs fun w => ∃ u, Gap verbatim F cs u ∧ Term verbatim F u w
  | .climb _ => lx.mode = .code → Outside verbatim text false cs →
      p.Parses verbatim text cs (Expression verbatim F cs)
  | .climbOn _ => ∀ e, Reaches verbatim text (Expression verbatim F e) lx cs →
      p.Parses verbatim text cs (Expression verbatim F e)

theorem Yields.parses {task : Task} (hy : Yields verbatim task lx cs p) : task.Parses verbatim F text lx cs p := by
  induction hy with
  | unreadable => exact fun _ _ => .halt _
  | missing => exact fun _ _ => .halt _
  | @unary _ ly cs r c op _ hskip hop _ ih =>
    intro hm hs
    have hgap := gap_to ho hF hs hm hskip
    have hm' : ly.mode = .code := mode_of_skip_stop (fun _ => hm) hskip (by simp)
    have hr : r <:+ cs := (List.suffix_cons ..).trans (suffix_of_skip hskip)
    have hc : op.char = c := by simpa using List.find?_some hop
    have hpast : Outside verbatim text false r := by
      refine outside_past ho hF hs hm hskip ?_ fun _ => rfl
      rw [← hc]
      cases op <;> decide
    refine (((ih hm' hpast).nested _).bind fun lz rest _ hrest hreach => ?_).of_suffix hr
    refine .done hrest (hreach.mono fun w hw => ?_)
    obtain ⟨u, hu, hterm⟩ := hw
    rw [← hc] at hgap
    exact ⟨_, hgap, .unary op hu hterm⟩
  | @paren _ ly cs r _ hskip _ ih =>
    intro hm hs
    have hgap := gap_to ho hF hs hm hskip
    have hm' : ly.mode = .code := mode_of_skip_stop (fun _ => hm) hskip (by simp)
    have hr : r <:+ cs := (List.suffix_cons ..).trans (suffix_of_skip hskip)
    -- No word stands before an operand, so its parenthesis opens no arguments.
    have hpast : Outside verbatim text false r := outside_past ho hF hs hm hskip (by decide) fun _ => rfl
    refine (((ih hm' hpast).nested _).bind fun lz rest _ hrest hreach => ?_).of_suffix hr
    refine (parses_closeParen ho hF hreach fun v w hv hg => ?_).of_suffix hrest
    obtain ⟨u, hu, hop⟩ := hv
    exact ⟨_, hgap, .paren hu hop hg⟩
  | @atom _ ly cs r c hskip =>
    intro hm hs
    have hgap := gap_to ho hF hs hm hskip
    have hm' : ly.mode = .code := mode_of_skip_stop (fun _ => hm) hskip (by simp)
    have hsuf : c :: r <:+ cs := suffix_of_skip hskip
    exact (parses_atom ho hF (outside_to ho hF hs hm hskip) hm').mono hsuf fun w hw => ⟨_, hgap, hw⟩
  | climb _ _ ih ihon =>
    intro hm hs
    refine (ih hm hs).bind fun ly rest he hrest hreach => ?_
    refine (ihon ly rest he _ (hreach.mono fun w hw => ?_)).of_suffix hrest
    obtain ⟨u, hu, hterm⟩ := hw
    exact ⟨u, hu, .term hterm⟩
  | tight => exact fun e hreach => .done List.suffix_rfl hreach
  | unreadableOn => exact fun _ _ => .halt _
  | stop _ hskip => exact fun e hreach => .done (suffix_of_skip hskip) (hreach.skip hskip)
  | @operator _ ly cs rest _ op _ _ _ hskip hop _ _ ih ihon =>
    intro e hreach
    have hne : rest ≠ [] := by
      rintro rfl
      cases hop
    obtain ⟨⟨b, hb⟩, v, hv, hoperation⟩ : (∃ b, Outside verbatim text b rest) ∧ Expression verbatim F e rest := by
      cases rest with
      | nil => exact absurd rfl hne
      | cons c r =>
        refine hreach.stop hskip ?_
        rintro rfl
        cases hop
    have hm : ly.mode = .code := mode_of_skip_stop hreach.fits hskip hne
    have hdrop : rest.drop op.chars.length <:+ cs := (List.drop_suffix ..).trans (suffix_of_skip hskip)
    have hpast : Outside verbatim text false (rest.drop op.chars.length) := by
      refine hb.operator (fun c r hc => ?_) hop
      subst hc
      exact stops_of_skip hreach.fits hskip
    refine ((ih hm hpast).bind fun lz u he hu hreach' => ?_).of_suffix hdrop
    -- What stands to the right of the operator completes what `e` has come to so far.
    have hright : Reaches verbatim text (Expression verbatim F e) lz u :=
      hreach'.mono fun w hw => ⟨v, hv, hoperation.append hop hw⟩
    exact ((ihon lz u he e hright).of_suffix hu).after

end

end

/-! ## Decided lines -/

section
variable {s : Settings} {t : Table} {v : View} {F : Flaw → Prop} {lx lk lx' : Lexical} {line w text : Chars}
  {c : Classified} {d : Directive} {j : Judged} {x : Truth}

theorem parses_climb {verbatim : Bool} (ho : OneLine text)
    (hF : ∀ f b u, Outside verbatim text b u → f.At verbatim u → F f) (hm : lx.mode = .code) :
    (climb verbatim 0 lx text).Parses verbatim text text (Expression verbatim F text) :=
  (yields_read (.climb 0)).parses ho hF hm .start

/-- A directive that is trusted was read to the end of its line. -/
theorem done_of_finish (hfin : finish v j = .ok (lx', d)) (hd : d.untrusted ≠ d) :
    j.directive = d ∧ skip v.verbatim j.lex j.rest = .ok (lx', []) := by
  obtain ⟨ly, rest, hskip, ⟨rfl, rfl, rfl⟩ | ⟨-, -, rfl⟩⟩ := finish_eq_ok_iff.mp hfin
  · exact ⟨rfl, hskip⟩
  · exact absurd (by cases j.directive <;> rfl) hd

theorem sentence_of_judgeCondition {form : Truth → Directive} (hform : (form .unknown).untrusted = form .unknown)
    (hat : AtKeyword v.verbatim lk w) (hr : text <:+ w) (hj : judgeCondition s t v form lk text = .ok j)
    (hfin : finish v j = .ok (lx', d)) (hd : d.untrusted ≠ d)
    (hF : ∀ f b u, Outside v.verbatim text b u → f.At v.verbatim u → F f) :
    Sentence v.verbatim F text ∨ lx'.mode.isSplit = true ∧ SplitEnd text := by
  have ho := hat.oneLine.suffix hr
  obtain ⟨rfl, hskip⟩ := done_of_finish hfin hd
  rcases judgeCondition_eq_ok hj with ⟨a, lz, rest, he, rfl⟩ | ⟨f, lf, -, rfl⟩
  · obtain ⟨-, hreach⟩ := parses_climb ho hF hat.mode lz rest (next_of_evaluate he)
    rcases hreach.next _ _ hskip with ⟨-, hsentence⟩ | hsplit | hhead
    · exact .inl hsentence
    · have hstanding := standing_of_evaluate ho (hat.standing List.suffix_rfl) hat.line he
      exact .inr ⟨hsplit, hstanding.split_of_skip ho hskip hsplit⟩
    · cases hhead
  · exact absurd hform hd

theorem condition_of_judge (hw : afterWord? "if".toList w = some text ∨ afterWord? "elif".toList w = some text)
    (hj : judge s t v lk w = .ok (some j)) :
    judgeCondition s t v .opening lk text = .ok j ∨ judgeCondition s t v .elif lk text = .ok j := by
  rcases hw with hw | hw <;> obtain ⟨rfl, he⟩ := afterWord?_eq_some.1 hw
  · rcases judge_cases hj with ⟨-, r, hr | hr, -⟩ | ⟨r, hr, hj⟩ | ⟨r, hr, -⟩ | ⟨r, hr, -⟩ | ⟨r, hr, -⟩
    · cases hr
      cases he
    · cases hr
      cases he
    · cases hr
      exact .inl hj
    all_goals cases hr
  · rcases judge_cases hj with ⟨-, r, hr | hr, -⟩ | ⟨r, hr, -⟩ | ⟨r, hr, hj⟩ | ⟨r, hr, -⟩ | ⟨r, hr, -⟩
    case inr.inr.inr.inl =>
      cases hr
      exact .inr hj
    all_goals cases hr

/-- The condition of a line that is decided is a sentence, extended at most by the flaws that the text shows. -/
theorem sentence_of_decided (hm : lx.mode = .code) (ho : OneLine line) (h : classify s t v lx line = .ok c)
    (hx : x ≠ .unknown) (hk : c.kind = .directive (.opening x) false ∨ c.kind = .directive (.elif x) false)
    (hw : afterWord? "if".toList (line.drop c.keyword) = some text ∨
      afterWord? "elif".toList (line.drop c.keyword) = some text)
    (hF : ∀ f b u, Outside v.verbatim text b u → f.At v.verbatim u → F f) : Sentence v.verbatim F text := by
  obtain ⟨d, hk, hd⟩ : ∃ d, c.kind = .directive d false ∧ d.untrusted ≠ d := by
    rcases hk with hk | hk
    · exact ⟨_, hk, fun he => hx (by cases he; rfl)⟩
    · exact ⟨_, hk, fun he => hx (by cases he; rfl)⟩
  obtain ⟨lk, w, j, lx', hclean, hkw, hend⟩ := clean_of_classify ho (fun _ => hm) h hk
  have hdrop : line.drop c.keyword = w := by
    rw [hkw]
    conv => lhs; rw [hclean.split]
    simp
  rw [hdrop] at hw
  have hsuf : text <:+ w := by
    rcases hw with hw | hw <;> exact suffix_of_afterWord? hw
  have hsentence : Sentence v.verbatim F text ∨ lx'.mode.isSplit = true ∧ SplitEnd text := by
    rcases condition_of_judge hw hclean.judged with hj | hj
    · exact sentence_of_judgeCondition rfl hclean.atKeyword hsuf hj hclean.finished hd hF
    · exact sentence_of_judgeCondition rfl hclean.atKeyword hsuf hj hclean.finished hd hF
  refine hsentence.resolve_right ?_
  rintro ⟨hsplit, htext⟩
  rcases hend with ⟨rfl, -⟩ | ⟨-, hlacks, -⟩
  · cases hsplit
  · -- A line that splits a delimiter has its newline.
    have hlast : line.getLast? = some '\n' := by
      obtain ⟨p, rfl⟩ := hsuf.trans (suffix_of_findKeyword hclean.ne_nil hclean.found)
      obtain ⟨q, a, k, rfl, -, hk⟩ := htext
      rcases afterContinuation?_eq_nil hk with rfl | rfl <;> simp
    simp [lacksNewline, hlast] at hlacks

end

/-- A flaw shows in a quote, the start of a raw literal or the word `defined`, or it is that of arguments. -/
theorem Flaw.At.head {verbatim : Bool} {f : Flaw} {c : Char} {r : Chars} (h : f.At verbatim (c :: r)) :
    c ∈ ['\'', '"', 'R', 'd'] ∨ f = .unclosed := by
  generalize hcs : c :: r = cs at h
  cases h with
  | literal _ h =>
    cases h with
    | quoted q => cases q <;> cases hcs <;> simp [Quote.char]
    | raw =>
      cases hcs
      simp
  | nameless | namelessParen =>
    obtain ⟨rfl, -⟩ : c = 'd' ∧ _ := List.cons.inj hcs
    simp
  | unclosed => exact .inr rfl

/-- A gap from a character that starts none has nothing in it. -/
theorem Gap.eq_of_head {verbatim : Bool} {F : Flaw → Prop} {c : Char} {r u : Chars} (h : Gap verbatim F (c :: r) u)
    (hc : c ∉ [' ', '\t', '\r', '\n', '\\', '/', '\'', '"', 'R']) : u = c :: r := by
  cases h with
  | done => rfl
  | space hs _ =>
    simp only [isSpaceOrNewline, isSpace] at hs
    grind
  | join _ hj _ =>
    unfold afterContinuation? at hj
    split at hj <;> simp_all
  | comment _ hk _ => cases hk <;> simp at hc
  | literal _ _ hl _ =>
    cases hl with
    | quoted q => cases q <;> simp [Quote.char] at hc
    | raw => simp at hc

def quotedArgument : Chars := ['"', 'x', '"', ')', '\n']

section quotedArgument

theorem closeArgs_quotedArgument (l : LineState) :
    closeArgs false 0 ⟨.code, l⟩ ('(' :: quotedArgument) = .ok ({}, some []) := by
  have hopen : skip false ⟨.code, l⟩ quotedArgument = .ok (⟨.code, .dirty⟩, [')', '\n']) := by cases l <;> cbv
  have hclose : skip false ⟨.code, .dirty⟩ ['\n'] = .ok ({}, []) := by cbv
  exact (closeArgs_cons hopen rfl).trans (closeArgs_cons hclose rfl)

theorem climb_quotedArgument : climb false 0 ⟨.code, .hash⟩ (' ' :: 'F' :: '(' :: quotedArgument) =
    .done [.load "F" ⟨.code, .hash⟩] {} [] := by
  have hname : skip false ⟨.code, .hash⟩ (' ' :: 'F' :: '(' :: quotedArgument) =
      .ok (⟨.code, .hash⟩, 'F' :: '(' :: quotedArgument) := by cbv
  have hparen : skip false ⟨.code, .hash⟩ ('(' :: quotedArgument) = .ok (⟨.code, .hash⟩, '(' :: quotedArgument) :=
    skip_paren rfl
  have hargs : skipArgs false ⟨.code, .hash⟩ ('(' :: quotedArgument) = .ok ({}, []) := by
    simp only [skipArgs, hparen, closeArgs_quotedArgument]
    rfl
  have hatom : atom false ⟨.code, .hash⟩ ('F' :: '(' :: quotedArgument) =
      .done [.load "F" ⟨.code, .hash⟩] {} [] := by
    have hafter : afterSymbol ('F' :: '(' :: quotedArgument) = '(' :: quotedArgument := by decide
    have hdef : afterWord? "defined".toList ('F' :: '(' :: quotedArgument) = none := by decide
    simp only [atom, hdef, symbolUse, hafter, hargs]
    rfl
  have hstop : climbOn false 0 {} [] = .done [] {} [] :=
    climbOn_stop (Nat.zero_le _) (skip_nil _) (by rintro op ⟨⟩)
  rw [climb_eq, operand_atom hname rfl (by decide), hatom]
  show Reading.after _ (climbOn false 0 _ _) = _
  rw [hstop]
  rfl

theorem not_unclosed_quotedArgument : ¬ Flaw.At false .unclosed ('(' :: quotedArgument) := by
  intro h
  cases h with
  | @unclosed lx _ _ hm hc =>
    obtain ⟨m, l⟩ := lx
    cases hm
    cases (closeArgs_quotedArgument l).symm.trans hc

theorem args_quotedArgument {v : Chars} (h : Args false 0 ('(' :: quotedArgument) v) : v = ['\n'] := by
  cases h with
  | @enter _ _ u _ hg ha =>
    have hu : u = quotedArgument ∨ u = [')', '\n'] := by
      generalize hcs : quotedArgument = cs at hg
      cases hg with
      | done => exact .inl rfl
      | space hs =>
        cases hcs
        exact absurd hs (by decide)
      | join _ hj =>
        cases hcs
        cases hj
      | comment _ hk => cases hk <;> cases hcs
      | literal _ _ hl hg =>
        cases hl with
        | quoted q =>
          cases q <;> cases hcs
          exact .inr (hg.eq_of_head (by decide))
        | raw => cases hcs
    rcases hu with rfl | rfl
    · cases ha with
      | code _ _ hstop =>
        obtain ⟨lx, hs⟩ := hstop
        have hpast : skip false {} quotedArgument = .ok (⟨.code, .dirty⟩, [')', '\n']) := by cbv
        cases hpast.symm.trans hs
    · cases ha with
      | last => rfl
      | code _ hne => exact absurd rfl hne

theorem gap_quotedArgument {F : Flaw → Prop} {u : Chars} (h : Gap false F (' ' :: 'F' :: '(' :: quotedArgument) u) :
    u = ' ' :: 'F' :: '(' :: quotedArgument ∨ u = 'F' :: '(' :: quotedArgument := by
  generalize hcs : ' ' :: 'F' :: '(' :: quotedArgument = cs at h
  cases h with
  | done => exact .inl rfl
  | space _ hg =>
    cases hcs
    exact .inr (hg.eq_of_head (by decide))
  | join _ hj =>
    cases hcs
    cases hj
  | comment _ hk => cases hk <;> cases hcs
  | literal _ _ hl =>
    cases hl with
    | quoted q => cases q <;> cases hcs
    | raw => cases hcs

/-- The quotes of ` F("x")` are not outside its arguments. -/
theorem outside_quotedArgument {b : Bool} {u : Chars}
    (h : Outside false (' ' :: 'F' :: '(' :: quotedArgument) b u) :
    u = ' ' :: 'F' :: '(' :: quotedArgument ∨ u = 'F' :: '(' :: quotedArgument ∨
      b = true ∧ u = '(' :: quotedArgument ∨ u = ['\n'] ∨ u = [] := by
  induction h with
  | start => exact .inl rfl
  | gap _ hg ih =>
    rcases ih with rfl | rfl | ⟨hb, rfl⟩ | rfl | rfl
    · exact (gap_quotedArgument hg).imp_right .inl
    · exact .inr (.inl (hg.eq_of_head (by decide)))
    · exact .inr (.inr (.inl ⟨hb, hg.eq_of_head (by decide)⟩))
    · exact .inr (.inr (.inr ((List.suffix_cons_iff.1 hg.suffix).imp_right List.suffix_nil.1)))
    · exact .inr (.inr (.inr (.inr (List.suffix_nil.1 hg.suffix))))
  | word _ hw he ih =>
    obtain ⟨hne, hall⟩ : _ ≠ [] ∧ ∀ c ∈ _, isSymbolChar c = true := by simpa [isSymbol] using hw
    obtain ⟨hsym, hafter⟩ := takeWhile_append_ends (fun _ h => h) hall he
    rcases ih with h | h | ⟨-, h⟩ | h | h <;> rw [h] at hsym hafter <;> subst hsym hafter
    case inr.inl => exact .inr (.inr (.inl ⟨by decide, rfl⟩))
    all_goals exact absurd rfl hne
  | @number _ ds _ _ hne hall hr ih =>
    obtain ⟨d, ds, rfl⟩ := List.exists_cons_of_ne_nil hne
    have hd : isDigit d = true := hall d List.mem_cons_self
    rcases ih with h | h | ⟨-, h⟩ | h | h
    case inr.inr.inr.inr => cases h
    all_goals
      rw [(List.cons.inj h).1] at hd
      cases hd
  | code _ hs hc hb ih =>
    obtain ⟨lx, hs⟩ := hs
    rcases ih with h | h | ⟨hb', h⟩ | h | h <;> cases h
    · have hpast : skip false {} (' ' :: 'F' :: '(' :: quotedArgument) =
          .ok ({}, 'F' :: '(' :: quotedArgument) := by cbv
      cases hpast.symm.trans hs
    · cases hc
    · cases hb'.symm.trans (hb rfl)
    · have hpast : skip false {} ['\n'] = .ok ({}, []) := by cbv
      cases hpast.symm.trans hs
  | args _ ha ih =>
    rcases ih with h | h | ⟨-, h⟩ | h | h <;> cases h
    exact .inr (.inr (.inr (.inl (args_quotedArgument ha))))
  | unclosed _ hg hat _ ih =>
    rcases ih with rfl | rfl | ⟨-, rfl⟩ | rfl | rfl
    · rcases gap_quotedArgument hg with h | h <;> cases h
    · cases hg.eq_of_head (by decide)
    · cases hg.eq_of_head (by decide)
      exact (not_unclosed_quotedArgument hat).elim
    · have hmem : '(' ∈ ['\n'] := hg.suffix.mem List.mem_cons_self
      exact absurd hmem (by decide)
    · cases List.suffix_nil.1 hg.suffix

/-- The quotes of ` F("x")` stand in an argument, so it is a sentence without flaws. -/
theorem sentence_of_decided_quotedArgument :
    let text := ' ' :: 'F' :: '(' :: quotedArgument
    ∃ c, classify {} [⟨"F", some "1", false⟩] ⟨false, 0, 1, .lf, false⟩ {} ("#if".toList ++ text) = .ok c ∧
      c.kind = .directive (.opening .yes) false ∧ Sentence false (fun _ => False) text := by
  intro text
  have he : (evaluate {} false (View.knowledge {} [⟨"F", some "1", false⟩]) ⟨.code, .hash⟩ text).result =
      .ok (⟨.yes, 1⟩, {}, []) := by
    unfold evaluate
    rw [climb_quotedArgument]
    cbv
  have hfind : findKeyword false {} ("#if".toList ++ text) = .ok (⟨.code, .hash⟩, "if".toList ++ text) := by cbv
  have hif : afterWord? "if".toList ("if".toList ++ text) = some text := by decide
  have hifdef : afterWord? "ifdef".toList ("if".toList ++ text) = none := by decide
  have hifndef : afterWord? "ifndef".toList ("if".toList ++ text) = none := by decide
  let j : Judged := ⟨.opening .yes, {}, [],
    (evaluate {} false (View.knowledge {} [⟨"F", some "1", false⟩]) ⟨.code, .hash⟩ text).mentioned, []⟩
  have hj : judge {} [⟨"F", some "1", false⟩] ⟨false, 0, 1, .lf, false⟩ ⟨.code, .hash⟩ ("if".toList ++ text) =
      .ok (some j) := by
    simp only [judge, hif, hifdef, hifndef, judgeCondition, he]
    rfl
  have hfin : finish ⟨false, 0, 1, .lf, false⟩ j = .ok ({}, .opening .yes) :=
    finish_eq_ok_iff.mpr ⟨_, [], skip_nil _, .inl ⟨rfl, rfl, rfl⟩⟩
  have hc := classify_eq_ok_iff.mpr ⟨_, _, hfind, .inr (.inr ⟨by decide, j, _, _, hj, hfin, rfl⟩)⟩
  have hone : OneLine ("#if".toList ++ text) := by simp [OneLine, text, quotedArgument]
  have hflaw (f : Flaw) (b : Bool) (u : Chars) (hu : Outside false text b u) (h : f.At false u) : False := by
    rcases outside_quotedArgument hu with rfl | rfl | ⟨-, rfl⟩ | rfl | rfl
    · cases h.head.resolve_left (by decide)
      cases h
    · cases h.head.resolve_left (by decide)
      cases h
    · cases h.head.resolve_left (by decide)
      exact not_unclosed_quotedArgument h
    · cases h.head.resolve_left (by decide)
      cases h
    · cases h with
      | literal _ hl => cases hl
  refine ⟨_, hc, rfl, ?_⟩
  exact sentence_of_decided rfl hone hc (x := .yes) (by decide) (.inl rfl) (.inl hif) hflaw

end quotedArgument

end CondResolve
