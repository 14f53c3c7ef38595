import Mathlib
import CondResolve.Proofs.Advance
import CondResolve.Proofs.Climbing
import CondResolve.Symbol.Script

/-!
# Scripts as they are written

`Written` says how a statement is put on a line: its keyword, a name, and perhaps a value, with white space and
comments in between. `readScript_written` says that a script of such lines does what its statements say, one after
the other.
-/

namespace CondResolve.Script

/-! ## Statements -/

inductive Statement where
  | define (name value : Chars)
  | flag (name : Chars)
  | function (name args value : Chars)
  | undefine (name : Chars)
  deriving DecidableEq, Repr

namespace Statement

def symbol : Statement → Symbol
  | .define name value => ⟨String.ofList name, some (String.ofList value), false⟩
  | .flag name => ⟨String.ofList name, some "", false⟩
  | .function name _ _ => ⟨String.ofList name, some "1", false⟩
  | .undefine name => ⟨String.ofList name, none, false⟩

/-- The symbol takes the place of the first of its name, or the last place if there is none. -/
def run (t : Table) (c : Statement) : Table :=
  match t.index? c.symbol.name with
  | some i => t.set i c.symbol
  | none => t ++ [c.symbol]

end Statement

/-! ## Lines -/

inductive Spaced : Chars → Prop
  | nil : Spaced []
  | blank {c : Char} {g : Chars} (hc : c = ' ' ∨ c = '\t') (hg : Spaced g) : Spaced (c :: g)
  | comment {body g : Chars} (hn : '\n' ∉ body) (hb : ¬ ['*', '/'] <:+: body) (hg : Spaced g) :
    Spaced ('/' :: '*' :: (body ++ '*' :: '/' :: g))

def Separator (g : Chars) : Prop := g ≠ [] ∧ Spaced g

/-- Nothing in the text starts a comment, a literal or a continuation. -/
structure Bland (cs : Chars) : Prop where
  no_newline : '\n' ∉ cs
  no_backslash : '\\' ∉ cs
  no_quote : ∀ q : Quote, q.char ∉ cs
  no_block : ¬ ['/', '*'] <:+: cs
  no_line : ¬ ['/', '/'] <:+: cs

structure IsValue (v : Chars) : Prop extends Bland v where
  ne_nil : v ≠ []
  head : v.head?.any isSpaceOrNewline = false
  last : v.getLast?.any isSpaceOrNewline = false

instance (cs : Chars) : Decidable (Bland cs) :=
  decidable_of_iff
    ('\n' ∉ cs ∧ '\\' ∉ cs ∧ (Quote.single.char ∉ cs ∧ Quote.double.char ∉ cs) ∧ ¬ ['/', '*'] <:+: cs ∧
      ¬ ['/', '/'] <:+: cs)
    ⟨fun ⟨hn, hb, hq, hc, hl⟩ => ⟨hn, hb, fun q => by cases q <;> simp_all, hc, hl⟩,
      fun ⟨hn, hb, hq, hc, hl⟩ => ⟨hn, hb, ⟨hq .single, hq .double⟩, hc, hl⟩⟩

instance (v : Chars) : Decidable (IsValue v) :=
  decidable_of_iff
    (Bland v ∧ v ≠ [] ∧ v.head?.any isSpaceOrNewline = false ∧ v.getLast?.any isSpaceOrNewline = false)
    ⟨fun ⟨hb, hne, hh, hl⟩ => ⟨hb, hne, hh, hl⟩, fun ⟨hb, hne, hh, hl⟩ => ⟨hb, hne, hh, hl⟩⟩

/-- A statement as it is written on a line, up to the white space at the end. -/
inductive Written : Statement → Chars → Prop
  | define {name value g g' : Chars} (hn : isSymbol name = true) (hv : IsValue value) (hg : Separator g)
    (hg' : Separator g') : Written (.define name value) ("#define".toList ++ (g ++ (name ++ (g' ++ value))))
  | flag {name g : Chars} (hn : isSymbol name = true) (hg : Separator g) :
    Written (.flag name) ("#define".toList ++ (g ++ name))
  | function {name args value g g' : Chars} (hn : isSymbol name = true) (ha : Bland args) (hv : IsValue value)
    (hg : Separator g) (hg' : Separator g') :
    Written (.function name args value)
      ("#define".toList ++ (g ++ (name ++ '(' :: (args ++ ')' :: (g' ++ value)))))
  | undefine {name g : Chars} (hn : isSymbol name = true) (hg : Separator g) :
    Written (.undefine name) ("#undef".toList ++ (g ++ name))

def Trailing (w : Chars) : Prop := ∀ c ∈ w, c = ' ' ∨ c = '\t'

def ending : Option Newline → Chars
  | none => []
  | some nl => nl.chars

/-- A script that has each statement on a line of its own. -/
inductive WrittenScript : List Statement → Chars → Prop
  | nil : WrittenScript [] []
  | last {c : Statement} {core w : Chars} (hc : Written c core) (hw : Trailing w) : WrittenScript [c] (core ++ w)
  | cons {c : Statement} {cs : List Statement} {core w script : Chars} (hc : Written c core) (hw : Trailing w)
    (nl : Newline) (hs : WrittenScript cs script) : WrittenScript (c :: cs) (core ++ (w ++ nl.chars) ++ script)

/-! ## White space and comments -/

section
variable {l : LineState} {body g g' r rest v w : Chars} {c : Char}

theorem afterContinuation?_star (hn : '\n' ∉ body) (r : Chars) : afterContinuation? (body ++ '*' :: r) = none := by
  cases h : afterContinuation? (body ++ '*' :: r) with
  | none => rfl
  | some u =>
    rcases body with _ | ⟨a, _ | ⟨b, _ | ⟨c, body⟩⟩⟩ <;> rcases afterContinuation?_eq_some.mp h with he | he <;>
      simp_all

theorem move_inside (hc : afterContinuation? (c :: r) = none) (hr : afterContinuation? r = none)
    (hclose : c = '*' → r.head? ≠ some '/') : move ⟨.blockComment, l⟩ c r = .eat ⟨.blockComment, l⟩ r := by
  unfold move
  rw [hc]
  show moveBlock l c r = _
  unfold moveBlock
  rw [hr]
  split
  · cases r with
    | nil => rfl
    | cons d r =>
      have hd : d ≠ '/' := by simpa using hclose (by assumption)
      simp [hd]
  · rfl

/-- In a comment the cursor goes on to the delimiter that closes it. -/
theorem skipParsed_body (hn : '\n' ∉ body) (hb : ¬ ['*', '/'] <:+: body) (r : Chars) :
    skipParsed ⟨.blockComment, l⟩ (body ++ '*' :: '/' :: r) = skipParsed ⟨.code, l⟩ r := by
  induction body with
  | nil => exact skipParsed_eat rfl
  | cons c body ih =>
    have hn' : '\n' ∉ body := fun hm => hn (List.mem_cons_of_mem _ hm)
    rw [← ih hn' fun h => hb (h.trans (List.suffix_cons ..).isInfix)]
    refine skipParsed_eat (move_inside (afterContinuation?_star hn _) (afterContinuation?_star hn' _) ?_)
    rintro rfl hhead
    cases body with
    | nil => simp at hhead
    | cons d body =>
      obtain rfl : d = '/' := by simpa using hhead
      exact hb ⟨[], body, rfl⟩

theorem skip_spaced (hg : Spaced g) (r : Chars) : skip false ⟨.code, l⟩ (g ++ r) = skip false ⟨.code, l⟩ r := by
  induction hg with
  | nil => rfl
  | blank hc hg ih =>
    rw [← ih]
    rcases hc with rfl | rfl <;> exact skipParsed_eat rfl
  | @comment body g hn hb hg ih =>
    rw [← ih]
    have hopen : skipParsed ⟨.code, l⟩ ('/' :: '*' :: (body ++ '*' :: '/' :: (g ++ r))) =
        skipParsed ⟨.blockComment, l⟩ (body ++ '*' :: '/' :: (g ++ r)) := skipParsed_eat rfl
    simpa [skip] using hopen.trans (skipParsed_body hn hb (g ++ r))

theorem Trailing.spaced (hw : Trailing w) : Spaced w := by
  induction w with
  | nil => exact .nil
  | cons c w ih => exact .blank (hw c List.mem_cons_self) (ih fun d hd => hw d (List.mem_cons_of_mem _ hd))

/-- A separator ends a name, and is not taken for the start of arguments. -/
theorem Separator.head (hg : Separator g) (r : Chars) :
    endsSymbol (g ++ r) = true ∧ (g ++ r).head? ≠ some '"' ∧ (g ++ r).head? ≠ some '(' := by
  obtain ⟨hne, hg⟩ := hg
  cases hg with
  | nil => exact absurd rfl hne
  | blank hc => rcases hc with rfl | rfl <;> exact ⟨rfl, by simp, by simp⟩
  | comment => exact ⟨rfl, by simp, by simp⟩

/-! ## To the end of the line -/

theorem Bland.tail (h : Bland (c :: v)) : Bland v where
  no_newline := fun hm => h.no_newline (List.mem_cons_of_mem _ hm)
  no_backslash := fun hm => h.no_backslash (List.mem_cons_of_mem _ hm)
  no_quote := fun q hm => h.no_quote q (List.mem_cons_of_mem _ hm)
  no_block := fun hi => h.no_block (hi.trans (List.suffix_cons ..).isInfix)
  no_line := fun hi => h.no_line (hi.trans (List.suffix_cons ..).isInfix)

def Apart (r : Chars) : Prop := ∀ c, r.head? = some c → c ≠ '/' ∧ c ≠ '*' ∧ c ≠ '\\' ∧ c ≠ '"'

theorem afterContinuation?_of_head (h : r.head? ≠ some '\\') : afterContinuation? r = none := by
  cases hc : afterContinuation? r with
  | none => rfl
  | some u => rcases afterContinuation?_eq_some.mp hc with rfl | rfl <;> simp at h

/-- In code a character stops the cursor unless it is white space, if it starts nothing with what follows. -/
theorem move_bland (hc : c ≠ '\n' ∧ c ≠ '\\' ∧ ∀ q : Quote, c ≠ q.char)
    (hr : r.head? ≠ some '\\' ∧ r.head? ≠ some '"')
    (hslash : c = '/' → r.head? ≠ some '*' ∧ r.head? ≠ some '/') :
    move ⟨.code, l⟩ c r = if isSpace c then .eat ⟨.code, l⟩ r else .stop ⟨.code, l⟩ := by
  obtain ⟨hn, hb, hq⟩ := hc
  have hsingle : c ≠ '\'' := hq .single
  have hdouble : c ≠ '"' := hq .double
  have hcont : afterContinuation? (c :: r) = none := afterContinuation?_of_head (by simpa using hb)
  simp only [move, hcont, moveIn, moveCode, hsingle, hdouble, hn, if_false]
  by_cases hc : c = '/'
  · subst hc
    have hopen : moveSlash l r = .stop ⟨.code, l⟩ := by
      simp only [moveSlash, afterContinuation?_of_head hr.1]
      cases r with
      | nil => rfl
      | cons d r =>
        have hd : d ≠ '*' ∧ d ≠ '/' := by simpa using hslash rfl
        simp [hd]
    simpa [isSpace] using hopen
  · by_cases hR : c = 'R'
    · subst hR
      cases r with
      | nil => rfl
      | cons d r =>
        have hd : d ≠ '"' := by simpa using hr.2
        simp [hd, isSpace]
    · simp only [hc, hR, if_false]

theorem Bland.ne (h : Bland (c :: v)) : c ≠ '\n' ∧ c ≠ '\\' ∧ ∀ q : Quote, c ≠ q.char :=
  ⟨fun he => h.no_newline (he ▸ List.mem_cons_self), fun he => h.no_backslash (he ▸ List.mem_cons_self),
    fun q he => h.no_quote q (he ▸ List.mem_cons_self)⟩

theorem Bland.move_head (h : Bland (c :: v)) (hr : Apart r) :
    move ⟨.code, l⟩ c (v ++ r) = if isSpace c then .eat ⟨.code, l⟩ (v ++ r) else .stop ⟨.code, l⟩ := by
  have hnext : ∀ d, (v ++ r).head? = some d → d ≠ '\\' ∧ d ≠ '"' ∧ (c = '/' → d ≠ '*' ∧ d ≠ '/') := by
    intro d hd
    cases v with
    | nil => exact ⟨(hr d hd).2.2.1, (hr d hd).2.2.2, fun _ => ⟨(hr d hd).2.1, (hr d hd).1⟩⟩
    | cons a v =>
      obtain rfl : a = d := by simpa using hd
      obtain ⟨-, hb, hq⟩ := h.tail.ne
      refine ⟨hb, hq .double, ?_⟩
      rintro rfl
      exact ⟨fun he => h.no_block ⟨[], v, by simp [he]⟩, fun he => h.no_line ⟨[], v, by simp [he]⟩⟩
  exact move_bland h.ne ⟨fun he => (hnext _ he).1 rfl, fun he => (hnext _ he).2.1 rfl⟩
    fun hc => ⟨fun he => ((hnext _ he).2.2 hc).1 rfl, fun he => ((hnext _ he).2.2 hc).2 rfl⟩

theorem IsValue.skip (hv : IsValue v) (hr : Apart r) :
    CondResolve.skip false ⟨.code, l⟩ (v ++ r) = .ok (⟨.code, l⟩, v ++ r) := by
  cases v with
  | nil => exact absurd rfl hv.ne_nil
  | cons c v =>
    have hc : isSpaceOrNewline c = false := hv.head
    refine skip_stop hc ?_
    have hspace : isSpace c = false := by simp_all [isSpaceOrNewline]
    rw [List.append_eq, hv.toBland.move_head hr, hspace]
    rfl

theorem drain_bland (h : Bland v) (hr : Apart r) :
    drain false ⟨.code, l⟩ (v ++ r) = drain false ⟨.code, l⟩ r := by
  induction v with
  | nil => rfl
  | cons c v ih =>
    rw [← ih h.tail]
    have hmove := h.move_head (l := l) hr
    split at hmove
    · exact drain_congr (skipParsed_eat hmove)
    · exact drain_next (skipParsed_stop hmove)

def Rested (e : Option Newline) (lx : Lexical) : Prop := lx.mode = .code ∧ (e ≠ none → lx = {})

theorem skip_trailing (hw : Trailing w) (e : Option Newline) :
    ∃ lx, skip false ⟨.code, l⟩ (w ++ ending e) = .ok (lx, []) ∧ Rested e lx := by
  rw [skip_spaced hw.spaced]
  cases e with
  | none => exact ⟨_, skip_nil _, rfl, fun h => absurd rfl h⟩
  | some nl => exact ⟨_, skipParsed_newline_nil (.inl rfl), rfl, fun _ => rfl⟩

theorem Trailing.apart (hw : Trailing w) (e : Option Newline) : Apart (w ++ ending e) := by
  intro c hc
  cases w with
  | nil =>
    rcases e with _ | _ | _
    · cases hc
    · cases hc; decide
    · cases hc; decide
  | cons a w =>
    obtain rfl : a = c := by simpa using hc
    rcases hw a List.mem_cons_self with rfl | rfl <;> decide

/-- A value and what may stand after it end the line in code. -/
theorem drain_value (hv : Bland v) (hw : Trailing w) (e : Option Newline) :
    ∃ lx, drain false ⟨.code, l⟩ (v ++ (w ++ ending e)) = .ok lx ∧ Rested e lx := by
  obtain ⟨lx, hskip, hlx⟩ := skip_trailing (l := l) hw e
  exact ⟨lx, (drain_bland hv (hw.apart e)).trans (drain_done hskip), hlx⟩

/-! ## The value -/

theorem stripped_append {cs : Chars} (hw : ∀ c ∈ w, isSpaceOrNewline c = true)
    (hl : ∀ c, cs.getLast? = some c → isSpaceOrNewline c = false) : stripped (cs ++ w) = cs := by
  have hrev : cs.reverse.dropWhile isSpaceOrNewline = cs.reverse := by
    obtain rfl | ⟨q, a, rfl⟩ := List.eq_nil_or_concat cs
    · rfl
    · have ha : isSpaceOrNewline a = false := hl a (by simp)
      rw [List.concat_eq_append, List.reverse_append, List.reverse_singleton, List.singleton_append,
        List.dropWhile_cons_of_neg (by simp [ha])]
  rw [stripped, List.reverse_append, List.dropWhile_append_of_pos (by simpa using hw), hrev, List.reverse_reverse]

theorem Trailing.isSpace (hw : Trailing w) (e : Option Newline) :
    ∀ c ∈ w ++ ending e, isSpaceOrNewline c = true := by
  intro c hc
  rcases List.mem_append.mp hc with hc | hc
  · rcases hw c hc with rfl | rfl <;> rfl
  · rcases e with _ | _ | _
    · cases hc
    all_goals
      simp only [ending, Newline.chars, List.mem_cons, List.not_mem_nil, or_false] at hc
      rcases hc with rfl | rfl <;> rfl

/-! ## Directives -/

theorem nextSymbol_separator {name : Chars} (hg : Separator g) (hn : isSymbol name = true)
    (he : endsSymbol r = true) (hq : r.head? ≠ some '"') :
    nextSymbol false ⟨.code, l⟩ (g ++ (name ++ r)) = .ok (⟨.code, l⟩, some (String.ofList name), r) := by
  obtain ⟨hne, hchars⟩ := symbolChar_of_isSymbol hn
  have hskip : skip false ⟨.code, l⟩ (g ++ (name ++ r)) = .ok (⟨.code, l⟩, name ++ r) :=
    (skip_spaced hg.2 _).trans (skip_word_append rfl hne hchars hq)
  obtain ⟨hname, hrest⟩ : symbolOf (name ++ r) = name ∧ afterSymbol (name ++ r) = r :=
    takeWhile_append_ends (fun _ h => h) hchars he
  simp only [nextSymbol, hskip, bind, Except.bind, hname, hrest, List.isEmpty_iff, hne, if_false, pure, Except.pure]

/-- The value of an object-like macro is what is left of its line. -/
theorem readDefine_object {n : Nat} {lx lx' : Lexical} {line cs cs' rest : Chars} {name : String}
    (hs : nextSymbol false lx cs = .ok (lx, some name, cs')) (hp : cs'.head? ≠ some '(')
    (hskip : skip false lx cs' = .ok (lx', rest))
    (hv : rest.take ((stripped line).length - (line.length - rest.length)) = v) :
    readDefine false n lx line cs = .ok (⟨name, some (String.ofList v), false⟩, lx', rest) := by
  simp only [readDefine, placed, hs, Except.mapError, bind, Except.bind, pure, Except.pure]
  split
  · simp_all
  · simp_all
  · rename_i lx' name' cs'' _ heq
    obtain ⟨rfl, rfl, rfl⟩ : lx = lx' ∧ name = name' ∧ cs' = cs'' := by simpa using heq
    rw [hskip]
    simp only [hv]

theorem readDefine_function {n : Nat} {lx lx' : Lexical} {line cs r : Chars} {name : String}
    (hs : nextSymbol false lx cs = .ok (lx', some name, '(' :: r)) :
    readDefine false n lx line cs = .ok (⟨name, some "1", false⟩, lx', '(' :: r) := by
  simp only [readDefine, placed, hs, Except.mapError, bind, Except.bind, pure, Except.pure]

theorem readUndef_name {n : Nat} {lx lx' : Lexical} {cs cs' rest : Chars} {name : String}
    (hs : nextSymbol false lx cs = .ok (lx, some name, cs')) (hskip : skip false lx cs' = .ok (lx', rest)) :
    readUndef false n lx cs = .ok (⟨name, none, false⟩, lx', rest) := by
  simp only [readUndef, placed, hs, hskip, Except.mapError, bind, Except.bind, pure, Except.pure]

theorem readDirective_define {n : Nat} {lx' : Lexical} {rest : Chars} {sym : Symbol} (he : endsSymbol r = true)
    (hb : (stripped ("#define".toList ++ r)).getLast? ≠ some '\\')
    (h : readDefine false n ⟨.code, .hash⟩ ("#define".toList ++ r) r = .ok (sym, lx', rest)) :
    readDirective false n {} ("#define".toList ++ r) = .ok (some sym, lx', rest) := by
  have hword : StartsWord ("define".toList ++ r) := ⟨'d', _, rfl, rfl, by decide⟩
  have hfind : findKeyword false {} ("#define".toList ++ r) = .ok (⟨.code, .hash⟩, "define".toList ++ r) :=
    findKeyword_hash hword
  have hafter : afterWord? "define".toList ("define".toList ++ r) = some r := afterWord?_eq_some.mpr ⟨rfl, he⟩
  have hne : ("define".toList ++ r).isEmpty = false := rfl
  simp only [readDirective, placed, hfind, Except.mapError, bind, Except.bind, hne, Bool.false_eq_true, if_false,
    hb, hafter, h, pure, Except.pure]

theorem readDirective_undef {n : Nat} {lx' : Lexical} {rest : Chars} {sym : Symbol} (he : endsSymbol r = true)
    (hb : (stripped ("#undef".toList ++ r)).getLast? ≠ some '\\')
    (h : readUndef false n ⟨.code, .hash⟩ r = .ok (sym, lx', rest)) :
    readDirective false n {} ("#undef".toList ++ r) = .ok (some sym, lx', rest) := by
  have hword : StartsWord ("undef".toList ++ r) := ⟨'u', _, rfl, rfl, by decide⟩
  have hfind : findKeyword false {} ("#undef".toList ++ r) = .ok (⟨.code, .hash⟩, "undef".toList ++ r) :=
    findKeyword_hash hword
  have hdefine : afterWord? "define".toList ("undef".toList ++ r) = none := rfl
  have hundef : afterWord? "undef".toList ("undef".toList ++ r) = some r := afterWord?_eq_some.mpr ⟨rfl, he⟩
  have hne : ("undef".toList ++ r).isEmpty = false := rfl
  simp only [readDirective, placed, hfind, Except.mapError, bind, Except.bind, hne, Bool.false_eq_true, if_false,
    hb, hdefine, hundef, h, pure, Except.pure]

/-! ## One statement -/

def Solid (cs : Chars) : Prop := ∃ a, cs.getLast? = some a ∧ isSpaceOrNewline a = false ∧ a ≠ '\\'

theorem Solid.append (h : Solid v) (p : Chars) : Solid (p ++ v) := by
  obtain ⟨a, ha, hs, hb⟩ := h
  exact ⟨a, by simp [List.getLast?_append, ha], hs, hb⟩

theorem IsValue.solid (hv : IsValue v) : Solid v := by
  obtain ⟨q, a, rfl⟩ := (List.eq_nil_or_concat v).resolve_left hv.ne_nil
  rw [List.concat_eq_append] at hv ⊢
  refine ⟨a, by simp, by simpa using hv.last, ?_⟩
  rintro rfl
  exact hv.no_backslash (by simp)

theorem solid_name {name : Chars} (hn : isSymbol name = true) : Solid name := by
  obtain ⟨hne, hchars⟩ := symbolChar_of_isSymbol hn
  obtain ⟨q, a, rfl⟩ := (List.eq_nil_or_concat name).resolve_left hne
  have ha : isSymbolChar a = true := hchars a (by simp)
  have hcs := ne_of_isSymbolChar ha
  exact ⟨a, by simp, by simp [isSpaceOrNewline, isSpace_of_isSymbolChar ha, hcs], hcs.2.2.1⟩

theorem Written.solid {c : Statement} {core : Chars} (h : Written c core) : Solid core := by
  cases h with
  | @define name _ g g' _ hv => exact (((hv.solid.append g').append name).append g).append _
  | @flag _ g hn => exact ((solid_name hn).append g).append _
  | @function name args _ g g' _ _ hv =>
    exact (((((hv.solid.append g').append [')']).append args).append ['(']).append name |>.append g).append _
  | @undefine _ g hn => exact ((solid_name hn).append g).append _

theorem Solid.stripped {core : Chars} (h : Solid core) (hw : Trailing w) (e : Option Newline) :
    Script.stripped (core ++ (w ++ ending e)) = core := by
  obtain ⟨a, ha, hs, -⟩ := h
  refine stripped_append (hw.isSpace e) fun c hc => ?_
  obtain rfl : a = c := by simpa [ha] using hc
  exact hs

theorem Solid.getLast? {core : Chars} (h : Solid core) : core.getLast? ≠ some '\\' := by
  obtain ⟨a, ha, -, hb⟩ := h
  simpa [ha] using hb

/-- What follows a name in a line is not taken for more of it, nor for the arguments of a macro. -/
theorem Trailing.head (hw : Trailing w) (e : Option Newline) :
    endsSymbol (w ++ ending e) = true ∧ (w ++ ending e).head? ≠ some '"' ∧ (w ++ ending e).head? ≠ some '(' := by
  cases w with
  | nil => rcases e with _ | _ | _ <;> decide
  | cons a w => rcases hw a List.mem_cons_self with rfl | rfl <;> exact ⟨rfl, by simp, by simp⟩

theorem skipLine_value (hv : IsValue v) (hw : Trailing w) (e : Option Newline) :
    ∃ lx', skipLine false ⟨.code, l⟩ (v ++ (w ++ ending e)) = .ok lx' ∧ Rested e lx' := by
  have hne : (v ++ (w ++ ending e)).isEmpty = false := by simp [hv.ne_nil]
  simpa [skipLine, hne] using drain_value hv.toBland hw e

/-- The arguments of a macro and its value end the line in code, and so do the parentheses. -/
theorem skipLine_function {args : Chars} (ha : Bland args) (hg' : Separator g') (hv : IsValue v) (hw : Trailing w)
    (e : Option Newline) :
    ∃ lx', skipLine false ⟨.code, l⟩ ('(' :: (args ++ ')' :: (g' ++ (v ++ (w ++ ending e))))) = .ok lx' ∧
      Rested e lx' := by
  obtain ⟨lx', hdrain, hlx'⟩ := drain_value (l := .dirty) hv.toBland hw e
  refine ⟨lx', ?_, hlx'⟩
  have hopen : skip false ⟨.code, .dirty⟩ ('(' :: (args ++ ')' :: (g' ++ (v ++ (w ++ ending e))))) = _ :=
    skip_stop rfl rfl
  calc drain false ⟨.code, .dirty⟩ ('(' :: (args ++ ')' :: (g' ++ (v ++ (w ++ ending e)))))
    _ = drain false ⟨.code, .dirty⟩ (args ++ ')' :: (g' ++ (v ++ (w ++ ending e)))) := drain_next hopen
    _ = drain false ⟨.code, .dirty⟩ (')' :: (g' ++ (v ++ (w ++ ending e)))) :=
      drain_bland ha fun c hc => by cases hc; decide
    _ = drain false ⟨.code, .dirty⟩ (g' ++ (v ++ (w ++ ending e))) := drain_next (skip_close rfl _)
    _ = drain false ⟨.code, .dirty⟩ (v ++ (w ++ ending e)) := drain_congr (skip_spaced hg'.2 _)
    _ = .ok lx' := hdrain

/-- A statement is read off its line, and the rest of the line ends in code. -/
theorem Written.reads {st : Statement} {core : Chars} (h : Written st core) (hw : Trailing w) (e : Option Newline)
    (n : Nat) :
    ∃ lx rest lx', readDirective false n {} (core ++ (w ++ ending e)) = .ok (some st.symbol, lx, rest) ∧
      skipLine false lx rest = .ok lx' ∧ Rested e lx' := by
  have hstrip := h.solid.stripped hw e
  have hb : (Script.stripped (core ++ (w ++ ending e))).getLast? ≠ some '\\' := by
    rw [hstrip]
    exact h.solid.getLast?
  cases h with
  | @define name v g g' hn hv hg hg' =>
    obtain ⟨lx', hline, hlx'⟩ := skipLine_value (l := .hash) hv hw e
    simp only [List.append_assoc] at hb hstrip ⊢
    obtain ⟨hends, hquote, hparen⟩ := hg'.head (v ++ (w ++ ending e))
    have hsymbol := nextSymbol_separator (l := .hash) hg hn hends hquote
    have hskip := (skip_spaced hg'.2 _).trans (hv.skip (l := .hash) (hw.apart e))
    refine ⟨_, _, lx', readDirective_define (hg.head _).1 hb (readDefine_object hsymbol hparen hskip ?_),
      hline, hlx'⟩
    -- The stripped line ends where the value ends, and the cursor stands where it starts.
    refine List.take_left' ?_
    rw [hstrip]
    simp only [List.length_append]
    omega
  | @flag name g hn hg =>
    obtain ⟨lx', hskip, hlx'⟩ := skip_trailing (l := .hash) hw e
    simp only [List.append_assoc] at hb hstrip ⊢
    obtain ⟨hends, hquote, hparen⟩ := hw.head e
    have hsymbol := nextSymbol_separator (l := .hash) hg hn hends hquote
    exact ⟨_, _, lx', readDirective_define (hg.head _).1 hb
      (readDefine_object hsymbol hparen hskip List.take_nil), rfl,
      hlx'⟩
  | @function name args v g g' hn ha hv hg hg' =>
    -- The directive ends at the parenthesis, so the arguments and the value are left to the rest of the line.
    obtain ⟨lx', hline, hlx'⟩ := skipLine_function (l := .hash) ha hg' hv hw e
    simp only [List.append_assoc, List.cons_append] at hb ⊢
    have hsymbol := nextSymbol_separator (l := .hash) (r := '(' :: (args ++ ')' :: (g' ++ (v ++ (w ++ ending e)))))
      hg hn rfl (by simp)
    exact ⟨_, _, lx', readDirective_define (hg.head _).1 hb (readDefine_function hsymbol), hline, hlx'⟩
  | @undefine name g hn hg =>
    obtain ⟨lx', hskip, hlx'⟩ := skip_trailing (l := .hash) hw e
    simp only [List.append_assoc] at hb ⊢
    obtain ⟨hends, hquote, -⟩ := hw.head e
    have hsymbol := nextSymbol_separator (l := .hash) hg hn hends hquote
    exact ⟨_, _, lx', readDirective_undef (hg.head _).1 hb (readUndef_name hsymbol hskip), rfl, hlx'⟩

theorem put_eq_run (t : Table) (c : Statement) : t.put c.symbol = c.run t := by
  unfold Statement.run
  induction t with
  | nil => rfl
  | cons x t ih =>
    rw [Table.put, Table.index?, List.findIdx?_cons]
    by_cases hx : x.name = c.symbol.name
    · simp [hx]
    · rw [ih, Table.index?]
      cases h : t.findIdx? (·.name = c.symbol.name) <;> simp [hx]

theorem Written.readLine {st : Statement} {core : Chars} (h : Written st core) (hw : Trailing w)
    (e : Option Newline) (n : Nat) (t : Table) :
    ∃ lx, Script.readLine false n t {} (core ++ (w ++ ending e)) = (st.run t, .ok lx) ∧ Rested e lx := by
  obtain ⟨lx, rest, lx', hread, hline, hlx'⟩ := h.reads hw e n
  refine ⟨lx', ?_, hlx'⟩
  simp only [Script.readLine, hread, hline, placed, Except.mapError, put_eq_run]

theorem Spaced.no_newline (hg : Spaced g) : '\n' ∉ g := by
  induction hg with
  | nil => simp
  | blank hc _ ih => rcases hc with rfl | rfl <;> simp [ih]
  | comment hn _ _ ih => simp [hn, ih]

theorem Written.no_newline {st : Statement} {core : Chars} (h : Written st core) : '\n' ∉ core := by
  cases h with
  | define hn hv hg hg' =>
    simp [not_mem_of_isSymbol hn, hv.no_newline, hg.2.no_newline, hg'.2.no_newline]
  | flag hn hg => simp [not_mem_of_isSymbol hn, hg.2.no_newline]
  | function hn ha hv hg hg' =>
    simp [not_mem_of_isSymbol hn, ha.no_newline, hv.no_newline, hg.2.no_newline, hg'.2.no_newline]
  | undefine hn hg => simp [not_mem_of_isSymbol hn, hg.2.no_newline]

/-- A script does what its statements say, one after the other. -/
theorem readLines_written {sts : List Statement} {script : Chars} (h : WrittenScript sts script) (n : Nat)
    (t : Table) :
    readLines false n t {} (lines script) = (sts.foldl Statement.run t, none) := by
  induction h generalizing n t with
  | nil => rfl
  | @last c core w hc hw =>
    obtain ⟨lx, hread, hmode, -⟩ := hc.readLine hw none n t
    have hn : '\n' ∉ core ++ w := by simp [hc.no_newline, hw.spaced.no_newline]
    have hne : core ++ w ≠ [] := by
      obtain ⟨a, ha, -⟩ := hc.solid
      rintro he
      simp_all
    have hline : core ++ w = core ++ (w ++ ending none) := by simp [ending]
    rw [lines_partial hne hn, hline, readLines, hread]
    simp [readLines, hmode]
  | @cons c cs core w script hc hw nl _ ih =>
    obtain ⟨lx, hread, -, hlx⟩ := hc.readLine hw (some nl) n t
    obtain rfl := hlx (by simp)
    have hfull : FullLine (core ++ (w ++ nl.chars)) := by
      rw [← List.append_assoc]
      exact fullLine_append (by simp [hc.no_newline, hw.spaced.no_newline]) nl
    rw [lines_full hfull, readLines]
    have hread' : Script.readLine false n t {} (core ++ (w ++ nl.chars)) = (c.run t, .ok {}) := hread
    rw [hread']
    exact ih (n + 1) (c.run t)

/-- A script written from statements does to any table what they do one after another. -/
theorem readScript_written {s : Settings} {sts : List Statement} {script : Chars} (hs : s.passthroughText = false)
    (h : WrittenScript sts script) (t : Table) : t.readScript s script = (sts.foldl Statement.run t, none) := by
  rw [Table.readScript, hs]
  exact readLines_written h 1 t

theorem readScript_written_four :
    let sts := [.define "A".toList "1".toList, .function "B".toList "x, y".toList "x + y".toList,
      .undefine "A".toList, .flag "C".toList]
    let script := "#define A 1\n#define\t/* two */B(x, y) x + y \r\n#undef A\n#define C".toList
    ({} : Settings).passthroughText = false ∧ WrittenScript sts script ∧
      Table.readScript [⟨"A", some "0", true⟩, ⟨"A", some "7", false⟩] {} script =
        ([⟨"A", none, false⟩, ⟨"A", some "7", false⟩, ⟨"B", some "1", false⟩, ⟨"C", some "", false⟩], none) := by
  intro sts script
  have hgap : Separator [' '] := ⟨by simp, .blank (.inl rfl) .nil⟩
  have hcomment : Separator "\t/* two */".toList :=
    ⟨by simp, .blank (.inr rfl) (@Spaced.comment " two ".toList _ (by decide) (by decide) .nil)⟩
  have hnone : Trailing [] := by simp [Trailing]
  have hblank : Trailing [' '] := by simp [Trailing]
  have hscript : WrittenScript sts script :=
    .cons (.define rfl (by decide) hgap hgap) hnone .lf
      (.cons (.function rfl (by decide) (by decide) hcomment hgap) hblank .crlf
      (.cons (.undefine rfl hgap) hnone .lf (.last (.flag rfl hgap) hnone)))
  refine ⟨rfl, hscript, ?_⟩
  rw [readScript_written rfl hscript]
  rfl

end

end CondResolve.Script
