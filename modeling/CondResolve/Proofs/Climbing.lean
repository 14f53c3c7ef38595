import CondResolve.Proofs.Classify
import CondResolve.Proofs.Condition

/-!
# Reading the text of a condition

However a condition is spelled, it is read back into its code, so evaluating its text comes to the meaning of the
condition. What follows an operand decides how far the reader goes; `Trails` says what can follow.
-/

namespace CondResolve

/-- What can follow a condition that binds as tightly as `level` and is read in state `lx`. The next code character
is at `r`, where the reader is in state `ly`. -/
structure Trails (verbatim : Bool) (lx ly : Lexical) (level : Nat) (rest r : Chars) : Prop where
  skips : skip verbatim lx rest = .ok (ly, r)
  ends : endsSymbol rest = true
  unquoted : rest.head? ≠ some '"'
  unopened : r.head? ≠ some '('
  looser : ∀ op, BinaryOp.ofChars? r = some op → op.level ≤ level

def Resumes (lx ly : Lexical) (rest r : Chars) (p : Lexical × Chars) : Prop := p = (lx, rest) ∨ p = (ly, r)

/-! ## Characters of a condition -/

section
variable {verbatim : Bool} {A : Demand → Prop} {lx ly lz : Lexical} {level least deep : Nat} {rest r : Chars}

theorem ofChars?_operator (op : BinaryOp) (r : Chars) : BinaryOp.ofChars? (op.chars ++ ' ' :: r) = some op := by
  cases op <;> rfl

theorem drop_operator (op : BinaryOp) (r : Chars) :
    (op.chars ++ ' ' :: r).drop op.chars.length = ' ' :: r := List.drop_left

section
variable (hm : lx.mode = .code)
include hm

theorem skip_operator (op : BinaryOp) (r : Chars) :
    skip verbatim lx (op.chars ++ ' ' :: r) = .ok (lx, op.chars ++ ' ' :: r) := by
  obtain ⟨m, l⟩ := lx
  cases hm
  cases op <;> exact skip_stop rfl rfl

theorem skip_close (r : Chars) : skip verbatim lx (')' :: r) = .ok (lx, ')' :: r) := by
  obtain ⟨m, l⟩ := lx
  cases hm
  exact skip_stop rfl rfl

theorem skip_unary (op : UnaryOp) (r : Chars) : skip verbatim lx (op.char :: r) = .ok (lx, op.char :: r) := by
  obtain ⟨m, l⟩ := lx
  cases hm
  cases op <;> exact skip_stop rfl rfl

/-- A symbol stands in code; `R` before a quote and a parenthesis would open a literal. -/
theorem skip_symbol {c : Char} {r : Chars} (hc : isSymbolChar c = true) (hr : c = 'R' → ∀ u, r ≠ '"' :: '(' :: u) :
    skip verbatim lx (c :: r) = .ok (lx, c :: r) := by
  obtain ⟨m, l⟩ := lx
  cases hm
  have hsp : isSpaceOrNewline c = false := by
    simp [isSpaceOrNewline, isSpace_of_isSymbolChar hc, ne_of_isSymbolChar hc]
  refine skip_stop hsp ?_
  have hcont : afterContinuation? (c :: r) = none := by simp [afterContinuation?, ne_of_isSymbolChar hc]
  unfold move
  rw [hcont]
  by_cases hR : c = 'R'
  · subst hR
    have hraw := hr rfl
    simp only [moveIn, moveCode]
    split <;> simp_all
  · exact moveCode_word hc hR

end

/-! ## What follows a condition -/

theorem skip_lineEnd (hm : lx.mode = .code) (nl : Newline) :
    skip verbatim lx nl.chars = .ok (⟨.code, .start⟩, []) := by
  have hfits : lx.Fits verbatim := fun _ => hm
  have hend : skip verbatim lx [] = .ok (lx, []) := skip_nil lx
  have hskip := skip_newline nl hfits List.not_mem_nil hend (.inl hm)
  refine hskip.resolve_right fun h => ?_
  rw [hm] at h
  cases h.2.1

namespace Trails

theorem again (h : Trails verbatim lx ly level rest r) : skip verbatim ly r = .ok (ly, r) := skip_again h.skips

theorem mono {level' : Nat} (h : Trails verbatim lx ly level rest r) (hl : level ≤ level') :
    Trails verbatim lx ly level' rest r :=
  { h with looser := fun op hop => Nat.le_trans (h.looser op hop) hl }

theorem nil : Trails verbatim lx lx level [] [] := ⟨skip_nil lx, rfl, nofun, nofun, nofun⟩

theorem close (hm : lx.mode = .code) (u : Chars) : Trails verbatim lx lx level (')' :: u) (')' :: u) :=
  ⟨skip_close hm u, rfl, by simp, by simp, nofun⟩

theorem operator (hm : lx.mode = .code) {op : BinaryOp} (hl : op.level ≤ level) (u : Chars) :
    Trails verbatim lx lx level (' ' :: op.chars ++ ' ' :: u) (op.chars ++ ' ' :: u) where
  skips := by
    have hs : lx.mode.isSplit = false := by simp [hm, Mode.isSplit]
    exact (skip_space hs).trans (skip_operator hm op u)
  ends := rfl
  unquoted := by simp
  unopened := by cases op <;> simp [BinaryOp.chars]
  looser := by
    intro op' hop
    rw [ofChars?_operator] at hop
    cases hop
    exact hl

theorem newline (hm : lx.mode = .code) (nl : Newline) : Trails verbatim lx ⟨.code, .start⟩ level nl.chars [] where
  skips := skip_lineEnd hm nl
  ends := by cases nl <;> rfl
  unquoted := by cases nl <;> simp [Newline.chars]
  unopened := nofun
  looser := nofun

end Trails

theorem Resumes.skip {p : Lexical × Chars} (hr : Resumes lx ly rest r p) (h : Trails verbatim lx ly level rest r) :
    CondResolve.skip verbatim p.1 p.2 = .ok (ly, r) := by
  rcases hr with rfl | rfl
  · exact h.skips
  · exact h.again

theorem findKeyword_hash {w : Chars} (hw : StartsWord w) :
    findKeyword verbatim {} ('#' :: w) = .ok (⟨.code, .hash⟩, w) := by
  obtain ⟨a, u, rfl, ha, hR⟩ := hw
  have hhash : skip verbatim {} ('#' :: a :: u) = .ok ({}, '#' :: a :: u) := skip_stop rfl rfl
  have hword : skip verbatim ⟨.code, .hash⟩ (a :: u) = .ok (⟨.code, .hash⟩, a :: u) :=
    skip_symbol rfl ha fun he => absurd he hR
  unfold findKeyword
  rw [hhash]
  exact hword

/-! ## Readings -/

theorem UnaryOp.ofChar?_char (op : UnaryOp) : ofChar? op.char = some op := by cases op <;> rfl

theorem UnaryOp.ofChar?_symbolChar {c : Char} (hc : isSymbolChar c = true) : ofChar? c = none := by
  have hne : c ≠ '!' ∧ c ≠ '~' ∧ c ≠ '-' := by
    refine ⟨?_, ?_, ?_⟩ <;> rintro rfl <;> cases hc
  simp [ofChar?, char, hne.1.symm, hne.2.1.symm, hne.2.2.symm]

theorem Reading.after_after (p : Reading) (c d : List Instr) : (p.after d).after c = p.after (c ++ d) := by
  simp [Reading.after]

theorem Reading.done_bind (c : List Instr) (k : Lexical → Chars → Reading) :
    (Reading.done c lx rest).bind k = (k lx rest).after c := rfl

theorem Reading.done_nested (c : List Instr) (calls : Nat) :
    (Reading.done c lx rest).nested calls = .done (.enter calls :: c ++ [.leave calls]) lx rest := rfl

theorem Reading.done_after (c d : List Instr) : (Reading.done d lx rest).after c = .done (c ++ d) lx rest := rfl

theorem climb_tight (cs : Chars) : climb verbatim (BinaryOp.maxLevel + 1) lx cs = operand verbatim lx cs := by
  rw [climb_eq]
  obtain ⟨code, _ | ⟨ly, rest⟩⟩ := operand verbatim lx cs
  · rfl
  · calc (Reading.done code ly rest).bind (climbOn verbatim (BinaryOp.maxLevel + 1))
      _ = (climbOn verbatim (BinaryOp.maxLevel + 1) ly rest).after code := Reading.done_bind ..
      _ = Reading.done (code ++ []) ly rest := by rw [climbOn_tight (Nat.lt_succ_self _), Reading.done_after]
      _ = Reading.done code ly rest := by rw [List.append_nil]

/-- The reader stops where no operator stands, or one that binds less tightly than it looks for. -/
theorem climbOn_stops {cs : Chars} (h : skip verbatim lx cs = .ok (ly, rest))
    (ho : ∀ op, BinaryOp.ofChars? rest = some op → op.level < least) :
    climbOn verbatim least lx cs = .done [] lx cs ∨ climbOn verbatim least lx cs = .done [] ly rest := by
  by_cases hl : BinaryOp.maxLevel < least
  · exact .inl (climbOn_tight hl)
  · exact .inr (climbOn_stop (Nat.not_lt.1 hl) h ho)

theorem climbOn_spaced {cs : Chars} {op : BinaryOp} (h : skip verbatim lx cs = .ok (ly, op.chars ++ ' ' :: r))
    (hl : least ≤ op.level) : climbOn verbatim least lx cs =
      (climb verbatim (op.level + 1) ly (' ' :: r)).bind fun lx rest =>
        (climbOn verbatim least lx rest).after [.binary op lx] := by
  rw [climbOn_operator hl h (ofChars?_operator ..), drop_operator]

/-! ## Atoms -/

theorem takeWhile_append_ends {p : Char → Bool} {w : Chars} (hp : ∀ c, p c = true → isSymbolChar c = true)
    (hw : ∀ c ∈ w, p c = true) (he : CondResolve.endsSymbol rest = true) :
    (w ++ rest).takeWhile p = w ∧ (w ++ rest).dropWhile p = rest := by
  have hr : ∀ c r, rest = c :: r → p c = false := by
    rintro c r rfl
    have hc : isSymbolChar c = false := by simpa [CondResolve.endsSymbol] using he
    cases h : p c with
    | false => rfl
    | true =>
      rw [hp c h] at hc
      cases hc
  rw [List.takeWhile_append_of_pos hw, List.dropWhile_append_of_pos hw]
  cases rest with
  | nil => simp
  | cons c r => simp [hr c r rfl]

theorem isSymbolChar_of_isDigit {c : Char} (h : isDigit c = true) : isSymbolChar c = true := by
  simp [isSymbolChar, h]

theorem isDigit_of_mem_toDigits {n : Nat} {c : Char} (h : c ∈ Nat.toDigits 10 n) : isDigit c = true := by
  have hc := Nat.isDigit_of_mem_toDigits (by decide) (by decide) h
  simpa [Char.isDigit, isDigit, Char.le_def] using hc

theorem symbolChar_defined : ∀ c ∈ "defined".toList, isSymbolChar c = true := by
  have h : "defined".toList.all isSymbolChar = true := rfl
  exact List.all_eq_true.mp h

theorem symbolChar_of_isSymbol {name : Chars} (hn : isSymbol name = true) :
    name ≠ [] ∧ ∀ c ∈ name, isSymbolChar c = true := by
  simpa [isSymbol] using hn

theorem not_mem_of_isSymbol {name : Chars} (hn : isSymbol name = true) : '\n' ∉ name := by
  intro hmem
  have hc := (symbolChar_of_isSymbol hn).2 _ hmem
  cases hc

theorem Ident.symbolChar {x : Ident} : ∀ c ∈ x.chars, isSymbolChar c = true := (symbolChar_of_isSymbol x.symbol).2

theorem Ident.exists_cons (x : Ident) :
    ∃ c r, x.chars = c :: r ∧ isSymbolChar c = true ∧ isDigit c = false := by
  have hs := x.symbol
  have hd := x.leading
  have hall := x.symbolChar
  cases hx : x.chars with
  | nil =>
    rw [hx] at hs
    cases hs
  | cons c r =>
    rw [hx] at hd hall
    exact ⟨c, r, rfl, hall c List.mem_cons_self, by simpa using hd⟩

theorem Ident.ne_nil (x : Ident) : x.chars ≠ [] := by
  obtain ⟨c, r, hx, -, -⟩ := x.exists_cons
  simp [hx]

theorem Ident.symbolOf_append (x : Ident) (he : CondResolve.endsSymbol rest = true) :
    symbolOf (x.chars ++ rest) = x.chars ∧ afterSymbol (x.chars ++ rest) = rest :=
  takeWhile_append_ends (fun _ h => h) x.symbolChar he

theorem Ident.afterWord?_defined (x : Ident) (he : CondResolve.endsSymbol rest = true) :
    afterWord? "defined".toList (x.chars ++ rest) = none := by
  cases h : afterWord? "defined".toList (x.chars ++ rest) with
  | none => rfl
  | some r =>
    obtain ⟨hr, he'⟩ := afterWord?_eq_some.1 h
    have h₁ : (x.chars ++ rest).takeWhile isSymbolChar = x.chars := (x.symbolOf_append he).1
    have h₂ := (takeWhile_append_ends (fun _ h => h) symbolChar_defined he').1
    rw [hr, h₂] at h₁
    exact absurd h₁.symm x.ne_defined

theorem definedTest_bare {cs r : Chars} {c : Char} (h : skip verbatim lx cs = .ok (lx, c :: r)) (hc : c ≠ '(') :
    definedTest verbatim lx cs = definedName verbatim false lx (c :: r) := by
  unfold definedTest
  rw [h]
  split
  · simp_all
  · simp_all
  · rename_i h'
    cases h'
    rfl

theorem definedName_bare (x : Ident) (h : Trails verbatim lx ly level rest r) :
    definedName verbatim false lx (x.chars ++ rest) = .done [.mention x.name, .defined (some x.name)] ly r := by
  obtain ⟨hname, hrest⟩ := x.symbolOf_append h.ends
  have hne : x.chars.isEmpty = false := by simp [x.ne_nil]
  unfold definedName
  rw [hname, hrest, hne, h.skips]
  rfl

theorem definedName_paren (x : Ident) (hs : skip verbatim lx (')' :: rest) = .ok (lx, ')' :: rest)) :
    definedName verbatim true lx (x.chars ++ ')' :: rest) =
      .done [.mention x.name, .defined (some x.name)] lx rest := by
  have hends : CondResolve.endsSymbol (')' :: rest) = true := rfl
  obtain ⟨hname, hrest⟩ := x.symbolOf_append hends
  have hne : x.chars.isEmpty = false := by simp [x.ne_nil]
  unfold definedName
  rw [hname, hrest, hne, hs]
  rfl

section
variable (hm : lx.mode = .code)
include hm

theorem skip_word_append {w : Chars} (hne : w ≠ []) (hw : ∀ c ∈ w, isSymbolChar c = true)
    (hq : rest.head? ≠ some '"') : skip verbatim lx (w ++ rest) = .ok (lx, w ++ rest) := by
  cases w with
  | nil => exact absurd rfl hne
  | cons c r =>
    refine skip_symbol hm (hw c List.mem_cons_self) fun _ u hu => ?_
    cases r with
    | nil =>
      have hu : rest = '"' :: '(' :: u := hu
      exact hq (by rw [hu]; rfl)
    | cons d r =>
      obtain ⟨-, -, -, -, -, hd, -⟩ := ne_of_isSymbolChar (hw d (by simp))
      exact hd (List.cons.inj hu).1

/-- A scan passes a word, but for the one that ends in the `R` of a raw literal. -/
theorem drain_symbolChars {w : Chars} (hw : ∀ c ∈ w, isSymbolChar c = true)
    (hr : w.getLast? = some 'R' → ∀ u, rest ≠ '"' :: '(' :: u) :
    drain verbatim lx (w ++ rest) = drain verbatim lx rest := by
  induction w with
  | nil => rfl
  | cons c w ih =>
    have hskip : skip verbatim lx (c :: (w ++ rest)) = .ok (lx, c :: (w ++ rest)) := by
      refine skip_symbol hm (hw c List.mem_cons_self) fun hc u hu => ?_
      cases w with
      | nil => exact hr (by rw [hc]; rfl) u hu
      | cons d w =>
        obtain ⟨-, -, -, -, -, hd, -⟩ := ne_of_isSymbolChar (hw d (by simp))
        exact hd (List.cons.inj hu).1
    refine (drain_next hskip).trans (ih (fun d hd => hw d (List.mem_cons_of_mem c hd)) fun hl => hr ?_)
    rw [List.getLast?_cons, hl]
    rfl

theorem operand_word {w : Chars} (hne : w ≠ []) (hw : ∀ c ∈ w, isSymbolChar c = true)
    (hq : rest.head? ≠ some '"') : operand verbatim lx (w ++ rest) = atom verbatim lx (w ++ rest) := by
  have hs : skip verbatim lx (w ++ rest) = .ok (lx, w ++ rest) := skip_word_append hm hne hw hq
  cases w with
  | nil => exact absurd rfl hne
  | cons c r =>
    have hc := hw c List.mem_cons_self
    exact operand_atom hs (UnaryOp.ofChar?_symbolChar hc) (by simp [ne_of_isSymbolChar hc])

omit hm in
theorem skipArgs_trails (h : Trails verbatim lx ly level rest r) : skipArgs verbatim lx rest = .ok (ly, r) := by
  unfold skipArgs
  rw [h.skips]
  split
  · rename_i h'
    cases h'
    exact absurd rfl h.unopened
  · rfl

theorem operand_number {ds : Chars} (hne : ds ≠ []) (hd : ∀ d ∈ ds, isDigit d = true)
    (h : Trails verbatim lx ly level rest r) :
    operand verbatim lx (ds ++ rest) = .done [.numeral ds] lx rest := by
  obtain ⟨htake, hdrop⟩ := takeWhile_append_ends (fun _ => isSymbolChar_of_isDigit) hd h.ends
  rw [operand_word hm hne (fun c hc => isSymbolChar_of_isDigit (hd c hc)) h.unquoted]
  cases ds with
  | nil => exact absurd rfl hne
  | cons c ds =>
    rw [List.cons_append] at htake hdrop ⊢
    rw [atom, if_pos (hd c List.mem_cons_self), htake, hdrop]

theorem operand_ident (x : Ident) (h : Trails verbatim lx ly level rest r) :
    operand verbatim lx (x.chars ++ rest) = .done [.load x.name lx] ly r := by
  obtain ⟨hname, hrest⟩ := x.symbolOf_append h.ends
  have hdef := x.afterWord?_defined h.ends
  obtain ⟨c, u, hx, hc, hd⟩ := x.exists_cons
  rw [operand_word hm x.ne_nil x.symbolChar h.unquoted]
  have hatom : atom verbatim lx (x.chars ++ rest) = symbolUse verbatim lx (x.chars ++ rest) := by
    rw [hx, List.cons_append] at hdef ⊢
    simp only [atom, hd, hdef, hc, Bool.false_eq_true, if_false, if_true]
  rw [hatom, symbolUse, hname, hrest, skipArgs_trails h]
  rfl

theorem operand_defined (x : Ident) (h : Trails verbatim lx ly level rest r) :
    operand verbatim lx ("defined ".toList ++ x.chars ++ rest) =
      .done [.mention x.name, .defined (some x.name)] ly r := by
  have hs : lx.mode.isSplit = false := by simp [hm, Mode.isSplit]
  obtain ⟨c, u, hx, hc, -⟩ := x.exists_cons
  have hskip : skip verbatim lx (' ' :: (x.chars ++ rest)) = .ok (lx, x.chars ++ rest) := by
    rw [skip_space hs]
    exact skip_word_append hm x.ne_nil x.symbolChar h.unquoted
  calc operand verbatim lx ("defined ".toList ++ x.chars ++ rest)
    _ = operand verbatim lx ("defined".toList ++ ' ' :: (x.chars ++ rest)) := by simp
    _ = atom verbatim lx ("defined".toList ++ ' ' :: (x.chars ++ rest)) :=
      operand_word hm (by decide) symbolChar_defined (by simp)
    _ = definedTest verbatim lx (' ' :: (x.chars ++ rest)) := rfl
    _ = definedName verbatim false lx (x.chars ++ rest) := by
      rw [hx] at hskip ⊢
      exact definedTest_bare hskip (by simp [ne_of_isSymbolChar hc])
    _ = _ := definedName_bare x h

theorem operand_defined_paren (x : Ident) :
    operand verbatim lx ("defined(".toList ++ x.chars ++ [')'] ++ rest) =
      .done [.mention x.name, .defined (some x.name)] lx rest := by
  have hskip : skip verbatim lx (x.chars ++ ')' :: rest) = .ok (lx, x.chars ++ ')' :: rest) :=
    skip_word_append hm x.ne_nil x.symbolChar (by simp)
  have hopen : skip verbatim lx ('(' :: (x.chars ++ ')' :: rest)) = .ok (lx, '(' :: (x.chars ++ ')' :: rest)) :=
    skip_paren hm
  calc operand verbatim lx ("defined(".toList ++ x.chars ++ [')'] ++ rest)
    _ = operand verbatim lx ("defined".toList ++ '(' :: (x.chars ++ ')' :: rest)) := by simp
    _ = atom verbatim lx ("defined".toList ++ '(' :: (x.chars ++ ')' :: rest)) :=
      operand_word hm (by decide) symbolChar_defined (by simp)
    _ = definedTest verbatim lx ('(' :: (x.chars ++ ')' :: rest)) := rfl
    _ = definedName verbatim true lx (x.chars ++ ')' :: rest) := by simp only [definedTest, hopen, hskip]
    _ = _ := definedName_paren x (skip_close hm rest)

/-! ## Trees -/

theorem closeParen_close : closeParen verbatim lx (')' :: rest) = .done [] lx rest := by
  have hs : skip verbatim lx (')' :: rest) = .ok (lx, ')' :: rest) := skip_close hm rest
  simp only [closeParen, hs]

/-- Reading `cs` gives code of `e` and goes on with `rest`. -/
def ClimbsTo (A : Demand → Prop) (verbatim : Bool) (lx ly : Lexical) (least deep : Nat) (e : Condition)
    (cs rest r : Chars) : Prop :=
  ∃ code lz rest', e.Coded A lx ly deep code ∧ Resumes lx ly rest r (lz, rest') ∧
    climb verbatim least lx cs = (climbOn verbatim least lz rest').after code

theorem climbsTo_of_operand {e : Condition} {sp cs rest' : Chars} {code : List Instr} (hsp : sp = [] ∨ sp = [' '])
    (hc : e.Coded A lx ly deep code) (ho : operand verbatim lx (cs ++ rest) = .done code lz rest')
    (hr : Resumes lx ly rest r (lz, rest')) : ClimbsTo A verbatim lx ly least deep e (sp ++ cs ++ rest) rest r := by
  have hs : lx.mode.isSplit = false := by simp [hm, Mode.isSplit]
  have hop : operand verbatim lx (sp ++ cs ++ rest) = .done code lz rest' := by
    rcases hsp with rfl | rfl
    · exact ho
    · exact (operand_space hs).trans ho
  refine ⟨code, lz, rest', hc, hr, ?_⟩
  rw [climb_eq, hop, Reading.done_bind]

omit hm in
/-- Behind a condition the reader stops at an operator that binds less tightly. -/
theorem climbOn_trails (h : Trails verbatim lx ly level rest r) (hl : level < least) {rest' : Chars}
    (hr : Resumes lx ly rest r (lz, rest')) : ∃ lw rest'', Resumes lx ly rest r (lw, rest'') ∧
      climbOn verbatim least lz rest' = .done [] lw rest'' := by
  have hs : skip verbatim lz rest' = .ok (ly, r) := hr.skip h
  rcases climbOn_stops hs fun op hop => Nat.lt_of_le_of_lt (h.looser op hop) hl with h' | h'
  · exact ⟨lz, rest', hr, h'⟩
  · exact ⟨ly, r, .inr rfl, h'⟩

theorem climbsTo_binary {op : BinaryOp} {e e' : Condition} {sp cs ds : Chars} (hl : least ≤ op.level)
    (h : Trails verbatim lx ly op.level rest r)
    (hcs : ∀ u, ClimbsTo A verbatim lx lx least deep e (sp ++ cs ++ (' ' :: op.chars ++ ' ' :: u))
      (' ' :: op.chars ++ ' ' :: u) (op.chars ++ ' ' :: u))
    (hds : ClimbsTo A verbatim lx ly (op.level + 1) deep e' ([' '] ++ ds ++ rest) rest r) :
    ClimbsTo A verbatim lx ly least deep (.binary op e e')
    (sp ++ (cs ++ ' ' :: op.chars ++ ' ' :: ds) ++ rest) rest r := by
  obtain ⟨p, l₁, r₁, hp, hr₁, hleft⟩ := hcs (ds ++ rest)
  obtain ⟨q, l₂, r₂, hq, hr₂, hright⟩ := hds
  obtain ⟨l₃, r₃, hr₃, hstop⟩ := climbOn_trails h (Nat.lt_succ_self _) hr₂
  have hs : skip verbatim l₁ r₁ = .ok (lx, op.chars ++ ' ' :: (ds ++ rest)) :=
    hr₁.skip (.operator hm (Nat.le_refl _) _)
  have hl₃ : l₃ = lx ∨ l₃ = ly := hr₃.imp (congrArg Prod.fst) (congrArg Prod.fst)
  have hright' : climb verbatim (op.level + 1) lx (' ' :: (ds ++ rest)) = .done q l₃ r₃ := by
    have h' : climb verbatim (op.level + 1) lx (' ' :: (ds ++ rest)) = _ := hright
    rw [h', hstop, Reading.done_after, List.append_nil]
  refine ⟨p ++ q ++ [.binary op l₃], l₃, r₃, .binary hp.mono hq hl₃, hr₃, ?_⟩
  calc climb verbatim least lx (sp ++ (cs ++ ' ' :: op.chars ++ ' ' :: ds) ++ rest)
    _ = climb verbatim least lx (sp ++ cs ++ (' ' :: op.chars ++ ' ' :: (ds ++ rest))) := by simp
    _ = (climbOn verbatim least l₁ r₁).after p := hleft
    _ = (((climbOn verbatim least l₃ r₃).after [.binary op l₃]).after q).after p := by
      rw [climbOn_spaced hs hl, hright', Reading.done_bind]
    _ = (climbOn verbatim least l₃ r₃).after (p ++ q ++ [.binary op l₃]) := by
      simp only [Reading.after_after, List.append_assoc]

theorem operand_parens {e : Condition} {cs : Chars} (hd : A (.nesting (deep + parenCalls)))
    (h : ClimbsTo A verbatim lx lx 0 (deep + parenCalls) e (cs ++ ')' :: rest) (')' :: rest) (')' :: rest)) :
    ∃ code, e.Coded A lx lx deep code ∧ operand verbatim lx ('(' :: cs ++ [')'] ++ rest) = .done code lx rest := by
  obtain ⟨code, lz, rest', hc, hr, hclimb⟩ := h
  obtain ⟨rfl, rfl⟩ : lz = lx ∧ rest' = ')' :: rest := Prod.mk.inj (hr.elim id id)
  have hs : skip verbatim lz (')' :: rest) = .ok (lz, ')' :: rest) := skip_close hm rest
  have hstop : climbOn verbatim 0 lz (')' :: rest) = .done [] lz (')' :: rest) := by
    rcases climbOn_stops hs (fun op hop => by cases hop) with h' | h' <;> exact h'
  have hopen : skip verbatim lz ('(' :: (cs ++ ')' :: rest)) = .ok (lz, '(' :: (cs ++ ')' :: rest)) := skip_paren hm
  refine ⟨_, .parens hd hc, ?_⟩
  calc operand verbatim lz ('(' :: cs ++ [')'] ++ rest)
    _ = operand verbatim lz ('(' :: (cs ++ ')' :: rest)) := by simp
    _ = ((Reading.done code lz (')' :: rest)).nested parenCalls).bind fun lx rest =>
      closeParen verbatim lx rest := by
      rw [operand_paren hopen, hclimb, hstop, Reading.done_after, List.append_nil]
    _ = (closeParen verbatim lz (')' :: rest)).after (.enter parenCalls :: code ++ [.leave parenCalls]) := by
      rw [Reading.done_nested, Reading.done_bind]
    _ = .done (.enter parenCalls :: code ++ [.leave parenCalls]) lz rest := by
      rw [closeParen_close hm, Reading.done_after, List.append_nil]

/-- A condition is read into its code, and no further, however it is spelled. -/
theorem climbsTo_spelled {e : Condition} {sp cs : Chars} (he : e.Spelled A level deep cs)
    (hsp : sp = [] ∨ sp = [' ']) (hl : least ≤ level) (hmax : level ≤ BinaryOp.maxLevel + 1)
    (h : Trails verbatim lx ly level rest r) :
    ClimbsTo A verbatim lx ly least deep e (sp ++ cs ++ rest) rest r := by
  induction he generalizing sp least ly rest r with
  | number level deep hne hd hallow =>
    exact climbsTo_of_operand hm hsp (.number hallow) (operand_number hm hne hd h) (.inl rfl)
  | symbol x level => exact climbsTo_of_operand hm hsp (.symbol x) (operand_ident hm x h) (.inr rfl)
  | defined x level => exact climbsTo_of_operand hm hsp (.defined x false) (operand_defined hm x h) (.inr rfl)
  | definedParen x level =>
    exact climbsTo_of_operand hm hsp (.defined x true) (operand_defined_paren hm x) (.inl rfl)
  | @unary op e cs level deep hd _ ih =>
    obtain ⟨code, lz, rest', hc, hr, hclimb⟩ := ih (.inl rfl) (Nat.le_refl _) (Nat.le_refl _) (h.mono hmax)
    rw [climb_tight, climbOn_tight (Nat.lt_succ_self _), Reading.done_after, List.append_nil,
      List.nil_append] at hclimb
    refine climbsTo_of_operand hm hsp (.unary hd hc) ?_ hr
    have hs : skip verbatim lx (op.char :: (cs ++ rest)) = .ok (lx, op.char :: (cs ++ rest)) := skip_unary hm op _
    calc operand verbatim lx (op.char :: cs ++ rest)
      _ = ((operand verbatim lx (cs ++ rest)).nested unaryCalls).bind fun lz rest => .done [.unary op] lz rest :=
        operand_unary hs op.ofChar?_char
      _ = .done (.enter unaryCalls :: code ++ [.leave unaryCalls] ++ [.unary op]) lz rest' := by
        rw [hclimb, Reading.done_nested, Reading.done_bind, Reading.done_after]
  | @binary op e e' level deep cs ds hle _ _ ihl ihr =>
    -- The operator follows the left operand; what follows the whole follows the right one.
    have hop := op.level_le
    have htr := h.mono hle
    have hleft : ∀ u, ClimbsTo A verbatim lx lx least deep e (sp ++ cs ++ (' ' :: op.chars ++ ' ' :: u))
        (' ' :: op.chars ++ ' ' :: u) (op.chars ++ ' ' :: u) := by
      intro u
      exact ihl hsp (Nat.le_trans hl hle) (Nat.le_succ_of_le hop) (.operator hm (Nat.le_refl _) u)
    have hright : ClimbsTo A verbatim lx ly (op.level + 1) deep e' ([' '] ++ ds ++ rest) rest r :=
      ihr (.inr rfl) (Nat.le_refl _) (Nat.succ_le_succ hop) (htr.mono (Nat.le_succ _))
    exact climbsTo_binary hm (Nat.le_trans hl hle) htr hleft hright
  | @parens e cs level deep hd _ ih =>
    obtain ⟨code, hc, hparens⟩ := operand_parens hm hd
      (ih (.inl rfl) (Nat.le_refl _) (Nat.zero_le _) (.close hm rest))
    exact climbsTo_of_operand hm hsp hc.mono hparens (.inl rfl)

/-- At the end of the line, too, the reader has read the condition and stops. -/
theorem climb_spelled {e : Condition} {sp cs : Chars} (he : e.Spelled A 0 deep cs) (hsp : sp = [] ∨ sp = [' '])
    (h : Trails verbatim lx ly 0 rest []) :
    ∃ code, e.Coded A lx ly deep code ∧ climb verbatim 0 lx (sp ++ cs ++ rest) = .done code ly [] := by
  obtain ⟨code, lz, rest', hc, hr, hclimb⟩ := climbsTo_spelled hm he hsp (Nat.le_refl _) (Nat.zero_le _) h
  have hend : skip verbatim lz rest' = .ok (ly, []) := hr.skip h
  refine ⟨code, hc, ?_⟩
  rw [hclimb, climbOn_stop (Nat.zero_le _) hend (fun op hop => by cases hop), Reading.done_after, List.append_nil]

omit hm in
theorem Condition.spelled_textAt {k : Knowledge} {e : Condition} (h : ∀ d ∈ e.demandsAt k least deep, A d) :
    e.Spelled A least deep (e.textAt least) := by
  induction e generalizing least deep with
  | number n =>
    have hval : digitsValue (Nat.toDigits 10 n) = n := Nat.ofDigitChars_ten_toDigits
    have hdigits := Spelled.number least deep Nat.toDigits_ne_nil (fun d hd => isDigit_of_mem_toDigits (n := n) hd)
      (h _ List.mem_cons_self)
    rwa [hval] at hdigits
  | symbol x => exact .symbol x least deep
  | defined x paren =>
    cases paren with
    | false => exact .defined x least deep
    | true => exact .definedParen x least deep
  | unary op e ih =>
    obtain ⟨hd, he⟩ := List.forall_mem_cons.1 h
    exact .unary least deep hd (ih he)
  | binary op l r ihl ihr =>
    by_cases hlt : op.level < least
    · rw [demandsAt, if_pos hlt, List.forall_mem_cons, List.forall_mem_append] at h
      obtain ⟨hd, hl, hr⟩ := h
      rw [textAt_paren hlt]
      exact .parens least deep hd (.binary (Nat.zero_le _) (ihl hl) (ihr hr))
    · rw [demandsAt, if_neg hlt, List.forall_mem_append] at h
      rw [textAt_bare (Nat.not_lt.1 hlt)]
      exact .binary (Nat.not_lt.1 hlt) (ihl h.1) (ihr h.2)

omit hm in
theorem Condition.valueDemand_mem {k : Knowledge} {e : Condition} {x : Ident} (hx : .symbol x ∈ e.parts)
    {d : Demand} (hd : d ∈ valueDemand? k x.name) : d ∈ e.demandsAt k least deep := by
  induction e generalizing least deep with
  | unary op e ih =>
    obtain h | h := List.mem_cons.1 hx
    · cases h
    · exact List.mem_cons_of_mem _ (ih h)
  | binary op l r ihl ihr =>
    have hmem : ∀ deep, d ∈ l.demandsAt k op.level deep ++ r.demandsAt k (op.level + 1) deep := by
      intro deep
      rcases mem_parts_binary.1 hx with h | h | h
      · cases h
      · exact List.mem_append_left _ (ihl h)
      · exact List.mem_append_right _ (ihr h)
    rw [demandsAt]
    split
    · exact List.mem_cons_of_mem _ (hmem _)
    · exact hmem _
  | symbol y =>
    obtain h := List.mem_singleton.1 hx
    cases h
    exact Option.mem_toList.2 hd
  | _ =>
    obtain h := List.mem_singleton.1 hx
    cases h

/-- The evaluation asks for nothing but what the text of the condition does. -/
theorem mem_demandsAt_of_mem_demands (verbatim : Bool) (s : Settings) (k : Knowledge) (e : Condition) {d : Demand}
    (hd : d ∈ demands s verbatim k lx e.text) : d ∈ e.demandsAt k 0 0 := by
  obtain ⟨code, hc, hclimb⟩ : ∃ code, e.Coded (· ∈ e.demandsAt k 0 0) lx lx 0 code ∧
      climb verbatim 0 lx ([] ++ e.textAt 0 ++ []) = .done code lx [] :=
    climb_spelled hm (Condition.spelled_textAt fun _ hd => hd) (.inl rfl) .nil
  rw [List.nil_append, List.append_nil] at hclimb
  unfold demands Condition.text at hd
  rw [hclimb] at hd
  exact (asked_coded hc fun x hx _ hv => Condition.valueDemand_mem hx hv).1 d (demands_starts_asked.subset hd)

theorem result_text (verbatim : Bool) (s : Settings) (k : Knowledge) (e : Condition) :
    (evaluate s verbatim k lx e.text).result =
      match e.meaning s.strictLogic k with
      | .error f => .error (.fault f lx)
      | .ok m => .ok (⟨if s.forceConstantUnresolved && e.isConstant then .unknown else m.truth, m.word.toInt⟩,
          lx, []) := by
  obtain ⟨code, hc, hclimb⟩ : ∃ code, e.Coded (fun _ => True) lx lx 0 code ∧
      climb verbatim 0 lx ([] ++ e.textAt 0 ++ []) = .done code lx [] :=
    climb_spelled hm (Condition.spelled_textAt (k := k) fun _ _ => trivial) (.inl rfl) .nil
  rw [List.nil_append, List.append_nil] at hclimb
  unfold evaluate Condition.text
  rw [hclimb]
  cases hmean : e.meaning s.strictLogic k with
  | error f =>
    obtain ⟨lz, hz, hrun⟩ := run_coded_fault hc hmean {}
    obtain rfl : lz = lx := hz.elim id id
    simp only [Reading.done, hrun]
  | ok m =>
    simp only [Reading.done, run_coded hc hmean, Bool.true_and]
    by_cases hc : (s.forceConstantUnresolved && e.isConstant) = true
    · simp only [hc, if_true]
      rfl
    · simp only [hc]
      rfl

end

end

/-- The evaluator gives every condition its meaning, with an unknown truth if constants are left alone and
no symbol takes part in it; and it fails exactly if a part of the condition is at fault. A host with limits gives up
the evaluation only for a demand of the text that is beyond them. -/
theorem evaluate_text (lim : Limits) (s : Settings) (t : Table) (verbatim : Bool) (l : LineState) (e : Condition)
    (hs : s.listing = false) :
    (∃ d ∈ e.demandsAt t.knowledge 0 0, lim.allows d = false ∧
      evaluateOn lim s verbatim (View.knowledge s t) ⟨.code, l⟩ e.text = .error d) ∨
    ∃ v, evaluateOn lim s verbatim (View.knowledge s t) ⟨.code, l⟩ e.text = .ok v ∧
      v.result =
        (match e.meaning s.strictLogic t.knowledge with
        | .error f => .error (.fault f ⟨.code, l⟩)
        | .ok m => .ok (⟨if s.forceConstantUnresolved && e.isConstant then .unknown else m.truth, m.word.toInt⟩,
            ⟨.code, l⟩, [])) ∧
      ((∃ halt, v.result = .error halt) ↔ ∃ x ∈ e.parts, Condition.Fails s.strictLogic t.knowledge x) := by
  have hk : View.knowledge s t = t.knowledge := by simp [View.knowledge, hs]
  have hm : (Lexical.mk .code l).mode = .code := rfl
  rw [hk]
  rcases lim.impose_cases (demands s verbatim t.knowledge ⟨.code, l⟩ e.text)
    (evaluate s verbatim t.knowledge ⟨.code, l⟩ e.text) with hok | ⟨d, hd, hrefused, herror⟩
  · refine .inr ⟨_, hok, result_text hm verbatim s t.knowledge e, ?_⟩
    rw [← Condition.meaning_eq_error_iff, result_text hm verbatim s t.knowledge e]
    cases e.meaning s.strictLogic t.knowledge <;> simp
  · exact .inl ⟨d, mem_demandsAt_of_mem_demands hm verbatim s t.knowledge e hd, hrefused, herror⟩

def identA : Ident := ⟨['A'], rfl, rfl, by decide⟩

def identB : Ident := ⟨['B'], rfl, rfl, by decide⟩

def sumCondition : Condition :=
  .binary .or (.binary .eq (.binary .add (.number 1) (.binary .mul (.number 2) (.symbol identA))) (.number 7))
    (.unary .not (.defined identB true))

theorem evaluate_text_sumCondition :
    sumCondition.text = "1 + 2 * A == 7 || !defined(B)".toList ∧
    (∃ v, evaluateOn ⟨some 4300, some 960⟩ {} false (View.knowledge {} [⟨"A", some "3", false⟩]) {}
        sumCondition.text = .ok v ∧
      v.result = .ok (⟨.yes, 1⟩, {}, [])) ∧
    ¬ ∃ x ∈ sumCondition.parts, Condition.Fails false (Table.knowledge [⟨"A", some "3", false⟩]) x := by
  refine ⟨by decide, ?_⟩
  rcases evaluate_text ⟨some 4300, some 960⟩ {} [⟨"A", some "3", false⟩] false .start sumCondition rfl with
    ⟨d, hd, hrefused, -⟩ | ⟨v, hv, hres, hfail⟩
  · have hallows : ∀ d ∈ sumCondition.demandsAt (Table.knowledge [⟨"A", some "3", false⟩]) 0 0,
        Limits.allows ⟨some 4300, some 960⟩ d = true := by decide
    rw [hallows d hd] at hrefused
    cases hrefused
  · have hval : v.result = .ok (⟨.yes, 1⟩, {}, []) := hres.trans rfl
    refine ⟨⟨v, hv, hval⟩, fun h => ?_⟩
    obtain ⟨halt, herr⟩ := hfail.2 h
    rw [hval] at herr
    cases herr

end CondResolve
