import CondResolve.Expr.Reading
import CondResolve.Proofs.Loops

/-!
# Conditions are read by rules

Each rule says what a reader of conditions makes of the text at the cursor, from what other readers make of parts of
it. `yields_read`: each reader comes to its reading by finitely many rules, so that no recursion goes on forever;
and what holds of all that the rules give holds of the readers. None of the rules knows how long the text is.
-/

namespace CondResolve

def Reading.bind (p : Reading) (k : Lexical → Chars → Reading) : Reading :=
  match p.next with
  | .error _ => p
  | .ok (lx, rest) => (k lx rest).after p.code

inductive Task where
  | operand
  | climb (least : Nat)
  | climbOn (least : Nat)

def Task.read (verbatim : Bool) : Task → Lexical → Chars → Reading
  | .operand => CondResolve.operand verbatim
  | .climb least => CondResolve.climb verbatim least
  | .climbOn least => CondResolve.climbOn verbatim least

section
variable (verbatim : Bool)

inductive Yields : Task → Lexical → Chars → Reading → Prop
  | unreadable {lx : Lexical} {cs : Chars} {b : Broken} : skip verbatim lx cs = .error b →
      Yields .operand lx cs (.halt (.broken b))
  | missing {lx ly : Lexical} {cs : Chars} : skip verbatim lx cs = .ok (ly, []) →
      Yields .operand lx cs (.halt (.fault .badExpression ly))
  | unary {lx ly : Lexical} {cs r : Chars} {c : Char} {op : UnaryOp} {p : Reading} :
      skip verbatim lx cs = .ok (ly, c :: r) → UnaryOp.ofChar? c = some op → Yields .operand ly r p →
      Yields .operand lx cs ((p.nested unaryCalls).bind fun lz rest => .done [.unary op] lz rest)
  | paren {lx ly : Lexical} {cs r : Chars} {p : Reading} :
      skip verbatim lx cs = .ok (ly, '(' :: r) → Yields (.climb 0) ly r p →
      Yields .operand lx cs ((p.nested parenCalls).bind fun lz rest => closeParen verbatim lz rest)
  | atom {lx ly : Lexical} {cs r : Chars} {c : Char} :
      skip verbatim lx cs = .ok (ly, c :: r) → UnaryOp.ofChar? c = none → c ≠ '(' →
      Yields .operand lx cs (atom verbatim ly (c :: r))
  | climb {lx : Lexical} {cs : Chars} {least : Nat} {p : Reading} {k : Lexical → Chars → Reading} :
      Yields .operand lx cs p → (∀ ly rest, p.next = .ok (ly, rest) → Yields (.climbOn least) ly rest (k ly rest)) →
      Yields (.climb least) lx cs (p.bind k)
  | tight {lx : Lexical} {cs : Chars} {least : Nat} : BinaryOp.maxLevel < least →
      Yields (.climbOn least) lx cs (.done [] lx cs)
  | unreadableOn {lx : Lexical} {cs : Chars} {least : Nat} {b : Broken} :
      least ≤ BinaryOp.maxLevel → skip verbatim lx cs = .error b → Yields (.climbOn least) lx cs (.halt (.broken b))
  | stop {lx ly : Lexical} {cs rest : Chars} {least : Nat} :
      least ≤ BinaryOp.maxLevel → skip verbatim lx cs = .ok (ly, rest) →
      (∀ op, BinaryOp.ofChars? rest = some op → op.level < least) → Yields (.climbOn least) lx cs (.done [] ly rest)
  | operator {lx ly : Lexical} {cs rest : Chars} {least : Nat} {op : BinaryOp} {p : Reading}
      {k : Lexical → Chars → Reading} :
      least ≤ op.level → skip verbatim lx cs = .ok (ly, rest) → BinaryOp.ofChars? rest = some op →
      Yields (.climb (op.level + 1)) ly (rest.drop op.chars.length) p →
      (∀ lz u, p.next = .ok (lz, u) → Yields (.climbOn least) lz u (k lz u)) →
      Yields (.climbOn least) lx cs (p.bind fun lz u => (k lz u).after [.binary op lz])

end

/-! ## Readers move on -/

def Reading.Moves (cs : Chars) (p : Reading) : Prop := ∀ lx rest, p.next = .ok (lx, rest) → rest <:+ cs

namespace Reading

variable {lx : Lexical} {cs rest : Chars} {code : List Instr} {p : Reading}

theorem moves_halt (e : Halt) : (halt e).Moves cs := fun _ _ h => by cases h

theorem moves_done (h : rest <:+ cs) : (done code lx rest).Moves cs := by
  intro ly u he
  cases he
  exact h

namespace Moves

theorem after (h : p.Moves cs) : (p.after code).Moves cs := h

theorem nested (h : p.Moves cs) (calls : Nat) : (p.nested calls).Moves cs := h

theorem mono (h : p.Moves rest) (hs : rest <:+ cs) : p.Moves cs := fun lx u he => (h lx u he).trans hs

theorem bind {k : Lexical → Chars → Reading} (h : p.Moves cs)
    (hk : ∀ lx rest, p.next = .ok (lx, rest) → (k lx rest).Moves rest) : (p.bind k).Moves cs := by
  unfold Reading.bind
  split
  · exact h
  · rename_i lx rest he
    exact ((hk lx rest he).mono (h lx rest he)).after

end Moves

theorem bind_congr {k k' : Lexical → Chars → Reading}
    (h : ∀ lx rest, p.next = .ok (lx, rest) → k lx rest = k' lx rest) : p.bind k = p.bind k' := by
  obtain ⟨code, _ | ⟨lx, rest⟩⟩ := p
  · rfl
  · exact congrArg (Reading.after code) (h lx rest rfl)

/-- The bound that a reader puts on how far it can have got is never exceeded. -/
theorem andThen_eq_bind {n : Nat} {k : Lexical → Chars → Reading} (h : p.Moves cs) (hn : cs.length ≤ n) :
    (p.andThen n fun lx rest _ => k lx rest) = p.bind k := by
  obtain ⟨code, _ | ⟨lx, rest⟩⟩ := p
  · rfl
  · exact dif_pos (Nat.le_trans (h lx rest rfl).length_le hn)

end Reading

section
variable {verbatim : Bool} {lx ly : Lexical} {cs rest : Chars} {p : Reading}

theorem suffix_afterSymbol (cs : Chars) : afterSymbol cs <:+ cs := List.dropWhile_suffix _

theorem suffix_of_afterWord? {word : Chars} (h : afterWord? word cs = some rest) : rest <:+ cs := by
  unfold afterWord? at h
  split at h <;> cases h
  exact List.drop_suffix ..

theorem moves_closeParen : (closeParen verbatim lx cs).Moves cs := by
  unfold closeParen
  split
  · exact Reading.moves_halt _
  · rename_i hs
    exact Reading.moves_done ((List.suffix_cons ..).trans (suffix_of_skip hs))
  · exact Reading.moves_halt _

theorem moves_definedName {paren : Bool} : (definedName verbatim paren lx cs).Moves cs := by
  unfold definedName
  refine Reading.Moves.after ?_
  split
  · exact Reading.moves_halt _
  · rename_i ly rest hs
    have hrest : rest <:+ cs := (suffix_of_skip hs).trans (suffix_afterSymbol cs)
    split
    · split
      · exact Reading.moves_done ((List.suffix_cons ..).trans hrest)
      · exact Reading.moves_halt _
    · exact Reading.moves_done hrest

theorem moves_definedTest : (definedTest verbatim lx cs).Moves cs := by
  unfold definedTest
  split
  · exact Reading.moves_halt _
  · rename_i ly r hs
    have hr : r <:+ cs := (List.suffix_cons ..).trans (suffix_of_skip hs)
    split
    · exact Reading.moves_halt _
    · rename_i hs'
      exact moves_definedName.mono ((suffix_of_skip hs').trans hr)
  · rename_i hs
    exact moves_definedName.mono (suffix_of_skip hs)

theorem moves_symbolUse : (symbolUse verbatim lx cs).Moves cs := by
  unfold symbolUse
  refine Reading.Moves.after ?_
  split
  · exact Reading.moves_halt _
  · rename_i ha
    exact Reading.moves_done ((suffix_of_skipArgs ha).trans (suffix_afterSymbol cs))

theorem moves_atom : (atom verbatim lx cs).Moves cs := by
  unfold atom
  split
  · exact Reading.moves_halt _
  · split
    · exact Reading.moves_done (List.dropWhile_suffix _)
    · split
      · rename_i hw
        exact moves_definedTest.mono (suffix_of_afterWord? hw)
      · split
        · exact moves_symbolUse
        · exact Reading.moves_halt _

/-- No rule goes back. -/
theorem Yields.moves {task : Task} (h : Yields verbatim task lx cs p) : p.Moves cs := by
  induction h with
  | unreadable => exact Reading.moves_halt _
  | missing => exact Reading.moves_halt _
  | unary hs _ _ ih =>
    have hr := (List.suffix_cons ..).trans (suffix_of_skip hs)
    exact ((ih.nested _).bind fun _ _ _ => Reading.moves_done List.suffix_rfl).mono hr
  | paren hs _ ih =>
    have hr := (List.suffix_cons ..).trans (suffix_of_skip hs)
    exact ((ih.nested _).bind fun _ _ _ => moves_closeParen).mono hr
  | atom hs => exact moves_atom.mono (suffix_of_skip hs)
  | climb _ _ ih ihon => exact ih.bind ihon
  | tight => exact Reading.moves_done List.suffix_rfl
  | unreadableOn => exact Reading.moves_halt _
  | stop _ hs => exact Reading.moves_done (suffix_of_skip hs)
  | @operator _ _ cs rest _ op _ _ _ hs _ _ _ ih ihon =>
    have hr : rest.drop op.chars.length <:+ cs := (List.drop_suffix ..).trans (suffix_of_skip hs)
    exact (ih.bind fun lz u he => (ihon lz u he).after).mono hr

/-! ## Readers follow the rules -/

section
variable (ih : ∀ task lx u, u.length < cs.length → Yields verbatim task lx u (task.read verbatim lx u))
include ih

theorem yields_operand (lx : Lexical) : Yields verbatim .operand lx cs (operand verbatim lx cs) := by
  rw [operand]
  split
  · rename_i hs
    exact .unreadable hs
  · rename_i hs
    exact .missing hs
  · rename_i ly c r hs
    have hlen : r.length < cs.length := by
      have hlen := length_of_skip hs
      rw [List.length_cons] at hlen
      omega
    split
    · rename_i op hop
      have hp := ih .operand ly r hlen
      have h := Yields.unary hs hop hp
      rwa [← Reading.andThen_eq_bind (hp.moves.nested _) (Nat.le_refl _)] at h
    · rename_i hop
      split
      · rename_i hc
        subst hc
        have hp := ih (.climb 0) ly r hlen
        have h := Yields.paren hs hp
        rwa [← Reading.andThen_eq_bind (hp.moves.nested _) (Nat.le_refl _)] at h
      · rename_i hc
        exact .atom hs hop hc

theorem yields_climbOn (least : Nat) (lx : Lexical) :
    Yields verbatim (.climbOn least) lx cs (climbOn verbatim least lx cs) := by
  rw [climbOn]
  split
  · rename_i hl
    exact .tight hl
  · rename_i hl
    have hl : least ≤ BinaryOp.maxLevel := Nat.le_of_not_lt hl
    split
    · rename_i hs
      exact .unreadableOn hl hs
    · rename_i ly rest hs
      split
      · rename_i hop
        exact .stop hl hs fun op h => by rw [hop] at h; cases h
      · rename_i op hop
        split
        · rename_i hlt
          exact .stop hl hs fun op' h => by rw [hop] at h; cases h; exact hlt
        · rename_i hle
          have hlen : (rest.drop op.chars.length).length < cs.length := by
            have hlen := length_of_skip hs
            have hlen' := BinaryOp.length_of_ofChars? hop
            omega
          have hp := ih (.climb (op.level + 1)) ly _ hlen
          refine (Reading.andThen_eq_bind hp.moves (Nat.le_refl _)) ▸ ?_
          refine .operator (Nat.le_of_not_lt hle) hs hop hp fun lz u he => ?_
          exact ih (.climbOn least) lz u (Nat.lt_of_le_of_lt (hp.moves lz u he).length_le hlen)

end

/-- Each reader comes to its reading by the rules, on shorter texts first. -/
theorem yields_read (task : Task) : Yields verbatim task lx cs (task.read verbatim lx cs) := by
  induction hn : cs.length using Nat.strongRecOn generalizing task lx cs with
  | ind n ih =>
    subst hn
    have shorter : ∀ task lx u, u.length < cs.length → Yields verbatim task lx u (task.read verbatim lx u) :=
      fun task _ u hu => ih u.length hu task rfl
    cases task with
    | operand => exact yields_operand shorter lx
    | climb least =>
      have hp : Yields verbatim .operand lx cs (operand verbatim lx cs) := yields_operand shorter lx
      show Yields verbatim (.climb least) lx cs (climb verbatim least lx cs)
      rw [climb, Reading.andThen_eq_bind hp.moves (Nat.le_refl _)]
      refine .climb hp fun ly rest he => yields_climbOn (fun task lz u hu => ?_) least ly
      exact shorter task lz u (Nat.lt_of_lt_of_le hu (hp.moves ly rest he).length_le)
    | climbOn least => exact yields_climbOn shorter least lx

theorem moves_read (task : Task) : (task.read verbatim lx cs).Moves cs := (yields_read task).moves

theorem moves_operand : (operand verbatim lx cs).Moves cs := moves_read .operand

theorem moves_climb {least : Nat} : (climb verbatim least lx cs).Moves cs := moves_read (.climb least)

/-! ## Readers as the rules say

The readers' equations, without the bound that their recursion is guarded by. -/

section
variable {r : Chars} {c : Char} {b : Broken} {least : Nat}

theorem operand_unreadable (hs : skip verbatim lx cs = .error b) : operand verbatim lx cs = .halt (.broken b) := by
  rw [operand]
  split <;> simp_all

theorem operand_missing (hs : skip verbatim lx cs = .ok (ly, [])) :
    operand verbatim lx cs = .halt (.fault .badExpression ly) := by
  rw [operand]
  split <;> simp_all

theorem operand_unary {op : UnaryOp} (hs : skip verbatim lx cs = .ok (ly, c :: r))
    (hop : UnaryOp.ofChar? c = some op) :
    operand verbatim lx cs =
      ((operand verbatim ly r).nested unaryCalls).bind fun lz rest => .done [.unary op] lz rest := by
  rw [← Reading.andThen_eq_bind (moves_operand.nested _) (Nat.le_refl _), operand]
  split
  · simp_all
  · simp_all
  · rename_i lz d u hs'
    rw [hs] at hs'
    cases hs'
    rw [hop]

theorem operand_paren (hs : skip verbatim lx cs = .ok (ly, '(' :: r)) :
    operand verbatim lx cs =
      ((climb verbatim 0 ly r).nested parenCalls).bind fun lz rest => closeParen verbatim lz rest := by
  rw [← Reading.andThen_eq_bind (moves_climb.nested _) (Nat.le_refl _), operand]
  split
  · simp_all
  · simp_all
  · rename_i lz d u hs'
    rw [hs] at hs'
    cases hs'
    rfl

theorem operand_atom (hs : skip verbatim lx cs = .ok (ly, c :: r)) (hop : UnaryOp.ofChar? c = none) (hc : c ≠ '(') :
    operand verbatim lx cs = atom verbatim ly (c :: r) := by
  rw [operand]
  split <;> simp_all

theorem climb_eq : climb verbatim least lx cs = (operand verbatim lx cs).bind (climbOn verbatim least) := by
  rw [climb]
  exact Reading.andThen_eq_bind moves_operand (Nat.le_refl _)

theorem climbOn_tight (h : BinaryOp.maxLevel < least) : climbOn verbatim least lx cs = .done [] lx cs := by
  rw [climbOn, if_pos h]

section
variable (hl : least ≤ BinaryOp.maxLevel)
include hl

theorem climbOn_unreadable (hs : skip verbatim lx cs = .error b) :
    climbOn verbatim least lx cs = .halt (.broken b) := by
  rw [climbOn, if_neg (Nat.not_lt.2 hl)]
  split <;> simp_all

theorem climbOn_stop (hs : skip verbatim lx cs = .ok (ly, rest))
    (ho : ∀ op, BinaryOp.ofChars? rest = some op → op.level < least) :
    climbOn verbatim least lx cs = .done [] ly rest := by
  rw [climbOn, if_neg (Nat.not_lt.2 hl)]
  split
  · simp_all
  · rename_i lz u hs'
    rw [hs] at hs'
    cases hs'
    split
    · rfl
    · rename_i op hop
      rw [if_pos (ho op hop)]

end

theorem BinaryOp.level_le (op : BinaryOp) : op.level ≤ maxLevel := by cases op <;> decide

theorem climbOn_operator {op : BinaryOp} (hle : least ≤ op.level) (hs : skip verbatim lx cs = .ok (ly, rest))
    (hop : BinaryOp.ofChars? rest = some op) : climbOn verbatim least lx cs =
      (climb verbatim (op.level + 1) ly (rest.drop op.chars.length)).bind fun lz u =>
        (climbOn verbatim least lz u).after [.binary op lz] := by
  rw [← Reading.andThen_eq_bind moves_climb (Nat.le_refl _), climbOn,
    if_neg (Nat.not_lt.2 (Nat.le_trans hle op.level_le))]
  split
  · simp_all
  · rename_i lz u hs'
    rw [hs] at hs'
    cases hs'
    split
    · simp_all
    · rename_i op' hop'
      rw [hop] at hop'
      cases hop'
      rw [if_neg (Nat.not_lt.2 hle)]

end

/-- The rules give one reading, which is the reader's. -/
theorem yields_iff {task : Task} : Yields verbatim task lx cs p ↔ p = task.read verbatim lx cs := by
  constructor
  · intro h
    induction h with
    | unreadable hs => exact (operand_unreadable hs).symm
    | missing hs => exact (operand_missing hs).symm
    | unary hs hop _ ih =>
      rw [ih]
      exact (operand_unary hs hop).symm
    | paren hs _ ih =>
      rw [ih]
      exact (operand_paren hs).symm
    | atom hs hop hc => exact (operand_atom hs hop hc).symm
    | climb _ _ ih ihon =>
      rw [Reading.bind_congr ihon, ih]
      exact climb_eq.symm
    | tight h => exact (climbOn_tight h).symm
    | unreadableOn hl hs => exact (climbOn_unreadable hl hs).symm
    | stop hl hs ho => exact (climbOn_stop hl hs ho).symm
    | @operator _ _ _ _ least op _ _ hle hs hop _ _ ih ihon =>
      rw [Reading.bind_congr fun lz u he => congrArg (Reading.after [.binary op lz]) (ihon lz u he), ih]
      exact (climbOn_operator hle hs hop).symm
  · rintro rfl
    exact yields_read task

end

/-- The result of a condition: its code was run to the end, and its text read to the cursor. -/
theorem exists_of_evaluate {s : Settings} {verbatim : Bool} {k : Knowledge} {lx ly : Lexical} {cs rest : Chars}
    {a : Operand} (h : (evaluate s verbatim k lx cs).result = .ok (a, ly, rest)) :
    ∃ e, Evaluation.run k s.strictLogic {} (climb verbatim 0 lx cs).code = (e, none) ∧
      (climb verbatim 0 lx cs).next = .ok (ly, rest) ∧
      a = if s.forceConstantUnresolved && e.constant then .unknown (e.stack.headD (.unknown 0)).value
        else e.stack.headD (.unknown 0) := by
  unfold evaluate at h
  simp only at h
  split at h
  · cases h
  · rename_i hfault
    split at h
    · cases h
    · rename_i hnext
      cases h
      exact ⟨_, Prod.ext rfl hfault, hnext, rfl⟩

theorem next_of_evaluate {s : Settings} {verbatim : Bool} {k : Knowledge} {lx ly : Lexical} {cs rest : Chars}
    {a : Operand} (h : (evaluate s verbatim k lx cs).result = .ok (a, ly, rest)) :
    (climb verbatim 0 lx cs).next = .ok (ly, rest) := by
  obtain ⟨e, -, hnext, -⟩ := exists_of_evaluate h
  exact hnext

end CondResolve
