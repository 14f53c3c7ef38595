import CondResolve.Proofs.Exact
import CondResolve.Proofs.Rules

/-!
# The operands of a condition

The code of a condition keeps to its stack: every operator finds its operands there, and one operand is left in the
end. So all that holds of operators holds along an evaluation. `evaluate_words`: each operand that comes up is a
word, and each result the exact one, cut to a word.
-/

namespace CondResolve

/-! ## The stack -/

/-- The height of the stack after an instruction that finds its operands. -/
def Instr.height : Nat → Instr → Option Nat
  | n, .numeral _ => some (n + 1)
  | n, .enter _ | n, .leave _ => some n
  | n, .mention _ => some n
  | n, .defined _ => some (n + 1)
  | n, .load .. => some (n + 1)
  | n + 1, .unary _ => some (n + 1)
  | n + 2, .binary .. => some (n + 1)
  | _, _ => none

def height (n : Nat) (code : List Instr) : Option Nat := code.foldlM Instr.height n

theorem height_append (n : Nat) (p q : List Instr) : height n (p ++ q) = (height n p).bind fun m => height m q :=
  List.foldlM_append

/-- A unary operator needs one operand. -/
theorem exists_of_unary {op : UnaryOp} {st : List Operand} {m : Nat}
    (h : (Instr.unary op).height st.length = some m) :
    ∃ a st', st = a :: st' ∧ m = st'.length + 1 := by
  rcases st with _ | ⟨a, st⟩
  · cases h
  · cases h
    exact ⟨a, st, rfl, rfl⟩

/-- A binary operator needs two. -/
theorem exists_of_binary {op : BinaryOp} {lex : Lexical} {st : List Operand} {m : Nat}
    (h : (Instr.binary op lex).height st.length = some m) : ∃ a b st', st = b :: a :: st' ∧ m = st'.length + 1 := by
  rcases st with _ | ⟨b, _ | ⟨a, st⟩⟩
  · cases h
  · cases h
  · cases h
    exact ⟨a, b, st, rfl, rfl⟩

namespace Evaluation

variable {k : Knowledge} {strict : Bool} {e e' : Evaluation}

theorem length_step {i : Instr} {m : Nat} (h : i.height e.stack.length = some m)
    (hs : e.step k strict i = (e', none)) :
    e'.stack.length = m := by
  cases i with
  | numeral | enter | leave | mention | defined =>
    cases hs
    cases h
    rfl
  | load name lex =>
    simp only [step] at hs
    split at hs <;> cases hs
    cases h
    rfl
  | unary op =>
    obtain ⟨a, st, hst, rfl⟩ := exists_of_unary h
    simp only [step, hst] at hs
    cases hs
    rfl
  | binary op lex =>
    obtain ⟨a, b, st, hst, rfl⟩ := exists_of_binary h
    simp only [step, hst] at hs
    split at hs <;> cases hs
    rfl

theorem length_run {code : List Instr} {m : Nat} (h : height e.stack.length code = some m)
    (hr : e.run k strict code = (e', none)) : e'.stack.length = m := by
  induction code generalizing e with
  | nil =>
    cases hr
    cases h
    rfl
  | cons i code ih =>
    obtain ⟨n, hn, hcode⟩ := Option.bind_eq_some_iff.1 h
    rw [run] at hr
    split at hr
    · rename_i e₁ he
      rw [← length_step hn he] at hcode
      exact ih hcode hr
    · rename_i hf
      exact absurd hr (hf e')

end Evaluation

/-- On `n` operands and any below them the code finds those that it needs, and leaves `m` if all was read. -/
def Reading.Lifts (n m : Nat) (p : Reading) : Prop :=
  ∀ below, ∃ top, height (below + n) p.code = some top ∧ ∀ lx rest, p.next = .ok (lx, rest) → top = below + m

namespace Reading

variable {n m l : Nat} {lx : Lexical} {rest : Chars} {code : List Instr} {p : Reading}

theorem lifts_halt (e : Halt) : (halt e).Lifts n m := fun below => ⟨below + n, rfl, fun _ _ h => by cases h⟩

theorem lifts_done (h : ∀ below, height (below + n) code = some (below + m)) : (done code lx rest).Lifts n m :=
  fun below => ⟨below + m, h below, fun _ _ _ => rfl⟩

namespace Lifts

theorem after (h : p.Lifts l m) (hc : ∀ below, height (below + n) code = some (below + l)) :
    (p.after code).Lifts n m := by
  intro below
  obtain ⟨top, htop, hnext⟩ := h below
  exact ⟨top, by rw [Reading.after, height_append, hc, Option.bind_some, htop], hnext⟩

theorem bind {k : Lexical → Chars → Reading} (h : p.Lifts n l)
    (hk : ∀ lx rest, p.next = .ok (lx, rest) → (k lx rest).Lifts l m) : (p.bind k).Lifts n m := by
  intro below
  obtain ⟨top, htop, hnext⟩ := h below
  unfold Reading.bind
  split
  · rename_i he
    exact ⟨top, htop, fun lx rest h' => by rw [he] at h'; cases h'⟩
  · rename_i lx rest he
    obtain ⟨top', htop', hnext'⟩ := hk lx rest he below
    rw [← hnext lx rest he] at htop'
    exact ⟨top', by rw [Reading.after, height_append, htop, Option.bind_some, htop'], hnext'⟩

theorem nested (h : p.Lifts n m) (calls : Nat) : (p.nested calls).Lifts n m := by
  intro below
  obtain ⟨top, htop, hnext⟩ := h below
  have hleave : height top [.leave calls] = some top := rfl
  refine ⟨top, ?_, hnext⟩
  show height (below + n) (p.code ++ [.leave calls]) = some top
  rw [height_append, htop, Option.bind_some, hleave]

/-- One more operand below. -/
theorem succ (h : p.Lifts n m) : p.Lifts (n + 1) (m + 1) := by
  intro below
  rw [← Nat.add_assoc, ← Nat.add_assoc, Nat.add_right_comm below n, Nat.add_right_comm below m]
  exact h (below + 1)

end Lifts

end Reading

def Task.operands : Task → Nat
  | .climbOn _ => 1
  | _ => 0

section
variable {verbatim : Bool} {lx : Lexical} {cs : Chars} {n : Nat}

theorem lifts_closeParen : (closeParen verbatim lx cs).Lifts n n := by
  unfold closeParen
  split
  · exact Reading.lifts_halt _
  · exact Reading.lifts_done fun _ => rfl
  · exact Reading.lifts_halt _

theorem lifts_definedName {paren : Bool} : (definedName verbatim paren lx cs).Lifts 0 1 := by
  unfold definedName
  refine Reading.Lifts.after (l := 0) ?_ fun below => ?_
  · split
    · exact Reading.lifts_halt _
    · split
      · split
        · exact Reading.lifts_done fun _ => rfl
        · exact Reading.lifts_halt _
      · exact Reading.lifts_done fun _ => rfl
  · split <;> rfl

theorem lifts_definedTest : (definedTest verbatim lx cs).Lifts 0 1 := by
  unfold definedTest
  split
  · exact Reading.lifts_halt _
  · split
    · exact Reading.lifts_halt _
    · exact lifts_definedName
  · exact lifts_definedName

theorem lifts_symbolUse : (symbolUse verbatim lx cs).Lifts 0 1 := by
  unfold symbolUse
  refine Reading.Lifts.after (l := 1) ?_ fun _ => rfl
  split
  · exact Reading.lifts_halt _
  · exact Reading.lifts_done fun _ => rfl

theorem lifts_atom : (atom verbatim lx cs).Lifts 0 1 := by
  unfold atom
  split
  · exact Reading.lifts_halt _
  · split
    · exact Reading.lifts_done fun _ => rfl
    · split
      · exact lifts_definedTest
      · split
        · exact lifts_symbolUse
        · exact Reading.lifts_halt _

/-- Each reader gives code for one operand; that of operators goes on from a left one. -/
theorem Yields.lifts {task : Task} {p : Reading} (h : Yields verbatim task lx cs p) : p.Lifts task.operands 1 := by
  induction h with
  | unreadable => exact Reading.lifts_halt _
  | missing => exact Reading.lifts_halt _
  | unary _ _ _ ih => exact (ih.nested _).bind fun _ _ _ => Reading.lifts_done fun _ => rfl
  | paren _ _ ih => exact (ih.nested _).bind fun _ _ _ => lifts_closeParen
  | atom => exact lifts_atom
  | climb _ _ ih ihon => exact ih.bind ihon
  | tight => exact Reading.lifts_done fun _ => rfl
  | unreadableOn => exact Reading.lifts_halt _
  | stop => exact Reading.lifts_done fun _ => rfl
  | operator _ _ _ _ _ ih ihon => exact ih.succ.bind fun lz u he => (ihon lz u he).after fun _ => rfl

end

namespace Evaluation

/-- While the condition at the cursor is evaluated, its code comes to `e`, with `rest` ahead. -/
def ComesTo (s : Settings) (verbatim : Bool) (k : Knowledge) (lx : Lexical) (cs : Chars) (e : Evaluation)
    (rest : List Instr) : Prop :=
  ∃ code, (climb verbatim 0 lx cs).code = code ++ rest ∧ run k s.strictLogic {} code = (e, none)

/-- All operands are words. If an operator comes next, it finds its operands, and the step leaves its result in
their place, which is what it should be if they are known. -/
structure Proper (k : Knowledge) (strict : Bool) (e : Evaluation) (rest : List Instr) : Prop where
  words : ∀ a ∈ e.stack, a.IsWord
  unary : ∀ op code, rest = .unary op :: code →
    ∃ a st, e.stack = a :: st ∧ e.step k strict (.unary op) = ({ e with stack := op.apply a :: st }, none) ∧
      (a.isKnown = true → op.Gives a (op.apply a))
  binary : ∀ op lex code, rest = .binary op lex :: code →
    ∃ a b st, e.stack = b :: a :: st ∧
      match op.apply strict a b with
      | .ok c => e.step k strict (.binary op lex) = ({ e with stack := c :: st }, none) ∧
          (a.isKnown = true → b.isKnown = true → op.Gives a b c)
      | .error f => e.step k strict (.binary op lex) = (e, some (f, lex))

section
variable {s : Settings} {verbatim : Bool} {k : Knowledge} {lx : Lexical} {cs : Chars} {e : Evaluation}
  {rest : List Instr} (h : ComesTo s verbatim k lx cs e rest)
include h

theorem ComesTo.words : ∀ a ∈ e.stack, a.IsWord := by
  obtain ⟨code, -, hrun⟩ := h
  have hkept : ∀ a ∈ (run k s.strictLogic {} code).1.stack, a.IsWord := kept_run Operand.kept_isWord (by simp) code
  rwa [hrun] at hkept

/-- The code ahead finds its operands, and leaves one if all of the condition was read. -/
theorem ComesTo.finds : ∃ m, height e.stack.length rest = some m ∧
    ∀ ly r, (climb verbatim 0 lx cs).next = .ok (ly, r) → m = 1 := by
  obtain ⟨code, hcode, hrun⟩ := h
  have hlifts : (climb verbatim 0 lx cs).Lifts 0 1 := (yields_read (.climb 0)).lifts
  obtain ⟨m, hm, hnext⟩ := hlifts 0
  rw [hcode, height_append, Option.bind_eq_some_iff] at hm
  obtain ⟨n, hn, hrest⟩ := hm
  -- What was run so far left as many operands as the code ahead expects.
  have hlen : e.stack.length = n := length_run (e := {}) hn hrun
  rw [hlen]
  exact ⟨m, hrest, hnext⟩

theorem ComesTo.proper : e.Proper k s.strictLogic rest where
  words := h.words
  unary := by
    rintro op code rfl
    obtain ⟨m, hm, -⟩ := h.finds
    obtain ⟨n, hn, -⟩ := Option.bind_eq_some_iff.1 hm
    obtain ⟨a, st, hst, -⟩ := exists_of_unary hn
    exact ⟨a, st, hst, by simp only [step, hst], op.gives_apply⟩
  binary := by
    rintro op lex code rfl
    obtain ⟨m, hm, -⟩ := h.finds
    obtain ⟨n, hn, -⟩ := Option.bind_eq_some_iff.1 hm
    obtain ⟨a, b, st, hst, -⟩ := exists_of_binary hn
    have hwords := h.words
    rw [hst, List.forall_mem_cons, List.forall_mem_cons] at hwords
    obtain ⟨hb, ha, -⟩ := hwords
    refine ⟨a, b, st, hst, ?_⟩
    cases happly : op.apply s.strictLogic a b with
    | ok c => exact ⟨by simp only [step, hst, happly], fun hka hkb => BinaryOp.gives_of_apply ha hb hka hkb happly⟩
    | error f => simp only [step, hst, happly]

end

end Evaluation

/-- Along the evaluation of a condition all operands are words, and operators give their exact results cut to words.
In the end there is one operand, which is the result, unless a constant condition is to be left alone. -/
theorem evaluate_words (s : Settings) (verbatim : Bool) (k : Knowledge) (lx : Lexical) (cs : Chars) :
    (∀ e rest, Evaluation.ComesTo s verbatim k lx cs e rest → e.Proper k s.strictLogic rest) ∧
    ∀ a ly r, (evaluate s verbatim k lx cs).result = .ok (a, ly, r) →
      a.IsWord ∧ ∃ e b, Evaluation.ComesTo s verbatim k lx cs e [] ∧ e.stack = [b] ∧
        a = if s.forceConstantUnresolved && e.constant then .unknown b.value else b := by
  refine ⟨fun e rest h => h.proper, fun a ly r h => ?_⟩
  obtain ⟨e, hrun, hnext, rfl⟩ := exists_of_evaluate h
  have hcomes : Evaluation.ComesTo s verbatim k lx cs e [] := ⟨_, (List.append_nil _).symm, hrun⟩
  obtain ⟨m, hm, hone⟩ := hcomes.finds
  have hlen : e.stack.length = 1 := (Option.some.inj hm).trans (hone _ _ hnext)
  obtain ⟨b, hb⟩ := List.length_eq_one_iff.1 hlen
  have hword : b.IsWord := hcomes.words b (by simp [hb])
  rw [hb]
  refine ⟨?_, e, b, hcomes, hb, rfl⟩
  split
  · exact hword.unknown
  · exact hword

end CondResolve
