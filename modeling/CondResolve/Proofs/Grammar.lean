import CondResolve.Proofs.Climbing
import CondResolve.Text.Split

/-!
# The grammar of conditions

`Sentence` is the grammar that the reader of conditions is meant for: binary operators over unary ones over numbers,
symbols with arguments, `defined` tests and parentheses, with white space and comments between them. Its relations
lead from a text to what is left of it. What the scanner skips in code is a gap of the grammar. A flaw shows only
where a rest of the text is `Outside` comments, literals and arguments.
-/

namespace CondResolve

/-! ## Comments, literals and gaps -/

/-- What follows the first occurrence of `word`; nothing if there is none. -/
def pastFirst (word cs : Chars) : Chars := (cutAt? word cs).elim [] (·.2)

def pastQuote (q : Char) : Chars → Chars
  | [] => []
  | ['\\'] => []
  | '\\' :: _ :: cs => pastQuote q cs
  | c :: cs => if c = q then cs else pastQuote q cs

inductive Comment : Chars → Chars → Prop
  | block (u : Chars) : Comment ('/' :: '*' :: u) (pastFirst "*/".toList u)
  | line (u : Chars) : Comment ('/' :: '/' :: u) []

inductive Literal : Chars → Chars → Prop
  | quoted (q : Quote) (u : Chars) : Literal (q.char :: u) (pastQuote q.char u)
  | raw (u : Chars) : Literal ('R' :: '"' :: '(' :: u) (pastFirst ")\"".toList u)

inductive Flaw where
  /-- A literal that is not among arguments. -/
  | literal
  /-- A `defined` without a name. -/
  | nameless
  /-- Arguments without an end, in a line that ends in a comment or literal. -/
  | unclosed
  deriving DecidableEq, Repr

/-- From one text to a rest of it there is nothing but white space, comments and continuations. -/
inductive Gap (verbatim : Bool) (F : Flaw → Prop) : Chars → Chars → Prop
  | done (cs : Chars) : Gap verbatim F cs cs
  | space {c : Char} {r rest : Chars} : isSpaceOrNewline c = true → Gap verbatim F r rest →
    Gap verbatim F (c :: r) rest
  | join {cs r rest : Chars} : verbatim = false → afterContinuation? cs = some r → Gap verbatim F r rest →
    Gap verbatim F cs rest
  | comment {cs r rest : Chars} : verbatim = false → Comment cs r → Gap verbatim F r rest → Gap verbatim F cs rest
  | literal {cs r rest : Chars} : verbatim = false → F .literal → Literal cs r → Gap verbatim F r rest →
    Gap verbatim F cs rest

/-- Where code goes on after the comment or literal that the cursor is in. -/
def Mode.resume : Mode → Chars → Chars
  | .blockComment, cs => pastFirst "*/".toList cs
  | .literal q, cs => pastQuote q.char cs
  | .rawLiteral, cs => pastFirst ")\"".toList cs
  | .lineComment, _ => []
  | .code, cs | .slash, cs | .star, cs => cs

theorem Mode.resume_nil (m : Mode) : m.resume [] = [] := by cases m <;> rfl

theorem pastFirst_cons (word : Chars) (c : Char) (cs : Chars) : pastFirst word (c :: cs) =
    if word.isPrefixOf (c :: cs) then (c :: cs).drop word.length else pastFirst word cs := by
  unfold pastFirst
  rw [cutAt?]
  split
  · rfl
  · cases cutAt? word cs <;> rfl

theorem suffix_pastFirst (word cs : Chars) : pastFirst word cs <:+ cs := by
  induction cs with
  | nil =>
    unfold pastFirst
    cases h : cutAt? word [] with
    | none => exact List.suffix_rfl
    | some p =>
      rw [cutAt?] at h
      split at h <;> cases h
      simp
  | cons c r ih =>
    rw [pastFirst_cons]
    split
    · exact List.drop_suffix ..
    · exact ih.trans (List.suffix_cons c r)

theorem suffix_pastQuote (q : Char) (cs : Chars) : pastQuote q cs <:+ cs := by
  fun_induction pastQuote q cs with
  | case1 => exact List.suffix_rfl
  | case2 => exact List.nil_suffix
  | case3 c r ih => exact ih.trans ((List.suffix_cons c r).trans (List.suffix_cons '\\' _))
  | case4 r => exact List.suffix_cons ..
  | case5 c r _ _ _ ih => exact ih.trans (List.suffix_cons c r)

theorem pastQuote_cons {q c : Char} (hc : c ≠ '\\') (cs : Chars) :
    pastQuote q (c :: cs) = if c = q then cs else pastQuote q cs := by
  rw [pastQuote]
  · simp [hc]
  · simp [hc]

theorem Comment.suffix {cs rest : Chars} (h : Comment cs rest) : rest <:+ cs := by
  cases h with
  | block u => exact (suffix_pastFirst _ u).trans ((List.suffix_cons '*' u).trans (List.suffix_cons '/' _))
  | line u => exact List.nil_suffix

theorem Literal.suffix {cs rest : Chars} (h : Literal cs rest) : rest <:+ cs := by
  cases h with
  | quoted q u => exact (suffix_pastQuote _ u).trans (List.suffix_cons _ u)
  | raw u =>
    have hopen : u <:+ 'R' :: '"' :: '(' :: u := ⟨['R', '"', '('], rfl⟩
    exact (suffix_pastFirst _ u).trans hopen

namespace Gap

variable {verbatim : Bool} {F G : Flaw → Prop} {cs u rest : Chars}

theorem suffix (h : Gap verbatim F cs rest) : rest <:+ cs := by
  induction h with
  | done => exact List.suffix_rfl
  | space _ _ ih => exact ih.trans (List.suffix_cons ..)
  | join _ hc _ ih => exact ih.trans (suffix_of_afterContinuation? hc)
  | comment _ hc _ ih => exact ih.trans hc.suffix
  | literal _ _ hl _ ih => exact ih.trans hl.suffix

theorem mono (hFG : ∀ f, F f → G f) (h : Gap verbatim F cs rest) : Gap verbatim G cs rest := by
  induction h with
  | done => exact .done _
  | space hc _ ih => exact .space hc ih
  | join hv hc _ ih => exact .join hv hc ih
  | comment hv hc _ ih => exact .comment hv hc ih
  | literal hv hF hl _ ih => exact .literal hv (hFG _ hF) hl ih

end Gap

theorem afterContinuation?_eq_nil {cs : Chars} (h : afterContinuation? cs = some []) :
    cs = ['\\', '\r', '\n'] ∨ cs = ['\\', '\n'] := by
  unfold afterContinuation? at h
  split at h <;> simp_all

section
variable {verbatim : Bool} {F : Flaw → Prop} {lx lx' next : Lexical} {cs r rest r' : Chars} {c : Char}

theorem mode_of_stop (h : move lx c r = .stop next) : lx.mode = .code ∨ lx.mode.isSplit = true := by
  unfold move at h
  split at h
  · cases h
  · obtain ⟨m, l⟩ := lx
    cases m with
    | code => exact .inl rfl
    | slash => exact .inr rfl
    | star => exact .inr rfl
    | blockComment =>
      exfalso
      simp only [moveIn, moveBlock] at h
      repeat' split at h
      all_goals cases h
    | lineComment => cases h
    | literal q =>
      exfalso
      simp only [moveIn, moveLiteral] at h
      repeat' split at h
      all_goals cases h
    | rawLiteral =>
      exfalso
      simp only [moveIn] at h
      split at h <;> cases h

theorem resume_continuation {m : Mode} (hs : m.isSplit = false) (h : afterContinuation? cs = some []) :
    m = .code ∨ m.resume cs = [] := by
  cases m with
  | code => exact .inl rfl
  | slash => cases hs
  | star => cases hs
  | lineComment => exact .inr rfl
  | blockComment => rcases afterContinuation?_eq_nil h with rfl | rfl <;> exact .inr rfl
  | rawLiteral => rcases afterContinuation?_eq_nil h with rfl | rfl <;> exact .inr rfl
  | literal q => rcases afterContinuation?_eq_nil h with rfl | rfl <;> cases q <;> exact .inr rfl

theorem pastFirst_pair {a b : Char} (h : c = a → ∀ u, r ≠ b :: u) :
    pastFirst [a, b] (c :: r) = pastFirst [a, b] r := by
  have hp : [a, b].isPrefixOf (c :: r) = false := by
    rw [Bool.eq_false_iff]
    intro hp
    obtain ⟨u, hu⟩ := List.isPrefixOf_iff_prefix.1 hp
    cases hu
    exact h rfl u rfl
  rw [pastFirst_cons, hp]
  rfl

theorem gap_of_moveCode {l : LineState} (hn : next.mode.isSplit = false) (hF : ∀ u, Literal (c :: r) u → F .literal)
    (h : moveCode l c r = .eat next r') (hg : Gap false F (next.mode.resume r') rest) :
    Gap false F (c :: r) rest := by
  have hliteral : ∀ {u}, Literal (c :: r) u → Gap false F u rest → Gap false F (c :: r) rest :=
    fun hu hg => .literal rfl (hF _ hu) hu hg
  unfold moveCode at h
  split at h
  · rename_i hc
    subst hc
    unfold moveSlash at h
    split at h
    · cases h
      cases hn
    · split at h
      · cases h
        exact .comment rfl (.block _) hg
      · cases h
        exact .comment rfl (.line _) hg
      · cases h
  · split at h
    · rename_i hc
      subst hc
      cases h
      exact hliteral (.quoted .single r) hg
    · split at h
      · rename_i hc
        subst hc
        cases h
        exact hliteral (.quoted .double r) hg
      · split at h
        · rename_i hc
          subst hc
          split at h
          · cases h
            exact hliteral (.raw _) hg
          · cases h
        · split at h
          · rename_i hc
            subst hc
            cases h
            exact .space rfl hg
          · split at h
            · rename_i hc
              cases h
              exact .space (by simp [isSpaceOrNewline, hc]) hg
            · cases h

theorem resume_of_moveLiteral {q : Quote} {l : LineState} (h : moveLiteral q l c r = .eat next r') :
    next.mode.resume r' = pastQuote q.char (c :: r) := by
  unfold moveLiteral at h
  split at h
  · rename_i hq
    cases h
    have hne : c ≠ '\\' := by
      rw [hq]
      cases q <;> decide
    rw [pastQuote_cons hne, if_pos hq]
    rfl
  · rename_i hq
    split at h
    · rename_i hc
      subst hc
      cases h
      cases r <;> rfl
    · rename_i hc
      split at h
      · cases h
      · cases h
        rw [pastQuote_cons hc, if_neg hq]
        rfl

theorem resume_of_moveBlock {l : LineState} (hn : next.mode.isSplit = false) (h : moveBlock l c r = .eat next r') :
    next.mode.resume r' = pastFirst "*/".toList (c :: r) := by
  unfold moveBlock at h
  split at h
  · rename_i hc
    subst hc
    split at h
    · cases h
      cases hn
    · split at h
      · cases h
        rfl
      · rename_i hr
        cases h
        exact (pastFirst_pair fun _ => hr).symm
  · rename_i hc
    cases h
    exact (pastFirst_pair fun hc' => absurd hc' hc).symm

/-- What the cursor moves over on its way is part of a gap, unless it is code behind a delimiter that the line
splits. -/
theorem gap_of_eat (ho : OneLine (c :: r)) (hs : lx.mode.isSplit = false) (hn : next.mode.isSplit = false)
    (hF : lx.mode = .code → ∀ u, Literal (c :: r) u → F .literal) (h : move lx c r = .eat next r')
    (hg : Gap false F (next.mode.resume r') rest) : Gap false F (lx.mode.resume (c :: r)) rest := by
  unfold move at h
  split at h
  · rename_i hc
    cases h
    cases ho.afterContinuation? hc
    -- A continuation is skipped in code; within a comment or literal it belongs to that.
    rcases resume_continuation hs hc with hm | hm
    · rw [hm] at hg ⊢
      exact .join rfl hc hg
    · rwa [hm, ← lx.mode.resume_nil]
  · obtain ⟨m, l⟩ := lx
    cases m with
    | slash => cases hs
    | star => cases hs
    | code => exact gap_of_moveCode hn (hF rfl) h hg
    | literal q => rwa [resume_of_moveLiteral h] at hg
    | blockComment => rwa [resume_of_moveBlock hn h] at hg
    | lineComment =>
      cases h
      split at hg
      · rename_i hc
        have hr : r = [] := Decidable.byContradiction fun hne => ho.ne_newline hne hc
        subst hr
        exact hg
      · exact hg
    | rawLiteral =>
      simp only [moveIn] at h
      split at h
      · cases h
        exact hg
      · rename_i hne
        cases h
        have hpair : pastFirst ")\"".toList (c :: r) = pastFirst ")\"".toList r :=
          pastFirst_pair fun hc u hr => hne u hc hr
        rwa [Mode.resume, hpair]

theorem gap_of_skipParsed (ho : OneLine cs) (hs : lx.mode.isSplit = false)
    (hF : ∀ u v, Gap false (fun _ => True) (lx.mode.resume cs) u → Literal u v → F .literal)
    (h : skipParsed lx cs = .ok (lx', rest)) :
    Gap false F (lx.mode.resume cs) rest ∨ lx'.mode.isSplit = true := by
  fun_induction skipParsed lx cs with
  | case1 lx =>
    cases h
    rw [Mode.resume_nil]
    exact .inl (.done [])
  | case2 lx c r next hm =>
    cases h
    rcases mode_of_stop hm with hc | hc
    · rw [hc]
      exact .inl (.done _)
    · rw [hs] at hc
      cases hc
  | case3 => cases h
  | case4 lx c r next rest' hm hle ih =>
    have hsuf : rest' <:+ c :: r := (suffix_of_move hm).trans (List.suffix_cons c r)
    cases hn : next.mode.isSplit with
    | true =>
      -- A delimiter is split by the end of the line.
      have hrest : rest' = [] := by
        rcases split_of_move hm (by cases hnm : next.mode <;> simp_all [Mode.isSplit]) with hsame | ⟨-, hcont⟩
        · rw [hsame, hs] at hn
          cases hn
        · exact ho.tail.afterContinuation? hcont
      subst hrest
      rw [skipParsed_nil] at h
      cases h
      exact .inr hn
    | false =>
      have hwithin : ∀ {u}, Gap false (fun _ => True) (next.mode.resume rest') u →
          Gap false (fun _ => True) (lx.mode.resume (c :: r)) u := gap_of_eat ho hs hn (fun _ _ _ => trivial) hm
      have hhere : lx.mode = .code → ∀ u, Literal (c :: r) u → F .literal := fun hc u =>
        hF _ u (by rw [hc]; exact .done _)
      exact (ih (ho.suffix hsuf) hn (fun u v hu => hF u v (hwithin hu)) h).imp_left (gap_of_eat ho hs hn hhere hm)

theorem gap_of_skipSpace (lx : Lexical) (cs : Chars) : Gap true F cs (skipSpace lx cs).2 := by
  induction cs generalizing lx with
  | nil => exact .done []
  | cons c r ih =>
    rw [skipSpace]
    split
    · rename_i hc
      subst hc
      exact .space rfl (ih _)
    · split
      · rename_i hc
        exact .space (by simp [isSpaceOrNewline, hc]) (ih _)
      · exact .done _

/-- The scanner passes over gaps, and over a delimiter that the end of the line splits. -/
theorem gap_of_skip (ho : OneLine cs) (hm : lx.mode = .code)
    (hF : ∀ u v, verbatim = false → Gap verbatim (fun _ => True) cs u → Literal u v → F .literal)
    (h : skip verbatim lx cs = .ok (lx', rest)) : Gap verbatim F cs rest ∨ lx'.mode.isSplit = true := by
  cases verbatim with
  | false =>
    have hgap := gap_of_skipParsed ho (by rw [hm]; rfl) (fun u v hu => hF u v rfl (by rwa [hm] at hu)) h
    rwa [hm] at hgap
  | true =>
    have hs : skipSpace lx cs = (lx', rest) := Except.ok.inj h
    have hgap := gap_of_skipSpace (F := F) lx cs
    rw [hs] at hgap
    exact .inl hgap

end

/-! ## The grammar -/

def Stops (verbatim : Bool) (cs : Chars) : Prop := ∃ lx, skip verbatim {} cs = .ok (lx, cs)

/-- Arguments in which `depth` parentheses are open, and what follows the last one that is closed. Among arguments
there may be literals. -/
inductive Args (verbatim : Bool) : Nat → Chars → Chars → Prop
  | last (rest : Chars) : Args verbatim 1 (')' :: rest) rest
  | close {depth : Nat} {r u rest : Chars} : Gap verbatim (fun _ => True) r u → Args verbatim (depth + 1) u rest →
    Args verbatim (depth + 2) (')' :: r) rest
  | enter {depth : Nat} {r u rest : Chars} : Gap verbatim (fun _ => True) r u → Args verbatim (depth + 1) u rest →
    Args verbatim depth ('(' :: r) rest
  | code {depth : Nat} {c : Char} {r u rest : Chars} : c ≠ '(' → c ≠ ')' → Stops verbatim (c :: r) →
    Gap verbatim (fun _ => True) r u → Args verbatim (depth + 1) u rest → Args verbatim (depth + 1) (c :: r) rest

inductive Flaw.At (verbatim : Bool) : Flaw → Chars → Prop
  | literal {cs rest : Chars} : verbatim = false → Literal cs rest → At verbatim .literal cs
  | nameless {l : LineState} {lx : Lexical} {r u : Chars} : skip verbatim ⟨.code, l⟩ r = .ok (lx, u) →
    endsSymbol u = true → u.head? ≠ some '(' → At verbatim .nameless ("defined".toList ++ r)
  | namelessParen {l : LineState} {lx ly : Lexical} {r u v : Chars} :
    skip verbatim ⟨.code, l⟩ r = .ok (lx, '(' :: u) →
    skip verbatim lx u = .ok (ly, v) → endsSymbol v = true → At verbatim .nameless ("defined".toList ++ r)
  | unclosed {lx ly : Lexical} {r : Chars} : lx.mode = .code →
    closeArgs verbatim 0 lx ('(' :: r) = .ok (ly, none) → ly.mode ≠ .code → At verbatim .unclosed ('(' :: r)

def takesArgs (w : Chars) : Bool := w ≠ "defined".toList && !w.head?.any isDigit

/-- A rest of the text that starts outside comments, literals and arguments. The flag says that a word stands before
it that takes arguments. If arguments are never closed, all that follows their word counts. -/
inductive Outside (verbatim : Bool) (text : Chars) : Bool → Chars → Prop
  | start : Outside verbatim text false text
  | gap {b : Bool} {r u : Chars} : Outside verbatim text b r → Gap verbatim (fun _ => True) r u →
    Outside verbatim text b u
  | word {b : Bool} {w r : Chars} : Outside verbatim text b (w ++ r) → isSymbol w = true → endsSymbol r = true →
    Outside verbatim text (takesArgs w) r
  | number {b : Bool} {ds r : Chars} : Outside verbatim text b (ds ++ r) → ds ≠ [] → (∀ d ∈ ds, isDigit d = true) →
    r.head?.any isDigit = false → Outside verbatim text false r
  | code {b : Bool} {c : Char} {r : Chars} : Outside verbatim text b (c :: r) → Stops verbatim (c :: r) →
    isSymbolChar c = false → (c = '(' → b = false) → Outside verbatim text false r
  | args {u v : Chars} : Outside verbatim text true ('(' :: u) → Args verbatim 0 ('(' :: u) v →
    Outside verbatim text false v
  | unclosed {r u v : Chars} : Outside verbatim text true r → Gap verbatim (fun _ => True) r ('(' :: u) →
    Flaw.At verbatim .unclosed ('(' :: u) → v <:+ r → Outside verbatim text false v

section
variable {verbatim : Bool} {text r rest : Chars}

theorem Args.suffix {depth : Nat} (h : Args verbatim depth r rest) : rest <:+ r := by
  induction h with
  | last => exact List.suffix_cons ..
  | close hg _ ih | enter hg _ ih | code _ _ _ hg _ ih =>
    exact (ih.trans hg.suffix).trans (List.suffix_cons ..)

theorem Outside.suffix {b : Bool} (h : Outside verbatim text b r) : r <:+ text := by
  induction h with
  | start => exact List.suffix_rfl
  | gap _ hg ih => exact hg.suffix.trans ih
  | word _ _ _ ih | number _ _ _ _ ih => exact (List.suffix_append ..).trans ih
  | code _ _ _ _ ih => exact (List.suffix_cons ..).trans ih
  | args _ ha ih => exact ha.suffix.trans ih
  | unclosed _ _ _ hv ih => exact hv.trans ih

end

def Flaw.Named (F : Flaw → Prop) (w : Chars) : Prop := isSymbol w = true ∨ w = [] ∧ F .nameless

mutual

/-- An operand at the start of a text, and what follows it and the gap after it. -/
inductive Term (verbatim : Bool) (F : Flaw → Prop) : Chars → Chars → Prop
  | unary {r u rest : Chars} (op : UnaryOp) : Gap verbatim F r u → Term verbatim F u rest →
    Term verbatim F (op.char :: r) rest
  | number {ds r rest : Chars} : ds ≠ [] → (∀ d ∈ ds, isDigit d = true) → r.head?.any isDigit = false →
    Gap verbatim F r rest → Term verbatim F (ds ++ r) rest
  | symbol {r rest : Chars} (x : Ident) : endsSymbol r = true → Gap verbatim F r rest →
    Term verbatim F (x.chars ++ r) rest
  | call {r u v rest : Chars} (x : Ident) : endsSymbol r = true → Gap verbatim F r u → Args verbatim 0 u v →
    Gap verbatim F v rest → Term verbatim F (x.chars ++ r) rest
  | defined {w r r' rest : Chars} : Flaw.Named F w → endsSymbol r = true → Gap verbatim F r (w ++ r') →
    endsSymbol r' = true → Gap verbatim F r' rest → Term verbatim F ("defined".toList ++ r) rest
  | definedParen {w r r' u v rest : Chars} : Flaw.Named F w → endsSymbol r = true → Gap verbatim F r ('(' :: u) →
    Gap verbatim F u (w ++ r') → Gap verbatim F r' (')' :: v) → Gap verbatim F v rest →
    Term verbatim F ("defined".toList ++ r) rest
  | paren {r u v rest : Chars} : Gap verbatim F r u → Operation verbatim F u (')' :: v) → Gap verbatim F v rest →
    Term verbatim F ('(' :: r) rest
  | unclosed {lx ly lz : Lexical} {r u rest : Chars} (x : Ident) : F .unclosed → Gap verbatim F r ('(' :: u) →
    lx.mode = .code → closeArgs verbatim 0 lx ('(' :: u) = .ok (ly, none) → ly.mode ≠ .code →
    skip verbatim ly r = .ok (lz, rest) → Term verbatim F (x.chars ++ r) rest

/-- Operands with binary operators between them. -/
inductive Operation (verbatim : Bool) (F : Flaw → Prop) : Chars → Chars → Prop
  | term {cs rest : Chars} : Term verbatim F cs rest → Operation verbatim F cs rest
  | binary {cs u v rest : Chars} (op : BinaryOp) : Term verbatim F cs u → BinaryOp.ofChars? u = some op →
    Gap verbatim F (u.drop op.chars.length) v → Operation verbatim F v rest → Operation verbatim F cs rest

end

/-- From one text to a rest of it there are a gap and operands with binary operators between them. -/
def Expression (verbatim : Bool) (F : Flaw → Prop) (cs rest : Chars) : Prop :=
  ∃ u, Gap verbatim F cs u ∧ Operation verbatim F u rest

/-- The text is an expression of the grammar. If no flaw is let pass, that is the grammar itself. -/
def Sentence (verbatim : Bool) (F : Flaw → Prop) (text : Chars) : Prop := Expression verbatim F text []

theorem Operation.append {verbatim : Bool} {F : Flaw → Prop} {op : BinaryOp} :
    ∀ {cs u rest : Chars}, Operation verbatim F cs u → BinaryOp.ofChars? u = some op →
      Expression verbatim F (u.drop op.chars.length) rest → Operation verbatim F cs rest
  | _, _, _, .term h, hop, ⟨_, hg, hv⟩ => .binary op h hop hg hv
  | _, _, _, .binary op' h hop' hg' ho, hop, hv => .binary op' h hop' hg' (ho.append hop hv)

end CondResolve
