import CondResolve.Proofs.Fresh
import CondResolve.Proofs.Sweep

/-!
# Comments across continuations

A delimiter of a comment may be split by any number of continuations. In text without quotes the cursor reads
comments as a plain lexer reads the text that is left when all continuations are taken out: in each mode the plain
lexer has the same ahead of it (`ahead`), whatever the cursor moves over.
-/

namespace CondResolve

/-- The text without its continuations, taken out from left to right. -/
def splice : Chars → Chars
  | '\\' :: '\r' :: '\n' :: r => splice r
  | '\\' :: '\n' :: r => splice r
  | c :: r => c :: splice r
  | [] => []

inductive Region where
  | outside
  | block
  | line
  deriving DecidableEq, Repr

def Region.after : Region → Chars → Region
  | .outside, '/' :: '*' :: r => after .block r
  | .outside, '/' :: '/' :: r => after .line r
  | .block, '*' :: '/' :: r => after .outside r
  | .line, '\n' :: r => after .outside r
  | g, _ :: r => after g r
  | g, [] => g

section
variable {c d : Char} {cs r rest : Chars} {l : LineState} {lx next : Lexical} {m m' : Mode} {g : Region}

theorem splice_continuation (h : afterContinuation? cs = some r) : splice cs = splice r := by
  rcases afterContinuation?_eq_some.1 h with rfl | rfl <;> simp [splice]

theorem splice_cons (h : afterContinuation? (c :: r) = none) : splice (c :: r) = c :: splice r := by
  rw [splice]
  · rintro r' rfl rfl
    cases h
  · rintro r' rfl rfl
    cases h

theorem splice_append (h : EndsLine cs) (X : Chars) : splice (cs ++ X) = splice cs ++ splice X := by
  generalize hn : cs.length = n
  induction n using Nat.strong_induction_on generalizing cs with
  | _ n ih =>
    subst hn
    rcases cs with _ | ⟨c, r⟩
    · simp [splice]
    have hcont := afterContinuation?_onward (X := X) h (by simp)
    cases hc : afterContinuation? (c :: r) with
    | some rest =>
      rw [hc] at hcont
      rw [splice_continuation hc, splice_continuation hcont]
      exact ih _ (length_of_afterContinuation? hc) (h.suffix (suffix_of_afterContinuation? hc)) rfl
    | none =>
      rw [hc] at hcont
      have hrest := ih r.length (by simp) (h.suffix (List.suffix_cons ..)) rfl
      calc splice (c :: r ++ X)
        _ = c :: splice (r ++ X) := splice_cons hcont
        _ = splice (c :: r) ++ splice X := by rw [hrest, splice_cons hc, List.cons_append]

theorem head?_splice (h : afterContinuation? cs = none) : (splice cs).head? = cs.head? := by
  cases cs with
  | nil => simp [splice]
  | cons c r => rw [splice_cons h]; rfl

theorem after_outside (hc : c = '/' → cs.head? ≠ some '*' ∧ cs.head? ≠ some '/') :
    Region.after .outside (c :: cs) = .after .outside cs := by
  rw [Region.after]
  · rintro r' - rfl rfl
    simp at hc
  · rintro r' - rfl rfl
    simp at hc
  · simp
  · simp

theorem after_block (hc : c = '*' → cs.head? ≠ some '/') :
    Region.after .block (c :: cs) = .after .block cs := by
  rw [Region.after]
  · simp
  · simp
  · rintro r' - rfl rfl
    simp at hc
  · simp

/-! ## What the plain lexer has ahead of it -/

def Mode.Unquoted : Mode → Prop
  | .literal _ | .rawLiteral => False
  | _ => True

/-- The state of the plain lexer after the rest of the spliced text. Where a continuation splits a delimiter, it is
still to read the first character. -/
def ahead : Mode → Chars → Region
  | .blockComment, cs => .after .block cs
  | .lineComment, cs => .after .line cs
  | .slash, cs => .after .outside ('/' :: cs)
  | .star, cs => .after .block ('*' :: cs)
  | _, cs => .after .outside cs

/-- The plain lexer has `g` ahead of it behind a move, as before. -/
def Keeps (g : Region) (r : Chars) : Move → Prop
  | .eat next rest => next.mode.Unquoted ∧ ahead next.mode (splice rest) = g
  | .stop next => next.mode.Unquoted ∧ ahead next.mode (splice r) = g
  | .broken _ => False

theorem keeps_moveCode (hc : c ≠ '\'' ∧ c ≠ '"') (hr : '"' ∉ r) :
    Keeps (.after .outside (c :: splice r)) r (moveCode l c r) := by
  unfold moveCode
  by_cases hslash : c = '/'
  · subst hslash
    simp only [if_true, moveSlash]
    cases hcont : afterContinuation? r with
    | some r' =>
      refine ⟨trivial, ?_⟩
      simp only [ahead]
      -- A continuation splits the delimiter: what it comes to is decided behind the continuation.
      rw [splice_continuation hcont]
    | none =>
      simp only
      split
      · rw [splice_cons (c := '*') (by simp [afterContinuation?])]
        exact ⟨trivial, by simp [ahead, Region.after]⟩
      · rw [splice_cons (c := '/') (by simp [afterContinuation?])]
        exact ⟨trivial, by simp [ahead, Region.after]⟩
      · rename_i hstar hline
        refine ⟨trivial, (after_outside fun _ => ?_).symm⟩
        -- Neither lexer sees a delimiter, since splicing leaves the next character as it is.
        rw [head?_splice hcont]
        rcases r with _ | ⟨d, r⟩
        · simp
        · simp only [List.head?_cons, ne_eq, Option.some.injEq]
          exact ⟨fun hd => hstar r (by rw [hd]), fun hd => hline r (by rw [hd])⟩
  · have hnext : Region.after .outside (c :: splice r) = .after .outside (splice r) :=
      after_outside (by simp [hslash])
    rw [hnext]
    simp only [hslash, hc, if_false]
    split
    · split
      · simp at hr
      · exact ⟨trivial, rfl⟩
    · repeat' split
      all_goals exact ⟨trivial, rfl⟩

theorem keeps_moveBlock : Keeps (.after .block (c :: splice r)) r (moveBlock l c r) := by
  unfold moveBlock
  by_cases hstar : c = '*'
  · subst hstar
    simp only [if_true]
    cases hcont : afterContinuation? r with
    | some r' =>
      refine ⟨trivial, ?_⟩
      simp only [ahead]
      rw [splice_continuation hcont]
    | none =>
      simp only
      split
      · rw [splice_cons (c := '/') (by simp [afterContinuation?])]
        exact ⟨trivial, by simp [ahead, Region.after]⟩
      · rename_i hclose
        refine ⟨trivial, (after_block fun _ => ?_).symm⟩
        rw [head?_splice hcont]
        rcases r with _ | ⟨d, r⟩
        · simp
        · simp only [List.head?_cons, ne_eq, Option.some.injEq]
          exact fun hd => hclose r (by rw [hd])
  · rw [if_neg hstar]
    exact ⟨trivial, (after_block (by simp [hstar])).symm⟩

theorem keeps_move (hm : lx.mode.Unquoted) (hs : '\'' ∉ c :: r) (hd : '"' ∉ c :: r) :
    Keeps (ahead lx.mode (splice (c :: r))) r (move lx c r) := by
  have hc : c ≠ '\'' ∧ c ≠ '"' := ⟨fun h => hs (by simp [h]), fun h => hd (by simp [h])⟩
  have hr : '"' ∉ r := fun h => hd (List.mem_cons_of_mem _ h)
  unfold move
  cases hcont : afterContinuation? (c :: r) with
  | some rest =>
    rw [splice_continuation hcont]
    exact ⟨hm, rfl⟩
  | none =>
    rw [splice_cons hcont]
    obtain ⟨m, l⟩ := lx
    cases m with
    | code => exact keeps_moveCode hc hr
    | blockComment => exact keeps_moveBlock
    | lineComment =>
      by_cases hn : c = '\n'
      · subst hn
        exact ⟨trivial, by simp [ahead, Region.after]⟩
      · simp only [moveIn, hn, if_false]
        refine ⟨trivial, ?_⟩
        simp only [ahead]
        rw [Region.after] <;> simp [hn]
    | slash =>
      -- the character may be the second one of a delimiter, and is else read as in code
      by_cases hstar : c = '*'
      · subst hstar
        exact ⟨trivial, by simp [ahead, Region.after]⟩
      · by_cases hslash : c = '/'
        · subst hslash
          exact ⟨trivial, by simp [ahead, Region.after]⟩
        · have hcode : Region.after .outside ('/' :: c :: splice r) = .after .outside (c :: splice r) :=
            after_outside (by simp [hstar, hslash])
          simp only [moveIn, ahead, hstar, hslash, if_false, hcode]
          exact keeps_moveCode hc hr
    | star =>
      by_cases hslash : c = '/'
      · subst hslash
        exact ⟨trivial, by simp [ahead, Region.after]⟩
      · have hblock : Region.after .block ('*' :: c :: splice r) = .after .block (c :: splice r) :=
          after_block (by simp [hslash])
        simp only [moveIn, ahead, hslash, if_false, hblock]
        exact keeps_moveBlock
    | literal q => exact hm.elim
    | rawLiteral => exact hm.elim

theorem ahead_of_visits (h : Visits m cs m' rest) (hm : m.Unquoted) (hs : '\'' ∉ cs) (hd : '"' ∉ cs) :
    m'.Unquoted ∧ ahead m' (splice rest) = ahead m (splice cs) := by
  induction h with
  | here => exact ⟨hm, rfl⟩
  | @eat lx next c r rest m' cs step _ ih =>
    have hsuf : rest <:+ c :: r := (suffix_of_move step).trans (List.suffix_cons ..)
    have hkeeps := keeps_move hm hs hd
    rw [step] at hkeeps
    obtain ⟨hm', hnext⟩ := ih hkeeps.1 (fun h => hs (hsuf.mem h)) fun h => hd (hsuf.mem h)
    exact ⟨hm', hnext.trans hkeeps.2⟩
  | @pass lx next c r m' cs step _ ih =>
    have hkeeps := keeps_move hm hs hd
    rw [step] at hkeeps
    obtain ⟨hm', hnext⟩ := ih hkeeps.1 (fun h => hs (List.mem_cons_of_mem _ h)) fun h =>
      hd (List.mem_cons_of_mem _ h)
    exact ⟨hm', hnext.trans hkeeps.2⟩

/-! ## Where a line ends -/

/-- Behind a newline that no backslash hides there is neither a line comment nor a split delimiter. -/
theorem mode_of_visits (h : Visits m cs m' []) (hc : Ended cs) (hm : m'.Unquoted) :
    m' = .code ∨ m' = .blockComment := by
  generalize hnil : ([] : Chars) = rest at h
  induction h with
  | here =>
    subst hnil
    cases hc.newline
  | @eat lx next c r rest m' cs step onward ih =>
    by_cases hrest : rest = []
    · subst hrest
      obtain ⟨rfl, rfl⟩ := newline_of_move hc step
      rw [onward.mode_eq] at hm ⊢
      obtain ⟨m, l⟩ := lx
      cases m with
      | literal q => cases q <;> cases step
      | rawLiteral =>
        cases step
        exact hm.elim
      | _ =>
        cases step
        simp
    · exact ih (hc.of_suffix ((suffix_of_move step).trans (List.suffix_cons ..)) hrest) hm hnil
  | @pass lx next c r m' cs step onward ih =>
    have hr : r ≠ [] := by
      rintro rfl
      exact ne_newline_of_stop step (by simpa using hc.newline)
    exact ih (hc.of_suffix (List.suffix_cons ..) hr) hm hnil

end

section
variable {text line : Chars} {before after : List Chars}

theorem skipLines_unquoted {ls : List Chars} (hp : Physical ls) (hs : '\'' ∉ ls.flatten) (hd : '"' ∉ ls.flatten) :
    ∃ lx, skipLines {} ls = .ok lx ∧ lx.mode.Unquoted ∧ ahead lx.mode [] = .after .outside (splice ls.flatten) := by
  have hp' : Physical (ls ++ []) := by rwa [List.append_nil]
  cases h : skipLines {} ls with
  | ok lx =>
    have hv := visits_of_skipLines hp' h
    rw [List.append_nil] at hv
    obtain ⟨hm, ha⟩ := ahead_of_visits hv trivial hs hd
    rw [List.flatten_nil, splice] at ha
    exact ⟨lx, rfl, hm, ha⟩
  | error b =>
    obtain ⟨rest, hv⟩ := visits_of_skipLines_error hp' h
    rw [List.append_nil] at hv
    exact (ahead_of_visits hv trivial hs hd).1.elim

/-- In text without quotes, behind each newline that no backslash hides, the cursor is in no comment or in a block
comment, and in one exactly if a plain lexer is that reads the spliced text so far. -/
theorem comment_spliced (hs : '\'' ∉ text) (hd : '"' ∉ text) (hl : lines text = before ++ line :: after)
    (he : Ended line) :
    ∃ lx, skipLines {} (before ++ [line]) = .ok lx ∧ (lx.mode = .code ∨ lx.mode = .blockComment) ∧
      (lx.mode = .blockComment ↔ Region.after .outside (splice (before ++ [line]).flatten) = .block) ∧
      splice text = splice (before ++ [line]).flatten ++ splice after.flatten := by
  have hp : Physical ((before ++ [line]) ++ after) := by
    rw [List.append_assoc, List.singleton_append, ← hl]
    exact physical_lines text
  have htext : text = (before ++ [line]).flatten ++ after.flatten := by
    rw [← List.flatten_append, List.append_assoc, List.singleton_append, ← hl, flatten_lines]
  have hends : EndsLine (before ++ [line]).flatten := by
    intro p c hpc
    have hlast : (before ++ [line]).flatten.getLast? = some '\n' := by simp [he.newline]
    simpa [hpc] using hlast
  rw [htext, List.mem_append, not_or] at hs hd
  obtain ⟨lx, hlx, hm, ha⟩ := skipLines_unquoted hp.front hs.1 hd.1
  obtain ⟨ly, -, hline⟩ := bind_eq_ok.1 (List.foldlM_append.symm.trans hlx)
  obtain ⟨lz, hlz, hpure⟩ := bind_eq_ok.1 hline
  cases hpure
  have hmode := mode_of_visits (visits_of_skipLine hlz) he hm
  refine ⟨lx, hlx, hmode, ?_, by rw [htext, splice_append hends]⟩
  rw [← ha]
  rcases hmode with h | h
  · simp [h, ahead, Region.after]
  · simp [h, ahead, Region.after]

end

/-- Delimiters that continuations of both kinds split, and one that starts in a comment. -/
def splitDelimiters : Chars := "a /\\\n\\\r\n* // *\\\n\nb *\\\r\n\\\n/ /\\\n/ /* c\n".toList

def splitLines : List Chars := ["a /\\\n".toList, "\\\r\n".toList, "* // *\\\n".toList]

theorem comment_spliced_splitDelimiters :
    '\'' ∉ splitDelimiters ∧ '"' ∉ splitDelimiters ∧ Ended ['\n'] ∧
    ∃ lx after, lines splitDelimiters = splitLines ++ ['\n'] :: after ∧
      skipLines {} (splitLines ++ [['\n']]) = .ok lx ∧
      lx.mode = .blockComment ∧ Region.after .outside (splice (splitLines ++ [['\n']]).flatten) = .block := by
  have hs : '\'' ∉ splitDelimiters := by decide
  have hd : '"' ∉ splitDelimiters := by decide
  have hl : lines splitDelimiters = splitLines ++ ['\n'] :: (lines splitDelimiters).drop 4 := by decide
  have he : Ended ['\n'] := ⟨rfl, fun hj => by simpa [List.suffix_cons_iff] using joins_iff.1 hj⟩
  have hblock : Region.after .outside (splice (splitLines ++ [['\n']]).flatten) = .block := by decide
  obtain ⟨lx, hlx, -, hiff, -⟩ := comment_spliced hs hd hl he
  exact ⟨hs, hd, he, lx, _, hl, hlx, hiff.2 hblock, hblock⟩

end CondResolve
