import Mathlib.Data.List.TakeWhile
import CondResolve.Project.Comment
import CondResolve.Project.Marker
import CondResolve.Proofs.Advance

/-!
# The quick reading of comments beside the cursor's

A project strips comments without a cursor. Where the cursor passes over nothing but white space and block comments,
the quick reading leaves the white space (`stripFrom_of_passed`); behind that it finds the include that a directive
names, whatever text stands on the lines before (`mem_quotedIncludes`).
-/

namespace CondResolve

/-! ## What the quick reading does with one character -/

theorem startsLineComment_iff {cs : Chars} : startsLineComment cs = true ↔ ['/', '/'] <+: cs := by
  unfold startsLineComment
  split
  · simp
  · rename_i hno
    simp only [Bool.false_eq_true, false_iff]
    rintro ⟨r, rfl⟩
    exact hno r rfl

theorem afterBlock?_eq_none {cs : Chars} (h : ¬ ['/', '*'] <+: cs) : afterBlock? cs = none := by
  unfold afterBlock?
  split
  · exact absurd ⟨_, rfl⟩ h
  · rfl

theorem stripFrom_block {b : Bool} {cs rest : Chars} (h : afterBlock? cs = some rest) :
    stripFrom b cs = stripFrom false rest := by
  cases cs with
  | nil => simp [afterBlock?] at h
  | cons c r =>
    rw [stripFrom]
    split <;> simp_all

/-- A character that starts no comment, and that no line comment follows, stays. -/
theorem stripFrom_cons {b : Bool} {c : Char} {r : Chars} (hblock : ¬ ['/', '*'] <+: c :: r)
    (hline : ¬ ['/', '/'] <+: c :: r) (hnext : ¬ ['/', '/'] <+: r) :
    stripFrom b (c :: r) = c :: stripFrom (c = '\n') r := by
  rw [← startsLineComment_iff] at hline hnext
  rw [stripFrom]
  split
  · rename_i h
    rw [afterBlock?_eq_none hblock] at h
    cases h
  · simp [hline, hnext]

/-- A character that no slash is stays, whatever follows. -/
theorem stripFrom_head {b : Bool} {c : Char} {r : Chars} (hc : c ≠ '/') :
    ∃ out, stripFrom b (c :: r) = c :: out := by
  have hblock : ¬ ['/', '*'] <+: c :: r := by simp [List.cons_prefix_cons, Ne.symm hc]
  have hline : startsLineComment (c :: r) = false := by
    rw [← Bool.not_eq_true, startsLineComment_iff]
    simp [List.cons_prefix_cons, Ne.symm hc]
  rw [stripFrom]
  split
  · rename_i h
    rw [afterBlock?_eq_none hblock] at h
    cases h
  · split
    · exact ⟨_, rfl⟩
    · rw [hline, Bool.and_false, if_neg (by simp)]
      exact ⟨_, rfl⟩

/-- Text in which no comment starts stays up to a quote behind it. -/
theorem stripFrom_plain {z : Chars} (hline : ¬ ['/', '/'] <:+: z) (hblock : ¬ ['/', '*'] <:+: z) (b : Bool)
    (y : Chars) :
    ∃ b', stripFrom b (z ++ '"' :: y) = z ++ stripFrom b' ('"' :: y) := by
  induction z generalizing b with
  | nil => exact ⟨b, rfl⟩
  | cons c z ih =>
    rw [List.infix_cons_iff, not_or] at hline hblock
    obtain ⟨b', hb'⟩ := ih hline.2 hblock.2 (c = '\n')
    refine ⟨b', ?_⟩
    -- a pair that starts in `z` ends before the quote
    have hpair : ∀ {d : Char} {t : Chars}, d ≠ '"' → ¬ ['/', d] <+: t → ¬ ['/', d] <+: t ++ '"' :: y := by
      intro d t hd ht hpre
      match t with
      | [] => simp at hpre
      | [x] => simp [List.cons_prefix_cons, hd] at hpre
      | x :: x' :: t => simp_all [List.cons_prefix_cons]
    rw [List.cons_append, stripFrom_cons, hb', List.cons_append]
    · exact hpair (by decide) hblock.1
    · exact hpair (by decide) hline.1
    · exact hpair (by decide) fun h => hline.2 h.isInfix

/-! ## Whole lines -/

def EndsLine (cs : Chars) : Prop := ∀ p c, cs = p ++ [c] → c = '\n'

theorem EndsLine.suffix {cs rest : Chars} (h : EndsLine cs) (hs : rest <:+ cs) : EndsLine rest := by
  obtain ⟨q, rfl⟩ := hs
  rintro p c rfl
  exact h (q ++ p) c (by simp)

theorem endsLine_append (o : Chars) : EndsLine (o ++ ['\n']) := by
  intro p c he
  simpa using (List.append_inj' he rfl).2.symm

theorem Physical.endsLine {l : Chars} {ls : List Chars} (h : Physical (l :: ls)) :
    ls.flatten = [] ∨ EndsLine l := by
  rcases h with ⟨⟨body, -, rfl⟩, -⟩ | ⟨rfl, -⟩
  · exact .inr (endsLine_append body)
  · exact .inl rfl

theorem Physical.front {ls ls' : List Chars} (h : Physical (ls ++ ls')) : Physical ls := by
  induction ls with
  | nil => trivial
  | cons l ls ih =>
    rcases h with ⟨hl, h⟩ | ⟨hnil, h⟩
    · exact .inl ⟨hl, ih h⟩
    · exact .inr ⟨(List.append_eq_nil_iff.1 hnil).1, h⟩

theorem Physical.suffix {ls ls' : List Chars} (h : Physical (ls ++ ls')) : Physical ls' := by
  induction ls with
  | nil => exact h
  | cons l ls ih => exact ih h.tail

theorem EndsLine.mem {cs : Chars} (h : EndsLine cs) (hne : cs ≠ []) : '\n' ∈ cs := by
  obtain ⟨p, c, rfl⟩ := List.eq_nil_or_concat cs |>.resolve_left hne
  simp [h p c (by simp)]

theorem eq_of_cutAt? {word cs before rest : Chars} (h : cutAt? word cs = some (before, rest)) :
    cs = before ++ word ++ rest := by
  induction cs generalizing before rest with
  | nil =>
    rw [cutAt?] at h
    split at h
    · rename_i hw
      cases h
      simp_all
    · cases h
  | cons c cs ih =>
    rw [cutAt?] at h
    split at h
    · rename_i hw
      cases h
      obtain ⟨t, ht⟩ := List.isPrefixOf_iff_prefix.1 hw
      simp [← ht]
    · obtain ⟨⟨b, r⟩, hr, he⟩ := Option.map_eq_some_iff.1 h
      cases he
      rw [ih hr]
      simp

theorem suffix_of_afterBlock? {cs rest : Chars} (h : afterBlock? cs = some rest) : '/' :: rest <:+ cs := by
  unfold afterBlock? at h
  split at h
  · rename_i r
    obtain ⟨⟨b, t⟩, hr, rfl⟩ := Option.map_eq_some_iff.1 h
    rw [eq_of_cutAt? hr]
    exact ⟨'/' :: '*' :: b ++ ['*'], by simp⟩
  · cases h

theorem EndsLine.restOfText {cs : Chars} (h : EndsLine cs) (hne : cs ≠ []) :
    EndsLine (restOfText cs) ∧ restOfText cs ≠ [] := by
  refine ⟨h.suffix (List.dropWhile_suffix _), ?_⟩
  intro hnil
  unfold CondResolve.restOfText at hnil
  rw [List.dropWhile_eq_nil_iff] at hnil
  simpa using hnil _ (h.mem hne)

/-- No comment takes the last newline. -/
theorem stripFrom_newline {b : Bool} {cs : Chars} (h : EndsLine cs) (hne : cs ≠ []) :
    ∃ o, stripFrom b cs = o ++ ['\n'] := by
  fun_induction stripFrom b cs with
  | case1 => exact absurd rfl hne
  | case2 b c r rest hblock hle ih =>
    have hrest := h.suffix (suffix_of_afterBlock? hblock)
    cases rest with
    | nil => exact absurd (hrest [] '/' rfl) (by decide)
    | cons d rest => exact ih (hrest.suffix (List.suffix_cons ..)) (by simp)
  | case3 b c r hblock hle hc ih =>
    have hr : r ≠ [] := by
      rintro rfl
      simp [startsLineComment] at hc
    obtain ⟨hends, hnil⟩ := (h.suffix (List.suffix_cons ..)).restOfText hr
    obtain ⟨o, ho⟩ := ih hends hnil
    exact ⟨c :: o, by simp [ho]⟩
  | case4 b c r hblock hle hc hb ih =>
    have hr : r ≠ [] := by
      rintro rfl
      simp [startsLineComment] at hb
    obtain ⟨hends, hnil⟩ := (h.suffix (List.suffix_cons ..)).restOfText hr
    exact ih hends hnil
  | case5 b c r hblock hle hc hb ih =>
    cases r with
    | nil => exact ⟨[], by simp [h [] c rfl, stripFrom]⟩
    | cons d r =>
      obtain ⟨o, ho⟩ := ih (h.suffix (List.suffix_cons ..)) (by simp)
      exact ⟨c :: o, by simp [ho]⟩

/-! ## Includes behind whole lines -/

def includeText (space name tail : Chars) : Chars :=
  ['i', 'n', 'c', 'l', 'u', 'd', 'e'] ++ space ++ '"' :: name ++ '"' :: tail

theorem includeAt?_eq (cs : Chars) : includeAt? cs =
    if ['#', 'i', 'n', 'c', 'l', 'u', 'd', 'e'].isPrefixOf cs then
      match (cs.drop 8).dropWhile isWhite with
      | '"' :: r => quotedName? r
      | _ => none
    else none := rfl

theorem includeAt?_includeText {space name : Chars} (tail : Chars) (hspace : ∀ c ∈ space, isWhite c = true)
    (hname : ∀ c ∈ name, c ≠ '"' ∧ c ≠ '\n') :
    includeAt? ('#' :: includeText space name tail) = some (String.ofList name, tail) := by
  have hwhite : (space ++ '"' :: name ++ '"' :: tail).dropWhile isWhite = '"' :: (name ++ '"' :: tail) := by
    rw [List.append_assoc, List.dropWhile_append_of_pos hspace]
    rfl
  have hquote : (name ++ '"' :: tail).takeWhile (fun c => c ≠ '"' && c ≠ '\n') = name := by
    rw [List.takeWhile_append_of_pos (by simpa using hname)]
    simp
  have hdrop : ('#' :: includeText space name tail).drop 8 = space ++ '"' :: name ++ '"' :: tail := by
    simp [includeText]
  rw [includeAt?_eq, if_pos (by simp [includeText]), hdrop, hwhite]
  simp only [quotedName?, hquote, List.drop_left]

theorem eq_of_quotedName? {cs rest : Chars} {name : String} (h : quotedName? cs = some (name, rest)) :
    cs = name.toList ++ '"' :: rest ∧ '\n' ∉ name.toList := by
  simp only [quotedName?] at h
  split at h
  · rename_i r hdrop
    cases h
    rw [String.toList_ofList, ← hdrop]
    constructor
    · exact (List.prefix_iff_eq_append.1 (List.takeWhile_prefix _)).symm
    · intro hmem
      simpa using List.mem_takeWhile_imp hmem
  · cases h

theorem eq_of_includeAt? {cs rest : Chars} {name : String} (h : includeAt? cs = some (name, rest)) :
    ∃ space, (∀ c ∈ space, isWhite c = true) ∧ cs = '#' :: includeText space name.toList rest ∧
      '\n' ∉ name.toList := by
  rw [includeAt?_eq] at h
  split at h
  · rename_i hpre
    obtain ⟨t, rfl⟩ := List.isPrefixOf_iff_prefix.1 hpre
    rw [List.drop_left' (by rfl)] at h
    split at h
    · rename_i r hr
      obtain ⟨rfl, hn⟩ := eq_of_quotedName? h
      refine ⟨t.takeWhile isWhite, fun c => List.mem_takeWhile_imp, ?_, hn⟩
      have ht := List.takeWhile_append_dropWhile (p := isWhite) (l := t)
      rw [hr] at ht
      simp [includeText, ht]
    · cases h
  · cases h

def QuotesEnd (cs : Chars) : Prop := ∀ a b, cs = a ++ '"' :: b → '\n' ∈ b

theorem QuotesEnd.suffix {cs rest : Chars} (h : QuotesEnd cs) (hs : rest <:+ cs) : QuotesEnd rest := by
  obtain ⟨q, rfl⟩ := hs
  rintro a b rfl
  exact h (q ++ a) b (by simp)

theorem quotesEnd_append {o ws : Chars} (hws : '"' ∉ ws) : QuotesEnd (o ++ '\n' :: ws) := by
  intro a b he
  rcases List.append_eq_append_iff.1 he with ⟨a', rfl, h⟩ | ⟨b', rfl, h⟩
  · have hmem : '"' ∈ '\n' :: ws := by simp [h]
    simp [hws] at hmem
  · cases b' with
    | nil => cases h
    | cons x b' =>
      cases h
      simp

theorem quotesEnd_stripComments {cs ws : Chars} (h : EndsLine cs) (hws : '"' ∉ ws) :
    QuotesEnd (stripComments cs ++ ws) := by
  by_cases hne : cs = []
  · intro a b he
    have hmem : '"' ∈ stripComments cs ++ ws := by simp [he]
    simp [hne, stripComments, stripFrom, hws] at hmem
  · obtain ⟨o, ho⟩ := stripFrom_newline (b := true) h hne
    rw [stripComments, ho, List.append_assoc]
    exact quotesEnd_append hws

/-- An include that starts on a line before the hash ends before it. -/
theorem rest_of_includeAt? {c : Char} {p x rest : Chars} {name : String} (hp : QuotesEnd (c :: p))
    (h : includeAt? (c :: p ++ '#' :: x) = some (name, rest)) : ∃ p', p' <:+ p ∧ rest = p' ++ '#' :: x := by
  obtain ⟨space, hspace, he, hn⟩ := eq_of_includeAt? h
  obtain ⟨rfl, htext⟩ : c = '#' ∧ p ++ '#' :: x = includeText space name.toList rest := by simpa using he
  have hquote : ∀ b, b ++ '#' :: x = name.toList ++ '"' :: rest → '\n' ∈ b →
      ∃ p', p' <:+ b ∧ rest = p' ++ '#' :: x := by
    intro b hb hmem
    rcases List.append_eq_append_iff.1 hb with ⟨a', ha, -⟩ | ⟨b', rfl, hb'⟩
    · exact absurd (by simp [ha, hmem]) hn
    · cases b' with
      | nil => simp [hn] at hmem
      | cons d b' =>
        cases hb'
        exact ⟨b', ⟨name.toList ++ ['"'], by simp⟩, rfl⟩
  -- no hash stands between the first one and the opening quote
  have hplain : '#' ∉ ['i', 'n', 'c', 'l', 'u', 'd', 'e'] ++ space := by
    intro hmem
    rcases List.mem_append.1 hmem with hmem | hmem
    · simp at hmem
    · exact absurd (hspace _ hmem) (by decide)
  rw [includeText, List.append_assoc] at htext
  rcases List.append_eq_append_iff.1 htext with ⟨a', ha, ha'⟩ | ⟨b', rfl, hb'⟩
  · cases a' with
    | nil => cases ha'
    | cons d a' =>
      cases ha'
      simp [ha] at hplain
  · cases b' with
    | nil => cases hb'
    | cons d b' =>
      rw [List.cons_append, List.cons_append, List.cons.injEq] at hb'
      obtain ⟨rfl, hb⟩ := hb'
      obtain ⟨p', hs, rfl⟩ := hquote b' hb.symm
        (hp ('#' :: ['i', 'n', 'c', 'l', 'u', 'd', 'e'] ++ space) b' (by simp))
      exact ⟨p', hs.trans ((List.suffix_cons ..).trans (List.suffix_append ..)), rfl⟩

/-- Behind whole lines, and what holds no quote, an include is found. -/
theorem mem_quotedIncludes {p space name : Chars} (hp : QuotesEnd p) (hspace : ∀ c ∈ space, isWhite c = true)
    (hname : ∀ c ∈ name, c ≠ '"' ∧ c ≠ '\n') (tail : Chars) :
    String.ofList name ∈ quotedIncludes (p ++ '#' :: includeText space name tail) := by
  unfold quotedIncludes
  generalize hn : p.length = n
  induction n using Nat.strong_induction_on generalizing p with
  | _ n ih =>
    subst hn
    cases p with
    | nil =>
      rw [List.nil_append, findAll]
      simp [includeAt?_includeText tail hspace hname]
    | cons c p =>
      have hskip := ih p.length (by simp) (hp.suffix (List.suffix_cons ..)) rfl
      rw [List.cons_append, findAll]
      split
      · rename_i found rest hfound
        obtain ⟨p', hs, rfl⟩ := rest_of_includeAt? hp hfound
        apply List.mem_cons_of_mem
        split
        · exact ih p'.length (by simpa using Nat.lt_succ_of_le hs.length_le)
            (hp.suffix (hs.trans (List.suffix_cons ..))) rfl
        · exact hskip
      · exact hskip

/-- The quick reading leaves an include if no comment starts in its name. -/
theorem stripFrom_includeText {space name : Chars} (hspace : ∀ c ∈ space, isWhite c = true)
    (hline : ¬ ['/', '/'] <:+: name) (hblock : ¬ ['/', '*'] <:+: name) (b : Bool) (tail : Chars) :
    ∃ out, stripFrom b ('#' :: includeText space name tail) = '#' :: includeText space name out := by
  have hslash : '/' ∉ '#' :: ['i', 'n', 'c', 'l', 'u', 'd', 'e'] ++ space := by
    intro hmem
    rcases List.mem_append.1 hmem with hmem | hmem
    · simp at hmem
    · exact absurd (hspace _ hmem) (by decide)
  have hpair : ∀ d, ¬ ['/', d] <:+: '#' :: ['i', 'n', 'c', 'l', 'u', 'd', 'e'] ++ space :=
    fun d h => hslash (h.subset (by simp))
  have hname : ∀ d, ¬ ['/', d] <:+: name → ¬ ['/', d] <:+: '"' :: name := by
    intro d hd
    rw [List.infix_cons_iff, not_or]
    exact ⟨by simp [List.cons_prefix_cons], hd⟩
  obtain ⟨b₁, h₁⟩ := stripFrom_plain (hpair '/') (hpair '*') b (name ++ '"' :: tail)
  obtain ⟨b₂, h₂⟩ := stripFrom_plain (hname '/' hline) (hname '*' hblock) b₁ tail
  obtain ⟨out, h₃⟩ := stripFrom_head (b := b₂) (c := '"') (r := tail) (by decide)
  refine ⟨out, ?_⟩
  rw [List.cons_append] at h₂
  rw [h₂, h₃] at h₁
  simpa [includeText] using h₁

/-! ## White space and block comments -/

/-- From `mode` at `cs` to another mode at a suffix of it, past white space and whole characters of block comments.
-/
inductive Passed : Mode → Chars → Mode → Chars → Prop
  | here {m cs} : Passed m cs m cs
  | space {c r m rest} (white : isSpace c = true) (next : Passed .code r m rest) : Passed .code (c :: r) m rest
  | opens {r m rest} (next : Passed .blockComment r m rest) : Passed .code ('/' :: '*' :: r) m rest
  | closes {r m rest} (next : Passed .code r m rest) : Passed .blockComment ('*' :: '/' :: r) m rest
  | inside {c r m rest} (open' : ¬ ['*', '/'] <+: c :: r) (next : Passed .blockComment r m rest) :
      Passed .blockComment (c :: r) m rest

theorem Passed.trans {m₁ m₂ m₃ : Mode} {cs₁ cs₂ cs₃ : Chars} (h : Passed m₁ cs₁ m₂ cs₂)
    (h' : Passed m₂ cs₂ m₃ cs₃) :
    Passed m₁ cs₁ m₃ cs₃ := by
  induction h with
  | here => exact h'
  | space white _ ih => exact .space white (ih h')
  | opens _ ih => exact .opens (ih h')
  | closes _ ih => exact .closes (ih h')
  | inside open' _ ih => exact .inside open' (ih h')

/-- No line comment is passed. -/
theorem Passed.not_lineComment {cs rest : Chars} (h : Passed .code cs .code rest) (hr : rest.head? ≠ some '/') :
    ¬ ['/', '/'] <+: cs := by
  cases h with
  | here =>
    rintro ⟨t, rfl⟩
    exact hr rfl
  | space white =>
    rw [List.cons_prefix_cons]
    rintro ⟨rfl, -⟩
    cases white
  | opens => simp [List.cons_prefix_cons]

/-- What the quick reading leaves of the text behind the cursor, which stands in a block comment or not. -/
def leaves : Mode → Bool → Chars → Option Chars
  | .blockComment, _, cs => (cutAt? ['*', '/'] cs).map fun p => stripFrom false p.2
  | _, b, cs => some (stripFrom b cs)

/-- The quick reading passes over the same comments and leaves the white space. -/
theorem Passed.leaves {m m' : Mode} {cs rest : Chars} (h : Passed m cs m' rest) (hm : m' = .code)
    (hr : rest.head? ≠ some '/') (b : Bool) :
    ∃ ws b', (∀ c ∈ ws, isSpace c = true) ∧ CondResolve.leaves m b cs = some (ws ++ stripFrom b' rest) := by
  induction h generalizing b with
  | here =>
    subst hm
    exact ⟨[], b, by simp, rfl⟩
  | @space c r m rest white next ih =>
    obtain ⟨ws, b', hws, hleaves⟩ := ih hm hr (c = '\n')
    have hc : c ≠ '/' := by
      rintro rfl
      cases white
    subst hm
    have hstrip : stripFrom b (c :: r) = c :: stripFrom (c = '\n') r := by
      apply stripFrom_cons
      · simp [List.cons_prefix_cons, Ne.symm hc]
      · simp [List.cons_prefix_cons, Ne.symm hc]
      · exact next.not_lineComment hr
    refine ⟨c :: ws, b', by simpa [white] using hws, ?_⟩
    simp only [CondResolve.leaves, Option.some.injEq] at hleaves ⊢
    rw [hstrip, hleaves, List.cons_append]
  | @opens r m rest next ih =>
    obtain ⟨ws, b', hws, hleaves⟩ := ih hm hr b
    refine ⟨ws, b', hws, ?_⟩
    obtain ⟨p, hp, hstrip⟩ := Option.map_eq_some_iff.1 hleaves
    have hblock : afterBlock? ('/' :: '*' :: r) = some p.2 := by simp [afterBlock?, hp]
    simp only [CondResolve.leaves, stripFrom_block hblock, hstrip]
  | @closes r m rest next ih =>
    obtain ⟨ws, b', hws, hleaves⟩ := ih hm hr false
    refine ⟨ws, b', hws, ?_⟩
    simpa [CondResolve.leaves, cutAt?] using hleaves
  | @inside c r m rest open' next ih =>
    obtain ⟨ws, b', hws, hleaves⟩ := ih hm hr b
    refine ⟨ws, b', hws, ?_⟩
    rw [← List.isPrefixOf_iff_prefix, Bool.not_eq_true] at open'
    simpa [CondResolve.leaves, cutAt?, open', Function.comp_def] using hleaves

/-! ## What the cursor passes on one line -/

section
variable {lx lx' next : Lexical} {cs rest r X : Chars} {c : Char}

/-- A pair that does not start with the newline is not completed by the text behind the line. -/
theorem prefix_append_iff {a b : Char} (hc : c ≠ '\n') (hX : X = [] ∨ EndsLine (c :: r)) :
    [a, b] <+: c :: r ++ X ↔ [a, b] <+: c :: r := by
  match r with
  | [] =>
    rcases hX with rfl | hX
    · simp
    · exact absurd (hX [] c rfl) hc
  | d :: r => simp [List.cons_prefix_cons]

/-- The cursor leaves a line comment only by the end of the line. -/
theorem lineComment_of_skipParsed (ho : OneLine cs) (hm : lx.mode = .lineComment)
    (h : skipParsed lx cs = .ok (lx', rest)) : rest = [] ∧ lx'.mode ≠ .blockComment := by
  fun_induction skipParsed lx cs with
  | case1 => cases h; simp [hm]
  | case2 lx c r next hmove =>
    unfold move moveIn at hmove
    rw [hm] at hmove
    split at hmove <;> cases hmove
  | case3 => cases h
  | case4 lx c r next rest' hmove hle ih =>
    have ho' := ho.tail.suffix (suffix_of_move hmove)
    unfold move at hmove
    split at hmove
    · cases hmove
      exact ih ho' hm h
    · simp only [moveIn, hm, Move.eat.injEq] at hmove
      obtain ⟨rfl, rfl⟩ := hmove
      by_cases hc : c = '\n'
      · cases r with
        | nil =>
          rw [if_pos hc, skipParsed_nil] at h
          cases h
          simp
        | cons d r => exact absurd hc (ho.ne_newline (by simp))
      · rw [if_neg hc] at h ih
        exact ih ho' hm h

theorem Passed.of_moveCode {l : LineState} (hmove : moveCode l c r = .eat next rest) (ho : OneLine (c :: r))
    (hl : next.line = .start) (hn : next.mode ≠ .lineComment) (hend : rest ≠ [] ∨ next.mode = .blockComment) :
    (next.mode = .code ∨ next.mode = .blockComment) ∧ Passed .code (c :: r ++ X) next.mode (rest ++ X) := by
  unfold moveCode at hmove
  split at hmove
  · rename_i hc
    unfold moveSlash at hmove
    split at hmove
    · rename_i hcont
      cases hmove
      simp [ho.tail.afterContinuation? hcont] at hend
    · split at hmove <;> cases hmove
      · rw [hc]
        exact ⟨.inr rfl, .opens .here⟩
      · exact absurd rfl hn
  · repeat' split at hmove
    all_goals cases hmove
    · cases hl
    · cases hl
    · cases hl
    · rename_i hc
      have hr : rest ≠ [] := by simpa using hend
      exact absurd hc (ho.ne_newline hr)
    · rename_i hc
      exact ⟨.inl rfl, .space hc .here⟩

theorem Passed.of_moveBlock {l : LineState} (hmove : moveBlock l c r = .eat next rest) (ho : OneLine (c :: r))
    (hX : X = [] ∨ EndsLine (c :: r)) (hend : rest ≠ [] ∨ next.mode = .blockComment) :
    (next.mode = .code ∨ next.mode = .blockComment) ∧ Passed .blockComment (c :: r ++ X) next.mode (rest ++ X) := by
  unfold moveBlock at hmove
  split at hmove
  · rename_i hc
    split at hmove
    · rename_i hcont
      cases hmove
      simp [ho.tail.afterContinuation? hcont] at hend
    · split at hmove <;> cases hmove
      · rw [hc]
        exact ⟨.inl rfl, .closes .here⟩
      · rename_i hno
        have hopen : ¬ ['*', '/'] <+: c :: rest ++ X := by
          rw [prefix_append_iff (by simp [hc]) hX, List.cons_prefix_cons, not_and]
          rintro - ⟨t, rfl⟩
          exact hno t rfl
        exact ⟨.inr rfl, .inside hopen .here⟩
  · rename_i hc
    cases hmove
    have hopen : ¬ ['*', '/'] <+: c :: rest ++ X := by
      rw [List.cons_append, List.cons_prefix_cons]
      exact fun h => hc h.1.symm
    exact ⟨.inr rfl, .inside hopen .here⟩

/-- What one move passes, if the line goes on as nothing but white space and comments behind it. -/
theorem Passed.of_move (hmove : move lx c r = .eat next rest) (ho : OneLine (c :: r))
    (hX : X = [] ∨ EndsLine (c :: r)) (hm : lx.mode = .code ∨ lx.mode = .blockComment) (hl : next.line = .start)
    (hn : next.mode ≠ .lineComment) (hend : rest ≠ [] ∨ next.mode = .blockComment) :
    (next.mode = .code ∨ next.mode = .blockComment) ∧ Passed lx.mode (c :: r ++ X) next.mode (rest ++ X) := by
  unfold move at hmove
  split at hmove
  · rename_i hcont
    cases hmove
    obtain rfl := ho.afterContinuation? hcont
    have hblock : lx.mode = .blockComment := by simpa using hend
    refine ⟨hm, ?_⟩
    rw [hblock]
    rcases afterContinuation?_eq_some.1 hcont with hcr | hcr <;> cases hcr
    · exact .inside (by simp) (.inside (by simp) (.inside (by simp) .here))
    · exact .inside (by simp) (.inside (by simp) .here)
  · rcases hm with hm | hm <;> simp only [moveIn, hm] at hmove ⊢
    · exact Passed.of_moveCode hmove ho hl hn hend
    · exact Passed.of_moveBlock hmove ho hX hend

/-- Where the cursor comes to code, or to the end of the line in a block comment, and has read nothing else. -/
theorem passed_of_skipParsed (h : skipParsed lx cs = .ok (lx', rest)) (ho : OneLine cs) (hX : X = [] ∨ EndsLine cs)
    (hm : lx.mode = .code ∨ lx.mode = .blockComment) (hl : lx'.line = .start)
    (hend : rest ≠ [] ∨ lx'.mode = .blockComment) : Passed lx.mode (cs ++ X) lx'.mode (rest ++ X) := by
  fun_induction skipParsed lx cs with
  | case1 => cases h; exact .here
  | case2 lx c r next hmove =>
    cases h
    rcases hm with hm | hm
    · rw [hm, (line_of_stop hmove).1]
      exact .here
    · simp only [move, moveIn, hm, moveBlock] at hmove
      repeat' split at hmove
      all_goals cases hmove
  | case3 => cases h
  | case4 lx c r next rest' hmove hle ih =>
    have hs := suffix_of_move hmove
    have ho' := ho.tail.suffix hs
    -- Past a newline or in a line comment the cursor would not come back to a line that counts as begun.
    have hline : next.line = .start := by
      rcases line_of_skipParsed ho' h with h' | h' | ⟨rfl, rfl⟩
      · rw [← h', hl]
      · rw [h'] at hl
        cases hl
      · simp at hend
    have hn : next.mode ≠ .lineComment := by
      intro hn
      obtain ⟨hnil, hblock⟩ := lineComment_of_skipParsed ho' hn h
      rcases hend with hend | hend
      · exact hend hnil
      · exact hblock hend
    have hend' : rest' ≠ [] ∨ next.mode = .blockComment := by
      by_cases hnil : rest' = []
      · subst hnil
        rw [skipParsed_nil] at h
        cases h
        exact hend
      · exact .inl hnil
    obtain ⟨hm', hpassed⟩ := Passed.of_move hmove ho hX hm hline hn hend'
    exact hpassed.trans (ih h ho' (hX.imp_right fun he => he.suffix (hs.trans (List.suffix_cons ..))) hm')

end

end CondResolve
