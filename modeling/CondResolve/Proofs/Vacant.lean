import CondResolve.Proofs.Project
import CondResolve.Proofs.Sweep

/-!
# Texts of which nothing is left without comments

A project deletes a file whose text the quick reading of comments leaves blank. The quick reading and the cursor
part ways in many texts. `Spent` says what still holds in each mode of the cursor if the quick reading has left
nothing but white space: every step keeps it, so that the cursor finds no code either, unless a backslash hides the
end of a line.
-/

namespace CondResolve

/-! ## Scans that find no code -/

def Met (text : Chars) (m : Mode) (rest : Chars) : Prop :=
  ∃ before line after lx, lines text = before ++ line :: after ∧ skipLines {} before = .ok lx ∧
    Visits lx.mode line m rest

/-- A scan of `text` enters no literal and stops only at white space. -/
structure Codeless (text : Chars) : Prop where
  reads : ∃ lx, skipLines {} (lines text) = .ok lx
  apart : ∀ m rest, Met text m rest → (∀ q, m ≠ .literal q) ∧ m ≠ .rawLiteral
  white : ∀ lx next c r, Met text lx.mode (c :: r) → move lx c r = .stop next → isWhite c = true

section
variable {text : Chars} {m : Mode} {rest : Chars}

theorem Met.visits (h : Met text m rest) :
    ∃ X, (X = [] ∨ EndsLine rest) ∧ Visits .code text m (rest ++ X) := by
  obtain ⟨before, line, after, lx, hl, hs, hv⟩ := h
  have hp : Physical (before ++ line :: after) := hl ▸ physical_lines text
  have hbefore := visits_of_skipLines hp hs
  rw [← hl, flatten_lines] at hbefore
  have hX : after.flatten = [] ∨ EndsLine line := hp.suffix.endsLine
  exact ⟨after.flatten, hX.imp_right fun h => h.suffix hv.suffix, hbefore.trans (hv.onward hX)⟩

end

/-! ## What is left behind the cursor -/

def Blank (cs : Chars) : Prop := cs.all isWhite = true

/-- From mode `m` on the quick reading leaves nothing but white space of the text. In code it may have come to a
line comment by the character before it. -/
def Spent : Mode → Chars → Prop
  | .code, cs =>
    (∃ b, Blank (stripFrom b cs)) ∨ startsLineComment cs = true ∧ Blank (stripFrom false (restOfText cs))
  | .lineComment, cs => ∃ b, Blank (stripFrom b (restOfText cs))
  | .blockComment, cs => ∃ before rest, cutAt? ['*', '/'] cs = some (before, rest) ∧ Blank (stripFrom false rest)
  | _, _ => False

section
variable {b : Bool} {lx next : Lexical} {c : Char} {r rest : Chars}

theorem restOfText_cons (hc : c ≠ '\n') : restOfText (c :: r) = restOfText r := by
  simp [restOfText, hc]

theorem spent_of_blank (h : Blank (stripFrom b (c :: r))) :
    (∃ r', c = '/' ∧ r = '*' :: r' ∧ Spent .blockComment r') ∨
    (∃ r', c = '/' ∧ r = '/' :: r' ∧ Spent .lineComment r') ∨ isWhite c = true ∧ Spent .code r := by
  rw [stripFrom] at h
  split at h
  · rename_i rest hblock
    unfold afterBlock? at hblock
    split at hblock
    · rename_i r' he
      obtain ⟨⟨before, t⟩, hcut, rfl⟩ := Option.map_eq_some_iff.1 hblock
      cases he
      exact .inl ⟨r', rfl, rfl, before, t, hcut, h⟩
    · cases hblock
  · right
    split at h
    · rename_i hline
      simp only [Bool.and_eq_true] at hline
      obtain ⟨hc, hrest⟩ : isWhite c = true ∧ Blank (stripFrom false (restOfText r)) := by simpa [Blank] using h
      exact .inr ⟨hc, .inr ⟨hline.2, hrest⟩⟩
    · split at h
      · rename_i hline
        simp only [Bool.and_eq_true, startsLineComment_iff, List.cons_prefix_cons] at hline
        obtain ⟨-, rfl, r', rfl⟩ := hline
        have hrest : Blank (stripFrom false (restOfText ('/' :: r'))) := h
        rw [restOfText_cons (by decide)] at hrest
        exact .inl ⟨r', rfl, rfl, false, hrest⟩
      · obtain ⟨hc, hrest⟩ : isWhite c = true ∧ Blank (stripFrom (c = '\n') r) := by simpa [Blank] using h
        exact .inr ⟨hc, .inl ⟨_, hrest⟩⟩

theorem Spent.code_cases (h : Spent .code (c :: r)) :
    (∃ r', c = '/' ∧ r = '*' :: r' ∧ Spent .blockComment r') ∨
    (∃ r', c = '/' ∧ r = '/' :: r' ∧ Spent .lineComment r') ∨ isWhite c = true ∧ Spent .code r := by
  rcases h with ⟨b, h⟩ | ⟨hline, h⟩
  · exact spent_of_blank h
  · obtain ⟨r', he⟩ := startsLineComment_iff.1 hline
    cases he
    have hrest : Blank (stripFrom false (restOfText ('/' :: '/' :: r'))) := h
    rw [restOfText_cons (by decide), restOfText_cons (by decide)] at hrest
    exact .inr (.inl ⟨r', rfl, rfl, false, hrest⟩)

/-- What is not the start of a comment is white space. -/
theorem Spent.of_code (h : Spent .code (c :: r)) (hc : c ≠ '/') : isWhite c = true ∧ Spent .code r := by
  rcases h.code_cases with ⟨r', rfl, -⟩ | ⟨r', rfl, -⟩ | h
  · exact absurd rfl hc
  · exact absurd rfl hc
  · exact h

theorem Spent.of_lineComment (h : Spent .lineComment (c :: r)) :
    Spent (if c = '\n' then .code else .lineComment) r := by
  obtain ⟨b, h⟩ := h
  by_cases hc : c = '\n'
  · subst hc
    have hkeep : restOfText ('\n' :: r) = '\n' :: r := by simp [restOfText]
    rw [hkeep] at h
    exact (Spent.of_code (.inl ⟨b, h⟩) (by decide)).2
  · rw [restOfText_cons hc] at h
    rw [if_neg hc]
    exact ⟨b, h⟩

theorem Spent.of_blockComment (h : Spent .blockComment (c :: r)) :
    (∃ r', c = '*' ∧ r = '/' :: r' ∧ Spent .code r') ∨ ¬ ['*', '/'] <+: c :: r ∧ Spent .blockComment r := by
  obtain ⟨before, rest, hcut, h⟩ := h
  rw [cutAt?] at hcut
  split at hcut
  · rename_i hpre
    obtain ⟨r', he⟩ := List.isPrefixOf_iff_prefix.1 hpre
    cases he
    cases hcut
    exact .inl ⟨_, rfl, rfl, .inl ⟨false, h⟩⟩
  · rename_i hpre
    obtain ⟨⟨b, t⟩, hcut, he⟩ := Option.map_eq_some_iff.1 hcut
    cases he
    exact .inr ⟨fun hp => hpre (List.isPrefixOf_iff_prefix.2 hp), b, _, hcut, h⟩

/-! ## Scans of what is left -/

theorem afterContinuation?_plain {cs : Chars} (hb : '\\' ∉ cs) : afterContinuation? cs = none := by
  cases hc : afterContinuation? cs with
  | none => rfl
  | some r => rcases afterContinuation?_eq_some.1 hc with rfl | rfl <;> simp at hb

/-- A move goes on in text of which nothing is left but white space: it skips some of it, or stops at white space.
-/
def GoesOn (r : Chars) (c : Char) : Move → Prop
  | .eat next rest => Spent next.mode rest
  | .stop next => isWhite c = true ∧ Spent next.mode r
  | .broken _ => False

theorem goesOn_moveCode {l : LineState} (hr : '\\' ∉ r) (h : Spent .code (c :: r)) :
    GoesOn r c (moveCode l c r) := by
  unfold moveCode
  by_cases hc : c = '/'
  · subst hc
    simp only [if_true, moveSlash, afterContinuation?_plain hr]
    rcases h.code_cases with ⟨r', -, rfl, hnext⟩ | ⟨r', -, rfl, hnext⟩ | ⟨hw, -⟩
    · exact hnext
    · exact hnext
    · cases hw
  · obtain ⟨hw, hnext⟩ := h.of_code hc
    -- no character that opens a literal is white space
    have hne : c ≠ '\'' ∧ c ≠ '"' ∧ c ≠ 'R' := by
      refine ⟨?_, ?_, ?_⟩ <;> rintro rfl <;> cases hw
    simp only [hc, hne, if_false]
    split
    · exact hnext
    · split
      · exact hnext
      · exact ⟨hw, hnext⟩

theorem goesOn_moveBlock {l : LineState} (hr : '\\' ∉ r) (h : Spent .blockComment (c :: r)) :
    GoesOn r c (moveBlock l c r) := by
  unfold moveBlock
  rcases h.of_blockComment with ⟨r', rfl, rfl, hnext⟩ | ⟨hno, hnext⟩
  · simp only [if_true, afterContinuation?_plain hr]
    exact hnext
  · simp only [afterContinuation?_plain hr]
    split
    · rename_i hc
      split
      · exact absurd (by simp [hc]) hno
      · exact hnext
    · exact hnext

theorem Spent.move (h : Spent lx.mode (c :: r)) (hb : '\\' ∉ c :: r) : GoesOn r c (move lx c r) := by
  have hr : '\\' ∉ r := fun hm => hb (List.mem_cons_of_mem _ hm)
  obtain ⟨m, l⟩ := lx
  rw [CondResolve.move, afterContinuation?_plain hb]
  cases m with
  | code => exact goesOn_moveCode hr h
  | blockComment => exact goesOn_moveBlock hr h
  | lineComment =>
    have hnext := h.of_lineComment
    simp only [moveIn, GoesOn]
    split <;> simp_all
  | _ => exact h.elim

theorem Spent.visits {m m' : Mode} {cs rest : Chars} (h : Spent m cs) (hb : '\\' ∉ cs) (hv : Visits m cs m' rest) :
    Spent m' rest ∧ '\\' ∉ rest := by
  induction hv with
  | here => exact ⟨h, hb⟩
  | @eat lx next c r rest m' cs step _ ih =>
    have hs : rest <:+ c :: r := (suffix_of_move step).trans (List.suffix_cons ..)
    have hnext := h.move hb
    rw [step] at hnext
    exact ih hnext fun hmem => hb (hs.mem hmem)
  | @pass lx next c r m' cs step _ ih =>
    have hnext := h.move hb
    rw [step] at hnext
    exact ih hnext.2 fun hmem => hb (List.mem_cons_of_mem _ hmem)

end

section
variable {text : Chars}

theorem codeless_of_blank (hb : '\\' ∉ text) (h : Blank (stripComments text)) : Codeless text := by
  have hstart : Spent .code text := .inl ⟨true, h⟩
  refine ⟨?_, ?_, ?_⟩
  · cases hs : skipLines {} (lines text) with
    | ok lx => exact ⟨lx, rfl⟩
    | error b =>
      have hp : Physical (lines text ++ []) := by simpa using physical_lines text
      obtain ⟨rest, hv⟩ := visits_of_skipLines_error hp hs
      rw [List.append_nil, flatten_lines] at hv
      exact (hstart.visits hb hv).1.elim
  · intro m rest hm
    obtain ⟨X, -, hv⟩ := hm.visits
    have hspent := (hstart.visits hb hv).1
    cases m with
    | literal q => exact hspent.elim
    | rawLiteral => exact hspent.elim
    | _ => simp
  · intro lx next c r hm hstop
    obtain ⟨X, hX, hv⟩ := hm.visits
    obtain ⟨hspent, hb'⟩ := hstart.visits hb hv
    have hnext : GoesOn (r ++ X) c (move lx c (r ++ X)) := hspent.move hb'
    rw [move_onward hX, hstop] at hnext
    exact hnext.1

end

/-! ## What becomes of files -/

/-- What may become of the content of a file: what a text in it resolved to, or nothing, if that was no code. -/
inductive Fate (cfg : ProjectConfig) (first : Option Content) : Option Content → Prop
  | same : Fate cfg first first
  | written {src r} (source : Fate cfg first (some (.text src))) (resolved : cfg.outcome src = .ok r) :
      Fate cfg first (some (.text (String.ofList r.text)))
  | removed {src r} (source : Fate cfg first (some (.text src))) (resolved : cfg.outcome src = .ok r)
      (codeless : '\\' ∉ r.text → Codeless r.text) : Fate cfg first none

structure Becomes (cfg : ProjectConfig) (d d' : Disk) : Prop where
  cwd_eq : d'.cwd = d.cwd
  dirs_eq : d'.dirs = d.dirs
  fate : ∀ p, Fate cfg (d.contentAt? p) (d'.contentAt? p)

theorem Becomes.refl (cfg : ProjectConfig) (d : Disk) : Becomes cfg d d := ⟨rfl, rfl, fun _ => .same⟩

theorem Becomes.locate {cfg : ProjectConfig} {d d' : Disk} {path : String} {p : Place} (h : Becomes cfg d d')
    (hl : d'.locate path = .ok p) : d.locate path = .ok p := by
  have hwidens : d'.Widens d := ⟨h.cwd_eq, fun x hx => by simpa [Disk.isDirAt, h.dirs_eq] using hx⟩
  exact hwidens.locate hl

namespace SessionM

def Spares {α : Type} (cfg : ProjectConfig) (d₀ : Disk) (x : SessionM (StateM World) α) (s : Session) (w : World) :
    Prop :=
  Becomes cfg d₀ w.disk → Becomes cfg d₀ (x.runFrom s w).2.disk

section
variable {α β : Type} {cfg : ProjectConfig} {d₀ : Disk} {x : SessionM (StateM World) α}
  {f : α → SessionM (StateM World) β} {s : Session} {w : World} {path src : String} {r : Resolved}

theorem spares_of_disk (h : (x.runFrom s w).2.disk = w.disk) : Spares cfg d₀ x s w := by
  intro hd
  rwa [h]

theorem spares_bind (hx : Spares cfg d₀ x s w)
    (hf : ∀ a s' w', Gives x s w a s' w' → Becomes cfg d₀ w'.disk → Spares cfg d₀ (f a) s' w') :
    Spares cfg d₀ (x >>= f) s w := by
  intro hd
  have hfirst := hx hd
  rw [runFrom_bind]
  split
  · rename_i a s' w' hrun
    rw [hrun] at hfirst
    exact hf a s' w' hrun hfirst hfirst
  · rename_i e s' w' hrun
    rwa [hrun] at hfirst

theorem spares_pure (a : α) : Spares cfg d₀ (pure a) s w := spares_of_disk rfl

theorem spares_throw (e : Crash) : Spares cfg d₀ (throw e : SessionM (StateM World) α) s w := spares_of_disk rfl

theorem spares_change (g : Session → Session) : Spares cfg d₀ (change g : SessionM (StateM World) Unit) s w :=
  spares_of_disk rfl

theorem spares_fail (error : String) : Spares cfg d₀ (fail path error : SessionM (StateM World) Unit) s w :=
  spares_of_disk rfl

theorem spares_textOf (content : Content) : Spares cfg d₀ (textOf content : SessionM (StateM World) Chars) s w := by
  cases content with
  | text src => exact spares_pure _
  | binary bytes => exact spares_throw _

theorem spares_resolveFile : Spares cfg d₀ (resolveFile cfg path) s w := by
  have hnone : ∀ error s w,
      Spares cfg d₀ (do fail path error; return none : SessionM (StateM World) (Option Resolved)) s w :=
    fun error s w => spares_bind (spares_fail error) fun _ _ _ _ _ => spares_pure _
  refine spares_bind (spares_of_disk rfl) fun res s₁ w₁ _ _ => ?_
  cases res with
  | error e =>
    cases e with
    | malformedPath => exact spares_throw _
    | _ => exact hnone _ s₁ w₁
  | ok content =>
    refine spares_bind (spares_textOf content) fun cs s₂ w₂ _ _ => ?_
    cases resolve cfg.settings cfg.symbols [] cs with
    | error f => exact hnone _ s₂ w₂
    | ok r => exact spares_pure _

theorem spares_must {g : Disk → Except FileError Disk}
    (h : ∀ d, Becomes cfg d₀ w.disk → g w.disk = .ok d → Becomes cfg d₀ d) :
    Spares cfg d₀ (must path (World.change g)) s w := by
  have hchange : Spares cfg d₀ (host (World.change g)) s w := by
    intro hd
    have hrun : ((host (World.change g)).runFrom s w).2 = (World.change g w).2 := rfl
    rw [hrun, World.change]
    split
    · exact h _ hd ‹_›
    · exact hd
  refine spares_bind hchange fun res s₁ w₁ _ _ => ?_
  cases res with
  | ok u => exact spares_pure u
  | error e => exact spares_throw _

theorem spares_remove (hread : w.disk.read path = .ok (.text src)) (hout : cfg.outcome src = .ok r)
    (hr : '\\' ∉ r.text → Codeless r.text) : Spares cfg d₀ (remove path : SessionM (StateM World) Unit) s w := by
  refine spares_bind (spares_must fun d hd hremove => ?_) fun _ s₁ w₁ _ _ => spares_change _
  obtain ⟨p, hl, rfl⟩ := Disk.remove_eq_ok hremove
  obtain ⟨p', hl', -, hc⟩ := Disk.read_eq_ok_iff.1 hread
  obtain rfl := Except.ok.inj (hl.symm.trans hl')
  refine ⟨hd.cwd_eq, hd.dirs_eq, fun q => ?_⟩
  rw [Disk.contentAt?_without]
  by_cases hq : q = p
  · rw [if_pos hq, hq]
    exact .removed (hc ▸ hd.fate p) hout hr
  · rw [if_neg hq]
    exact hd.fate q

theorem spares_write {p : Place} (hl : d₀.locate path = .ok p)
    (hsource : Fate cfg (d₀.contentAt? p) (some (.text src))) (hout : cfg.outcome src = .ok r) :
    Spares cfg d₀ (must path (Host.writeFile path (String.ofList r.text)) : SessionM (StateM World) Unit) s w := by
  refine spares_must fun d hd hwrite => ?_
  obtain ⟨p', hl', rfl⟩ := Disk.write_eq_ok hwrite
  obtain rfl := Except.ok.inj (hl.symm.trans (hd.locate hl'))
  refine ⟨by simp [hd.cwd_eq], by simp [hd.dirs_eq], fun q => ?_⟩
  rw [Disk.contentAt?_put]
  by_cases hq : q = p
  · rw [if_pos hq, hq]
    exact .written hsource hout
  · rw [if_neg hq]
    exact hd.fate q

theorem spares_forM {l : List α} {g : α → SessionM (StateM World) Unit} (h : ∀ a s w, Spares cfg d₀ (g a) s w) :
    Spares cfg d₀ (l.forM g) s w := by
  induction l generalizing s w with
  | nil => exact spares_pure _
  | cons a l ih => exact spares_bind (h a s w) fun _ _ _ _ _ => ih

theorem spares_follow {depth : Nat}
    (hprocess : ∀ path name s w, Spares cfg d₀ (processFile cfg depth path name) s w)
    (base name : String) : Spares cfg d₀ (follow cfg depth base name) s w := by
  refine spares_bind (spares_of_disk rfl) fun t s₁ w₁ _ _ => ?_
  split
  · exact spares_pure _
  · refine spares_bind (spares_change _) fun _ s₂ w₂ _ _ => ?_
    refine spares_bind (spares_of_disk rfl) fun found s₃ w₃ _ _ => ?_
    split
    · refine spares_bind (spares_of_disk rfl) fun cwd s₄ w₄ _ _ => ?_
      exact spares_bind (hprocess _ _ _ _) fun _ s₅ w₅ _ _ => spares_pure _
    · exact spares_fail _

theorem spares_processFile (depth : Nat) (path name : String) (s : Session) (w : World) :
    Spares cfg d₀ (processFile cfg depth path name) s w := by
  induction depth generalizing path name s w with
  | zero => exact spares_throw _
  | succ depth ih =>
    rw [processFile_succ]
    refine spares_bind (spares_of_disk rfl) fun _ s₁ w₁ _ _ => ?_
    refine spares_bind spares_resolveFile fun r? s₂ w₂ hresolve hd₂ => ?_
    obtain ⟨hdisk, ⟨error, rfl, -⟩ | ⟨src, r, rfl, -, hread, hout⟩⟩ := gives_resolveFile hresolve
    · exact spares_pure _
    · rw [← hdisk] at hread
      refine spares_bind (spares_change _) fun _ s₃ w₃ hchange _ => ?_
      obtain ⟨rfl, rfl⟩ := gives_change.1 hchange
      split
      · rename_i hv
        have hr : '\\' ∉ r.text → Codeless r.text := fun hb => codeless_of_blank hb hv
        exact spares_bind (spares_remove hread hout hr) fun _ s₄ w₄ _ _ => spares_pure _
      · -- what is written in the end was resolved before the includes were followed
        obtain ⟨p, hl, -, hc⟩ := Disk.read_eq_ok_iff.1 hread
        refine spares_bind (spares_forM fun name s w => spares_follow ih _ name) fun _ s₄ w₄ _ _ => ?_
        split
        · refine spares_bind (spares_write (hd₂.locate hl) ?_ hout) fun _ s₅ w₅ _ _ => spares_pure _
          exact hc ▸ hd₂.fate p
        · exact spares_pure _

end

/-- A text that is blank without its comments has no code for a scan, unless a backslash stands in it. So processing
a file, with all that it leads to, removes no text that resolves to code. -/
theorem blank_codeless :
    (∀ text : Chars, '\\' ∉ text → (stripComments text).all isWhite = true → Codeless text) ∧
    ∀ (cfg : ProjectConfig) (depth : Nat) (path name : String) (s : Session) (w : World),
      Becomes cfg w.disk ((processFile cfg depth path name).runFrom s w).2.disk :=
  ⟨fun _ hb h => codeless_of_blank hb h,
    fun cfg depth path name s w => spares_processFile depth path name s w (.refl cfg _)⟩

def nestedOpeners : Chars := "/* // */ // /* b\n\t/*/ c\n*/ /**/ //\n".toList

def commentsOnly : World :=
  worldOf [(["main.qc"], "#include \"a.h\"\nint x;\n"), (["a.h"], String.ofList nestedOpeners)]

theorem blank_codeless_nestedOpeners :
    '\\' ∉ nestedOpeners ∧ (stripComments nestedOpeners).all isWhite = true ∧ Codeless nestedOpeners ∧
    commentsOnly.disk.contentAt? ["w", "a.h"] = some (.text (String.ofList nestedOpeners)) ∧
    ((processFile withoutX 2 "/w/main.qc" "").runFrom {} commentsOnly).2.disk.contentAt? ["w", "a.h"] = none ∧
    Fate withoutX (some (.text (String.ofList nestedOpeners))) none := by
  have hplain : '\\' ∉ nestedOpeners := by decide
  have hblank : (stripComments nestedOpeners).all isWhite = true := by decide +kernel
  have hbefore : commentsOnly.disk.contentAt? ["w", "a.h"] = some (.text (String.ofList nestedOpeners)) := by
    decide +kernel
  have hafter :
      ((processFile withoutX 2 "/w/main.qc" "").runFrom {} commentsOnly).2.disk.contentAt? ["w", "a.h"] = none := by
    decide +kernel
  have hfate := (blank_codeless.2 withoutX 2 "/w/main.qc" "" {} commentsOnly).fate ["w", "a.h"]
  rw [hbefore, hafter] at hfate
  exact ⟨hplain, hblank, blank_codeless.1 _ hplain hblank, hbefore, hafter, hfate⟩

end SessionM

end CondResolve
