import CondResolve.Proofs.Altered
import CondResolve.Proofs.Project
import CondResolve.Proofs.Quick

/-!
# Included files are needed

The scanner finds directives line by line; a project reads includes from text without its comments. Where both read
the comments before a directive alike, the file that it includes is needed, and pruning leaves it
(`include_needed`).
-/

namespace CondResolve

/-! ## The directive of an include -/

def scanLine (lx : Lexical) (line : Chars) : Except Broken Lexical := do
  let (lx', rest) ← findKeyword false lx line
  skipLine false lx' rest

def scanLines (lx : Lexical) (ls : List Chars) : Except Broken Lexical := ls.foldlM scanLine lx

/-- A line of `text` on which the scanner finds a directive that includes `name` in quotes. The lines of `lead`
before it are the last ones, from one that starts in code on. -/
structure IncludeLine (text name : Chars) where
  before : List Chars
  lead : List Chars
  line : Chars
  after : List Chars
  first : Lexical
  state : Lexical
  keyword : Lexical
  space : Chars
  tail : Chars
  lines_eq : lines text = before ++ (lead ++ line :: after)
  scan_before : scanLines {} before = .ok first
  scan_lead : scanLines first lead = .ok state
  code : first.mode = .code
  directive : findKeyword false state line = .ok (keyword, includeText space name tail)
  white : ∀ c ∈ space, isWhite c = true
  unquoted : '"' ∉ name

/-- The quick reading sees the directive as the scanner does. -/
structure IncludeLine.Agrees {text name : Chars} (l : IncludeLine text name) : Prop where
  /-- The keyword follows the hash at once. -/
  close : ∃ ly, skip false l.state l.line = .ok (ly, '#' :: includeText l.space name l.tail)
  /-- The lines of `lead` end in a block comment, and none between the two characters of a delimiter. -/
  comments : ∀ ls, ls ≠ [] → ls <+: l.lead → ∃ lx, scanLines l.first ls = .ok lx ∧ lx.mode = .blockComment
  /-- The quick reading, too, is in no comment where `lead` starts. -/
  apart : stripComments text = stripComments l.before.flatten ++
    stripComments (l.lead.flatten ++ (l.line ++ l.after.flatten))
  line_name : ¬ ['/', '/'] <:+: name
  block_name : ¬ ['/', '*'] <:+: name

/-- A line that ends in a comment and holds no code is read to its end at once. -/
theorem skip_of_scanLine {lx lz : Lexical} {line : Chars} (ho : OneLine line) (h : scanLine lx line = .ok lz)
    (hl : lz.line = .start) (hm : lz.mode ≠ .code) : skip false lx line = .ok (lz, []) := by
  have hsound : ¬ lz.Sound := fun hs => hm (hs hl)
  have hfits : ∀ lx : Lexical, lx.Fits false := fun lx h => by cases h
  -- once there is code on the line, only its end makes the state `start` again
  have hskipLine : ∀ {lx : Lexical} {cs : Chars}, OneLine cs → skipLine false lx cs = .ok lz →
      cs = [] ∧ lx = lz := by
    intro lx cs ho' hs
    by_cases hc : cs = []
    · subst hc
      exact ⟨rfl, by simpa [skipLine] using hs⟩
    · exact absurd (sound_of_skipLine (hfits _) ho' hc hs).1 hsound
  obtain ⟨⟨lk, w⟩, hk, hskip⟩ := bind_eq_ok.1 h
  have hw : OneLine w := by
    by_cases hw : w = []
    · simp [hw, OneLine]
    · exact ho.suffix (suffix_of_findKeyword hw hk)
  obtain ⟨rfl, rfl⟩ := hskipLine hw hskip
  rcases findKeyword_cases hk with ⟨ly, r, hs, -, hr⟩ | ⟨ly, rest, hs, hline, -⟩
  · exact absurd (sound_of_skip (hfits _) (by simp) (ho.suffix (suffix_of_skip hs)).tail hr).1 hsound
  · obtain ⟨rfl, rfl⟩ := hskipLine (ho.suffix (suffix_of_skip hs)) hline
    exact hs

theorem Physical.endsLine_flatten {ls ls' : List Chars} (h : Physical (ls ++ ls')) (hne : ls' ≠ []) :
    EndsLine ls.flatten := by
  have hends : ls.flatten = [] ∨ ∃ o, ls.flatten = o ++ ['\n'] := by
    induction ls with
    | nil => exact .inl rfl
    | cons l₀ ls ih =>
      right
      rcases h with ⟨⟨body, -, rfl⟩, h⟩ | ⟨hnil, -⟩
      · rcases ih h with hnil | ⟨o, ho⟩
        · exact ⟨body, by simp [hnil]⟩
        · exact ⟨body ++ '\n' :: o, by simp [ho]⟩
      · simp [hne] at hnil
  rcases hends with hnil | ⟨o, ho⟩
  · simp [hnil, EndsLine]
  · rw [ho]
    exact endsLine_append o

/-- Where the line counts as begun anew, it did so at its start. -/
theorem start_of_skip {lx ly : Lexical} {cs rest : Chars} (ho : OneLine cs) (h : skip false lx cs = .ok (ly, rest))
    (hl : ly.line = .start) (hend : rest ≠ [] ∨ ly.mode = .blockComment) : lx.line = .start := by
  have hfits : lx.Fits false := fun hf => by cases hf
  rcases line_of_skip hfits ho h with h' | h' | ⟨rfl, rfl⟩
  · rw [← h', hl]
  · rw [h'] at hl
    cases hl
  · simp at hend

/-- The lines of `lead` are passed, and then the line up to its hash. -/
theorem passed_of_lines {ls after : List Chars} {first state ly : Lexical} {line w : Chars}
    (hp : Physical (ls ++ line :: after)) (hm : first.mode = .code ∨ first.mode = .blockComment)
    (hls : scanLines first ls = .ok state)
    (hcomments : ∀ ls', ls' ≠ [] → ls' <+: ls → ∃ lx, scanLines first ls' = .ok lx ∧ lx.mode = .blockComment)
    (hs : skip false state line = .ok (ly, '#' :: w)) (hl : ly.line = .start) :
    first.line = .start ∧ Passed first.mode (ls.flatten ++ (line ++ after.flatten)) .code
    ('#' :: w ++ after.flatten) := by
  induction ls generalizing first with
  | nil =>
    cases hls
    have hmode : ly.mode = .code := mode_of_skipParsed_stop hs (by simp)
    refine ⟨start_of_skip hp.oneLine hs hl (by simp), ?_⟩
    have hpassed := passed_of_skipParsed hs hp.oneLine hp.endsLine hm hl (by simp)
    rwa [hmode] at hpassed
  | cons l ls ih =>
    rw [List.cons_append] at hp
    obtain ⟨lx, hlx, hls⟩ := bind_eq_ok.1 hls
    -- A line before the directive ends in the comment that the next line starts in.
    have hblock : lx.mode = .blockComment := by
      obtain ⟨lx', hlx', hblock⟩ := hcomments [l] (by simp) (by simp)
      obtain ⟨lx'', hlx'', he⟩ := bind_eq_ok.1 hlx'
      cases he
      obtain rfl := Except.ok.inj (hlx.symm.trans hlx'')
      exact hblock
    obtain ⟨hstart, hpassed⟩ := ih hp.tail (.inr hblock) hls (by
      intro ls' hne hpre
      obtain ⟨lx', hlx', hblock'⟩ := hcomments (l :: ls') (by simp) (by simpa [List.cons_prefix_cons] using hpre)
      obtain ⟨lx'', hlx'', hls'⟩ := bind_eq_ok.1 hlx'
      obtain rfl := Except.ok.inj (hlx.symm.trans hlx'')
      exact ⟨lx', hls', hblock'⟩)
    have hskip := skip_of_scanLine hp.oneLine hlx hstart (by simp [hblock])
    refine ⟨start_of_skip hp.oneLine hskip hstart (.inr hblock), ?_⟩
    have hX := hp.endsLine
    rw [List.flatten_append, List.flatten_cons] at hX
    have hline := passed_of_skipParsed hskip hp.oneLine hX hm hstart (.inr hblock)
    rw [List.flatten_cons, List.append_assoc]
    exact hline.trans hpassed

namespace IncludeLine

variable {text name : Chars} (l : IncludeLine text name)

/-- The quick reading leaves the directive behind whole lines and white space. -/
theorem stripped (ha : l.Agrees) : ∃ p tail, QuotesEnd p ∧
    stripComments text = p ++ '#' :: includeText l.space name tail := by
  have hphysical := l.lines_eq ▸ physical_lines text
  obtain ⟨ly, hs⟩ := ha.close
  have hstart : ly.line = .start := by
    obtain ⟨lz, r, hs', hl, -⟩ := findKeyword_eq_ok (by simp [includeText]) l.directive
    rw [hs] at hs'
    cases hs'
    exact hl
  obtain ⟨-, hpassed⟩ := passed_of_lines hphysical.suffix (.inl l.code) l.scan_lead ha.comments hs hstart
  rw [l.code] at hpassed
  obtain ⟨ws, b, hws, hleaves⟩ := hpassed.leaves rfl (by simp) true
  have htext : '#' :: includeText l.space name l.tail ++ l.after.flatten =
      '#' :: includeText l.space name (l.tail ++ l.after.flatten) := by
    simp [includeText]
  obtain ⟨out, hout⟩ := stripFrom_includeText l.white ha.line_name ha.block_name b (l.tail ++ l.after.flatten)
  simp only [leaves, Option.some.injEq, htext, hout] at hleaves
  refine ⟨stripComments l.before.flatten ++ ws, out, ?_, ?_⟩
  · have hquote : '"' ∉ ws := fun hmem => absurd (hws _ hmem) (by decide)
    exact quotesEnd_stripComments (hphysical.endsLine_flatten (by simp)) hquote
  · rw [ha.apart, stripComments, stripComments, hleaves, List.append_assoc]

include l in
theorem name_oneLine : '\n' ∉ name := by
  have hphysical := (l.lines_eq ▸ physical_lines text).suffix.suffix
  have hsuffix := suffix_of_findKeyword (by simp [includeText]) l.directive
  have ho : OneLine (includeText l.space name l.tail) := hphysical.oneLine.suffix hsuffix
  intro hmem
  apply ho
  rw [includeText, List.dropLast_append_of_ne_nil (by simp)]
  simp [hmem]

theorem mem_quoted (ha : l.Agrees) : String.ofList name ∈ quotedIncludes (stripComments text) := by
  obtain ⟨p, tail, hp, hstrip⟩ := l.stripped ha
  rw [hstrip]
  apply mem_quotedIncludes hp l.white
  intro c hc
  constructor
  · rintro rfl
    exact l.unquoted hc
  · rintro rfl
    exact l.name_oneLine hc

end IncludeLine

/-! ## Pruning -/

section
variable {cfg : ProjectConfig} {d₀ d₁ d : Disk} {k : Nat} {m q : Place} {manifest path written : String}
    {s₁ s : Session} {c : Content}

/-- A result that is not altered is the source. -/
theorem text_of_final (hq : cfg.settings.Silent) {src text : String} {r : Resolved} (h : cfg.outcome src = .ok r)
    (hfinal : .text text = r.final src) : text.toList = r.text := by
  cases ha : r.altered with
  | true =>
    simp only [Resolved.final, ha, if_true, Content.text.injEq] at hfinal
    simp [hfinal]
  | false =>
    simp only [Resolved.final, ha, Bool.false_eq_true, if_false, Content.text.injEq] at hfinal
    obtain ⟨t, -, -, hres⟩ := resolve_eq_ok_iff.mp h
    obtain ⟨hf, rfl⟩ := resolved_eq_ok_iff.mp hres
    have hstart : ({} : Run).Pristine := ⟨rfl, rfl, rfl⟩
    rw [hfinal, text_of_unaltered hq hstart hf ha, flatten_lines]

/-- A needed file is not pruned: it is still there unless it came out vacant. -/
theorem needed_of_concludes (hk : k = 1 ∨ k = 2) (h : Progress cfg d₀ k [] s₁ d₁)
    (hend : Concludes cfg k (Path.directory manifest) s₁ (d₁.put m (.text written)) s d) (hmem : path ∈ s.includes)
    (hl : d₀.locate path = .ok q) (hc : d₀.contentAt? q = some c) :
    d.contentAt? q ≠ none ∨ ∃ src r, Resolves cfg d₀ path src r ∧ r.vacant = true := by
  have hmem₁ : path ∈ s₁.includes := hend.includes_eq ▸ hmem
  have hroot : Path.Rooted k path := h.rooted path (.inl hmem₁)
  rcases hend.content q with hsame | ⟨-, -, path', -, hnot, hroot', hl', -⟩
  · by_cases hm : q = m
    · left
      rw [hsame, Disk.contentAt?_put, if_pos hm]
      simp
    · rw [Disk.contentAt?_put, if_neg hm] at hsame
      by_cases hproc : path ∈ s₁.report.processed
      · cases h.finished path hproc (by simp) with
        | gone origin place vacant removed absent => exact .inr ⟨_, _, origin, vacant⟩
        | kept origin place needed leads content =>
          obtain rfl := Except.ok.inj (place.symm.trans hl)
          left
          simp [hsame, content]
      · left
        rw [hsame, h.content_of_unprocessed hk hroot hproc hl, hc]
        simp
  · -- what is pruned is not needed
    have hpath := Disk.eq_of_locate_of_locate hk hroot hroot' hl hl'
    rw [hpath] at hmem
    exact absurd hmem hnot

end

/-- What a processed file includes when all is done is needed: the path is followed, and the file there is still
there unless it came out vacant. That takes an include that the quick reading sees as the scanner does. -/
theorem include_needed {cfg : ProjectConfig} {manifest path text : String} {name : Chars} {s : Session}
    {w₀ w : World} {p : Place} (hproper : w₀.disk.Proper) (hrel : RelativeNames cfg w₀.disk manifest)
    (hq : cfg.settings.Silent)
    (hrun : runProject cfg manifest w₀ = ((.ok (), s), w)) (hmem : path ∈ s.report.processed)
    (hl : w₀.disk.locate path = .ok p) (hp : w₀.disk.locate (manifestPath w₀.disk manifest) ≠ .ok p)
    (hc : w.disk.contentAt? p = some (.text text)) (l : IncludeLine text.toList name) (ha : l.Agrees) :
    let target := Path.normal (Path.join (Path.directory path) (String.ofList name))
    target ∈ s.includes ∧ ∀ q c, w₀.disk.locate target = .ok q → w₀.disk.contentAt? q = some c →
      w.disk.contentAt? q ≠ none ∨ ∃ src r, Resolves cfg w₀.disk target src r ∧ r.vacant = true := by
  intro target
  obtain ⟨k, m, s₁, d₁, written, hm, hk, h, hend⟩ := gives_processManifest hproper hrel hrun
  obtain ⟨src, r, hres, hleads, hfinal⟩ := processed_of_concludes h hm hend hp hmem hl hc
  have htext := text_of_final hq hres.2 hfinal
  have hname : String.ofList name ∈ r.includeNames := by
    rw [Resolved.includeNames, ← htext]
    exact l.mem_quoted ha
  have htarget : target ∈ s.includes := hleads target (List.mem_map_of_mem hname)
  refine ⟨htarget, fun q c hq' hc' => ?_⟩
  exact needed_of_concludes hk h hend htarget hq' hc'

def commentedInclude : World :=
  worldOf [(["p", "progs.src"], "out\n../main.qc\n"),
    (["main.qc"], "s = \"/*\"; // */\n/* x\n*/ #include \"a.h\"\n#ifdef X\nx\n#endif\n"), (["a.h"], "a\n")]

def commentedText : String := "s = \"/*\"; // */\n/* x\n*/ #include \"a.h\"\n"

def commentedLine : IncludeLine commentedText.toList "a.h".toList where
  before := ["s = \"/*\"; // */\n".toList]
  lead := ["/* x\n".toList]
  line := "*/ #include \"a.h\"\n".toList
  after := []
  first := {}
  state := ⟨.blockComment, .start⟩
  keyword := ⟨.code, .hash⟩
  space := [' ']
  tail := ['\n']
  lines_eq := by decide +kernel
  scan_before := by decide +kernel
  scan_lead := by decide +kernel
  code := rfl
  directive := by decide +kernel
  white := by
    intro c hc
    rw [List.mem_singleton.1 hc]
    decide
  unquoted := by decide +kernel

theorem agrees_commentedLine : commentedLine.Agrees where
  close := ⟨⟨.code, .start⟩, by decide +kernel⟩
  comments := by
    intro ls hne hpre
    obtain rfl : ls = commentedLine.lead := by
      rcases List.prefix_cons_iff.1 hpre with rfl | ⟨t, rfl, ht⟩
      · exact absurd rfl hne
      · rw [List.prefix_nil.1 ht]
        rfl
    exact ⟨⟨.blockComment, .start⟩, commentedLine.scan_lead, rfl⟩
  apart := by decide +kernel
  line_name := by decide +kernel
  block_name := by decide +kernel

def commentedSession : Session := ⟨⟨["/w/main.qc", "/w/a.h"], [], []⟩, ["/w/main.qc", "/w/a.h"]⟩

theorem runProject_commentedInclude :
    (runProject withoutX "p/progs.src" commentedInclude).1 = (.ok (), commentedSession) := by
  decide +kernel

theorem include_needed_commentedInclude :
    commentedInclude.disk.Proper ∧ RelativeNames withoutX commentedInclude.disk "p/progs.src" ∧
      withoutX.settings.Silent ∧
      (runProject withoutX "p/progs.src" commentedInclude).1 = (.ok (), commentedSession) ∧
      "/w/main.qc" ∈ commentedSession.report.processed ∧
      commentedInclude.disk.locate "/w/main.qc" = .ok ["w", "main.qc"] ∧
      commentedInclude.disk.locate (manifestPath commentedInclude.disk "p/progs.src") ≠ .ok ["w", "main.qc"] ∧
      (runProject withoutX "p/progs.src" commentedInclude).2.disk.contentAt? ["w", "main.qc"] =
        some (.text commentedText) ∧
      commentedLine.Agrees ∧ "/w/a.h" ∈ commentedSession.includes := by
  have hproper : commentedInclude.disk.Proper := by decide +kernel
  have hrel : RelativeNames withoutX commentedInclude.disk "p/progs.src" :=
    relativeNames_of_checks (by decide +kernel) (by decide +kernel)
  have hq : withoutX.settings.Silent := ⟨rfl, rfl, rfl⟩
  have hmem : "/w/main.qc" ∈ commentedSession.report.processed := by decide
  have hl : commentedInclude.disk.locate "/w/main.qc" = .ok ["w", "main.qc"] := by decide +kernel
  have hp :
      commentedInclude.disk.locate (manifestPath commentedInclude.disk "p/progs.src") ≠ .ok ["w", "main.qc"] := by
    decide +kernel
  have hc : (runProject withoutX "p/progs.src" commentedInclude).2.disk.contentAt? ["w", "main.qc"] =
      some (.text commentedText) := by
    decide +kernel
  have hneeded := include_needed hproper hrel hq
    (eq_mk_of_fst runProject_commentedInclude) hmem hl hp hc commentedLine
    agrees_commentedLine
  exact ⟨hproper, hrel, hq, runProject_commentedInclude, hmem, hl, hp, hc, agrees_commentedLine, hneeded.1⟩

end CondResolve
