import CondResolve.Proofs.Session

/-!
# How far a session is with its files

While files are processed, each path that is needed is settled or still open: its includes are being followed, and
what it resolves to is not written yet. `Progress` says what holds of the session and of the disk for a list of open
paths. A file is entered and left, found blank or reported; each of these keeps `Progress`, and so does the
processing of a file with all it leads to.
-/

namespace CondResolve

open CondResolve.Path SessionM

namespace ProjectConfig

variable (cfg : ProjectConfig)

def outcome (src : String) : Except Failure Resolved := resolve cfg.settings cfg.symbols [] src.toList

end ProjectConfig

namespace Resolved

def vacant (r : Resolved) : Bool := (stripComments r.text).all isWhite

def includeNames (r : Resolved) : List String := quotedIncludes (stripComments r.text)

def leadsTo (r : Resolved) (path : String) : List String :=
  r.includeNames.map fun name => normal (join (directory path) name)

def final (r : Resolved) (src : String) : Content := .text (if r.altered then String.ofList r.text else src)

end Resolved

section
variable (cfg : ProjectConfig) (d₀ : Disk)

def Resolves (path src : String) (r : Resolved) : Prop :=
  d₀.read path = .ok (.text src) ∧ cfg.outcome src = .ok r

inductive Finished (s : Session) (d : Disk) (path : String) : Prop
  | gone {src p r} (origin : Resolves cfg d₀ path src r) (place : d₀.locate path = .ok p) (vacant : r.vacant = true)
      (removed : path ∈ s.report.removed) (absent : d.contentAt? p = none)
  | kept {src p r} (origin : Resolves cfg d₀ path src r) (place : d₀.locate path = .ok p)
    (needed : path ∈ s.includes)
      (leads : ∀ t ∈ r.leadsTo path, t ∈ s.includes) (content : d.contentAt? p = some (r.final src))

/-- An error is recorded under the path; if its text does not resolve, the error says why. -/
def Reported (s : Session) (path : String) : Prop :=
  ∃ error, path ++ ": " ++ error ∈ s.report.errors ∧
    ∀ src f, d₀.read path = .ok (.text src) → cfg.outcome src = .error f → error = f.message

/-- The state of a session that started from the disk `d₀`, while the files at `active` are being processed. -/
structure Progress (k : Nat) (active : List String) (s : Session) (d : Disk) : Prop where
  cwd_eq : d.cwd = d₀.cwd
  dirs_eq : d.dirs = d₀.dirs
  rooted : ∀ path, path ∈ s.includes ∨ path ∈ s.report.processed → Rooted k path
  pending : ∀ path ∈ active, path ∈ s.includes
  finished : ∀ path ∈ s.report.processed, path ∉ active → Finished cfg d₀ s d path
  answered : ∀ path ∈ s.includes, path ∉ active → path ∈ s.report.processed ∨ Reported cfg d₀ s path
  frame : ∀ p, (∀ path ∈ s.report.processed, d₀.locate path = .ok p → path ∈ active) →
    d.contentAt? p = d₀.contentAt? p

variable {cfg d₀} {k : Nat} {active : List String} {s s' : Session} {d d' : Disk} {path src : String} {p : Place}
  {r : Resolved}

/-! ## What settled files keep -/

theorem Finished.mono (h : Finished cfg d₀ s d path) (hi : ∀ t ∈ s.includes, t ∈ s'.includes)
    (hr : ∀ t ∈ s.report.removed, t ∈ s'.report.removed)
    (hd : ∀ q, d₀.locate path = .ok q → d'.contentAt? q = d.contentAt? q) : Finished cfg d₀ s' d' path := by
  cases h with
  | gone origin place vacant removed absent =>
    exact .gone origin place vacant (hr _ removed) ((hd _ place).trans absent)
  | kept origin place needed leads content =>
    exact .kept origin place (hi _ needed) (fun t ht => hi t (leads t ht)) ((hd _ place).trans content)

theorem Finished.resolves (h : Finished cfg d₀ s d path) : ∃ src r, Resolves cfg d₀ path src r := by
  cases h with
  | gone origin => exact ⟨_, _, origin⟩
  | kept origin => exact ⟨_, _, origin⟩

theorem Reported.mono (h : Reported cfg d₀ s path) (he : ∀ e ∈ s.report.errors, e ∈ s'.report.errors) :
    Reported cfg d₀ s' path := by
  obtain ⟨error, hmem, hwhy⟩ := h
  exact ⟨error, he _ hmem, hwhy⟩

namespace Progress

theorem isDirAt_eq (h : Progress cfg d₀ k active s d) (x : Place) : d.isDirAt x = d₀.isDirAt x := by
  simp [Disk.isDirAt, h.dirs_eq]

theorem widens (h : Progress cfg d₀ k active s d) : d.Widens d₀ :=
  ⟨h.cwd_eq, fun x hx => h.isDirAt_eq x ▸ hx⟩

theorem locate_iff (h : Progress cfg d₀ k active s d) : d.locate path = .ok p ↔ d₀.locate path = .ok p := by
  have hfrom : d₀.Widens d := ⟨h.cwd_eq.symm, fun x hx => (h.isDirAt_eq x).symm ▸ hx⟩
  exact ⟨h.widens.locate, hfrom.locate⟩

theorem active_needed (h : Progress cfg d₀ k active s d) (hp : path ∉ s.includes) : path ∉ active :=
  fun ho => hp (h.pending path ho)

section
variable (hk : k = 1 ∨ k = 2) (h : Progress cfg d₀ k active s d) (hr : Rooted k path)
include hk h hr

theorem eq_of_locate {path' : String} (hp : path' ∈ s.report.processed) (hl : d₀.locate path = .ok p)
    (hl' : d₀.locate path' = .ok p) : path' = path :=
  Disk.eq_of_locate_of_locate hk (h.rooted path' (.inr hp)) hr hl' hl

theorem content_of_unprocessed (hp : path ∉ s.report.processed) (hl : d₀.locate path = .ok p) :
    d.contentAt? p = d₀.contentAt? p := by
  apply h.frame
  intro path' hmem hl'
  exact absurd (eq_of_locate hk h hr hmem hl hl' ▸ hmem) hp

theorem read_of_unprocessed {c : Content} (hp : path ∉ s.report.processed) :
    d.read path = .ok c ↔ d₀.read path = .ok c := by
  rw [Disk.read_eq_ok_iff, Disk.read_eq_ok_iff]
  constructor
  · intro ⟨p, hl, hd, hc⟩
    have hl₀ := h.locate_iff.1 hl
    exact ⟨p, hl₀, h.isDirAt_eq p ▸ hd, content_of_unprocessed hk h hr hp hl₀ ▸ hc⟩
  · intro ⟨p, hl, hd, hc⟩
    exact ⟨p, h.locate_iff.2 hl, (h.isDirAt_eq p).symm ▸ hd, (content_of_unprocessed hk h hr hp hl).symm ▸ hc⟩

end

/-- A file that is there under a path that is not needed yet was not processed before. -/
theorem fresh_of_content (h : Progress cfg d₀ k active s d) (hp : path ∉ s.includes) (hl : d.locate path = .ok p)
    {c : Content} (hc : d.contentAt? p = some c) : path ∉ s.report.processed := by
  intro hmem
  cases h.finished path hmem (h.active_needed hp) with
  | gone _ place _ _ absent =>
    obtain rfl := Except.ok.inj (place.symm.trans (h.locate_iff.1 hl))
    simp [absent] at hc
  | kept _ _ needed => exact hp needed

theorem fresh (h : Progress cfg d₀ k active s d) (hp : path ∉ s.includes) {c : Content}
    (hread : d.read path = .ok c) : path ∉ s.report.processed := by
  obtain ⟨p, hl, -, hc⟩ := Disk.read_eq_ok_iff.1 hread
  exact h.fresh_of_content hp hl hc

theorem original (hk : k = 1 ∨ k = 2) (h : Progress cfg d₀ k active s d) (hr : Rooted k path)
    (hp : path ∉ s.includes) {c : Content} (hread : d.read path = .ok c) : d₀.read path = .ok c :=
  (h.read_of_unprocessed hk hr (h.fresh hp hread)).1 hread

/-- A text that does not resolve is still there. -/
theorem read_of_error (hk : k = 1 ∨ k = 2) (h : Progress cfg d₀ k active s d) (hr : Rooted k path)
    (hp : path ∉ active) {f : Failure} (hread : d₀.read path = .ok (.text src))
    (hout : cfg.outcome src = .error f) : d.read path = .ok (.text src) := by
  apply (h.read_of_unprocessed hk hr ?_).2 hread
  intro hmem
  obtain ⟨src', r, hread', hout'⟩ := (h.finished path hmem hp).resolves
  simp_all

/-! ## Steps -/

theorem report (hk : k = 1 ∨ k = 2) (h : Progress cfg d₀ k active s d) (hr : Rooted k path)
    (hp : path ∉ s.includes) {error : String}
    (hwhy : ∀ src f, d.read path = .ok (.text src) → cfg.outcome src = .error f → error = f.message) :
    Progress cfg d₀ k active ((s.needed path).failed path error) d where
  cwd_eq := h.cwd_eq
  dirs_eq := h.dirs_eq
  rooted := by
    intro path' hmem
    simp only [Session.failed, Session.needed, List.mem_append, List.mem_singleton] at hmem
    rcases hmem with (hmem | rfl) | hmem
    · exact h.rooted path' (.inl hmem)
    · exact hr
    · exact h.rooted path' (.inr hmem)
  pending := fun path' hmem => List.mem_append_left _ (h.pending path' hmem)
  finished := by
    intro path' hmem hnot
    apply (h.finished path' hmem hnot).mono
    · exact fun t ht => List.mem_append_left _ ht
    · exact fun t ht => ht
    · exact fun q _ => rfl
  answered := by
    intro path' hmem hnot
    rcases List.mem_append.1 hmem with hmem | hmem
    · apply (h.answered path' hmem hnot).imp_right
      exact fun hrep => hrep.mono fun e he => List.mem_append_left _ he
    · obtain rfl := List.mem_singleton.1 hmem
      refine .inr ⟨error, by simp [Session.failed], fun src f hread hout => hwhy src f ?_ hout⟩
      exact h.read_of_error hk hr hnot hread hout
  frame := h.frame

theorem enter (h : Progress cfg d₀ k active s d) (hr : Rooted k path) (hnew : path ∉ s.report.processed) :
    Progress cfg d₀ k (path :: active) ((s.needed path).processed path) d where
  cwd_eq := h.cwd_eq
  dirs_eq := h.dirs_eq
  rooted := by
    intro path' hmem
    simp only [Session.processed, Session.needed, List.mem_append, List.mem_singleton] at hmem
    rcases hmem with (hmem | rfl) | (hmem | rfl)
    · exact h.rooted path' (.inl hmem)
    · exact hr
    · exact h.rooted path' (.inr hmem)
    · exact hr
  pending := by
    intro path' hmem
    rcases List.mem_cons.1 hmem with rfl | hmem
    · simp [Session.processed, Session.needed]
    · exact List.mem_append_left _ (h.pending path' hmem)
  finished := by
    intro path' hmem hnot
    simp only [List.mem_cons, not_or] at hnot
    rcases List.mem_append.1 hmem with hmem | hmem
    · apply (h.finished path' hmem hnot.2).mono
      · exact fun t ht => List.mem_append_left _ ht
      · exact fun t ht => ht
      · exact fun q _ => rfl
    · exact absurd (List.mem_singleton.1 hmem) hnot.1
  answered := by
    intro path' hmem hnot
    simp only [List.mem_cons, not_or] at hnot
    rcases List.mem_append.1 hmem with hmem | hmem
    · apply (h.answered path' hmem hnot.2).imp_left
      exact fun hproc => List.mem_append_left _ hproc
    · exact absurd (List.mem_singleton.1 hmem) hnot.1
  frame := by
    intro p hall
    apply h.frame
    intro path' hmem hl
    -- The path was not processed before, so it is none of those that `p` is to be outside of.
    rcases List.mem_cons.1 (hall path' (List.mem_append_left _ hmem) hl) with rfl | hact
    · exact absurd hmem hnew
    · exact hact

theorem leave (hk : k = 1 ∨ k = 2) (h : Progress cfg d₀ k (path :: active) s d) (hp : path ∉ active)
    (hproc : path ∈ s.report.processed) (hres : Resolves cfg d₀ path src r) (hl : d₀.locate path = .ok p)
    (hleads : ∀ t ∈ r.leadsTo path, t ∈ s.includes) (hcwd : d'.cwd = d.cwd) (hdirs : d'.dirs = d.dirs)
    (hc : d'.contentAt? p = some (r.final src)) (hother : ∀ q, q ≠ p → d'.contentAt? q = d.contentAt? q) :
    Progress cfg d₀ k active s d' where
  cwd_eq := hcwd.trans h.cwd_eq
  dirs_eq := hdirs.trans h.dirs_eq
  rooted := h.rooted
  pending := fun path' hmem => h.pending path' (List.mem_cons_of_mem _ hmem)
  finished := by
    intro path' hmem hnot
    by_cases he : path' = path
    · subst he
      exact .kept hres hl (h.pending path' (List.mem_cons_self ..)) hleads hc
    · apply (h.finished path' hmem (by simp [he, hnot])).mono (fun t ht => ht) (fun t ht => ht)
      intro q hq
      apply hother
      intro hqp
      exact he (eq_of_locate hk h (h.rooted path (.inr hproc)) hmem hl (hqp ▸ hq))
  answered := by
    intro path' hmem hnot
    by_cases he : path' = path
    · exact .inl (he ▸ hproc)
    · exact h.answered path' hmem (by simp [he, hnot])
  frame := by
    intro q hall
    have hne : q ≠ p := fun hq => hp (hall path hproc (hq ▸ hl))
    rw [hother q hne]
    exact h.frame q fun path' hmem hl' => List.mem_cons_of_mem _ (hall path' hmem hl')

/-- A file of which nothing is left is deleted. Its path stays needed if something else leads to it. -/
theorem remove (hk : k = 1 ∨ k = 2) (h : Progress cfg d₀ k active s d) (hr : Rooted k path)
    (hp : path ∉ s.includes) (hread : d.read path = .ok (.text src)) (hout : cfg.outcome src = .ok r)
    (hv : r.vacant = true) (hl : d.locate path = .ok p) (needed : List String)
    (hsub : ∀ t ∈ s.includes, t ∈ needed) (hsup : ∀ t ∈ needed, t ∈ s.includes ∨ t = path) :
    Progress cfg d₀ k active { ((s.processed path).removed path) with includes := needed } (d.without p) where
  cwd_eq := h.cwd_eq
  dirs_eq := h.dirs_eq
  rooted := by
    intro path' hmem
    simp only [Session.processed, Session.removed, List.mem_append, List.mem_singleton] at hmem
    rcases hmem with hmem | (hmem | rfl)
    · rcases hsup path' hmem with hmem | rfl
      · exact h.rooted path' (.inl hmem)
      · exact hr
    · exact h.rooted path' (.inr hmem)
    · exact hr
  pending := fun path' hmem => hsub path' (h.pending path' hmem)
  finished := by
    intro path' hmem hnot
    have hl₀ := h.locate_iff.1 hl
    rcases List.mem_append.1 hmem with hmem | hmem
    · -- Another path leads to another place, so its file is untouched.
      have hne : path' ≠ path := fun he => h.fresh hp hread (he ▸ hmem)
      apply (h.finished path' hmem hnot).mono hsub
      · exact fun t ht => List.mem_append_left _ ht
      · intro q hq
        rw [Disk.contentAt?_without, if_neg]
        intro hqp
        exact hne (eq_of_locate hk h hr hmem hl₀ (hqp ▸ hq))
    · obtain rfl := List.mem_singleton.1 hmem
      refine .gone ⟨h.original hk hr hp hread, hout⟩ hl₀ hv (by simp [Session.removed]) ?_
      rw [Disk.contentAt?_without, if_pos rfl]
  answered := by
    intro path' hmem hnot
    rcases hsup path' hmem with hmem | rfl
    · apply (h.answered path' hmem hnot).imp_left
      exact fun hproc => List.mem_append_left _ hproc
    · exact .inl (by simp [Session.processed, Session.removed])
  frame := by
    intro q hall
    have hne : q ≠ p := by
      intro hq
      have : path ∈ active := by
        apply hall path
        · simp [Session.processed, Session.removed]
        · exact hq ▸ h.locate_iff.1 hl
      exact h.active_needed hp this
    rw [Disk.contentAt?_without, if_neg hne]
    exact h.frame q fun path' hmem hl' => hall path' (List.mem_append_left _ hmem) hl'

end Progress

/-! ## Processing a file -/

structure Session.Grows (s s' : Session) : Prop where
  includes : ∀ t ∈ s.includes, t ∈ s'.includes
  processed : ∀ t ∈ s.report.processed, t ∈ s'.report.processed

theorem Session.Grows.refl (s : Session) : s.Grows s := ⟨fun _ => id, fun _ => id⟩

theorem Session.Grows.trans {s₁ s₂ s₃ : Session} (h₁ : s₁.Grows s₂) (h₂ : s₂.Grows s₃) : s₁.Grows s₃ :=
  ⟨fun t ht => h₂.includes t (h₁.includes t ht), fun t ht => h₂.processed t (h₁.processed t ht)⟩

theorem Session.grows_needed (s : Session) (path : String) : s.Grows (s.needed path) :=
  ⟨fun _ ht => List.mem_append_left _ ht, fun _ => id⟩

theorem Session.grows_failed (s : Session) (path error : String) : s.Grows ((s.needed path).failed path error) :=
  ⟨fun _ ht => List.mem_append_left _ ht, fun _ ht => ht⟩

theorem Session.grows_processed (s : Session) (path : String) : s.Grows ((s.needed path).processed path) :=
  ⟨fun _ ht => List.mem_append_left _ ht, fun _ ht => List.mem_append_left _ ht⟩

theorem forget_needed {includes : List String} (hp : path ∉ includes) :
    (includes ++ [path]).filter (· ≠ path) = includes := by
  rw [List.filter_append, List.filter_eq_self.2]
  · simp
  · intro t ht
    simp only [ne_eq, decide_eq_true_eq]
    intro he
    exact hp (he ▸ ht)

variable (cfg d₀) in
structure Handled (k : Nat) (active : List String) (s : Session) (path : String) (stays : Bool) (s' : Session)
    (d' : Disk) : Prop where
  progress : Progress cfg d₀ k active s' d'
  grows : s.Grows s'
  needed : path ∈ s'.includes
  forgotten : stays = false →
    s'.includes = s.includes ++ [path] ∧ Progress cfg d₀ k active { s' with includes := s.includes } d'

def follow (cfg : ProjectConfig) (depth : Nat) (base name : String) : SessionM (StateM World) Unit := do
  let target := normal (join base name)
  unless (← session).includes.contains target do
    need target
    if ← host (Host.isFile target) then
      let cwd ← host Host.workingDir
      discard <| processFile cfg depth target (relative cwd target base)
    else fail target "included file not found"

theorem processFile_succ (depth : Nat) (name : String) :
    processFile cfg (depth + 1) path name = (do
      info ("Processing " ++ (if name.isEmpty then path else name) ++ "...")
      match ← resolveFile cfg path with
      | none => return true
      | some r =>
        change fun s => { s with report.processed := s.report.processed ++ [path] }
        if r.vacant then
          remove path
          return false
        else
          r.includeNames.forM (follow cfg depth (directory path))
          if r.altered then must path (Host.writeFile path (String.ofList r.text))
          return true : SessionM (StateM World) Bool) := by
  rfl

section
variable {w w' : World} {u : Unit}

theorem gives_resolveFile {r? : Option Resolved} (h : Gives (resolveFile cfg path) s w r? s' w') :
    w'.disk = w.disk ∧
      ((∃ error, r? = none ∧ s' = s.failed path error ∧
          ∀ src f, w.disk.read path = .ok (.text src) → cfg.outcome src = .error f → error = f.message) ∨
        ∃ src r, r? = some r ∧ s' = s ∧ w.disk.read path = .ok (.text src) ∧ cfg.outcome src = .ok r) := by
  obtain ⟨res, t, v, hhost, hrest⟩ := gives_bind.1 h
  obtain ⟨hres, rfl, rfl⟩ := gives_readFile hhost
  have herror : ∀ {error : String} {t' v'}, Gives (do fail path error; return none) s w r? t' v' →
      v'.disk = w.disk ∧ r? = none ∧ t' = s.failed path error := by
    intro error t' v' hg
    obtain ⟨_, t₁, v₁, hfail, hpure⟩ := gives_bind.1 hg
    obtain ⟨rfl, hd⟩ := gives_fail hfail
    obtain ⟨rfl, rfl, rfl⟩ := gives_pure.1 hpure
    exact ⟨hd, rfl, rfl⟩
  cases res with
  | error e =>
    -- A malformed path ends the session; all other refusals are reported.
    by_cases he : e = .malformedPath
    · subst he
      exact absurd hrest not_gives_throw
    · have hfail : Gives (do fail path (e.message path); return none) s w r? s' w' := by
        cases e with
        | malformedPath => exact absurd rfl he
        | _ => exact hrest
      obtain ⟨hd, hnone, hs⟩ := herror hfail
      exact ⟨hd, .inl ⟨_, hnone, hs, fun src f hread => by simp [hres] at hread⟩⟩
  | ok content =>
    obtain ⟨cs, t₁, v₁, htext, hresolve⟩ := gives_bind.1 hrest
    obtain ⟨src, rfl, rfl, rfl, rfl⟩ := gives_textOf htext
    cases hout : cfg.outcome src with
    | error f =>
      rw [ProjectConfig.outcome] at hout
      simp only [hout] at hresolve
      obtain ⟨hd, hnone, hs⟩ := herror hresolve
      refine ⟨hd, .inl ⟨_, hnone, hs, fun src' f' hread hout' => ?_⟩⟩
      simp_all [ProjectConfig.outcome]
    | ok r =>
      rw [ProjectConfig.outcome] at hout
      simp only [hout] at hresolve
      obtain ⟨rfl, rfl, rfl⟩ := gives_pure.1 hresolve
      exact ⟨rfl, .inr ⟨src, r, rfl, rfl, hres, hout⟩⟩

theorem session_eq_of_store {b : Bool} (hg : Gives (do
        if r.altered then must path (Host.writeFile path (String.ofList r.text))
        return true) s w b s' w') : s = s' := by
  by_cases ha : r.altered = true
  · simp only [if_pos ha] at hg
    obtain ⟨_, s₁, w₁, hwrite, hpure⟩ := gives_bind.1 hg
    exact (gives_write hwrite).1.trans (gives_pure.1 hpure).2.1
  · simp only [if_neg ha] at hg
    exact (gives_pure.1 hg).2.1

/-- An altered text takes the place of the one that was read. -/
theorem gives_store {b : Bool} (hl : w.disk.locate path = .ok p) (hc : w.disk.contentAt? p = some (.text src))
    (hg : Gives (do
        if r.altered then must path (Host.writeFile path (String.ofList r.text))
        return true) s w b s' w') :
    b = true ∧ s = s' ∧ w'.disk.cwd = w.disk.cwd ∧ w'.disk.dirs = w.disk.dirs ∧
      w'.disk.contentAt? p = some (r.final src) ∧ ∀ q, q ≠ p → w'.disk.contentAt? q = w.disk.contentAt? q := by
  by_cases ha : r.altered = true
  · simp only [if_pos ha] at hg
    obtain ⟨_, s₁, w₁, hwrite, hpure⟩ := gives_bind.1 hg
    obtain ⟨rfl, q, hq, hd⟩ := gives_write hwrite
    obtain ⟨rfl, rfl, rfl⟩ := gives_pure.1 hpure
    obtain rfl := Except.ok.inj (hl.symm.trans hq)
    rw [hd]
    refine ⟨rfl, rfl, by simp, by simp, ?_, ?_⟩
    · simp [Disk.contentAt?_put, Resolved.final, ha]
    · intro q hne
      simp [Disk.contentAt?_put, hne]
  · simp only [if_neg ha] at hg
    obtain ⟨rfl, rfl, rfl⟩ := gives_pure.1 hg
    exact ⟨rfl, rfl, rfl, rfl, by simp [hc, Resolved.final, ha], fun _ _ => rfl⟩

variable (cfg) in
/-- How the processing of a file goes: the file is refused, it is found vacant and removed, or what it includes is
followed and the file is kept. -/
inductive Course (depth : Nat) (path : String) (s : Session) (w : World) : Bool → Session → World → Prop
  | refused {error : String} {w' : World}
      (why : ∀ src f, w.disk.read path = .ok (.text src) → cfg.outcome src = .error f → error = f.message)
      (disk : w'.disk = w.disk) : Course depth path s w true (s.failed path error) w'
  | vacant {src : String} {r : Resolved} {p : Place} {w' : World} (read : w.disk.read path = .ok (.text src))
      (resolved : cfg.outcome src = .ok r) (vacant : r.vacant = true) (place : w.disk.locate path = .ok p)
      (disk : w'.disk = w.disk.without p) : Course depth path s w false ((s.processed path).removed path) w'
  | kept {src : String} {r : Resolved} {b : Bool} {s₁ s' : Session} {v v₁ w' : World}
      (read : w.disk.read path = .ok (.text src)) (resolved : cfg.outcome src = .ok r) (solid : r.vacant = false)
      (disk : v.disk = w.disk)
      (follows : Gives (r.includeNames.forM (follow cfg depth (directory path))) (s.processed path) v () s₁ v₁)
      (store : Gives (do
        if r.altered then must path (Host.writeFile path (String.ofList r.text))
        return true) s₁ v₁ b s' w') : Course depth path s w b s' w'

theorem course_of_gives {depth : Nat} {name : String} {b : Bool}
    (hg : Gives (processFile cfg (depth + 1) path name) s w b s' w') : Course cfg depth path s w b s' w' := by
  rw [processFile_succ] at hg
  obtain ⟨_, s₁, w₁, hinfo, hrest⟩ := gives_bind.1 hg
  obtain ⟨rfl, hd₁⟩ := gives_log hinfo
  obtain ⟨r?, s₂, w₂, hresolve, hmatch⟩ := gives_bind.1 hrest
  obtain ⟨hd₂, hcases⟩ := gives_resolveFile hresolve
  rw [hd₁] at hcases hd₂
  rcases hcases with ⟨error, rfl, rfl, hwhy⟩ | ⟨src, r, rfl, rfl, hread, hout⟩
  · obtain ⟨rfl, rfl, rfl⟩ := gives_pure.1 hmatch
    exact .refused hwhy hd₂
  · obtain ⟨_, s₃, w₃, hchange, hif⟩ := gives_bind.1 hmatch
    obtain ⟨rfl, rfl⟩ := gives_change.1 hchange
    by_cases hv : r.vacant = true
    · rw [if_pos hv] at hif
      obtain ⟨_, s₄, w₄, hremove, hpure⟩ := gives_bind.1 hif
      obtain ⟨p, hl, hd, rfl⟩ := gives_remove hremove
      obtain ⟨rfl, rfl, rfl⟩ := gives_pure.1 hpure
      rw [hd₂] at hl hd
      exact .vacant hread hout hv hl hd
    · rw [if_neg hv] at hif
      obtain ⟨_, s₄, w₄, hfollow, hstore⟩ := gives_bind.1 hif
      exact .kept hread hout (by simpa using hv) hd₂ hfollow hstore

variable (cfg) in
/-- How an include is followed: its path is needed already, its file is processed, or there is none. -/
inductive Following (depth : Nat) (target : String) (s : Session) (w : World) : Session → World → Prop
  | known (needed : target ∈ s.includes) : Following depth target s w s w
  | found {name : String} {b : Bool} {s' : Session} {w' : World} (fresh : target ∉ s.includes)
      (process : Gives (processFile cfg depth target name) (s.needed target) w b s' w') :
      Following depth target s w s' w'
  | missing {error : String} {w' : World} (fresh : target ∉ s.includes) (missing : w.disk.isFile target = false)
      (disk : w'.disk = w.disk) : Following depth target s w ((s.needed target).failed target error) w'

theorem following_of_gives {depth : Nat} {base name : String}
    (hg : Gives (follow cfg depth base name) s w u s' w') :
    Following cfg depth (normal (join base name)) s w s' w' := by
  obtain ⟨t, s₁, w₁, hsession, hrest⟩ := gives_bind.1 hg
  obtain ⟨rfl, rfl, rfl⟩ := gives_session.1 hsession
  by_cases hmem : normal (join base name) ∈ s.includes
  · rw [List.contains_iff_mem.2 hmem] at hrest
    obtain ⟨-, rfl, rfl⟩ := gives_pure.1 hrest
    exact .known hmem
  · have hnot : s.includes.contains (normal (join base name)) = false := by simpa using hmem
    rw [hnot] at hrest
    obtain ⟨_, s₁, w₁, hneed, hrest⟩ := gives_bind.1 hrest
    obtain ⟨rfl, rfl⟩ := gives_need hneed
    obtain ⟨found, s₂, w₂, hfile, hrest⟩ := gives_bind.1 hrest
    obtain ⟨hfound, rfl, rfl⟩ := gives_isFile hfile
    cases found with
    | true =>
      obtain ⟨cwd, s₃, w₃, hcwd, hrest⟩ := gives_bind.1 hrest
      obtain ⟨-, rfl, rfl⟩ := gives_workingDir hcwd
      obtain ⟨b, hprocess⟩ := gives_discard hrest
      exact .found hmem hprocess
    | false =>
      obtain ⟨rfl, hd⟩ := gives_fail hrest
      exact .missing hmem hfound hd

variable (cfg) in
/-- How an entry of a manifest is processed: it is blank, its path is needed already, or its file is processed and
stays needed if it is kept. -/
inductive EntryCourse (path entry : String) (s : Session) (w : World) : Bool → Session → World → Prop
  | blank (blank : entry.toList.all isWhite = true) : EntryCourse path entry s w true s w
  | known (needed : path ∈ s.includes) : EntryCourse path entry s w true s w
  | kept {s' : Session} {w' : World} (fresh : path ∉ s.includes)
      (process : Gives (process cfg path entry) (s.needed path) w true s' w') :
    EntryCourse path entry s w true s' w'
  | removed {s' : Session} {w' : World} (fresh : path ∉ s.includes)
      (process : Gives (process cfg path entry) (s.needed path) w false s' w') :
      EntryCourse path entry s w false { s' with includes := s'.includes.filter (· ≠ path) } w'

theorem entryCourse_of_gives {base entry : String} {b : Bool}
    (hg : Gives (processEntry cfg base entry) s w b s' w') :
    EntryCourse cfg (normal (join base entry)) entry s w b s' w' := by
  unfold processEntry at hg
  by_cases hblank : entry.toList.all isWhite = true
  · rw [if_pos hblank] at hg
    obtain ⟨rfl, rfl, rfl⟩ := gives_pure.1 hg
    exact .blank hblank
  · rw [if_neg hblank] at hg
    obtain ⟨t, s₁, w₁, hsession, hg⟩ := gives_bind.1 hg
    obtain ⟨rfl, rfl, rfl⟩ := gives_session.1 hsession
    by_cases hmem : normal (join base entry) ∈ s.includes
    · rw [if_pos (List.contains_iff_mem.2 hmem)] at hg
      obtain ⟨rfl, rfl, rfl⟩ := gives_pure.1 hg
      exact .known hmem
    · rw [if_neg (by simpa using hmem)] at hg
      obtain ⟨_, s₁, w₁, hneed, hg⟩ := gives_bind.1 hg
      obtain ⟨rfl, rfl⟩ := gives_need hneed
      obtain ⟨kept, s₂, w₂, hprocess, hg⟩ := gives_bind.1 hg
      cases kept with
      | true =>
        obtain ⟨rfl, rfl, rfl⟩ := gives_pure.1 hg
        exact .kept hmem hprocess
      | false =>
        obtain ⟨_, s₃, w₃, hforget, hpure⟩ := gives_bind.1 hg
        obtain ⟨rfl, rfl⟩ := gives_change.1 hforget
        obtain ⟨rfl, rfl, rfl⟩ := gives_pure.1 hpure
        exact .removed hmem hprocess

def Handles (cfg : ProjectConfig) (d₀ : Disk) (k depth : Nat) : Prop :=
  ∀ {active s path name b s'} {w w' : World}, Progress cfg d₀ k active s w.disk → Rooted k path →
    path ∉ s.includes → Gives (processFile cfg depth path name) (s.needed path) w b s' w' →
    Handled cfg d₀ k active s path b s' w'.disk

variable (hk : k = 1 ∨ k = 2)
include hk

theorem gives_follow {depth : Nat} {base name : String} (ih : Handles cfg d₀ k depth)
    (h : Progress cfg d₀ k active s w.disk) (hb : Rooted k base) (hn : isAbsolute name = false)
    (hg : Gives (follow cfg depth base name) s w u s' w') :
    Progress cfg d₀ k active s' w'.disk ∧ s.Grows s' ∧ normal (join base name) ∈ s'.includes := by
  have hr : Rooted k (normal (join base name)) := hb.normal_join hk hn
  cases following_of_gives hg with
  | known needed => exact ⟨h, .refl _, needed⟩
  | found fresh process =>
    have hdone := ih h hr fresh process
    exact ⟨hdone.progress, hdone.grows, hdone.needed⟩
  | missing fresh missing disk =>
    rw [disk]
    refine ⟨h.report hk hr fresh ?_, s.grows_failed _ _, by simp [Session.failed, Session.needed]⟩
    intro src f hread
    simp [Disk.isFile_of_read hread] at missing

theorem gives_follows {depth : Nat} {base : String} {names : List String} (ih : Handles cfg d₀ k depth)
    (h : Progress cfg d₀ k active s w.disk) (hb : Rooted k base) (hn : ∀ name ∈ names, isAbsolute name = false)
    (hg : Gives (names.forM (follow cfg depth base)) s w u s' w') :
    Progress cfg d₀ k active s' w'.disk ∧ s.Grows s' ∧
      ∀ name ∈ names, normal (join base name) ∈ s'.includes := by
  induction names generalizing s w with
  | nil =>
    obtain ⟨-, rfl, rfl⟩ := gives_pure.1 hg
    exact ⟨h, .refl _, by simp⟩
  | cons name names ihn =>
    obtain ⟨_, s₁, w₁, hfirst, hrest⟩ := gives_bind.1 hg
    simp only [List.mem_cons, forall_eq_or_imp] at hn ⊢
    obtain ⟨h₁, hgrow₁, hmem⟩ := gives_follow hk ih h hb hn.1 hfirst
    obtain ⟨h₂, hgrow₂, hall⟩ := ihn h₁ hn.2 hrest
    exact ⟨h₂, hgrow₁.trans hgrow₂, hgrow₂.includes _ hmem, hall⟩

theorem handled_vacant (h : Progress cfg d₀ k active s w.disk) (hr : Rooted k path)
    (hp : path ∉ s.includes) (hread : w.disk.read path = .ok (.text src)) (hout : cfg.outcome src = .ok r)
    (hv : r.vacant = true) (hl : w.disk.locate path = .ok p) (hd : w'.disk = w.disk.without p) :
    Handled cfg d₀ k active s path false (((s.needed path).processed path).removed path) w'.disk := by
  have hstep := h.remove hk hr hp hread hout hv hl
  rw [hd]
  refine ⟨hstep (s.includes ++ [path]) ?_ ?_, ⟨?_, ?_⟩, ?_, fun _ => ⟨rfl, hstep s.includes ?_ ?_⟩⟩
  all_goals simp +contextual [Session.needed, Session.processed, Session.removed]

theorem handled_kept {depth : Nat} {b : Bool} {s₁ : Session} {v v₁ : World} (ih : Handles cfg d₀ k depth)
    (h : Progress cfg d₀ k active s w.disk) (hr : Rooted k path) (hp : path ∉ s.includes)
    (hn : ∀ name ∈ r.includeNames, isAbsolute name = false) (hread : w.disk.read path = .ok (.text src))
    (hout : cfg.outcome src = .ok r) (hd : v.disk = w.disk)
    (hfollow : Gives (r.includeNames.forM (follow cfg depth (directory path))) ((s.needed path).processed path) v u
      s₁ v₁)
    (hg : Gives (do
        if r.altered then must path (Host.writeFile path (String.ofList r.text))
        return true) s₁ v₁ b s' w') :
    Handled cfg d₀ k active s path b s' w'.disk := by
  have hk₀ : 0 < k := by omega
  have hread₀ := h.original hk hr hp hread
  obtain ⟨p, hl, -, hc⟩ := Disk.read_eq_ok_iff.1 hread₀
  have henter := h.enter hr (h.fresh hp hread)
  rw [← hd] at henter
  obtain ⟨h₁, hgrow, hleads⟩ := gives_follows hk ih henter (hr.directory hk₀) hn hfollow
  have hproc : path ∈ s₁.report.processed := hgrow.processed _ (by simp [Session.processed])
  have hneed : path ∈ s₁.includes := hgrow.includes _ (by simp [Session.processed, Session.needed])
  have hleads' : ∀ t ∈ r.leadsTo path, t ∈ s₁.includes := by
    intro t ht
    obtain ⟨name, hname, rfl⟩ := List.mem_map.1 ht
    exact hleads name hname
  -- Following the includes did not touch the file, since it is active all the while.
  have hc₁ : v₁.disk.contentAt? p = some (.text src) := by
    rw [h₁.frame p, hc]
    intro path' hmem hl'
    rw [h₁.eq_of_locate hk hr hmem hl hl']
    exact List.mem_cons_self ..
  obtain ⟨rfl, rfl, hcwd, hdirs, hfinal, hother⟩ := gives_store (h₁.locate_iff.2 hl) hc₁ hg
  have hleave := h₁.leave hk (h.active_needed hp) hproc ⟨hread₀, hout⟩ hl hleads' hcwd hdirs hfinal hother
  exact ⟨hleave, (s.grows_processed path).trans hgrow, hneed, by simp⟩

variable (hrel : ∀ path src r, Resolves cfg d₀ path src r → ∀ name ∈ r.includeNames, isAbsolute name = false)
include hrel

theorem handles (depth : Nat) : Handles cfg d₀ k depth := by
  induction depth with
  | zero =>
    intro active s path name b s' w w' h hr hp hg
    exact absurd hg not_gives_throw
  | succ depth ih =>
    intro active s path name b s' w w' h hr hp hg
    cases course_of_gives hg with
    | refused why disk =>
      rw [disk]
      exact ⟨h.report hk hr hp why, s.grows_failed _ _, by simp [Session.failed, Session.needed], by simp⟩
    | vacant read resolved vacant place disk => exact handled_vacant hk h hr hp read resolved vacant place disk
    | kept read resolved solid disk follows store =>
      have hn := hrel path _ _ ⟨h.original hk hr hp read, resolved⟩
      exact handled_kept hk ih h hr hp hn read resolved disk follows store

theorem gives_process {name : String} {b : Bool} (h : Progress cfg d₀ k active s w.disk) (hr : Rooted k path)
    (hp : path ∉ s.includes) (hg : Gives (process cfg path name) (s.needed path) w b s' w') :
    Handled cfg d₀ k active s path b s' w'.disk := by
  obtain ⟨depth, s₁, w₁, hreach, hg⟩ := gives_bind.1 hg
  obtain ⟨rfl, rfl⟩ := gives_reach hreach
  exact handles hk hrel depth h hr hp hg

theorem gives_processEntry {base entry : String} {b : Bool} (h : Progress cfg d₀ k active s w.disk)
    (hb : Rooted k base) (he : isAbsolute entry = false)
    (hg : Gives (processEntry cfg base entry) s w b s' w') : Progress cfg d₀ k active s' w'.disk := by
  have hr := hb.normal_join hk he
  cases entryCourse_of_gives hg with
  | blank => exact h
  | known => exact h
  | kept fresh process => exact (gives_process hk hrel h hr fresh process).progress
  | removed fresh process =>
    obtain ⟨hincludes, hprogress⟩ := (gives_process hk hrel h hr fresh process).forgotten rfl
    rwa [hincludes, forget_needed fresh]

end

end

end CondResolve
