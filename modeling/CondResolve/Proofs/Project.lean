import CondResolve.Proofs.Progress
import CondResolve.Proofs.Pruning

/-!
# What a project run does to the tree

A run reads the manifest, processes its entries, writes the manifest and prunes its directory unless something
failed. `runProject_spares` says which files may be gone afterwards, and which may be changed.
-/

namespace CondResolve

open CondResolve.Path SessionM

/-- A run from the start: what it gave or what ended it, what it noted, and the world afterwards. -/
def runProject (cfg : ProjectConfig) (manifest : String) (w : World) : (Except Crash Unit × Session) × World :=
  (start (processManifest cfg manifest) : StateM World (Except Crash Unit × Session)).run w

def manifestPath (d : Disk) (manifest : String) : String := absolute ("/" ++ ofParts d.cwd) manifest

def manifestEntries (text : String) : List String :=
  ((splitOn '\n' (unifyNewlines text.toList)).drop 1).map String.ofList

structure RelativeNames (cfg : ProjectConfig) (d : Disk) (manifest : String) : Prop where
  entries : ∀ text, d.read (manifestPath d manifest) = .ok (.text text) →
    ∀ entry ∈ manifestEntries text, isAbsolute entry = false
  includes : ∀ path src r, Resolves cfg d path src r → ∀ name ∈ r.includeNames, isAbsolute name = false

/-! ## Trees with relative names -/

/-- A text that the project can resolve names its quoted includes by relative paths. -/
def relativeIncludes (cfg : ProjectConfig) : Content → Bool
  | .text src =>
    match cfg.outcome src with
    | .ok r => r.includeNames.all fun name => !isAbsolute name
    | .error _ => true
  | .binary _ => true

def relativeEntries (d : Disk) (manifest : String) : Bool :=
  match d.read (manifestPath d manifest) with
  | .ok (.text text) => (manifestEntries text).all fun entry => !isAbsolute entry
  | _ => true

theorem mem_of_contentAt? {d : Disk} {p : Place} {c : Content} (h : d.contentAt? p = some c) :
    (p, c) ∈ d.files := by
  unfold Disk.contentAt? at h
  generalize d.files = l at h
  induction l with
  | nil => simp at h
  | cons e l ih =>
    obtain ⟨q, c'⟩ := e
    rw [Disk.lookup_cons_eq_ite] at h
    by_cases hq : p = q <;> simp_all

theorem relativeNames_of_checks {cfg : ProjectConfig} {d : Disk} {manifest : String}
    (hentries : relativeEntries d manifest = true)
    (hincludes : d.files.all (fun e => relativeIncludes cfg e.2) = true) : RelativeNames cfg d manifest where
  entries := by
    intro text hread entry hmem
    unfold relativeEntries at hentries
    simp only [hread, List.all_eq_true, Bool.not_eq_true'] at hentries
    exact hentries entry hmem
  includes := by
    intro path src r hres name hmem
    obtain ⟨p, -, -, hc⟩ := Disk.read_eq_ok_iff.1 hres.1
    rw [List.all_eq_true] at hincludes
    have hfile : relativeIncludes cfg (.text src) = true := hincludes (p, .text src) (mem_of_contentAt? hc)
    unfold relativeIncludes at hfile
    simp only [hres.2, List.all_eq_true, Bool.not_eq_true'] at hfile
    exact hfile name hmem

/-! ## The end of a run -/

/-- From the session `s₁`, done with all entries, and the disk `d₁` with the manifest written: if nothing failed,
the directory of the manifest is pruned. -/
inductive Concludes (cfg : ProjectConfig) (k : Nat) (base : String) (s₁ : Session) (d₁ : Disk) :
    Session → Disk → Prop
  | failed (errors : s₁.report.errors ≠ []) : Concludes cfg k base s₁ d₁ s₁ d₁
  | pruned {b s d} (errors : s₁.report.errors = []) (place : d₁.locate base = .ok b)
      (pruned : Pruned cfg k b s₁ d₁ s d) : Concludes cfg k base s₁ d₁ s d

section
variable {cfg : ProjectConfig} {manifest : String} {s : Session} {w₀ w : World}

theorem exists_rooted_manifestPath (d : Disk) (manifest : String) :
    ∃ k, (k = 1 ∨ k = 2) ∧ Rooted k (manifestPath d manifest) := by
  apply exists_rooted_absolute
  rw [isAbsolute_iff]
  simp

theorem Progress.start {k : Nat} {d₀ : Disk} : Progress cfg d₀ k [] {} d₀ :=
  ⟨rfl, rfl, by simp, by simp, by simp, by simp, fun _ _ => rfl⟩

theorem Progress.proper {k : Nat} {d₀ d : Disk} (hk : k = 1 ∨ k = 2) (h : Progress cfg d₀ k [] s d)
    (hd₀ : d₀.Proper) : d.Proper := by
  refine ⟨fun q hq => ?_, h.dirs_eq ▸ hd₀.dirs⟩
  by_cases hall : ∀ path ∈ s.report.processed, d₀.locate path = .ok q → path ∈ ([] : List String)
  · apply hd₀.files
    rwa [Disk.isFileAt, ← h.frame q hall]
  · simp only [List.not_mem_nil, imp_false, not_forall, not_not] at hall
    obtain ⟨path, hmem, hl⟩ := hall
    obtain ⟨ps, hps, rfl⟩ := h.rooted path (.inr hmem)
    rwa [Disk.eq_of_locate hk hps hl]

/-- What follows the entries and the writing of the manifest. -/
theorem concludes_of_gives {k : Nat} {base text : String} {s₁ : Session} {w₁ : World} {u : Unit}
    (hk : k = 1 ∨ k = 2) (hb : Rooted k base) (hproper : w₁.disk.Proper)
    (hg : Gives (if s₁.report.errors.length = 0 then do pruneDir cfg (← host Host.reach) base else warn text)
      s₁ w₁ u s w) :
    Concludes cfg k base s₁ w₁.disk s w.disk := by
  by_cases herr : s₁.report.errors.length = 0
  · rw [if_pos herr] at hg
    obtain ⟨n, s₂, w₂, hreach, hg⟩ := gives_bind.1 hg
    obtain ⟨rfl, rfl⟩ := gives_reach hreach
    obtain ⟨b, hl⟩ := locate_of_pruneDir hg
    obtain ⟨ps, hps, rfl⟩ := hb
    obtain rfl := Disk.eq_of_locate hk hps hl
    apply Concludes.pruned (List.length_eq_zero_iff.1 herr) hl
    rw [← List.append_nil b] at hps hg
    exact prunes hk n (Pruned.refl hproper) hps (by simp) hg
  · rw [if_neg herr] at hg
    obtain ⟨rfl, hd⟩ := gives_log hg
    rw [hd]
    exact .failed fun hnil => herr (by simp [hnil])

/-- The text of a manifest with the lines `lines` of which, but for the first, only `kept` stay. -/
def rewritten (lines kept : List Chars) : String := String.ofList (joinWith '\n' (lines.take 1 ++ kept))

theorem relative_line {src : String} (hrel : RelativeNames cfg w₀.disk manifest)
    (hread : w₀.disk.read (manifestPath w₀.disk manifest) = .ok (.text src)) {line : Chars}
    (hmem : line ∈ (splitOn '\n' (unifyNewlines src.toList)).drop 1) : isAbsolute (String.ofList line) = false :=
  hrel.entries src hread _ (List.mem_map_of_mem hmem)

theorem Progress.proper_of_write {k : Nat} {d₀ : Disk} {s' : Session} {w' : World} {path text : String} {u : Unit}
    (hk : k = 1 ∨ k = 2) (h : Progress cfg d₀ k [] s w.disk) (hd₀ : d₀.Proper) (hr : Rooted k path)
    (hg : Gives (must path (Host.writeFile path text)) s w u s' w') : w'.disk.Proper := by
  obtain ⟨-, p, hl, hd⟩ := gives_write hg
  obtain ⟨ps, hps, rfl⟩ := hr
  rw [hd, Disk.eq_of_locate hk hps hl]
  exact (h.proper hk hd₀).put hps _

/-- A run that ended: what was read, the entries that were kept, and what the session and the disk were when the
manifest was to be written. -/
structure ManifestRun (cfg : ProjectConfig) (manifest : String) (w₀ : World) (s : Session) (w : World) where
  k : Nat
  place : Place
  src : String
  kept : List Chars
  session : Session
  world : World
  slashes : k = 1 ∨ k = 2
  rooted_path : Rooted k (manifestPath w₀.disk manifest)
  locate_eq : w₀.disk.locate (manifestPath w₀.disk manifest) = .ok place
  read_eq : w₀.disk.read (manifestPath w₀.disk manifest) = .ok (.text src)
  entries : Gives (((splitOn '\n' (unifyNewlines src.toList)).drop 1).filterM fun entry =>
    processEntry cfg (directory (manifestPath w₀.disk manifest)) (String.ofList entry)) {} w₀ kept session world
  progress : Progress cfg w₀.disk k [] session world.disk
  concludes : Concludes cfg k (directory (manifestPath w₀.disk manifest)) session
    (world.disk.put place (.text (rewritten (splitOn '\n' (unifyNewlines src.toList)) kept))) s w.disk

theorem nonempty_manifestRun (hproper : w₀.disk.Proper) (hrel : RelativeNames cfg w₀.disk manifest) {u : Unit}
    (hg : Gives (processManifest cfg manifest) {} w₀ u s w) : Nonempty (ManifestRun cfg manifest w₀ s w) := by
  obtain ⟨k, hk, hm⟩ := exists_rooted_manifestPath w₀.disk manifest
  have hb := hm.directory (by omega)
  unfold processManifest at hg
  obtain ⟨cwd, s₁, w₁, hcwd, hg⟩ := gives_bind.1 hg
  obtain ⟨rfl, rfl, rfl⟩ := gives_workingDir hcwd
  rw [← manifestPath] at hg
  obtain ⟨content, s₁, w₁, hmust, hg⟩ := gives_bind.1 hg
  obtain ⟨rfl, rfl, hread⟩ := gives_mustRead hmust
  obtain ⟨cs, s₁, w₁, htext, hg⟩ := gives_bind.1 hg
  obtain ⟨src, rfl, rfl, rfl, rfl⟩ := gives_textOf htext
  obtain ⟨kept, s₁, w₁, hentries, hg⟩ := gives_bind.1 hg
  have hdone : Progress cfg w₀.disk k [] s₁ w₁.disk := by
    refine gives_filterM (fun s w => Progress cfg w₀.disk k [] s w.disk) ?_ .start hentries
    intro line hline s w b s' w' h hg'
    exact gives_processEntry hk hrel.includes h hb (relative_line hrel hread hline) hg'
  obtain ⟨_, s₂, w₂, hwrite, hg⟩ := gives_bind.1 hg
  have hproper' : w₂.disk.Proper := hdone.proper_of_write hk hproper hm hwrite
  obtain ⟨rfl, m, hl, hd⟩ := gives_write hwrite
  have hl₀ := hdone.locate_iff.1 hl
  obtain ⟨t, s₂, w₃, hsession, hg⟩ := gives_bind.1 hg
  obtain ⟨rfl, rfl, rfl⟩ := gives_session.1 hsession
  have hend := concludes_of_gives hk hb hproper' hg
  rw [hd] at hend
  exact ⟨k, m, src, kept, s₁, w₁, hk, hm, hl₀, hread, hentries, hdone, hend⟩

theorem gives_processManifest (hproper : w₀.disk.Proper) (hrel : RelativeNames cfg w₀.disk manifest) {u : Unit}
    (hg : Gives (processManifest cfg manifest) {} w₀ u s w) :
    ∃ k m s₁ d₁ text, w₀.disk.locate (manifestPath w₀.disk manifest) = .ok m ∧ (k = 1 ∨ k = 2) ∧
      Progress cfg w₀.disk k [] s₁ d₁ ∧
      Concludes cfg k (directory (manifestPath w₀.disk manifest)) s₁ (d₁.put m (.text text)) s w.disk := by
  obtain ⟨run⟩ := nonempty_manifestRun hproper hrel hg
  exact ⟨run.k, run.place, run.session, run.world.disk, _, run.locate_eq, run.slashes, run.progress, run.concludes⟩

end

/-! ## Files that are gone, changed or kept -/

section
variable (cfg : ProjectConfig) (d₀ : Disk) (other : Place → Prop) (s : Session) (d : Disk)

def KeepsProcessed : Prop :=
  ∀ path ∈ s.report.processed, ∀ p c, d₀.locate path = .ok p → other p → d.contentAt? p = some c →
    ∃ src r, Resolves cfg d₀ path src r ∧ (c = .text src ∨ r.altered = true ∧ c = .text (String.ofList r.text))

def KeepsRefused : Prop :=
  ∀ path ∈ s.includes, ∀ p src f, d₀.locate path = .ok p → other p → d₀.read path = .ok (.text src) →
    cfg.outcome src = .error f → path ++ ": " ++ f.message ∈ s.report.errors ∧ d.contentAt? p = some (.text src)

end

/-- What a run that started from `d₀` leaves of the tree, its manifest at `manifest` apart. -/
structure Spared (cfg : ProjectConfig) (d₀ : Disk) (manifest : String) (s : Session) (d : Disk) : Prop where
  /-- A file that is gone came out vacant, or was tracked and not needed, and then nothing failed. -/
  vanished : ∀ p c, d₀.contentAt? p = some c → d₀.locate manifest ≠ .ok p → d.contentAt? p = none →
    ∃ path ∈ s.report.removed, d₀.locate path = .ok p ∧
      ((path ∈ s.report.processed ∧ ∃ src r, Resolves cfg d₀ path src r ∧ r.vacant = true) ∨
        (s.report.errors = [] ∧ path ∉ s.includes ∧
          ∃ base, d₀.locate (directory manifest) = .ok base ∧ Tracked cfg base p))
  unprocessed : ∀ p c, d₀.contentAt? p = some c → d₀.locate manifest ≠ .ok p →
    (∀ path ∈ s.report.processed, d₀.locate path ≠ .ok p) → d.contentAt? p = none ∨ d.contentAt? p = some c
  processed : KeepsProcessed cfg d₀ (fun p => d₀.locate manifest ≠ .ok p) s d
  refused : KeepsRefused cfg d₀ (fun p => d₀.locate manifest ≠ .ok p) s d

namespace Concludes

variable {cfg : ProjectConfig} {k : Nat} {base : String} {s₁ s : Session} {d₁ d : Disk} {p : Place}
  (h : Concludes cfg k base s₁ d₁ s d)
include h

theorem includes_eq : s.includes = s₁.includes := by
  cases h with
  | failed => rfl
  | pruned _ _ h => exact h.includes_eq

theorem processed_eq : s.report.processed = s₁.report.processed := by
  cases h with
  | failed => rfl
  | pruned _ _ h => exact h.processed_eq

theorem errors_eq : s.report.errors = s₁.report.errors := by
  cases h with
  | failed => rfl
  | pruned _ _ h => exact h.errors_eq

theorem removed {path : String} (hmem : path ∈ s₁.report.removed) : path ∈ s.report.removed := by
  cases h with
  | failed => exact hmem
  | pruned _ _ h => exact h.removed path hmem

theorem widens : d.Widens d₁ := by
  cases h with
  | failed => exact .refl _
  | pruned _ _ h => exact h.widens

/-- A needed file is not pruned. -/
theorem read {path : String} {c : Content} (hmem : path ∈ s₁.includes) (hr : Rooted k path)
    (hread : d₁.read path = .ok c) : d.read path = .ok c := by
  cases h with
  | failed => exact hread
  | pruned _ _ h => exact h.needed path hmem hr c hread

/-- A file is as it was, or it was pruned. -/
theorem content (p : Place) : d.contentAt? p = d₁.contentAt? p ∨
    d.contentAt? p = none ∧ s.report.errors = [] ∧ ∃ path ∈ s.report.removed,
      path ∉ s.includes ∧ Rooted k path ∧ d₁.locate path = .ok p ∧
      ∃ b, d₁.locate base = .ok b ∧ Tracked cfg b p := by
  cases h with
  | failed => exact .inl rfl
  | pruned errors place h =>
    apply (h.content p).imp_right
    intro ⟨hnone, path, hmem, hnot, hr, hl, ht⟩
    exact ⟨hnone, h.errors_eq.trans errors, path, hmem, h.includes_eq ▸ hnot, hr, hl, _, place, ht⟩

end Concludes

section
variable {cfg : ProjectConfig} {d₀ d₁ d : Disk} {k : Nat} {m p : Place} {manifest text : String} {s₁ s : Session}
  (h : Progress cfg d₀ k [] s₁ d₁) (hm : d₀.locate manifest = .ok m)
  (hend : Concludes cfg k (directory manifest) s₁ (d₁.put m (.text text)) s d) (hp : d₀.locate manifest ≠ .ok p)
include h hm hend hp

theorem content_of_concludes : d.contentAt? p = d₁.contentAt? p ∨
    d.contentAt? p = none ∧ s.report.errors = [] ∧ ∃ path ∈ s.report.removed,
      path ∉ s.includes ∧ Rooted k path ∧ d₀.locate path = .ok p ∧
      ∃ b, d₀.locate (directory manifest) = .ok b ∧ Tracked cfg b p := by
  have hw : (d₁.put m (.text text)).Widens d₀ := (Disk.widens_put ..).trans h.widens
  have hne : p ≠ m := fun he => hp (he ▸ hm)
  rcases hend.content p with hsame | ⟨hnone, herr, path, hmem, hnot, hr, hl, b, hb, ht⟩
  · rw [Disk.contentAt?_put, if_neg hne] at hsame
    exact .inl hsame
  · exact .inr ⟨hnone, herr, path, hmem, hnot, hr, hw.locate hl, b, hw.locate hb, ht⟩

theorem vanished_of_concludes {c : Content} (hc : d₀.contentAt? p = some c) (hnone : d.contentAt? p = none) :
    ∃ path ∈ s.report.removed, d₀.locate path = .ok p ∧
      ((path ∈ s.report.processed ∧ ∃ src r, Resolves cfg d₀ path src r ∧ r.vacant = true) ∨
        (s.report.errors = [] ∧ path ∉ s.includes ∧
          ∃ base, d₀.locate (directory manifest) = .ok base ∧ Tracked cfg base p)) := by
  rcases content_of_concludes h hm hend hp with hsame | ⟨-, herr, path, hmem, hnot, -, hl, hb⟩
  · -- the file is gone before anything is pruned, so it was processed
    by_cases hall : ∀ path ∈ s₁.report.processed, d₀.locate path = .ok p → path ∈ ([] : List String)
    · rw [hnone, h.frame p hall, hc] at hsame
      cases hsame
    · simp only [List.not_mem_nil, imp_false, not_forall, not_not] at hall
      obtain ⟨path, hmem, hl⟩ := hall
      cases h.finished path hmem (by simp) with
      | gone origin place vacant removed absent =>
        exact ⟨path, hend.removed removed, hl, .inl ⟨hend.processed_eq ▸ hmem, _, _, origin, vacant⟩⟩
      | kept origin place needed leads content =>
        obtain rfl := Except.ok.inj (place.symm.trans hl)
        rw [hnone, content] at hsame
        cases hsame
  · exact ⟨path, hmem, hl, .inr ⟨herr, hnot, hb⟩⟩

theorem processed_of_concludes {path : String} {c : Content} (hmem : path ∈ s.report.processed)
    (hl : d₀.locate path = .ok p) (hc : d.contentAt? p = some c) :
    ∃ src r, Resolves cfg d₀ path src r ∧ (∀ t ∈ r.leadsTo path, t ∈ s.includes) ∧ c = r.final src := by
  rcases content_of_concludes h hm hend hp with hsame | ⟨hnone, -⟩
  · rw [hc] at hsame
    rw [hend.processed_eq] at hmem
    cases h.finished path hmem (by simp) with
    | gone origin place vacant removed absent =>
      obtain rfl := Except.ok.inj (place.symm.trans hl)
      rw [absent] at hsame
      cases hsame
    | kept origin place needed leads content =>
      obtain rfl := Except.ok.inj (place.symm.trans hl)
      rw [content] at hsame
      exact ⟨_, _, origin, hend.includes_eq ▸ leads, Option.some.inj hsame⟩
  · rw [hnone] at hc
    cases hc

theorem refused_of_concludes (hk : k = 1 ∨ k = 2) {path src : String} {f : Failure} (hmem : path ∈ s.includes)
    (hl : d₀.locate path = .ok p) (hread : d₀.read path = .ok (.text src)) (hout : cfg.outcome src = .error f) :
    path ++ ": " ++ f.message ∈ s.report.errors ∧ d.contentAt? p = some (.text src) := by
  rw [hend.includes_eq] at hmem
  have hnot : path ∉ s₁.report.processed := by
    intro hproc
    obtain ⟨src', r, hread', hout'⟩ := (h.finished path hproc (by simp)).resolves
    simp_all
  obtain ⟨error, herr, hwhy⟩ := (h.answered path hmem (by simp)).resolve_left hnot
  have hc : d₁.contentAt? p = some (.text src) := by
    obtain ⟨q, hq, -, hc⟩ := Disk.read_eq_ok_iff.1 hread
    obtain rfl := Except.ok.inj (hq.symm.trans hl)
    rw [h.content_of_unprocessed hk (h.rooted path (.inl hmem)) hnot hl, hc]
  rw [← hend.errors_eq, hwhy src f hread hout] at herr
  refine ⟨herr, ?_⟩
  rcases content_of_concludes h hm hend hp with hsame | ⟨-, hnil, -⟩
  · rw [hsame, hc]
  · rw [hnil] at herr
    cases herr

end

/-- A run over a project that comes to its end changes only files that it has processed and removes only those and,
if nothing failed, the tracked files that nothing needs. Its manifest is a case apart. -/
theorem runProject_spares {cfg : ProjectConfig} {manifest : String} {s : Session} {w₀ w : World}
    (hproper : w₀.disk.Proper) (hrel : RelativeNames cfg w₀.disk manifest)
    (hrun : runProject cfg manifest w₀ = ((.ok (), s), w)) :
    Spared cfg w₀.disk (manifestPath w₀.disk manifest) s w.disk := by
  obtain ⟨k, m, s₁, d₁, text, hm, hk, h, hend⟩ := gives_processManifest hproper hrel hrun
  refine ⟨?_, ?_, ?_, ?_⟩
  · intro p c hc hp hnone
    exact vanished_of_concludes h hm hend hp hc hnone
  · intro p c hc hp hnot
    rcases content_of_concludes h hm hend hp with hsame | ⟨hnone, -⟩
    · right
      rw [hsame, h.frame p, hc]
      intro path hmem hl
      exact absurd hl (hnot path (hend.processed_eq ▸ hmem))
    · exact .inl hnone
  · intro path hmem p c hl hp hc
    obtain ⟨src, r, hres, -, rfl⟩ := processed_of_concludes h hm hend hp hmem hl hc
    refine ⟨src, r, hres, ?_⟩
    by_cases ha : r.altered = true
    · exact .inr ⟨ha, by simp [Resolved.final, ha]⟩
    · exact .inl (by simp [Resolved.final, ha])
  · intro path hmem p src f hl hp hread hout
    exact refused_of_concludes h hm hend hp hk hmem hl hread hout

def withoutX : ProjectConfig :=
  ⟨ProjectConfig.defaultSettings, [⟨"X", none, false⟩], ProjectConfig.defaultExtensions⟩

def worldOf (files : List (Place × String)) : World :=
  { disk := { cwd := ["w"], dirs := [["w"], ["w", "p"]],
              files := files.map fun (place, text) => ("w" :: place, .text text) } }

def threeFiles : World :=
  worldOf [(["p", "progs.src"], "out\n../main.qc\n../gone.qc\n"),
    (["main.qc"], "#include \"a.h\"\n#ifdef X\nx\n#endif\n"), (["a.h"], "a\n"), (["gone.qc"], "// c\n")]

theorem eq_mk_of_fst {α β : Type} {x : α × β} {a : α} (h : x.1 = a) : x = (a, x.2) := by
  rw [← h]

def threeFilesSession : Session :=
  ⟨⟨["/w/main.qc", "/w/a.h", "/w/gone.qc"], ["/w/gone.qc"], []⟩, ["/w/main.qc", "/w/a.h"]⟩

theorem runProject_threeFiles :
    (runProject withoutX "p/progs.src" threeFiles).1 = (.ok (), threeFilesSession) := by
  decide +kernel

theorem runProject_spares_threeFiles :
    threeFiles.disk.Proper ∧ RelativeNames withoutX threeFiles.disk "p/progs.src" ∧
    (runProject withoutX "p/progs.src" threeFiles).1 = (.ok (), threeFilesSession) ∧
    Spared withoutX threeFiles.disk (manifestPath threeFiles.disk "p/progs.src") threeFilesSession
      (runProject withoutX "p/progs.src" threeFiles).2.disk := by
  have hproper : threeFiles.disk.Proper := by decide +kernel
  have hrel : RelativeNames withoutX threeFiles.disk "p/progs.src" :=
    relativeNames_of_checks (by decide +kernel) (by decide +kernel)
  exact ⟨hproper, hrel, runProject_threeFiles,
    runProject_spares hproper hrel (eq_mk_of_fst runProject_threeFiles)⟩

/-! ## A manifest that lists itself -/

def listedManifest : World := worldOf [(["p", "progs.src"], "out\r\nprogs.src\r\n")]

def refusedManifest : World := worldOf [(["p", "progs.src"], "#else\r\nprogs.src\r\n")]

theorem runProject_listedManifest :
    (runProject withoutX "p/progs.src" listedManifest).1 =
      (.ok (), ⟨⟨["/w/p/progs.src"], [], []⟩, ["/w/p/progs.src"]⟩) := by
  decide +kernel

theorem runProject_refusedManifest :
    (runProject withoutX "p/progs.src" refusedManifest).1 =
      (.ok (), ⟨⟨[], [], ["/w/p/progs.src: Inappropriate #else at line 1"]⟩, ["/w/p/progs.src"]⟩) := by
  decide +kernel

/-- The manifest itself may be processed, or refused, and is written all the same. -/
theorem manifest_not_spared :
    (¬ ∀ cfg manifest s w₀ w, w₀.disk.Proper → RelativeNames cfg w₀.disk manifest →
      runProject cfg manifest w₀ = ((.ok (), s), w) → KeepsProcessed cfg w₀.disk (fun _ => True) s w.disk) ∧
    ¬ ∀ cfg manifest s w₀ w, w₀.disk.Proper → RelativeNames cfg w₀.disk manifest →
      runProject cfg manifest w₀ = ((.ok (), s), w) → KeepsRefused cfg w₀.disk (fun _ => True) s w.disk := by
  constructor
  · intro hall
    have hkeeps := hall withoutX "p/progs.src" _ listedManifest _ (by decide +kernel)
      (relativeNames_of_checks (by decide +kernel) (by decide +kernel)) (eq_mk_of_fst runProject_listedManifest)
    have hcontent : (runProject withoutX "p/progs.src" listedManifest).2.disk.contentAt? ["w", "p", "progs.src"] =
        some (.text "out\nprogs.src\n") := by
      decide +kernel
    have hread : listedManifest.disk.read "/w/p/progs.src" = .ok (.text "out\r\nprogs.src\r\n") := by
      decide +kernel
    have hout : (withoutX.outcome "out\r\nprogs.src\r\n").toOption.map (·.altered) = some false := by
      decide +kernel
    obtain ⟨src, r, ⟨hread', hout'⟩, hc⟩ := hkeeps "/w/p/progs.src" (by simp) ["w", "p", "progs.src"] _
      (by decide +kernel) trivial hcontent
    obtain rfl : "out\r\nprogs.src\r\n" = src := by simpa [hread] using hread'
    rw [hout'] at hout
    rcases hc with hc | ⟨haltered, -⟩
    · simp at hc
    · simp [Except.toOption, haltered] at hout
  · intro hall
    have hkeeps := hall withoutX "p/progs.src" _ refusedManifest _ (by decide +kernel)
      (relativeNames_of_checks (by decide +kernel) (by decide +kernel)) (eq_mk_of_fst runProject_refusedManifest)
    have hcontent : (runProject withoutX "p/progs.src" refusedManifest).2.disk.contentAt? ["w", "p", "progs.src"] =
        some (.text "#else\nprogs.src\n") := by
      decide +kernel
    have hout : (withoutX.outcome "#else\r\nprogs.src\r\n").isOk = false := by decide +kernel
    cases hf : withoutX.outcome "#else\r\nprogs.src\r\n" with
    | ok r => simp [hf, Except.isOk, Except.toBool] at hout
    | error f =>
      obtain ⟨-, hc⟩ := hkeeps "/w/p/progs.src" (by simp) ["w", "p", "progs.src"] _ f (by decide +kernel) trivial
        (by decide +kernel) hf
      rw [hcontent] at hc
      simp at hc

end CondResolve
