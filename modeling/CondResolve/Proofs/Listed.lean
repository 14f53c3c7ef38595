import CondResolve.Proofs.Project

/-!
# What a rewritten manifest lists

The entry of a file that comes out vacant is dropped when the entry is what leads to the file first. If an include
does, the file is deleted all the same and stays needed, and then its entry is kept. `runProject_lists` says that
there is no other way for a run without errors to leave an entry of a file that is not there.
-/

namespace CondResolve

open CondResolve.Path SessionM

/-! ## The lines of a rewritten manifest -/

theorem unifyNewlines_cons {c : Char} {cs : Chars} (hc : c ≠ '\r') :
    unifyNewlines (c :: cs) = c :: unifyNewlines cs := by
  rw [unifyNewlines]
  · rw [if_neg hc]
  · rintro cs' rfl
    exact absurd rfl hc

theorem unifyNewlines_of_not_mem {cs : Chars} (h : '\r' ∉ cs) : unifyNewlines cs = cs := by
  induction cs with
  | nil => rfl
  | cons c cs ih =>
    simp only [List.mem_cons, not_or] at h
    rw [unifyNewlines_cons (Ne.symm h.1), ih h.2]

theorem not_mem_unifyNewlines (cs : Chars) : '\r' ∉ unifyNewlines cs := by
  fun_induction unifyNewlines cs with
  | case1 cs ih => simpa using ih
  | case2 c cs _ ih =>
    split
    · simpa using ih
    · rename_i hc
      simp [ih, Ne.symm hc]
  | case3 => simp

/-- Neither kind of line break is left in a line. -/
theorem not_mem_line {cs line : Chars} (h : line ∈ splitOn '\n' (unifyNewlines cs)) :
    '\n' ∉ line ∧ '\r' ∉ line := by
  refine ⟨not_mem_of_mem_splitOn h, fun hmem => not_mem_unifyNewlines cs ?_⟩
  rw [← joinWith_splitOn '\n' (unifyNewlines cs), mem_joinWith (by decide)]
  exact ⟨line, h, hmem⟩

theorem manifestEntries_rewritten {cs : Chars} {kept : List Chars}
    (h : ∀ line ∈ kept, line ∈ splitOn '\n' (unifyNewlines cs)) :
    manifestEntries (rewritten (splitOn '\n' (unifyNewlines cs)) kept) = kept.map String.ofList := by
  obtain ⟨first, rest, hlines⟩ := List.exists_cons_of_ne_nil (splitOn_ne_nil '\n' (unifyNewlines cs))
  have hall : ∀ line ∈ first :: kept, '\n' ∉ line ∧ '\r' ∉ line := by
    intro line hmem
    rcases List.mem_cons.1 hmem with rfl | hmem
    · have hmem : line ∈ splitOn '\n' (unifyNewlines cs) := hlines ▸ List.mem_cons_self ..
      exact not_mem_line hmem
    · exact not_mem_line (h line hmem)
  have hunified : unifyNewlines (joinWith '\n' (first :: kept)) = joinWith '\n' (first :: kept) := by
    apply unifyNewlines_of_not_mem
    rw [mem_joinWith (by decide)]
    rintro ⟨line, hmem, hc⟩
    exact (hall line hmem).2 hc
  rw [manifestEntries, rewritten, hlines, String.toList_ofList, List.take_succ_cons, List.take_zero,
    List.cons_append, List.nil_append, hunified, splitOn_joinWith (by simp) fun line hmem => (hall line hmem).1]
  rfl

/-! ## What leads to a needed file -/

section
variable (cfg : ProjectConfig) (d₀ : Disk)

def Led (report : Report) (path : String) : Prop :=
  ∃ file ∈ report.processed, ∃ src r, Resolves cfg d₀ file src r ∧ r.vacant = false ∧ path ∈ r.leadsTo file

/-- A path is led to or does not come out vacant, unless something failed. -/
def Backed (report : Report) (path : String) : Prop :=
  Led cfg d₀ report path ∨ report.errors ≠ [] ∨ ∀ src r, Resolves cfg d₀ path src r → r.vacant = false

def Accounted (s : Session) : Prop := ∀ t ∈ s.includes, Backed cfg d₀ s.report t

end

section
variable {cfg : ProjectConfig} {d₀ : Disk} {k : Nat} {active : List String} {s s' : Session} {path src : String}
  {r : Resolved} {w w' : World} {report report' : Report}

theorem Resolves.unique {src' : String} {r' : Resolved} (h : Resolves cfg d₀ path src r)
    (h' : Resolves cfg d₀ path src' r') : r = r' := by
  obtain ⟨hread, hout⟩ := h
  obtain ⟨hread', hout'⟩ := h'
  simp_all

theorem Led.mono (h : Led cfg d₀ report path) (hp : ∀ t ∈ report.processed, t ∈ report'.processed) :
    Led cfg d₀ report' path := by
  obtain ⟨file, hmem, hfile⟩ := h
  exact ⟨file, hp file hmem, hfile⟩

theorem Backed.mono (h : Backed cfg d₀ report path) (hp : ∀ t ∈ report.processed, t ∈ report'.processed)
    (he : report'.errors = [] → report.errors = []) : Backed cfg d₀ report' path := by
  rcases h with hled | herr | hsolid
  · exact .inl (hled.mono hp)
  · exact .inr (.inl fun hnil => herr (he hnil))
  · exact .inr (.inr hsolid)

theorem Resolves.backed (h : Resolves cfg d₀ path src r) (hv : r.vacant = false) : Backed cfg d₀ report path :=
  .inr (.inr fun _ _ h' => h.unique h' ▸ hv)

theorem backed_failed (s : Session) (target error : String) : Backed cfg d₀ (s.failed target error).report path :=
  .inr (.inl (by simp [Session.failed]))

/-- What is to be shown of files that are processed through at most `depth` includes: of the needed paths, only that
of the file itself may not be backed, and only if the file is removed. -/
def Backs (cfg : ProjectConfig) (d₀ : Disk) (k depth : Nat) : Prop :=
  ∀ {active s path name b s'} {w w' : World}, Progress cfg d₀ k active s w.disk → Rooted k path →
    path ∉ s.includes → Accounted cfg d₀ s → Gives (processFile cfg depth path name) (s.needed path) w b s' w' →
    ∀ t ∈ s'.includes, Backed cfg d₀ s'.report t ∨ b = false ∧ t = path

variable (hk : k = 1 ∨ k = 2)
  (hrel : ∀ path src r, Resolves cfg d₀ path src r → ∀ name ∈ r.includeNames, isAbsolute name = false)
include hk hrel

theorem backed_follow {depth : Nat} {name : String} (ih : Backs cfg d₀ k depth)
    (h : Progress cfg d₀ k active s w.disk) (hr : Rooted k path) (hb : Accounted cfg d₀ s)
    (hproc : path ∈ s.report.processed) (hres : Resolves cfg d₀ path src r) (hv : r.vacant = false)
    (hname : name ∈ r.includeNames) (hg : Gives (follow cfg depth (directory path) name) s w () s' w') :
    Accounted cfg d₀ s' := by
  have htarget : Rooted k (normal (join (directory path) name)) :=
    (hr.directory (by omega)).normal_join hk (hrel path src r hres name hname)
  cases following_of_gives hg with
  | known => exact hb
  | missing => exact fun t _ => backed_failed ..
  | found fresh process =>
    have hgrow := (handles hk hrel depth h htarget fresh process).grows
    intro t ht
    rcases ih h htarget fresh hb process t ht with hback | ⟨-, heq⟩
    · exact hback
    · -- the file that was removed is led to by the one that includes it
      rw [heq]
      exact .inl ⟨path, hgrow.processed path hproc, src, r, hres, hv, List.mem_map_of_mem hname⟩

theorem backed_follows {depth : Nat} (ih : Backs cfg d₀ k depth) (h : Progress cfg d₀ k active s w.disk)
    (hr : Rooted k path) (hb : Accounted cfg d₀ s) (hproc : path ∈ s.report.processed)
    (hres : Resolves cfg d₀ path src r) (hv : r.vacant = false)
    (hg : Gives (r.includeNames.forM (follow cfg depth (directory path))) s w () s' w') : Accounted cfg d₀ s' := by
  let I : Session → World → Prop := fun s w =>
    Progress cfg d₀ k active s w.disk ∧ path ∈ s.report.processed ∧ Accounted cfg d₀ s
  have hloop : I s' w' := by
    refine gives_forM I ?_ ⟨h, hproc, hb⟩ hg
    intro name hname s w s' w' ⟨h, hproc, hb⟩ hg
    have hdir := hr.directory (by omega)
    obtain ⟨h', hgrow, -⟩ :=
      gives_follow hk (handles hk hrel depth) h hdir (hrel path src r hres name hname) hg
    exact ⟨h', hgrow.processed path hproc, backed_follow hk hrel ih h hr hb hproc hres hv hname hg⟩
  exact hloop.2.2

theorem backs (depth : Nat) : Backs cfg d₀ k depth := by
  induction depth with
  | zero =>
    intro active s path name b s' w w' h hr hp hb hg
    exact absurd hg not_gives_throw
  | succ depth ih =>
    intro active s path name b s' w w' h hr hp hb hg
    cases course_of_gives hg with
    | refused => exact fun t _ => .inl (backed_failed ..)
    | vacant =>
      intro t ht
      have hmem : t ∈ s.includes ++ [path] := ht
      rcases List.mem_append.1 hmem with ht | ht
      · exact .inl ((hb t ht).mono (fun _ => List.mem_append_left _) id)
      · exact .inr ⟨rfl, List.mem_singleton.1 ht⟩
    | kept read resolved solid disk follows store =>
      have hread₀ := h.original hk hr hp read
      have henter := h.enter hr (h.fresh hp read)
      rw [← disk] at henter
      -- While its includes are followed, the file itself is backed by what it resolves to.
      have hback : Accounted cfg d₀ ((s.needed path).processed path) := by
        intro t ht
        have hmem : t ∈ s.includes ++ [path] := ht
        rcases List.mem_append.1 hmem with ht | ht
        · exact (hb t ht).mono (fun _ => List.mem_append_left _) id
        · obtain rfl := List.mem_singleton.1 ht
          exact Resolves.backed ⟨hread₀, resolved⟩ solid
      have hafter :=
        backed_follows hk hrel ih henter hr hback (by simp [Session.processed]) ⟨hread₀, resolved⟩ solid
          follows
      obtain rfl := session_eq_of_store store
      exact fun t ht => .inl (hafter t ht)

theorem backed_process {name : String} {b : Bool} (h : Progress cfg d₀ k active s w.disk) (hr : Rooted k path)
    (hp : path ∉ s.includes) (hb : Accounted cfg d₀ s)
    (hg : Gives (process cfg path name) (s.needed path) w b s' w') :
    ∀ t ∈ s'.includes, Backed cfg d₀ s'.report t ∨ b = false ∧ t = path := by
  obtain ⟨depth, s₁, w₁, hreach, hg⟩ := gives_bind.1 hg
  obtain ⟨rfl, rfl⟩ := gives_reach hreach
  exact backs hk hrel depth h hr hp hb hg

/-! ## Entries that are kept -/

theorem backed_processEntry {base entry : String} {b : Bool} (h : Progress cfg d₀ k active s w.disk)
    (hr : Rooted k (normal (join base entry))) (hb : Accounted cfg d₀ s)
    (hg : Gives (processEntry cfg base entry) s w b s' w') : Accounted cfg d₀ s' := by
  cases entryCourse_of_gives hg with
  | blank => exact hb
  | known => exact hb
  | kept fresh process =>
    intro t ht
    rcases backed_process hk hrel h hr fresh hb process t ht with hback | ⟨hfalse, -⟩
    · exact hback
    · cases hfalse
  | removed fresh process =>
    intro t ht
    obtain ⟨ht, hne⟩ := List.mem_filter.1 ht
    rcases backed_process hk hrel h hr fresh hb process t ht with hback | ⟨-, heq⟩
    · exact hback
    · simp [heq] at hne

/-- A kept entry is blank or needed, and what was needed stays so. -/
theorem needed_processEntry {base entry : String} {b : Bool} (h : Progress cfg d₀ k active s w.disk)
    (hr : Rooted k (normal (join base entry))) (hg : Gives (processEntry cfg base entry) s w b s' w') :
    (∀ t ∈ s.includes, t ∈ s'.includes) ∧
      (b = true → entry.toList.all isWhite = true ∨ normal (join base entry) ∈ s'.includes) := by
  cases entryCourse_of_gives hg with
  | blank blank => exact ⟨fun _ => id, fun _ => .inl blank⟩
  | known needed => exact ⟨fun _ => id, fun _ => .inr needed⟩
  | kept fresh process =>
    have hdone := gives_process hk hrel h hr fresh process
    exact ⟨hdone.grows.includes, fun _ => .inr hdone.needed⟩
  | removed fresh process =>
    obtain ⟨hincludes, -⟩ := (gives_process hk hrel h hr fresh process).forgotten rfl
    rw [hincludes, forget_needed fresh]
    exact ⟨fun _ => id, by simp⟩

end

/-- The state after some entries of a manifest in the directory `base`, of which `kept` stay. -/
structure EntriesDone (cfg : ProjectConfig) (d₀ : Disk) (k : Nat) (base : String) (kept : List Chars) (s : Session)
    (d : Disk) : Prop where
  progress : Progress cfg d₀ k [] s d
  accounted : Accounted cfg d₀ s
  needed : ∀ line ∈ kept, line.all isWhite = true ∨ normal (join base (String.ofList line)) ∈ s.includes

theorem EntriesDone.step {cfg : ProjectConfig} {d₀ : Disk} {k : Nat} {base : String} {kept : List Chars}
    {line : Chars} {s s' : Session} {w w' : World} {b : Bool} (hk : k = 1 ∨ k = 2)
    (hrel : ∀ path src r, Resolves cfg d₀ path src r → ∀ name ∈ r.includeNames, isAbsolute name = false)
    (h : EntriesDone cfg d₀ k base kept s w.disk) (hb : Rooted k base)
    (hline : isAbsolute (String.ofList line) = false)
    (hg : Gives (processEntry cfg base (String.ofList line)) s w b s' w') :
    EntriesDone cfg d₀ k base (if b then line :: kept else kept) s' w'.disk := by
  have hr := hb.normal_join hk hline
  obtain ⟨hgrow, hneeded⟩ := needed_processEntry hk hrel h.progress hr hg
  have haccounted := backed_processEntry hk hrel h.progress hr h.accounted hg
  refine ⟨gives_processEntry hk hrel h.progress hb hline hg, haccounted, ?_⟩
  have hkept : ∀ line ∈ kept, line.all isWhite = true ∨ normal (join base (String.ofList line)) ∈ s'.includes :=
    fun line hmem => (h.needed line hmem).imp_right (hgrow _)
  cases b with
  | false => exact hkept
  | true =>
    intro line' hmem
    rcases List.mem_cons.1 hmem with rfl | hmem
    · simpa using hneeded rfl
    · exact hkept line' hmem

section
variable {cfg : ProjectConfig} {manifest : String} {s : Session} {w₀ w : World}

namespace ManifestRun

variable (run : ManifestRun cfg manifest w₀ s w)

/-- What the manifest holds in the end, if it is there. -/
theorem text_eq {text : String} (hread : w.disk.read (manifestPath w₀.disk manifest) = .ok (.text text)) :
    text = rewritten (splitOn '\n' (unifyNewlines run.src.toList)) run.kept := by
  obtain ⟨q, hl, -, hc⟩ := Disk.read_eq_ok_iff.1 hread
  have hl₁ := (Disk.widens_put ..).locate (run.concludes.widens.locate hl)
  obtain rfl := Except.ok.inj (run.locate_eq.symm.trans (run.progress.locate_iff.1 hl₁))
  rcases run.concludes.content run.place with hsame | ⟨hnone, -⟩
  · rw [hc, Disk.contentAt?_put, if_pos rfl] at hsame
    simpa using hsame
  · rw [hc] at hnone
    cases hnone

/-- A needed file that there is when the manifest was written is there in the end. -/
theorem isFile_of_content {path src : String} {r : Resolved} {p : Place}
    (hmem : path ∈ run.session.includes) (hres : Resolves cfg w₀.disk path src r) (hl : w₀.disk.locate path = .ok p)
    (hc : p = run.place ∨ run.world.disk.contentAt? p ≠ none) : w.disk.isFile path = true := by
  obtain ⟨q, hq, hd, -⟩ := Disk.read_eq_ok_iff.1 hres.1
  obtain rfl := Except.ok.inj (hl.symm.trans hq)
  rw [← run.progress.isDirAt_eq] at hd
  have hput (content : Content) : (run.world.disk.put run.place content).contentAt? p ≠ none := by
    rw [Disk.contentAt?_put]
    split
    · simp
    · exact hc.resolve_left ‹_›
  obtain ⟨c, hc⟩ := Option.ne_none_iff_exists'.1 (hput _)
  have hread := Disk.read_put (run.progress.locate_iff.2 hl) hd hc
  exact Disk.isFile_of_read (run.concludes.read hmem (run.progress.rooted path (.inl hmem)) hread)

variable (hrel : RelativeNames cfg w₀.disk manifest)
include hrel

theorem entriesDone :
    EntriesDone cfg w₀.disk run.k (directory (manifestPath w₀.disk manifest)) run.kept run.session run.world.disk ∧
      ∀ line ∈ run.kept, line ∈ splitOn '\n' (unifyNewlines run.src.toList) := by
  have hk := run.slashes
  have hb := run.rooted_path.directory (by omega)
  let J : List Chars → Session → World → Prop := fun kept s w =>
    EntriesDone cfg w₀.disk run.k (directory (manifestPath w₀.disk manifest)) kept s w.disk ∧
      ∀ line ∈ kept, line ∈ splitOn '\n' (unifyNewlines run.src.toList)
  have hloop : J run.kept.reverse run.session run.world := by
    refine gives_filterM_kept J ?_ ⟨⟨.start, by simp [Accounted], by simp⟩, by simp⟩ run.entries
    intro line hline kept s w b s' w' ⟨h, hsub⟩ hg
    have hentry : String.ofList line ∈ manifestEntries run.src := List.mem_map_of_mem hline
    refine ⟨h.step hk hrel.includes hb (hrel.entries _ run.read_eq _ hentry) hg, ?_⟩
    cases b with
    | false => exact hsub
    | true => simpa using ⟨List.mem_of_mem_drop hline, hsub⟩
  obtain ⟨hdone, hsub⟩ := hloop
  refine ⟨⟨hdone.progress, hdone.accounted, fun line hmem => hdone.needed line (List.mem_reverse.2 hmem)⟩, ?_⟩
  exact fun line hmem => hsub line (List.mem_reverse.2 hmem)

theorem lists (herr : s.report.errors = []) {line : Chars} (hmem : line ∈ run.kept)
    (hblank : line.all isWhite = false) :
    let path := normal (join (directory (manifestPath w₀.disk manifest)) (String.ofList line))
    w.disk.isFile path = true ∨
      path ∈ s.report.removed ∧ (∃ src r, Resolves cfg w₀.disk path src r ∧ r.vacant = true) ∧
        Led cfg w₀.disk s.report path := by
  intro path
  have hdone := (run.entriesDone hrel).1
  have hneed : path ∈ run.session.includes := (hdone.needed line hmem).resolve_left (by simp [hblank])
  rw [run.concludes.errors_eq] at herr
  have hproc : path ∈ run.session.report.processed := by
    refine (run.progress.answered path hneed (by simp)).resolve_right ?_
    rintro ⟨error, hreported, -⟩
    simp [herr] at hreported
  cases run.progress.finished path hproc (by simp) with
  | kept origin place needed leads content =>
    exact .inl (run.isFile_of_content hneed origin place (.inr (by simp [content])))
  | @gone src p r origin place vacant removed absent =>
    by_cases hp : p = run.place
    · -- the manifest itself, which is written again
      exact .inl (run.isFile_of_content hneed origin place (.inl hp))
    · right
      refine ⟨run.concludes.removed removed, ⟨src, r, origin, vacant⟩, ?_⟩
      have hled : Led cfg w₀.disk run.session.report path := by
        rcases hdone.accounted path hneed with hled | hfailed | hsolid
        · exact hled
        · exact absurd herr hfailed
        · rw [hsolid src r origin] at vacant
          cases vacant
      exact hled.mono fun t ht => run.concludes.processed_eq ▸ ht

end ManifestRun

end

/-- In a run without errors, a line of the manifest that names a file that is not there names one that came out
vacant and that another file includes. -/
theorem runProject_lists {cfg : ProjectConfig} {manifest text entry : String} {s : Session} {w₀ w : World}
    (hproper : w₀.disk.Proper) (hrel : RelativeNames cfg w₀.disk manifest)
    (hrun : runProject cfg manifest w₀ = ((.ok (), s), w)) (herr : s.report.errors = [])
    (hread : w.disk.read (manifestPath w₀.disk manifest) = .ok (.text text)) (hmem : entry ∈ manifestEntries text)
    (hblank : entry.toList.all isWhite = false) :
    let path := normal (join (directory (manifestPath w₀.disk manifest)) entry)
    w.disk.isFile path = true ∨
      path ∈ s.report.removed ∧ (∃ src r, Resolves cfg w₀.disk path src r ∧ r.vacant = true) ∧
        Led cfg w₀.disk s.report path := by
  obtain ⟨run⟩ := nonempty_manifestRun hproper hrel hrun
  have hkept := (run.entriesDone hrel).2
  rw [run.text_eq hread, manifestEntries_rewritten hkept] at hmem
  obtain ⟨line, hline, rfl⟩ := List.mem_map.1 hmem
  exact run.lists hrel herr hline (by simpa using hblank)

def includedVacant : World :=
  worldOf [(["p", "progs.src"], "out\n../main.qc\n../opt.qc\n"), (["main.qc"], "#include \"opt.qc\"\nx\n"),
    (["opt.qc"], "#ifdef X\ny\n#endif\n")]

def includedVacantSession : Session :=
  ⟨⟨["/w/main.qc", "/w/opt.qc"], ["/w/opt.qc"], []⟩, ["/w/main.qc", "/w/opt.qc"]⟩

theorem runProject_includedVacant :
    (runProject withoutX "p/progs.src" includedVacant).1 = (.ok (), includedVacantSession) := by
  decide +kernel

theorem runProject_lists_includedVacant :
    includedVacant.disk.Proper ∧ RelativeNames withoutX includedVacant.disk "p/progs.src" ∧
      (runProject withoutX "p/progs.src" includedVacant).1 = (.ok (), includedVacantSession) ∧
      (runProject withoutX "p/progs.src" includedVacant).2.disk.read
        (manifestPath includedVacant.disk "p/progs.src") = .ok (.text "out\n../main.qc\n../opt.qc\n") ∧
      "../opt.qc" ∈ manifestEntries "out\n../main.qc\n../opt.qc\n" ∧
      (runProject withoutX "p/progs.src" includedVacant).2.disk.isFile "/w/opt.qc" = false ∧
      Led withoutX includedVacant.disk includedVacantSession.report "/w/opt.qc" := by
  have hproper : includedVacant.disk.Proper := by decide +kernel
  have hrel : RelativeNames withoutX includedVacant.disk "p/progs.src" :=
    relativeNames_of_checks (by decide +kernel) (by decide +kernel)
  have hread : (runProject withoutX "p/progs.src" includedVacant).2.disk.read
      (manifestPath includedVacant.disk "p/progs.src") = .ok (.text "out\n../main.qc\n../opt.qc\n") := by
    decide +kernel
  have hmem : "../opt.qc" ∈ manifestEntries "out\n../main.qc\n../opt.qc\n" := by decide +kernel
  have hgone : (runProject withoutX "p/progs.src" includedVacant).2.disk.isFile "/w/opt.qc" = false := by
    decide +kernel
  have hpath : normal (join (directory (manifestPath includedVacant.disk "p/progs.src")) "../opt.qc") =
      "/w/opt.qc" := by
    decide +kernel
  have hlists := runProject_lists hproper hrel (eq_mk_of_fst runProject_includedVacant) rfl hread hmem
    (by decide +kernel)
  simp only [hpath, hgone] at hlists
  exact ⟨hproper, hrel, runProject_includedVacant, hread, hmem, hgone, (hlists.resolve_left (by simp)).2.2⟩

end CondResolve
