import CondResolve.Proofs.Session

/-!
# Pruning a directory

Pruning walks through a directory and below it, but not into directories whose name starts with a dot. It deletes
tracked files that are not needed, and nothing else that holds text. `Pruned` relates the state in which pruning
starts to any state on the way.
-/

namespace CondResolve

open CondResolve.Path SessionM

def hidden (name : String) : Prop := name.toList.head? = some '.'

def Tracked (cfg : ProjectConfig) (base q : Place) : Prop :=
  ∃ dirs name, q = base ++ dirs ++ [name] ∧ (∀ x ∈ dirs, ¬ hidden x) ∧ extension name ∈ cfg.extensions

structure Pruned (cfg : ProjectConfig) (k : Nat) (base : Place) (s₁ : Session) (d₁ : Disk) (s : Session)
    (d : Disk) :
    Prop where
  includes_eq : s.includes = s₁.includes
  processed_eq : s.report.processed = s₁.report.processed
  errors_eq : s.report.errors = s₁.report.errors
  removed : ∀ path ∈ s₁.report.removed, path ∈ s.report.removed
  needed : ∀ path ∈ s₁.includes, Rooted k path → ∀ c, d₁.read path = .ok c → d.read path = .ok c
  widens : d.Widens d₁
  proper : d.Proper
  content : ∀ q, d.contentAt? q = d₁.contentAt? q ∨
    d.contentAt? q = none ∧ ∃ path ∈ s.report.removed,
      path ∉ s₁.includes ∧ Rooted k path ∧ d₁.locate path = .ok q ∧ Tracked cfg base q

section
variable {cfg : ProjectConfig} {base : Place} {s₁ s s' : Session} {d₁ d : Disk} {w w' : World} {path name : String}
  {p : Place} {u : Unit} {k : Nat}

namespace Pruned

theorem refl (h : d.Proper) : Pruned cfg k base s d s d :=
  ⟨rfl, rfl, rfl, fun _ => id, fun _ _ _ _ => id, .refl d, h, fun _ => .inl rfl⟩

theorem remove (hk : k = 1 ∨ k = 2) (h : Pruned cfg k base s₁ d₁ s d) (hp : path ∉ s.includes)
    (hl : d.locate path = .ok p) (hr : Rooted k path) (ht : Tracked cfg base p) :
    Pruned cfg k base s₁ d₁ (s.removed path) (d.without p) where
  includes_eq := h.includes_eq
  processed_eq := h.processed_eq
  errors_eq := h.errors_eq
  removed := fun t ht => List.mem_append_left _ (h.removed t ht)
  needed := by
    intro path' hmem hr' c hread
    refine Disk.read_without (fun hl' => ?_) (h.needed path' hmem hr' c hread)
    rw [h.includes_eq, ← Disk.eq_of_locate_of_locate hk hr' hr hl' hl] at hp
    exact hp hmem
  widens := ⟨h.widens.cwd_eq, h.widens.isDirAt_mono⟩
  proper := by
    refine ⟨fun q hq => h.proper.files q ?_, h.proper.dirs⟩
    rw [Disk.isFileAt, Disk.contentAt?_without] at hq
    split at hq
    · cases hq
    · exact hq
  content := by
    intro q
    by_cases hq : q = p
    · subst hq
      right
      rw [Disk.contentAt?_without, if_pos rfl]
      exact ⟨rfl, path, by simp [Session.removed], h.includes_eq ▸ hp, hr, h.widens.locate hl, ht⟩
    · rw [Disk.contentAt?_without, if_neg hq]
      apply (h.content q).imp_right
      rintro ⟨hnone, path', hmem, hrest⟩
      exact ⟨hnone, path', List.mem_append_left _ hmem, hrest⟩

theorem removeDir (h : Pruned cfg k base s₁ d₁ s d) (hempty : d.namesAt p = []) :
    Pruned cfg k base s₁ d₁ s (d.withoutDir p) where
  includes_eq := h.includes_eq
  processed_eq := h.processed_eq
  errors_eq := h.errors_eq
  removed := h.removed
  needed := fun path' hmem hr c hread => Disk.read_withoutDir hr hempty (h.needed path' hmem hr c hread)
  widens := (Disk.widens_withoutDir d p).trans h.widens
  proper := ⟨h.proper.files, fun q hq => h.proper.dirs q (List.mem_filter.1 hq).1⟩
  content := h.content

end Pruned

def pruneName (cfg : ProjectConfig) (depth : Nat) (dir name : String) : SessionM (StateM World) Unit := do
  let path := normal (join dir name)
  if ← host (Host.isDir path) then
    unless name.toList.head? = some '.' do pruneDir cfg depth path
  else if cfg.extensions.contains (extension name) then
    unless (← session).includes.contains path do
      info ("Removing unreferenced " ++ path)
      remove path

theorem pruneDir_succ (depth : Nat) (dir : String) :
    pruneDir cfg (depth + 1) dir = (do
      let names ← must dir (Host.listDir dir)
      (names.mergeSort fun a b => decide (a ≤ b)).forM (pruneName cfg depth dir)
      if (← must dir (Host.listDir dir)).isEmpty then must dir (Host.removeDir dir) :
        SessionM (StateM World) Unit) := by
  rfl

def Prunes (cfg : ProjectConfig) (base : Place) (k depth : Nat) : Prop :=
  ∀ {s₁ s s' d₁ dirs} {w w' : World} {u : Unit}, Pruned cfg k base s₁ d₁ s w.disk → ProperNames (base ++ dirs) →
    (∀ x ∈ dirs, ¬ hidden x) → Gives (pruneDir cfg depth (rooted k (base ++ dirs))) s w u s' w' →
    Pruned cfg k base s₁ d₁ s' w'.disk

variable (hk : k = 1 ∨ k = 2)
include hk

theorem gives_pruneName {depth : Nat} {dirs : List String} (ih : Prunes cfg base k depth)
    (h : Pruned cfg k base s₁ d₁ s w.disk) (hp : ProperNames (base ++ dirs)) (hd : ∀ x ∈ dirs, ¬ hidden x)
    (hn : ProperName name) (hg : Gives (pruneName cfg depth (rooted k (base ++ dirs)) name) s w u s' w') :
    Pruned cfg k base s₁ d₁ s' w'.disk := by
  unfold pruneName at hg
  rw [normal_join_proper hk hp hn] at hg
  obtain ⟨found, s₂, w₂, hdir, hg⟩ := gives_bind.1 hg
  obtain ⟨-, rfl, rfl⟩ := gives_isDir hdir
  cases found with
  | true =>
    simp only [if_true] at hg
    by_cases hdot : name.toList.head? = some '.'
    · rw [if_pos hdot] at hg
      obtain ⟨-, rfl, rfl⟩ := gives_pure.1 hg
      exact h
    · rw [if_neg hdot] at hg
      have hdirs : ∀ x ∈ dirs ++ [name], ¬ hidden x :=
        List.forall_mem_append.2 ⟨hd, List.forall_mem_singleton.2 hdot⟩
      rw [List.append_assoc] at hg
      have hproper := hp.append_singleton hn
      rw [List.append_assoc] at hproper
      exact ih h hproper hdirs hg
  | false =>
    simp only [Bool.false_eq_true, if_false] at hg
    by_cases hext : cfg.extensions.contains (extension name) = true
    · rw [if_pos hext] at hg
      obtain ⟨t, s₂, w₂, hsession, hg⟩ := gives_bind.1 hg
      obtain ⟨rfl, rfl, rfl⟩ := gives_session.1 hsession
      by_cases hneed : s.includes.contains (rooted k (base ++ dirs ++ [name])) = true
      · rw [if_pos hneed] at hg
        obtain ⟨-, rfl, rfl⟩ := gives_pure.1 hg
        exact h
      · rw [if_neg hneed] at hg
        obtain ⟨_, s₂, w₂, hinfo, hg⟩ := gives_bind.1 hg
        obtain ⟨rfl, hdisk⟩ := gives_log hinfo
        obtain ⟨p, hl, hgone, rfl⟩ := gives_remove hg
        -- Only an unneeded file with a tracked extension is removed.
        obtain rfl := Disk.eq_of_locate hk (hp.append_singleton hn) hl
        rw [hgone]
        rw [← hdisk] at h
        apply h.remove hk (by simpa using hneed) hl ⟨_, hp.append_singleton hn, rfl⟩
        exact ⟨dirs, name, rfl, hd, List.contains_iff_mem.1 hext⟩
    · rw [if_neg hext] at hg
      obtain ⟨-, rfl, rfl⟩ := gives_pure.1 hg
      exact h

theorem prunes (depth : Nat) : Prunes cfg base k depth := by
  induction depth with
  | zero =>
    intro s₁ s s' d₁ dirs w w' u h hp hd hg
    exact absurd hg not_gives_throw
  | succ depth ih =>
    intro s₁ s s' d₁ dirs w w' u h hp hd hg
    rw [pruneDir_succ] at hg
    obtain ⟨names, s₂, w₂, hlist, hg⟩ := gives_bind.1 hg
    obtain ⟨rfl, rfl, hnames⟩ := gives_listDir hlist
    obtain ⟨_, s₃, w₃, hloop, hg⟩ := gives_bind.1 hg
    have hloop' : Pruned cfg k base s₁ d₁ s₃ w₃.disk := by
      refine gives_forM (fun s w => Pruned cfg k base s₁ d₁ s w.disk) ?_ h hloop
      intro name hname s w s' w' h' hg'
      obtain ⟨q, -, -, rfl⟩ := Disk.list_eq_ok hnames
      have hn := h.proper.name (List.mem_mergeSort.1 hname)
      exact gives_pruneName hk ih h' hp hd hn hg'
    obtain ⟨rest, s₄, w₄, hlist', hg⟩ := gives_bind.1 hg
    obtain ⟨rfl, rfl, -⟩ := gives_listDir hlist'
    by_cases hempty : rest.isEmpty = true
    · rw [if_pos hempty] at hg
      obtain ⟨rfl, hremove⟩ := gives_must.1 hg
      obtain ⟨q, hnone, hq⟩ := Disk.removeDir_eq_ok (change_eq_ok hremove)
      rw [hq]
      exact hloop'.removeDir hnone
    · rw [if_neg hempty] at hg
      obtain ⟨-, rfl, rfl⟩ := gives_pure.1 hg
      exact hloop'

omit hk in
theorem locate_of_pruneDir {depth : Nat} {dir : String} (hg : Gives (pruneDir cfg depth dir) s w u s' w') :
    ∃ p, w.disk.locate dir = .ok p := by
  cases depth with
  | zero => exact absurd hg not_gives_throw
  | succ depth =>
    rw [pruneDir_succ] at hg
    obtain ⟨names, s₂, w₂, hlist, -⟩ := gives_bind.1 hg
    obtain ⟨-, -, hnames⟩ := gives_listDir hlist
    obtain ⟨p, hl, -⟩ := Disk.list_eq_ok hnames
    exact ⟨p, hl⟩

end

end CondResolve
