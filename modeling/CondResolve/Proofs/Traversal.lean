import Mathlib.Data.Finset.Card
import CondResolve.Proofs.Project

/-!
# The traversal comes to its end

Every include that is followed makes one more path needed, and the file that it leads to was there at first and has
not been met. So chains of includes are no longer than there are files, whatever includes what. Directories are
pruned along a chain of ever deeper places. `runProject_ends` says that a run never goes deeper than it may, and
that it processes no path twice.
-/

namespace CondResolve

open CondResolve.Path SessionM

namespace SessionM

/-! ## Sessions that stay within their depth -/

/-- The session is not given up for going too deep. -/
def Bounded {α : Type} (x : SessionM (StateM World) α) (s : Session) (w : World) : Prop :=
  (x.runFrom s w).1.1 ≠ .error .endless

def Shallow {α : Type} (x : SessionM (StateM World) α) : Prop := ∀ s w, Bounded x s w

section
variable {α β : Type} {s : Session} {w : World} {path text : String} {x : SessionM (StateM World) α}
  {f : α → SessionM (StateM World) β}

theorem bounded_bind (hx : Bounded x s w) (hf : ∀ a s' w', Gives x s w a s' w' → Bounded (f a) s' w') :
    Bounded (x >>= f) s w := by
  unfold Bounded at hx ⊢
  rw [runFrom_bind]
  split
  · rename_i a s' w' hrun
    exact hf a s' w' hrun
  · rename_i e s' w' hrun
    rw [hrun] at hx
    simpa using hx

theorem Shallow.bind (hx : Shallow x) (hf : ∀ a, Shallow (f a)) : Shallow (x >>= f) :=
  fun s w => bounded_bind (hx s w) fun a s' w' _ => hf a s' w'

theorem shallow_pure (a : α) : Shallow (pure a) := fun _ _ => nofun

theorem shallow_throw {e : Crash} (he : e ≠ .endless) : Shallow (throw e : SessionM (StateM World) α) := by
  intro s w h
  exact he (Except.error.inj h)

theorem shallow_host (x : StateM World α) : Shallow (host x) := fun _ _ => nofun

theorem shallow_change (f : Session → Session) : Shallow (change f : SessionM (StateM World) Unit) :=
  fun _ _ => nofun

theorem shallow_session : Shallow (session : SessionM (StateM World) Session) := fun _ _ => nofun

theorem shallow_must (x : StateM World (Except FileError α)) : Shallow (must path x) := by
  refine (shallow_host x).bind fun r => ?_
  cases r with
  | ok a => exact shallow_pure a
  | error e => exact shallow_throw nofun

theorem shallow_textOf (content : Content) : Shallow (textOf content : SessionM (StateM World) Chars) := by
  cases content with
  | text src => exact shallow_pure _
  | binary bytes => exact shallow_throw nofun

theorem shallow_fail (error : String) : Shallow (fail path error : SessionM (StateM World) Unit) :=
  (shallow_host _).bind fun _ => shallow_change _

theorem shallow_remove : Shallow (remove path : SessionM (StateM World) Unit) :=
  (shallow_must _).bind fun _ => shallow_change _

variable (I : Session → World → Prop)

theorem bounded_forM {l : List α} {f : α → SessionM (StateM World) Unit}
    (hbound : ∀ x ∈ l, ∀ {s w}, I s w → Bounded (f x) s w)
    (hstep : ∀ x ∈ l, ∀ {s w s' w'}, I s w → Gives (f x) s w () s' w' → I s' w') (hi : I s w) :
    Bounded (l.forM f) s w := by
  induction l generalizing s w with
  | nil => exact shallow_pure _ s w
  | cons x l ih =>
    refine bounded_bind (hbound x List.mem_cons_self hi) fun u s' w' hg => ?_
    exact ih (fun y hy => hbound y (List.mem_cons_of_mem _ hy)) (fun y hy => hstep y (List.mem_cons_of_mem _ hy))
      (hstep x List.mem_cons_self hi hg)

theorem bounded_filterM {l : List α} {f : α → SessionM (StateM World) Bool}
    (hbound : ∀ x ∈ l, ∀ {s w}, I s w → Bounded (f x) s w)
    (hstep : ∀ x ∈ l, ∀ {s w b s' w'}, I s w → Gives (f x) s w b s' w' → I s' w') (hi : I s w) :
    Bounded (l.filterM f) s w := by
  have haux : ∀ acc {s w}, I s w → Bounded (l.filterAuxM f acc) s w := by
    clear hi
    induction l with
    | nil => exact fun acc s w _ => shallow_pure acc s w
    | cons x l ih =>
      intro acc s w hi
      refine bounded_bind (hbound x List.mem_cons_self hi) fun b s' w' hg => ?_
      exact ih (fun y hy => hbound y (List.mem_cons_of_mem _ hy))
        (fun y hy => hstep y (List.mem_cons_of_mem _ hy)) _
        (hstep x List.mem_cons_self hi hg)
  exact bounded_bind (haux [] hi) fun acc s' w' _ => shallow_pure acc.reverse s' w'

/-- Where `x` does not go too deep, `y` does the same. -/
def Covers (x y : SessionM (StateM World) α) : Prop := ∀ s w, Bounded x s w → y.runFrom s w = x.runFrom s w

theorem Covers.refl (x : SessionM (StateM World) α) : Covers x x := fun _ _ _ => rfl

theorem Covers.trans {y z : SessionM (StateM World) α} (hxy : Covers x y) (hyz : Covers y z) : Covers x z := by
  intro s w hx
  have hy := hxy s w hx
  have hbound : Bounded y s w := by
    unfold Bounded
    rw [hy]
    exact hx
  exact (hyz s w hbound).trans hy

theorem covers_endless (y : SessionM (StateM World) α) : Covers (throw .endless) y := fun _ _ h => absurd rfl h

theorem Covers.bind {y : SessionM (StateM World) α} {g : α → SessionM (StateM World) β} (hx : Covers x y)
    (hf : ∀ a, Covers (f a) (g a)) : Covers (x >>= f) (y >>= g) := by
  intro s w h
  have hbound : Bounded x s w := by
    intro he
    apply h
    rw [runFrom_bind]
    split
    · simp_all
    · simp_all
  unfold Bounded at h
  rw [runFrom_bind] at h
  rw [runFrom_bind, runFrom_bind, hx s w hbound]
  split
  · rename_i a s' w' hrun
    rw [hrun] at h
    exact hf a s' w' h
  · rfl

theorem covers_forM {l : List α} {f g : α → SessionM (StateM World) Unit} (h : ∀ a, Covers (f a) (g a)) :
    Covers (l.forM f) (l.forM g) := by
  induction l with
  | nil => exact .refl _
  | cons a l ih => exact (h a).bind fun _ => ih

end

end SessionM

/-! ## Files that were not met -/

section
variable {cfg : ProjectConfig} {d₀ d : Disk} {k : Nat} {active : List String} {s s' : Session} {w w' : World}
  {path name base entry : String} {p : Place}

variable (d₀ k) in
def unmet (s : Session) : Finset Place :=
  (d₀.files.map (·.1)).toFinset.filter fun p => rooted k p ∉ s.includes ∧ rooted k p ∉ s.report.processed

theorem mem_unmet : p ∈ unmet d₀ k s ↔
    d₀.isFileAt p = true ∧ rooted k p ∉ s.includes ∧ rooted k p ∉ s.report.processed := by
  have hfile : p ∈ d₀.files.map (·.1) ↔ d₀.isFileAt p = true := ⟨Disk.isFileAt_of_mem, Disk.mem_of_isFileAt⟩
  simp only [unmet, Finset.mem_filter, List.mem_toFinset, hfile]

theorem unmet_anti (h : s.Grows s') : unmet d₀ k s' ⊆ unmet d₀ k s := by
  intro p hp
  obtain ⟨hfile, hneed, hproc⟩ := mem_unmet.1 hp
  exact mem_unmet.2 ⟨hfile, fun hm => hneed (h.includes _ hm), fun hm => hproc (h.processed _ hm)⟩

/-- The files that were not met are all still there. -/
theorem card_unmet_le (hk : k = 1 ∨ k = 2) (h : Progress cfg d₀ k active s d) :
    (unmet d₀ k s).card ≤ d.files.length := by
  have hsub : unmet d₀ k s ⊆ (d.files.map (·.1)).toFinset := by
    intro p hp
    obtain ⟨hfile, hneed, hproc⟩ := mem_unmet.1 hp
    rw [List.mem_toFinset]
    apply Disk.mem_of_isFileAt
    rwa [Disk.isFileAt, h.frame p ?_]
    intro path hmem hl
    obtain ⟨ps, hps, rfl⟩ := h.rooted path (.inr hmem)
    rw [Disk.eq_of_locate hk hps hl] at hproc
    exact absurd hmem hproc
  calc (unmet d₀ k s).card
    _ ≤ (d.files.map (·.1)).toFinset.card := Finset.card_le_card hsub
    _ ≤ (d.files.map (·.1)).length := List.toFinset_card_le _
    _ = d.files.length := List.length_map _

/-- A file that an include leads to for the first time was not met. -/
theorem exists_unmet (hk : k = 1 ∨ k = 2) (h : Progress cfg d₀ k active s d) (hr : Rooted k path)
    (hp : path ∉ s.includes) (hf : d.isFile path = true) : ∃ p ∈ unmet d₀ k s, path = rooted k p := by
  obtain ⟨ps, hps, rfl⟩ := hr
  unfold Disk.isFile at hf
  split at hf
  · rename_i p hl
    obtain rfl := Disk.eq_of_locate hk hps hl
    obtain ⟨c, hc⟩ := Option.isSome_iff_exists.1 hf
    have hfresh : rooted k p ∉ s.report.processed := h.fresh_of_content hp hl hc
    have hsame := h.content_of_unprocessed hk ⟨p, hps, rfl⟩ hfresh (h.locate_iff.1 hl)
    refine ⟨p, mem_unmet.2 ⟨?_, hp, hfresh⟩, rfl⟩
    rwa [Disk.isFileAt, ← hsame]
  · cases hf

theorem card_unmet_needed (hp : p ∈ unmet d₀ k s) :
    (unmet d₀ k (s.needed (rooted k p))).card < (unmet d₀ k s).card := by
  apply Finset.card_lt_card
  refine Finset.ssubset_iff_subset_ne.2 ⟨unmet_anti (s.grows_needed _), ?_⟩
  intro he
  rw [← he] at hp
  exact (mem_unmet.1 hp).2.1 (by simp [Session.needed])

/-! ## Processing -/

theorem shallow_resolveFile : Shallow (resolveFile cfg path : SessionM (StateM World) (Option Resolved)) := by
  unfold resolveFile
  refine (shallow_host _).bind fun res => ?_
  have hfail : ∀ error, Shallow (do fail path error; return none : SessionM (StateM World) (Option Resolved)) :=
    fun error => (shallow_fail error).bind fun _ => shallow_pure _
  cases res with
  | error e =>
    cases e with
    | malformedPath => exact shallow_throw nofun
    | _ => exact hfail _
  | ok content =>
    refine (shallow_textOf content).bind fun cs => ?_
    split
    · exact hfail _
    · exact shallow_pure _

theorem shallow_store {r : Resolved} : Shallow (do
    if r.altered then must path (Host.writeFile path (String.ofList r.text))
    return true : SessionM (StateM World) Bool) := by
  by_cases ha : r.altered = true
  · simp only [if_pos ha]
    exact (shallow_must _).bind fun _ => shallow_pure _
  · simp only [if_neg ha]
    exact shallow_pure _

def Bounds (cfg : ProjectConfig) (d₀ : Disk) (k depth : Nat) : Prop :=
  ∀ {active s path name} {w : World}, Progress cfg d₀ k active s w.disk → Rooted k path → path ∉ s.includes →
    (unmet d₀ k (s.needed path)).card < depth → Bounded (processFile cfg depth path name) (s.needed path) w

def KeepsDistinct (cfg : ProjectConfig) (d₀ : Disk) (k depth : Nat) : Prop :=
  ∀ {active s path name b s'} {w w' : World}, Progress cfg d₀ k active s w.disk → Rooted k path →
    path ∉ s.includes → Gives (processFile cfg depth path name) (s.needed path) w b s' w' →
    s.report.processed.Nodup → s'.report.processed.Nodup

theorem covers_processFile (depth : Nat) (path name : String) :
    Covers (processFile cfg depth path name : SessionM (StateM World) Bool)
      (processFile cfg (depth + 1) path name) := by
  induction depth generalizing path name with
  | zero => exact covers_endless _
  | succ depth ih =>
    -- An include is followed one level further down, where the induction speaks of it.
    have hfollow : ∀ base name, Covers (follow cfg depth base name) (follow cfg (depth + 1) base name) := by
      intro base name
      unfold follow
      refine (Covers.refl _).bind fun t => ?_
      split
      · exact .refl _
      · refine (Covers.refl _).bind fun _ => (Covers.refl _).bind fun found => ?_
        cases found with
        | true => exact (Covers.refl _).bind fun cwd => (ih _ _).bind fun _ => .refl _
        | false =>
          simp only [Bool.false_eq_true, if_false]
          exact .refl _
    rw [processFile_succ, processFile_succ]
    refine (Covers.refl _).bind fun _ => (Covers.refl _).bind fun r? => ?_
    cases r? with
    | none =>
      dsimp only
      exact .refl _
    | some r =>
      dsimp only
      refine (Covers.refl _).bind fun _ => ?_
      split
      · exact .refl _
      · exact (covers_forM (hfollow (directory path))).bind fun _ => .refl _

theorem covers_processFile_of_le {depth depth' : Nat} (h : depth ≤ depth') (path name : String) :
    Covers (processFile cfg depth path name : SessionM (StateM World) Bool) (processFile cfg depth' path name) := by
  induction h with
  | refl => exact .refl _
  | step _ ih => exact ih.trans (covers_processFile _ path name)

variable (hk : k = 1 ∨ k = 2)
include hk

theorem bounded_follow {depth : Nat} (ih : Bounds cfg d₀ k depth) (h : Progress cfg d₀ k active s w.disk)
    (hb : Rooted k base) (hn : isAbsolute name = false) (hd : (unmet d₀ k s).card ≤ depth) :
    Bounded (follow cfg depth base name) s w := by
  have hr : Rooted k (normal (join base name)) := hb.normal_join hk hn
  refine bounded_bind (shallow_session s w) fun t s₁ w₁ hsession => ?_
  obtain ⟨rfl, rfl, rfl⟩ := gives_session.1 hsession
  by_cases hmem : normal (join base name) ∈ s.includes
  · rw [List.contains_iff_mem.2 hmem]
    exact shallow_pure _ s w
  · have hnot : s.includes.contains (normal (join base name)) = false := by simpa using hmem
    rw [hnot]
    refine bounded_bind (shallow_change _ s w) fun _ s₁ w₁ hneed => ?_
    obtain ⟨rfl, rfl⟩ := gives_need hneed
    refine bounded_bind (shallow_host _ _ w) fun found s₂ w₂ hfile => ?_
    obtain ⟨hfound, rfl, rfl⟩ := gives_isFile hfile
    cases found with
    | true =>
      refine bounded_bind (shallow_host _ _ w) fun cwd s₃ w₃ hcwd => ?_
      obtain ⟨-, rfl, rfl⟩ := gives_workingDir hcwd
      obtain ⟨p, hp, hpath⟩ := exists_unmet hk h hr hmem hfound
      have hless := card_unmet_needed hp
      rw [← hpath] at hless
      refine bounded_bind (ih h hr hmem (by omega)) fun _ s' w' _ => shallow_pure _ s' w'
    | false => exact shallow_fail _ _ w

variable (hrel : ∀ path src r, Resolves cfg d₀ path src r → ∀ name ∈ r.includeNames, isAbsolute name = false)
include hrel

theorem bounds (depth : Nat) : Bounds cfg d₀ k depth := by
  induction depth with
  | zero =>
    intro active s path name w h hr hp hd
    omega
  | succ depth ih =>
    intro active s path name w h hr hp hd
    rw [processFile_succ]
    refine bounded_bind (shallow_host _ _ w) fun _ s₁ w₁ hinfo => ?_
    obtain ⟨rfl, hd₁⟩ := gives_log hinfo
    refine bounded_bind (shallow_resolveFile _ w₁) fun r? s₂ w₂ hresolve => ?_
    obtain ⟨hd₂, ⟨error, rfl, rfl, -⟩ | ⟨src, r, rfl, rfl, hread, hout⟩⟩ := gives_resolveFile hresolve
    · exact shallow_pure _ _ w₂
    · refine bounded_bind (shallow_change _ _ w₂) fun _ s₃ w₃ hchange => ?_
      obtain ⟨rfl, rfl⟩ := gives_change.1 hchange
      by_cases hv : r.vacant = true
      · rw [if_pos hv]
        exact bounded_bind (shallow_remove _ w₂) fun _ s' w' _ => shallow_pure _ s' w'
      · rw [if_neg hv]
        rw [hd₁] at hread
        have henter := h.enter hr (h.fresh hp hread)
        rw [← hd₁, ← hd₂] at henter
        have hn := hrel path src r ⟨h.original hk hr hp hread, hout⟩
        have hb : Rooted k (directory path) := hr.directory (by omega)
        refine bounded_bind (bounded_forM (fun s' w' => Progress cfg d₀ k (path :: active) s' w'.disk ∧
          (s.needed path).Grows s') ?_ ?_ ⟨henter, ⟨fun _ => id, fun _ ht => List.mem_append_left _ ht⟩⟩)
          fun _ s' w' _ => shallow_store s' w'
        · -- no file is met again, so fewer are left for the includes
          intro name hname s' w' ⟨h', hgrow⟩
          have hle : (unmet d₀ k s').card ≤ (unmet d₀ k (s.needed path)).card :=
            Finset.card_le_card (unmet_anti hgrow)
          exact bounded_follow hk ih h' hb (hn name hname) (by omega)
        · intro name hname s' w' s'' w'' ⟨h', hgrow⟩ hg
          obtain ⟨h'', hgrow', -⟩ := gives_follow hk (handles hk hrel depth) h' hb (hn name hname) hg
          exact ⟨h'', hgrow.trans hgrow'⟩

/-- The depth makes no difference, once it exceeds the number of files that were not met. -/
theorem processFile_depth {depth depth' : Nat} (h : Progress cfg d₀ k active s w.disk) (hr : Rooted k path)
    (hp : path ∉ s.includes) (hd : (unmet d₀ k (s.needed path)).card < depth) (hle : depth ≤ depth') :
    (processFile cfg depth' path name).runFrom (s.needed path) w =
      (processFile cfg depth path name).runFrom (s.needed path) w :=
  covers_processFile_of_le hle path name _ w (bounds hk hrel depth h hr hp hd)

/-- The host reaches far enough for every chain of includes. -/
theorem bounded_process (h : Progress cfg d₀ k active s w.disk) (hr : Rooted k path) (hp : path ∉ s.includes) :
    Bounded (process cfg path name) (s.needed path) w := by
  refine bounded_bind (shallow_host _ _ w) fun n s₁ w₁ hreach => ?_
  have hfar := (lt_of_gives_reach hreach).1
  obtain ⟨rfl, rfl⟩ := gives_reach hreach
  apply bounds hk hrel n h hr hp
  calc (unmet d₀ k (s.needed path)).card
    _ ≤ (unmet d₀ k s).card := Finset.card_le_card (unmet_anti (s.grows_needed path))
    _ ≤ w.disk.files.length := card_unmet_le hk h
    _ < n := hfar

theorem bounded_processEntry (h : Progress cfg d₀ k active s w.disk) (hb : Rooted k base)
    (he : isAbsolute entry = false) : Bounded (processEntry cfg base entry) s w := by
  have hr := hb.normal_join hk he
  unfold processEntry
  by_cases hblank : entry.toList.all isWhite = true
  · rw [if_pos hblank]
    exact shallow_pure _ s w
  · rw [if_neg hblank]
    refine bounded_bind (shallow_session s w) fun t s₁ w₁ hsession => ?_
    obtain ⟨rfl, rfl, rfl⟩ := gives_session.1 hsession
    by_cases hmem : normal (join base entry) ∈ s.includes
    · rw [if_pos (List.contains_iff_mem.2 hmem)]
      exact shallow_pure _ s w
    · rw [if_neg (by simpa using hmem)]
      refine bounded_bind (shallow_change _ s w) fun _ s₁ w₁ hneed => ?_
      obtain ⟨rfl, rfl⟩ := gives_need hneed
      refine bounded_bind (bounded_process hk hrel h hr hmem) fun kept s₂ w₂ _ => ?_
      cases kept with
      | true => exact shallow_pure _ s₂ w₂
      | false => exact bounded_bind (shallow_change _ s₂ w₂) fun _ s₃ w₃ _ => shallow_pure _ s₃ w₃

/-! ## No path is processed twice -/

theorem keepsDistinct (depth : Nat) : KeepsDistinct cfg d₀ k depth := by
  induction depth with
  | zero =>
    intro active s path name b s' w w' h hr hp hg
    exact absurd hg not_gives_throw
  | succ depth ih =>
    intro active s path name b s' w w' h hr hp hg hnodup
    have hprocessed : ∀ {c}, w.disk.read path = .ok c → (s.report.processed ++ [path]).Nodup := by
      intro c hread
      rw [← List.concat_eq_append]
      exact hnodup.concat (h.fresh hp hread)
    cases course_of_gives hg with
    | refused => exact hnodup
    | vacant read => exact hprocessed read
    | @kept src r _ s₁ _ v v₁ _ read resolved solid disk follows store =>
      have henter := h.enter hr (h.fresh hp read)
      rw [← disk] at henter
      have hn := hrel path src r ⟨h.original hk hr hp read, resolved⟩
      have hb : Rooted k (directory path) := hr.directory (by omega)
      have hloop : Progress cfg d₀ k (path :: active) s₁ v₁.disk ∧ s₁.report.processed.Nodup := by
        refine gives_forM (fun s w => Progress cfg d₀ k (path :: active) s w.disk ∧ s.report.processed.Nodup) ?_
          ⟨henter, hprocessed read⟩ follows
        intro name hname s w s' w' ⟨h', hnodup'⟩ hg'
        refine ⟨(gives_follow hk (handles hk hrel depth) h' hb (hn name hname) hg').1, ?_⟩
        cases following_of_gives hg' with
        | known => exact hnodup'
        | found fresh process => exact ih h' (hb.normal_join hk (hn name hname)) fresh process hnodup'
        | missing => exact hnodup'
      rw [← session_eq_of_store store]
      exact hloop.2

theorem nodup_processEntry {b : Bool} (h : Progress cfg d₀ k active s w.disk) (hb : Rooted k base)
    (he : isAbsolute entry = false) (hg : Gives (processEntry cfg base entry) s w b s' w')
    (hnodup : s.report.processed.Nodup) : s'.report.processed.Nodup := by
  have hr := hb.normal_join hk he
  have hprocess : ∀ {b t v}, normal (join base entry) ∉ s.includes →
      Gives (process cfg (normal (join base entry)) entry) (s.needed (normal (join base entry))) w b t v →
        t.report.processed.Nodup := by
    intro b t v hfresh hg'
    obtain ⟨depth, s₁, w₁, hreach, hg'⟩ := gives_bind.1 hg'
    obtain ⟨rfl, rfl⟩ := gives_reach hreach
    exact keepsDistinct hk hrel depth h hr hfresh hg' hnodup
  cases entryCourse_of_gives hg with
  | blank => exact hnodup
  | known => exact hnodup
  | kept fresh process => exact hprocess fresh process
  | removed fresh process =>
    have hdone := hprocess fresh process
    exact hdone

end

/-! ## Pruning -/

def below (ps : List Place) (p : Place) : Finset Place := ps.toFinset.filter fun q => p <+: q ∧ p ≠ q

theorem card_below_le (ps : List Place) (p : Place) : (below ps p).card ≤ ps.length :=
  (Finset.card_filter_le _ _).trans (List.toFinset_card_le ps)

theorem card_below_lt {ps : List Place} {p : Place} {name : String} (h : p ++ [name] ∈ ps) :
    (below ps (p ++ [name])).card < (below ps p).card := by
  have hpre : p <+: p ++ [name] := List.prefix_append p [name]
  have hne : p ≠ p ++ [name] := by simp
  apply Finset.card_lt_card
  refine Finset.ssubset_iff_subset_ne.2 ⟨fun q hq => ?_, fun he => ?_⟩
  · simp only [below, Finset.mem_filter] at hq ⊢
    refine ⟨hq.1, hpre.trans hq.2.1, ?_⟩
    rintro rfl
    exact absurd hq.2.1.length_le (by simp)
  · have hmem : p ++ [name] ∈ below ps p := by simp [below, h]
    rw [← he] at hmem
    simp [below] at hmem

section
variable {cfg : ProjectConfig} {k : Nat} {base : Place} {s₁ s : Session} {d₁ : Disk} {w : World} {name : String}

def PruneBounds (cfg : ProjectConfig) (base : Place) (k depth : Nat) : Prop :=
  ∀ {s₁ s d₁ dirs} {w : World}, Pruned cfg k base s₁ d₁ s w.disk → ProperNames (base ++ dirs) →
    (∀ x ∈ dirs, ¬ hidden x) → (below d₁.dirs (base ++ dirs)).card < depth →
    Bounded (pruneDir cfg depth (rooted k (base ++ dirs))) s w

variable (hk : k = 1 ∨ k = 2)
include hk

theorem bounded_pruneName {depth : Nat} {dirs : List String} (ih : PruneBounds cfg base k depth)
    (h : Pruned cfg k base s₁ d₁ s w.disk) (hp : ProperNames (base ++ dirs)) (hd : ∀ x ∈ dirs, ¬ hidden x)
    (hn : ProperName name) (hc : (below d₁.dirs (base ++ dirs)).card ≤ depth) :
    Bounded (pruneName cfg depth (rooted k (base ++ dirs)) name) s w := by
  unfold pruneName
  rw [normal_join_proper hk hp hn]
  refine bounded_bind (shallow_host _ s w) fun found s₂ w₂ hdir => ?_
  obtain ⟨hfound, rfl, rfl⟩ := gives_isDir hdir
  cases found with
  | true =>
    simp only [if_true]
    by_cases hdot : name.toList.head? = some '.'
    · rw [if_pos hdot]
      exact shallow_pure _ s w
    · rw [if_neg hdot]
      have hproper := hp.append_singleton hn
      -- A directory below was there from the start, and fewer lie below it than here.
      have hmem : base ++ dirs ++ [name] ∈ d₁.dirs := by
        unfold Disk.isDir at hfound
        split at hfound
        · rename_i p hl
          obtain rfl := Disk.eq_of_locate hk hproper hl
          have hdir₁ := h.widens.isDirAt_mono _ hfound
          simpa [Disk.isDirAt] using hdir₁
        · cases hfound
      have hdirs : ∀ x ∈ dirs ++ [name], ¬ hidden x :=
        List.forall_mem_append.2 ⟨hd, List.forall_mem_singleton.2 hdot⟩
      have hless := card_below_lt hmem
      rw [List.append_assoc] at hproper hless ⊢
      exact ih h hproper hdirs (by omega)
  | false =>
    simp only [Bool.false_eq_true, if_false]
    split
    · refine bounded_bind (shallow_session s w) fun t s₂ w₂ _ => ?_
      split
      · exact shallow_pure _ s₂ w₂
      · exact bounded_bind (shallow_host _ s₂ w₂) fun _ s₃ w₃ _ => shallow_remove s₃ w₃
    · exact shallow_pure _ s w

theorem pruneBounds (depth : Nat) : PruneBounds cfg base k depth := by
  induction depth with
  | zero =>
    intro s₁ s d₁ dirs w h hp hd hc
    omega
  | succ depth ih =>
    intro s₁ s d₁ dirs w h hp hd hc
    rw [pruneDir_succ]
    refine bounded_bind (shallow_must _ s w) fun names s₂ w₂ hlist => ?_
    obtain ⟨rfl, rfl, hnames⟩ := gives_listDir hlist
    obtain ⟨q, -, -, rfl⟩ := Disk.list_eq_ok hnames
    have hname : ∀ name ∈ (w.disk.namesAt q).mergeSort fun a b => decide (a ≤ b), ProperName name :=
      fun name hmem => h.proper.name (List.mem_mergeSort.1 hmem)
    refine bounded_bind (bounded_forM (fun s w => Pruned cfg k base s₁ d₁ s w.disk) ?_ ?_ h) fun _ s₃ w₃ _ => ?_
    · intro name hmem s w h'
      exact bounded_pruneName hk ih h' hp hd (hname name hmem) (by omega)
    · intro name hmem s w s' w' h' hg
      exact gives_pruneName hk (prunes hk depth) h' hp hd (hname name hmem) hg
    · refine bounded_bind (shallow_must _ s₃ w₃) fun rest s₄ w₄ _ => ?_
      by_cases hempty : rest.isEmpty = true
      · rw [if_pos hempty]
        exact shallow_must _ s₄ w₄
      · rw [if_neg hempty]
        exact shallow_pure _ s₄ w₄

end

/-! ## A whole run -/

section
variable {cfg : ProjectConfig} {manifest : String} {w₀ w : World}

/-- The host reaches far enough to prune what lies below a directory. -/
theorem bounded_conclusion {k : Nat} {base text : String} {s : Session} (hk : k = 1 ∨ k = 2) (hb : Rooted k base)
    (hproper : w.disk.Proper) :
    Bounded (if s.report.errors.length = 0 then do pruneDir cfg (← host Host.reach) base else warn text) s w := by
  by_cases herr : s.report.errors.length = 0
  · rw [if_pos herr]
    refine bounded_bind (shallow_host _ s w) fun n s₁ w₁ hreach => ?_
    have hfar := (lt_of_gives_reach hreach).2
    obtain ⟨rfl, rfl⟩ := gives_reach hreach
    obtain ⟨place, hplace, rfl⟩ := hb
    rw [← List.append_nil place] at hplace ⊢
    exact pruneBounds hk n (Pruned.refl hproper) hplace (by simp) ((card_below_le _ _).trans_lt hfar)
  · rw [if_neg herr]
    exact shallow_host _ s w

theorem bounded_processManifest (hproper : w₀.disk.Proper) (hrel : RelativeNames cfg w₀.disk manifest) :
    Bounded (processManifest cfg manifest) {} w₀ := by
  obtain ⟨k, hk, hm⟩ := exists_rooted_manifestPath w₀.disk manifest
  have hb := hm.directory (by omega)
  unfold processManifest
  refine bounded_bind (shallow_host _ _ w₀) fun cwd s₁ w₁ hcwd => ?_
  obtain ⟨rfl, rfl, rfl⟩ := gives_workingDir hcwd
  rw [← manifestPath]
  refine bounded_bind (shallow_must _ _ w₀) fun content s₁ w₁ hmust => ?_
  obtain ⟨rfl, rfl, hread⟩ := gives_mustRead hmust
  refine bounded_bind (shallow_textOf _ _ w₀) fun cs s₁ w₁ htext => ?_
  obtain ⟨src, rfl, rfl, rfl, rfl⟩ := gives_textOf htext
  have hstep : ∀ line ∈ (splitOn '\n' (unifyNewlines src.toList)).drop 1, ∀ {s : Session} {w : World} {b : Bool}
      {s' : Session} {w' : World}, Progress cfg w₀.disk k [] s w.disk →
      Gives (processEntry cfg (directory (manifestPath w₀.disk manifest)) (String.ofList line)) s w b s' w' →
      Progress cfg w₀.disk k [] s' w'.disk :=
    fun line hline _ _ _ _ _ h hg => gives_processEntry hk hrel.includes h hb (relative_line hrel hread hline) hg
  refine bounded_bind (bounded_filterM (fun s w => Progress cfg w₀.disk k [] s w.disk) ?_ hstep .start)
    fun kept s₁ w₁ hentries => ?_
  · intro line hline s w h
    exact bounded_processEntry hk hrel.includes h hb (relative_line hrel hread hline)
  have hdone : Progress cfg w₀.disk k [] s₁ w₁.disk :=
    gives_filterM (fun s w => Progress cfg w₀.disk k [] s w.disk) hstep .start hentries
  refine bounded_bind (shallow_must _ s₁ w₁) fun _ s₂ w₂ hwrite => ?_
  have hproper' : w₂.disk.Proper := hdone.proper_of_write hk hproper hm hwrite
  refine bounded_bind (shallow_session s₂ w₂) fun t s₃ w₃ hsession => ?_
  obtain ⟨rfl, rfl, rfl⟩ := gives_session.1 hsession
  exact bounded_conclusion hk hb hproper'

/-- A run with relative names never follows includes or directories too deep. If it comes to its end, it has
processed no path twice. -/
theorem runProject_ends (hproper : w₀.disk.Proper) (hrel : RelativeNames cfg w₀.disk manifest) :
    (runProject cfg manifest w₀).1.1 ≠ .error .endless ∧
      ∀ s w, runProject cfg manifest w₀ = ((.ok (), s), w) → s.report.processed.Nodup := by
  have heq : runProject cfg manifest w₀ = (processManifest cfg manifest).runFrom {} w₀ := rfl
  rw [heq]
  refine ⟨bounded_processManifest hproper hrel, fun s w hrun => ?_⟩
  obtain ⟨run⟩ := nonempty_manifestRun hproper hrel hrun
  have hb := run.rooted_path.directory (by have := run.slashes; omega)
  rw [run.concludes.processed_eq]
  have hdone : Progress cfg w₀.disk run.k [] run.session run.world.disk ∧ run.session.report.processed.Nodup := by
    refine gives_filterM (fun s w => Progress cfg w₀.disk run.k [] s w.disk ∧ s.report.processed.Nodup) ?_
      ⟨.start, List.nodup_nil⟩ run.entries
    intro line hline s w b s' w' ⟨h, hnodup⟩ hg
    have he := relative_line hrel run.read_eq hline
    exact ⟨gives_processEntry run.slashes hrel.includes h hb he hg,
      nodup_processEntry run.slashes hrel.includes h hb he hg hnodup⟩
  exact hdone.2

end

def loops : World :=
  worldOf [(["p", "progs.src"], "out\n../g.h\n../a.h\n../b.h\n"),
    (["a.h"], "#include \"a.h\"\n#include \"b.h\"\n"), (["b.h"], "#include \"p/../a.h\"\n#include \"g.h\"\n"),
    (["g.h"], "// c\n")]

def loopsSession : Session :=
  ⟨⟨["/w/g.h", "/w/a.h", "/w/b.h"], ["/w/g.h"], ["/w/g.h: included file not found"]⟩,
    ["/w/a.h", "/w/b.h", "/w/g.h"]⟩

theorem runProject_loops : (runProject withoutX "p/progs.src" loops).1 = (.ok (), loopsSession) := by
  decide +kernel

theorem runProject_ends_loops :
    loops.disk.Proper ∧ RelativeNames withoutX loops.disk "p/progs.src" ∧
    (runProject withoutX "p/progs.src" loops).1 = (.ok (), loopsSession) ∧
    (runProject withoutX "p/progs.src" loops).1.1 ≠ .error .endless ∧ loopsSession.report.processed.Nodup := by
  have hproper : loops.disk.Proper := by decide +kernel
  have hrel : RelativeNames withoutX loops.disk "p/progs.src" :=
    relativeNames_of_checks (by decide +kernel) (by decide +kernel)
  obtain ⟨hbound, hnodup⟩ := runProject_ends hproper hrel
  exact ⟨hproper, hrel, runProject_loops, hbound, hnodup _ _ (eq_mk_of_fst runProject_loops)⟩

end CondResolve
