import CondResolve.Project
import CondResolve.Proofs.Place

/-!
# Sessions that come to their end

`Gives` says that a session runs from one state to another without a crash. Its lemmas take a session apart into the
operations that it makes on the disk.
-/

namespace CondResolve

/-! ## What is noted in a session -/

namespace Session

def needed (s : Session) (path : String) : Session := { s with includes := s.includes ++ [path] }

def failed (s : Session) (path error : String) : Session :=
  { s with report := { s.report with errors := s.report.errors ++ [path ++ ": " ++ error] } }

def processed (s : Session) (path : String) : Session :=
  { s with report := { s.report with processed := s.report.processed ++ [path] } }

def removed (s : Session) (path : String) : Session :=
  { s with report := { s.report with removed := s.report.removed ++ [path] } }

end Session

namespace SessionM

/-! ## Sessions that end -/

def runFrom {α : Type} (x : SessionM (StateM World) α) (s : Session) (w : World) :
    (Except Crash α × Session) × World :=
  ((ExceptT.run x).run s).run w

def Gives {α : Type} (x : SessionM (StateM World) α) (s : Session) (w : World) (a : α) (s' : Session) (w' : World) :
    Prop :=
  x.runFrom s w = ((.ok a, s'), w')

section
variable {α β : Type} {s s' s'' : Session} {w w' w'' : World} {a c : α} {b : β} {path text : String}

theorem gives_pure : Gives (pure c) s w a s' w' ↔ c = a ∧ s = s' ∧ w = w' := by
  show ((Except.ok c, s), w) = ((Except.ok a, s'), w') ↔ _
  simp only [Prod.mk.injEq, Except.ok.injEq]
  grind

theorem not_gives_throw {e : Crash} : ¬ Gives (throw e : SessionM (StateM World) α) s w a s' w' := by
  intro h
  have : ((Except.error e, s), w) = ((Except.ok a, s'), w') := h
  simp at this

theorem runFrom_bind (x : SessionM (StateM World) α) (f : α → SessionM (StateM World) β) :
    (x >>= f).runFrom s w =
      match x.runFrom s w with
      | ((.ok a, s'), w') => (f a).runFrom s' w'
      | ((.error e, s'), w') => ((.error e, s'), w') := by
  show ((ExceptT.bindCont f (x.runFrom s w).1.1).run (x.runFrom s w).1.2).run (x.runFrom s w).2 = _
  obtain ⟨⟨r, s'⟩, w'⟩ := x.runFrom s w
  cases r <;> rfl

theorem gives_bind {x : SessionM (StateM World) α} {f : α → SessionM (StateM World) β} :
    Gives (x >>= f) s w b s'' w'' ↔ ∃ a s' w', Gives x s w a s' w' ∧ Gives (f a) s' w' b s'' w'' := by
  unfold Gives
  rw [runFrom_bind]
  constructor
  · intro h
    split at h
    · exact ⟨_, _, _, ‹_›, h⟩
    · simp at h
  · intro ⟨a, s', w', hx, hf⟩
    rw [hx]
    exact hf

theorem gives_discard {x : SessionM (StateM World) α} {u : Unit} (h : Gives (discard x) s w u s' w') :
    ∃ a, Gives x s w a s' w' := by
  have hbind : Gives (x >>= fun _ => pure ()) s w u s' w' := h
  obtain ⟨a, s₁, w₁, hx, hpure⟩ := gives_bind.1 hbind
  obtain ⟨-, rfl, rfl⟩ := gives_pure.1 hpure
  exact ⟨a, hx⟩

theorem gives_host {x : StateM World α} : Gives (host x) s w a s' w' ↔ s = s' ∧ x w = (a, w') := by
  show ((Except.ok (x w).1, s), (x w).2) = ((Except.ok a, s'), w') ↔ _
  obtain ⟨b, v⟩ := x w
  simp only [Prod.mk.injEq, Except.ok.injEq]
  grind

theorem gives_change {f : Session → Session} {u : Unit} :
    Gives (change f) s w u s' w' ↔ f s = s' ∧ w = w' := by
  show ((Except.ok (), f s), w) = ((Except.ok u, s'), w') ↔ _
  simp only [Prod.mk.injEq]
  grind

theorem gives_session {t : Session} : Gives session s w t s' w' ↔ s = t ∧ s = s' ∧ w = w' := by
  show ((Except.ok s, s), w) = ((Except.ok t, s'), w') ↔ _
  simp only [Prod.mk.injEq, Except.ok.injEq]
  grind

theorem gives_must {x : StateM World (Except FileError α)} :
    Gives (must path x) s w a s' w' ↔ s = s' ∧ x w = (.ok a, w') := by
  unfold must
  rw [gives_bind]
  constructor
  · intro ⟨r, t, v, hx, h⟩
    rw [gives_host] at hx
    cases r with
    | error e => exact absurd h not_gives_throw
    | ok c =>
      obtain ⟨rfl, rfl, rfl⟩ := gives_pure.1 h
      exact hx
  · intro ⟨hs, hx⟩
    exact ⟨_, s, w', gives_host.2 ⟨rfl, hx⟩, gives_pure.2 ⟨rfl, hs, rfl⟩⟩

/-- An operation of the host that changes nothing. -/
theorem gives_look {x : StateM World α} (hx : x w = (c, w)) (h : Gives (host x) s w a s' w') :
    c = a ∧ s = s' ∧ w = w' := by
  obtain ⟨hs, hw⟩ := gives_host.1 h
  have he := hx.symm.trans hw
  exact ⟨congrArg Prod.fst he, hs, congrArg Prod.snd he⟩

theorem gives_isFile {found : Bool} (h : Gives (host (Host.isFile path)) s w found s' w') :
    w.disk.isFile path = found ∧ s = s' ∧ w = w' :=
  gives_look rfl h

theorem gives_isDir {found : Bool} (h : Gives (host (Host.isDir path)) s w found s' w') :
    w.disk.isDir path = found ∧ s = s' ∧ w = w' :=
  gives_look rfl h

theorem gives_readFile {res : Except FileError Content} (h : Gives (host (Host.readFile path)) s w res s' w') :
    w.disk.read path = res ∧ s = s' ∧ w = w' :=
  gives_look rfl h

theorem gives_mustRead {content : Content} (h : Gives (must path (Host.readFile path)) s w content s' w') :
    s = s' ∧ w = w' ∧ w.disk.read path = .ok content := by
  obtain ⟨hs, hw⟩ := gives_must.1 h
  exact ⟨hs, congrArg Prod.snd hw, congrArg Prod.fst hw⟩

theorem gives_workingDir {cwd : String} (h : Gives (host Host.workingDir) s w cwd s' w') :
    "/" ++ Path.ofParts w.disk.cwd = cwd ∧ s = s' ∧ w = w' := by
  obtain ⟨hs, hw⟩ := gives_host.1 h
  exact ⟨congrArg Prod.fst hw, hs, congrArg Prod.snd hw⟩

theorem gives_reach {n : Nat} (h : Gives (host Host.reach) s w n s' w') : s = s' ∧ w = w' := by
  obtain ⟨hs, hw⟩ := gives_host.1 h
  exact ⟨hs, congrArg Prod.snd hw⟩

/-- The host reaches further than there are files, and further than there are directories. -/
theorem lt_of_gives_reach {n : Nat} (h : Gives (host Host.reach) s w n s' w') :
    w.disk.files.length < n ∧ w.disk.dirs.length < n := by
  have hn : 4096 * (w.disk.files.length + w.disk.dirs.length + 1) = n := congrArg Prod.fst (gives_host.1 h).2
  omega

theorem gives_need {u : Unit} (h : Gives (need path) s w u s' w') : s' = s.needed path ∧ w = w' := by
  obtain ⟨hs, hw⟩ := gives_change.1 h
  exact ⟨hs.symm, hw⟩

theorem gives_listDir {names : List String} (h : Gives (must path (Host.listDir path)) s w names s' w') :
    s = s' ∧ w = w' ∧ w.disk.list path = .ok names := by
  obtain ⟨hs, hw⟩ := gives_must.1 h
  exact ⟨hs, congrArg Prod.snd hw, congrArg Prod.fst hw⟩

theorem gives_log {level : String} {u : Unit} (h : Gives (log level text) s w u s' w') :
    s = s' ∧ w'.disk = w.disk := by
  obtain ⟨hs, hw⟩ := gives_host.1 h
  have : w' = { w with errors := w.errors ++ (level ++ ": pyunifdef.project: " ++ text ++ "\n") } :=
    (congrArg Prod.snd hw).symm
  exact ⟨hs, by rw [this]⟩

theorem gives_fail {error : String} {u : Unit} (h : Gives (fail path error) s w u s' w') :
    s' = s.failed path error ∧ w'.disk = w.disk := by
  obtain ⟨_, t, v, hlog, hchange⟩ := gives_bind.1 h
  obtain ⟨rfl, hv⟩ := gives_log hlog
  obtain ⟨rfl, rfl⟩ := gives_change.1 hchange
  exact ⟨rfl, hv⟩

theorem change_eq_ok {f : Disk → Except FileError Disk} {u : Unit}
    (h : World.change f w = (.ok u, w')) : f w.disk = .ok w'.disk := by
  unfold World.change at h
  split at h
  · rename_i d hd
    have hw : { w with disk := d } = w' := congrArg Prod.snd h
    rw [hd, ← hw]
  · cases congrArg Prod.fst h

theorem gives_remove {u : Unit} (h : Gives (remove path) s w u s' w') :
    ∃ p, w.disk.locate path = .ok p ∧ w'.disk = w.disk.without p ∧
      s' = s.removed path := by
  obtain ⟨_, t, v, hmust, hchange⟩ := gives_bind.1 h
  obtain ⟨rfl, hv⟩ := gives_must.1 hmust
  obtain ⟨rfl, rfl⟩ := gives_change.1 hchange
  obtain ⟨p, hp, hd⟩ := Disk.remove_eq_ok (change_eq_ok hv)
  exact ⟨p, hp, hd, rfl⟩

theorem gives_write {u : Unit} (h : Gives (must path (Host.writeFile path text)) s w u s' w') :
    s = s' ∧ ∃ p, w.disk.locate path = .ok p ∧ w'.disk = w.disk.put p (.text text) := by
  obtain ⟨rfl, hv⟩ := gives_must.1 h
  exact ⟨rfl, Disk.write_eq_ok (change_eq_ok hv)⟩

theorem gives_textOf {content : Content} {cs : Chars} (h : Gives (textOf content) s w cs s' w') :
    ∃ src, content = .text src ∧ cs = src.toList ∧ s = s' ∧ w = w' := by
  cases content with
  | text src =>
    obtain ⟨rfl, rfl, rfl⟩ := gives_pure.1 h
    exact ⟨src, rfl, rfl, rfl, rfl⟩
  | binary bytes => exact absurd h not_gives_throw

/-! ## Loops -/

variable (I : Session → World → Prop)

theorem gives_forM {l : List α} {f : α → SessionM (StateM World) Unit} {u : Unit}
    (hstep : ∀ x ∈ l, ∀ {s w s' w'}, I s w → Gives (f x) s w () s' w' → I s' w')
    (hi : I s w) (h : Gives (l.forM f) s w u s' w') : I s' w' := by
  induction l generalizing s w with
  | nil =>
    obtain ⟨-, rfl, rfl⟩ := gives_pure.1 h
    exact hi
  | cons x l ih =>
    obtain ⟨_, t, v, hx, h⟩ := gives_bind.1 h
    have ht := hstep x (List.mem_cons_self ..) hi hx
    exact ih (fun y hy => hstep y (List.mem_cons_of_mem _ hy)) ht h

/-- A loop that keeps some elements, where `J ks` holds of the state when those in `ks` are kept so far. -/
theorem gives_filterM_kept (J : List α → Session → World → Prop) {l : List α}
    {f : α → SessionM (StateM World) Bool} {ks : List α}
    (hstep : ∀ x ∈ l, ∀ {ks s w b s' w'}, J ks s w → Gives (f x) s w b s' w' →
      J (if b then x :: ks else ks) s' w')
    (hi : J [] s w) (h : Gives (l.filterM f) s w ks s' w') : J ks.reverse s' w' := by
  have haux : ∀ {acc ks s w s' w'}, J acc s w → Gives (l.filterAuxM f acc) s w ks s' w' → J ks s' w' := by
    clear hi h
    intro acc ks s w s' w' hi h
    induction l generalizing acc s w with
    | nil =>
      obtain ⟨rfl, rfl, rfl⟩ := gives_pure.1 h
      exact hi
    | cons x l ih =>
      obtain ⟨b, t, v, hx, h⟩ := gives_bind.1 h
      have ht := hstep x (List.mem_cons_self ..) hi hx
      refine ih (fun y hy => hstep y (List.mem_cons_of_mem _ hy)) ht ?_
      cases b <;> exact h
  obtain ⟨rs, t, v, hrs, h⟩ := gives_bind.1 h
  obtain ⟨rfl, rfl, rfl⟩ := gives_pure.1 h
  rw [List.reverse_reverse]
  exact haux hi hrs

theorem gives_filterM {l : List α} {f : α → SessionM (StateM World) Bool} {ks : List α}
    (hstep : ∀ x ∈ l, ∀ {s w b s' w'}, I s w → Gives (f x) s w b s' w' → I s' w')
    (hi : I s w) (h : Gives (l.filterM f) s w ks s' w') : I s' w' :=
  gives_filterM_kept (fun _ => I) (fun x hx => hstep x hx) hi h

end

end SessionM

end CondResolve
