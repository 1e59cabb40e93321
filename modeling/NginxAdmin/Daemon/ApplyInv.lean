import NginxAdmin.Daemon.StoreInv
import NginxAdmin.Daemon.Staging

/-!
# The invariant of the apply pipeline

`apply_lock` protects the directories and the observed half of the status. `Gate` says what must have
happened before an event of the pipeline; `ApplyInv` says that every event of the history has passed its
gate, and what the status says about the runtime directory.

The gates are about whole runs and need the history (`gated`); what the status says of the runtime holds
as long as nobody else edits it (`closed`). A single call, from any state, is studied with neither.
-/

namespace NginxAdmin.Daemon

/-- The operations by which the pipeline works. -/
def Op.OnPipeline : Op → Prop
  | createParentOf _ | createDirAll .. | removeDirAll _ | writeFile .. | rename .. | createBackupsDir
  | sh _ => True
  | _ => False

def onPipeline : Event Op.Res World → Prop
  | .did _ o _ _ _ => o.OnPipeline
  | .dropped .. => False

/-- An edit by somebody else. -/
def isExternal : Event Op.Res World → Prop
  | .did _ (.externalEdit ..) _ _ _ => True
  | _ => False

/-- The directory that the event denies to `t`: it was there, and the test answered that it is not. -/
def denialOf (t : Nat) : Event Op.Res World → Option Location
  | .did u (.exists l) false pre _ => if u = t ∧ (pre.disk.dirs l).isSome then some l else none
  | _ => none

/-- The directories that were denied to `t`, newest first. -/
def denials (log : Log) (t : Nat) : List Location := log.filterMap (denialOf t)

/-- The rename that `t` has done by the event. -/
def moveOf (t : Nat) : Event Op.Res World → Option (Location × Location)
  | .did u (.rename src dst) (.ok _) _ _ => if u = t then some (src, dst) else none
  | _ => none

/-- The renames that `t` has done, newest first. -/
def moves (log : Log) (t : Nat) : List (Location × Location) := log.filterMap (moveOf t)

variable (cfg : DaemonConfig)

/-- No call was told that there is no staging directory when there was one. -/
def StagingSeen (log : Log) : Prop := ∀ t, cfg.staging ∉ denials log t

/-- The call of thread `t` has begun with `R` in the runtime directory, and nobody else has worked on the
pipeline since. Every thread runs one request, so the events of `t` are those of one call. -/
def Began (log : Log) (t : Nat) (R : Option Dir) : Prop :=
  ∃ since before pre post, log = since ++ .did t .lockApply () pre post :: before ∧
    pre.disk.dirs cfg.runtime = R ∧ ∀ e ∈ since, onPipeline e → e.tid = t

/-- `t` has run the nginx test with success while `T` was in the staging directory. -/
def Tested (log : Log) (t : Nat) (T : Dir) : Prop :=
  ∃ text pre post, .did t (.sh (.nginxTest text)) (.ok .success) pre post ∈ log ∧
    pre.disk.dirs cfg.staging = some T

/-- `t` has run the backup command with success. -/
def BackedUp (log : Log) (t : Nat) : Prop :=
  ∃ text archive pre post, .did t (.sh (.tar text archive)) (.ok .success) pre post ∈ log

/-- `t` has switched the runtime directory to `T`. -/
def Switched (log : Log) (t : Nat) (T : Dir) : Prop :=
  ∃ pre post, .did t (.rename cfg.staging cfg.runtime) (.ok ()) pre post ∈ log ∧
    pre.disk.dirs cfg.staging = some T

/-- `t` has reloaded nginx with success after the switch. -/
def Reloaded (log : Log) (t : Nat) : Prop :=
  ∃ text pre post before, .did t (.sh (.reload text)) (.ok .success) pre post :: before <:+ log ∧
    ∃ T, Switched cfg before t T

/-- The apply of `x` has completed. -/
def Applied (log : Log) (x : ControlPlaneState) : Prop :=
  ∃ t hash r pre post before, .did t (.updateStatus (.inSync x.revision hash)) r pre post :: before <:+ log ∧
    Switched cfg before t (renderTree x) ∧ (cfg.dryRun = false → Reloaded cfg before t)

/-- `x` is the state at the start or has been committed since. -/
def Committed (w₀ : World) (log : Log) (x : ControlPlaneState) : Prop :=
  x = w₀.state ∨ ∃ t, (t, x) ∈ commits log

section Mono

variable {cfg} {log log' : Log} {t : Nat} {T : Dir} {x : ControlPlaneState} {w₀ : World}

theorem denialOf_of_ne {e : Event Op.Res World} (h : e.tid ≠ t) : denialOf t e = none := by
  unfold denialOf
  split
  · exact if_neg fun h' => h h'.1
  · rfl

theorem moveOf_of_ne {e : Event Op.Res World} (h : e.tid ≠ t) : moveOf t e = none := by
  unfold moveOf
  split
  · exact if_neg h
  · rfl

/-- What others do is no denial and no move of `t`. -/
theorem denials_append {l : Log} (h : ∀ e ∈ l, e.tid ≠ t) (log : Log) : denials (l ++ log) t = denials log t := by
  rw [denials, List.filterMap_append, List.filterMap_eq_nil_iff.2 fun e he => denialOf_of_ne (h e he)]
  rfl

theorem moves_append {l : Log} (h : ∀ e ∈ l, e.tid ≠ t) (log : Log) : moves (l ++ log) t = moves log t := by
  rw [moves, List.filterMap_append, List.filterMap_eq_nil_iff.2 fun e he => moveOf_of_ne (h e he)]
  rfl

theorem denials_subset (hl : log <:+ log') : denials log t ⊆ denials log' t :=
  (hl.sublist.filterMap _).subset

theorem StagingSeen.of_suffix (h : StagingSeen cfg log') (hl : log <:+ log') : StagingSeen cfg log :=
  fun t ht => h t (denials_subset hl ht)

theorem Hashed.mono (h : Hashed cfg log T) (hl : log <:+ log') : Hashed cfg log' T := by
  obtain ⟨t, pre, post, he⟩ := h
  exact ⟨t, pre, post, hl.subset he⟩

theorem Tested.mono (h : Tested cfg log t T) (hl : log <:+ log') : Tested cfg log' t T := by
  obtain ⟨text, pre, post, he, hT⟩ := h
  exact ⟨text, pre, post, hl.subset he, hT⟩

theorem BackedUp.mono (h : BackedUp log t) (hl : log <:+ log') : BackedUp log' t := by
  obtain ⟨text, archive, pre, post, he⟩ := h
  exact ⟨text, archive, pre, post, hl.subset he⟩

theorem Switched.mono (h : Switched cfg log t T) (hl : log <:+ log') : Switched cfg log' t T := by
  obtain ⟨pre, post, he, hT⟩ := h
  exact ⟨pre, post, hl.subset he, hT⟩

theorem Reloaded.mono (h : Reloaded cfg log t) (hl : log <:+ log') : Reloaded cfg log' t := by
  obtain ⟨text, pre, post, before, he, hT⟩ := h
  exact ⟨text, pre, post, before, he.trans hl, hT⟩

theorem Applied.mono (h : Applied cfg log x) (hl : log <:+ log') : Applied cfg log' x := by
  obtain ⟨t, hash, r, pre, post, before, he, h⟩ := h
  exact ⟨t, hash, r, pre, post, before, he.trans hl, h⟩

theorem Committed.mono (h : Committed w₀ log x) (hl : log <:+ log') : Committed w₀ log' x := by
  rcases h with h | ⟨t, h⟩
  · exact .inl h
  · obtain ⟨r, pre, post, he⟩ := mem_commits.1 h
    exact .inr ⟨t, mem_commits.2 ⟨r, pre, post, hl.subset he⟩⟩

end Mono

/-- What must have happened before the event `e`. -/
structure Gate (w₀ : World) (before : Log) (e : Event Op.Res World) : Prop where
  /-- A tree that the daemon makes appear at the runtime directory was there when the call began, or it was
  tested and backed up in the same call and is the render of a committed state; unless a directory was denied. -/
  appears : ¬ isExternal e → ∀ T, e.post.disk.dirs cfg.runtime = some T →
    e.pre.disk.dirs cfg.runtime ≠ some T → Began cfg before e.tid (some T) ∨ cfg.previous ∈ denials before e.tid ∨
      (cfg.dryRun = false → Tested cfg before e.tid T) ∧ BackedUp before e.tid ∧
        ∃ x, Committed w₀ before x ∧ (T = renderTree x ∨ cfg.staging ∈ denials before e.tid)
  /-- One pipeline at a time. -/
  alone : onPipeline e → e.pre.applyLock = some e.tid ∧ ∃ R, Began cfg before e.tid R
  /-- What is observed changes after the switch and the reload. -/
  moved : e.post.status.observedRevision ≠ e.pre.status.observedRevision ∨
      e.post.status.activeConfigHash ≠ e.pre.status.activeConfigHash →
    (∃ T, Switched cfg before e.tid T) ∧ (cfg.dryRun = false → Reloaded cfg before e.tid)

theorem Gate.of_same {cfg : DaemonConfig} {w₀ : World} {before : Log} {e : Event Op.Res World}
    (hp : ¬ onPipeline e) (hd : ¬ isExternal e → e.post.disk.dirs = e.pre.disk.dirs)
    (ho : e.post.status.observedRevision = e.pre.status.observedRevision)
    (hh : e.post.status.activeConfigHash = e.pre.status.activeConfigHash) : Gate cfg w₀ before e where
  appears he _ hT hne := absurd (hd he ▸ hT) hne
  alone h := absurd h hp
  moved h := h.elim (absurd ho) (absurd hh)

/-- What holds at every moment. -/
structure ApplyInv (gated closed : Prop) (w₀ : World) (s : Moment) : Prop where
  justified : gated → Justified (Gate cfg w₀) s.log
  stored : gated → Committed w₀ s.log s.now.state
  /-- The recorded hash is that of a staging directory with a file in it. -/
  hash : gated → s.now.status.activeConfigHash = w₀.status.activeConfigHash ∨ ∃ tree, Hashed cfg s.log tree ∧
    Dir.collect cfg.stagingDir tree ≠ [] ∧
    s.now.status.activeConfigHash = some (hashDirectory cfg.stagingDir tree)
  applied : gated → StagingSeen cfg s.log → s.now.status.observedRevision = w₀.status.observedRevision ∨
    ∃ x, Applied cfg s.log x ∧ x.revision = s.now.status.observedRevision
  truthful : gated → closed → StagingSeen cfg s.log → s.now.status.syncState = .inSync →
    ∃ x, Committed w₀ s.log x ∧ x.revision = s.now.status.observedRevision ∧
      Dir.SameTree (s.now.disk.dirs cfg.runtime) (some (renderTree x))

/-! ### What the threads owe each other -/

/-- What thread `t` may assume of the others. -/
structure ApplyRely (t : Nat) (s s' : Moment) : Prop where
  log : ∃ l, s'.log = l ++ s.log ∧ (∀ e ∈ l, e.tid ≠ t) ∧
    (s.now.applyLock = some t → ∀ e ∈ l, ¬ onPipeline e)
  applyLock : s'.now.applyLock = some t ↔ s.now.applyLock = some t
  held : s.now.applyLock = some t → s'.now.disk.dirs = s.now.disk.dirs ∧
    s'.now.status.observedRevision = s.now.status.observedRevision ∧
    s'.now.status.activeConfigHash = s.now.status.activeConfigHash ∧
    (s'.now.status.syncState = .inSync → s.now.status.syncState = .inSync)

theorem ApplyRely.refl (t : Nat) (s : Moment) : ApplyRely t s s :=
  ⟨⟨[], rfl, by simp, by simp⟩, Iff.rfl, fun _ => ⟨rfl, rfl, rfl, id⟩⟩

theorem ApplyRely.trans {t : Nat} {s s' s'' : Moment} (h : ApplyRely t s s') (h' : ApplyRely t s' s'') :
    ApplyRely t s s'' where
  log := by
    obtain ⟨l, hl, ht, hp⟩ := h.log
    obtain ⟨l', hl', ht', hp'⟩ := h'.log
    refine ⟨l' ++ l, by rw [hl', hl, List.append_assoc], fun e he => ?_, fun hlock e he => ?_⟩
    · exact (List.mem_append.1 he).elim (ht' e) (ht e)
    · exact (List.mem_append.1 he).elim (hp' (h.applyLock.2 hlock) e) (hp hlock e)
  applyLock := h'.applyLock.trans h.applyLock
  held hlock := by
    obtain ⟨hd, ho, hh, hs⟩ := h.held hlock
    obtain ⟨hd', ho', hh', hs'⟩ := h'.held (h.applyLock.2 hlock)
    exact ⟨hd'.trans hd, ho'.trans ho, hh'.trans hh, fun h => hs (hs' h)⟩

/-- What a step of thread `t` owes to the holder of the apply lock. -/
structure ApplyOwed (t : Nat) (w w' : World) : Prop where
  applyLock : LockStep t w.applyLock w'.applyLock
  held : ∀ u, u ≠ t → w.applyLock = some u → w'.disk.dirs = w.disk.dirs ∧
    w'.status.observedRevision = w.status.observedRevision ∧
    w'.status.activeConfigHash = w.status.activeConfigHash ∧
    (w'.status.syncState = .inSync → w.status.syncState = .inSync)

theorem ApplyOwed.rely {t u : Nat} {s s' : Moment} {e : Event Op.Res World} (h : ApplyOwed t s.now s'.now)
    (hlog : s'.log = e :: s.log) (he : e.tid = t) (hp : onPipeline e → s.now.applyLock = some t) (hu : u ≠ t) :
    ApplyRely u s s' where
  log := by
    refine ⟨[e], hlog, fun e' he' => ?_, fun hl e' he' hp' => ?_⟩
    · rw [List.mem_singleton.1 he', he]; exact Ne.symm hu
    · rw [List.mem_singleton.1 he'] at hp'
      exact hu (Option.some.inj (hl.symm.trans (hp hp')))
  applyLock := h.applyLock.iff hu
  held := h.held u hu

theorem Op.OnPipeline.onDirs {o : Op} (h : o.OnPipeline) : o.OnDirs := by
  cases o <;> first | exact trivial | exact h.elim

/-- A step that leaves the directories and what is observed alone. -/
structure Aside (w w' : World) : Prop where
  dirs : w'.disk.dirs = w.disk.dirs
  observed : w'.status.observedRevision = w.status.observedRevision
  hash : w'.status.activeConfigHash = w.status.activeConfigHash
  sync : w'.status.syncState = .inSync → w.status.syncState = .inSync

theorem Aside.trans {w w' w'' : World} (h : Aside w w') (h' : Aside w' w'') : Aside w w'' :=
  ⟨h'.dirs.trans h.dirs, h'.observed.trans h.observed, h'.hash.trans h.hash,
    fun hs => h.sync (h'.sync hs)⟩

theorem Aside.owed {t : Nat} {w w' : World} (h : Aside w w') (hl : LockStep t w.applyLock w'.applyLock) :
    ApplyOwed t w w' :=
  ⟨hl, fun _ _ _ => ⟨h.dirs, h.observed, h.hash, h.sync⟩⟩

/-- The operations that have nothing to do with applying. -/
def Op.IsAside : Op → Prop
  | lockState | unlockState | readState | writeState _ | readStatus | now | stateFileExists | readStateFile
  | createStateDir | writeStateTmp _ | renameStateTmp | .exists _ | readTree _ | runJob => True
  | updateStatus (.inSync ..) => False
  | updateStatus _ => True
  | _ => False

theorem renameTmp_dirs (d : Disk) : d.renameTmp.2.dirs = d.dirs := by
  unfold Disk.renameTmp; split <;> rfl

theorem aside_io {w : World} {c : Choice} {f : Disk → Except String Unit × Disk} {g : Fault → Disk → Disk}
    (hf : (f w.disk).2.dirs = w.disk.dirs) (hg : ∀ x, (g x w.disk).dirs = w.disk.dirs) :
    Aside w (w.io c f g).2 ∧ (w.io c f g).2.applyLock = w.applyLock := by
  unfold World.io
  split
  · exact ⟨⟨hg _, rfl, rfl, id⟩, rfl⟩
  · exact ⟨⟨hf, rfl, rfl, id⟩, rfl⟩

theorem aside_runJob {w w' : World} {c : Choice} (h : w.runJob c = some w') :
    Aside w w' ∧ w'.applyLock = w.applyLock := by
  unfold World.runJob at h
  split at h
  · cases h
  · have hjobs : Aside w { w with jobs := w.jobs.eraseIdx c.pick } := ⟨rfl, rfl, rfl, id⟩
    dsimp only at h
    split at h
    · obtain rfl := Option.some.inj h
      exact And.imp_left hjobs.trans (aside_io rfl fun _ => rfl)
    · obtain rfl := Option.some.inj h
      exact And.imp_left hjobs.trans (aside_io (renameTmp_dirs _) fun _ => rfl)

theorem aside_of_exec {t : Nat} {o : Op} {c : Choice} {w w' : World} {r : o.Res} (ho : o.IsAside)
    (h : o.exec t c w = some (r, w')) : Aside w w' ∧ w'.applyLock = w.applyLock := by
  have same : Aside w w := ⟨rfl, rfl, rfl, id⟩
  cases o <;> first | exact ho.elim | skip
  case lockState | readState =>
    simp only [Op.exec] at h
    split at h <;> cases h
    exact ⟨⟨rfl, rfl, rfl, id⟩, rfl⟩
  case readStateFile | readTree =>
    simp only [Op.exec] at h
    split at h <;> cases h <;> exact ⟨same, rfl⟩
  case updateStatus u =>
    cases h
    cases u with
    | inSync => exact ho.elim
    | pendingApply | applying | degraded | outOfSync => exact ⟨⟨rfl, rfl, rfl, fun h => by cases h⟩, rfl⟩
  case createStateDir | writeStateTmp =>
    have hw' := congrArg Prod.snd (Option.some.inj h)
    dsimp only at hw'
    rw [← hw']
    exact aside_io rfl fun _ => rfl
  case renameStateTmp =>
    have hw' := congrArg Prod.snd (Option.some.inj h)
    dsimp only at hw'
    rw [← hw']
    exact aside_io (renameTmp_dirs _) fun _ => rfl
  case runJob =>
    obtain ⟨w₁, hw, h⟩ := Option.map_eq_some_iff.1 h
    cases h
    exact aside_runJob hw
  all_goals cases h; exact ⟨⟨rfl, rfl, rfl, id⟩, rfl⟩

/-- Only `*state_guard = draft.clone()` changes the stored state. -/
theorem state_of_exec {t : Nat} {o : Op} {c : Choice} {w w' : World} {r : o.Res}
    (h : o.exec t c w = some (r, w')) : w'.state = w.state ∨ o = .writeState w'.state := by
  by_cases ho : o.OnDirs
  · exact .inl (quiet_of_onDirs ho h).1.state
  cases o <;> first | exact absurd trivial ho | skip
  case writeState x => cases h; exact .inr rfl
  case lockState | readState | lockApply | externalEdit =>
    simp only [Op.exec] at h
    split at h <;> cases h
    exact .inl rfl
  case readStateFile =>
    simp only [Op.exec] at h
    split at h <;> cases h <;> exact .inl rfl
  case createStateDir | writeStateTmp | renameStateTmp =>
    obtain ⟨d, rfl⟩ := io_memory (Option.some.inj h)
    exact .inl rfl
  case runJob =>
    obtain ⟨w₁, hw, h⟩ := Option.map_eq_some_iff.1 h
    cases h
    obtain ⟨d, rfl⟩ := runJob_memory hw
    exact .inl rfl
  all_goals cases h; exact .inl rfl

section Preservation

variable {cfg} {gated closed : Prop} {w₀ : World} {s s' : Moment} {e : Event Op.Res World}

theorem suffix_of_cons (hlog : s'.log = e :: s.log) : s.log <:+ s'.log :=
  hlog ▸ List.suffix_cons e s.log

theorem ApplyInv.step (h : ApplyInv cfg gated closed w₀ s) (hlog : s'.log = e :: s.log)
    (hgate : gated → Gate cfg w₀ s.log e) (hstate : gated → Committed w₀ s'.log s'.now.state)
    (ho : s'.now.status.observedRevision = s.now.status.observedRevision)
    (hh : s'.now.status.activeConfigHash = s.now.status.activeConfigHash)
    (htrue : closed → s'.now.status.syncState = .inSync → s.now.status.syncState = .inSync ∧
      s'.now.disk.dirs cfg.runtime = s.now.disk.dirs cfg.runtime) : ApplyInv cfg gated closed w₀ s' where
  justified hg := hlog ▸ ⟨hgate hg, h.justified hg⟩
  stored := hstate
  hash hg := by
    rw [hh]
    rcases h.hash hg with h | ⟨tree, hread, h⟩
    · exact .inl h
    · exact .inr ⟨tree, hread.mono (suffix_of_cons hlog), h⟩
  applied hg hseen := by
    rw [ho]
    rcases h.applied hg (hseen.of_suffix (suffix_of_cons hlog)) with h | ⟨x, hx, h⟩
    · exact .inl h
    · exact .inr ⟨x, hx.mono (suffix_of_cons hlog), h⟩
  truthful hg hc hseen hs := by
    obtain ⟨hs, hd⟩ := htrue hc hs
    obtain ⟨x, hx, hr, ht⟩ := h.truthful hg hc (hseen.of_suffix (suffix_of_cons hlog)) hs
    exact ⟨x, hx.mono (suffix_of_cons hlog), by rw [ho, hr], by rw [hd]; exact ht⟩

theorem ApplyInv.stored_of_same (h : ApplyInv cfg gated closed w₀ s) (hlog : s'.log = e :: s.log)
    (hstate : s'.now.state = s.now.state) : gated → Committed w₀ s'.log s'.now.state :=
  fun hg => by rw [hstate]; exact (h.stored hg).mono (suffix_of_cons hlog)

theorem ApplyInv.aside (h : ApplyInv cfg gated closed w₀ s) (hlog : s'.log = e :: s.log) (hpre : e.pre = s.now)
    (hpost : e.post = s'.now) (hp : ¬ onPipeline e) (ha : Aside s.now s'.now)
    (hstate : gated → Committed w₀ s'.log s'.now.state) : ApplyInv cfg gated closed w₀ s' := by
  have hgate : Gate cfg w₀ s.log e := by
    refine .of_same hp (fun _ => ?_) ?_ ?_ <;> rw [hpre, hpost]
    · exact ha.dirs
    · exact ha.observed
    · exact ha.hash
  exact h.step hlog (fun _ => hgate) hstate ha.observed ha.hash fun _ hs => ⟨ha.sync hs, by rw [ha.dirs]⟩

end Preservation

end NginxAdmin.Daemon
