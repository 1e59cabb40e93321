import NginxAdmin.Daemon.Service
import NginxAdmin.Daemon.Rules

/-!
# The invariant of the state store

`StoreInv` relates the stored state, the status and `state.json` to the history: the stored revision
counts the commits, the commits are in the order of their revisions, the revision cursor is ordered,
and `state.json` holds the stored state whenever nobody holds the state lock.

`Owed t w w'` is what a step of thread `t` owes to the other threads as far as the store is concerned;
`Owed.rely` turns it into what each of them relies on.
-/

namespace NginxAdmin.Daemon

/-- The commit that an event is: the assignment of a new state by `put_state`. -/
def commitOf : Event Op.Res World → Option (Nat × ControlPlaneState)
  | .did t (.writeState s) _ _ _ => some (t, s)
  | _ => none

/-- The commits, oldest first: who committed what. -/
def commits (log : Log) : List (Nat × ControlPlaneState) := (log.filterMap commitOf).reverse

def committers (log : Log) : List Nat := (commits log).map Prod.fst

/-- Whose `put_state` an event publishes in the status. -/
def publisherOf : Event Op.Res World → Option Nat
  | .did t (.updateStatus (.pendingApply _)) _ _ _ => some t
  | _ => none

def publishers (log : Log) : List Nat := log.filterMap publisherOf

/-- A `put_state` has stored its draft and has not yet written the status. -/
def Publishing (s : Moment) : Prop :=
  ∃ t, s.now.stateLock = some t ∧ t ∈ committers s.log ∧ t ∉ publishers s.log

/-- An event that changes neither the stored state nor the status nor `state.json`. -/
def Neutral (e : Event Op.Res World) : Prop :=
  e.post.state = e.pre.state ∧ e.post.status = e.pre.status ∧
    e.post.disk.stateJson = e.pre.disk.stateJson

/-- No write of the temporary file by a dropped request is in flight. -/
def Calm (jobs : List Job) : Prop := ∀ payload, Job.writeTmp payload ∉ jobs

/-- `state.json` holds the state `x`. -/
def Holds (serde : Serde) (w : World) (x : ControlPlaneState) : Prop :=
  ∃ raw, w.disk.stateJson = some raw ∧ serde.fromStr raw = .ok x

theorem commits_cons (e : Event Op.Res World) (log : Log) :
    commits (e :: log) = commits log ++ (commitOf e).toList := by
  cases h : commitOf e <;> simp [commits, h]

theorem mem_commits {log : Log} {t : Nat} {x : ControlPlaneState} :
    (t, x) ∈ commits log ↔ ∃ r pre post, Event.did t (.writeState x) r pre post ∈ log := by
  simp only [commits, List.mem_reverse, List.mem_filterMap]
  constructor
  · rintro ⟨e, he, h⟩
    unfold commitOf at h
    split at h
    · cases h; exact ⟨_, _, _, he⟩
    · cases h
  · rintro ⟨r, pre, post, he⟩
    exact ⟨_, he, rfl⟩

theorem mem_committers {log : Log} {t : Nat} : t ∈ committers log ↔ ∃ x, (t, x) ∈ commits log := by
  simp [committers]

theorem mem_publishers {log : Log} {t : Nat} :
    t ∈ publishers log ↔
      ∃ rev r pre post, Event.did t (.updateStatus (.pendingApply rev)) r pre post ∈ log := by
  simp only [publishers, List.mem_filterMap]
  constructor
  · rintro ⟨e, he, h⟩
    unfold publisherOf at h
    split at h
    · cases h; exact ⟨_, _, _, _, he⟩
    · cases h
  · rintro ⟨rev, r, pre, post, he⟩
    exact ⟨_, he, rfl⟩

/-- What thread `t` may assume of the others. -/
structure StoreRely (t : Nat) (s s' : Moment) : Prop where
  /-- The events of `t` are its own. -/
  mine : ∀ e, e.tid = t → (e ∈ s'.log ↔ e ∈ s.log)
  stateLock : s'.now.stateLock = some t ↔ s.now.stateLock = some t
  applyLock : s'.now.applyLock = some t ↔ s.now.applyLock = some t
  /-- The state lock protects the state and `state.json`, and the temporary file when the blocking
  pool has no write left. -/
  held : s.now.stateLock = some t → s'.now.state = s.now.state ∧
    s'.now.disk.stateJson = s.now.disk.stateJson ∧
    (Calm s.now.jobs → Calm s'.now.jobs ∧ s'.now.disk.stateTmp = s.now.disk.stateTmp)
  applied : s.now.applyLock = some t →
    s'.now.status.observedRevision = s.now.status.observedRevision
  revision_le : s.now.state.revision ≤ s'.now.state.revision
  observed_le : s.now.status.observedRevision ≤ s'.now.status.observedRevision

theorem StoreRely.refl (t : Nat) (s : Moment) : StoreRely t s s :=
  ⟨fun _ _ => Iff.rfl, Iff.rfl, Iff.rfl, fun _ => ⟨rfl, rfl, fun h => ⟨h, rfl⟩⟩, fun _ => rfl,
    UInt64.le_refl _, UInt64.le_refl _⟩

theorem StoreRely.trans {t : Nat} {s s' s'' : Moment} (h : StoreRely t s s') (h' : StoreRely t s' s'') :
    StoreRely t s s'' where
  mine e he := (h'.mine e he).trans (h.mine e he)
  stateLock := h'.stateLock.trans h.stateLock
  applyLock := h'.applyLock.trans h.applyLock
  held hl := by
    obtain ⟨h1, h2, h3⟩ := h.held hl
    obtain ⟨h1', h2', h3'⟩ := h'.held (h.stateLock.2 hl)
    exact ⟨h1'.trans h1, h2'.trans h2, fun hc => ⟨(h3' (h3 hc).1).1, (h3' (h3 hc).1).2.trans (h3 hc).2⟩⟩
  applied hl := (h'.applied (h.applyLock.2 hl)).trans (h.applied hl)
  revision_le := UInt64.le_trans h.revision_le h'.revision_le
  observed_le := UInt64.le_trans h.observed_le h'.observed_le

/-- A lock after a step of thread `t`: unchanged, acquired by `t` or released by `t`. -/
def LockStep (t : Nat) (l l' : Option Nat) : Prop :=
  l' = l ∨ (l = none ∧ l' = some t) ∨ (l = some t ∧ l' = none)

theorem LockStep.iff {t u : Nat} {l l' : Option Nat} (h : LockStep t l l') (hu : u ≠ t) :
    l' = some u ↔ l = some u := by
  have hut : some t ≠ some u := fun e => hu (Option.some.inj e).symm
  rcases h with rfl | ⟨rfl, rfl⟩ | ⟨rfl, rfl⟩ <;> simp [hut]

/-- What a step of thread `t` owes to the other threads. -/
structure Owed (t : Nat) (w w' : World) : Prop where
  stateLock : LockStep t w.stateLock w'.stateLock
  applyLock : LockStep t w.applyLock w'.applyLock
  held : w.stateLock ≠ some t → w'.state = w.state ∧ w'.disk.stateJson = w.disk.stateJson ∧
    (Calm w.jobs → Calm w'.jobs ∧ w'.disk.stateTmp = w.disk.stateTmp)
  applied : w.applyLock ≠ some t → w'.status.observedRevision = w.status.observedRevision
  revision_le : w.state.revision ≤ w'.state.revision
  observed_le : w.status.observedRevision ≤ w'.status.observedRevision

theorem Owed.rely {t u : Nat} {s s' : Moment} {e : Event Op.Res World} (h : Owed t s.now s'.now)
    (hlog : s'.log = e :: s.log) (he : e.tid = t) (hu : u ≠ t) : StoreRely u s s' where
  mine e' he' := by
    have : e' ≠ e := fun h => hu (by rw [← he', h, he])
    rw [hlog, List.mem_cons]
    exact or_iff_right this
  stateLock := h.stateLock.iff hu
  applyLock := h.applyLock.iff hu
  held hl := h.held (by rw [hl]; exact fun e => hu (Option.some.inj e))
  applied hl := h.applied (by rw [hl]; exact fun e => hu (Option.some.inj e))
  revision_le := h.revision_le
  observed_le := h.observed_le

/-- What thread `t` has to have for its step `o` from `w` to `w'` to be harmless to the others: the lock
of what it writes; a job of a dropped request must not rename, and a draft or a mark must not go back. -/
def Op.Entitled (t : Nat) (w w' : World) : Op → Prop
  | unlockState | writeStateTmp _ | renameStateTmp => w.stateLock = some t
  | writeState x => w.stateLock = some t ∧ w.state.revision ≤ x.revision
  | unlockApply => w.applyLock = some t
  | updateStatus (.inSync rev _) => w.applyLock = some t ∧ w.status.observedRevision ≤ rev
  | runJob => w'.disk.stateJson = w.disk.stateJson ∧ (Calm w.jobs → w'.disk.stateTmp = w.disk.stateTmp)
  | _ => True

/-- The part of the world that the store is about does not change. -/
structure Quiet (w w' : World) : Prop where
  state : w'.state = w.state
  status : w'.status = w.status
  stateLock : w'.stateLock = w.stateLock
  stateJson : w'.disk.stateJson = w.disk.stateJson
  stateTmp : w'.disk.stateTmp = w.disk.stateTmp
  jobs : w'.jobs = w.jobs

theorem Quiet.owed {t : Nat} {w w' : World} (h : Quiet w w') (hl : LockStep t w.applyLock w'.applyLock) :
    Owed t w w' where
  stateLock := .inl h.stateLock
  applyLock := hl
  held _ := ⟨h.state, h.stateJson, fun hc => ⟨h.jobs ▸ hc, h.stateTmp⟩⟩
  applied _ := by rw [h.status]
  revision_le := by rw [h.state]; exact UInt64.le_refl _
  observed_le := by rw [h.status]; exact UInt64.le_refl _

/-- The operations of the pipeline: they concern the directories only. -/
def Op.OnDirs : Op → Prop
  | now | .exists _ | readTree _ | createParentOf _ | createDirAll .. | removeDirAll _ | writeFile ..
  | rename .. | createBackupsDir | sh _ => True
  | _ => False

theorem io_quiet {w w' : World} {c : Choice} {r : Except String Unit} {f : Disk → Except String Unit × Disk}
    {g : Fault → Disk → Disk} (h : w.io c f g = (r, w'))
    (hf : (f w.disk).2.stateJson = w.disk.stateJson ∧ (f w.disk).2.stateTmp = w.disk.stateTmp)
    (hg : ∀ x, (g x w.disk).stateJson = w.disk.stateJson ∧ (g x w.disk).stateTmp = w.disk.stateTmp) :
    Quiet w w' ∧ w'.applyLock = w.applyLock := by
  unfold World.io at h
  split at h <;> cases h
  · exact ⟨⟨rfl, rfl, rfl, (hg _).1, (hg _).2, rfl⟩, rfl⟩
  · exact ⟨⟨rfl, rfl, rfl, hf.1, hf.2, rfl⟩, rfl⟩

theorem modifyDir_files (d : Disk) (l : Location) (f : Dir → Option Dir) :
    (d.modifyDir l f).2.stateJson = d.stateJson ∧ (d.modifyDir l f).2.stateTmp = d.stateTmp := by
  unfold Disk.modifyDir; split <;> exact ⟨rfl, rfl⟩

theorem rename_files (d : Disk) (l l' : Location) :
    (d.rename l l').2.stateJson = d.stateJson ∧ (d.rename l l').2.stateTmp = d.stateTmp := by
  unfold Disk.rename
  split
  · exact ⟨rfl, rfl⟩
  · split
    · exact ⟨rfl, rfl⟩
    · split <;> exact ⟨rfl, rfl⟩

theorem quiet_of_onDirs {t : Nat} {o : Op} {c : Choice} {w w' : World} {r : o.Res} (ho : o.OnDirs)
    (h : o.exec t c w = some (r, w')) : Quiet w w' ∧ w'.applyLock = w.applyLock := by
  have same : Quiet w w ∧ w.applyLock = w.applyLock := ⟨⟨rfl, rfl, rfl, rfl, rfl, rfl⟩, rfl⟩
  cases o <;> simp only [Op.OnDirs] at ho <;> simp only [Op.exec] at h
  case now => cases h; exact same
  case «exists» => cases h; exact same
  case readTree => split at h <;> cases h <;> exact same
  case createParentOf => exact io_quiet (Option.some.inj h) ⟨rfl, rfl⟩ fun _ => ⟨rfl, rfl⟩
  case createDirAll => exact io_quiet (Option.some.inj h) (modifyDir_files ..) fun _ => ⟨rfl, rfl⟩
  case removeDirAll =>
    refine io_quiet (Option.some.inj h) ?_ fun _ => ⟨rfl, rfl⟩
    split <;> exact ⟨rfl, rfl⟩
  case writeFile => exact io_quiet (Option.some.inj h) (modifyDir_files ..) fun _ => ⟨rfl, rfl⟩
  case rename => exact io_quiet (Option.some.inj h) (rename_files ..) fun _ => ⟨rfl, rfl⟩
  case createBackupsDir => exact io_quiet (Option.some.inj h) ⟨rfl, rfl⟩ fun _ => ⟨rfl, rfl⟩
  case sh command =>
    split at h
    · cases h; cases command <;> exact ⟨⟨rfl, rfl, rfl, rfl, rfl, rfl⟩, rfl⟩
    · split at h
      · cases h; exact same
      · cases h; cases command <;> exact ⟨⟨rfl, rfl, rfl, rfl, rfl, rfl⟩, rfl⟩

/-- Without faults, the operations of the pipeline never wait. -/
theorem onDirs_enabled {o : Op} (ho : o.OnDirs) (t : Nat) (s : Moment) :
    ∃ r s', (machine.machineOn Faultless).step t o s r s' ∧ s'.now.stateLock = s.now.stateLock := by
  obtain ⟨⟨r, w'⟩, hexec⟩ : ∃ a, o.exec t ⟨0, none, 0⟩ s.now = some a := by
    cases o <;> first | exact ho.elim | exact ⟨_, rfl⟩ | skip
    case readTree l =>
      cases hl : s.now.disk.dirs l with
      | none => exact ⟨_, by simp only [Op.exec, hl]; rfl⟩
      | some tree => exact ⟨_, by simp only [Op.exec, hl]; rfl⟩
  exact ⟨r, ⟨w', .did t o r s.now w' :: s.log⟩, Exec.traced_step.2 ⟨⟨⟨0, none, 0⟩, rfl, hexec⟩, rfl⟩,
    (quiet_of_onDirs ho hexec).1.stateLock⟩

theorem quiet_of_externalEdit {t : Nat} {l : Location} {content : Option Dir} {c : Choice} {w w' : World}
    {r : Unit} (h : (Op.externalEdit l content).exec t c w = some (r, w')) : Quiet w w' ∧ w'.applyLock = w.applyLock := by
  simp only [Op.exec] at h
  split at h <;> cases h
  exact ⟨⟨rfl, rfl, rfl, rfl, rfl, rfl⟩, rfl⟩

/-- An operation on the files of the state: everything but the disk is as before. -/
theorem io_memory {w w' : World} {c : Choice} {r : Except String Unit} {f : Disk → Except String Unit × Disk}
    {g : Fault → Disk → Disk} (h : w.io c f g = (r, w')) : ∃ d, w' = { w with disk := d } := by
  unfold World.io at h
  split at h <;> cases h <;> exact ⟨_, rfl⟩

theorem owed_of_status {t : Nat} {w : World} {st : RuntimeStatus}
    (h : st.observedRevision = w.status.observedRevision ∨
      w.applyLock = some t ∧ w.status.observedRevision ≤ st.observedRevision) :
    Owed t w { w with status := st } where
  stateLock := .inl rfl
  applyLock := .inl rfl
  held _ := ⟨rfl, rfl, fun hc => ⟨hc, rfl⟩⟩
  applied hl := h.elim id fun h => absurd h.1 hl
  revision_le := UInt64.le_refl _
  observed_le := h.elim (fun h => h ▸ UInt64.le_refl _) And.right

theorem Calm.eraseIdx {jobs : List Job} (h : Calm jobs) (i : Nat) : Calm (jobs.eraseIdx i) :=
  fun p hp => h p (List.mem_of_mem_eraseIdx hp)

theorem runJob_memory {w w' : World} {c : Choice} (h : w.runJob c = some w') :
    ∃ d, w' = { w with jobs := w.jobs.eraseIdx c.pick, disk := d } := by
  unfold World.runJob at h
  split at h
  · cases h
  · dsimp only at h
    split at h <;> cases h <;> exact io_memory (Prod.eta _).symm

/-- One lemma for all operations: an entitled step owes nothing. -/
theorem owed_of_exec {t : Nat} {o : Op} {c : Choice} {w w' : World} {r : o.Res}
    (h : o.exec t c w = some (r, w')) (hent : o.Entitled t w w') : Owed t w w' := by
  have same : Owed t w w :=
    Quiet.owed ⟨rfl, rfl, rfl, rfl, rfl, rfl⟩ (.inl rfl)
  -- a step of the holder of the state lock that leaves the memory alone
  have holder : ∀ d, w.stateLock = some t → Owed t w { w with disk := d } := fun d hl =>
    ⟨.inl rfl, .inl rfl, fun hn => absurd hl hn, fun _ => rfl, UInt64.le_refl _, UInt64.le_refl _⟩
  by_cases ho : o.OnDirs
  · obtain ⟨hq, hl⟩ := quiet_of_onDirs ho h
    exact hq.owed (.inl hl)
  cases o <;> first | exact absurd trivial ho | skip
  case lockState =>
    simp only [Op.exec] at h
    split at h
    · rename_i hl
      cases h
      exact ⟨.inr (.inl ⟨hl, rfl⟩), .inl rfl, fun _ => ⟨rfl, rfl, fun hc => ⟨hc, rfl⟩⟩, fun _ => rfl,
        UInt64.le_refl _, UInt64.le_refl _⟩
    · cases h
  case unlockState =>
    cases h
    exact ⟨.inr (.inr ⟨hent, rfl⟩), .inl rfl, fun _ => ⟨rfl, rfl, fun hc => ⟨hc, rfl⟩⟩, fun _ => rfl,
      UInt64.le_refl _, UInt64.le_refl _⟩
  case readState =>
    simp only [Op.exec] at h
    split at h <;> cases h
    exact same
  case writeState x =>
    cases h
    exact ⟨.inl rfl, .inl rfl, fun hn => absurd hent.1 hn, fun _ => rfl, hent.2, UInt64.le_refl _⟩
  case readStatus => cases h; exact same
  case updateStatus u =>
    cases h
    cases u with
    | inSync rev hash => exact owed_of_status (.inr hent)
    | pendingApply | applying | degraded | outOfSync => exact owed_of_status (.inl rfl)
  case lockApply =>
    simp only [Op.exec] at h
    split at h
    · rename_i hl
      cases h
      exact Quiet.owed ⟨rfl, rfl, rfl, rfl, rfl, rfl⟩ (.inr (.inl ⟨hl, rfl⟩))
    · cases h
  case unlockApply =>
    cases h
    exact Quiet.owed ⟨rfl, rfl, rfl, rfl, rfl, rfl⟩ (.inr (.inr ⟨hent, rfl⟩))
  case stateFileExists => cases h; exact same
  case readStateFile =>
    simp only [Op.exec] at h
    split at h <;> cases h <;> exact same
  case createStateDir =>
    obtain ⟨hq, hl⟩ := io_quiet (Option.some.inj h) ⟨rfl, rfl⟩ fun _ => ⟨rfl, rfl⟩
    exact hq.owed (.inl hl)
  case externalEdit =>
    obtain ⟨hq, hl⟩ := quiet_of_externalEdit h
    exact hq.owed (.inl hl)
  case writeStateTmp =>
    obtain ⟨d, rfl⟩ := io_memory (Option.some.inj h)
    exact holder d hent
  case renameStateTmp =>
    obtain ⟨d, rfl⟩ := io_memory (Option.some.inj h)
    exact holder d hent
  case runJob =>
    obtain ⟨w₁, hw, h⟩ := Option.map_eq_some_iff.1 h
    cases h
    obtain ⟨d, rfl⟩ := runJob_memory hw
    exact ⟨.inl rfl, .inl rfl, fun _ => ⟨rfl, hent.1, fun hc => ⟨hc.eraseIdx _, hent.2 hc⟩⟩, fun _ => rfl,
      UInt64.le_refl _, UInt64.le_refl _⟩

theorem release_stateLock (w : World) (t : Nat) : LockStep t w.stateLock (w.release t).stateLock := by
  by_cases h : w.stateLock = some t
  · exact .inr (.inr ⟨h, by simp [World.release, h]⟩)
  · exact .inl (by simp [World.release, h])

theorem release_applyLock (w : World) (t : Nat) : LockStep t w.applyLock (w.release t).applyLock := by
  by_cases h : w.applyLock = some t
  · exact .inr (.inr ⟨h, by simp [World.release, h]⟩)
  · exact .inl (by simp [World.release, h])

/-- What a dropped future leaves behind: its locks are released, and its file operation is handed on. -/
theorem cancel_cases {t : Nat} {o : Op} {w w' : World} (h : o.cancel t w = some w') :
    w' = w.release t ∨
      ∃ jobs, ((∃ p, o = .writeStateTmp p) ∨ o = .renameStateTmp) ∧ w' = { w.release t with jobs := jobs } := by
  cases o <;> first | cases h; exact .inl rfl | cases h
  case writeStateTmp p => exact .inr ⟨_, .inl ⟨p, rfl⟩, rfl⟩
  case renameStateTmp => exact .inr ⟨_, .inr rfl, rfl⟩

theorem owed_of_cancel {t : Nat} {o : Op} {w w' : World} (h : o.cancel t w = some w')
    (hent : o.Entitled t w w') : Owed t w w' := by
  rcases cancel_cases h with rfl | ⟨jobs, ho, rfl⟩
  · exact ⟨release_stateLock w t, release_applyLock w t, fun _ => ⟨rfl, rfl, fun hc => ⟨hc, rfl⟩⟩, fun _ => rfl,
      UInt64.le_refl _, UInt64.le_refl _⟩
  · have hl : w.stateLock = some t := by
      rcases ho with ⟨p, rfl⟩ | rfl <;> exact hent
    exact ⟨release_stateLock w t, release_applyLock w t, fun hn => absurd hl hn, fun _ => rfl,
      UInt64.le_refl _, UInt64.le_refl _⟩

/-! ### The invariant -/

/-- `r₀` is the revision at the start, `reqs` are the requests. With `fresh`, the runs are those in which
`mark_in_sync` never overwrites the status of a newer revision. -/
structure StoreInv (serde : Serde) (reqs : List Request) (r₀ : Nat) (fresh : Prop) (s : Moment) : Prop where
  revision : s.now.state.revision.toNat = r₀ + (commits s.log).length
  /-- The `i`-th commit is a `put_state` that expected revision `r₀ + i`. -/
  order : ∀ i c, (commits s.log)[i]? = some c → ∃ expected draft,
    reqs[c.1]? = some (.putState expected draft) ∧ expected.toNat = r₀ + i ∧ c.2.revision.toNat = r₀ + i + 1
  once : (committers s.log).Nodup
  /-- Whoever changes the state puts its draft on top of the state that it expected. -/
  seen : ∀ e ∈ s.log, e.post.state = e.pre.state ∨ ∃ expected draft now,
    reqs[e.tid]? = some (.putState expected draft) ∧ e.pre.state.revision = expected ∧
      e.post.state = commitDraft e.pre.state draft now
  observed_le : s.now.status.observedRevision ≤ s.now.status.desiredRevision
  desired_le : s.now.status.desiredRevision ≤ s.now.state.revision
  file : s.now.stateLock = none → Holds serde s.now s.now.state
  synced : fresh → ¬ Publishing s → s.now.status.desiredRevision = s.now.state.revision ∧
    (s.now.status.syncState = .inSync → s.now.status.observedRevision = s.now.state.revision)

section Preservation

variable {serde : Serde} {reqs : List Request} {r₀ : Nat} {fresh : Prop} {s s' : Moment}
  {e : Event Op.Res World}

theorem commits_eq (hlog : s'.log = e :: s.log) (he : commitOf e = none) : commits s'.log = commits s.log := by
  rw [hlog, commits_cons, he]; exact List.append_nil _

theorem publishers_eq (hlog : s'.log = e :: s.log) (he : publisherOf e = none) :
    publishers s'.log = publishers s.log := by
  rw [hlog, publishers, List.filterMap_cons, he]; rfl

theorem StoreInv.of_same (h : StoreInv serde reqs r₀ fresh s) (hlog : s'.log = e :: s.log)
    (hc : commitOf e = none) (he : e.post.state = e.pre.state) (hstate : s'.now.state = s.now.state)
    (hstatus : s'.now.status = s.now.status)
    (hfile : s'.now.stateLock = none → Holds serde s'.now s'.now.state)
    (hpub : Publishing s → Publishing s') : StoreInv serde reqs r₀ fresh s' where
  revision := by rw [hstate, commits_eq hlog hc]; exact h.revision
  order := by rw [commits_eq hlog hc]; exact h.order
  once := by rw [committers, commits_eq hlog hc]; exact h.once
  seen e' hm := by
    rw [hlog, List.mem_cons] at hm
    rcases hm with rfl | hm
    · exact .inl he
    · exact h.seen e' hm
  observed_le := by rw [hstatus]; exact h.observed_le
  desired_le := by rw [hstate, hstatus]; exact h.desired_le
  file := hfile
  synced hf hp := by rw [hstate, hstatus]; exact h.synced hf (mt hpub hp)

theorem publishing_of_same (hlog : s'.log = e :: s.log) (hc : commitOf e = none) (hp : publisherOf e = none)
    (hl : s.now.stateLock ≠ none → s'.now.stateLock = s.now.stateLock) (h : Publishing s) : Publishing s' := by
  obtain ⟨t, ht, hm, hn⟩ := h
  refine ⟨t, by rw [hl (by simp [ht]), ht], ?_, ?_⟩
  · rwa [committers, commits_eq hlog hc]
  · rwa [publishers_eq hlog hp]

theorem StoreInv.of_status (h : StoreInv serde reqs r₀ fresh s) (hlog : s'.log = e :: s.log)
    (hc : commitOf e = none) (he : e.post.state = e.pre.state) {st : RuntimeStatus}
    (hnow : s'.now = { s.now with status := st }) (ho : st.observedRevision ≤ st.desiredRevision) (hd : st.desiredRevision ≤ s.now.state.revision)
    (hsync : fresh → ¬ Publishing s' → st.desiredRevision = s.now.state.revision ∧
      (st.syncState = .inSync → st.observedRevision = s.now.state.revision)) :
    StoreInv serde reqs r₀ fresh s' where
  revision := by rw [hnow, commits_eq hlog hc]; exact h.revision
  order := by rw [commits_eq hlog hc]; exact h.order
  once := by rw [committers, commits_eq hlog hc]; exact h.once
  seen e' hm := by
    rw [hlog, List.mem_cons] at hm
    rcases hm with rfl | hm
    · exact .inl he
    · exact h.seen e' hm
  observed_le := by rw [hnow]; exact ho
  desired_le := by rw [hnow]; exact hd
  file hl := by
    rw [hnow] at hl ⊢
    exact h.file hl
  synced hf hp := by
    have := hsync hf hp
    rw [hnow]; exact this

/-- `*state_guard = draft.clone()`: the commit of thread `t`. -/
theorem StoreInv.of_commit (h : StoreInv serde reqs r₀ fresh s) {t : Nat} {draft : ControlPlaneState}
    {r : Unit} (hlog : s'.log = .did t (.writeState draft) r s.now s'.now :: s.log)
    (hnow : s'.now = { s.now with state := draft }) {expected : UInt64} {d : ControlPlaneState} {now : DateTime}
    (hreq : reqs[t]? = some (.putState expected d)) (hexp : s.now.state.revision = expected)
    (hdraft : draft = commitDraft s.now.state d now)
    (hrev : draft.revision.toNat = s.now.state.revision.toNat + 1) (hlock : s.now.stateLock = some t)
    (hnew : t ∉ committers s.log) (hpub : t ∉ publishers s.log) : StoreInv serde reqs r₀ fresh s' := by
  have hcs : commits s'.log = commits s.log ++ [(t, draft)] := by rw [hlog, commits_cons]; rfl
  have hcr : committers s'.log = committers s.log ++ [t] := by rw [committers, hcs, List.map_append]; rfl
  have hps : publishers s'.log = publishers s.log := publishers_eq hlog rfl
  have hlt : s.now.state.revision ≤ draft.revision := by
    rw [UInt64.le_iff_toNat_le]; omega
  refine ⟨?_, ?_, ?_, ?_, ?_, ?_, ?_, ?_⟩
  · rw [hnow, hcs, List.length_append, List.length_singleton, hrev, h.revision, Nat.add_assoc]
  · intro i c hi
    rw [hcs] at hi
    rcases Nat.lt_or_ge i (commits s.log).length with hlt | hge
    · rw [List.getElem?_append_left hlt] at hi
      exact h.order i c hi
    · -- the new commit: its revision is one more than the number of commits before it
      have hi' : i = (commits s.log).length := by
        have := (List.getElem?_eq_some_iff.1 hi).1
        simp only [List.length_append, List.length_singleton] at this
        omega
      subst hi'
      rw [List.getElem?_append_right (Nat.le_refl _), Nat.sub_self] at hi
      cases hi
      exact ⟨expected, d, hreq, by rw [← hexp]; exact h.revision, by rw [hrev, h.revision]⟩
  · rw [hcr, List.nodup_append]
    exact ⟨h.once, List.nodup_singleton t, fun a ha b hb hab => by
      rw [List.mem_singleton] at hb; exact hnew (hb ▸ hab ▸ ha)⟩
  · intro e he
    rw [hlog, List.mem_cons] at he
    rcases he with rfl | he
    · refine .inr ⟨expected, d, now, hreq, hexp, ?_⟩
      simp only [Event.post, Event.pre, hnow, hdraft]
    · exact h.seen e he
  · rw [hnow]; exact h.observed_le
  · rw [hnow]; exact UInt64.le_trans h.desired_le hlt
  · intro hl
    rw [hnow] at hl
    simp [hlock] at hl
  · -- the put is publishing now
    refine fun _ hp => absurd ⟨t, ?_, ?_, ?_⟩ hp
    · rw [hnow]; exact hlock
    · rw [hcr]; simp
    · rw [hps]; exact hpub

end Preservation

end NginxAdmin.Daemon
