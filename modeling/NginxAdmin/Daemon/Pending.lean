import NginxAdmin.Daemon.Revisions

/-!
# Status, memory and disk: when they agree

Two things make the status or `state.json` disagree with the stored state. A reconcile works on the state
it has read at its start, and `mark_in_sync` then overwrites the status even if a put has come in between.
And a dropped `put_state` can leave a rename to the blocking pool, or have stored its draft without having
written the status. In the runs without these steps status, memory and disk agree.
-/

namespace NginxAdmin.Daemon

open Protocol

/-- A `mark_in_sync` comes in time: its revision is still the stored one, or the put that has replaced it
has yet to write the status. -/
def Timely (_t : Nat) (o : Op) (s : Moment) (_r : o.Res) (_s' : Moment) : Prop :=
  match o with
  | .updateStatus (.inSync rev _) => rev = s.now.state.revision ∨ Publishing s
  | _ => True

/-- The runs without drops in which every `mark_in_sync` is timely. -/
def timelyMachine : Machine Op.Res Moment := machine.machine.restrict Timely fun _ _ _ => False

theorem reach_of_timely {p₀ p : Pool Op.Res Moment Response} (h : p₀.Reach timelyMachine p)
    (hjobs : p₀.shared.now.jobs = []) : p₀.Reach (storeMachine True) p := by
  refine (h.of_inv (I := fun s => s.now.jobs = []) hjobs ?_ fun _ _ _ _ _ hc => hc.2.elim).2
  rintro t o s r s' hs ⟨hstep, hok⟩
  exact harmless_of_jobs hs hstep fun rev hash ho _ => by subst ho; exact hok

/-- While no put is inside its critical section, the status does not hide a pending revision, provided
that every `mark_in_sync` has been timely. -/
theorem status_shows_pending (cfg : DaemonConfig) {serde : Serde} {reqs : List Request} {w : World}
    (hw : Booted serde w) (hroom : w.state.revision.toNat + reqs.countP Request.isPut < UInt64.size)
    {p : Pool Op.Res Moment Response} (hp : (start cfg serde w reqs).Reach timelyMachine p)
    (hlock : p.shared.now.stateLock = none) :
    p.shared.now.status.desiredRevision = p.shared.now.state.revision ∧
      (p.shared.now.status.syncState = .inSync →
        p.shared.now.status.observedRevision = p.shared.now.state.revision) := by
  have hready := (store_ready cfg True hw hroom).reach (reach_of_timely hp hw.jobs)
  refine hready.1.synced trivial ?_
  rintro ⟨t, ht, -⟩
  rw [hlock] at ht; cases ht

def timelyGuard (_t : Nat) (o : Op) (s _s' : Moment) : Bool :=
  match o with
  | .updateStatus (.inSync rev _) => rev == s.now.state.revision
  | _ => true

/-- A put, and then a reconcile that applies it. -/
theorem status_shows_pending_sample : ∃ p, (start .defaults sampleSerde sampleWorld
      [.putState 0 sampleDraft, .reconcile]).Reach timelyMachine p ∧
    p.shared.now.stateLock = none ∧ p.shared.now.status.syncState = .inSync ∧ p.shared.now.state.revision = 1 ∧
    p.shared.now.status.observedRevision = p.shared.now.state.revision := by
  have hrun : ((machine.guarded timelyGuard fun _ _ _ => false).schedule (turns 0 7 ++ turns 1 22)
      (start .defaults sampleSerde sampleWorld [.putState 0 sampleDraft, .reconcile])).map
      (fun p => (p.shared.now.stateLock, p.shared.now.status.syncState, p.shared.now.state.revision)) =
      some (none, .inSync, 1) := by
    decide +kernel
  obtain ⟨p, hp, hres⟩ := Option.map_eq_some_iff.1 hrun
  simp only [Prod.mk.injEq] at hres
  obtain ⟨hlock, hsync, hrev⟩ := hres
  have hreach : (start .defaults sampleSerde sampleWorld [.putState 0 sampleDraft, .reconcile]).Reach
      timelyMachine p := by
    refine Exec.reach_restrict_of_schedule (fun t o s r s' h => ?_) (fun _ _ _ h => by cases h) hp
    unfold timelyGuard at h
    unfold Timely
    split
    · exact .inl (by simpa using h)
    · exact trivial
  exact ⟨p, hreach, hlock, hsync, hrev,
    (status_shows_pending .defaults booted_sampleWorld (by decide) hreach hlock).2 hsync⟩

/-- The put comes after the reconcile has read the state, and its revision is hidden: everybody has
returned, revision `1` is stored, and the status says that revision `0` is desired and in sync. -/
theorem status_hides_pending : ∃ p, (start .defaults sampleSerde sampleWorld
      [.putState 0 sampleDraft, .reconcile]).Reach machine.machine.noDrops p ∧
    p.shared.now.stateLock = none ∧
    ¬ (p.shared.now.status.desiredRevision = p.shared.now.state.revision ∧
      (p.shared.now.status.syncState = .inSync →
        p.shared.now.status.observedRevision = p.shared.now.state.revision)) := by
  have hrun : (machine.schedule (turns 1 2 ++ turns 0 7 ++ turns 1 20)
      (start .defaults sampleSerde sampleWorld [.putState 0 sampleDraft, .reconcile])).map
      (fun p => (p.shared.now.stateLock, p.shared.now.status.desiredRevision, p.shared.now.state.revision)) =
      some (none, 0, 1) := by
    decide +kernel
  obtain ⟨p, hp, hres⟩ := Option.map_eq_some_iff.1 hrun
  simp only [Prod.mk.injEq] at hres
  obtain ⟨hlock, hdesired, hrev⟩ := hres
  refine ⟨p, Exec.reach_noDrops_of_schedule (by decide) hp, hlock, fun h => ?_⟩
  rw [hdesired, hrev] at h
  exact absurd h.1 (by decide)

/-- Memory and disk agree in the runs whose drops are harmless, and the status shows the revision: once no
put is inside its critical section, whatever the blocking pool still has to do. -/
theorem drops_keep_file (cfg : DaemonConfig) {serde : Serde} {reqs : List Request} {w : World}
    (hw : Booted serde w) (hroom : w.state.revision.toNat + reqs.countP Request.isPut < UInt64.size)
    {p : Pool Op.Res Moment Response} (hp : (start cfg serde w reqs).Reach (storeMachine True) p)
    (hlock : p.shared.now.stateLock = none) :
    Holds serde p.shared.now p.shared.now.state ∧
      p.shared.now.status.desiredRevision = p.shared.now.state.revision := by
  have hinv := ((store_ready cfg True hw hroom).reach hp).1
  refine ⟨hinv.file hlock, (hinv.synced trivial ?_).1⟩
  rintro ⟨t, ht, -⟩
  rw [hlock] at ht; cases ht

def harmlessGuard (t : Nat) (o : Op) (s s' : Moment) : Bool :=
  match o with
  | .writeStateTmp _ => s.now.jobs.isEmpty
  | .runJob => s'.now.disk.stateJson == s.now.disk.stateJson && !s.now.jobs.all (· == .renameTmp)
  | _ => timelyGuard t o s s'

def dropGuard (_t : Nat) (o : Op) (_s : Moment) : Bool :=
  match o with
  | .updateStatus _ => false
  | _ => true

theorem harmless_of_guard {t : Nat} {o : Op} {s s' : Moment} {r : o.Res} (h : harmlessGuard t o s s') :
    Harmless True t o s r s' := by
  unfold harmlessGuard at h
  unfold Harmless
  split
  · rw [List.isEmpty_iff] at h
    rw [h]; exact fun _ => List.not_mem_nil
  · simp only [Bool.and_eq_true, beq_iff_eq, Bool.not_eq_true', List.all_eq_false] at h
    refine ⟨h.1, fun hc => ?_⟩
    obtain ⟨job, hj, hne⟩ := h.2
    cases job with
    | writeTmp payload => exact absurd hj (hc payload)
    | renameTmp => exact absurd rfl hne
  · exact fun _ => .inl (by simpa [timelyGuard] using h)
  · exact trivial

/-- The first put is dropped while its temporary file is being written; when the blocking pool is done, a
second put goes through. -/
theorem drops_keep_file_sample : ∃ p, (start .defaults sampleSerde sampleWorld
      [.putState 0 sampleDraft, .putState 0 sampleDraft, .finishJob]).Reach (storeMachine True) p ∧
    p.threads 0 = none ∧ p.shared.now.stateLock = none ∧ p.shared.now.state = sampleState ∧
    Holds sampleSerde p.shared.now p.shared.now.state ∧
    p.shared.now.status.desiredRevision = p.shared.now.state.revision := by
  have hrun : ((machine.guarded harmlessGuard dropGuard).schedule
      (turns 0 2 ++ [.drop 0] ++ turns 2 1 ++ turns 1 7) (start .defaults sampleSerde sampleWorld
      [.putState 0 sampleDraft, .putState 0 sampleDraft, .finishJob])).map
      (fun p => ((p.threads 0).isNone, p.shared.now.stateLock, p.shared.now.state)) =
      some (true, none, sampleState) := by
    decide +kernel
  obtain ⟨p, hp, hres⟩ := Option.map_eq_some_iff.1 hrun
  simp only [Prod.mk.injEq, Option.isNone_iff_eq_none] at hres
  obtain ⟨hnone, hlock, hstate⟩ := hres
  have hreach : (start .defaults sampleSerde sampleWorld
      [.putState 0 sampleDraft, .putState 0 sampleDraft, .finishJob]).Reach (storeMachine True) p := by
    refine Exec.reach_restrict_of_schedule (fun _ _ _ _ _ => harmless_of_guard) (fun t o s h => ?_) hp
    unfold dropGuard at h
    unfold HarmlessDrop
    split
    · cases h
    · exact trivial
  exact ⟨p, hreach, hnone, hlock, hstate, drops_keep_file .defaults booted_sampleWorld (by decide) hreach hlock⟩

/-- A put is dropped while it waits for the rename, which then succeeds: nobody is inside, nothing is in
flight, and `state.json` holds revision `1` while the memory holds revision `0`. -/
theorem drops_split_file : ∃ p, (start .defaults sampleSerde sampleWorld
      [.putState 0 sampleDraft, .finishJob]).Reach machine.machine p ∧
    p.shared.now.stateLock = none ∧ p.shared.now.jobs = [] ∧
    ¬ (Holds sampleSerde p.shared.now p.shared.now.state ∧
      p.shared.now.status.desiredRevision = p.shared.now.state.revision) := by
  have hrun : (machine.schedule (turns 0 3 ++ [.drop 0] ++ turns 1 1)
      (start .defaults sampleSerde sampleWorld [.putState 0 sampleDraft, .finishJob])).map
      (fun p => (p.shared.now.stateLock, p.shared.now.jobs, p.shared.now.disk.stateJson, p.shared.now.state)) =
      some (none, [], some (sampleText sampleState), .initial 0) := by
    decide +kernel
  obtain ⟨p, hp, hres⟩ := Option.map_eq_some_iff.1 hrun
  simp only [Prod.mk.injEq] at hres
  obtain ⟨hlock, hjobs, hjson, hstate⟩ := hres
  refine ⟨p, Exec.reach_of_schedule hp, hlock, hjobs, fun h => ?_⟩
  obtain ⟨⟨raw, hraw, hx⟩, -⟩ := h
  rw [hjson, Option.some.injEq] at hraw
  subst hraw
  rw [hstate, sampleSerde.fromStr_toVecPretty (s := sampleState) (by simp [sampleSerde])] at hx
  exact absurd (Except.ok.inj hx) (by decide)

end NginxAdmin.Daemon
