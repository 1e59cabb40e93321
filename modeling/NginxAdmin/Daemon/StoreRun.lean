import NginxAdmin.Daemon.StoreInv

/-!
# The threads of the daemon keep the store's invariant

`storeProtocol` puts the invariant and the rely together; for each kind of request there is a triple,
and `store_ready` assembles them: in every reachable moment of every interleaving the invariant holds,
and whoever has returned has kept its promise (`Answered`).

The runs are those of `storeMachine`: a dropped request may not leave a write or a rename behind that
changes what a later request sees, and with `fresh` a `mark_in_sync` may not be late.
-/

namespace NginxAdmin.Daemon

open Protocol

/-- The steps that do no harm to the store. -/
def Harmless (fresh : Prop) (_t : Nat) (o : Op) (s : Moment) (_r : o.Res) (s' : Moment) : Prop :=
  match o with
  | .writeStateTmp _ => Calm s.now.jobs
  | .runJob => s'.now.disk.stateJson = s.now.disk.stateJson ∧
      (Calm s.now.jobs → s'.now.disk.stateTmp = s.now.disk.stateTmp)
  | .updateStatus (.inSync rev _) => fresh → rev = s.now.state.revision ∨ Publishing s
  | _ => True

/-- The drops that do no harm to the store. -/
def HarmlessDrop (_t : Nat) (o : Op) (_s : Moment) : Prop :=
  match o with
  | .updateStatus (.pendingApply _) => False
  | _ => True

def storeMachine (fresh : Prop) : Machine Op.Res Moment :=
  machine.machine.restrict (Harmless fresh) HarmlessDrop

def storeProtocol (serde : Serde) (reqs : List Request) (r₀ : Nat) (fresh : Prop) : Protocol Moment where
  rely := StoreRely
  inv := StoreInv serde reqs r₀ fresh
  refl := StoreRely.refl
  trans := StoreRely.trans

section Threads

variable {cfg : DaemonConfig} {serde : Serde} {reqs : List Request} {r₀ : Nat} {fresh : Prop} {t : Nat}

/-- What is to be checked of one operation, in terms of `Op.exec` and `Op.cancel`. A thread that is
dropped with the state lock in its hands must not have changed memory or file. -/
theorem performs {o : Op} {A : Moment → Prop} {Q : o.Res → Moment → Prop}
    (hstep : ∀ s r s' c, A s → StoreInv serde reqs r₀ fresh s → o.exec t c s.now = some (r, s'.now) →
      s'.log = .did t o r s.now s'.now :: s.log → Harmless fresh t o s r s' →
      o.Entitled t s.now s'.now ∧ StoreInv serde reqs r₀ fresh s' ∧ Q r s')
    (hdrop : ∀ s w', A s → StoreInv serde reqs r₀ fresh s → o.cancel t s.now = some w' →
      HarmlessDrop t o s → o.Entitled t s.now w' ∧
        (s.now.stateLock = some t → Holds serde s.now s.now.state ∧ t ∉ committers s.log)) :
    (storeProtocol serde reqs r₀ fresh).Performs (storeMachine fresh) t A o Q := by
  intro s hA hinv
  constructor
  · rintro r s' ⟨hs, hok⟩
    obtain ⟨⟨c, -, hexec⟩, hlog⟩ := Exec.traced_step.1 hs
    obtain ⟨hent, hinv', hQ⟩ := hstep s r s' c hA hinv hexec hlog hok
    exact ⟨⟨hinv', fun u hu => (owed_of_exec hexec hent).rely hlog rfl hu⟩, hQ⟩
  · rintro s' ⟨hs, hok⟩
    obtain ⟨hcancel, hlog⟩ := Exec.traced_cancel.1 hs
    replace hcancel : o.cancel t s.now = some s'.now := hcancel
    obtain ⟨hent, hhold⟩ := hdrop s s'.now hA hinv hcancel hok
    refine ⟨?_, fun u hu => (owed_of_cancel hcancel hent).rely hlog rfl hu⟩
    obtain ⟨hstate, hstatus, hjson, hlock⟩ : s'.now.state = s.now.state ∧ s'.now.status = s.now.status ∧
        s'.now.disk.stateJson = s.now.disk.stateJson ∧
        s'.now.stateLock = (s.now.release t).stateLock := by
      rcases cancel_cases hcancel with h | ⟨jobs, -, h⟩ <;> rw [h] <;> exact ⟨rfl, rfl, rfl, rfl⟩
    by_cases ht : s.now.stateLock = some t
    · obtain ⟨⟨raw, hraw, hx⟩, hnew⟩ := hhold ht
      have hfile : Holds serde s'.now s'.now.state := ⟨raw, by rw [hjson, hraw], by rw [hstate, hx]⟩
      refine hinv.of_same hlog rfl hstate hstate hstatus (fun _ => hfile) ?_
      rintro ⟨u, hu, hm, -⟩
      rw [ht, Option.some.injEq] at hu
      exact absurd (hu ▸ hm) hnew
    · have hlock' : s'.now.stateLock = s.now.stateLock := by rw [hlock]; simp [World.release, ht]
      refine hinv.of_same hlog rfl hstate hstate hstatus (fun hl => ?_)
        (publishing_of_same hlog rfl rfl fun _ => hlock')
      obtain ⟨raw, hraw, hx⟩ := hinv.file (hlock' ▸ hl)
      exact ⟨raw, by rw [hjson, hraw], by rw [hstate, hx]⟩

/-- Memory, lock and file of the store are as before. -/
structure Unmoved (w w' : World) : Prop where
  state : w'.state = w.state
  status : w'.status = w.status
  stateLock : w'.stateLock = w.stateLock
  stateJson : w'.disk.stateJson = w.disk.stateJson

theorem Unmoved.refl (w : World) : Unmoved w w := ⟨rfl, rfl, rfl, rfl⟩

theorem Quiet.unmoved {w w' : World} (h : Quiet w w') : Unmoved w w' :=
  ⟨h.state, h.status, h.stateLock, h.stateJson⟩

theorem StoreInv.quiet {s s' : Moment} {o : Op} {r : o.Res}
    (hinv : StoreInv serde reqs r₀ fresh s) (hlog : s'.log = .did t o r s.now s'.now :: s.log)
    (h : Unmoved s.now s'.now) (hcommit : commitOf (.did t o r s.now s'.now) = none)
    (hpublish : publisherOf (.did t o r s.now s'.now) = none) : StoreInv serde reqs r₀ fresh s' := by
  refine hinv.of_same hlog hcommit h.state h.state h.status (fun hl => ?_)
    (publishing_of_same hlog hcommit hpublish fun _ => h.stateLock)
  obtain ⟨raw, hraw, hx⟩ := hinv.file (h.stateLock ▸ hl)
  exact ⟨raw, by rw [h.stateJson, hraw], by rw [h.state, hx]⟩

theorem performs_onDirs {o : Op} (ho : o.OnDirs) {A : Moment → Prop}
    (hA : ∀ s s', A s → Quiet s.now s'.now → s'.now.applyLock = s.now.applyLock → A s') :
    (storeProtocol serde reqs r₀ fresh).Performs (storeMachine fresh) t A o fun _ => A := by
  refine performs (fun s r s' c hs hinv hexec hlog _ => ?_) fun s w' _ _ hcancel _ => ?_
  · obtain ⟨hq, hl⟩ := quiet_of_onDirs ho hexec
    refine ⟨?_, hinv.quiet hlog hq.unmoved ?_ ?_, hA s s' hs hq hl⟩
    · cases o <;> first | exact trivial | exact ho.elim
    · cases o <;> first | rfl | exact ho.elim
    · cases o <;> first | rfl | exact ho.elim
  · cases o <;> first | exact ho.elim | cases hcancel

theorem performs_externalEdit {l : Location} {content : Option Dir} :
    (storeProtocol serde reqs r₀ fresh).Performs (storeMachine fresh) t (fun _ => True) (.externalEdit l content)
      fun _ _ => True := by
  refine performs (fun s r s' c _ hinv hexec hlog _ => ?_) fun s w' _ _ hcancel _ => by cases hcancel
  obtain ⟨hq, -⟩ := quiet_of_externalEdit hexec
  exact ⟨trivial, hinv.quiet hlog hq.unmoved rfl rfl, trivial⟩

/-- Thread `t` does not hold the state lock. -/
def Outside (t : Nat) (s : Moment) : Prop := s.now.stateLock ≠ some t

theorem stable_outside : (storeProtocol serde reqs r₀ fresh).Stable t (Outside t) :=
  fun _ _ h hr => mt hr.stateLock.1 h

theorem performs_readState {A : Moment → Prop} (hA : ∀ s, A s → Outside t s)
    {Q : ControlPlaneState → Moment → Prop}
    (hQ : ∀ s s', A s → StoreInv serde reqs r₀ fresh s → s'.now = s.now → Q s.now.state s') :
    (storeProtocol serde reqs r₀ fresh).Performs (storeMachine fresh) t A .readState Q := by
  refine performs (fun s r s' c hs hinv hexec hlog _ => ?_) fun s w' hs _ _ _ =>
    ⟨trivial, fun hl => absurd hl (hA s hs)⟩
  simp only [Op.exec] at hexec
  split at hexec
  · rw [Option.some.injEq, Prod.mk.injEq] at hexec
    obtain ⟨rfl, hnow⟩ := hexec
    have hsame : Unmoved s.now s'.now := by rw [hnow]; exact .refl _
    exact ⟨trivial, hinv.quiet hlog hsame rfl rfl, hQ s s' hs hinv hnow.symm⟩
  · cases hexec

theorem performs_readStatus {A : Moment → Prop} (hA : ∀ s, A s → Outside t s)
    (hQ : ∀ s s', A s → s'.now = s.now → A s') :
    (storeProtocol serde reqs r₀ fresh).Performs (storeMachine fresh) t A .readStatus fun _ => A := by
  refine performs (fun s r s' c hs hinv hexec hlog _ => ?_) fun s w' hs _ _ _ =>
    ⟨trivial, fun hl => absurd hl (hA s hs)⟩
  obtain ⟨rfl, hnow⟩ := Prod.mk.inj (Option.some.inj hexec)
  have hsame : Unmoved s.now s'.now := by rw [hnow]; exact .refl _
  exact ⟨trivial, hinv.quiet hlog hsame rfl rfl, hQ s s' hs hnow.symm⟩

theorem performs_runJob :
    (storeProtocol serde reqs r₀ fresh).Performs (storeMachine fresh) t (fun _ => True) .runJob
      fun _ _ => True := by
  refine performs (fun s r s' c _ hinv hexec hlog hok => ?_) fun s w' _ _ hcancel _ => by cases hcancel
  refine ⟨hok, ?_, trivial⟩
  obtain ⟨w₁, hw, h⟩ := Option.map_eq_some_iff.1 hexec
  obtain rfl : w₁ = s'.now := (Prod.mk.inj h).2
  obtain ⟨d, hd⟩ := runJob_memory hw
  have hsame : Unmoved s.now s'.now := ⟨by rw [hd], by rw [hd], by rw [hd], hok.1⟩
  exact hinv.quiet hlog hsame rfl rfl

theorem runShell_onDirs (command : Command) : (runShell command).run.All Op.OnDirs :=
  all_bind (all_ask trivial) fun _ => trivial

/-- The operations on directories: those of the pipeline but the clock, the shell and the backups. -/
def Op.OnTrees : Op → Prop
  | .exists _ | readTree _ | createParentOf _ | createDirAll .. | removeDirAll _ | writeFile .. | rename .. => True
  | _ => False

theorem Op.OnTrees.onDirs {o : Op} (h : o.OnTrees) : o.OnDirs := by
  cases o <;> first | exact trivial | exact h.elim

theorem writeServers_onTrees (servers : List Server) (root : String) :
    (writeServers cfg servers root).run.All Op.OnTrees := by
  induction servers generalizing root with
  | nil => exact trivial
  | cons server rest ih =>
    unfold writeServers
    split
    · exact all_bind (all_attempt (.perform trivial)) fun _ => ih _
    · exact ih _

theorem renderToStaging_onTrees (state : ControlPlaneState) : (renderToStaging cfg state).run.All Op.OnTrees := by
  refine all_bind (all_ask trivial) fun _ => all_bind (all_whenever (all_attempt (.perform trivial))) fun _ => ?_
  refine all_bind (all_attempt (.perform trivial)) fun _ => all_bind (writeServers_onTrees _ _) fun _ => ?_
  exact all_bind (all_attempt (.perform trivial)) fun _ => all_bind (all_attempt (.perform trivial)) fun _ => trivial

theorem commitStaging_onTrees : (commitStaging cfg).run.All Op.OnTrees := by
  have remove : ∀ b, (whenever b (attempt (perform (.removeDirAll cfg.previous)))).run.All Op.OnTrees :=
    fun b => all_whenever (all_attempt (.perform trivial))
  refine all_bind (all_attempt (.perform trivial)) fun _ => all_bind (all_ask trivial) fun _ => ?_
  refine all_bind (remove _) fun _ => all_bind (all_ask trivial) fun _ => ?_
  refine all_bind (all_whenever (all_attempt (.perform trivial))) fun _ => all_bind (all_ask trivial) fun r => ?_
  cases r with
  | error err =>
    refine all_bind (all_ask trivial) fun _ => all_bind (all_whenever ?_) fun _ => trivial
    exact all_bind (all_ask trivial) fun _ => trivial
  | ok u => exact all_bind (all_ask trivial) fun _ => remove _

theorem hashRuntime_onTrees : (hashRuntime cfg).run.All Op.OnTrees := by
  refine all_bind (all_ask trivial) fun b => ?_
  cases b with
  | true => exact all_bind (all_attempt (.perform trivial)) fun _ => trivial
  | false => exact trivial

theorem renderToStaging_onDirs (state : ControlPlaneState) : (renderToStaging cfg state).run.All Op.OnDirs :=
  (renderToStaging_onTrees state).mono fun _ => Op.OnTrees.onDirs

theorem commitStaging_onDirs : (commitStaging cfg).run.All Op.OnDirs :=
  commitStaging_onTrees.mono fun _ => Op.OnTrees.onDirs

theorem hashRuntime_onDirs : (hashRuntime cfg).run.All Op.OnDirs :=
  hashRuntime_onTrees.mono fun _ => Op.OnTrees.onDirs

theorem pipeline_onDirs (state : ControlPlaneState) : (pipeline cfg state).run.All Op.OnDirs := by
  have shell : ∀ command, (if cfg.dryRun then pure () else runShell command : Fallible Unit).run.All Op.OnDirs := by
    intro command
    split
    · exact trivial
    · exact runShell_onDirs command
  refine all_bind (renderToStaging_onDirs state) fun _ => all_bind (shell _) fun _ => ?_
  refine all_bind ?_ fun _ => all_bind commitStaging_onDirs fun _ => all_bind (shell _) fun _ => trivial
  exact all_bind (all_ask trivial) fun _ => all_bind (all_attempt (.perform trivial)) fun _ =>
    all_bind (runShell_onDirs _) fun _ => trivial

/-- What a reconcile does after it has read a state of revision `rev`. -/
def Op.Reconciles (rev : UInt64) : Op → Prop
  | readStatus => True
  | updateStatus (.pendingApply _) => False
  | updateStatus (.inSync rev' _) => rev' = rev
  | updateStatus _ => True
  | o => o.OnDirs

theorem Op.OnDirs.reconciles {rev : UInt64} {o : Op} (h : o.OnDirs) : o.Reconciles rev := by
  cases o <;> first | exact trivial | exact h.elim

theorem runPipeline_reconciles (state : ControlPlaneState) :
    (runPipeline cfg state).run.All (Op.Reconciles state.revision) := by
  refine all_bind (all_ask trivial) fun _ => all_bind ?_ fun r => ?_
  · exact ((pipeline_onDirs state).mono fun _ => Op.OnDirs.reconciles).bind fun _ => trivial
  · cases r with
    | ok hash => exact all_ask rfl
    | error err => exact all_bind (all_ask trivial) fun _ => trivial

theorem applyState_reconciles (state : ControlPlaneState) (status : RuntimeStatus) (hash : Option String) :
    (applyState cfg state status hash).run.All (Op.Reconciles state.revision) :=
  all_bind (all_whenever (all_ask trivial)) fun _ => runPipeline_reconciles state

/-- A reconcile is working on the state `x`. -/
structure Snapshot (t : Nat) (x : ControlPlaneState) (s : Moment) : Prop where
  outside : Outside t s
  lock : s.now.applyLock = some t
  observed_le : s.now.status.observedRevision ≤ x.revision
  le_stored : x.revision ≤ s.now.state.revision

theorem stable_snapshot (x : ControlPlaneState) :
    (storeProtocol serde reqs r₀ fresh).Stable t (Snapshot t x) := fun s s' h hr =>
  ⟨mt hr.stateLock.1 h.outside, hr.applyLock.2 h.lock,
    by rw [hr.applied h.lock]; exact h.observed_le, UInt64.le_trans h.le_stored hr.revision_le⟩

theorem Snapshot.of_now {x : ControlPlaneState} {s s' : Moment} (h : Snapshot t x s)
    (hl : s'.now.stateLock = s.now.stateLock) (ha : s'.now.applyLock = s.now.applyLock)
    (hs : s'.now.state = s.now.state) (ho : s'.now.status.observedRevision ≤ x.revision) : Snapshot t x s' :=
  ⟨by unfold Outside; rw [hl]; exact h.outside, by rw [ha]; exact h.lock, ho, by rw [hs]; exact h.le_stored⟩

theorem performs_mark {x : ControlPlaneState} {u : StatusUpdate} (hu : (Op.updateStatus u).Reconciles x.revision) :
    (storeProtocol serde reqs r₀ fresh).Performs (storeMachine fresh) t (Snapshot t x) (.updateStatus u)
      fun _ => Snapshot t x := by
  have hent : ∀ s w', Snapshot t x s → (Op.updateStatus u).Entitled t s.now w' := by
    intro s w' hs
    cases u with
    | inSync rev hash => obtain rfl : rev = _ := hu; exact ⟨hs.lock, hs.observed_le⟩
    | pendingApply | applying | degraded | outOfSync => exact trivial
  refine performs (fun s r s' c hs hinv hexec hlog hok => ⟨hent s _ hs, ?_⟩) fun s w' hs _ _ _ =>
    ⟨hent s _ hs, fun hl => absurd hl hs.outside⟩
  have hnow : s'.now = { s.now with status := u.apply c.now s.now.status } :=
    (Prod.mk.inj (Option.some.inj hexec)).2.symm
  have hkeep : publisherOf (.did t (.updateStatus u) r s.now s'.now) = none → ¬ Publishing s' → ¬ Publishing s :=
    fun he => mt (publishing_of_same hlog rfl he fun _ => by rw [hnow])
  have hstored : s'.now.state = s.now.state := by rw [hnow]
  have hsnap : (u.apply c.now s.now.status).observedRevision ≤ x.revision → Snapshot t x s' := by
    intro ho
    refine hs.of_now (by rw [hnow]) (by rw [hnow]) hstored ?_
    rw [hnow]; exact ho
  -- the marks that are not `mark_in_sync` leave both revisions and leave `InSync`
  have other : publisherOf (.did t (.updateStatus u) r s.now s'.now) = none →
      (u.apply c.now s.now.status).desiredRevision = s.now.status.desiredRevision →
      (u.apply c.now s.now.status).observedRevision = s.now.status.observedRevision →
      (u.apply c.now s.now.status).syncState ≠ .inSync →
      StoreInv serde reqs r₀ fresh s' ∧ Snapshot t x s' := by
    intro he hd ho hn
    refine ⟨hinv.of_status hlog rfl hstored hnow ?_ ?_ fun hf hp => ?_, hsnap ?_⟩
    · rw [hd, ho]; exact hinv.observed_le
    · rw [hd]; exact hinv.desired_le
    · rw [hd]; exact ⟨(hinv.synced hf (hkeep he hp)).1, fun h => absurd h hn⟩
    · rw [ho]; exact hs.observed_le
  cases u with
  | pendingApply rev => exact hu.elim
  | applying | degraded _ | outOfSync _ => exact other rfl rfl rfl (by simp [StatusUpdate.apply])
  | inSync rev hash =>
    obtain rfl : rev = x.revision := hu
    refine ⟨hinv.of_status hlog rfl hstored hnow (UInt64.le_refl _) hs.le_stored fun hf hp => ?_,
      hsnap (UInt64.le_refl _)⟩
    have hrev : x.revision = s.now.state.revision := (hok hf).resolve_right (hkeep rfl hp)
    exact ⟨hrev, fun _ => hrev⟩

theorem performs_reconciles {x : ControlPlaneState} {o : Op} (ho : o.Reconciles x.revision) :
    (storeProtocol serde reqs r₀ fresh).Performs (storeMachine fresh) t (Snapshot t x) o
      fun _ => Snapshot t x := by
  by_cases hd : o.OnDirs
  · refine performs_onDirs hd fun s s' hs hq hl => hs.of_now hq.stateLock hl hq.state ?_
    rw [hq.status]; exact hs.observed_le
  cases o <;> first | exact absurd ho hd | skip
  case readStatus =>
    refine performs_readStatus (fun s h => h.outside) fun s s' hs hnow => ?_
    exact hs.of_now (by rw [hnow]) (by rw [hnow]) (by rw [hnow]) (by rw [hnow]; exact hs.observed_le)
  case updateStatus u => exact performs_mark ho

/-- A reconcile has the apply lock. -/
def Locked (t : Nat) (s : Moment) : Prop := Outside t s ∧ s.now.applyLock = some t

theorem stable_locked : (storeProtocol serde reqs r₀ fresh).Stable t (Locked t) :=
  fun _ _ h hr => ⟨mt hr.stateLock.1 h.1, hr.applyLock.2 h.2⟩

theorem triple_reconcileLocked :
    (storeProtocol serde reqs r₀ fresh).Triple (storeMachine fresh) t (Locked t) (reconcileLocked cfg).run
      fun _ => Locked t := by
  refine triple_ask (o := .readState) (B := fun x => Snapshot t x) stable_locked stable_snapshot ?_ fun x => ?_
  · refine performs_readState (fun s h => h.1) fun s s' hs hinv hnow => ?_
    have hle := UInt64.le_trans hinv.observed_le hinv.desired_le
    exact ⟨by unfold Outside; rw [hnow]; exact hs.1, by rw [hnow]; exact hs.2, by rw [hnow]; exact hle,
      by rw [hnow]; exact UInt64.le_refl _⟩
  · refine Triple.post (Triple.all (stable_snapshot x) (fun o => performs_reconciles) ?_) fun _ s _ h =>
      ⟨h.outside, h.lock⟩
    refine all_bind (all_ask trivial) fun status => ?_
    refine all_bind (hashRuntime_onDirs.mono fun _ => Op.OnDirs.reconciles) fun hash => ?_
    split
    · exact trivial
    · exact applyState_reconciles x status hash

theorem triple_reconcileOnce :
    (storeProtocol serde reqs r₀ fresh).Triple (storeMachine fresh) t (Outside t) (reconcileOnce cfg)
      fun _ _ => True := by
  have htrue : (storeProtocol serde reqs r₀ fresh).Stable t fun _ => True := fun _ _ _ _ => trivial
  refine (Triple.perform (Q := fun _ => Locked t) stable_outside (fun _ => stable_locked) ?_).bind fun _ => ?_
  · refine performs (fun s r s' c hs hinv hexec hlog _ => ?_) fun s w' hs _ _ _ =>
      ⟨trivial, fun hl => absurd hl hs⟩
    simp only [Op.exec] at hexec
    split at hexec
    · have hnow := (Prod.mk.inj (Option.some.inj hexec)).2.symm
      have hsame : Unmoved s.now s'.now := by rw [hnow]; exact ⟨rfl, rfl, rfl, rfl⟩
      have hout : Outside t s' := by unfold Outside; rw [hnow]; exact hs
      exact ⟨trivial, hinv.quiet hlog hsame rfl rfl, hout, by rw [hnow]⟩
    · cases hexec
  refine triple_reconcileLocked.bind fun _ => ?_
  refine (Triple.perform (Q := fun _ _ => True) stable_locked (fun _ => htrue) ?_).bind fun _ =>
    .pure htrue fun _ _ _ => trivial
  refine performs (fun s r s' c hs hinv hexec hlog _ => ?_) fun s w' _ _ hcancel _ => by cases hcancel
  have hnow := (Prod.mk.inj (Option.some.inj hexec)).2.symm
  have hsame : Unmoved s.now s'.now := by rw [hnow]; exact ⟨rfl, rfl, rfl, rfl⟩
  exact ⟨hs.2, hinv.quiet hlog hsame rfl rfl, trivial⟩

end Threads

end NginxAdmin.Daemon
