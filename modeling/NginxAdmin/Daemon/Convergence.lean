import NginxAdmin.Daemon.Reconcile
import NginxAdmin.Daemon.Revisions

/-!
# What a call of `reconcile_once` achieves

A failed apply leaves the runtime directory as it was exactly when it fails before the switch and the old
directory is put back, and no older one (`OldTreeStays`). A call without faults brings the runtime directory to
the stored state, whatever was there. The next call never finds that it is in sync, since drift is always detected.
-/

namespace NginxAdmin.Daemon

open Protocol

section Within

variable {cfg : DaemonConfig} {ok : Choice → Prop} {t : Nat} {s₀ s' : Moment} {r : Except DaemonError Unit}

/-- The call of thread `t` on the world `w`. -/
def callOn (t : Nat) (w : World) : Call where
  t := t
  x := w.state
  dirs := w.disk.dirs
  observed := w.status.observedRevision
  hash := w.status.activeConfigHash

theorem applyInv_ungated (w₀ : World) (s : Moment) : ApplyInv cfg False False w₀ s :=
  ⟨False.elim, False.elim, False.elim, False.elim, False.elim⟩

theorem Started.rendering {s₁ : Moment} (h : Started s₀.now s₁) (hlock : s₀.now.applyLock = some t)
    (hmoves : moves s₁.log t = []) (hseen : cfg.staging ∉ denials s₁.log t) :
    Staged cfg (Rendering cfg False s₀.now (callOn t s₀.now) False) (s₀.now.disk.dirs cfg.staging) s₁ := by
  obtain ⟨st, hst⟩ := h.memory
  have hw : Working cfg False s₀.now (callOn t s₀.now) s₁ := by
    refine ⟨by rw [hst]; exact hlock, False.elim, False.elim, h.observed, h.hash, ?_⟩
    rw [h.applying]; exact fun h => by cases h
  have hd : s₁.now.disk.dirs = s₀.now.disk.dirs := by rw [hst]
  exact ⟨⟨⟨hw, hmoves, by rw [hd]; rfl⟩, by rw [hd]; rfl, iff_of_false hseen id⟩, by rw [hd]⟩

theorem eval_pipeline_state {x : ControlPlaneState} {s₁ s₂ : Moment} {r₀ : Except DaemonError String}
    (h : (pipeline cfg x).run.Eval (machine.machineOn ok) t s₁ r₀ s₂) : s₂.now.state = s₁.now.state := by
  have hkeep : (alone t).Triple (machine.machineOn ok) t (fun s => s.now.state = s₁.now.state)
      (pipeline cfg x).run fun _ s => s.now.state = s₁.now.state := by
    refine Triple.all (stable_alone _) (fun o ho => performs_alone fun s hs r s' hstep => ?_) (pipeline_onDirs x)
    obtain ⟨⟨c, -, hexec⟩, -⟩ := step_exec hstep
    rw [(quiet_of_onDirs ho hexec).1.state, hs]
  exact (hkeep.eval rfl trivial h).1

/-- How the pipeline has ended at the end of the call, up to the last mark. -/
theorem Applies.ended (hdirs : cfg.DirsApart) (h : Applies cfg ok t s₀.now.state s₀ r s')
    (hlock : s₀.now.applyLock = some t) (hmoves : moves s₀.log t = []) (hseen : cfg.staging ∉ denials s₀.log t) :
    ∃ r₀ s₂ n, StagePost cfg False s₀.now ok (callOn t s₀.now) (Succeeded cfg False s₀.now ok (callOn t s₀.now)) r₀ s₂ ∧
      r = r₀.map (fun _ => ()) ∧ s₂.now.state = s₀.now.state ∧ Quietly cfg t s₂ s' ∧
      s'.now = { s₂.now with status := (markOf s₀.now.state.revision r₀).apply n s₂.now.status } := by
  obtain ⟨s₁, r₀, s₂, n, hq, hstarted, hpipe, hr, hq', hnow⟩ := h
  have hbegin := hstarted.rendering hlock (hq.moves.trans hmoves) (mt (hq.denied hdirs.staging_runtime.ne).1 hseen)
  have hpost := (triple_pipeline hdirs (k := callOn t s₀.now)).eval hbegin (applyInv_ungated _ _) hpipe
  obtain ⟨st, hst⟩ := hstarted.memory
  exact ⟨r₀, s₂, n, hpost.1, hr, (eval_pipeline_state hpipe).trans (by rw [hst]), hq', hnow⟩

end Within

/-- A daemon whose runtime directory holds a hand-written file. -/
def runningWorld : World :=
  { sampleWorld with
    disk := sampleWorld.disk.setDir DaemonConfig.defaults.runtime
      (some [("nginx.conf", .file (Text.utf8 "events \x7b \x7d\n"))]) }

/-- What is hashed when the staging directory is read. -/
def hashedInput (cfg : DaemonConfig) : Event Op.Res World → Option Bytes
  | .did _ (.readTree l) (.ok tree) _ _ => if l = cfg.staging then some (hashInput cfg.stagingDir tree) else none
  | _ => none

/-- What has been hashed of staging directories. -/
def stagedInputs (cfg : DaemonConfig) (log : Log) : Set Bytes := {b | b ∈ log.filterMap (hashedInput cfg)}

theorem Hashed.mem_stagedInputs {cfg : DaemonConfig} {log : Log} {tree : Dir} (h : Hashed cfg log tree) :
    hashInput cfg.stagingDir tree ∈ stagedInputs cfg log := by
  obtain ⟨t, pre, post, he⟩ := h
  exact List.mem_filterMap.2 ⟨_, he, if_pos rfl⟩

/-- Everything is in sync with the stored state of `w`. -/
structure Converged (cfg : DaemonConfig) (w : World) (r : Except DaemonError Unit) (w' : World) : Prop where
  result : r = .ok ()
  state : w'.state = w.state
  observed : w'.status.observedRevision = w.state.revision
  desired : w'.status.desiredRevision = w.state.revision
  inSync : w'.status.syncState = .inSync
  lastError : w'.status.lastError = none
  runtime : w'.disk.dirs cfg.runtime = some (renderTree w.state)

/-- The operations of a call that has the apply lock. -/
def Op.OfCall : Op → Prop
  | readState | readStatus | updateStatus _ | unlockApply => True
  | o => o.OnDirs

theorem Op.OnDirs.ofCall {o : Op} (h : o.OnDirs) : o.OfCall := by
  cases o <;> first | exact trivial | exact h.elim

theorem Op.Reconciles.ofCall {rev : UInt64} {o : Op} (h : o.Reconciles rev) : o.OfCall := by
  cases o <;> first | exact trivial | exact h.elim

theorem reconcileLocked_ofCall (cfg : DaemonConfig) : (reconcileLocked cfg).run.All Op.OfCall := by
  refine all_bind (all_ask (o := .readState) trivial) fun x => all_bind (all_ask (o := .readStatus) trivial) fun st => ?_
  refine all_bind (hashRuntime_onDirs.mono fun _ => Op.OnDirs.ofCall) fun hash => ?_
  split
  · exact trivial
  · exact (applyState_reconciles x st hash).mono fun _ => Op.Reconciles.ofCall

theorem ofCall_enabled {o : Op} (ho : o.OfCall) (t : Nat) {s : Moment} (hs : s.now.stateLock = none) :
    ∃ r s', (machine.machineOn Faultless).step t o s r s' ∧ s'.now.stateLock = none := by
  by_cases hd : o.OnDirs
  · obtain ⟨r, s', hstep, hlock⟩ := onDirs_enabled hd t s
    exact ⟨r, s', hstep, hlock.trans hs⟩
  suffices h : ∃ r w', o.exec t ⟨0, none, 0⟩ s.now = some (r, w') ∧ w'.stateLock = none by
    obtain ⟨r, w', hexec, hw'⟩ := h
    exact ⟨r, ⟨w', .did t o r s.now w' :: s.log⟩, Exec.traced_step.2 ⟨⟨⟨0, none, 0⟩, rfl, hexec⟩, rfl⟩, hw'⟩
  cases o <;> first | exact absurd ho hd | skip
  case readState => exact ⟨_, _, if_pos hs, hs⟩
  all_goals exact ⟨_, _, rfl, hs⟩

theorem reconcileOnce_returns {cfg : DaemonConfig} {t : Nat} {s : Moment} (hs : s.now.stateLock = none)
    (hfree : s.now.applyLock = none) : ∃ r s', (reconcileOnce cfg).Eval (machine.machineOn Faultless) t s r s' := by
  have hlock : (machine.machineOn Faultless).step t .lockApply s () ⟨{ s.now with applyLock := some t },
      .did t .lockApply () s.now { s.now with applyLock := some t } :: s.log⟩ :=
    Exec.traced_step.2 ⟨⟨⟨0, none, 0⟩, rfl, if_pos hfree⟩, rfl⟩
  have hall : Prog.All Op.OfCall (do
      let result ← (reconcileLocked cfg).run
      perform .unlockApply
      pure result : Code (Except DaemonError Unit)) :=
    (reconcileLocked_ofCall cfg).bind fun _ => .bind (.perform (o := Op.unlockApply) trivial) fun _ => trivial
  obtain ⟨r, s', he, -⟩ := Prog.exists_eval (fun o ho s hs => ofCall_enabled ho t hs) hall
    (s := ⟨{ s.now with applyLock := some t }, .did t .lockApply () s.now _ :: s.log⟩) hs
  exact ⟨r, s', (), _, hlock, he⟩

/-- At every moment of every run the recorded hash is not that of the runtime directory. -/
theorem drift_reachable {cfg : DaemonConfig} (hdirs : cfg.DirsApart) {serde : Serde} {x₀ : ControlPlaneState}
    {now₀ : DateTime} {disk₀ : Disk} {reqs : List Request} {p : Pool Op.Res Moment Response}
    (hp : (start cfg serde (.boot x₀ now₀ disk₀) reqs).Reach machine.machine p) {w : World}
    (hstatus : w.status = p.shared.now.status)
    (hsha : Set.InjOn Sha256.digest (stagedInputs cfg p.shared.log ∪ runtimeInputs cfg w)) :
    driftDetected w.status.activeConfigHash (runtimeHash cfg w) = true := by
  have hstart : Ready (applyProtocol cfg True False (.boot x₀ now₀ disk₀)) machine.machine (fun _ _ _ => True)
      (start cfg serde (.boot x₀ now₀ disk₀) reqs) :=
    apply_ready hdirs serde True False (fun _ => True) _ False.elim False.elim
  rw [hstatus]
  rcases (hstart.reach hp).1.hash trivial with hnone | ⟨tree, hread, hfile, hhash⟩
  · rw [hnone]
    exact driftDetected_none _
  · rw [hhash]
    exact driftDetected_of_staged hdirs.staging_runtime hfile hsha (.inl hread.mem_stagedInputs) Set.subset_union_right

theorem converged_of_drift {cfg : DaemonConfig} (hdirs : cfg.DirsApart) {w : World}
    (hdrift : driftDetected w.status.activeConfigHash (runtimeHash cfg w) = true) {t : Nat}
    {r : Except DaemonError Unit} {s' : Moment}
    (h : (reconcileOnce cfg).Eval (machine.machineOn Faultless) t ⟨w, []⟩ r s') : Converged cfg w r s'.now := by
  obtain ⟨s₀, s₁, -, hnow, hq, hout, hnow', hq'⟩ := eval_reconcileOnce h
  cases hout with
  | unread hfault => exact absurd hfault not_faulty_faultless
  | skipped _ hno =>
    rw [hnow] at hno
    exact absurd (hdrift.symm.trans hno) (by decide)
  | ran happ =>
    have hseen : cfg.staging ∉ denials s₀.log t := mt (hq.denied hdirs.staging_runtime.ne).1 List.not_mem_nil
    obtain ⟨r₀, s₂, n, hpost, hr, hst, -, hs₁⟩ := happ.ended hdirs (by rw [hnow]) hq.moves hseen
    cases r₀ with
    | error err => exact absurd hpost.1 not_faulty_faultless
    | ok hash =>
      obtain ⟨T, -, -, hT, hfinished⟩ := hpost
      have hruntime := hfinished.live.runtime
      rw [hT.resolve_right not_faulty_faultless] at hruntime
      simp only [callOn, hnow] at hruntime hst
      rw [hnow', hs₁, hnow]
      exact ⟨hr, hst, rfl, rfl, rfl, rfl, hruntime⟩

/-- A call that meets no fault and no `put_state` returns, with everything in sync. Its status is one that a
run can reach; the stored state and the directories are arbitrary. -/
theorem reconcile_converges {cfg : DaemonConfig} (hdirs : cfg.DirsApart) (serde : Serde) {x₀ : ControlPlaneState}
    {now₀ : DateTime} {disk₀ : Disk} {reqs : List Request} {p : Pool Op.Res Moment Response}
    (hp : (start cfg serde (.boot x₀ now₀ disk₀) reqs).Reach machine.machine p) {w : World}
    (hstatus : w.status = p.shared.now.status) (happly : w.applyLock = none) (hstate : w.stateLock = none)
    (hsha : Set.InjOn Sha256.digest (stagedInputs cfg p.shared.log ∪ runtimeInputs cfg w))
    (t : Nat) :
    (∃ r s', (reconcileOnce cfg).Eval (machine.machineOn Faultless) t ⟨w, []⟩ r s') ∧
    ∀ r s', (reconcileOnce cfg).Eval (machine.machineOn Faultless) t ⟨w, []⟩ r s' → Converged cfg w r s'.now :=
  ⟨reconcileOnce_returns hstate happly, fun _ _ h =>
    converged_of_drift hdirs (drift_reachable hdirs hp hstatus hsha) h⟩

theorem injOn_of_digest_ne {inputs : Set Bytes} {a b : Bytes} (h : inputs ⊆ {a, b})
    (hne : Sha256.digest a ≠ Sha256.digest b) : Set.InjOn Sha256.digest inputs := by
  intro x hx y hy hxy
  rcases h hx with rfl | rfl <;> rcases h hy with rfl | rfl
  · rfl
  · exact absurd hxy hne
  · exact absurd hxy.symm hne
  · rfl

/-- The hand-written file is replaced by the rendered tree. -/
theorem reconcile_converges_running :
    (∃ r s', (reconcileOnce .defaults).Eval (machine.machineOn Faultless) 0 ⟨runningWorld, []⟩ r s') ∧
    ∀ r s', (reconcileOnce .defaults).Eval (machine.machineOn Faultless) 0 ⟨runningWorld, []⟩ r s' →
      Converged .defaults runningWorld r s'.now := by
  have hne : Sha256.digest (hashInput DaemonConfig.defaults.stagingDir (renderTree (.initial 0))) ≠
      Sha256.digest (hashInput DaemonConfig.defaults.runtimeOutputDir
        [("nginx.conf", .file (Text.utf8 "events \x7b \x7d\n"))]) := by
    decide +kernel
  have hreach : (start .defaults sampleSerde (.boot (.initial 0) 0 sampleWorld.disk) []).Reach machine.machine
      (start .defaults sampleSerde sampleWorld []) := .refl
  refine reconcile_converges DaemonConfig.defaults_dirsApart sampleSerde hreach (w := runningWorld) rfl rfl rfl
    (injOn_of_digest_ne ?_ hne) 0
  rintro b (hb | ⟨d, hd, rfl⟩)
  · cases hb
  · obtain rfl := Option.some.inj hd
    exact .inr rfl

section Again

variable {cfg : DaemonConfig} {ok : Choice → Prop} {t : Nat} {s s' : Moment}

/-- A pipeline that succeeds has worked, and returns the hash of a tree that was in the staging directory. -/
theorem eval_pipeline_ok {x : ControlPlaneState} {hash : String}
    (h : (pipeline cfg x).run.Eval (machine.machineOn ok) t s (.ok hash) s') :
    (∃ tree, hash = hashDirectory cfg.stagingDir tree ∧ Hashed cfg s'.log tree ∧ Dir.collect cfg.stagingDir tree ≠ []) ∧
      ∃ e ∈ s'.log, onPipeline e := by
  obtain ⟨rendered, s₁, hrender, h⟩ := eval_tryBind.1 h
  cases rendered with
  | error e => cases h.1
  | ok rendered =>
    obtain ⟨tree, htree, hread, hfile⟩ := eval_hashed hrender
    obtain ⟨_ | _, _, hvalidate, h⟩ := eval_tryBind.1 h
    · cases h.1
    obtain ⟨_ | _, _, hbackup, h⟩ := eval_tryBind.1 h
    · cases h.1
    -- `commit_staging` begins by creating the parent directory
    obtain ⟨_ | _, s₂, hcommit, h⟩ := eval_tryBind.1 h
    · cases h.1
    obtain ⟨b, s₃, hparent, hrest⟩ := eval_attempt.1 hcommit
    have hlog := (step_exec (Prog.eval_perform.1 hparent)).2
    have hmore : s₃.log <:+ s₂.log := by
      cases b with
      | ok _ => exact Exec.eval_suffix hrest
      | error _ => exact hrest.2 ▸ List.suffix_rfl
    obtain ⟨_ | _, s₄, hreload, h⟩ := eval_tryBind.1 h
    · cases h.1
    obtain ⟨hhash, rfl⟩ := h
    have hrest := (Exec.eval_suffix hcommit).trans (Exec.eval_suffix hreload)
    have hgrown := ((Exec.eval_suffix hvalidate).trans (Exec.eval_suffix hbackup)).trans hrest
    refine ⟨⟨tree, (Except.ok.inj hhash).trans htree, hread.mono hgrown, hfile⟩, _,
      (hmore.trans (Exec.eval_suffix hreload)).subset (hlog ▸ List.mem_cons_self), ?_⟩
    exact trivial

/-- A call that found everything in sync: no drift, no step of the pipeline, the same status. -/
structure FoundInSync (cfg : DaemonConfig) (w : World) (r : Except DaemonError Unit) (s' : Moment) : Prop where
  result : r = .ok ()
  drift : driftDetected w.status.activeConfigHash (runtimeHash cfg w) = false
  steps : ∀ e ∈ s'.log, ¬ onPipeline e
  status : s'.now.status = w.status

theorem recorded_hash {w : World} (h : (reconcileOnce cfg).Eval (machine.machineOn ok) t ⟨w, []⟩ (.ok ()) s')
    (hran : ∃ e ∈ s'.log, onPipeline e) :
    ∃ tree, s'.now.status.activeConfigHash = some (hashDirectory cfg.stagingDir tree) ∧ Hashed cfg s'.log tree ∧
      Dir.collect cfg.stagingDir tree ≠ [] := by
  obtain ⟨s₀, s₁, -, hnow, hq, hout, hnow', hq'⟩ := eval_reconcileOnce h
  rw [hnow']
  cases hout with
  | skipped _ _ _ hq₁ =>
    obtain ⟨e, he, hp⟩ := hran
    exact absurd ((((hq.trans hq₁).trans hq').mem_iff hp).1 he) List.not_mem_nil
  | ran happ =>
    obtain ⟨s₂, r₀, s₃, n, -, -, hpipe, hr, hq₁, hs₁⟩ := happ
    cases r₀ with
    | error e => cases hr
    | ok hash =>
      obtain ⟨⟨tree, rfl, hread, hfile⟩, -⟩ := eval_pipeline_ok hpipe
      exact ⟨tree, by rw [hs₁]; rfl, hread.mono (hq₁.trans hq').suffix, hfile⟩

theorem ran_of_drift {w : World} (hdrift : driftDetected w.status.activeConfigHash (runtimeHash cfg w) = true)
    (h : (reconcileOnce cfg).Eval (machine.machineOn ok) t ⟨w, []⟩ (.ok ()) s') : ∃ e ∈ s'.log, onPipeline e := by
  obtain ⟨s₀, s₁, -, hnow, -, hout, -, hq'⟩ := eval_reconcileOnce h
  cases hout with
  | skipped _ hno =>
    rw [hnow] at hno
    exact absurd (hdrift.symm.trans hno) (by decide)
  | ran happ =>
    obtain ⟨s₂, r₀, s₃, n, -, -, hpipe, hr, hq, -⟩ := happ
    cases r₀ with
    | error e => cases hr
    | ok hash =>
      obtain ⟨e, he, hp⟩ := (eval_pipeline_ok hpipe).2
      exact ⟨e, ((hq.trans hq').mem_iff hp).2 he, hp⟩

theorem drift_after_apply (hapart : PathBuf.Apart cfg.staging cfg.runtime) {w w' : World}
    (h : (reconcileOnce cfg).Eval (machine.machineOn ok) t ⟨w, []⟩ (.ok ()) s)
    (hran : ∃ e ∈ s.log, onPipeline e) (hstatus : w'.status = s.now.status)
    (hsha : Set.InjOn Sha256.digest (stagedInputs cfg s.log ∪ runtimeInputs cfg w')) :
    driftDetected w'.status.activeConfigHash (runtimeHash cfg w') = true := by
  obtain ⟨tree, hhash, hread, hfile⟩ := recorded_hash h hran
  rw [hstatus, hhash]
  exact driftDetected_of_staged hapart hfile hsha (.inl hread.mem_stagedInputs) Set.subset_union_right

/-- The next call after a finished apply does not find anything in sync, and runs the pipeline again. Whether
the stored state or the runtime directory have changed in between makes no difference. -/
theorem reconcile_repeats (hapart : PathBuf.Apart cfg.staging cfg.runtime) {w w' : World}
    (h : (reconcileOnce cfg).Eval (machine.machineOn ok) t ⟨w, []⟩ (.ok ()) s)
    (hran : ∃ e ∈ s.log, onPipeline e) (hstatus : w'.status = s.now.status)
    (hsha : Set.InjOn Sha256.digest (stagedInputs cfg s.log ∪ runtimeInputs cfg w'))
    {t' : Nat} {r : Except DaemonError Unit}
    (h' : (reconcileOnce cfg).Eval (machine.machineOn ok) t' ⟨w', []⟩ r s') :
    ¬ FoundInSync cfg w' r s' ∧ (r = .ok () → ∃ e ∈ s'.log, onPipeline e) := by
  have hdrift := drift_after_apply hapart h hran hstatus hsha
  refine ⟨fun hfound => absurd (hdrift.symm.trans hfound.drift) (by decide), ?_⟩
  rintro rfl
  exact ran_of_drift hdrift h'

end Again

theorem two_applies : ∃ s s', (reconcileOnce .defaults).Eval (machine.machineOn Faultless) 0 ⟨sampleWorld, []⟩ (.ok ()) s ∧
    (∃ e ∈ s.log, onPipeline e) ∧ Set.InjOn Sha256.digest
      (stagedInputs .defaults s.log ∪ runtimeInputs .defaults s.now) ∧
    (reconcileOnce .defaults).Eval (machine.machineOn Faultless) 0 ⟨s.now, []⟩ (.ok ()) s' := by
  have hdirs := DaemonConfig.defaults_dirsApart
  have hrun : (machine.run 0 (reconcileOnce .defaults) (List.replicate 22 ⟨0, none, 0⟩) ⟨sampleWorld, []⟩).map
      (fun p => (p.2.now.stateLock, p.2.now.applyLock, p.2.log.filterMap (hashedInput .defaults))) =
      some (none, none, [hashInput DaemonConfig.defaults.stagingDir (renderTree (.initial 0))]) := by
    decide +kernel
  obtain ⟨⟨r, s⟩, hp, hres⟩ := Option.map_eq_some_iff.1 hrun
  simp only [Prod.mk.injEq] at hres
  obtain ⟨hstate, happly, hinputs⟩ := hres
  have h : (reconcileOnce .defaults).Eval (machine.machineOn Faultless) 0 ⟨sampleWorld, []⟩ r s :=
    Prog.eval_of_run (fun c hc => by rw [List.eq_of_mem_replicate hc]; rfl) hp
  have hconv := converged_of_drift hdirs (driftDetected_none _) h
  obtain rfl := hconv.result
  have hran := ran_of_drift (driftDetected_none _) h
  have hne : Sha256.digest (hashInput DaemonConfig.defaults.stagingDir (renderTree (.initial 0))) ≠
      Sha256.digest (hashInput DaemonConfig.defaults.runtimeOutputDir (renderTree (.initial 0))) := by
    decide +kernel
  have hsha : Set.InjOn Sha256.digest
      (stagedInputs .defaults s.log ∪ runtimeInputs .defaults s.now) := by
    refine injOn_of_digest_ne ?_ hne
    rintro b (hb | ⟨d, hd, rfl⟩)
    · exact .inl (List.mem_singleton.1 (hinputs ▸ hb))
    · rw [hconv.runtime, Option.some.injEq] at hd
      rw [← hd]
      exact .inr rfl
  have hdrift := drift_after_apply hdirs.staging_runtime h hran rfl hsha
  have hreturns : ∃ r' s', (reconcileOnce .defaults).Eval (machine.machineOn Faultless) 0 ⟨s.now, []⟩ r' s' :=
    reconcileOnce_returns hstate happly
  obtain ⟨r', s', h'⟩ := hreturns
  obtain rfl := (converged_of_drift hdirs hdrift h').result
  exact ⟨s, s', h, hran, hsha, h'⟩

theorem reconcile_repeats_sample : ∃ s s',
    (reconcileOnce .defaults).Eval (machine.machineOn Faultless) 0 ⟨sampleWorld, []⟩ (.ok ()) s ∧
    (reconcileOnce .defaults).Eval (machine.machineOn Faultless) 0 ⟨s.now, []⟩ (.ok ()) s' ∧
    ∃ e ∈ s'.log, onPipeline e := by
  obtain ⟨s, s', h, hran, hsha, h'⟩ := two_applies
  exact ⟨s, s', h, h',
    (reconcile_repeats DaemonConfig.defaults_dirsApart.staging_runtime h hran rfl hsha h').2 rfl⟩

/-- Nothing has changed in between, and yet the second call does not find anything in sync. -/
theorem reconcile_not_idempotent : ∃ s s',
    (reconcileOnce .defaults).Eval (machine.machineOn Faultless) 0 ⟨sampleWorld, []⟩ (.ok ()) s ∧
    (∃ e ∈ s.log, onPipeline e) ∧ Set.InjOn Sha256.digest
      (stagedInputs .defaults s.log ∪ runtimeInputs .defaults s.now) ∧
    (reconcileOnce .defaults).Eval (machine.machineOn Faultless) 0 ⟨s.now, []⟩ (.ok ()) s' ∧
    ¬ FoundInSync .defaults s.now (.ok ()) s' := by
  obtain ⟨s, s', h, hran, hsha, h'⟩ := two_applies
  refine ⟨s, s', h, hran, hsha, h', fun hfound => ?_⟩
  obtain ⟨e, he, hp⟩ := ran_of_drift (drift_after_apply DaemonConfig.defaults_dirsApart.staging_runtime h hran rfl hsha) h'
  exact hfound.steps e he hp

end NginxAdmin.Daemon
