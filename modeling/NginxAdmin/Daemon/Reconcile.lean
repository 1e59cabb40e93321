import NginxAdmin.Daemon.ApplyRun
import NginxAdmin.Daemon.Drift

/-!
# One call of `reconcile_once`

`eval_reconcileOnce` says what a call that runs alone does, from any state: it cannot read the runtime
directory, it finds everything in sync, or it runs the pipeline between two marks in the status. What the
pipeline does is taken from `triple_pipeline`.
-/

namespace NginxAdmin.Daemon

open Protocol

/-- From `s` to `s'` thread `t` has done nothing on the pipeline, no directory but the runtime directory has been denied
to it, and nobody else has done anything. -/
def Quietly (cfg : DaemonConfig) (t : Nat) (s s' : Moment) : Prop :=
  ∃ l, s'.log = l ++ s.log ∧ ∀ e ∈ l, e.tid = t ∧ ¬ onPipeline e ∧ ∀ d ∈ denialOf t e, d = cfg.runtime

section Calls

variable {cfg : DaemonConfig} {ok : Choice → Prop} {t : Nat} {s s' s'' : Moment}

theorem Quietly.refl (s : Moment) : Quietly cfg t s s := ⟨[], rfl, by simp⟩

theorem Quietly.trans (h : Quietly cfg t s s') (h' : Quietly cfg t s' s'') : Quietly cfg t s s'' := by
  obtain ⟨l, hl, hq⟩ := h
  obtain ⟨l', hl', hq'⟩ := h'
  refine ⟨l' ++ l, by rw [hl', hl, List.append_assoc], fun e he => ?_⟩
  exact (List.mem_append.1 he).elim (hq' e) (hq e)

theorem Quietly.of_step {o : Op} {r : o.Res} (ho : ¬ o.OnPipeline) (hne : ∀ l, o = .exists l → l = cfg.runtime)
    (hlog : s'.log = .did t o r s.now s'.now :: s.log) : Quietly cfg t s s' := by
  refine ⟨[_], hlog, fun e he => ?_⟩
  rw [List.mem_singleton.1 he]
  refine ⟨rfl, ho, fun d hd => ?_⟩
  cases o <;> first | cases hd | skip
  case «exists» l =>
    cases r with
    | true => cases hd
    | false =>
      obtain ⟨-, hd⟩ := Option.ite_none_right_eq_some.1 hd
      rw [← Option.some.inj hd]
      exact hne l rfl

theorem Quietly.mem_iff (h : Quietly cfg t s s') {e : Event Op.Res World} (he : onPipeline e) :
    e ∈ s'.log ↔ e ∈ s.log := by
  obtain ⟨l, hl, hq⟩ := h
  rw [hl, List.mem_append]
  exact ⟨fun hm => hm.resolve_left fun hm => (hq e hm).2.1 he, .inr⟩

theorem Quietly.suffix (h : Quietly cfg t s s') : s.log <:+ s'.log := by
  obtain ⟨l, hl, -⟩ := h
  exact ⟨l, hl.symm⟩

theorem Quietly.moves (h : Quietly cfg t s s') : moves s'.log t = moves s.log t := by
  obtain ⟨l, hl, hq⟩ := h
  rw [hl, Daemon.moves, List.filterMap_append, List.filterMap_eq_nil_iff.2 fun e he => ?_]
  · rfl
  · unfold moveOf
    split
    · exact absurd trivial (hq _ he).2.1
    · rfl

theorem Quietly.denied (h : Quietly cfg t s s') (hne : cfg.staging ≠ cfg.runtime) :
    cfg.staging ∈ denials s'.log t ↔ cfg.staging ∈ denials s.log t := by
  obtain ⟨l, hl, hq⟩ := h
  rw [hl, denials, List.filterMap_append, List.mem_append, or_iff_right]
  · rfl
  · intro hm
    obtain ⟨e, he, hd⟩ := List.mem_filterMap.1 hm
    exact hne ((hq e he).2.2 _ hd)

theorem step_exec {o : Op} {r : o.Res} (h : (machine.machineOn ok).step t o s r s') :
    (∃ c, ok c ∧ o.exec t c s.now = some (r, s'.now)) ∧ s'.log = .did t o r s.now s'.now :: s.log :=
  Exec.traced_step.1 h

theorem eval_hashRuntime {r : Except DaemonError (Option String)}
    (h : (hashRuntime cfg).run.Eval (machine.machineOn ok) t s r s') :
    s'.now = s.now ∧ Quietly cfg t s s' ∧
      (r = .ok (runtimeHash cfg s.now) ∨ r = .ok none ∨ (∃ err, r = .error err) ∧ Faulty ok) := by
  rw [hashRuntime, eval_ask] at h
  obtain ⟨b, s₁, hexists, h⟩ := h
  obtain ⟨⟨c, -, hexec⟩, hlog⟩ := step_exec hexists
  obtain ⟨hnow, hb⟩ := exec_exists hexec
  have hq : Quietly cfg t s s₁ := .of_step (o := .exists cfg.runtime) id (fun _ h => (Op.exists.inj h).symm) hlog
  cases b with
  | false =>
    obtain ⟨rfl, rfl⟩ := h
    exact ⟨hnow, hq, .inr (.inl rfl)⟩
  | true =>
    obtain ⟨tree, hd⟩ : ∃ tree, s.now.disk.dirs cfg.runtime = some tree := by
      rcases hb with hb | ⟨hb, -⟩
      · exact Option.isSome_iff_exists.1 hb.symm
      · cases hb
    obtain ⟨a, s₂, hread, h⟩ := eval_attempt.1 h
    obtain ⟨⟨c', hc', hexec'⟩, hlog'⟩ := step_exec (Prog.eval_perform.1 hread)
    have hq' : Quietly cfg t s s₂ := hq.trans (.of_step (o := .readTree cfg.runtime) id (fun _ h => by cases h) hlog')
    rw [hnow] at hexec'
    obtain ⟨hnow', ⟨tree', rfl, htree⟩ | ⟨e, rfl, hfault | hmissing⟩⟩ := exec_readTree hexec'
    · obtain ⟨rfl, rfl⟩ := h
      rw [hd, Option.some.injEq] at htree
      exact ⟨hnow', hq', .inl (by rw [runtimeHash, hd, htree]; rfl)⟩
    · obtain ⟨rfl, rfl⟩ := h
      exact ⟨hnow', hq', .inr (.inr ⟨⟨_, rfl⟩, c', hc', hfault⟩)⟩
    · rw [hd] at hmissing; cases hmissing

/-- The mark at the end of the pipeline. -/
def markOf (revision : UInt64) : Except DaemonError String → StatusUpdate
  | .ok hash => .inSync revision hash
  | .error err => .degraded err.toString

/-- `mark_applying` has been done: the world is `w` up to the status, which observes the same. -/
structure Started (w : World) (s : Moment) : Prop where
  memory : ∃ st, s.now = { w with status := st }
  observed : s.now.status.observedRevision = w.status.observedRevision
  hash : s.now.status.activeConfigHash = w.status.activeConfigHash
  applying : s.now.status.syncState = .applying

/-- From `s` to `s'` a call has run the pipeline for `x`, between two marks in the status. -/
def Applies (cfg : DaemonConfig) (ok : Choice → Prop) (t : Nat) (x : ControlPlaneState) (s : Moment)
    (r : Except DaemonError Unit) (s' : Moment) : Prop :=
  ∃ s₁ r₀ s₂ n, Quietly cfg t s s₁ ∧ Started s.now s₁ ∧
    (pipeline cfg x).run.Eval (machine.machineOn ok) t s₁ r₀ s₂ ∧ r = r₀.map (fun _ => ()) ∧ Quietly cfg t s₂ s' ∧
    s'.now = { s₂.now with status := (markOf x.revision r₀).apply n s₂.now.status }

theorem eval_applyState {x : ControlPlaneState} {status : RuntimeStatus} {hash : Option String}
    {r : Except DaemonError Unit}
    (h : (applyState cfg x status hash).run.Eval (machine.machineOn ok) t s r s') :
    Applies cfg ok t x s r s' := by
  -- the pipeline and its marks, after a possible `mark_out_of_sync`
  have start : ∀ {s₀ : Moment}, (∃ st, s₀.now = { s.now with status := st }) →
      s₀.now.status.observedRevision = s.now.status.observedRevision →
      s₀.now.status.activeConfigHash = s.now.status.activeConfigHash → Quietly cfg t s s₀ →
      (runPipeline cfg x).run.Eval (machine.machineOn ok) t s₀ r s' → Applies cfg ok t x s r s' := by
    rintro s₀ ⟨st, hs₀⟩ ho hh hq he
    rw [runPipeline, markApplying, eval_ask] at he
    obtain ⟨_, s₁, hmark, he⟩ := he
    obtain ⟨⟨c, -, hexec⟩, hlog⟩ := step_exec hmark
    have hnow := (Prod.mk.inj (Option.some.inj hexec)).2.symm
    obtain ⟨r₀, s₂, hpipe, he⟩ := eval_lift.1 he
    refine ⟨s₁, r₀, s₂, ?_⟩
    have hstarted : Started s.now s₁ := by
      refine ⟨⟨_, hnow.trans (by rw [hs₀])⟩, ?_, ?_, ?_⟩ <;> rw [hnow]
      · exact ho
      · exact hh
      · rfl
    have hquiet : Quietly cfg t s s₁ := hq.trans (.of_step (o := .updateStatus .applying) id (fun _ h => by cases h) hlog)
    cases r₀ with
    | ok hash =>
      obtain ⟨_, s₃, hmark', hret⟩ := Prog.eval_bind.1 he
      obtain ⟨rfl, rfl⟩ := hret
      obtain ⟨⟨c', -, hexec'⟩, hlog'⟩ := step_exec (Prog.eval_perform.1 hmark')
      exact ⟨c'.now, hquiet, hstarted, hpipe, rfl, .of_step (o := .updateStatus _) id (fun _ h => by cases h) hlog',
        (Prod.mk.inj (Option.some.inj hexec')).2.symm⟩
    | error err =>
      obtain ⟨_, s₃, hmark', hret⟩ := eval_ask.1 he
      obtain ⟨rfl, rfl⟩ := hret
      obtain ⟨⟨c', -, hexec'⟩, hlog'⟩ := step_exec hmark'
      exact ⟨c'.now, hquiet, hstarted, hpipe, rfl, .of_step (o := .updateStatus _) id (fun _ h => by cases h) hlog',
        (Prod.mk.inj (Option.some.inj hexec')).2.symm⟩
  rw [applyState] at h
  cases hd : driftDetected status.activeConfigHash hash with
  | false =>
    rw [hd] at h
    exact start ⟨s.now.status, rfl⟩ rfl rfl (.refl s) h
  | true =>
    rw [hd] at h
    obtain ⟨_, s₀, hmark, h⟩ := eval_ask.1 h
    obtain ⟨⟨c, -, hexec⟩, hlog⟩ := step_exec hmark
    have hnow := (Prod.mk.inj (Option.some.inj hexec)).2.symm
    have hquiet : Quietly cfg t s s₀ := .of_step (o := .updateStatus _) id (fun _ h => by cases h) hlog
    exact start ⟨_, hnow⟩ (by rw [hnow]; rfl) (by rw [hnow]; rfl) hquiet h

/-- How a call that runs alone ends. `s₀` is the moment at which it has the apply lock. -/
inductive Outcome (cfg : DaemonConfig) (ok : Choice → Prop) (t : Nat) (s₀ : Moment) :
    Except DaemonError Unit → Moment → Prop
  | unread {err : DaemonError} {s' : Moment} (hfault : Faulty ok) (hnow : s'.now = s₀.now)
      (hq : Quietly cfg t s₀ s') : Outcome cfg ok t s₀ (.error err) s'
  | skipped {s' : Moment} (hrev : s₀.now.state.revision ≤ s₀.now.status.observedRevision)
      (hdrift : driftDetected s₀.now.status.activeConfigHash (runtimeHash cfg s₀.now) = false)
      (hnow : s'.now = s₀.now) (hq : Quietly cfg t s₀ s') : Outcome cfg ok t s₀ (.ok ()) s'
  | ran {r : Except DaemonError Unit} {s' : Moment} (h : Applies cfg ok t s₀.now.state s₀ r s') :
      Outcome cfg ok t s₀ r s'

theorem eval_reconcileLocked {r : Except DaemonError Unit}
    (h : (reconcileLocked cfg).run.Eval (machine.machineOn ok) t s r s') : Outcome cfg ok t s r s' := by
  rw [reconcileLocked, getState, getStatus, eval_lift] at h
  obtain ⟨x, s₁, hstate, h⟩ := h
  obtain ⟨status, s₂, hstatus, h⟩ := eval_lift.1 h
  obtain ⟨⟨c, -, hexec⟩, hlog⟩ := step_exec (Prog.eval_perform.1 hstate)
  obtain ⟨⟨c', -, hexec'⟩, hlog'⟩ := step_exec (Prog.eval_perform.1 hstatus)
  obtain ⟨rfl, hnow⟩ : x = s.now.state ∧ s₁.now = s.now := by
    simp only [Op.exec] at hexec
    split at hexec
    · obtain ⟨hx, hw⟩ := Prod.mk.inj (Option.some.inj hexec)
      exact ⟨hx.symm, hw.symm⟩
    · cases hexec
  obtain ⟨rfl, hnow'⟩ := Prod.mk.inj (Option.some.inj hexec')
  have hq : Quietly cfg t s s₂ :=
    (Quietly.of_step (o := .readState) id (fun _ h => by cases h) hlog).trans (.of_step (o := .readStatus) id (fun _ h => by cases h) hlog')
  rw [hnow] at hnow' h
  obtain ⟨hash, s₃, hhash, h⟩ := eval_tryBind.1 h
  obtain ⟨hnow₃, hq₃, hres⟩ := eval_hashRuntime hhash
  have hq' := hq.trans hq₃
  have ran : ∀ {hash}, (applyState cfg s.now.state s.now.status hash).run.Eval (machine.machineOn ok) t s₃ r s' →
      Outcome cfg ok t s r s' := fun h => by
    obtain ⟨s₄, r₀, s₅, n, hq₄, hstarted, hrest⟩ := eval_applyState h
    rw [hnow₃, ← hnow'] at hstarted
    exact .ran ⟨s₄, r₀, s₅, n, hq'.trans hq₄, hstarted, hrest⟩
  rcases hres with rfl | rfl | ⟨⟨err, rfl⟩, hfault⟩
  · rw [← hnow'] at hnow₃ h
    dsimp only at h
    split at h
    · rename_i hskip
      obtain ⟨rfl, rfl⟩ := h
      exact .skipped hskip.1 hskip.2 hnow₃ hq'
    · exact ran h
  · -- the runtime directory is missing or not seen: this is drift
    dsimp only at h
    split at h
    · rename_i hskip
      cases hskip.2
    · exact ran h
  · obtain ⟨rfl, rfl⟩ := h
    exact .unread hfault (hnow₃.trans hnow'.symm) hq'

/-- The whole call: it takes the lock, and gives it back. -/
theorem eval_reconcileOnce {r : Except DaemonError Unit}
    (h : (reconcileOnce cfg).Eval (machine.machineOn ok) t s r s') :
    ∃ s₀ s₁, s.now.applyLock = none ∧ s₀.now = { s.now with applyLock := some t } ∧ Quietly cfg t s s₀ ∧
      Outcome cfg ok t s₀ r s₁ ∧ s'.now = { s₁.now with applyLock := none } ∧ Quietly cfg t s₁ s' := by
  simp only [reconcileOnce, Prog.eval_bind, Prog.eval_perform, Prog.eval_pure] at h
  obtain ⟨_, s₀, hlock, r', s₁, hbody, _, s₂, hunlock, rfl, rfl⟩ := h
  obtain ⟨⟨c, -, hexec⟩, hlog⟩ := step_exec hlock
  obtain ⟨⟨c', -, hexec'⟩, hlog'⟩ := step_exec hunlock
  simp only [Op.exec] at hexec
  split at hexec
  · rename_i hfree
    have hnow := (Prod.mk.inj (Option.some.inj hexec)).2.symm
    have hnow' := (Prod.mk.inj (Option.some.inj hexec')).2.symm
    have hq : Quietly cfg t s s₀ := .of_step (o := .lockApply) id (fun _ h => by cases h) hlog
    have hq' : Quietly cfg t s₁ s' := .of_step (o := .unlockApply) id (fun _ h => by cases h) hlog'
    exact ⟨s₀, s₁, hfree, hnow, hq, eval_reconcileLocked hbody, hnow', hq'⟩
  · cases hexec

end Calls

end NginxAdmin.Daemon
