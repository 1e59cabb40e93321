import NginxAdmin.Daemon.Service

/-!
# What `put_state` returns

A result of `put_state` says something about its draft, whatever the other threads do and whether operations
fail: a state is returned only when it is the draft as committed, and it has been validated.
-/

namespace NginxAdmin.Daemon

/-- `x` is the draft as it is committed on top of a state, and it was accepted. -/
structure AcceptedAs (expected : UInt64) (draft x : ControlPlaneState) : Prop where
  updatedBy : Text.trim draft.updatedBy ≠ ""
  committed : ∃ current n, current.revision = expected ∧ x = commitDraft current draft n
  valid : validateState x = .ok ()

variable {serde : Serde} {expected : UInt64} {draft : ControlPlaneState}

theorem returns_putStateLocked (current : ControlPlaneState) :
    (putStateLocked serde current expected draft).run.Returns fun r => ∀ x, r = .ok x → AcceptedAs expected draft x := by
  unfold putStateLocked
  split
  · exact fun x h => by cases h
  split
  · exact fun x h => by cases h
  rename_i hrev hby
  refine Prog.Returns.tryBind (Prog.returns_true _) (fun n _ => ?_) fun e _ x h => by cases h
  refine Prog.Returns.tryBind (x := check _) (R := fun r => r = validateState (commitDraft current draft n)) rfl
    (fun _ hvalid => ?_) fun e _ x h => by cases h
  refine Prog.Returns.tryBind (Prog.returns_true _) (fun _ _ => ?_) fun e _ x h => by cases h
  refine Prog.Returns.tryBind (Prog.returns_true _) (fun _ _ => ?_) fun e _ x h => by cases h
  refine Prog.Returns.tryBind (Prog.returns_true _) (fun _ _ => ?_) fun e _ x h => by cases h
  rintro x h
  obtain rfl := Except.ok.inj h
  exact ⟨hby, ⟨current, n, not_not.1 hrev, rfl⟩, hvalid.symm⟩

theorem returns_putState :
    (putState serde expected draft).Returns fun r => ∀ x, r = .ok x → AcceptedAs expected draft x :=
  Prog.Returns.bind (Prog.returns_true _) fun current _ => (returns_putStateLocked current).bind fun _ hr =>
    Prog.Returns.bind (Prog.returns_true _) fun _ _ => hr

/-- In every run of the daemon, faults and dropped requests included. -/
theorem acceptedAs_of_put {cfg : DaemonConfig} {w : World} {reqs : List Request} {p : Pool Op.Res Moment Response}
    (hp : (start cfg serde w reqs).Reach machine.machine p) {t : Nat} {x : ControlPlaneState}
    (hreq : reqs[t]? = some (.putState expected draft)) (hret : p.threads t = some (.ret (.put (.ok x)))) :
    AcceptedAs expected draft x := by
  have hstart : ∀ q, (start cfg serde w reqs).threads t = some q →
      q.Returns fun r => ∀ x, r = Response.put (.ok x) → AcceptedAs expected draft x := by
    intro q hq
    obtain ⟨req, hreq', rfl⟩ := Option.map_eq_some_iff.1 hq
    obtain rfl : Request.putState expected draft = req := Option.some.inj (hreq.symm.trans hreq')
    exact returns_putState.bind fun r hr x h => hr x (Response.put.inj h)
  exact hp.returns hstart _ hret x rfl

/-- A put on the current revision goes through when nothing fails. -/
theorem run_putState {w : World} {payload : Bytes} (hlock : w.stateLock = none) (hby : Text.trim draft.updatedBy ≠ "")
    (hvalid : validateState (commitDraft w.state draft 0) = .ok ())
    (hpayload : serde.toVecPretty (commitDraft w.state draft 0) = .ok payload) :
    ∃ s, machine.run 0 (putState serde w.state.revision draft) (List.replicate 7 ⟨0, none, 0⟩) ⟨w, []⟩ =
      some (.ok (commitDraft w.state draft 0), s) := by
  simp [putState, putStateLocked, writeStateFile, hlock, hby, hvalid, hpayload, perform, ask, check, attempt,
    Prog.perform, Prog.bind, Exec.run, machine, Exec.traced, Op.exec, World.io, Disk.renameTmp, List.replicate,
    ExceptT.run, ExceptT.mk, ExceptT.lift, ExceptT.bind, ExceptT.bindCont, ExceptT.pure, Except.mapError, bind, pure, Functor.map]

theorem exists_put (cfg : DaemonConfig) {w : World} {payload : Bytes} (hlock : w.stateLock = none)
    (hby : Text.trim draft.updatedBy ≠ "") (hvalid : validateState (commitDraft w.state draft 0) = .ok ())
    (hpayload : serde.toVecPretty (commitDraft w.state draft 0) = .ok payload) :
    ∃ p, (start cfg serde w [.putState w.state.revision draft]).Reach machine.machine p ∧
      p.threads 0 = some (.ret (.put (.ok (commitDraft w.state draft 0)))) := by
  obtain ⟨s, hrun⟩ := run_putState hlock hby hvalid hpayload
  have heval : (putState serde w.state.revision draft).Eval machine.machine 0 ⟨w, []⟩ _ s :=
    Prog.eval_of_run (fun _ _ => trivial) hrun
  have hresponse := Prog.eval_bind (f := fun r => pure (Response.put r)).2 ⟨_, s, heval, Prog.eval_pure.2 ⟨rfl, rfl⟩⟩
  obtain ⟨p, hp, hret, -⟩ := Pool.Reach.of_eval (p := start cfg serde w [.putState w.state.revision draft]) rfl hresponse
  exact ⟨p, hp, hret⟩

end NginxAdmin.Daemon
