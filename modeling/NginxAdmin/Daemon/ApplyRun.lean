import NginxAdmin.Daemon.Pipeline
import NginxAdmin.Daemon.Service

/-!
# The threads of the daemon keep the invariant of the pipeline

One triple for each kind of request; `apply_ready` is the result about whole runs.
-/

namespace NginxAdmin.Daemon

open Protocol

section Threads

variable {cfg : DaemonConfig} {gated closed : Prop} {w₀ : World} {ok : Choice → Prop} {t : Nat}

theorem triple_isAside {α : Type} {p : Code α} (hp : p.All Op.IsAside) :
    (applyProtocol cfg gated closed w₀).Triple (machine.machineOn ok) t (fun _ => True) p fun _ _ => True := by
  have htrue : (applyProtocol cfg gated closed w₀).Stable t fun _ => True := fun _ _ _ _ => trivial
  refine (Triple.all htrue (fun o ho => ?_) hp).post fun _ _ _ _ => trivial
  exact performs_aside ho fun _ _ _ _ _ _ _ _ _ _ _ => trivial

theorem writeStateFile_isAside (serde : Serde) (x : ControlPlaneState) :
    (writeStateFile serde x).run.All Op.IsAside := by
  refine all_bind (all_check _) fun _ => ?_
  exact all_bind (all_attempt (.perform trivial)) fun _ => all_attempt (.perform trivial)

theorem putState_isAside (serde : Serde) (expected : UInt64) (draft : ControlPlaneState) :
    (putState serde expected draft).All Op.IsAside := by
  refine .bind (.perform trivial) fun x => .bind ?_ fun r => .bind (.perform trivial) fun _ => trivial
  unfold putStateLocked
  split
  · exact trivial
  split
  · exact trivial
  refine all_bind (all_ask trivial) fun now => all_bind (all_check _) fun _ => ?_
  refine all_bind (writeStateFile_isAside serde _) fun _ => all_bind (all_ask trivial) fun _ => ?_
  exact all_bind (all_ask trivial) fun _ => trivial

theorem triple_externalEdit (hc : ¬ closed) (l : Location) (content : Option Dir) :
    (applyProtocol cfg gated closed w₀).Triple (machine.machineOn ok) t (fun _ => True)
      (perform (.externalEdit l content)) fun _ _ => True := by
  have htrue : (applyProtocol cfg gated closed w₀).Stable t fun _ => True := fun _ _ _ _ => trivial
  refine Triple.perform htrue (fun _ => htrue) (apply_performs fun s r s' c _ hinv _ hexec hlog => ?_)
  simp only [Op.exec] at hexec
  split at hexec
  · rename_i hlock
    have hnow := (Prod.mk.inj (Option.some.inj hexec)).2.symm
    refine ⟨False.elim, ⟨.inl (by rw [hnow]), fun u _ hu => ?_⟩, ?_, trivial⟩
    · rw [hlock] at hu; cases hu
    · refine hinv.step hlog (fun _ => .of_same id (fun h => absurd trivial h) ?_ ?_)
        (hinv.stored_of_same hlog (by rw [hnow])) (by rw [hnow]) (by rw [hnow]) fun h => absurd h hc
      · rw [hnow]; rfl
      · rw [hnow]; rfl
  · cases hexec

/-! ### `reconcile_once` -/

/-- Thread `t` has done nothing yet. -/
def Fresh (t : Nat) (s : Moment) : Prop := ∀ e ∈ s.log, e.tid ≠ t

theorem fresh_nil (t : Nat) (w : World) : Fresh t ⟨w, []⟩ := fun _ he => by cases he

theorem stable_fresh : (applyProtocol cfg gated closed w₀).Stable t (Fresh t) := by
  intro s s' h hr e he
  obtain ⟨l, hl, ht, -⟩ := hr.log
  rw [hl, List.mem_append] at he
  exact he.elim (ht e) (h e)

theorem Fresh.moves {s : Moment} (h : Fresh t s) : moves s.log t = [] :=
  List.filterMap_eq_nil_iff.2 fun e he => moveOf_of_ne (h e he)

theorem Fresh.denials {s : Moment} (h : Fresh t s) : denials s.log t = [] :=
  List.filterMap_eq_nil_iff.2 fun e he => denialOf_of_ne (h e he)

/-- Thread `t` has the apply lock, since the directories were `dirs` and the status observed `o` and `h`. -/
structure Holding (cfg : DaemonConfig) (gated : Prop) (t : Nat) (dirs : Location → Option Dir) (o : UInt64)
    (h : Option String) (s : Moment) : Prop where
  lock : s.now.applyLock = some t
  began : gated → Began cfg s.log t (dirs cfg.runtime)
  unmoved : moves s.log t = []
  seen : cfg.staging ∉ denials s.log t
  same : s.now.disk.dirs = dirs
  observed : s.now.status.observedRevision = o
  hash : s.now.status.activeConfigHash = h

theorem stable_holding {dirs : Location → Option Dir} {o : UInt64} {h : Option String} :
    (applyProtocol cfg gated closed w₀).Stable t (Holding cfg gated t dirs o h) := by
  intro s s' hs hr
  obtain ⟨-, ho, hh, -⟩ := hr.held hs.lock
  have hb : Beside cfg t s s' := hr.beside hs.lock
  obtain ⟨l, hl, -, hp⟩ := hr.log
  refine ⟨hr.applyLock.2 hs.lock, fun hg => ?_, hb.moves.trans hs.unmoved, mt hb.denied.1 hs.seen,
    hb.dirs.trans hs.same, ho.trans hs.observed, hh.trans hs.hash⟩
  rw [hl]
  exact (hs.began hg).append fun e he hp' => absurd hp' (hp hs.lock e he)

theorem performs_lockApply :
    (applyProtocol cfg gated closed w₀).Performs (machine.machineOn ok) t (Fresh t) .lockApply
      fun _ s => ∃ dirs o h, Holding cfg gated t dirs o h s := by
  refine apply_performs fun s r s' c hs hinv _ hexec hlog => ?_
  simp only [Op.exec] at hexec
  split at hexec
  · rename_i hlock
    have hnow := (Prod.mk.inj (Option.some.inj hexec)).2.symm
    have ha : Aside s.now s'.now := by rw [hnow]; exact ⟨rfl, rfl, rfl, id⟩
    have hinv' := hinv.aside hlog rfl rfl id ha (hinv.stored_of_same hlog (by rw [hnow]))
    have hbegan : Began cfg s'.log t (s.now.disk.dirs cfg.runtime) :=
      ⟨[], s.log, s.now, s'.now, hlog, rfl, by simp⟩
    have hb : Beside cfg t s s' := .of_step (o := .lockApply) hlog id (fun h => by cases h) ha.dirs
    have hseen : cfg.staging ∉ denials s.log t := by
      rw [hs.denials]
      exact List.not_mem_nil
    exact ⟨False.elim, ha.owed (.inr (.inl ⟨hlock, by rw [hnow]⟩)), hinv', s.now.disk.dirs, _, _,
      by rw [hnow], fun _ => hbegan, hb.moves.trans hs.moves, mt hb.denied.1 hseen, ha.dirs, rfl, rfl⟩
  · cases hexec

/-- The call works on the state `x`, which has been read. -/
def Read (cfg : DaemonConfig) (gated : Prop) (w₀ : World) (k : Call) (s : Moment) : Prop :=
  Holding cfg gated k.t k.dirs k.observed k.hash s ∧ (gated → Committed w₀ s.log k.x)

theorem stable_read {k : Call} : (applyProtocol cfg gated closed w₀).Stable k.t (Read cfg gated w₀ k) :=
  fun s s' h hr => ⟨stable_holding s s' h.1 hr, fun hg => (h.2 hg).mono hr.suffix⟩

theorem Holding.aside {dirs : Location → Option Dir} {n : UInt64} {h : Option String} {s s' : Moment} {o : Op}
    {r : o.Res} (hs : Holding cfg gated t dirs n h s) (ho : o.IsAside) (hne : o ≠ .exists cfg.staging)
    (hlog : s'.log = .did t o r s.now s'.now :: s.log) (ha : Aside s.now s'.now)
    (hl : s'.now.applyLock = s.now.applyLock) : Holding cfg gated t dirs n h s' := by
  have hren : ¬ o.IsRename := fun hr => ho.not_onPipeline hr.onPipeline
  have hb : Beside cfg t s s' := .of_step hlog hren hne ha.dirs
  refine ⟨hl.trans hs.lock, fun hg => ?_, hb.moves.trans hs.unmoved, mt hb.denied.1 hs.seen, hb.dirs.trans hs.same,
    ha.observed.trans hs.observed, ha.hash.trans hs.hash⟩
  rw [hlog]
  refine (hs.began hg).append (l := [_]) fun e he _ => ?_
  rw [List.mem_singleton.1 he]; rfl

theorem performs_read {k : Call} {o : Op} (ho : o.IsAside) (hne : o ≠ .exists cfg.staging) :
    (applyProtocol cfg gated closed w₀).Performs (machine.machineOn ok) k.t (Read cfg gated w₀ k) o
      fun _ => Read cfg gated w₀ k :=
  performs_aside ho fun _ _ _ _ hs _ _ _ hlog ha hl =>
    ⟨hs.1.aside ho hne hlog ha hl, fun hg => (hs.2 hg).mono (suffix_of_cons hlog)⟩

/-- `mark_applying`: from here on the status does not say `InSync`. -/
theorem performs_markApplying {k : Call} :
    (applyProtocol cfg gated closed w₀).Performs (machine.machineOn ok) k.t (Read cfg gated w₀ k)
      (.updateStatus .applying) fun _ =>
        Staged cfg (Rendering cfg gated w₀ k False) (k.dirs cfg.staging) := by
  refine performs_aside (o := .updateStatus .applying) trivial fun s r s' c hs _ _ hexec hlog ha hl => ?_
  have hh := hs.1.aside (o := .updateStatus .applying) trivial (fun h => by cases h) hlog ha hl
  have hnow := (Prod.mk.inj (Option.some.inj hexec)).2.symm
  have hw : Working cfg gated w₀ k s' := by
    refine ⟨hh.lock, hh.began, fun hg => (hs.2 hg).mono (suffix_of_cons hlog), hh.observed, hh.hash, ?_⟩
    rw [hnow]; exact fun h => by cases h
  refine ⟨⟨⟨hw, hh.unmoved, ?_⟩, ?_, iff_of_false hh.seen id⟩, ?_⟩ <;> rw [hh.same]

/-- Thread `t` has the apply lock. -/
def HasLock (t : Nat) (s : Moment) : Prop := s.now.applyLock = some t

theorem stable_hasLock : (applyProtocol cfg gated closed w₀).Stable t (HasLock t) :=
  fun _ _ h hr => hr.applyLock.2 h

/-- `mark_in_sync` at the end of a finished pipeline says the truth, if no staging directory has been denied. -/
theorem performs_markInSync {k : Call} {hash : String} {T : Dir} (hhash : hash = hashDirectory cfg.stagingDir T)
    (hfile : Dir.collect cfg.stagingDir T ≠ []) :
    (applyProtocol cfg gated closed w₀).Performs (machine.machineOn ok) k.t (Finished cfg gated w₀ k T)
      (.updateStatus (.inSync k.x.revision hash)) fun _ => HasLock k.t := by
  refine apply_performs fun s r s' c hs hinv _ hexec hlog => ?_
  have hw := hs.live.working
  have hnow := (Prod.mk.inj (Option.some.inj hexec)).2.symm
  have hsuf := suffix_of_cons hlog
  have hd : s'.now.disk.dirs = s.now.disk.dirs := by rw [hnow]
  have hrender : StagingSeen cfg s'.log → T = renderTree k.x := fun hseen =>
    hs.live.renders.eq_or.resolve_right (hseen.of_suffix hsuf k.t)
  have happlied : StagingSeen cfg s'.log → Applied cfg s'.log k.x := fun hseen =>
    ⟨k.t, hash, r, s.now, s'.now, s.log, ⟨[], hlog.symm⟩, hrender hseen ▸ hs.live.switched, hs.reloaded⟩
  refine ⟨False.elim, ⟨.inl (by rw [hnow]), fun u hu hl => ?_⟩, ⟨fun hg => ?_, ?_, fun hg => ?_, fun hg hseen => ?_,
    fun hg _ hseen _ => ?_⟩, by rw [HasLock, hnow]; exact hw.lock⟩
  · exact absurd (Option.some.inj (hl.symm.trans hw.lock)) hu
  · rw [hlog]
    refine ⟨⟨fun _ T hT hne => ?_, False.elim, fun _ => ⟨⟨_, hs.live.switched⟩, hs.reloaded⟩⟩,
      hinv.justified hg⟩
    exact absurd (hd ▸ hT) hne
  · exact hinv.stored_of_same hlog (by rw [hnow])
  · exact .inr ⟨T, hs.live.renders.hashed.mono hsuf, hfile, by rw [hnow, ← hhash]; rfl⟩
  · exact .inr ⟨k.x, happlied hseen, by rw [hnow]; rfl⟩
  · refine ⟨k.x, (hw.state hg).mono hsuf, by rw [hnow]; rfl, ?_⟩
    rw [hnow]
    show Dir.SameTree (s.now.disk.dirs cfg.runtime) _
    rw [hs.live.runtime, hrender hseen]
    exact .refl _

theorem triple_runPipeline (hdirs : cfg.DirsApart) {k : Call} :
    (applyProtocol cfg gated closed w₀).Triple (machine.machineOn ok) k.t (Read cfg gated w₀ k)
      (runPipeline cfg k.x).run fun _ => HasLock k.t := by
  refine triple_ask stable_read (fun _ => (steady_rendering.and_dir _ _).stable) performs_markApplying fun _ => ?_
  refine triple_lift (triple_pipeline hdirs) fun r => ?_
  cases r with
  | ok hash =>
    rintro s ⟨T, hhash, hfile, -, hs⟩
    exact ((Triple.perform steady_finished.stable (fun _ => stable_hasLock) (performs_markInSync hhash hfile)).bind
      fun _ => .pure stable_hasLock fun _ _ h => h) s hs
  | error err =>
    refine Triple.conseq (A := HasLock k.t) ?_ (fun s h => (steady_failed.working s h.2).lock) fun _ _ _ h => h
    refine triple_ask (o := .updateStatus (.degraded err.toString)) stable_hasLock (fun _ => stable_hasLock) ?_
      fun _ => triple_throw stable_hasLock fun _ _ h => h
    refine performs_aside (o := .updateStatus (.degraded err.toString)) trivial ?_
    exact fun _ _ _ _ hs _ _ _ _ _ hl => hl.trans hs

theorem triple_applyState (hdirs : cfg.DirsApart) {k : Call} (status : RuntimeStatus) (hash : Option String) :
    (applyProtocol cfg gated closed w₀).Triple (machine.machineOn ok) k.t (Read cfg gated w₀ k)
      (applyState cfg k.x status hash).run fun _ => HasLock k.t := by
  refine triple_whenever (fun _ => ?_) fun _ => triple_runPipeline hdirs
  refine triple_ask stable_read (fun _ => stable_read) (performs_read trivial fun h => ?_) fun _ =>
    triple_runPipeline hdirs
  cases h

theorem triple_reconcileLocked_apply (hdirs : cfg.DirsApart) {dirs : Location → Option Dir} {o : UInt64}
    {h : Option String} :
    (applyProtocol cfg gated closed w₀).Triple (machine.machineOn ok) t (Holding cfg gated t dirs o h)
      (reconcileLocked cfg).run fun _ => HasLock t := by
  refine triple_ask (o := .readState) (B := fun x => Read cfg gated w₀ ⟨t, x, dirs, o, h⟩) stable_holding
    (fun x => stable_read (k := ⟨t, x, dirs, o, h⟩)) ?_ fun x => ?_
  · refine performs_aside (o := .readState) trivial fun s r s' c hs hinv _ hexec hlog ha hl => ?_
    refine ⟨hs.aside (o := .readState) trivial (fun h => by cases h) hlog ha hl, fun hg => ?_⟩
    simp only [Op.exec] at hexec
    split at hexec
    · obtain ⟨rfl, -⟩ := Prod.mk.inj (Option.some.inj hexec)
      exact (hinv.stored hg).mono (suffix_of_cons hlog)
    · cases hexec
  refine triple_ask (o := .readStatus) (stable_read (k := ⟨t, x, dirs, o, h⟩)) (fun _ => stable_read)
    (performs_read trivial fun h => by cases h) fun status => ?_
  -- the staging directory is not looked at
  have hread : (hashRuntime cfg).run.All fun o => o.IsAside ∧ o ≠ .exists cfg.staging := by
    have htest : Op.exists cfg.runtime ≠ .exists cfg.staging := fun h => hdirs.staging_runtime.ne (Op.exists.inj h).symm
    refine all_bind (all_ask ⟨trivial, htest⟩) fun b => ?_
    cases b with
    | true => exact all_bind (all_attempt (.perform ⟨trivial, fun h => by cases h⟩)) fun _ => trivial
    | false => exact trivial
  refine Triple.tryBind (Triple.all (stable_read (k := ⟨t, x, dirs, o, h⟩)) (fun _ ho => performs_read ho.1 ho.2) hread)
    (fun hash => ?_) (fun _ => stable_read) fun _ s _ hs => hs.1.lock
  split
  · exact triple_pure stable_read fun s _ hs => hs.1.lock
  · exact triple_applyState hdirs (k := ⟨t, x, dirs, o, h⟩) status hash

theorem triple_reconcileOnce_apply (hdirs : cfg.DirsApart) :
    (applyProtocol cfg gated closed w₀).Triple (machine.machineOn ok) t (Fresh t) (reconcileOnce cfg)
      fun _ _ => True := by
  have htrue : (applyProtocol cfg gated closed w₀).Stable t fun _ => True := fun _ _ _ _ => trivial
  refine (Triple.perform stable_fresh (fun _ => ?_) performs_lockApply).bind fun _ => ?_
  · rintro s s' ⟨dirs, o, h, hs⟩ hr
    exact ⟨dirs, o, h, stable_holding s s' hs hr⟩
  refine Triple.bind (B := fun _ => HasLock t) ?_ fun _ => ?_
  · rintro s ⟨dirs, o, h, hs⟩
    exact triple_reconcileLocked_apply hdirs s hs
  refine (Triple.perform (Q := fun _ _ => True) stable_hasLock (fun _ => htrue) ?_).bind fun _ =>
    .pure htrue fun _ _ _ => trivial
  refine apply_performs fun s r s' c hs hinv _ hexec hlog => ?_
  have hnow := (Prod.mk.inj (Option.some.inj hexec)).2.symm
  have ha : Aside s.now s'.now := by rw [hnow]; exact ⟨rfl, rfl, rfl, id⟩
  have hinv' := hinv.aside hlog rfl rfl id ha (hinv.stored_of_same hlog (by rw [hnow]))
  exact ⟨False.elim, ha.owed (.inr (.inr ⟨hs, by rw [hnow]⟩)), hinv', trivial⟩

end Threads

/-- What the status says of the runtime directory is true. -/
def Truthful (cfg : DaemonConfig) (w : World) : Prop :=
  w.status.syncState = .inSync → w.state.revision = w.status.observedRevision ∧
    Dir.SameTree (w.disk.dirs cfg.runtime) (some (renderTree w.state))

def Request.isEdit : Request → Bool
  | externalEdit _ => true
  | _ => false

theorem apply_ready {cfg : DaemonConfig} (hdirs : cfg.DirsApart) (serde : Serde) (gated closed : Prop)
    (ok : Choice → Prop) (w : World) (hw : closed → Truthful cfg w) {reqs : List Request}
    (hreqs : closed → ∀ req ∈ reqs, req.isEdit = false) :
    Ready (applyProtocol cfg gated closed w) (machine.machineOn ok) (fun _ _ _ => True)
      (start cfg serde w reqs) := by
  refine ⟨⟨fun _ => trivial, fun _ => .inl rfl, fun _ => .inl rfl, fun _ _ => .inl rfl, fun _ hc _ hs => ?_⟩,
    fun t q hq => ?_⟩
  · obtain ⟨hrev, htree⟩ := hw hc hs
    exact ⟨w.state, .inl rfl, hrev, htree⟩
  obtain ⟨req, hreq, rfl⟩ := Option.map_eq_some_iff.1 hq
  have htrue : (applyProtocol cfg gated closed w).Stable t fun _ => True := fun _ _ _ _ => trivial
  have aside : ∀ {α : Type} {p : Code α} (f : α → Response), p.All Op.IsAside →
      (applyProtocol cfg gated closed w).wp (machine.machineOn ok) t (p >>= fun a => pure (f a))
        (fun _ _ => True) (start cfg serde w reqs).shared := fun f hp =>
    ((triple_isAside hp).bind fun _ => .pure htrue fun _ _ _ => trivial) _ trivial
  cases req with
  | getState => exact aside .state (.perform trivial)
  | getStatus => exact aside .status (.perform trivial)
  | putState expected draft => exact aside .put (putState_isAside serde expected draft)
  | finishJob => exact aside (fun _ => .done) (.perform trivial)
  | reconcile =>
    exact ((triple_reconcileOnce_apply hdirs).bind fun _ => .pure htrue fun _ _ _ => trivial) _ (fresh_nil t w)
  | externalEdit content =>
    refine ((triple_externalEdit (fun hc => ?_) _ _).bind fun _ => .pure htrue fun _ _ _ => trivial) _ trivial
    have := hreqs hc _ (List.mem_of_getElem? hreq)
    cases this

end NginxAdmin.Daemon
