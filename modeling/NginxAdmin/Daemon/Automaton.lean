import NginxAdmin.Daemon.Durable

/-!
# The automaton of the status

`SyncStep` is the automaton of `docs/diagrams/state-flow.md` as the code has it. `status_automaton`: in a run in which
no request is dropped the status walks along it from `InSync`, whatever the requests, the background loop and the file
system do, and it is in a settled state whenever nobody reconciles.
-/

namespace NginxAdmin.Daemon

open Protocol

/-- Nothing is going on that `reconcile_once` would still have to end. -/
def SyncState.Settled (x : SyncState) : Prop := x ≠ .applying ∧ x ≠ .outOfSync

/-- An apply has begun, and perhaps a new state has come in since. -/
def SyncState.Applies (x : SyncState) : Prop := x = .applying ∨ x = .pendingApply

inductive SyncStep : SyncState → SyncState → Prop
  | stored (x : SyncState) : SyncStep x .pendingApply
  | drifted {x : SyncState} (h : x.Settled) : SyncStep x .outOfSync
  | began {x : SyncState} (h : x ≠ .applying) : SyncStep x .applying
  | finished {x : SyncState} (h : x.Applies) : SyncStep x .inSync
  | failed {x : SyncState} (h : x.Applies) : SyncStep x .degraded

/-- What an event writes to the status. -/
def syncEvent : Event Op.Res World → Option SyncState
  | .did _ (.updateStatus _) _ _ post => some post.status.syncState
  | _ => none

/-- What the status has said, from the start. -/
def syncTrace (first : SyncState) (log : Log) : List SyncState := first :: (log.filterMap syncEvent).reverse

theorem syncTrace_cons (first : SyncState) (e : Event Op.Res World) (log : Log) :
    syncTrace first (e :: log) = syncTrace first log ++ (syncEvent e).toList := by
  cases h : syncEvent e <;> simp [syncTrace, h]

/-- An error is shown exactly when something is wrong. -/
def RuntimeStatus.Explained (st : RuntimeStatus) : Prop :=
  st.lastError.isSome = true ↔ st.syncState = .degraded ∨ st.syncState = .outOfSync

theorem StatusUpdate.explained (u : StatusUpdate) (n : DateTime) (st : RuntimeStatus) : (u.apply n st).Explained := by
  cases u <;> simp [StatusUpdate.apply, RuntimeStatus.Explained]

theorem explained_loaded (x : ControlPlaneState) (n : DateTime) : (RuntimeStatus.loaded x n).Explained := by
  simp [RuntimeStatus.Explained, RuntimeStatus.loaded]

structure SyncInv (first : SyncState) (s : Moment) : Prop where
  path : (syncTrace first s.log).IsChain SyncStep
  now : (syncTrace first s.log).getLast? = some s.now.status.syncState
  idle : s.now.applyLock = none → s.now.status.syncState.Settled
  explained : s.now.status.Explained

structure SyncRely (t : Nat) (s s' : Moment) : Prop where
  applyLock : s'.now.applyLock = some t ↔ s.now.applyLock = some t
  /-- Next to the holder of the apply lock, only `put_state` writes the status. -/
  held : s.now.applyLock = some t → s'.now.status.syncState = s.now.status.syncState ∨
    s'.now.status.syncState = .pendingApply

theorem SyncRely.trans {t : Nat} {s s' s'' : Moment} (h : SyncRely t s s') (h' : SyncRely t s' s'') :
    SyncRely t s s'' where
  applyLock := h'.applyLock.trans h.applyLock
  held hl := by
    rcases h'.held (h.applyLock.2 hl) with heq | hpending
    · rw [heq]
      exact h.held hl
    · exact .inr hpending

def syncProtocol (first : SyncState) : Protocol Moment where
  rely := SyncRely
  inv := SyncInv first
  refl _ _ := ⟨Iff.rfl, fun _ => .inl rfl⟩
  trans := SyncRely.trans

/-- The operations that have nothing to do with the status and the apply lock. -/
def Op.OffStatus : Op → Prop
  | updateStatus _ | lockApply | unlockApply => False
  | _ => True

/-- The operations of everything but `reconcile_once`. -/
def Op.Requests : Op → Prop
  | updateStatus (.pendingApply _) => True
  | o => o.OffStatus

section Threads

variable {first : SyncState} {t : Nat} {s s' : Moment} {cfg : DaemonConfig}

theorem same_of_offStatus {o : Op} {c : Choice} {w w' : World} {r : o.Res} (ho : o.OffStatus)
    (h : o.exec t c w = some (r, w')) : w'.status = w.status ∧ w'.applyLock = w.applyLock := by
  by_cases hd : o.OnDirs
  · exact ⟨(quiet_of_onDirs hd h).1.status, (quiet_of_onDirs hd h).2⟩
  cases o <;> first | exact absurd trivial hd | exact ho.elim | skip
  case lockState | readState | readStateFile =>
    simp only [Op.exec] at h
    split at h <;> cases h <;> exact ⟨rfl, rfl⟩
  case createStateDir | writeStateTmp | renameStateTmp =>
    obtain ⟨d, rfl⟩ := io_memory (Option.some.inj h)
    exact ⟨rfl, rfl⟩
  case runJob =>
    obtain ⟨w₁, hjob, heq⟩ := Option.map_eq_some_iff.1 h
    obtain ⟨d, rfl⟩ := runJob_memory hjob
    obtain ⟨-, rfl⟩ := Prod.mk.inj heq
    exact ⟨rfl, rfl⟩
  case externalEdit =>
    obtain ⟨hq, hl⟩ := quiet_of_externalEdit h
    exact ⟨hq.status, hl⟩
  all_goals cases h; exact ⟨rfl, rfl⟩

theorem performs_sync {o : Op} {A : Moment → Prop} {Q : o.Res → Moment → Prop}
    (hstep : ∀ s r s' c, A s → SyncInv first s → o.exec t c s.now = some (r, s'.now) →
      s'.log = .did t o r s.now s'.now :: s.log → LockStep t s.now.applyLock s'.now.applyLock ∧
        (s.now.applyLock ≠ some t → s'.now.status.syncState = s.now.status.syncState ∨
          s'.now.status.syncState = .pendingApply) ∧ SyncInv first s' ∧ Q r s') :
    (syncProtocol first).Performs machine.machine.noDrops t A o Q := by
  intro s hA hinv
  refine ⟨fun r s' hs => ?_, fun s' h => h.elim⟩
  obtain ⟨⟨c, -, hexec⟩, hlog⟩ := Exec.traced_step.1 hs
  obtain ⟨hlock, hstatus, hinv', hQ⟩ := hstep s r s' c hA hinv hexec hlog
  refine ⟨⟨hinv', fun u hu => ⟨hlock.iff hu, fun hl => hstatus ?_⟩⟩, hQ⟩
  rw [hl]
  exact fun he => hu (Option.some.inj he)

theorem SyncInv.quiet {e : Event Op.Res World} (h : SyncInv first s) (hlog : s'.log = e :: s.log)
    (he : syncEvent e = none) (hstatus : s'.now.status = s.now.status)
    (hidle : s'.now.applyLock = none → s.now.status.syncState.Settled) : SyncInv first s' := by
  have hsame : syncTrace first s'.log = syncTrace first s.log := by
    rw [hlog, syncTrace_cons, he]
    exact List.append_nil _
  refine ⟨by rw [hsame]; exact h.path, by rw [hsame, hstatus]; exact h.now, ?_, by rw [hstatus]; exact h.explained⟩
  rw [hstatus]
  exact hidle

theorem SyncInv.update {u : StatusUpdate} {r : Unit} {n : DateTime} (h : SyncInv first s)
    (hlog : s'.log = .did t (.updateStatus u) r s.now s'.now :: s.log)
    (hnow : s'.now = { s.now with status := u.apply n s.now.status })
    (hstep : SyncStep s.now.status.syncState s'.now.status.syncState)
    (hidle : s.now.applyLock = none → s'.now.status.syncState.Settled) : SyncInv first s' := by
  have htrace : syncTrace first s'.log = syncTrace first s.log ++ [s'.now.status.syncState] := by
    rw [hlog, syncTrace_cons]
    rfl
  refine ⟨?_, by rw [htrace, List.getLast?_concat], fun hl => hidle (by rw [hnow] at hl; exact hl), ?_⟩
  · rw [htrace]
    refine List.isChain_append.2 ⟨h.path, List.isChain_singleton _, fun x hx y hy => ?_⟩
    obtain rfl := Option.some.inj (h.now.symm.trans hx)
    obtain rfl := Option.some.inj hy
    exact hstep
  · rw [hnow]
    exact u.explained n _

/-- A step that has nothing to do with the status keeps what is said of the status and the apply lock. -/
theorem performs_offStatus {o : Op} (ho : o.OffStatus) {A : Moment → Prop}
    (hA : ∀ s s' : Moment, A s → s'.now.status = s.now.status → s'.now.applyLock = s.now.applyLock → A s') :
    (syncProtocol first).Performs machine.machine.noDrops t A o fun _ => A := by
  refine performs_sync fun s r s' c hs hinv hexec hlog => ?_
  obtain ⟨hstatus, hlock⟩ := same_of_offStatus ho hexec
  have he : syncEvent (.did t o r s.now s'.now) = none := by
    cases o <;> first | rfl | exact ho.elim
  refine ⟨.inl hlock, fun _ => .inl (by rw [hstatus]), hinv.quiet hlog he hstatus fun hl => ?_, hA s s' hs hstatus hlock⟩
  exact hinv.idle (hlock ▸ hl)

theorem performs_requests {o : Op} (ho : o.Requests) :
    (syncProtocol first).Performs machine.machine.noDrops t (fun _ => True) o fun _ _ => True := by
  by_cases hoff : o.OffStatus
  · exact performs_offStatus hoff fun _ _ _ _ _ => trivial
  cases o <;> first | exact absurd ho hoff | exact absurd trivial hoff | skip
  case updateStatus u =>
    cases u <;> first | exact ho.elim | skip
    refine performs_sync fun s r s' c _ hinv hexec hlog => ?_
    have hnow := (Prod.mk.inj (Option.some.inj hexec)).2.symm
    have hpending : s'.now.status.syncState = .pendingApply := by rw [hnow]; rfl
    refine ⟨.inl (by rw [hnow]), fun _ => .inr hpending, hinv.update hlog hnow ?_ fun _ => ?_, trivial⟩
    · rw [hpending]
      exact .stored _
    · rw [hpending]
      exact ⟨by decide, by decide⟩

theorem stable_sync_true : (syncProtocol first).Stable t fun _ => True := fun _ _ _ _ => trivial

theorem triple_requests {α : Type} {p : Code α} (hp : p.All Op.Requests) {A : Moment → Prop} :
    (syncProtocol first).Triple machine.machine.noDrops t A p fun _ _ => True :=
  (Triple.all stable_sync_true (fun _ => performs_requests) hp).conseq (fun _ _ => trivial) fun _ _ _ _ => trivial

/-- Thread `t` has the apply lock, and the status is one of `S`, which a `put_state` may turn into `PendingApply`. -/
structure Reconciling (S : SyncState → Prop) (t : Nat) (s : Moment) : Prop where
  lock : s.now.applyLock = some t
  sync : S s.now.status.syncState

theorem stable_reconciling {S : SyncState → Prop} (hS : S .pendingApply) : (syncProtocol first).Stable t (Reconciling S t) := by
  intro s s' h hr
  refine ⟨hr.applyLock.2 h.lock, ?_⟩
  rcases hr.held h.lock with heq | hpending
  · rw [heq]
    exact h.sync
  · rw [hpending]
    exact hS

theorem performs_reconciling {S : SyncState → Prop} {o : Op} (ho : o.OffStatus) :
    (syncProtocol first).Performs machine.machine.noDrops t (Reconciling S t) o fun _ => Reconciling S t :=
  performs_offStatus ho fun _ _ h hstatus hlock => ⟨hlock.trans h.lock, by rw [hstatus]; exact h.sync⟩

theorem Op.OnDirs.offStatus {o : Op} (h : o.OnDirs) : o.OffStatus := by
  cases o <;> first | exact trivial | exact h.elim

theorem settled_pending : SyncState.Settled .pendingApply := ⟨by decide, by decide⟩

theorem settled_inSync : SyncState.Settled .inSync := ⟨by decide, by decide⟩

theorem settled_degraded : SyncState.Settled .degraded := ⟨by decide, by decide⟩

theorem performs_mark_sync {S S' : SyncState → Prop} {u : StatusUpdate}
    (hu : ∀ n st, S st.syncState → SyncStep st.syncState (u.apply n st).syncState ∧ S' (u.apply n st).syncState) :
    (syncProtocol first).Performs machine.machine.noDrops t (Reconciling S t) (.updateStatus u)
      fun _ => Reconciling S' t := by
  refine performs_sync fun s r s' c hs hinv hexec hlog => ?_
  have hnow := (Prod.mk.inj (Option.some.inj hexec)).2.symm
  obtain ⟨hstep, hS'⟩ := hu c.now s.now.status hs.sync
  have hsync : s'.now.status.syncState = (u.apply c.now s.now.status).syncState := by rw [hnow]
  refine ⟨.inl (by rw [hnow]), fun hn => absurd hs.lock hn, hinv.update hlog hnow (hsync ▸ hstep) fun hl => ?_, ?_⟩
  · rw [hs.lock] at hl
    cases hl
  · exact ⟨by rw [hnow]; exact hs.lock, hsync ▸ hS'⟩

theorem triple_sync_runPipeline (x : ControlPlaneState) :
    (syncProtocol first).Triple machine.machine.noDrops t (Reconciling (· ≠ .applying) t) (runPipeline cfg x).run
      fun _ => Reconciling SyncState.Settled t := by
  have happlies : (syncProtocol first).Stable t (Reconciling SyncState.Applies t) := stable_reconciling (.inr rfl)
  have hsettled : (syncProtocol first).Stable t (Reconciling SyncState.Settled t) := stable_reconciling settled_pending
  refine triple_ask (stable_reconciling (by decide)) (fun _ => happlies)
    (performs_mark_sync fun n st h => ⟨.began h, .inl rfl⟩) fun _ => ?_
  have hpipeline : (syncProtocol first).Triple machine.machine.noDrops t (Reconciling SyncState.Applies t)
      (pipeline cfg x).run fun _ => Reconciling SyncState.Applies t :=
    Triple.all happlies (fun _ ho => performs_reconciling (Op.OnDirs.offStatus ho)) (pipeline_onDirs x)
  refine triple_lift hpipeline fun r => ?_
  cases r with
  | ok hash =>
    refine (Triple.perform happlies (fun _ => hsettled) (performs_mark_sync fun n st h => ?_)).bind fun _ =>
      .pure hsettled fun _ _ h => h
    exact ⟨.finished h, settled_inSync⟩
  | error err =>
    refine triple_ask happlies (fun _ => hsettled) (performs_mark_sync fun n st h => ?_) fun _ =>
      triple_throw hsettled fun _ _ h => h
    exact ⟨.failed h, settled_degraded⟩

theorem triple_sync_reconcileLocked : (syncProtocol first).Triple machine.machine.noDrops t
    (Reconciling SyncState.Settled t) (reconcileLocked cfg).run fun _ => Reconciling SyncState.Settled t := by
  have hsettled : (syncProtocol first).Stable t (Reconciling SyncState.Settled t) := stable_reconciling settled_pending
  have hbusy : (syncProtocol first).Stable t (Reconciling (· ≠ .applying) t) := stable_reconciling (by decide)
  have quiet : ∀ {α : Type} {p : Code α}, p.All Op.OffStatus → (syncProtocol first).Triple machine.machine.noDrops t
      (Reconciling SyncState.Settled t) p fun _ => Reconciling SyncState.Settled t :=
    fun hp => Triple.all hsettled (fun _ => performs_reconciling) hp
  refine triple_lift (quiet (.perform (o := Op.readState) trivial)) fun x => ?_
  refine triple_lift (quiet (.perform (o := Op.readStatus) trivial)) fun st => ?_
  refine Triple.tryBind (quiet (hashRuntime_onDirs.mono fun _ => Op.OnDirs.offStatus)) (fun hash => ?_)
    (fun _ => hsettled) fun e s _ h => h
  split
  · exact triple_pure hsettled fun _ _ h => h
  refine triple_whenever (fun _ => ?_) fun _ => ?_
  · have hdrifted : SyncState.outOfSync ≠ .applying := by decide
    refine triple_ask hsettled (fun _ => hbusy) (performs_mark_sync fun n st h => ⟨.drifted h, hdrifted⟩) fun _ => ?_
    exact triple_sync_runPipeline x
  · exact (triple_sync_runPipeline x).conseq (fun s h => ⟨h.lock, h.sync.1⟩) fun _ _ _ h => h

theorem triple_sync_reconcileOnce {A : Moment → Prop} (hA : (syncProtocol first).Stable t A) : (syncProtocol first).Triple
    machine.machine.noDrops t A (reconcileOnce cfg) fun _ _ => True := by
  have hsettled : (syncProtocol first).Stable t (Reconciling SyncState.Settled t) := stable_reconciling settled_pending
  have hlock : (syncProtocol first).Performs machine.machine.noDrops t A .lockApply
      fun _ => Reconciling SyncState.Settled t := by
    refine performs_sync fun s r s' c _ hinv hexec hlog => ?_
    simp only [Op.exec] at hexec
    split at hexec
    · rename_i hfree
      have hnow := (Prod.mk.inj (Option.some.inj hexec)).2.symm
      have hstatus : s'.now.status = s.now.status := by rw [hnow]
      have hheld : s'.now.applyLock = some t := by rw [hnow]
      refine ⟨.inr (.inl ⟨hfree, hheld⟩), fun _ => .inl (by rw [hstatus]), ?_, hheld, by rw [hstatus]; exact hinv.idle hfree⟩
      exact hinv.quiet hlog rfl hstatus fun _ => hinv.idle hfree
    · cases hexec
  have hunlock : (syncProtocol first).Performs machine.machine.noDrops t (Reconciling SyncState.Settled t) .unlockApply
      fun _ _ => True := by
    refine performs_sync fun s r s' c hs hinv hexec hlog => ?_
    have hnow := (Prod.mk.inj (Option.some.inj hexec)).2.symm
    have hstatus : s'.now.status = s.now.status := by rw [hnow]
    refine ⟨.inr (.inr ⟨hs.lock, by rw [hnow]⟩), fun _ => .inl (by rw [hstatus]), ?_, trivial⟩
    exact hinv.quiet hlog rfl hstatus fun _ => hs.sync
  refine (Triple.perform hA (fun _ => hsettled) hlock).bind fun _ => ?_
  refine triple_sync_reconcileLocked.bind fun r => ?_
  exact (Triple.perform hsettled (fun _ => stable_sync_true) hunlock).bind fun _ => .pure stable_sync_true fun _ _ _ => trivial

theorem Op.OfPut.requests {o : Op} (h : o.OfPut) : o.Requests := by
  cases o <;> first | exact trivial | exact h.elim | skip
  case updateStatus u => cases u <;> first | exact trivial | exact h.elim

theorem triple_sync_handle (serde : Serde) (extract : JsonExtractor) (req : HttpRequest) :
    (syncProtocol first).Triple machine.machine.noDrops t (fun _ => True) (handle cfg serde extract req)
      fun _ _ => True := by
  have hpure : ∀ res : HttpResponse, (syncProtocol first).Triple machine.machine.noDrops t (fun _ => True) (pure res)
      fun _ _ => True := fun _ => .pure stable_sync_true fun _ _ _ => trivial
  refine handle_cases (C := fun p => (syncProtocol first).Triple machine.machine.noDrops t (fun _ => True) p fun _ _ => True)
    hpure (fun p hp => hp.bind fun _ => hpure _) ?_ ?_ ?_ ?_
  · refine triple_requests (respond_all (f := getStateHandler) ?_)
    exact all_bind (all_ask (o := .readState) trivial) fun _ => all_bind (all_check _) fun _ => trivial
  · exact triple_requests (putStateRoute_all serde extract trivial trivial (fun _ => Op.OfPut.requests) req)
  · exact (triple_requests (.perform (o := Op.readStatus) trivial)).bind fun _ => .pure stable_sync_true fun _ _ _ => trivial
  · refine Triple.bind ?_ fun _ => .pure stable_sync_true fun _ _ _ => trivial
    refine triple_ask (o := .now) stable_sync_true (fun _ => stable_sync_true) (performs_requests (o := .now) trivial)
      fun n => ?_
    refine Triple.tryBind (triple_sync_reconcileOnce stable_sync_true) (fun _ => ?_) (fun _ => stable_sync_true)
      fun _ _ _ _ => trivial
    exact triple_pure stable_sync_true fun _ _ _ => trivial

theorem sync_ready (serde : Serde) (extract : JsonExtractor) {w : World} {tasks : List Task}
    (hinv : SyncInv w.status.syncState ⟨w, []⟩) : Ready (syncProtocol w.status.syncState) machine.machine.noDrops
      (fun _ _ _ => True) (serve cfg serde extract w tasks) := by
  refine ⟨hinv, fun t q hq => ?_⟩
  obtain ⟨task, htask, rfl⟩ := Option.map_eq_some_iff.1 hq
  have done : ∀ {α : Type} {p : Code α} {f : α → Option HttpResponse}, (syncProtocol w.status.syncState).Triple
      machine.machine.noDrops t (fun _ => True) p (fun _ _ => True) → (syncProtocol w.status.syncState).wp
        machine.machine.noDrops t (p >>= fun a => pure (f a)) (fun _ _ => True) ⟨w, []⟩ :=
    fun hp => (hp.bind fun _ => .pure stable_sync_true fun _ _ _ => trivial) _ trivial
  cases task with
  | request req => exact done (f := some) (triple_sync_handle serde extract req)
  | loop => exact done (f := fun _ => none) (triple_sync_reconcileOnce stable_sync_true)
  | externalEdit content =>
    exact done (f := fun _ => none) (triple_requests (.perform (o := Op.externalEdit ..) trivial))

end Threads

/-- The status of a process walks along `SyncStep` from `InSync`. Whenever nobody reconciles it says neither `Applying`
nor `OutOfSync`, and at every moment it shows an error exactly in `Degraded` and `OutOfSync`. -/
theorem status_automaton {cfg : DaemonConfig} {serde : Serde} {extract : JsonExtractor} {x : ControlPlaneState}
    {n : DateTime} {disk : Disk} {tasks : List Task} {p : Pool Op.Res Moment (Option HttpResponse)}
    (h : (serve cfg serde extract (.loaded x (.loaded x n) disk) tasks).Reach machine.machine.noDrops p) :
    (syncTrace .inSync p.shared.log).IsChain SyncStep ∧
    (syncTrace .inSync p.shared.log).getLast? = some p.shared.now.status.syncState ∧
    (p.shared.now.applyLock = none → p.shared.now.status.syncState.Settled) ∧ p.shared.now.status.Explained := by
  have hinv : SyncInv .inSync ⟨.loaded x (.loaded x n) disk, []⟩ :=
    ⟨List.isChain_singleton _, rfl, fun _ => settled_inSync, explained_loaded x n⟩
  obtain ⟨hpath, hnow, hidle, hexplained⟩ := ((sync_ready serde extract hinv).reach h).1
  exact ⟨hpath, hnow, hidle, hexplained⟩

/-- The background loop finds no runtime directory, and makes one. -/
theorem status_automaton_drift : ∃ p, (serve .defaults sampleSerde (fun _ _ => .error ⟨415, ""⟩)
      (.loaded (.initial 0) (.loaded (.initial 0) 0) sampleWorld.disk) [.loop]).Reach machine.machine.noDrops p ∧
    syncTrace .inSync p.shared.log = [.inSync, .outOfSync, .applying, .inSync] ∧
    (syncTrace .inSync p.shared.log).IsChain SyncStep ∧ p.shared.now.status.Explained := by
  have hrun : (machine.schedule (turns 0 22) (serve .defaults sampleSerde (fun _ _ => .error ⟨415, ""⟩)
      (.loaded (.initial 0) (.loaded (.initial 0) 0) sampleWorld.disk) [.loop])).map
      (fun p => syncTrace .inSync p.shared.log) = some [.inSync, .outOfSync, .applying, .inSync] := by
    decide +kernel
  obtain ⟨p, hp, htrace⟩ := Option.map_eq_some_iff.1 hrun
  have hreach := Exec.reach_noDrops_of_schedule (by decide) hp
  obtain ⟨hpath, -, -, hexplained⟩ := status_automaton hreach
  exact ⟨p, hreach, htrace, hpath, hexplained⟩

end NginxAdmin.Daemon
