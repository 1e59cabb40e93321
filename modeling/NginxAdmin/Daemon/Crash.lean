import NginxAdmin.Daemon.Codec
import NginxAdmin.Daemon.Convergence
import NginxAdmin.Daemon.Hosts
import NginxAdmin.Daemon.Restart

/-!
# A crash in `put_state`

`state.json` is replaced by a rename of a complete file, so a process that is stopped at any point leaves a
state that the next one can load: the one that `put_state` found behind the state lock, or the one that it
commits (`crash_recovers`). `crashProtocol` carries the argument; it is about the state lock, the stored state
and the two files only, and does not count revisions.
-/

namespace NginxAdmin.Daemon

open Protocol

/-- A process that starts on `disk` and meets no fault loads `x`. -/
def Recovers (serde : Serde) (disk : Disk) (x : ControlPlaneState) : Prop :=
  (∃ n s', (loadOrInit serde).run.Eval (machine.machineOn Faultless) 0 ⟨.unloaded disk, []⟩ (.ok (x, .loaded x n)) s') ∧
    ∀ r s', (loadOrInit serde).run.Eval (machine.machineOn Faultless) 0 ⟨.unloaded disk, []⟩ r s' →
      ∃ n, r = .ok (x, .loaded x n)

/-- Thread `t` has found `x₀` behind the state lock. -/
def Found (t : Nat) (x₀ : ControlPlaneState) (log : Log) : Prop :=
  ∃ pre post, Event.did t .lockState x₀ pre post ∈ log

/-- What `put_state` with the draft `d` may leave in `state.json` when it has found `x₀`. -/
def Leaves (x₀ d y : ControlPlaneState) : Prop :=
  validateState y = .ok () ∧ (y = x₀ ∨ ∃ n, y = commitDraft x₀ d n)

structure CrashInv (serde : Serde) (reqs : List Request) (s : Moment) : Prop where
  jobs : s.now.jobs = []
  free : s.now.stateLock = none → Holds serde s.now s.now.state ∧ validateState s.now.state = .ok ()
  held : ∀ t, s.now.stateLock = some t → ∃ expected d x₀, reqs[t]? = some (.putState expected d) ∧
    Found t x₀ s.log ∧ ∃ y, Holds serde s.now y ∧ Leaves x₀ d y

structure CrashRely (t : Nat) (s s' : Moment) : Prop where
  log : ∀ e ∈ s.log, e ∈ s'.log
  stateLock : s'.now.stateLock = some t ↔ s.now.stateLock = some t
  held : s.now.stateLock = some t → s'.now.state = s.now.state ∧ s'.now.disk.stateJson = s.now.disk.stateJson ∧
    s'.now.disk.stateTmp = s.now.disk.stateTmp

theorem CrashRely.trans {t : Nat} {s s' s'' : Moment} (h : CrashRely t s s') (h' : CrashRely t s' s'') :
    CrashRely t s s'' where
  log e he := h'.log e (h.log e he)
  stateLock := h'.stateLock.trans h.stateLock
  held hl := by
    obtain ⟨hstate, hjson, htmp⟩ := h.held hl
    obtain ⟨hstate', hjson', htmp'⟩ := h'.held (h.stateLock.2 hl)
    exact ⟨hstate'.trans hstate, hjson'.trans hjson, htmp'.trans htmp⟩

def crashProtocol (serde : Serde) (reqs : List Request) : Protocol Moment where
  rely := CrashRely
  inv := CrashInv serde reqs
  refl _ _ := ⟨fun _ he => he, Iff.rfl, fun _ => ⟨rfl, rfl, rfl⟩⟩
  trans := CrashRely.trans

/-- What a step of thread `t` owes to the others. -/
structure Leave (t : Nat) (w w' : World) : Prop where
  stateLock : LockStep t w.stateLock w'.stateLock
  held : w.stateLock ≠ some t → w'.state = w.state ∧ w'.disk.stateJson = w.disk.stateJson ∧
    w'.disk.stateTmp = w.disk.stateTmp

section Threads

variable {cfg : DaemonConfig} {serde : Serde} {reqs : List Request} {t : Nat} {s s' : Moment}

theorem performs_crash {o : Op} {A : Moment → Prop} {Q : o.Res → Moment → Prop}
    (hstep : ∀ s r s' c, A s → CrashInv serde reqs s → o.exec t c s.now = some (r, s'.now) →
      s'.log = .did t o r s.now s'.now :: s.log → Leave t s.now s'.now ∧ CrashInv serde reqs s' ∧ Q r s') :
    (crashProtocol serde reqs).Performs machine.machine.noDrops t A o Q := by
  intro s hA hinv
  refine ⟨fun r s' hs => ?_, fun s' h => h.elim⟩
  obtain ⟨⟨c, -, hexec⟩, hlog⟩ := Exec.traced_step.1 hs
  obtain ⟨howed, hinv', hQ⟩ := hstep s r s' c hA hinv hexec hlog
  refine ⟨⟨hinv', fun u hu => ⟨fun e he => ?_, howed.stateLock.iff hu, fun hl => howed.held ?_⟩⟩, hQ⟩
  · rw [hlog]
    exact List.mem_cons_of_mem _ he
  · rw [hl]
    exact fun he => hu (Option.some.inj he)

/-- The operations that are not about the stored state and its files. -/
def Op.OffStore : Op → Prop
  | readState | readStatus | updateStatus _ | lockApply | unlockApply | runJob | externalEdit .. => True
  | o => o.OnDirs

theorem Op.OfCall.offStore {o : Op} (h : o.OfCall) : o.OffStore := by
  cases o <;> first | exact trivial | exact h

/-- The store is as before. -/
structure Still (w w' : World) : Prop where
  state : w'.state = w.state
  stateLock : w'.stateLock = w.stateLock
  stateJson : w'.disk.stateJson = w.disk.stateJson
  stateTmp : w'.disk.stateTmp = w.disk.stateTmp
  jobs : w'.jobs = w.jobs

theorem Quiet.still {w w' : World} (h : Quiet w w') : Still w w' :=
  ⟨h.state, h.stateLock, h.stateJson, h.stateTmp, h.jobs⟩

theorem still_of_offStore {o : Op} {c : Choice} {w w' : World} {r : o.Res} (ho : o.OffStore) (hjobs : w.jobs = [])
    (h : o.exec t c w = some (r, w')) : Still w w' := by
  by_cases hd : o.OnDirs
  · exact (quiet_of_onDirs hd h).1.still
  cases o <;> first | exact absurd ho hd | skip
  case readState =>
    simp only [Op.exec] at h
    split at h <;> cases h
    exact ⟨rfl, rfl, rfl, rfl, rfl⟩
  case lockApply =>
    simp only [Op.exec] at h
    split at h <;> cases h
    exact ⟨rfl, rfl, rfl, rfl, rfl⟩
  case runJob => simp [Op.exec, World.runJob, hjobs] at h
  case externalEdit => exact (quiet_of_externalEdit h).1.still
  all_goals cases h; exact ⟨rfl, rfl, rfl, rfl, rfl⟩

theorem Still.holds {w w' : World} (h : Still w w') {x : ControlPlaneState} (hx : Holds serde w x) :
    Holds serde w' x := by
  obtain ⟨raw, hraw, hx⟩ := hx
  exact ⟨raw, h.stateJson.trans hraw, hx⟩

theorem Found.cons {x₀ : ControlPlaneState} {e : Event Op.Res World} (hlog : s'.log = e :: s.log)
    (h : Found t x₀ s.log) : Found t x₀ s'.log := by
  obtain ⟨pre, post, he⟩ := h
  exact ⟨pre, post, hlog ▸ List.mem_cons_of_mem _ he⟩

theorem CrashInv.still {e : Event Op.Res World} (h : CrashInv serde reqs s) (hlog : s'.log = e :: s.log)
    (hs : Still s.now s'.now) : CrashInv serde reqs s' where
  jobs := hs.jobs.trans h.jobs
  free hl := by
    obtain ⟨hfile, hvalid⟩ := h.free (hs.stateLock.symm.trans hl)
    rw [hs.state]
    exact ⟨hs.holds hfile, hvalid⟩
  held u hl := by
    obtain ⟨expected, d, x₀, hreq, hfound, y, hy, hleaves⟩ := h.held u (hs.stateLock.symm.trans hl)
    exact ⟨expected, d, x₀, hreq, hfound.cons hlog, y, hs.holds hy, hleaves⟩

theorem triple_offStore {α : Type} {p : Code α} (hp : p.All Op.OffStore) :
    (crashProtocol serde reqs).Triple machine.machine.noDrops t (fun _ => True) p fun _ _ => True := by
  refine Triple.all (fun _ _ _ _ => trivial) (fun o ho => performs_crash fun s r s' c _ hinv hexec hlog => ?_) hp
  have hstill := still_of_offStore ho hinv.jobs hexec
  exact ⟨⟨.inl hstill.stateLock, fun _ => ⟨hstill.state, hstill.stateJson, hstill.stateTmp⟩⟩, hinv.still hlog hstill,
    trivial⟩

/-! ### The critical section of `put_state` -/

/-- Thread `t` has found `x₀`; now memory holds `x` and `state.json` holds `y`. -/
structure InSection (serde : Serde) (t : Nat) (x₀ x y : ControlPlaneState) (s : Moment) : Prop where
  lock : s.now.stateLock = some t
  found : Found t x₀ s.log
  state : s.now.state = x
  file : Holds serde s.now y

def NotHolding (t : Nat) (s : Moment) : Prop := s.now.stateLock ≠ some t

theorem stable_notHolding : (crashProtocol serde reqs).Stable t (NotHolding t) :=
  fun _ _ h hr => mt hr.stateLock.1 h

theorem stable_inSection {x₀ x y : ControlPlaneState} :
    (crashProtocol serde reqs).Stable t (InSection serde t x₀ x y) := by
  intro s s' h hr
  obtain ⟨hstate, hjson, -⟩ := hr.held h.lock
  obtain ⟨pre, post, he⟩ := h.found
  obtain ⟨raw, hraw, hy⟩ := h.file
  exact ⟨hr.stateLock.2 h.lock, ⟨pre, post, hr.log _ he⟩, hstate.trans h.state, raw, hjson.trans hraw, hy⟩

/-- The temporary file is complete. -/
def TmpReady (serde : Serde) (t : Nat) (x₀ : ControlPlaneState) (payload : Bytes) (s : Moment) : Prop :=
  InSection serde t x₀ x₀ x₀ s ∧ s.now.disk.stateTmp = some payload

theorem stable_tmpReady {x₀ : ControlPlaneState} {payload : Bytes} :
    (crashProtocol serde reqs).Stable t (TmpReady serde t x₀ payload) := by
  rintro s s' ⟨h, htmp⟩ hr
  obtain ⟨-, -, htmp'⟩ := hr.held h.lock
  exact ⟨stable_inSection s s' h hr, htmp'.trans htmp⟩

variable {expected : UInt64} {d x₀ x y : ControlPlaneState}

theorem InSection.inv (h : InSection serde t x₀ x y s) (hreq : reqs[t]? = some (.putState expected d))
    (hy : Leaves x₀ d y) (hjobs : s.now.jobs = []) : CrashInv serde reqs s where
  jobs := hjobs
  free hl := by
    rw [h.lock] at hl
    cases hl
  held u hl := by
    obtain rfl : t = u := Option.some.inj (h.lock.symm.trans hl)
    exact ⟨expected, d, x₀, hreq, h.found, y, h.file, hy⟩

theorem InSection.step {e : Event Op.Res World} {x' y' : ControlPlaneState} (h : InSection serde t x₀ x y s)
    (hlog : s'.log = e :: s.log) (hlock : s'.now.stateLock = s.now.stateLock) (hstate : s'.now.state = x')
    (hfile : Holds serde s'.now y') :
    Leave t s.now s'.now ∧ InSection serde t x₀ x' y' s' :=
  ⟨⟨.inl hlock, fun hn => absurd h.lock hn⟩, hlock.trans h.lock, h.found.cons hlog, hstate, hfile⟩

theorem performs_crash_lockState (hreq : reqs[t]? = some (.putState expected d)) :
    (crashProtocol serde reqs).Performs machine.machine.noDrops t (NotHolding t) .lockState
      fun x s => validateState x = .ok () ∧ InSection serde t x x x s := by
  refine performs_crash fun s r s' c hs hinv hexec hlog => ?_
  simp only [Op.exec] at hexec
  split at hexec
  · rename_i hl
    obtain ⟨rfl, hnow⟩ := Prod.mk.inj (Option.some.inj hexec)
    obtain ⟨⟨raw, hraw, hx⟩, hvalid⟩ := hinv.free hl
    have hsec : InSection serde t s.now.state s.now.state s.now.state s' :=
      ⟨by rw [← hnow], ⟨_, _, hlog ▸ List.mem_cons_self⟩, by rw [← hnow], raw, by rw [← hnow]; exact hraw, hx⟩
    refine ⟨⟨.inr (.inl ⟨hl, hsec.lock⟩), fun _ => by rw [← hnow]; exact ⟨rfl, rfl, rfl⟩⟩, ?_, hvalid, hsec⟩
    exact hsec.inv hreq ⟨hvalid, .inl rfl⟩ (by rw [← hnow]; exact hinv.jobs)
  · cases hexec

/-- A step inside the section that changes neither the memory nor the files of the state. -/
theorem performs_inSection {o : Op} (ho : o.OffStore) :
    (crashProtocol serde reqs).Performs machine.machine.noDrops t (InSection serde t x₀ x y) o
      fun _ => InSection serde t x₀ x y := by
  refine performs_crash fun s r s' c hs hinv hexec hlog => ?_
  have hstill := still_of_offStore ho hinv.jobs hexec
  obtain ⟨hleave, hsec⟩ := hs.step hlog hstill.stateLock (hstill.state.trans hs.state) (hstill.holds hs.file)
  exact ⟨hleave, hinv.still hlog hstill, hsec⟩

/-- After the write of the temporary file. -/
def AfterTmp (serde : Serde) (t : Nat) (x₀ : ControlPlaneState) (payload : Bytes) :
    Except String Unit → Moment → Prop
  | .ok _ => TmpReady serde t x₀ payload
  | .error _ => InSection serde t x₀ x₀ x₀

theorem performs_crash_writeStateTmp (hreq : reqs[t]? = some (.putState expected d)) (hvalid : validateState x₀ = .ok ())
    {payload : Bytes} : (crashProtocol serde reqs).Performs machine.machine.noDrops t (InSection serde t x₀ x₀ x₀)
      (.writeStateTmp payload) (AfterTmp serde t x₀ payload) := by
  refine performs_crash fun s r s' c hs hinv hexec hlog => ?_
  have hio := Option.some.inj hexec
  unfold World.io at hio
  split at hio
  all_goals
    obtain ⟨rfl, hnow⟩ := Prod.mk.inj hio
    obtain ⟨raw, hraw, hx⟩ := hs.file
    have hstate : s'.now.state = x₀ := by rw [← hnow]; exact hs.state
    obtain ⟨hleave, hsec⟩ := hs.step hlog (by rw [← hnow]) hstate ⟨raw, by rw [← hnow]; exact hraw, hx⟩
    refine ⟨hleave, hsec.inv hreq ⟨hvalid, .inl rfl⟩ (by rw [← hnow]; exact hinv.jobs), ?_⟩
  · exact hsec
  · exact ⟨hsec, by rw [← hnow]⟩

/-- After the rename of the temporary file, which holds `y`. -/
def AfterReplace (serde : Serde) (t : Nat) (x₀ y : ControlPlaneState) : Except String Unit → Moment → Prop
  | .ok _ => InSection serde t x₀ x₀ y
  | .error _ => InSection serde t x₀ x₀ x₀

theorem performs_crash_renameStateTmp (hreq : reqs[t]? = some (.putState expected d))
    (hvalid : validateState x₀ = .ok ()) {payload : Bytes} (hpayload : serde.fromStr payload = .ok y)
    (hy : Leaves x₀ d y) : (crashProtocol serde reqs).Performs machine.machine.noDrops t (TmpReady serde t x₀ payload)
      .renameStateTmp (AfterReplace serde t x₀ y) := by
  refine performs_crash fun s r s' c hs hinv hexec hlog => ?_
  have hio := Option.some.inj hexec
  obtain ⟨raw, hraw, hx⟩ := hs.1.file
  unfold World.io at hio
  split at hio
  · obtain ⟨rfl, hnow⟩ := Prod.mk.inj hio
    have hstate : s'.now.state = x₀ := by rw [← hnow]; exact hs.1.state
    obtain ⟨hleave, hsec⟩ := hs.1.step hlog (by rw [← hnow]) hstate ⟨raw, by rw [← hnow]; exact hraw, hx⟩
    exact ⟨hleave, hsec.inv hreq ⟨hvalid, .inl rfl⟩ (by rw [← hnow]; exact hinv.jobs), hsec⟩
  · simp only [Disk.renameTmp, hs.2] at hio
    obtain ⟨rfl, hnow⟩ := Prod.mk.inj hio
    have hstate : s'.now.state = x₀ := by rw [← hnow]; exact hs.1.state
    obtain ⟨hleave, hsec⟩ := hs.1.step hlog (by rw [← hnow]) hstate
      ⟨payload, by rw [← hnow], hpayload⟩
    exact ⟨hleave, hsec.inv hreq hy (by rw [← hnow]; exact hinv.jobs), hsec⟩

theorem performs_crash_writeState (hreq : reqs[t]? = some (.putState expected d)) (hy : Leaves x₀ d y) :
    (crashProtocol serde reqs).Performs machine.machine.noDrops t (InSection serde t x₀ x₀ y) (.writeState y)
      fun _ => InSection serde t x₀ y y := by
  refine performs_crash fun s r s' c hs hinv hexec hlog => ?_
  obtain ⟨-, hnow⟩ := Prod.mk.inj (Option.some.inj hexec)
  obtain ⟨raw, hraw, hx⟩ := hs.file
  have hstate : s'.now.state = y := by rw [← hnow]
  obtain ⟨hleave, hsec⟩ := hs.step hlog (by rw [← hnow]) hstate ⟨raw, by rw [← hnow]; exact hraw, hx⟩
  exact ⟨hleave, hsec.inv hreq hy (by rw [← hnow]; exact hinv.jobs), hsec⟩

theorem performs_crash_unlockState (hvalid : validateState x = .ok ()) :
    (crashProtocol serde reqs).Performs machine.machine.noDrops t (InSection serde t x₀ x x) .unlockState
      fun _ _ => True := by
  refine performs_crash fun s r s' c hs hinv hexec hlog => ?_
  obtain ⟨-, hnow⟩ := Prod.mk.inj (Option.some.inj hexec)
  obtain ⟨raw, hraw, hx⟩ := hs.file
  have hlock : s'.now.stateLock = none := by rw [← hnow]
  have hstate : s'.now.state = x := by rw [← hnow]; exact hs.state
  refine ⟨⟨.inr (.inr ⟨hs.lock, hlock⟩), fun hn => absurd hs.lock hn⟩, ⟨?_, fun _ => ?_, fun u hl => ?_⟩, trivial⟩
  · rw [← hnow]
    exact hinv.jobs
  · rw [hstate]
    exact ⟨⟨raw, by rw [← hnow]; exact hraw, hx⟩, hvalid⟩
  · rw [hlock] at hl
    cases hl

/-- At the end of the section memory and `state.json` agree. -/
def Settled (serde : Serde) (t : Nat) (x₀ : ControlPlaneState) (s : Moment) : Prop :=
  ∃ x, validateState x = .ok () ∧ InSection serde t x₀ x x s

theorem triple_crash_writeStateFile (hreq : reqs[t]? = some (.putState expected d)) (hvalid : validateState x₀ = .ok ())
    (hy : Leaves x₀ d y) {f : Unit → Fallible ControlPlaneState}
    {Q : Except DaemonError ControlPlaneState → Moment → Prop}
    (hf : (crashProtocol serde reqs).Triple machine.machine.noDrops t (InSection serde t x₀ x₀ y) (f ()).run Q)
    (hQ : ∀ e s, InSection serde t x₀ x₀ x₀ s → Q (.error e) s) :
    (crashProtocol serde reqs).Triple machine.machine.noDrops t (InSection serde t x₀ x₀ x₀)
      (writeStateFile serde y >>= f).run Q := by
  unfold writeStateFile
  simp only [bind_assoc]
  refine triple_check stable_inSection (fun payload hp => ?_) fun e s _ _ h => hQ e s h
  have htmp : ∀ r, (crashProtocol serde reqs).Stable t (AfterTmp serde t x₀ payload r) := by
    intro r
    cases r with
    | ok u => exact stable_tmpReady
    | error e => exact stable_inSection
  have hreplace : ∀ r, (crashProtocol serde reqs).Stable t (AfterReplace serde t x₀ y r) := by
    intro r
    cases r with
    | ok u => exact stable_inSection
    | error e => exact stable_inSection
  have hwrite := Triple.perform stable_inSection htmp (performs_crash_writeStateTmp hreq hvalid)
  have hrename := Triple.perform stable_tmpReady hreplace
    (performs_crash_renameStateTmp hreq hvalid (serde.fromStr_payload hp) hy)
  refine triple_attempt hwrite htmp (fun _ => ?_) fun e s _ h => hQ _ s h
  exact triple_attempt hrename hreplace (fun _ => hf) fun e s _ h => hQ _ s h

theorem triple_crash_putStateLocked (hreq : reqs[t]? = some (.putState expected d))
    (hvalid : validateState x₀ = .ok ()) :
    (crashProtocol serde reqs).Triple machine.machine.noDrops t (InSection serde t x₀ x₀ x₀)
      (putStateLocked serde x₀ expected d).run fun _ => Settled serde t x₀ := by
  have back : ∀ s, InSection serde t x₀ x₀ x₀ s → Settled serde t x₀ s := fun s h => ⟨x₀, hvalid, h⟩
  unfold putStateLocked
  split
  · exact triple_throw stable_inSection fun s _ h => back s h
  split
  · exact triple_throw stable_inSection fun s _ h => back s h
  refine triple_ask (o := .now) stable_inSection (fun _ => stable_inSection) (performs_inSection (o := .now) trivial)
    fun n => ?_
  refine triple_check stable_inSection (fun _ hok => ?_) fun e s _ _ h => back s h
  have hy : Leaves x₀ d (commitDraft x₀ d n) := ⟨hok, .inr ⟨n, rfl⟩⟩
  refine triple_crash_writeStateFile hreq hvalid hy ?_ fun e s h => back s h
  refine triple_ask (o := .writeState (commitDraft x₀ d n)) stable_inSection (fun _ => stable_inSection)
    (performs_crash_writeState hreq hy) fun _ => ?_
  refine triple_ask (o := .updateStatus _) stable_inSection (fun _ => stable_inSection)
    (performs_inSection (o := .updateStatus _) trivial) fun _ => ?_
  exact triple_pure stable_inSection fun s _ h => ⟨_, hok, h⟩

theorem triple_crash_putState (hreq : reqs[t]? = some (.putState expected d)) :
    (crashProtocol serde reqs).Triple machine.machine.noDrops t (NotHolding t) (putState serde expected d)
      fun _ _ => True := by
  have hstable : ∀ x, (crashProtocol serde reqs).Stable t
      fun s => validateState x = .ok () ∧ InSection serde t x x x s :=
    fun x s s' h hr => ⟨h.1, stable_inSection s s' h.2 hr⟩
  refine (Triple.perform stable_notHolding hstable (performs_crash_lockState hreq)).bind fun x₀ => ?_
  rintro s ⟨hvalid, hs⟩
  refine ((triple_crash_putStateLocked hreq hvalid).bind fun r => ?_) s hs
  rintro s ⟨x, hx, hs⟩
  refine ((Triple.perform stable_inSection (fun _ _ _ _ _ => trivial)
    (performs_crash_unlockState hx)).bind fun _ => ?_) s hs
  exact .pure (fun _ _ _ _ => trivial) fun _ _ _ => trivial

theorem crash_ready (cfg : DaemonConfig) {w : World} (hlock : w.stateLock = none) (hjobs : w.jobs = [])
    (hfile : Holds serde w w.state) (hvalid : validateState w.state = .ok ()) :
    Ready (crashProtocol serde reqs) machine.machine.noDrops (fun _ _ _ => True) (start cfg serde w reqs) := by
  have hinv : CrashInv serde reqs ⟨w, []⟩ :=
    ⟨hjobs, fun _ => ⟨hfile, hvalid⟩, fun t hl => by rw [hlock] at hl; cases hl⟩
  have offStore : ∀ {t : Nat} {p : Code Response}, p.All Op.OffStore →
      (crashProtocol serde reqs).wp machine.machine.noDrops t p (fun _ _ => True) ⟨w, []⟩ :=
    fun hp => triple_offStore hp _ trivial
  refine ⟨hinv, fun t q hq => ?_⟩
  obtain ⟨req, hreq, rfl⟩ := Option.map_eq_some_iff.1 hq
  cases req with
  | getState => exact offStore (.bind (.perform (o := Op.readState) trivial) fun _ => trivial)
  | getStatus => exact offStore (.bind (.perform (o := Op.readStatus) trivial) fun _ => trivial)
  | putState expected d =>
    have hput := (triple_crash_putState hreq).bind fun r => (.pure (fun _ _ _ _ => trivial) fun _ _ _ => trivial :
      (crashProtocol serde reqs).Triple machine.machine.noDrops t _ (pure (Response.put r)) fun _ _ => True)
    have hnot : w.stateLock ≠ some t := by rw [hlock]; exact (Option.some_ne_none t).symm
    exact hput _ hnot
  | reconcile =>
    refine offStore (.bind (.bind (.perform (o := Op.lockApply) trivial) fun _ => ?_) fun _ => trivial)
    refine .bind ((reconcileLocked_ofCall cfg).mono fun _ => Op.OfCall.offStore) fun _ => ?_
    exact .bind (.perform (o := Op.unlockApply) trivial) fun _ => trivial
  | externalEdit content => exact offStore (.bind (.perform (o := Op.externalEdit ..) trivial) fun _ => trivial)
  | finishJob => exact offStore (.bind (.perform (o := Op.runJob) trivial) fun _ => trivial)

end Threads

section Load

variable {serde : Serde} {s s' : Moment} {raw : Bytes} {x : ControlPlaneState}

theorem step_faultless {t : Nat} {o : Op} {r : o.Res} (h : (machine.machineOn Faultless).step t o s r s') :
    ∃ n pick, o.exec t ⟨n, none, pick⟩ s.now = some (r, s'.now) := by
  obtain ⟨⟨⟨n, fault, pick⟩, hc, hexec⟩, -⟩ := Exec.traced_step.1 h
  obtain rfl : fault = none := hc
  exact ⟨n, pick, hexec⟩

theorem step_of_exec {t : Nat} {o : Op} {r : o.Res} {w' : World} (h : o.exec t ⟨0, none, 0⟩ s.now = some (r, w')) :
    (machine.machineOn Faultless).step t o s r ⟨w', .did t o r s.now w' :: s.log⟩ :=
  Exec.traced_step.2 ⟨⟨⟨0, none, 0⟩, rfl, h⟩, rfl⟩

theorem exec_readStateFile {t n pick : Nat} {w : World} (hraw : w.disk.stateJson = some raw) :
    Op.readStateFile.exec t ⟨n, none, pick⟩ w = some (.ok raw, w) := by
  simp only [Op.exec, hraw]

theorem eval_readOrInit_file (hraw : s.now.disk.stateJson = some raw) (hx : serde.fromStr raw = .ok x)
    {r : Except DaemonError ControlPlaneState} (h : (readOrInit serde).run.Eval (machine.machineOn Faultless) 0 s r s') :
    r = .ok x := by
  rw [readOrInit, eval_ask] at h
  obtain ⟨b, s₁, hexists, h⟩ := h
  obtain ⟨n, pick, hexec⟩ := step_faultless hexists
  obtain ⟨rfl, hnow⟩ := Prod.mk.inj (Option.some.inj hexec)
  simp only [hraw, Option.isSome_some] at h
  obtain ⟨a, s₂, hread, h⟩ := eval_attempt.1 h
  obtain ⟨n', pick', hexec'⟩ := step_faultless (Prog.eval_perform.1 hread)
  rw [exec_readStateFile (hnow ▸ hraw)] at hexec'
  obtain rfl := (Prod.mk.inj (Option.some.inj hexec')).1
  exact h.1.trans hx

theorem exists_eval_readOrInit (hraw : s.now.disk.stateJson = some raw) (hx : serde.fromStr raw = .ok x) :
    ∃ s', (readOrInit serde).run.Eval (machine.machineOn Faultless) 0 s (.ok x) s' := by
  have hexists : (machine.machineOn Faultless).step 0 .stateFileExists s true
      ⟨s.now, .did 0 .stateFileExists true s.now s.now :: s.log⟩ := step_of_exec (by simp [Op.exec, hraw])
  have hread := step_of_exec (s := ⟨s.now, .did 0 .stateFileExists true s.now s.now :: s.log⟩)
    (exec_readStateFile (t := 0) hraw)
  have hcheck := eval_attempt (f := fun raw => check (serde.fromStr raw)).2
    ⟨.ok raw, _, Prog.eval_perform.2 hread, hx.symm, rfl⟩
  exact ⟨_, eval_ask.2 ⟨true, _, hexists, hcheck⟩⟩

theorem recovers_of_file {disk : Disk} (hraw : disk.stateJson = some raw) (hx : serde.fromStr raw = .ok x)
    (hvalid : validateState x = .ok ()) : Recovers serde disk x := by
  constructor
  · obtain ⟨s₁, hread⟩ := exists_eval_readOrInit (s := ⟨.unloaded disk, []⟩) hraw hx
    have hnow := eval_ask (f := fun n => pure (x, RuntimeStatus.loaded x n)).2
      ⟨0, _, step_of_exec (t := 0) (s := s₁) (o := .now) rfl, rfl, rfl⟩
    have hcheck := eval_tryBind (x := check (validateState x)) (f := fun _ => _).2
      ⟨.ok (), s₁, Prog.eval_pure.2 ⟨hvalid.symm, rfl⟩, hnow⟩
    exact ⟨0, _, eval_tryBind.2 ⟨.ok x, s₁, hread, hcheck⟩⟩
  · intro r s' h
    obtain ⟨a, s₁, hread, h⟩ := eval_tryBind.1 h
    obtain rfl := eval_readOrInit_file hraw hx hread
    obtain ⟨b, s₂, hcheck, h⟩ := eval_tryBind.1 h
    obtain rfl : b = .ok () := hcheck.1.trans hvalid
    obtain ⟨n, s₃, -, h⟩ := eval_ask.1 h
    exact ⟨n, h.1⟩

end Load

/-- Wherever a process is stopped, the next one loads the stored state; when `put_state` was in its critical
section, that is the state it had found or the one it commits, as a whole. -/
theorem crash_recovers (format : Format) (cfg : DaemonConfig) {w : World} (hlock : w.stateLock = none)
    (hjobs : w.jobs = []) (hfile : Holds format.serde w w.state) (hvalid : validateState w.state = .ok ())
    {reqs : List Request} {p : Pool Op.Res Moment Response}
    (hp : (start cfg format.serde w reqs).Reach machine.machine.noDrops p) :
    (∃ x, Recovers format.serde p.shared.now.disk x ∧
      (p.shared.now.stateLock = none → x = p.shared.now.state) ∧
      ∀ t, p.shared.now.stateLock = some t → ∃ expected d x₀, reqs[t]? = some (.putState expected d) ∧
        Found t x₀ p.shared.log ∧ (x = x₀ ∨ ∃ n, x = commitDraft x₀ d n)) ∧
    ∀ y, validateState y = .ok () → format.decode (format.encode y) = .ok y := by
  refine ⟨?_, fun y _ => format.decode_encode y⟩
  have hinv := ((crash_ready cfg hlock hjobs hfile hvalid).reach hp).1
  cases hl : p.shared.now.stateLock with
  | none =>
    obtain ⟨⟨raw, hraw, hx⟩, hok⟩ := hinv.free hl
    exact ⟨_, recovers_of_file hraw hx hok, fun _ => rfl, fun t ht => by cases ht⟩
  | some t =>
    obtain ⟨expected, d, x₀, hreq, hfound, y, ⟨raw, hraw, hy⟩, hok, hleaves⟩ := hinv.held t hl
    refine ⟨y, recovers_of_file hraw hy hok, (fun h => by cases h), fun u hu => ?_⟩
    obtain rfl := Option.some.inj hu
    exact ⟨expected, d, x₀, hreq, hfound, hleaves⟩

/-- A process that runs on the text of the initial state. -/
def textWorld : World :=
  .boot (.initial 0) 0 ⟨some (Format.text.encode (.initial 0)), none, fun _ => none, fun _ => none, fun h => h = .ofState⟩

/-- The process is stopped while it writes the temporary file, of which one byte is there. -/
theorem crash_recovers_torn : ∃ p, (start .defaults Format.text.serde textWorld
      [.putState 0 { sampleDraft with servers := [sampleServer "a"] }]).Reach machine.machine.noDrops p ∧
    p.shared.now.disk.stateTmp = some [0x7b] ∧ p.shared.now.stateLock = some 0 ∧
    ∃ x, Recovers Format.text.serde p.shared.now.disk x := by
  have hrun : (machine.schedule (turns 0 2 ++ [.op 0 ⟨0, some ⟨"crash", false, false, none, some [0x7b], none⟩, 0⟩])
      (start .defaults Format.text.serde textWorld
        [.putState 0 { sampleDraft with servers := [sampleServer "a"] }])).map
      (fun p => (p.shared.now.disk.stateTmp, p.shared.now.stateLock)) = some (some [0x7b], some 0) := by
    decide +kernel
  obtain ⟨p, hp, hres⟩ := Option.map_eq_some_iff.1 hrun
  obtain ⟨htmp, hlock⟩ := Prod.mk.inj hres
  have hreach := Exec.reach_noDrops_of_schedule (by decide) hp
  have hfile : Holds Format.text.serde textWorld textWorld.state := ⟨_, rfl, Format.text.decode_encode _⟩
  obtain ⟨⟨x, hx, -⟩, -⟩ := crash_recovers Format.text .defaults rfl rfl hfile (by decide) hreach
  exact ⟨p, hreach, htmp, hlock, x, hx⟩

end NginxAdmin.Daemon
