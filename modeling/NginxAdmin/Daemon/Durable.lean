import NginxAdmin.Daemon.Api
import NginxAdmin.Daemon.Crash
import NginxAdmin.Lib.Versions

/-!
# The versions of the state while a process serves

`DurableInv`: the state that a process has loaded and those that it has committed are a lineage that ends in the state
in memory, and `state.json` holds this one, or, while a `PUT` is inside, already its successor. `durable_ready` says
that every handler of the API keeps it, and that an answer that carries a state carries a version.
-/

namespace NginxAdmin.Daemon

open Protocol

/-- Somebody asks to replace a state of revision `expected` by `draft`. -/
def Offers (extract : JsonExtractor) (req : HttpRequest) (expected : UInt64) (draft : ControlPlaneState) : Prop :=
  req.path = "/v1/state" ∧ req.method = .put ∧ parseIfMatch req.headers = .ok expected ∧
    extract req.headers req.body = .ok draft

def Offered (extract : JsonExtractor) (tasks : List Task) (expected : UInt64) (draft : ControlPlaneState) : Prop :=
  ∃ req, .request req ∈ tasks ∧ Offers extract req expected draft

/-- `y` is the commit of a draft that was offered for exactly the state `x`. -/
def Succeeds (offered : UInt64 → ControlPlaneState → Prop) (x y : ControlPlaneState) : Prop :=
  ∃ draft now, offered x.revision draft ∧ y = commitDraft x draft now

/-- The state that a process has loaded, and those that it has committed, oldest first. -/
def versions (first : ControlPlaneState) (log : Log) : List ControlPlaneState := first :: (commits log).map Prod.snd

theorem mem_versions {first x : ControlPlaneState} {log : Log} :
    x ∈ versions first log ↔ x = first ∨ ∃ t, (t, x) ∈ commits log := by
  simp [versions]

theorem versions_mono {first x : ControlPlaneState} {log log' : Log} (h : ∀ e ∈ log, e ∈ log')
    (hx : x ∈ versions first log) : x ∈ versions first log' := by
  rw [mem_versions] at hx ⊢
  refine hx.imp_right fun ⟨t, ht⟩ => ?_
  obtain ⟨r, pre, post, he⟩ := mem_commits.1 ht
  exact ⟨t, mem_commits.2 ⟨r, pre, post, h _ he⟩⟩

theorem versions_cons (first : ControlPlaneState) (e : Event Op.Res World) (log : Log) :
    versions first (e :: log) = versions first log ++ (commitOf e).toList.map Prod.snd := by
  rw [versions, commits_cons, List.map_append]
  rfl

structure DurableInv (serde : Serde) (offered : UInt64 → ControlPlaneState → Prop) (first : ControlPlaneState)
    (s : Moment) : Prop where
  jobs : s.now.jobs = []
  lineage : Lineage (Succeeds offered) (versions first s.log)
  memory : (versions first s.log).getLast? = some s.now.state
  file : ∃ y, Holds serde s.now y ∧ validateState y = .ok () ∧
    Relation.ReflGen (Succeeds offered) s.now.state y ∧ (s.now.stateLock = none → y = s.now.state)

theorem CrashRely.refl (t : Nat) (s : Moment) : CrashRely t s s := ⟨fun _ he => he, Iff.rfl, fun _ => ⟨rfl, rfl, rfl⟩⟩

def durableProtocol (serde : Serde) (offered : UInt64 → ControlPlaneState → Prop) (first : ControlPlaneState) :
    Protocol Moment where
  rely := CrashRely
  inv := DurableInv serde offered first
  refl := CrashRely.refl
  trans := CrashRely.trans

/-- An answer that carries a state has the `ETag` of the state, which is a version; that of a `PUT` is its own
draft, as committed on top of the version of the revision in `If-Match`. -/
structure Carries (extract : JsonExtractor) (first : ControlPlaneState) (req : HttpRequest) (res : HttpResponse)
    (x : ControlPlaneState) (s : Moment) : Prop where
  path : req.path = "/v1/state"
  ok : res.statusCode = 200
  etag : ∃ etag, res.etag = some etag ∧ etagForRevision x.revision = .ok etag
  mem : x ∈ versions first s.log
  put : req.method = .put → ∃ x₀ ∈ versions first s.log, ∃ draft now, Offers extract req x₀.revision draft ∧
    x = commitDraft x₀ draft now

def AnswersState (extract : JsonExtractor) (first : ControlPlaneState) (req : HttpRequest) (res : HttpResponse)
    (s : Moment) : Prop :=
  ∀ x, res.body = .state x → Carries extract first req res x s

section Threads

variable {serde : Serde} {offered : UInt64 → ControlPlaneState → Prop} {first : ControlPlaneState} {t : Nat}
  {s s' : Moment} {extract : JsonExtractor} {cfg : DaemonConfig}

theorem performs_durable {o : Op} {A : Moment → Prop} {Q : o.Res → Moment → Prop}
    (hstep : ∀ s r s' c, A s → DurableInv serde offered first s → o.exec t c s.now = some (r, s'.now) →
      s'.log = .did t o r s.now s'.now :: s.log → Leave t s.now s'.now ∧ DurableInv serde offered first s' ∧ Q r s') :
    (durableProtocol serde offered first).Performs machine.machine.noDrops t A o Q := by
  intro s hA hinv
  refine ⟨fun r s' hs => ?_, fun s' h => h.elim⟩
  obtain ⟨⟨c, -, hexec⟩, hlog⟩ := Exec.traced_step.1 hs
  obtain ⟨howed, hinv', hQ⟩ := hstep s r s' c hA hinv hexec hlog
  refine ⟨⟨hinv', fun u hu => ⟨fun e he => ?_, howed.stateLock.iff hu, fun hl => howed.held ?_⟩⟩, hQ⟩
  · rw [hlog]
    exact List.mem_cons_of_mem _ he
  · rw [hl]
    exact fun he => hu (Option.some.inj he)

theorem stable_true : (durableProtocol serde offered first).Stable t fun _ => True := fun _ _ _ _ => trivial

theorem DurableInv.mem (h : DurableInv serde offered first s) : s.now.state ∈ versions first s.log :=
  List.mem_of_getLast? h.memory

theorem commitOf_offStore {o : Op} (ho : o.OffStore) {r : o.Res} {pre post : World} :
    commitOf (.did t o r pre post) = none := by
  cases o <;> first | rfl | exact ho.elim

theorem DurableInv.still {e : Event Op.Res World} (h : DurableInv serde offered first s) (hlog : s'.log = e :: s.log)
    (he : commitOf e = none) (hs : Still s.now s'.now) : DurableInv serde offered first s' := by
  have hsame : versions first s'.log = versions first s.log := by
    rw [hlog, versions_cons, he]
    exact List.append_nil _
  refine ⟨hs.jobs.trans h.jobs, by rw [hsame]; exact h.lineage, by rw [hsame, hs.state]; exact h.memory, ?_⟩
  obtain ⟨y, hy, hvalid, hsucc, hfree⟩ := h.file
  rw [hs.state, hs.stateLock]
  exact ⟨y, hs.holds hy, hvalid, hsucc, hfree⟩

theorem performs_durable_offStore {o : Op} (ho : o.OffStore) {A : Moment → Prop}
    (hA : ∀ s s' : Moment, A s → Still s.now s'.now → (∀ e ∈ s.log, e ∈ s'.log) → A s') :
    (durableProtocol serde offered first).Performs machine.machine.noDrops t A o fun _ => A := by
  refine performs_durable fun s r s' c hs hinv hexec hlog => ?_
  have hstill := still_of_offStore ho hinv.jobs hexec
  refine ⟨⟨.inl hstill.stateLock, fun _ => ⟨hstill.state, hstill.stateJson, hstill.stateTmp⟩⟩,
    hinv.still hlog (commitOf_offStore ho) hstill, hA s s' hs hstill fun e he => ?_⟩
  rw [hlog]
  exact List.mem_cons_of_mem _ he

theorem triple_durable_offStore {α : Type} {p : Code α} (hp : p.All Op.OffStore) :
    (durableProtocol serde offered first).Triple machine.machine.noDrops t (fun _ => True) p fun _ _ => True :=
  Triple.all stable_true (fun _ ho => performs_durable_offStore ho fun _ _ _ _ _ => trivial) hp

/-- Thread `t` has found the version `x₀`; now memory holds `x` and `state.json` holds `y`. -/
structure InPut (serde : Serde) (first : ControlPlaneState) (t : Nat) (x₀ x y : ControlPlaneState) (s : Moment) :
    Prop where
  lock : s.now.stateLock = some t
  seen : x₀ ∈ versions first s.log
  state : s.now.state = x
  file : Holds serde s.now y

theorem stable_notHolding_durable : (durableProtocol serde offered first).Stable t (NotHolding t) :=
  fun _ _ h hr => mt hr.stateLock.1 h

theorem stable_inPut {x₀ x y : ControlPlaneState} :
    (durableProtocol serde offered first).Stable t (InPut serde first t x₀ x y) := by
  intro s s' h hr
  obtain ⟨hstate, hjson, -⟩ := hr.held h.lock
  obtain ⟨raw, hraw, hy⟩ := h.file
  exact ⟨hr.stateLock.2 h.lock, versions_mono hr.log h.seen, hstate.trans h.state, raw, hjson.trans hraw, hy⟩

/-- The temporary file is complete. -/
def TmpComplete (serde : Serde) (first : ControlPlaneState) (t : Nat) (x₀ : ControlPlaneState) (payload : Bytes)
    (s : Moment) : Prop :=
  InPut serde first t x₀ x₀ x₀ s ∧ s.now.disk.stateTmp = some payload

theorem stable_tmpComplete {x₀ : ControlPlaneState} {payload : Bytes} :
    (durableProtocol serde offered first).Stable t (TmpComplete serde first t x₀ payload) := by
  rintro s s' ⟨h, htmp⟩ hr
  obtain ⟨-, -, htmp'⟩ := hr.held h.lock
  exact ⟨stable_inPut s s' h hr, htmp'.trans htmp⟩

variable {x₀ x y : ControlPlaneState}

/-- A step inside the section: the lock stays, and whatever holds of memory and the file has to be said. -/
theorem InPut.step {e : Event Op.Res World} {x' y' : ControlPlaneState} (h : InPut serde first t x₀ x y s)
    (hlog : s'.log = e :: s.log) (hlock : s'.now.stateLock = s.now.stateLock) (hstate : s'.now.state = x')
    (hfile : Holds serde s'.now y') : Leave t s.now s'.now ∧ InPut serde first t x₀ x' y' s' := by
  refine ⟨⟨.inl hlock, fun hn => absurd h.lock hn⟩, hlock.trans h.lock, ?_, hstate, hfile⟩
  refine versions_mono (fun e' he' => ?_) h.seen
  rw [hlog]
  exact List.mem_cons_of_mem _ he'

/-- The invariant after a step inside the section that commits nothing. -/
theorem DurableInv.inPut {e : Event Op.Res World} (hinv : DurableInv serde offered first s)
    (h : InPut serde first t x₀ x y s') (hlog : s'.log = e :: s.log) (he : commitOf e = none)
    (hstate : s'.now.state = s.now.state) (hjobs : s'.now.jobs = s.now.jobs) (hvalid : validateState y = .ok ())
    (hsucc : Relation.ReflGen (Succeeds offered) x y) : DurableInv serde offered first s' := by
  have hsame : versions first s'.log = versions first s.log := by
    rw [hlog, versions_cons, he]
    exact List.append_nil _
  refine ⟨hjobs.trans hinv.jobs, by rw [hsame]; exact hinv.lineage, by rw [hsame, hstate]; exact hinv.memory, y, h.file,
    hvalid, h.state ▸ hsucc, fun hnone => ?_⟩
  rw [h.lock] at hnone
  cases hnone

theorem performs_durable_lockState : (durableProtocol serde offered first).Performs machine.machine.noDrops t (NotHolding t)
    .lockState fun x s => validateState x = .ok () ∧ InPut serde first t x x x s := by
  refine performs_durable fun s r s' c hs hinv hexec hlog => ?_
  simp only [Op.exec] at hexec
  split at hexec
  · rename_i hl
    obtain ⟨rfl, hnow⟩ := Prod.mk.inj (Option.some.inj hexec)
    obtain ⟨y, ⟨raw, hraw, hy⟩, hvalid, -, hfree⟩ := hinv.file
    obtain rfl := hfree hl
    have hseen : s.now.state ∈ versions first s'.log := by
      rw [hlog, versions_cons]
      exact List.mem_append_left _ hinv.mem
    have hsec : InPut serde first t s.now.state s.now.state s.now.state s' :=
      ⟨by rw [← hnow], hseen, by rw [← hnow], raw, by rw [← hnow]; exact hraw, hy⟩
    refine ⟨⟨.inr (.inl ⟨hl, hsec.lock⟩), fun _ => by rw [← hnow]; exact ⟨rfl, rfl, rfl⟩⟩, ?_, hvalid, hsec⟩
    exact hinv.inPut hsec hlog rfl (by rw [← hnow]) (by rw [← hnow]) hvalid .refl
  · cases hexec

theorem performs_durable_inPut {o : Op} (ho : o.OffStore) : (durableProtocol serde offered first).Performs
    machine.machine.noDrops t (InPut serde first t x₀ x y) o fun _ => InPut serde first t x₀ x y := by
  refine performs_durable_offStore ho fun s s' hs hstill hlog => ?_
  exact ⟨hstill.stateLock.trans hs.lock, versions_mono hlog hs.seen, hstill.state.trans hs.state, hstill.holds hs.file⟩

/-- After the write of the temporary file. -/
def TmpWritten (serde : Serde) (first : ControlPlaneState) (t : Nat) (x₀ : ControlPlaneState) (payload : Bytes) :
    Except String Unit → Moment → Prop
  | .ok _ => TmpComplete serde first t x₀ payload
  | .error _ => InPut serde first t x₀ x₀ x₀

theorem performs_durable_writeStateTmp (hvalid : validateState x₀ = .ok ()) {payload : Bytes} :
    (durableProtocol serde offered first).Performs machine.machine.noDrops t (InPut serde first t x₀ x₀ x₀)
      (.writeStateTmp payload) (TmpWritten serde first t x₀ payload) := by
  refine performs_durable fun s r s' c hs hinv hexec hlog => ?_
  have hio := Option.some.inj hexec
  obtain ⟨raw, hraw, hx⟩ := hs.file
  unfold World.io at hio
  split at hio
  all_goals
    obtain ⟨rfl, hnow⟩ := Prod.mk.inj hio
    have hstate : s'.now.state = x₀ := by rw [← hnow]; exact hs.state
    obtain ⟨hleave, hsec⟩ := hs.step hlog (by rw [← hnow]) hstate ⟨raw, by rw [← hnow]; exact hraw, hx⟩
    refine ⟨hleave, hinv.inPut hsec hlog rfl (by rw [← hnow]) (by rw [← hnow]) hvalid .refl, ?_⟩
  · exact hsec
  · exact ⟨hsec, by rw [← hnow]⟩

/-- After the rename of the temporary file, which holds `y`. -/
def FileReplaced (serde : Serde) (first : ControlPlaneState) (t : Nat) (x₀ y : ControlPlaneState) :
    Except String Unit → Moment → Prop
  | .ok _ => InPut serde first t x₀ x₀ y
  | .error _ => InPut serde first t x₀ x₀ x₀

theorem performs_durable_renameStateTmp (hvalid : validateState x₀ = .ok ()) (hvalid' : validateState y = .ok ())
    (hsucc : Succeeds offered x₀ y) {payload : Bytes} (hpayload : serde.fromStr payload = .ok y) :
    (durableProtocol serde offered first).Performs machine.machine.noDrops t (TmpComplete serde first t x₀ payload)
      .renameStateTmp (FileReplaced serde first t x₀ y) := by
  refine performs_durable fun s r s' c hs hinv hexec hlog => ?_
  have hio := Option.some.inj hexec
  obtain ⟨raw, hraw, hx⟩ := hs.1.file
  unfold World.io at hio
  split at hio
  · obtain ⟨rfl, hnow⟩ := Prod.mk.inj hio
    have hstate : s'.now.state = x₀ := by rw [← hnow]; exact hs.1.state
    obtain ⟨hleave, hsec⟩ := hs.1.step hlog (by rw [← hnow]) hstate ⟨raw, by rw [← hnow]; exact hraw, hx⟩
    exact ⟨hleave, hinv.inPut hsec hlog rfl (by rw [← hnow]) (by rw [← hnow]) hvalid .refl, hsec⟩
  · simp only [Disk.renameTmp, hs.2] at hio
    obtain ⟨rfl, hnow⟩ := Prod.mk.inj hio
    have hstate : s'.now.state = x₀ := by rw [← hnow]; exact hs.1.state
    obtain ⟨hleave, hsec⟩ := hs.1.step hlog (by rw [← hnow]) hstate ⟨payload, by rw [← hnow], hpayload⟩
    exact ⟨hleave, hinv.inPut hsec hlog rfl (by rw [← hnow]) (by rw [← hnow]) hvalid' (.single hsucc), hsec⟩

/-- The commit: the next version. -/
theorem performs_durable_writeState (hvalid : validateState y = .ok ()) (hsucc : Succeeds offered x₀ y) :
    (durableProtocol serde offered first).Performs machine.machine.noDrops t (InPut serde first t x₀ x₀ y) (.writeState y)
      fun _ => InPut serde first t x₀ y y := by
  refine performs_durable fun s r s' c hs hinv hexec hlog => ?_
  obtain ⟨-, hnow⟩ := Prod.mk.inj (Option.some.inj hexec)
  obtain ⟨raw, hraw, hx⟩ := hs.file
  have hstate : s'.now.state = y := by rw [← hnow]
  obtain ⟨hleave, hsec⟩ := hs.step hlog (by rw [← hnow]) hstate ⟨raw, by rw [← hnow]; exact hraw, hx⟩
  have hversions : versions first s'.log = versions first s.log ++ [y] := by rw [hlog, versions_cons]; rfl
  have hlast : (versions first s.log).getLast? = some x₀ := hs.state ▸ hinv.memory
  refine ⟨hleave, ⟨by rw [← hnow]; exact hinv.jobs, ?_, ?_, y, hsec.file, hvalid, by rw [hstate], fun _ => hstate.symm⟩, hsec⟩
  · rw [hversions]
    exact hinv.lineage.concat hlast (.single hsucc)
  · rw [hversions, hstate, List.getLast?_concat]

/-- How `put_state` with the draft `d` ends. -/
def PutEnds (first : ControlPlaneState) (expected : UInt64) (d : ControlPlaneState)
    (r : Except DaemonError ControlPlaneState) (s : Moment) : Prop :=
  ∀ y, r = .ok y → y ∈ versions first s.log ∧ ∃ x₀ ∈ versions first s.log, ∃ now, x₀.revision = expected ∧
    y = commitDraft x₀ d now

theorem stable_putEnds {expected : UInt64} {d : ControlPlaneState} {r : Except DaemonError ControlPlaneState} :
    (durableProtocol serde offered first).Stable t (PutEnds first expected d r) := by
  intro s s' h hr y hy
  obtain ⟨hmem, x₀, hx₀, now, hrev, heq⟩ := h y hy
  exact ⟨versions_mono hr.log hmem, x₀, versions_mono hr.log hx₀, now, hrev, heq⟩

/-- At the end of the section memory and `state.json` agree; a success has committed its draft. -/
def Ended (serde : Serde) (first : ControlPlaneState) (t : Nat) (x₀ : ControlPlaneState) (expected : UInt64)
    (d : ControlPlaneState) (r : Except DaemonError ControlPlaneState) (s : Moment) : Prop :=
  ∃ x, validateState x = .ok () ∧ InPut serde first t x₀ x x s ∧
    ∀ y, r = .ok y → y = x ∧ x₀.revision = expected ∧ ∃ now, y = commitDraft x₀ d now

theorem stable_ended {expected : UInt64} {d : ControlPlaneState} {r : Except DaemonError ControlPlaneState} :
    (durableProtocol serde offered first).Stable t (Ended serde first t x₀ expected d r) := by
  rintro s s' ⟨x, hvalid, h, hr⟩ hrely
  exact ⟨x, hvalid, stable_inPut s s' h hrely, hr⟩

variable {expected : UInt64} {d : ControlPlaneState}

theorem performs_durable_unlockState {r : Except DaemonError ControlPlaneState} :
    (durableProtocol serde offered first).Performs machine.machine.noDrops t (Ended serde first t x₀ expected d r)
      .unlockState fun _ => PutEnds first expected d r := by
  refine performs_durable fun s r' s' c hs hinv hexec hlog => ?_
  obtain ⟨-, hnow⟩ := Prod.mk.inj (Option.some.inj hexec)
  obtain ⟨x, hvalid, hsec, hr⟩ := hs
  obtain ⟨raw, hraw, hx⟩ := hsec.file
  have hsame : versions first s'.log = versions first s.log := by
    rw [hlog, versions_cons]
    exact List.append_nil _
  have hstate : s'.now.state = s.now.state := by rw [← hnow]
  refine ⟨⟨.inr (.inr ⟨hsec.lock, by rw [← hnow]⟩), fun hn => absurd hsec.lock hn⟩, ⟨?_, ?_, ?_, x, ?_⟩, fun y hy => ?_⟩
  · rw [← hnow]
    exact hinv.jobs
  · rw [hsame]
    exact hinv.lineage
  · rw [hsame, hstate]
    exact hinv.memory
  · rw [hstate, hsec.state]
    exact ⟨⟨raw, by rw [← hnow]; exact hraw, hx⟩, hvalid, .refl, fun _ => rfl⟩
  · obtain ⟨rfl, hrev, now, heq⟩ := hr y hy
    rw [hsame]
    exact ⟨hsec.state ▸ hinv.mem, x₀, hsec.seen, now, hrev, heq⟩

theorem triple_durable_writeStateFile (hvalid : validateState x₀ = .ok ()) (hvalid' : validateState y = .ok ())
    (hsucc : Succeeds offered x₀ y) {f : Unit → Fallible ControlPlaneState}
    {Q : Except DaemonError ControlPlaneState → Moment → Prop}
    (hf : (durableProtocol serde offered first).Triple machine.machine.noDrops t (InPut serde first t x₀ x₀ y) (f ()).run Q)
    (hQ : ∀ e s, InPut serde first t x₀ x₀ x₀ s → Q (.error e) s) :
    (durableProtocol serde offered first).Triple machine.machine.noDrops t (InPut serde first t x₀ x₀ x₀)
      (writeStateFile serde y >>= f).run Q := by
  unfold writeStateFile
  simp only [bind_assoc]
  refine triple_check stable_inPut (fun payload hp => ?_) fun e s _ _ h => hQ e s h
  have htmp : ∀ r, (durableProtocol serde offered first).Stable t (TmpWritten serde first t x₀ payload r) := by
    intro r
    cases r with
    | ok u => exact stable_tmpComplete
    | error e => exact stable_inPut
  have hreplace : ∀ r, (durableProtocol serde offered first).Stable t (FileReplaced serde first t x₀ y r) := by
    intro r
    cases r with
    | ok u => exact stable_inPut
    | error e => exact stable_inPut
  have hwrite := Triple.perform stable_inPut htmp (performs_durable_writeStateTmp hvalid)
  have hrename := Triple.perform stable_tmpComplete hreplace
    (performs_durable_renameStateTmp hvalid hvalid' hsucc (serde.fromStr_payload hp))
  refine triple_attempt hwrite htmp (fun _ => ?_) fun e s _ h => hQ _ s h
  exact triple_attempt hrename hreplace (fun _ => hf) fun e s _ h => hQ _ s h

theorem triple_durable_putStateLocked (hoffered : offered expected d) (hvalid : validateState x₀ = .ok ()) :
    (durableProtocol serde offered first).Triple machine.machine.noDrops t (InPut serde first t x₀ x₀ x₀)
      (putStateLocked serde x₀ expected d).run (Ended serde first t x₀ expected d) := by
  have back : ∀ e s, InPut serde first t x₀ x₀ x₀ s → Ended serde first t x₀ expected d (.error e) s :=
    fun e s h => ⟨x₀, hvalid, h, fun y hy => by cases hy⟩
  unfold putStateLocked
  split
  · exact triple_throw stable_inPut fun s _ h => back _ s h
  rename_i hrev
  rw [not_not] at hrev
  split
  · exact triple_throw stable_inPut fun s _ h => back _ s h
  refine triple_ask (o := .now) stable_inPut (fun _ => stable_inPut) (performs_durable_inPut (o := .now) trivial)
    fun n => ?_
  refine triple_check stable_inPut (fun _ hok => ?_) fun e s _ _ h => back e s h
  have hsucc : Succeeds offered x₀ (commitDraft x₀ d n) := ⟨d, n, hrev ▸ hoffered, rfl⟩
  refine triple_durable_writeStateFile hvalid hok hsucc ?_ fun e s h => back e s h
  refine triple_ask (o := .writeState (commitDraft x₀ d n)) stable_inPut (fun _ => stable_inPut)
    (performs_durable_writeState hok hsucc) fun _ => ?_
  refine triple_ask (o := .updateStatus _) stable_inPut (fun _ => stable_inPut)
    (performs_durable_inPut (o := .updateStatus _) trivial) fun _ => ?_
  refine triple_pure stable_inPut fun s _ h => ⟨_, hok, h, fun y hy => ?_⟩
  obtain rfl := Except.ok.inj hy
  exact ⟨rfl, hrev, n, rfl⟩

theorem triple_durable_putState (hoffered : offered expected d) :
    (durableProtocol serde offered first).Triple machine.machine.noDrops t (NotHolding t) (putState serde expected d)
      (PutEnds first expected d) := by
  have hstable : ∀ x, (durableProtocol serde offered first).Stable t
      fun s => validateState x = .ok () ∧ InPut serde first t x x x s :=
    fun x s s' h hr => ⟨h.1, stable_inPut s s' h.2 hr⟩
  refine (Triple.perform stable_notHolding_durable hstable performs_durable_lockState).bind fun x₀ => ?_
  rintro s ⟨hvalid, hs⟩
  refine ((triple_durable_putStateLocked hoffered hvalid).bind fun r => ?_) s hs
  refine (Triple.perform stable_ended (fun _ => stable_putEnds) performs_durable_unlockState).bind fun _ => ?_
  exact .pure stable_putEnds fun _ _ h => h

/-! ### The handlers of the API -/

variable {req : HttpRequest}

theorem stable_carries {res : HttpResponse} : (durableProtocol serde offered first).Stable t (Carries extract first req res x) := by
  intro s s' h hr
  refine ⟨h.path, h.ok, h.etag, versions_mono hr.log h.mem, fun hput => ?_⟩
  obtain ⟨x₀, hx₀, hrest⟩ := h.put hput
  exact ⟨x₀, versions_mono hr.log hx₀, hrest⟩

theorem stable_answersState {res : HttpResponse} :
    (durableProtocol serde offered first).Stable t (AnswersState extract first req res) :=
  fun s s' h hr x hx => stable_carries s s' (h x hx) hr

/-- No state in the body. -/
def HttpResponse.Plain (res : HttpResponse) : Prop := ∀ x, res.body ≠ .state x

theorem HttpResponse.Plain.answers {res : HttpResponse} (h : res.Plain) : AnswersState extract first req res s :=
  fun x hx => absurd hx (h x)

theorem plain_intoResponse (e : DaemonError) : e.intoResponse.Plain := fun _ h => by cases h

theorem triple_answer {res : HttpResponse} {A : Moment → Prop} (h : res.Plain) :
    (durableProtocol serde offered first).Triple machine.machine.noDrops t A (pure res) (AnswersState extract first req) :=
  fun _ _ _ _ _ => h.answers

theorem triple_respond {α : Type} {f : Fallible α} {ok : α → HttpResponse} {A : Moment → Prop}
    {B : Except DaemonError α → Moment → Prop}
    (hf : (durableProtocol serde offered first).Triple machine.machine.noDrops t A f.run B)
    (hok : ∀ a s, B (.ok a) s → AnswersState extract first req (ok a) s)
    (hB : ∀ a, (durableProtocol serde offered first).Stable t (B (.ok a))) :
    (durableProtocol serde offered first).Triple machine.machine.noDrops t A (respond f ok)
      (AnswersState extract first req) := by
  refine hf.bind fun r => ?_
  cases r with
  | ok a => exact .pure (hB a) fun s _ h => hok a s h
  | error e => exact triple_answer (plain_intoResponse e)

/-- Handlers that have nothing to do with the store. -/
theorem triple_respond_offStore {α : Type} {f : Fallible α} (hf : f.run.All Op.OffStore) {ok : α → HttpResponse}
    (hok : ∀ a, (ok a).Plain) : (durableProtocol serde offered first).Triple machine.machine.noDrops t (fun _ => True)
      (respond f ok) (AnswersState extract first req) :=
  triple_respond (triple_durable_offStore hf) (fun a _ _ => (hok a).answers) fun _ => stable_true

/-- How a handler ends that answers with a state. -/
def Responds (extract : JsonExtractor) (first : ControlPlaneState) (req : HttpRequest)
    (r : Except DaemonError (HeaderValue × ControlPlaneState)) (s : Moment) : Prop :=
  ∀ a, r = .ok a → Carries extract first req (stateResponse a) a.2 s

theorem stable_responds {r : Except DaemonError (HeaderValue × ControlPlaneState)} :
    (durableProtocol serde offered first).Stable t (Responds extract first req r) :=
  fun s s' h hr a ha => stable_carries s s' (h a ha) hr

theorem triple_respond_state {f : Fallible (HeaderValue × ControlPlaneState)} {A : Moment → Prop}
    (hf : (durableProtocol serde offered first).Triple machine.machine.noDrops t A f.run (Responds extract first req)) :
    (durableProtocol serde offered first).Triple machine.machine.noDrops t A (respond f stateResponse)
      (AnswersState extract first req) := by
  refine triple_respond hf (fun a s h x hx => ?_) fun _ => stable_responds
  obtain rfl : a.2 = x := Body.state.inj hx
  exact h a rfl

/-- The end of both handlers: the `ETag` of the state that is sent. -/
theorem triple_withEtag {A : Moment → Prop} (hA : (durableProtocol serde offered first).Stable t A)
    (h : ∀ etag s, etagForRevision x.revision = .ok etag → DurableInv serde offered first s → A s →
      Carries extract first req (stateResponse (etag, x)) x s) :
    (durableProtocol serde offered first).Triple machine.machine.noDrops t A
      (check (etagForRevision x.revision) >>= fun etag => pure (etag, x) : Fallible (HeaderValue × ControlPlaneState)).run
      (Responds extract first req) := by
  refine triple_check hA (fun etag hetag => triple_pure hA fun s hinv hs a ha => ?_) fun e s _ _ _ a ha => by cases ha
  obtain rfl := Except.ok.inj ha
  exact h etag s hetag hinv hs

theorem triple_getStateHandler (hpath : req.path = "/v1/state") (hget : req.method = .get) :
    (durableProtocol serde offered first).Triple machine.machine.noDrops t (fun _ => True) getStateHandler.run
      (Responds extract first req) := by
  have hmem : ∀ x, (durableProtocol serde offered first).Stable t fun s => x ∈ versions first s.log :=
    fun x s s' h hr => versions_mono hr.log h
  refine triple_lift (B := fun x s => x ∈ versions first s.log) (Triple.perform stable_true hmem ?_) fun x => ?_
  · refine performs_durable fun s r s' c _ hinv hexec hlog => ?_
    have hstill := still_of_offStore (o := .readState) trivial hinv.jobs hexec
    have hinv' := hinv.still hlog rfl hstill
    simp only [Op.exec] at hexec
    split at hexec
    · obtain ⟨rfl, -⟩ := Prod.mk.inj (Option.some.inj hexec)
      exact ⟨⟨.inl hstill.stateLock, fun _ => ⟨hstill.state, hstill.stateJson, hstill.stateTmp⟩⟩, hinv',
        hstill.state ▸ hinv'.mem⟩
    · cases hexec
  · refine triple_withEtag (hmem x) fun etag s hetag _ hx => ⟨hpath, rfl, ⟨etag, rfl, hetag⟩, hx, fun hput => ?_⟩
    rw [hget] at hput
    cases hput

theorem triple_putStateRoute (hpath : req.path = "/v1/state") (hput : req.method = .put)
    (hoffered : ∀ expected draft, Offers extract req expected draft → offered expected draft) :
    (durableProtocol serde offered first).Triple machine.machine.noDrops t (NotHolding t) (putStateRoute serde extract req)
      (AnswersState extract first req) := by
  unfold putStateRoute
  split
  · exact triple_answer fun _ h => by cases h
  rename_i draft hdraft
  refine triple_respond_state ?_
  refine triple_check stable_notHolding_durable (fun expected hexpected => ?_) fun e s _ _ _ a ha => by cases ha
  have hoffers : Offers extract req expected draft := ⟨hpath, hput, hexpected, hdraft⟩
  refine Triple.tryBind (triple_durable_putState (hoffered _ _ hoffers)) (fun x => ?_) (fun _ => stable_putEnds)
    fun e s _ _ a ha => by cases ha
  refine triple_withEtag stable_putEnds fun etag s hetag _ hx => ?_
  obtain ⟨hmem, x₀, hx₀, now, hrev, heq⟩ := hx x rfl
  exact ⟨hpath, rfl, ⟨etag, rfl, hetag⟩, hmem, fun _ => ⟨x₀, hx₀, draft, now, hrev ▸ hoffers, heq⟩⟩

theorem reconcileOnce_offStore : (reconcileOnce cfg).All Op.OffStore := by
  refine .bind (.perform (o := Op.lockApply) trivial) fun _ => ?_
  refine .bind ((reconcileLocked_ofCall cfg).mono fun _ => Op.OfCall.offStore) fun _ => ?_
  exact .bind (.perform (o := Op.unlockApply) trivial) fun _ => trivial

theorem triggerReconcile_offStore : (triggerReconcile cfg).run.All Op.OffStore :=
  all_bind (all_bind (all_ask (o := .now) trivial) fun _ => trivial) fun _ =>
    all_bind reconcileOnce_offStore fun _ => trivial

theorem getStateHandler_offStore : getStateHandler.run.All Op.OffStore :=
  all_bind (all_ask (o := .readState) trivial) fun _ => all_bind (all_check _) fun _ => trivial

theorem triple_any {α : Type} {p : Code α} (hp : p.All Op.OffStore) {A : Moment → Prop} :
    (durableProtocol serde offered first).Triple machine.machine.noDrops t A p fun _ _ => True :=
  (triple_durable_offStore hp).conseq (fun _ _ => trivial) fun _ _ _ _ => trivial

/-- A router answers as its handlers do; `HEAD` is answered without a body. -/
theorem triple_call {router : MethodRouter} {A : Moment → Prop}
    (hget : ∀ f, router.get = some f → req.method = .get → (durableProtocol serde offered first).Triple
      machine.machine.noDrops t A (f req) (AnswersState extract first req))
    (hhead : ∀ f, router.get = some f → (durableProtocol serde offered first).Triple machine.machine.noDrops t A (f req)
      fun _ _ => True)
    (hput : ∀ f, router.put = some f → req.method = .put → (durableProtocol serde offered first).Triple
      machine.machine.noDrops t A (f req) (AnswersState extract first req))
    (hpost : ∀ f, router.post = some f → (durableProtocol serde offered first).Triple
      machine.machine.noDrops t A (f req) (AnswersState extract first req)) :
    (durableProtocol serde offered first).Triple machine.machine.noDrops t A (router.call req)
      (AnswersState extract first req) := by
  have hnot : ∀ {A : Moment → Prop}, (durableProtocol serde offered first).Triple machine.machine.noDrops t A
      (pure ⟨405, none, .empty⟩) (AnswersState extract first req) := triple_answer fun _ h => by cases h
  have hempty : ∀ r : HttpResponse, (durableProtocol serde offered first).Triple machine.machine.noDrops t (fun _ => True)
      (pure r.withoutBody) (AnswersState extract first req) := fun r => triple_answer fun _ h => by cases h
  unfold MethodRouter.call
  cases hmethod : req.method with
  | get =>
    cases hf : router.get with
    | none => exact hnot
    | some f => exact hget f hf hmethod
  | head =>
    cases hf : router.get with
    | none => exact (hnot.post fun _ _ _ _ => trivial).bind hempty
    | some f => exact (hhead f hf).bind hempty
  | put =>
    cases hf : router.put with
    | none => exact hnot
    | some f => exact hput f hf hmethod
  | post =>
    cases hf : router.post with
    | none => exact hnot
    | some f => exact hpost f hf
  | other token => exact hnot

theorem triple_handle (hoffered : ∀ expected draft, Offers extract req expected draft → offered expected draft) :
    (durableProtocol serde offered first).Triple machine.machine.noDrops t (NotHolding t) (handle cfg serde extract req)
      (AnswersState extract first req) := by
  unfold handle
  split
  · rename_i router hrouter
    rcases buildRouter_cases hrouter with ⟨hpath, rfl⟩ | rfl | rfl | rfl
    · refine triple_call (fun f hf hget => ?_) (fun f hf => ?_) (fun f hf hput => ?_) fun f hf => by cases hf
      all_goals cases hf
      · exact (triple_respond_state (triple_getStateHandler hpath hget)).conseq (fun _ _ => trivial) fun _ _ _ => id
      · exact triple_any (respond_all getStateHandler_offStore)
      · exact triple_putStateRoute hpath hput hoffered
    · have hplain : ∀ st, HttpResponse.Plain ⟨200, none, .status st⟩ := fun st x h => by cases h
      have hstatus : getStatus.All Op.OffStore := .perform (o := Op.readStatus) trivial
      refine triple_call (fun f hf _ => ?_) (fun f hf => ?_) (fun f hf => by cases hf) fun f hf => by cases hf
      all_goals cases hf
      · exact (triple_any hstatus).bind fun st => triple_answer (hplain st)
      · refine triple_any (hstatus.bind fun st => ?_)
        exact trivial
    · refine triple_call (fun f hf => by cases hf) (fun f hf => by cases hf) (fun f hf => by cases hf) fun f hf => ?_
      cases hf
      exact (triple_respond_offStore triggerReconcile_offStore fun id x h => by cases h).conseq (fun _ _ => trivial)
        fun _ _ _ => id
    · refine triple_call (fun f hf _ => ?_) (fun f hf => ?_) (fun f hf => by cases hf) fun f hf => by cases hf
      all_goals cases hf
      · exact triple_answer fun x h => by cases h
      · refine triple_any ?_
        exact trivial
  · exact triple_answer fun _ h => by cases h

/-- What a task has answered, if it is a request. -/
def TaskAnswers (extract : JsonExtractor) (first : ControlPlaneState) (tasks : List Task) (t : Nat)
    (r : Option HttpResponse) (s : Moment) : Prop :=
  ∀ req res, tasks[t]? = some (.request req) → r = some res → AnswersState extract first req res s

theorem durable_ready {w : World} {tasks : List Task} (hlock : w.stateLock = none) (hjobs : w.jobs = [])
    (hfile : Holds serde w w.state) (hvalid : validateState w.state = .ok ())
    (hoffered : ∀ expected draft, Offered extract tasks expected draft → offered expected draft) :
    Ready (durableProtocol serde offered w.state) machine.machine.noDrops (TaskAnswers extract w.state tasks)
      (serve cfg serde extract w tasks) := by
  have hinv : DurableInv serde offered w.state ⟨w, []⟩ :=
    ⟨hjobs, List.isChain_singleton _, rfl, w.state, hfile, hvalid, .refl, fun _ => rfl⟩
  refine ⟨hinv, fun t q hq => ?_⟩
  obtain ⟨task, htask, rfl⟩ := Option.map_eq_some_iff.1 hq
  have hnot : w.stateLock ≠ some t := by rw [hlock]; exact (Option.some_ne_none t).symm
  -- a task that answers nobody
  have silent : ∀ {α : Type} {p : Code α}, p.All Op.OffStore → (durableProtocol serde offered w.state).wp
      machine.machine.noDrops t (p >>= fun _ => pure none) (TaskAnswers extract w.state tasks t) ⟨w, []⟩ :=
    fun hp => ((triple_durable_offStore hp).bind fun _ => .pure stable_true fun s _ _ req res _ hres => by cases hres) _
      trivial
  cases task with
  | request req =>
    have hmem : Task.request req ∈ tasks := List.mem_of_getElem? htask
    have hhandle : (durableProtocol serde offered w.state).Triple machine.machine.noDrops t (NotHolding t)
        (handle cfg serde extract req) (AnswersState extract w.state req) :=
      triple_handle fun expected draft h => hoffered expected draft ⟨req, hmem, h⟩
    refine (hhandle.bind fun res => .pure stable_answersState fun s _ h req' res' hreq' hres' => ?_) _ hnot
    obtain rfl : req = req' := by
      rw [htask] at hreq'
      exact Task.request.inj (Option.some.inj hreq')
    obtain rfl := Option.some.inj hres'
    exact h
  | loop => exact silent reconcileOnce_offStore
  | externalEdit content => exact silent (.perform (o := Op.externalEdit ..) trivial)

end Threads

end NginxAdmin.Daemon
