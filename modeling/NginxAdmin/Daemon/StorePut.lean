import NginxAdmin.Daemon.StoreRun
import Mathlib.Data.List.Perm.Subperm

/-!
# `put_state` among the other threads

`Inside` follows a `put_state` through its critical section: what memory and `state.json` hold, and
whether it has committed and published. `store_ready` is the result about whole runs: every thread of a
started daemon keeps the store's invariant.
-/

namespace NginxAdmin.Daemon

open Protocol

/-- Thread `t` is inside `put_state`: memory holds `x`, `state.json` holds `y`, and `t` has committed
`done` and published it. -/
structure Inside (serde : Serde) (t : Nat) (x y : ControlPlaneState) (done : Option ControlPlaneState)
    (published : Prop) (s : Moment) : Prop where
  lock : s.now.stateLock = some t
  state : s.now.state = x
  file : Holds serde s.now y
  commits : ∀ z, (t, z) ∈ commits s.log ↔ done = some z
  published : t ∈ publishers s.log ↔ published

/-- No step of thread `t` has changed the state, the status or `state.json`. -/
def Silent (t : Nat) (s : Moment) : Prop := ∀ e ∈ s.log, e.tid = t → Neutral e

/-- Thread `t` has done nothing yet. -/
def Idle (t : Nat) (s : Moment) : Prop := Outside t s ∧ ∀ e ∈ s.log, e.tid ≠ t

/-- Thread `t` has the state lock and has changed nothing. -/
def Held (serde : Serde) (t : Nat) (x : ControlPlaneState) (s : Moment) : Prop :=
  Inside serde t x x none False s ∧ Silent t s

/-- Thread `t` has written the temporary file. -/
def Written (serde : Serde) (t : Nat) (x : ControlPlaneState) (payload : Bytes) (s : Moment) : Prop :=
  Held serde t x s ∧ Calm s.now.jobs ∧ s.now.disk.stateTmp = some payload

/-- What a finished request has done: a successful `put_state` has committed what it returned, a failed
one has changed nothing. -/
def Answered (t : Nat) (r : Response) (s : Moment) : Prop :=
  match r with
  | .put (.ok x) => ∀ y, (t, y) ∈ commits s.log ↔ y = x
  | .put (.error _) => t ∉ committers s.log ∧ Silent t s
  | _ => True

section Put

variable {serde : Serde} {reqs : List Request} {r₀ : Nat} {fresh : Prop} {t : Nat} {s s' : Moment}

theorem commits_rely (h : StoreRely t s s') (z : ControlPlaneState) :
    (t, z) ∈ commits s'.log ↔ (t, z) ∈ commits s.log := by
  simp only [mem_commits]
  exact exists_congr fun r => exists_congr fun pre => exists_congr fun post => h.mine _ rfl

theorem publishers_rely (h : StoreRely t s s') : t ∈ publishers s'.log ↔ t ∈ publishers s.log := by
  simp only [mem_publishers]
  exact exists_congr fun rev => exists_congr fun r => exists_congr fun pre => exists_congr fun post => h.mine _ rfl

theorem Silent.rely (h : Silent t s) (hr : StoreRely t s s') : Silent t s' :=
  fun e he ht => h e ((hr.mine e ht).1 he) ht

theorem stable_inside {x y : ControlPlaneState} {done : Option ControlPlaneState} {published : Prop} :
    (storeProtocol serde reqs r₀ fresh).Stable t (Inside serde t x y done published) := by
  intro s s' h hr
  obtain ⟨hstate, hjson, -⟩ := hr.held h.lock
  obtain ⟨raw, hraw, hy⟩ := h.file
  exact ⟨hr.stateLock.2 h.lock, hstate.trans h.state, ⟨raw, hjson.trans hraw, hy⟩,
    fun z => (commits_rely hr z).trans (h.commits z), (publishers_rely hr).trans h.published⟩

theorem stable_held {x : ControlPlaneState} :
    (storeProtocol serde reqs r₀ fresh).Stable t (Held serde t x) :=
  fun s s' h hr => ⟨stable_inside s s' h.1 hr, h.2.rely hr⟩

theorem stable_written {x : ControlPlaneState} {payload : Bytes} :
    (storeProtocol serde reqs r₀ fresh).Stable t (Written serde t x payload) := by
  rintro s s' ⟨h, hcalm, htmp⟩ hr
  obtain ⟨-, -, hfiles⟩ := hr.held h.1.lock
  exact ⟨stable_held s s' h hr, (hfiles hcalm).1, (hfiles hcalm).2.trans htmp⟩

theorem stable_idle : (storeProtocol serde reqs r₀ fresh).Stable t (Idle t) :=
  fun _ _ h hr => ⟨mt hr.stateLock.1 h.1, fun e he ht => h.2 e ((hr.mine e ht).1 he) ht⟩

theorem stable_answered {r : Response} : (storeProtocol serde reqs r₀ fresh).Stable t (Answered t r) := by
  intro s s' h hr
  unfold Answered at h ⊢
  split at h
  · exact fun y => (commits_rely hr y).trans (h y)
  · refine ⟨fun hm => h.1 ?_, h.2.rely hr⟩
    obtain ⟨x, hx⟩ := mem_committers.1 hm
    exact mem_committers.2 ⟨x, (commits_rely hr x).1 hx⟩
  · exact trivial

theorem Silent.cons {e : Event Op.Res World} (h : Silent t s) (hlog : s'.log = e :: s.log) (he : Neutral e) :
    Silent t s' := by
  intro e' he' ht
  rw [hlog, List.mem_cons] at he'
  rcases he' with rfl | he'
  · exact he
  · exact h e' he' ht

theorem Inside.not_committed {x y : ControlPlaneState} {published : Prop}
    (h : Inside serde t x y none published s) : t ∉ committers s.log := by
  intro hm
  obtain ⟨z, hz⟩ := mem_committers.1 hm
  simpa using (h.commits z).1 hz

theorem Inside.step {x y z : ControlPlaneState} {done : Option ControlPlaneState} {published : Prop}
    {e : Event Op.Res World} (h : Inside serde t x y done published s) (hlog : s'.log = e :: s.log)
    (hc : commitOf e = none) (hp : publisherOf e = none) (hlock : s'.now.stateLock = s.now.stateLock)
    (hstate : s'.now.state = s.now.state) (hfile : Holds serde s'.now z) :
    Inside serde t x z done published s' :=
  ⟨hlock.trans h.lock, hstate.trans h.state, hfile, by rw [commits_eq hlog hc]; exact h.commits,
    by rw [publishers_eq hlog hp]; exact h.published⟩

/-- A step inside the critical section that changes nothing of the store but the temporary file. -/
theorem Held.step {x : ControlPlaneState} {o : Op} {r : o.Res} {d : Disk}
    (h : Held serde t x s) (hlog : s'.log = .did t o r s.now s'.now :: s.log) (hnow : s'.now = { s.now with disk := d })
    (hjson : d.stateJson = s.now.disk.stateJson) (hc : commitOf (.did t o r s.now s'.now) = none)
    (hp : publisherOf (.did t o r s.now s'.now) = none) : Held serde t x s' := by
  have hjson' : s'.now.disk.stateJson = s.now.disk.stateJson := by rw [hnow]; exact hjson
  obtain ⟨raw, hraw, hx⟩ := h.1.file
  exact ⟨h.1.step hlog hc hp (by rw [hnow]) (by rw [hnow]) ⟨raw, hjson'.trans hraw, hx⟩,
    h.2.cons hlog ⟨by rw [hnow]; rfl, by rw [hnow]; rfl, hjson'⟩⟩

theorem Held.drop {x : ControlPlaneState} (h : Held serde t x s) :
    s.now.stateLock = some t → Holds serde s.now s.now.state ∧ t ∉ committers s.log :=
  fun _ => ⟨by rw [h.1.state]; exact h.1.file, h.1.not_committed⟩

theorem performs_lockState :
    (storeProtocol serde reqs r₀ fresh).Performs (storeMachine fresh) t (Idle t) .lockState
      fun x => Held serde t x := by
  refine performs (fun s r s' c hs hinv hexec hlog _ => ?_) fun s w' hs _ _ _ =>
    ⟨trivial, fun hl => absurd hl hs.1⟩
  simp only [Op.exec] at hexec
  split at hexec
  · rename_i hl
    obtain ⟨rfl, hnow⟩ := Prod.mk.inj (Option.some.inj hexec)
    obtain ⟨raw, hraw, hx⟩ := hinv.file hl
    have hstate : s'.now.state = s.now.state := by rw [← hnow]
    have hstatus : s'.now.status = s.now.status := by rw [← hnow]
    have hlock : s'.now.stateLock = some t := by rw [← hnow]
    have hfile : Holds serde s'.now s.now.state := ⟨raw, by rw [← hnow]; exact hraw, hx⟩
    refine ⟨trivial, ?_, ⟨hlock, hstate, hfile, ?_, ?_⟩, ?_⟩
    · refine hinv.of_same hlog rfl hstate hstate hstatus (fun h => ?_) ?_
      · rw [hlock] at h; cases h
      · exact publishing_of_same hlog rfl rfl fun h => absurd hl h
    · intro z
      rw [commits_eq hlog rfl, mem_commits]
      refine iff_of_false ?_ (fun h => by cases h)
      rintro ⟨_, _, _, he⟩
      exact hs.2 _ he rfl
    · rw [publishers_eq hlog rfl, mem_publishers]
      refine iff_of_false ?_ id
      rintro ⟨_, _, _, _, he⟩
      exact hs.2 _ he rfl
    · refine Silent.cons (s := s) (fun e he ht => absurd ht (hs.2 e he)) hlog ?_
      rw [← hnow]; exact ⟨rfl, rfl, rfl⟩
  · cases hexec

theorem performs_now {x : ControlPlaneState} :
    (storeProtocol serde reqs r₀ fresh).Performs (storeMachine fresh) t (Held serde t x) .now
      fun _ => Held serde t x := by
  refine performs (fun s r s' c hs hinv hexec hlog _ => ?_) fun s w' _ _ hcancel _ => by cases hcancel
  obtain ⟨-, hnow⟩ := Prod.mk.inj (Option.some.inj hexec)
  have hsame : Unmoved s.now s'.now := by rw [hnow]; exact .refl _
  exact ⟨trivial, hinv.quiet hlog hsame rfl rfl, hs.step hlog hnow.symm rfl rfl rfl⟩

/-- After the write of the temporary file. -/
def AfterWrite (serde : Serde) (t : Nat) (x : ControlPlaneState) (payload : Bytes) :
    Except String Unit → Moment → Prop
  | .ok _ => Written serde t x payload
  | .error _ => Held serde t x

theorem performs_writeStateTmp {x : ControlPlaneState} {payload : Bytes} :
    (storeProtocol serde reqs r₀ fresh).Performs (storeMachine fresh) t (Held serde t x) (.writeStateTmp payload)
      (AfterWrite serde t x payload) := by
  refine performs (fun s r s' c hs hinv hexec hlog hcalm => ⟨hs.1.lock, ?_⟩) fun s w' hs _ _ _ =>
    ⟨hs.1.lock, hs.drop⟩
  have hio := Option.some.inj hexec
  unfold World.io at hio
  split at hio
  all_goals
    obtain ⟨rfl, hnow⟩ := Prod.mk.inj hio
    have hheld : Held serde t x s' := hs.step hlog hnow.symm rfl rfl rfl
    have hsame : Unmoved s.now s'.now := by rw [← hnow]; exact ⟨rfl, rfl, rfl, rfl⟩
    refine ⟨hinv.quiet hlog hsame rfl rfl, ?_⟩
  · exact hheld
  · exact ⟨hheld, by rw [← hnow]; exact hcalm, by rw [← hnow]⟩

/-- After the rename of the temporary file, which holds `y`. -/
def AfterRename (serde : Serde) (t : Nat) (x y : ControlPlaneState) : Except String Unit → Moment → Prop
  | .ok _ => Inside serde t x y none False
  | .error _ => Held serde t x

theorem performs_renameStateTmp {x y : ControlPlaneState} {payload : Bytes} (hy : serde.fromStr payload = .ok y) :
    (storeProtocol serde reqs r₀ fresh).Performs (storeMachine fresh) t (Written serde t x payload) .renameStateTmp
      (AfterRename serde t x y) := by
  refine performs (fun s r s' c hs hinv hexec hlog _ => ⟨hs.1.1.lock, ?_⟩) fun s w' hs _ _ _ =>
    ⟨hs.1.1.lock, hs.1.drop⟩
  obtain ⟨hheld, -, htmp⟩ := hs
  have hio := Option.some.inj hexec
  unfold World.io at hio
  split at hio
  · obtain ⟨rfl, hnow⟩ := Prod.mk.inj hio
    have hsame : Unmoved s.now s'.now := by rw [← hnow]; exact ⟨rfl, rfl, rfl, rfl⟩
    exact ⟨hinv.quiet hlog hsame rfl rfl, hheld.step hlog hnow.symm rfl rfl rfl⟩
  · simp only [Disk.renameTmp, htmp] at hio
    obtain ⟨rfl, hnow⟩ := Prod.mk.inj hio
    have hstate : s'.now.state = s.now.state := by rw [← hnow]
    have hstatus : s'.now.status = s.now.status := by rw [← hnow]
    have hlock : s'.now.stateLock = s.now.stateLock := by rw [← hnow]
    have hfile : Holds serde s'.now y := ⟨payload, by rw [← hnow], hy⟩
    refine ⟨?_, hheld.1.step hlog rfl rfl hlock hstate hfile⟩
    refine hinv.of_same hlog rfl hstate hstate hstatus (fun hl => ?_) ?_
    · rw [hlock, hheld.1.lock] at hl; cases hl
    · exact publishing_of_same hlog rfl rfl fun _ => hlock

theorem mem_committers_put (hinv : StoreInv serde reqs r₀ fresh s) {u : Nat} (hu : u ∈ committers s.log) :
    ∃ expected draft, reqs[u]? = some (.putState expected draft) := by
  obtain ⟨x, hx⟩ := mem_committers.1 hu
  obtain ⟨i, hi⟩ := List.mem_iff_getElem?.1 hx
  obtain ⟨expected, draft, hreq, -⟩ := hinv.order i _ hi
  exact ⟨expected, draft, hreq⟩

/-- A put that has not committed yet leaves room for its own commit. -/
theorem commits_lt (hinv : StoreInv serde reqs r₀ fresh s) {expected : UInt64} {draft : ControlPlaneState}
    (hreq : reqs[t]? = some (.putState expected draft)) (hnew : t ∉ committers s.log) :
    (commits s.log).length < reqs.countP Request.isPut := by
  have hsub : t :: committers s.log ⊆ reqs.findIdxs Request.isPut := by
    intro u hu
    have hput : ∃ expected draft, reqs[u]? = some (.putState expected draft) := by
      rcases List.mem_cons.1 hu with rfl | hu
      · exact ⟨_, _, hreq⟩
      · exact mem_committers_put hinv hu
    obtain ⟨e, d, hu⟩ := hput
    obtain ⟨hlt, hget⟩ := List.getElem?_eq_some_iff.1 hu
    exact List.mem_findIdxs_iff_exists_getElem_pos.2 ⟨hlt, by rw [hget]; rfl⟩
  have hle := (List.subperm_of_subset (List.nodup_cons.2 ⟨hnew, hinv.once⟩) hsub).length_le
  rw [List.length_findIdxs, List.length_cons, committers, List.length_map] at hle
  exact hle

theorem performs_writeState (hroom : r₀ + reqs.countP Request.isPut < UInt64.size) {expected : UInt64}
    {d x : ControlPlaneState} {now : DateTime} (hreq : reqs[t]? = some (.putState expected d))
    (hexp : x.revision = expected) :
    (storeProtocol serde reqs r₀ fresh).Performs (storeMachine fresh) t
      (Inside serde t x (commitDraft x d now) none False) (.writeState (commitDraft x d now))
      fun _ => Inside serde t (commitDraft x d now) (commitDraft x d now) (some (commitDraft x d now)) False := by
  refine performs (fun s r s' c hs hinv hexec hlog _ => ?_) fun s w' _ _ hcancel _ => by cases hcancel
  have hnow := (Prod.mk.inj (Option.some.inj hexec)).2.symm
  have hlt := commits_lt hinv hreq hs.not_committed
  have hrev : (commitDraft x d now).revision.toNat = s.now.state.revision.toNat + 1 := by
    have hr := hinv.revision
    rw [hs.state] at hr ⊢
    rw [UInt64.size] at hroom
    simp only [commitDraft, UInt64.toNat_add, UInt64.toNat_one]
    omega
  have hpub : t ∉ publishers s.log := fun h => hs.published.1 h
  have hinv' : StoreInv serde reqs r₀ fresh s' :=
    hinv.of_commit hlog hnow hreq (by rw [hs.state]; exact hexp) (by rw [hs.state]) hrev hs.lock
      hs.not_committed hpub
  refine ⟨⟨hs.lock, ?_⟩, hinv', by rw [hnow]; exact hs.lock, by rw [hnow], ?_, fun z => ?_, ?_⟩
  · rw [UInt64.le_iff_toNat_le]; omega
  · obtain ⟨raw, hraw, hy⟩ := hs.file
    exact ⟨raw, by rw [hnow]; exact hraw, hy⟩
  · rw [hlog, commits_cons, List.mem_append, hs.commits]
    simp [commitOf, eq_comm]
  · rw [publishers_eq hlog rfl]; exact hs.published

theorem performs_publish {x : ControlPlaneState} :
    (storeProtocol serde reqs r₀ fresh).Performs (storeMachine fresh) t (Inside serde t x x (some x) False)
      (.updateStatus (.pendingApply x.revision)) fun _ => Inside serde t x x (some x) True := by
  refine performs (fun s r s' c hs hinv hexec hlog _ => ⟨trivial, ?_⟩) fun s w' _ _ _ hok => hok.elim
  have hnow := (Prod.mk.inj (Option.some.inj hexec)).2.symm
  have hstored : x.revision = s.now.state.revision := by rw [hs.state]
  refine ⟨hinv.of_status hlog rfl (by rw [hnow]; rfl) hnow ?_ ?_ fun _ _ => ⟨hstored, fun h => by cases h⟩, ?_⟩
  · show s.now.status.observedRevision ≤ x.revision
    rw [hstored]; exact UInt64.le_trans hinv.observed_le hinv.desired_le
  · show x.revision ≤ _
    rw [hstored]; exact UInt64.le_refl _
  · obtain ⟨raw, hraw, hy⟩ := hs.file
    have hfile : Holds serde s'.now x := ⟨raw, by rw [hnow]; exact hraw, hy⟩
    have hpub : t ∈ publishers s'.log := by
      rw [hlog, publishers, List.filterMap_cons]
      exact List.mem_cons_self
    exact ⟨by rw [hnow]; exact hs.lock, by rw [hnow]; exact hs.state, hfile,
      by rw [commits_eq hlog rfl]; exact hs.commits, iff_of_true hpub trivial⟩

/-- At the end of the critical section. -/
def AfterPut (serde : Serde) (t : Nat) (x : ControlPlaneState) : Except DaemonError ControlPlaneState → Moment → Prop
  | .ok y => Inside serde t y y (some y) True
  | .error _ => Held serde t x

theorem stable_afterPut {x : ControlPlaneState} (r : Except DaemonError ControlPlaneState) :
    (storeProtocol serde reqs r₀ fresh).Stable t (AfterPut serde t x r) := by
  cases r with
  | ok y => exact stable_inside
  | error e => exact stable_held

theorem triple_writeStateFile {x y : ControlPlaneState} {f : Unit → Fallible ControlPlaneState}
    {Q : Except DaemonError ControlPlaneState → Moment → Prop}
    (hf : (storeProtocol serde reqs r₀ fresh).Triple (storeMachine fresh) t (Inside serde t x y none False) (f ()).run Q)
    (hQ : ∀ e s, Held serde t x s → Q (.error e) s) :
    (storeProtocol serde reqs r₀ fresh).Triple (storeMachine fresh) t (Held serde t x) (writeStateFile serde y >>= f).run
      Q := by
  unfold writeStateFile
  simp only [bind_assoc]
  refine triple_check stable_held (fun payload hp => ?_) fun e s _ _ h => hQ e s h
  have hy := serde.fromStr_payload hp
  have hwrite : ∀ r, (storeProtocol serde reqs r₀ fresh).Stable t (AfterWrite serde t x payload r) := by
    intro r; cases r with
    | ok u => exact stable_written
    | error e => exact stable_held
  have hrename : ∀ r, (storeProtocol serde reqs r₀ fresh).Stable t (AfterRename serde t x y r) := by
    intro r; cases r with
    | ok u => exact stable_inside
    | error e => exact stable_held
  refine triple_attempt (Triple.perform stable_held hwrite performs_writeStateTmp) hwrite (fun _ => ?_)
    fun e s _ h => hQ _ s h
  exact triple_attempt (Triple.perform stable_written hrename (performs_renameStateTmp hy)) hrename (fun _ => hf)
    fun e s _ h => hQ _ s h

theorem triple_putStateLocked (hroom : r₀ + reqs.countP Request.isPut < UInt64.size) {expected : UInt64}
    {d x : ControlPlaneState} (hreq : reqs[t]? = some (.putState expected d)) :
    (storeProtocol serde reqs r₀ fresh).Triple (storeMachine fresh) t (Held serde t x)
      (putStateLocked serde x expected d).run (AfterPut serde t x) := by
  unfold putStateLocked
  split
  · exact triple_throw stable_held fun s _ h => h
  rename_i hexp
  split
  · exact triple_throw stable_held fun s _ h => h
  refine triple_ask stable_held (fun _ => stable_held) performs_now fun now => ?_
  refine triple_check stable_held (fun _ _ => ?_) fun e s _ _ h => h
  refine triple_writeStateFile ?_ fun e s h => h
  refine triple_ask stable_inside (fun _ => stable_inside)
    (performs_writeState hroom hreq (by simpa using hexp)) fun _ => ?_
  exact triple_ask stable_inside (fun _ => stable_inside) performs_publish fun _ =>
    triple_pure stable_inside fun s _ h => h

theorem performs_unlockState {x : ControlPlaneState} (r : Except DaemonError ControlPlaneState) :
    (storeProtocol serde reqs r₀ fresh).Performs (storeMachine fresh) t (AfterPut serde t x r) .unlockState
      fun _ => Answered t (.put r) := by
  refine performs (fun s u s' c hs hinv hexec hlog _ => ?_) fun s w' _ _ hcancel _ => by cases hcancel
  have hnow := (Prod.mk.inj (Option.some.inj hexec)).2.symm
  have close : ∀ {y done published}, Inside serde t y y done published s → (done = none ∨ published) →
      s.now.stateLock = some t ∧ StoreInv serde reqs r₀ fresh s' := by
    intro y done published h hdone
    refine ⟨h.lock, hinv.of_same hlog rfl (by rw [hnow]; rfl) (by rw [hnow]) (by rw [hnow]) (fun _ => ?_) ?_⟩
    · obtain ⟨raw, hraw, hy⟩ := h.file
      exact ⟨raw, by rw [hnow]; exact hraw, by rw [hnow, hy, h.state]⟩
    · -- the put that leaves is not publishing: it has published, or it has not committed
      rintro ⟨v, hv, hm, hn⟩
      rw [h.lock, Option.some.injEq] at hv
      subst hv
      rcases hdone with rfl | hp
      · exact absurd hm h.not_committed
      · exact absurd (h.published.2 hp) hn
  cases r with
  | ok y =>
    obtain ⟨hlock, hinv'⟩ := close hs (.inr trivial)
    refine ⟨hlock, hinv', fun z => ?_⟩
    rw [commits_eq hlog rfl, hs.commits, Option.some.injEq, eq_comm]
  | error e =>
    obtain ⟨hlock, hinv'⟩ := close hs.1 (.inl rfl)
    refine ⟨hlock, hinv', ?_, hs.2.cons hlog ?_⟩
    · rw [committers, commits_eq hlog rfl]; exact hs.1.not_committed
    · rw [hnow]; exact ⟨rfl, rfl, rfl⟩

theorem triple_putState (hroom : r₀ + reqs.countP Request.isPut < UInt64.size) {expected : UInt64}
    {d : ControlPlaneState} (hreq : reqs[t]? = some (.putState expected d)) :
    (storeProtocol serde reqs r₀ fresh).Triple (storeMachine fresh) t (Idle t) (putState serde expected d)
      fun r => Answered t (.put r) := by
  refine (Triple.perform stable_idle (fun _ => stable_held) performs_lockState).bind fun x => ?_
  refine (triple_putStateLocked hroom hreq).bind fun r => ?_
  exact (Triple.perform (stable_afterPut r) (fun _ => stable_answered) (performs_unlockState r)).bind fun _ =>
    .pure stable_answered fun s _ h => h

end Put

section Runs

variable (cfg : DaemonConfig) {serde : Serde} {reqs : List Request} {r₀ : Nat} {fresh : Prop}

theorem triple_request (hroom : r₀ + reqs.countP Request.isPut < UInt64.size) {t : Nat} {req : Request}
    (hreq : reqs[t]? = some req) :
    (storeProtocol serde reqs r₀ fresh).Triple (storeMachine fresh) t (Idle t) (req.code cfg serde)
      (Answered t) := by
  have htrue : (storeProtocol serde reqs r₀ fresh).Stable t fun _ => True := fun _ _ _ _ => trivial
  have hidle : ∀ s : Moment, Idle t s → Outside t s := fun _ h => h.1
  cases req with
  | getState =>
    refine Triple.conseq (A := Outside t) ?_ hidle fun _ _ _ h => h
    refine (Triple.perform (Q := fun _ _ => True) stable_outside (fun _ => htrue) ?_).bind fun x =>
      .pure htrue fun _ _ _ => trivial
    exact performs_readState (fun _ h => h) fun _ _ _ _ _ => trivial
  | getStatus =>
    refine Triple.conseq (A := Outside t) ?_ hidle fun _ _ _ h => h
    refine (Triple.perform stable_outside (fun _ => stable_outside) ?_).bind fun x =>
      .pure stable_outside fun _ _ _ => trivial
    exact performs_readStatus (fun _ h => h) fun s s' h hnow => by unfold Outside; rw [hnow]; exact h
  | putState expected draft =>
    exact (triple_putState hroom hreq).bind fun r => .pure stable_answered fun _ _ h => h
  | reconcile =>
    refine Triple.conseq (A := Outside t) ?_ hidle fun _ _ _ h => h
    exact triple_reconcileOnce.bind fun _ => .pure htrue fun _ _ _ => trivial
  | externalEdit content =>
    refine Triple.conseq (A := fun _ => True) ?_ (fun _ _ => trivial) fun _ _ _ h => h
    exact (Triple.perform htrue (fun _ => htrue) performs_externalEdit).bind fun _ => .pure htrue fun _ _ _ => trivial
  | finishJob =>
    refine Triple.conseq (A := fun _ => True) ?_ (fun _ _ => trivial) fun _ _ _ h => h
    exact (Triple.perform htrue (fun _ => htrue) performs_runJob).bind fun _ => .pure htrue fun _ _ _ => trivial

/-- A daemon that has loaded its state from `state.json`. -/
structure Booted (serde : Serde) (w : World) : Prop where
  stateLock : w.stateLock = none
  applyLock : w.applyLock = none
  jobs : w.jobs = []
  file : Holds serde w w.state
  desired : w.status.desiredRevision = w.state.revision
  observed : w.status.observedRevision = w.state.revision

theorem Booted.storeInv {w : World} (h : Booted serde w) :
    StoreInv serde reqs w.state.revision.toNat fresh ⟨w, []⟩ where
  revision := rfl
  order i c hi := by simp [commits] at hi
  once := List.nodup_nil
  seen e he := by cases he
  observed_le := by
    show w.status.observedRevision ≤ w.status.desiredRevision
    rw [h.observed, h.desired]; exact UInt64.le_refl _
  desired_le := by
    show w.status.desiredRevision ≤ w.state.revision
    rw [h.desired]; exact UInt64.le_refl _
  file _ := h.file
  synced _ _ := ⟨h.desired, fun _ => h.observed⟩

variable (fresh) in
theorem store_ready {w : World} (hw : Booted serde w)
    (hroom : w.state.revision.toNat + reqs.countP Request.isPut < UInt64.size) :
    Ready (storeProtocol serde reqs w.state.revision.toNat fresh) (storeMachine fresh) Answered
      (start cfg serde w reqs) := by
  refine ⟨hw.storeInv, fun t q hq => ?_⟩
  obtain ⟨req, hreq, rfl⟩ := Option.map_eq_some_iff.1 hq
  refine triple_request cfg hroom hreq _ ⟨?_, fun e he => by cases he⟩
  show w.stateLock ≠ some t
  rw [hw.stateLock]; exact fun h => by cases h

end Runs

end NginxAdmin.Daemon
