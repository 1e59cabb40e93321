import NginxAdmin.Daemon.StorePut

/-!
# Revisions over whole runs

The results about the revisions in the runs in which no request is dropped: the successful puts are
linearizable, failed ones change nothing, and `observed ≤ desired ≤ stored` at every moment.
-/

namespace NginxAdmin.Daemon

open Protocol

theorem exec_jobs {t : Nat} {o : Op} {c : Choice} {w w' : World} {r : o.Res}
    (h : o.exec t c w = some (r, w')) (hw : w.jobs = []) : w'.jobs = [] ∧ o ≠ .runJob := by
  by_cases ho : o.OnDirs
  · exact ⟨(quiet_of_onDirs ho h).1.jobs.trans hw, fun e => by rw [e] at ho; exact ho⟩
  cases o <;> first | exact absurd trivial ho | skip
  case runJob =>
    obtain ⟨w₁, hr, -⟩ := Option.map_eq_some_iff.1 h
    simp [World.runJob, hw] at hr
  case lockState | readState | lockApply | externalEdit =>
    simp only [Op.exec] at h
    split at h <;> cases h
    exact ⟨hw, fun he => by cases he⟩
  case readStateFile =>
    simp only [Op.exec] at h
    split at h <;> cases h <;> exact ⟨hw, fun he => by cases he⟩
  case createStateDir | writeStateTmp | renameStateTmp =>
    obtain ⟨d, rfl⟩ := io_memory (Option.some.inj h)
    exact ⟨hw, fun he => by cases he⟩
  all_goals cases h; exact ⟨hw, fun he => by cases he⟩

theorem step_jobs {t : Nat} {o : Op} {s s' : Moment} {r : o.Res} (hs : s.now.jobs = [])
    (h : machine.machine.step t o s r s') : s'.now.jobs = [] ∧ o ≠ .runJob := by
  obtain ⟨⟨c, -, hexec⟩, -⟩ := Exec.traced_step.1 h
  exact exec_jobs hexec hs

/-- While nothing has been dropped, a step is harmless unless it is a late `mark_in_sync`. -/
theorem harmless_of_jobs {fresh : Prop} {t : Nat} {o : Op} {s s' : Moment} {r : o.Res}
    (hs : s.now.jobs = []) (h : machine.machine.step t o s r s')
    (hfresh : ∀ rev hash, o = .updateStatus (.inSync rev hash) → fresh → rev = s.now.state.revision ∨ Publishing s) :
    s'.now.jobs = [] ∧ (storeMachine fresh).step t o s r s' := by
  obtain ⟨hjobs, hne⟩ := step_jobs hs h
  refine ⟨hjobs, h, ?_⟩
  unfold Harmless
  split
  · rw [hs]; exact fun _ => List.not_mem_nil
  · exact absurd rfl hne
  · exact hfresh _ _ rfl
  · exact trivial

theorem reach_storeMachine {p₀ p : Pool Op.Res Moment Response} (h : p₀.Reach machine.machine.noDrops p)
    (hjobs : p₀.shared.now.jobs = []) : p.shared.now.jobs = [] ∧ p₀.Reach (storeMachine False) p :=
  h.of_inv (I := fun s => s.now.jobs = []) hjobs
    (fun _ _ _ _ _ hs hstep => harmless_of_jobs hs hstep fun _ _ _ => False.elim)
    fun _ _ _ _ _ hc => hc.elim

section

variable (cfg : DaemonConfig) {serde : Serde} {reqs : List Request} {w : World}

theorem store_reach (hw : Booted serde w) (hroom : w.state.revision.toNat + reqs.countP Request.isPut < UInt64.size)
    {p : Pool Op.Res Moment Response} (hp : (start cfg serde w reqs).Reach machine.machine.noDrops p) :
    Ready (storeProtocol serde reqs w.state.revision.toNat False) (storeMachine False) Answered p :=
  (store_ready cfg False hw hroom).reach (reach_storeMachine hp hw.jobs).2

theorem StoreInv.commit_unique {r₀ : Nat} {fresh : Prop} {s : Moment} (h : StoreInv serde reqs r₀ fresh s)
    {t u : Nat} {x y d d' : ControlPlaneState} {expected : UInt64} (ht : (t, x) ∈ commits s.log)
    (hu : (u, y) ∈ commits s.log) (hreq : reqs[t]? = some (.putState expected d))
    (hreq' : reqs[u]? = some (.putState expected d')) : t = u := by
  obtain ⟨i, hi⟩ := List.mem_iff_getElem?.1 ht
  obtain ⟨j, hj⟩ := List.mem_iff_getElem?.1 hu
  obtain ⟨e, _, he, hei, -⟩ := h.order i _ hi
  obtain ⟨e', _, he', hej, -⟩ := h.order j _ hj
  have hexp : e = expected := by
    have := Option.some.inj (he.symm.trans hreq)
    cases this; rfl
  have hexp' : e' = expected := by
    have := Option.some.inj (he'.symm.trans hreq')
    cases this; rfl
  have hij : i = j := by rw [hexp] at hei; rw [hexp'] at hej; omega
  subst hij
  rw [hi] at hj
  cases hj; rfl

/-- Optimistic concurrency is linearizable. `commits` is the order: its `i`-th element (from `0`) is a put
that expected revision `r₀ + i` and committed `r₀ + i + 1`. -/
theorem puts_linearizable (hw : Booted serde w)
    (hroom : w.state.revision.toNat + reqs.countP Request.isPut < UInt64.size)
    {p : Pool Op.Res Moment Response} (hp : (start cfg serde w reqs).Reach machine.machine.noDrops p) :
    -- the successful puts in their order
    ((committers p.shared.log).Nodup ∧
      (∀ i c, (commits p.shared.log)[i]? = some c → ∃ expected draft,
        reqs[c.1]? = some (.putState expected draft) ∧ expected.toNat = w.state.revision.toNat + i ∧
          c.2.revision.toNat = w.state.revision.toNat + i + 1) ∧
      ∀ t x, p.threads t = some (.ret (.put (.ok x))) → (t, x) ∈ commits p.shared.log) ∧
    -- one success for each expected revision
    (∀ t u expected draft draft' x y, reqs[t]? = some (.putState expected draft) →
      reqs[u]? = some (.putState expected draft') → p.threads t = some (.ret (.put (.ok x))) →
      p.threads u = some (.ret (.put (.ok y))) → t = u) ∧
    -- whoever overwrites a state had seen it
    (∀ e ∈ p.shared.log, e.post.state = e.pre.state ∨ ∃ expected draft now,
      reqs[e.tid]? = some (.putState expected draft) ∧ e.pre.state.revision = expected ∧
        e.post.state = commitDraft e.pre.state draft now) ∧
    -- a put that failed has changed nothing
    (∀ t err, p.threads t = some (.ret (.put (.error err))) → ∀ e ∈ p.shared.log, e.tid = t → Neutral e) ∧
    -- memory and disk agree while no put is inside
    (p.shared.now.stateLock = none → Holds serde p.shared.now p.shared.now.state) := by
  have hready := store_reach cfg hw hroom hp
  have hinv := hready.1
  have hok : ∀ t x, p.threads t = some (.ret (.put (.ok x))) → (t, x) ∈ commits p.shared.log :=
    fun t x ht => (hready.ret ht x).2 rfl
  exact ⟨⟨hinv.once, hinv.order, hok⟩,
    fun t u _ _ _ x y hreq hreq' ht hu => hinv.commit_unique (hok t x ht) (hok u y hu) hreq hreq',
    hinv.seen, fun t err ht => (hready.ret ht).2, hinv.file⟩

end

/-- What thread `t` has answered to its `put_state`. -/
def putResult (p : Pool Op.Res Moment Response) (t : Nat) : Option (Except DaemonError ControlPlaneState) :=
  match p.threads t with
  | some (.ret (.put r)) => some r
  | _ => none

theorem putResult_eq_some {p : Pool Op.Res Moment Response} {t : Nat} {r : Except DaemonError ControlPlaneState} :
    putResult p t = some r ↔ p.threads t = some (.ret (.put r)) := by
  unfold putResult
  split
  · simp_all
  · rename_i h
    exact ⟨fun h' => (by cases h'), fun h' => absurd h' (h r)⟩

def sampleDraft : ControlPlaneState := { ControlPlaneState.initial 0 with updatedBy := "admin" }

/-- `sampleDraft` as it is committed. -/
def sampleState : ControlPlaneState := { sampleDraft with revision := 1 }

/-- The text that `serde_json` gives a state without servers at time `0`. -/
def sampleText (s : ControlPlaneState) : Bytes :=
  Text.utf8 ("\x7b\n  \"schemaVersion\": \"" ++ s.schemaVersion ++ "\",\n  \"revision\": " ++ toString s.revision ++
    ",\n  \"updatedAt\": \"1970-01-01T00:00:00Z\",\n  \"updatedBy\": \"" ++ s.updatedBy ++
    "\",\n  \"servers\": []\n\x7d")

/-- `serde_json`, as far as the sample needs it. -/
def sampleSerde : Serde where
  toVecPretty s := if s = .initial 0 ∨ s = sampleState then .ok (sampleText s) else .error "not in the sample"
  fromStr raw :=
    if raw = sampleText (.initial 0) then .ok (.initial 0)
    else if raw = sampleText sampleState then .ok sampleState
    else .error (.json "expected value at line 1 column 1")
  fromStr_toVecPretty := by
    intro s b h
    have hne : sampleText sampleState ≠ sampleText (.initial 0) := by decide +kernel
    split at h
    · rename_i hs
      obtain rfl := Except.ok.inj h
      rcases hs with rfl | rfl <;> simp [hne]
    · cases h

/-- A daemon that has just initialised its state. -/
def sampleWorld : World :=
  .boot (.initial 0) 0 ⟨some (sampleText (.initial 0)), none, fun _ => none, fun _ => none, fun h => h = .ofState⟩

theorem booted_sampleWorld : Booted sampleSerde sampleWorld where
  stateLock := rfl
  applyLock := rfl
  jobs := rfl
  file := ⟨sampleText (.initial 0), rfl, sampleSerde.fromStr_toVecPretty (s := .initial 0) (by simp [sampleSerde])⟩
  desired := rfl
  observed := rfl

/-- `n` operations of thread `t`, all of which succeed. -/
def turns (t n : Nat) : List (Turn Choice) := List.replicate n (.op t ⟨0, none, 0⟩)

/-- Both expect revision `0`: the first commits, the second is told of the conflict and has changed nothing. -/
theorem puts_linearizable_two : ∃ p, (start .defaults sampleSerde sampleWorld
      [.putState 0 sampleDraft, .putState 0 sampleDraft]).Reach machine.machine.noDrops p ∧
    p.threads 0 = some (.ret (.put (.ok sampleState))) ∧
    p.threads 1 = some (.ret (.put (.error (.conflict "revision mismatch: expected 0, actual 1")))) ∧
    (0, sampleState) ∈ commits p.shared.log ∧ ∀ e ∈ p.shared.log, e.tid = 1 → Neutral e := by
  have hrun : (machine.schedule (turns 0 7 ++ turns 1 2) (start .defaults sampleSerde sampleWorld
      [.putState 0 sampleDraft, .putState 0 sampleDraft])).map (fun p => (putResult p 0, putResult p 1)) =
      some (some (.ok sampleState), some (.error (.conflict "revision mismatch: expected 0, actual 1"))) := by
    decide +kernel
  obtain ⟨p, hp, hres⟩ := Option.map_eq_some_iff.1 hrun
  obtain ⟨h0, h1⟩ := Prod.mk.inj hres
  have hreach := Exec.reach_noDrops_of_schedule (by decide) hp
  have hlin := puts_linearizable .defaults booted_sampleWorld (by decide) hreach
  exact ⟨p, hreach, putResult_eq_some.1 h0, putResult_eq_some.1 h1, hlin.1.2.2 _ _ (putResult_eq_some.1 h0),
    hlin.2.2.2.1 _ _ (putResult_eq_some.1 h1)⟩

section

variable (cfg : DaemonConfig) {serde : Serde} {reqs : List Request} {w : World}

/-- The order of the revision cursor, and that it does not go back. -/
theorem revisions_ordered (hw : Booted serde w)
    (hroom : w.state.revision.toNat + reqs.countP Request.isPut < UInt64.size)
    {p : Pool Op.Res Moment Response} (hp : (start cfg serde w reqs).Reach machine.machine.noDrops p) :
    (p.shared.now.status.observedRevision ≤ p.shared.now.status.desiredRevision ∧
      p.shared.now.status.desiredRevision ≤ p.shared.now.state.revision) ∧
    ∀ p', p.Reach machine.machine.noDrops p' →
      p.shared.now.status.observedRevision ≤ p'.shared.now.status.observedRevision ∧
        p.shared.now.state.revision ≤ p'.shared.now.state.revision := by
  have hinv := (store_reach cfg hw hroom hp).1
  refine ⟨⟨hinv.observed_le, hinv.desired_le⟩, fun p' hp' => ?_⟩
  -- a thread number beyond the requests belongs to a bystander
  have hfar : (start cfg serde w reqs).threads reqs.length = none := by
    simp [start]
  obtain ⟨hjobs, hreach⟩ := reach_storeMachine hp hw.jobs
  obtain ⟨hnone, -⟩ := (store_ready cfg False hw hroom).rely hfar hreach
  obtain ⟨-, hrely⟩ := (store_reach cfg hw hroom hp).rely hnone (reach_storeMachine hp' hjobs).2
  exact ⟨hrely.observed_le, hrely.revision_le⟩

end

theorem revisions_ordered_sample : ∃ p, (start .defaults sampleSerde sampleWorld
      [.putState 0 sampleDraft, .reconcile, .reconcile]).Reach machine.machine.noDrops p ∧
    p.shared.now.state = sampleState ∧ p.shared.now.status.observedRevision ≤ p.shared.now.status.desiredRevision ∧
    p.shared.now.status.desiredRevision ≤ p.shared.now.state.revision := by
  have hrun : (machine.schedule (turns 1 2 ++ turns 0 7) (start .defaults sampleSerde sampleWorld
      [.putState 0 sampleDraft, .reconcile, .reconcile])).map (fun p => p.shared.now.state) = some sampleState := by
    decide +kernel
  obtain ⟨p, hp, hstate⟩ := Option.map_eq_some_iff.1 hrun
  have hreach := Exec.reach_noDrops_of_schedule (by decide) hp
  exact ⟨p, hreach, hstate, (revisions_ordered .defaults booted_sampleWorld (by decide) hreach).1⟩

end NginxAdmin.Daemon
