import NginxAdmin.Daemon.Convergence
import NginxAdmin.Daemon.Lives
import NginxAdmin.Lib.Progress

/-!
# Every request is answered

`put_state` awaits file operations while it holds the state lock, and `reconcile_once` awaits the state lock while it
holds `apply_lock`. `requests_answered`: no run of a process is stuck before all its requests are answered, whatever
fails and whoever is dropped on the way, and only a request that is still being handled holds a lock.
-/

namespace NginxAdmin.Daemon

/-- The locks that a thread holds. -/
structure Guards where
  state : Bool
  apply : Bool
deriving DecidableEq

namespace Guards

def none : Guards := ⟨false, false⟩

/-- What a thread holds after an operation. What is not allowed could wait for the thread itself, or for a thread that
waits for it. -/
def after (g : Guards) : Op → Option Guards
  | .lockState => if g = none then some ⟨true, false⟩ else Option.none
  | .lockApply => if g = none then some ⟨false, true⟩ else Option.none
  | .unlockState => if g = ⟨true, false⟩ then some none else Option.none
  | .unlockApply => if g = ⟨false, true⟩ then some none else Option.none
  | .readState => if g.state then Option.none else some g
  | .externalEdit .. => if g = none then some g else Option.none
  | .runJob => Option.none
  | _ => some g

/-- The state lock is the inner one. -/
def rank (g : Guards) : Nat := if g.state then 2 else if g.apply then 1 else 0

end Guards

def World.guards (w : World) (t : Nat) : Guards := ⟨w.stateLock = some t, w.applyLock = some t⟩

theorem guards_of_locks {w w' : World} (hstate : w'.stateLock = w.stateLock) (happly : w'.applyLock = w.applyLock)
    (t : Nat) : w'.guards t = w.guards t := by
  simp only [World.guards, hstate, happly]

theorem stateLock_of_rank {w : World} {n : Nat} (hn : n < 2) (h : ∀ u, (w.guards u).rank ≤ n) : w.stateLock = none := by
  cases hl : w.stateLock with
  | none => rfl
  | some u =>
    have hu := h u
    simp only [World.guards, Guards.rank, hl, decide_true, if_true] at hu
    omega

theorem applyLock_of_rank {w : World} (h : ∀ u, (w.guards u).rank ≤ 0) : w.applyLock = none := by
  cases hl : w.applyLock with
  | none => rfl
  | some u =>
    have hu := h u
    simp only [World.guards, Guards.rank, hl, decide_true, if_true] at hu
    split at hu <;> omega

/-- The operations that have nothing to do with the locks. -/
def Op.OffLocks : Op → Prop
  | lockState | unlockState | lockApply | unlockApply | readState | externalEdit .. | runJob => False
  | _ => True

theorem Op.OnDirs.offLocks {o : Op} (h : o.OnDirs) : o.OffLocks := by
  cases o <;> first | exact trivial | exact h.elim

theorem Op.OffLocks.after {o : Op} (ho : o.OffLocks) (g : Guards) : g.after o = some g := by
  cases o <;> first | rfl | exact ho.elim

theorem locks_of_offLocks {o : Op} {t : Nat} {c : Choice} {w w' : World} {r : o.Res} (ho : o.OffLocks)
    (h : o.exec t c w = some (r, w')) : w'.stateLock = w.stateLock ∧ w'.applyLock = w.applyLock := by
  by_cases hd : o.OnDirs
  · exact ⟨(quiet_of_onDirs hd h).1.stateLock, (quiet_of_onDirs hd h).2⟩
  cases o <;> first | exact absurd trivial hd | exact ho.elim | skip
  case readStateFile =>
    simp only [Op.exec] at h
    split at h <;> cases h <;> exact ⟨rfl, rfl⟩
  case createStateDir | writeStateTmp | renameStateTmp =>
    obtain ⟨d, rfl⟩ := io_memory (Option.some.inj h)
    exact ⟨rfl, rfl⟩
  all_goals cases h; exact ⟨rfl, rfl⟩

/-- Without faults, only the operations on the locks wait. -/
theorem offLocks_enabled {o : Op} (ho : o.OffLocks) (t : Nat) (s : Moment) :
    ∃ r s', (machine.machineOn Faultless).step t o s r s' := by
  by_cases hd : o.OnDirs
  · obtain ⟨r, s', hstep, -⟩ := onDirs_enabled hd t s
    exact ⟨r, s', hstep⟩
  obtain ⟨⟨r, w'⟩, hexec⟩ : ∃ a, o.exec t ⟨0, none, 0⟩ s.now = some a := by
    cases o <;> first | exact absurd trivial hd | exact ho.elim | exact ⟨_, rfl⟩ | skip
    case readStateFile =>
      cases hfile : s.now.disk.stateJson with
      | none => exact ⟨_, by simp only [Op.exec, hfile]; rfl⟩
      | some raw => exact ⟨_, by simp only [Op.exec, hfile]; rfl⟩
  exact ⟨r, ⟨w', .did t o r s.now w' :: s.log⟩, Exec.traced_step.2 ⟨⟨⟨0, none, 0⟩, rfl, hexec⟩, rfl⟩⟩

/-- What a thread holds changes as `after` says, and what the others hold does not. -/
theorem guards_of_exec {o : Op} {t : Nat} {c : Choice} {w w' : World} {r : o.Res} {g : Guards}
    (hafter : (w.guards t).after o = some g) (h : o.exec t c w = some (r, w')) :
    w'.guards t = g ∧ ∀ u, u ≠ t → w'.guards u = w.guards u := by
  by_cases ho : o.OffLocks
  · obtain ⟨hstate, happly⟩ := locks_of_offLocks ho h
    rw [ho.after, Option.some.injEq] at hafter
    exact ⟨(guards_of_locks hstate happly t).trans hafter, fun u _ => guards_of_locks hstate happly u⟩
  cases o <;> first | exact absurd trivial ho | skip
  case lockState | lockApply =>
    simp only [Op.exec] at h
    split at h
    · rename_i hlock
      cases h
      simp only [Guards.after, Option.ite_none_right_eq_some, Option.some.injEq] at hafter
      obtain ⟨hstate, happly⟩ := Guards.mk.inj hafter.1
      obtain rfl := hafter.2
      refine ⟨by simp [World.guards, hstate, happly], fun u hu => ?_⟩
      simp [World.guards, hlock, Ne.symm hu]
    · cases h
  case unlockState | unlockApply =>
    cases h
    simp only [Guards.after, Option.ite_none_right_eq_some, Option.some.injEq] at hafter
    obtain ⟨hstate, happly⟩ := Guards.mk.inj hafter.1
    obtain rfl := hafter.2
    simp only [decide_eq_true_eq] at hstate happly
    refine ⟨by simp [World.guards, Guards.none, hstate, happly], fun u hu => ?_⟩
    simp [World.guards, hstate, happly, Ne.symm hu]
  case readState =>
    simp only [Op.exec] at h
    split at h
    · cases h
      simp only [Guards.after] at hafter
      split at hafter
      · cases hafter
      · exact ⟨Option.some.inj hafter, fun _ _ => rfl⟩
    · cases h
  case externalEdit dir content =>
    simp only [Op.exec] at h
    split at h
    · cases h
      simp only [Guards.after] at hafter
      split at hafter
      · exact ⟨Option.some.inj hafter, fun _ _ => rfl⟩
      · cases hafter
    · cases h
  case runJob => cases hafter

theorem guards_release_self (w : World) (t : Nat) : (w.release t).guards t = .none := by
  simp only [World.guards, World.release, Guards.none, Guards.mk.injEq]
  constructor <;> split <;> simp_all

theorem guards_release_ne (w : World) {t u : Nat} (h : u ≠ t) : (w.release t).guards u = w.guards u := by
  simp only [World.guards, World.release, Guards.mk.injEq]
  constructor <;> split <;> simp_all [Ne.symm h]

theorem guards_of_cancel {o : Op} {t : Nat} {w w' : World} (h : o.cancel t w = some w') :
    w'.guards t = .none ∧ ∀ u, u ≠ t → w'.guards u = w.guards u := by
  have hlocks : w'.stateLock = (w.release t).stateLock ∧ w'.applyLock = (w.release t).applyLock := by
    cases o <;> cases h <;> exact ⟨rfl, rfl⟩
  exact ⟨(guards_of_locks hlocks.1 hlocks.2 t).trans (guards_release_self w t),
    fun u hu => (guards_of_locks hlocks.1 hlocks.2 u).trans (guards_release_ne w hu)⟩

/-- An allowed operation of a thread that holds at least as much as any other does not wait. -/
theorem guards_enabled {o : Op} {t : Nat} {s : Moment} {g : Guards} (hafter : (s.now.guards t).after o = some g)
    (hmost : ∀ u, (s.now.guards u).rank ≤ (s.now.guards t).rank) :
    ∃ r s', (machine.machineOn Faultless).step t o s r s' := by
  by_cases ho : o.OffLocks
  · exact offLocks_enabled ho t s
  -- whoever has no lock yet waits for nobody
  have hnone : s.now.guards t = .none → s.now.stateLock = none ∧ s.now.applyLock = none := fun h => by
    rw [h] at hmost
    exact ⟨stateLock_of_rank (by decide) hmost, applyLock_of_rank hmost⟩
  suffices h : ∃ r w', o.exec t ⟨0, none, 0⟩ s.now = some (r, w') by
    obtain ⟨r, w', hexec⟩ := h
    exact ⟨r, ⟨w', .did t o r s.now w' :: s.log⟩, Exec.traced_step.2 ⟨⟨⟨0, none, 0⟩, rfl, hexec⟩, rfl⟩⟩
  cases o <;> first | exact absurd trivial ho | exact ⟨_, _, rfl⟩ | skip
  case lockState =>
    simp only [Guards.after, Option.ite_none_right_eq_some] at hafter
    exact ⟨_, _, if_pos (hnone hafter.1).1⟩
  case lockApply | externalEdit =>
    simp only [Guards.after, Option.ite_none_right_eq_some] at hafter
    exact ⟨_, _, if_pos (hnone hafter.1).2⟩
  case readState =>
    simp only [Guards.after, Option.ite_none_left_eq_some, Bool.not_eq_true] at hafter
    have hrank : (s.now.guards t).rank ≤ 1 := by
      simp only [Guards.rank, hafter.1, Bool.false_eq_true, if_false]
      split <;> omega
    exact ⟨_, _, if_pos (stateLock_of_rank (n := 1) (by decide) fun u => (hmost u).trans hrank)⟩
  case runJob => cases hafter

/-- The locks of a process. -/
def lockDiscipline : Discipline machine.machine Guards where
  free := .none
  holds s t := s.now.guards t
  after := Guards.after
  step hstep hafter := by
    obtain ⟨⟨c, -, hexec⟩, -⟩ := Exec.traced_step.1 hstep
    exact guards_of_exec hafter hexec
  cancel hcancel := guards_of_cancel (Exec.traced_cancel.1 hcancel).1

theorem Guards.moves_of_offLocks {α : Type} {p : Code α} (hp : p.All Op.OffLocks) (g : Guards) :
    p.Moves Guards.after g g :=
  (hp.mono fun _ ho => ho.after g).moves

theorem Op.OfPut.offLocks {o : Op} (h : o.OfPut) : o.OffLocks := by
  cases o <;> first | exact trivial | exact h.elim

theorem putState_moves (serde : Serde) (expected : UInt64) (draft : ControlPlaneState) :
    (putState serde expected draft).Moves Guards.after .none .none := by
  refine .bind (.perform (o := Op.lockState) rfl) fun current => ?_
  refine .bind (Guards.moves_of_offLocks ((putStateLocked_ofPut serde current expected draft).mono fun _ => Op.OfPut.offLocks) _)
    fun _ => ?_
  exact .bind (.perform (o := Op.unlockState) rfl) fun _ => .pure _

/-- The state lock is only awaited for a read while `apply_lock` is held. -/
theorem reconcileOnce_moves (cfg : DaemonConfig) : (reconcileOnce cfg).Moves Guards.after .none .none := by
  refine .bind (.perform (o := Op.lockApply) rfl) fun _ => ?_
  refine .bind (Prog.All.moves (h := Guards.mk false true) ?_) fun _ => .bind (.perform (o := Op.unlockApply) rfl) fun _ => .pure _
  refine all_bind (all_ask (o := .readState) rfl) fun x => all_bind (all_ask (o := .readStatus) rfl) fun st => ?_
  refine all_bind (hashRuntime_onDirs.mono fun _ ho => ho.offLocks.after _) fun hash => ?_
  split
  · exact trivial
  · refine (applyState_reconciles x st hash).mono fun o ho => Op.OffLocks.after ?_ _
    cases o <;> first | exact trivial | exact ho.elim

theorem respond_moves {α : Type} {f : Fallible α} {ok : α → HttpResponse} (hf : f.run.Moves Guards.after .none .none) :
    (respond f ok).Moves Guards.after .none .none :=
  hf.bind fun _ => .pure _

theorem handle_moves (cfg : DaemonConfig) (serde : Serde) (extract : JsonExtractor) (req : HttpRequest) :
    (handle cfg serde extract req).Moves Guards.after .none .none := by
  refine handle_cases (C := fun p => p.Moves Guards.after .none .none) (fun _ => .pure _)
    (fun p hp => hp.bind fun _ => .pure _) (respond_moves (Prog.All.moves ?_)) ?_ ?_ (respond_moves ?_)
  · exact all_bind (all_ask (o := .readState) rfl) fun _ => all_bind (all_check _) fun _ => trivial
  · unfold putStateRoute
    split
    · exact .pure _
    · refine respond_moves (.tryBind (.pure _) fun expected => .tryBind (putState_moves serde expected _) fun x => ?_)
      exact .tryBind (.pure _) fun _ => .pure _
  · exact .bind (.perform (o := Op.readStatus) rfl) fun _ => .pure _
  · refine .tryBind (Prog.All.moves ?_) fun id => .tryBind (reconcileOnce_moves cfg) fun _ => .pure _
    exact all_bind (all_ask (o := .now) rfl) fun _ => trivial

theorem code_moves (cfg : DaemonConfig) (serde : Serde) (extract : JsonExtractor) (task : Task) :
    (task.code cfg serde extract).Moves Guards.after .none .none := by
  cases task with
  | request req => exact (handle_moves cfg serde extract req).bind fun _ => .pure _
  | loop => exact (reconcileOnce_moves cfg).bind fun _ => .pure _
  | externalEdit content => exact .bind (.perform (o := Op.externalEdit ..) rfl) fun _ => .pure _

theorem obeyed_serve {cfg : DaemonConfig} {serde : Serde} {extract : JsonExtractor} {w : World} {tasks : List Task}
    (hstate : w.stateLock = none) (happly : w.applyLock = none) :
    lockDiscipline.Obeyed (serve cfg serde extract w tasks) := by
  have hfree : ∀ t, w.guards t = .none := fun t => by simp [World.guards, Guards.none, hstate, happly]
  refine ⟨fun t q hq => ?_, fun t _ => hfree t⟩
  obtain ⟨task, htask, rfl⟩ := Option.map_eq_some_iff.1 hq
  show (task.code cfg serde extract).Moves Guards.after (w.guards t) .none
  rw [hfree t]
  exact code_moves cfg serde extract task

/-- In a process that serves, whatever failed and whoever was dropped: only a task that still runs holds a lock; if no
task can go on even without faults, all of them have ended; and no run goes on forever. -/
theorem requests_answered {cfg : DaemonConfig} {serde : Serde} {extract : JsonExtractor} {x : ControlPlaneState}
    {status : RuntimeStatus} {disk : Disk} {tasks : List Task} {p : Pool Op.Res Moment (Option HttpResponse)}
    (h : (serve cfg serde extract (.loaded x status disk) tasks).Reach machine.machine p) :
    (∀ t, p.shared.now.stateLock = some t ∨ p.shared.now.applyLock = some t → ∃ o k, p.threads t = some (.call o k)) ∧
    ((∀ p', ¬ p.Step (machine.machineOn Faultless).noDrops p') → ∀ t q, p.threads t = some q → ∃ a, q = .ret a) ∧
    ¬ ∃ run : Nat → Pool Op.Res Moment (Option HttpResponse), run 0 = p ∧ ∀ i, (run i).Step machine.machine (run (i + 1)) := by
  have hobeyed : lockDiscipline.Obeyed p := (obeyed_serve rfl rfl).reach h
  have hwithin : p.Within tasks.length :=
    Pool.Within.reach (fun t ht => by simp [serve, List.getElem?_eq_none ht]) h
  refine ⟨fun t ht => hobeyed.of_holds fun hfree => ?_, fun hstuck t q hq => ?_, Pool.not_infinite hwithin⟩
  · obtain ⟨hstate, happly⟩ := Guards.mk.inj hfree
    rcases ht with ht | ht
    · exact of_decide_eq_false hstate ht
    · exact of_decide_eq_false happly ht
  · cases q with
    | ret a => exact ⟨a, rfl⟩
    | call o k =>
      obtain ⟨p', hp'⟩ : ∃ p', p.Step (machine.machineOn Faultless).noDrops p' :=
        hobeyed.progress hwithin Guards.rank rfl (fun _ _ _ _ hafter hmost => guards_enabled hafter hmost) hq
      exact absurd hp' (hstuck p')

/-- A `PUT` is dropped while it writes its file; the other one can still be answered. -/
theorem requests_answered_dropped : ∃ p : Pool Op.Res Moment (Option HttpResponse), p.shared.now.jobs.length = 1 ∧
    p.shared.now.stateLock = none ∧ (p.threads 0).isNone ∧ (p.threads 1).isSome ∧
    ((∀ p', ¬ p.Step (machine.machineOn Faultless).noDrops p') → ∀ t q, p.threads t = some q → ∃ a, q = .ret a) := by
  have hrun : (machine.schedule (turns 0 2 ++ [.drop 0]) (serve .defaults sampleSerde sampleExtract
      (.loaded (.initial 0) (.loaded (.initial 0) 0) sampleWorld.disk) [.request putRequest, .request putRequest])).map
      (fun p => (p.shared.now.jobs.length, p.shared.now.stateLock, (p.threads 0).isNone, (p.threads 1).isSome)) =
        some (1, none, true, true) := by
    decide +kernel
  obtain ⟨p, hp, hres⟩ := Option.map_eq_some_iff.1 hrun
  simp only [Prod.mk.injEq] at hres
  exact ⟨p, hres.1, hres.2.1, hres.2.2.1, hres.2.2.2, (requests_answered (Exec.reach_of_schedule hp)).2.1⟩

end NginxAdmin.Daemon
