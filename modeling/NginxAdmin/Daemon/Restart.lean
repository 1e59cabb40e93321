import NginxAdmin.Daemon.ApplyRun
import NginxAdmin.Daemon.Revisions

/-!
# Crashes and restarts

A daemon process loads its state and then serves requests until it crashes, at any point; the next process
finds the disk as it was left. `load_or_init` reports a loaded state as applied and in sync without a look
at the runtime directory. `observed_truthful`: what the status says is true at every moment of every run
in which each process finds the render of the state on disk in the runtime directory, and is not told that there is no
`state.json`, or no old staging directory, when there is one.
-/

namespace NginxAdmin.Daemon

open Protocol

/-- A process that has not loaded its state yet. What stands in its memory is not read by `load_or_init`. -/
def World.unloaded (disk : Disk) : World := .boot (.initial 0) 0 disk

/-- The process whose locks have been created with what `load_or_init` returned. -/
def World.loaded (x : ControlPlaneState) (status : RuntimeStatus) (disk : Disk) : World where
  state := x
  status := status
  stateLock := none
  applyLock := none
  jobs := []
  disk := disk

/-- A process that starts on `disk` and loads its state. -/
def load (serde : Serde) (disk : Disk) : Pool Op.Res Moment (Except DaemonError (ControlPlaneState × RuntimeStatus)) where
  shared := ⟨.unloaded disk, []⟩
  threads t := if t = 0 then some (loadOrInit serde).run else none

/-- The existence tests that decide whether a process loads its state, and whether a render starts afresh. -/
def Op.Decides (cfg : DaemonConfig) : Op → Prop
  | stateFileExists => True
  | .exists l => l = cfg.staging
  | _ => False

/-- What a process is doing: it loads its state, or it serves requests since it was `w₀`. -/
inductive Phase where
  | loading (p : Pool Op.Res Moment (Except DaemonError (ControlPlaneState × RuntimeStatus)))
  | serving (w₀ : World) (p : Pool Op.Res Moment Response)

def Phase.moment : Phase → Moment
  | loading p => p.shared
  | serving _ p => p.shared

/-- `Runs past phase`: after processes with the histories `past` (newest first) the present one is in `phase`.
Every process has started on a disk that satisfies `good`, and the existence tests in `tests` are right; nobody edits the
runtime directory. -/
inductive Runs (cfg : DaemonConfig) (serde : Serde) (tests : Op → Prop) (good : List Log → Disk → Prop) :
    List Log → Phase → Prop
  | first (disk : Disk) (hgood : good [] disk) : Runs cfg serde tests good [] (.loading (load serde disk))
  | loading {past : List Log} {p p' : Pool Op.Res Moment (Except DaemonError (ControlPlaneState × RuntimeStatus))}
      (h : Runs cfg serde tests good past (.loading p)) (hs : p.Step (sighted tests) p') :
      Runs cfg serde tests good past (.loading p')
  | ready {past : List Log} {p : Pool Op.Res Moment (Except DaemonError (ControlPlaneState × RuntimeStatus))}
      {x : ControlPlaneState} {status : RuntimeStatus} (reqs : List Request)
      (h : Runs cfg serde tests good past (.loading p)) (hret : p.threads 0 = some (.ret (.ok (x, status))))
      (hreqs : ∀ req ∈ reqs, req.isEdit = false) :
      Runs cfg serde tests good past (.serving (.loaded x status p.shared.now.disk)
        (start cfg serde (.loaded x status p.shared.now.disk) reqs))
  | serving {past : List Log} {w₀ : World} {p p' : Pool Op.Res Moment Response}
      (h : Runs cfg serde tests good past (.serving w₀ p)) (hs : p.Step (sighted tests) p') :
      Runs cfg serde tests good past (.serving w₀ p')
  | crash {past : List Log} {phase : Phase} (h : Runs cfg serde tests good past phase)
      (hgood : good (phase.moment.log :: past) phase.moment.now.disk) :
      Runs cfg serde tests good (phase.moment.log :: past) (.loading (load serde phase.moment.now.disk))

/-- The state that a process finds on `disk`: the one in `state.json`, or a new one. -/
def OnDisk (serde : Serde) (disk : Disk) (x : ControlPlaneState) : Prop :=
  (∃ raw, disk.stateJson = some raw ∧ serde.fromStr raw = .ok x) ∨ disk.stateJson = none ∧ ∃ n, x = .initial n

section Load

variable {serde : Serde} {tests : Op → Prop} {s s' : Moment}

theorem readOrInit_isAside (serde : Serde) : (readOrInit serde).run.All Op.IsAside := by
  refine all_bind (all_ask (o := .stateFileExists) trivial) fun b => ?_
  cases b with
  | true => exact all_bind (all_attempt (.perform (o := Op.readStateFile) trivial)) fun _ => all_check _
  | false =>
    refine all_bind (all_attempt (.perform (o := Op.createStateDir) trivial)) fun _ => ?_
    refine all_bind (all_ask (o := .now) trivial) fun _ => ?_
    exact all_bind (writeStateFile_isAside serde _) fun _ => trivial

theorem loadOrInit_isAside (serde : Serde) : (loadOrInit serde).run.All Op.IsAside :=
  all_bind (readOrInit_isAside serde) fun _ => all_bind (all_check _) fun _ =>
    all_bind (all_ask (o := .now) trivial) fun _ => trivial

theorem eval_isAside_dirs {α : Type} {p : Code α} (hp : p.All Op.IsAside) {a : α}
    (h : p.Eval machine.machine 0 s a s') : s'.now.disk.dirs = s.now.disk.dirs := by
  have hkeep : (alone 0).Triple machine.machine 0 (fun s₁ => s₁.now.disk.dirs = s.now.disk.dirs) p
      fun _ s₁ => s₁.now.disk.dirs = s.now.disk.dirs := by
    refine Triple.all (stable_alone _) (fun o ho => performs_alone fun s₁ hs₁ r s₂ hstep => ?_) hp
    obtain ⟨⟨c, -, hexec⟩, -⟩ := Exec.traced_step.1 hstep
    rw [(aside_of_exec ho hexec).1.dirs, hs₁]
  exact (hkeep.eval rfl trivial h).1

theorem eval_readOrInit (htests : tests .stateFileExists) {x : ControlPlaneState}
    (h : (readOrInit serde).run.Eval (sighted tests) 0 s (.ok x) s') : OnDisk serde s.now.disk x := by
  rw [readOrInit, eval_ask] at h
  obtain ⟨b, s₁, ⟨hexists, hsees⟩, h⟩ := h
  obtain ⟨⟨c, -, hexec⟩, -⟩ := Exec.traced_step.1 hexists
  obtain ⟨-, hnow⟩ := Prod.mk.inj (Option.some.inj hexec)
  obtain rfl : b = s.now.disk.stateJson.isSome := hsees htests
  cases hjson : s.now.disk.stateJson with
  | some raw =>
    simp only [hjson, Option.isSome_some, ↓reduceIte] at h
    obtain ⟨a, s₂, hread, h⟩ := eval_attempt.1 h
    obtain ⟨⟨c', -, hexec'⟩, -⟩ := Exec.traced_step.1 (Prog.eval_perform.1 hread).1
    cases a with
    | error e => cases h.1
    | ok raw' =>
      obtain rfl : raw' = raw := by
        have hres := congrArg (Option.map Prod.fst) hexec'
        cases hf : c'.fault with
        | some f => simp [Op.exec, hf] at hres
        | none => simpa [Op.exec, hf, ← hnow, hjson] using hres.symm
      exact .inl ⟨raw', hjson, h.1.symm⟩
  | none =>
    simp only [hjson, Option.isSome_none, Bool.false_eq_true, ↓reduceIte] at h
    obtain ⟨a, s₂, -, h⟩ := eval_attempt.1 h
    cases a with
    | error e => cases h.1
    | ok _ =>
      obtain ⟨n, s₃, -, h⟩ := eval_ask.1 h
      obtain ⟨_ | _, s₄, -, h⟩ := eval_tryBind.1 h
      · cases h.1
      · exact .inr ⟨hjson, n, Except.ok.inj h.1⟩

theorem eval_loadOrInit (htests : tests .stateFileExists) {x : ControlPlaneState} {status : RuntimeStatus}
    (h : (loadOrInit serde).run.Eval (sighted tests) 0 s (.ok (x, status)) s') :
    OnDisk serde s.now.disk x ∧ (∃ n, status = .loaded x n) ∧ s'.now.disk.dirs = s.now.disk.dirs := by
  have heval : (loadOrInit serde).run.Eval machine.machine 0 s (.ok (x, status)) s' :=
    h.imp (M := sighted tests) fun _ _ _ _ hs => hs.1
  have hdirs := eval_isAside_dirs (loadOrInit_isAside serde) heval
  obtain ⟨a, s₁, hread, h⟩ := eval_tryBind.1 h
  cases a with
  | error e => cases h.1
  | ok y =>
    obtain ⟨_ | _, s₂, -, h⟩ := eval_tryBind.1 h
    · cases h.1
    obtain ⟨n, s₃, -, h⟩ := eval_ask.1 h
    obtain ⟨rfl, rfl⟩ := Prod.mk.inj (Except.ok.inj h.1)
    exact ⟨eval_readOrInit htests hread, ⟨n, rfl⟩, hdirs⟩

end Load

/-! ### The status across restarts -/

/-- The apply of a state of revision `rev` has completed in one of the histories. -/
def AppliedIn (cfg : DaemonConfig) (logs : List Log) (rev : UInt64) : Prop :=
  ∃ log ∈ logs, ∃ x, Applied cfg log x ∧ x.revision = rev

/-- A process starts honestly: the runtime directory holds the render of the state on disk, which is that of
revision 0 or has been applied. -/
def Honest (cfg : DaemonConfig) (serde : Serde) (past : List Log) (disk : Disk) : Prop :=
  ∀ x, OnDisk serde disk x → Dir.SameTree (disk.dirs cfg.runtime) (some (renderTree x)) ∧
    (x.revision = 0 ∨ AppliedIn cfg past x.revision)

/-- What is known of the present process. -/
def Phase.Known (cfg : DaemonConfig) (serde : Serde) (tests : Op → Prop) (good : List Log → Disk → Prop)
    (past : List Log) : Phase → Prop
  | loading p => ∃ disk, good past disk ∧ (load serde disk).Reach (sighted tests) p
  | serving w₀ p => ∃ disk, good past disk ∧ OnDisk serde disk w₀.state ∧ (∃ n, w₀.status = .loaded w₀.state n) ∧
      w₀.disk.dirs = disk.dirs ∧ ∃ reqs, (∀ req ∈ reqs, req.isEdit = false) ∧
        (start cfg serde w₀ reqs).Reach (sighted tests) p

theorem Runs.known {cfg : DaemonConfig} {serde : Serde} {tests : Op → Prop} (htests : tests .stateFileExists)
    {good : List Log → Disk → Prop} {past : List Log} {phase : Phase} (h : Runs cfg serde tests good past phase) :
    phase.Known cfg serde tests good past := by
  induction h with
  | first disk hgood => exact ⟨disk, hgood, .refl⟩
  | loading _ hs ih =>
    obtain ⟨disk, hgood, hreach⟩ := ih
    exact ⟨disk, hgood, hreach.tail hs⟩
  | ready reqs _ hret hreqs ih =>
    obtain ⟨disk, hgood, hreach⟩ := ih
    have heval := (hreach.eval (t := 0) rfl fun u hu => if_neg hu).2 _ hret _ _ ⟨rfl, rfl⟩
    obtain ⟨hdisk, hstatus, hdirs⟩ := eval_loadOrInit htests heval
    exact ⟨disk, hgood, hdisk, hstatus, hdirs, reqs, hreqs, .refl⟩
  | serving _ hs ih =>
    obtain ⟨disk, hgood, hdisk, hstatus, hdirs, reqs, hreqs, hreach⟩ := ih
    exact ⟨disk, hgood, hdisk, hstatus, hdirs, reqs, hreqs, hreach.tail hs⟩
  | crash _ hgood => exact ⟨_, hgood, .refl⟩

theorem StagingSeen.nil {cfg : DaemonConfig} : StagingSeen cfg [] := fun _ => List.not_mem_nil

theorem StagingSeen.cons {cfg : DaemonConfig} {log : Log} (h : StagingSeen cfg log) {e : Event Op.Res World}
    (he : ∀ t, denialOf t e ≠ some cfg.staging) : StagingSeen cfg (e :: log) := fun t ht => by
  rw [denials, List.mem_filterMap] at ht
  obtain ⟨e', he', hd⟩ := ht
  rcases List.mem_cons.1 he' with rfl | he'
  · exact he t hd
  · exact h t (List.mem_filterMap.2 ⟨e', he', hd⟩)

/-- Where the tests of the staging directory are right, the log says so. -/
theorem stagingSeen_of_reach {cfg : DaemonConfig} {tests : Op → Prop} (htests : tests (.exists cfg.staging))
    {p₀ p : Pool Op.Res Moment Response} (h : p₀.Reach (sighted tests) p) (h₀ : StagingSeen cfg p₀.shared.log) :
    StagingSeen cfg p.shared.log ∧ p₀.Reach machine.machine p := by
  refine h.of_inv (I := fun s => StagingSeen cfg s.log) h₀ (fun t o s r s' hseen hs => ⟨?_, hs.1⟩)
    fun t o s s' hseen hc => ⟨?_, hc.1⟩
  · rw [(Exec.traced_step.1 hs.1).2]
    refine hseen.cons fun u hdenied => ?_
    unfold denialOf at hdenied
    split at hdenied
    · rename_i heq
      cases heq
      split at hdenied
      · rename_i hthere
        obtain rfl := Option.some.inj hdenied
        have hsees : false = (s.now.disk.dirs cfg.staging).isSome := hs.2 htests
        rw [← hsees] at hthere
        cases hthere.2
      · cases hdenied
    · cases hdenied
  · rw [(Exec.traced_cancel.1 hc.1).2]
    exact hseen.cons fun u => (nomatch ·)

/-- If every process starts honestly, the status tells the truth at every moment: `InSync` means that the
runtime directory holds the render of the state of the observed revision, and the observed revision is 0 or
has been applied, by this process or an earlier one. -/
theorem observed_truthful {cfg : DaemonConfig} (hdirs : cfg.DirsApart) {serde : Serde} {past : List Log} {w₀ : World}
    {p : Pool Op.Res Moment Response}
    (h : Runs cfg serde (Op.Decides cfg) (Honest cfg serde) past (.serving w₀ p)) :
    (p.shared.now.status.syncState = .inSync → ∃ x, Committed w₀ p.shared.log x ∧
      x.revision = p.shared.now.status.observedRevision ∧
      Dir.SameTree (p.shared.now.disk.dirs cfg.runtime) (some (renderTree x))) ∧
    (p.shared.now.status.observedRevision = 0 ∨
      AppliedIn cfg (p.shared.log :: past) p.shared.now.status.observedRevision) := by
  obtain ⟨disk, hgood, hdisk, ⟨n, hstatus⟩, hsame, reqs, hreqs, hsighted⟩ := h.known trivial
  obtain ⟨htree, hrev⟩ := hgood _ hdisk
  have htests : Op.Decides cfg (.exists cfg.staging) := rfl
  obtain ⟨hseen, hreach⟩ := stagingSeen_of_reach htests hsighted .nil
  have htruthful : Truthful cfg w₀ := fun _ => ⟨by rw [hstatus]; rfl, by rw [hsame]; exact htree⟩
  have hstart : Ready (applyProtocol cfg True True w₀) machine.machine (fun _ _ _ => True) (start cfg serde w₀ reqs) :=
    apply_ready hdirs serde True True (fun _ => True) w₀ (fun _ => htruthful) fun _ => hreqs
  have hinv := (hstart.reach hreach).1
  refine ⟨hinv.truthful trivial trivial hseen, ?_⟩
  rcases hinv.applied trivial hseen with hsame | ⟨x, hx, hxrev⟩
  · rw [hsame, hstatus]
    refine hrev.imp_right fun ⟨log, hlog, hx⟩ => ?_
    exact ⟨log, List.mem_cons_of_mem _ hlog, hx⟩
  · exact .inr ⟨_, List.mem_cons_self, x, hx, hxrev⟩

section Samples

variable {cfg : DaemonConfig} {tests : Op → Prop} {good : List Log → Disk → Prop} {past : List Log}

theorem Runs.loading_reach {serde : Serde} {p p' : Pool Op.Res Moment (Except DaemonError (ControlPlaneState × RuntimeStatus))}
    (h : Runs cfg serde tests good past (.loading p)) (hr : p.Reach (sighted tests) p') :
    Runs cfg serde tests good past (.loading p') := by
  induction hr with
  | refl => exact h
  | tail _ hs ih => exact ih.loading hs

theorem Runs.serving_reach {serde : Serde} {w₀ : World} {p p' : Pool Op.Res Moment Response}
    (h : Runs cfg serde tests good past (.serving w₀ p)) (hr : p.Reach (sighted tests) p') :
    Runs cfg serde tests good past (.serving w₀ p') := by
  induction hr with
  | refl => exact h
  | tail _ hs ih => exact ih.serving hs

/-- A turn without a fault. -/
def isFaultless : Turn Choice → Bool
  | .op _ c => c.fault.isNone
  | .drop _ => true

/-- Without faults every test is right. -/
theorem sighted_of_schedule {α : Type} {as : List (Turn Choice)} {p p' : Pool Op.Res Moment α} (has : as.all isFaultless)
    (h : machine.schedule as p = some p') : p.Reach (sighted tests) p' := by
  have hok : ∀ t c, Turn.op t c ∈ as → Faultless c := fun t c hc =>
    Option.isNone_iff_eq_none.1 (List.all_eq_true.1 has _ hc)
  exact ((Exec.reach_on_of_schedule hok h).of_inv (I := fun _ => True) trivial
    (fun _ _ _ _ _ _ hs => ⟨trivial, sighted_of_faultless hs⟩) fun _ _ _ _ _ hc => ⟨trivial, hc, trivial⟩).2

/-- What the only thread of a loading process has returned. -/
def loadResult (p : Pool Op.Res Moment (Except DaemonError (ControlPlaneState × RuntimeStatus))) :
    Option (ControlPlaneState × RuntimeStatus) :=
  match p.threads 0 with
  | some (.ret (.ok r)) => some r
  | _ => none

theorem loadResult_eq_some {p : Pool Op.Res Moment (Except DaemonError (ControlPlaneState × RuntimeStatus))}
    {r : ControlPlaneState × RuntimeStatus} (h : loadResult p = some r) : p.threads 0 = some (.ret (.ok r)) := by
  unfold loadResult at h
  split at h
  · rename_i hp
    rw [hp, Option.some.inj h]
  · cases h

/-- A process that loads in `n` operations and then serves `reqs` as scheduled. -/
def life (n : Nat) (reqs : List Request) (as : List (Turn Choice)) (disk : Disk) :
    Option (World × Pool Op.Res Moment Response) :=
  (machine.schedule (turns 0 n) (load sampleSerde disk)).bind fun p => (loadResult p).bind fun r =>
    let w := World.loaded r.1 r.2 p.shared.now.disk
    (machine.schedule as (start .defaults sampleSerde w reqs)).map fun p' => (w, p')

theorem runs_of_life {n : Nat} {reqs : List Request} (hreqs : reqs.all (!·.isEdit)) {as : List (Turn Choice)}
    (has : as.all isFaultless) {disk : Disk} {w : World} {p : Pool Op.Res Moment Response} (hlife : life n reqs as disk = some (w, p))
    (h : Runs .defaults sampleSerde tests good past (.loading (load sampleSerde disk))) :
    Runs .defaults sampleSerde tests good past (.serving w p) := by
  obtain ⟨q, hq, hlife⟩ := Option.bind_eq_some_iff.1 hlife
  obtain ⟨r, hr, hlife⟩ := Option.bind_eq_some_iff.1 hlife
  obtain ⟨p', hp', heq⟩ := Option.map_eq_some_iff.1 hlife
  obtain ⟨rfl, rfl⟩ := Prod.mk.inj heq
  have hload : (turns 0 n).all isFaultless := List.all_eq_true.2 fun a ha => by
    rw [List.eq_of_mem_replicate ha]
    rfl
  have hloaded := h.loading_reach (sighted_of_schedule hload hq)
  refine (hloaded.ready reqs (loadResult_eq_some hr) fun req hreq => ?_).serving_reach (sighted_of_schedule has hp')
  simpa using List.all_eq_true.1 hreqs req hreq

end Samples

/-- A disk with the initial state and its render. -/
def renderedDisk : Disk :=
  sampleWorld.disk.setDir DaemonConfig.defaults.runtime (some (renderTree (.initial 0)))

theorem honest_renderedDisk : Honest .defaults sampleSerde [] renderedDisk := by
  obtain ⟨raw', hraw', hx'⟩ := booted_sampleWorld.file
  rintro x (⟨raw, hraw, hx⟩ | ⟨hnone, -⟩)
  · obtain rfl : raw = raw' := Option.some.inj (hraw.symm.trans hraw')
    obtain rfl : x = .initial 0 := Except.ok.inj (hx.symm.trans hx')
    exact ⟨.refl _, .inl rfl⟩
  · cases hnone

theorem observed_truthful_sample : ∃ w₀ p, Runs .defaults sampleSerde (Op.Decides .defaults)
      (Honest .defaults sampleSerde) [] (.serving w₀ p) ∧
    p.shared.now.status.syncState = .inSync ∧ p.shared.now.status.observedRevision = 1 ∧
    ∃ x, Committed w₀ p.shared.log x ∧ x.revision = p.shared.now.status.observedRevision ∧
      Dir.SameTree (p.shared.now.disk.dirs DaemonConfig.defaults.runtime) (some (renderTree x)) := by
  have hrun : (life 3 [.putState 0 sampleDraft, .reconcile] (turns 0 7 ++ turns 1 25) renderedDisk).map
      (fun a => (a.2.shared.now.status.syncState, a.2.shared.now.status.observedRevision)) = some (.inSync, 1) := by
    decide +kernel
  obtain ⟨⟨w₀, p⟩, hlife, hres⟩ := Option.map_eq_some_iff.1 hrun
  obtain ⟨hsync, hrev⟩ := Prod.mk.inj hres
  have hruns : Runs .defaults sampleSerde (Op.Decides .defaults) (Honest .defaults sampleSerde) [] (.serving w₀ p) :=
    runs_of_life (by decide) (by decide) hlife (.first renderedDisk honest_renderedDisk)
  exact ⟨w₀, p, hruns, hsync, hrev, (observed_truthful DaemonConfig.defaults_dirsApart hruns).1 hsync⟩

def isMarkInSync : Event Op.Res World → Bool
  | .did _ (.updateStatus (.inSync ..)) _ _ _ => true
  | _ => false

theorem not_appliedIn {cfg : DaemonConfig} {logs : List Log} (h : logs.all fun log => !log.any isMarkInSync)
    (rev : UInt64) : ¬ AppliedIn cfg logs rev := by
  rintro ⟨log, hlog, x, ⟨t, hash, r, pre, post, before, he, -⟩, -⟩
  have hnone := List.all_eq_true.1 h log hlog
  rw [Bool.not_eq_true', List.any_eq_false] at hnone
  exact hnone _ (he.subset List.mem_cons_self) rfl

/-- The first process crashes after a put. The second one says that revision 1 is observed and in sync; nothing
has ever been applied, and there is no runtime directory. -/
theorem observed_untruthful : ∃ past w₀ p, Runs .defaults sampleSerde (fun _ => True) (fun _ _ => True) past (.serving w₀ p) ∧
    p.shared.now.status.syncState = .inSync ∧
    (¬ ∃ x, Committed w₀ p.shared.log x ∧ x.revision = p.shared.now.status.observedRevision ∧
      Dir.SameTree (p.shared.now.disk.dirs DaemonConfig.defaults.runtime) (some (renderTree x))) ∧
    ¬ (p.shared.now.status.observedRevision = 0 ∨
      AppliedIn .defaults (p.shared.log :: past) p.shared.now.status.observedRevision) := by
  have hrun : ((life 6 [.putState 0 sampleDraft] (turns 0 7) ⟨none, none, fun _ => none, fun _ => none, fun _ => false⟩).bind fun a =>
      (life 3 [] [] a.2.shared.now.disk).map fun b => (a.2.shared.log.any isMarkInSync, b.2.shared.log.any isMarkInSync,
        b.2.shared.now.status.syncState, b.2.shared.now.status.observedRevision,
        (b.2.shared.now.disk.dirs DaemonConfig.defaults.runtime).isSome)) =
      some (false, false, .inSync, 1, false) := by
    decide +kernel
  obtain ⟨⟨w₁, p₁⟩, hlife₁, hrun⟩ := Option.bind_eq_some_iff.1 hrun
  obtain ⟨⟨w₂, p₂⟩, hlife₂, hres⟩ := Option.map_eq_some_iff.1 hrun
  simp only [Prod.mk.injEq] at hres
  obtain ⟨hlog₁, hlog₂, hsync, hrev, hmissing⟩ := hres
  have hfirst : Runs .defaults sampleSerde (fun _ => True) (fun _ _ => True) [] (.serving w₁ p₁) :=
    runs_of_life (by decide) (by decide) hlife₁ (.first _ trivial)
  have hsecond := runs_of_life (by decide) (by decide) hlife₂ (hfirst.crash trivial)
  refine ⟨_, w₂, p₂, hsecond, hsync, ?_, ?_⟩
  · rintro ⟨x, -, -, hsame⟩
    have hroot := hsame []
    rw [Option.isSome_eq_false_iff, Option.isNone_iff_eq_none] at hmissing
    rw [hmissing] at hroot
    cases hroot
  · rintro (hzero | happlied)
    · rw [hrev] at hzero
      exact absurd hzero (by decide)
    · refine not_appliedIn ?_ _ happlied
      simp only [List.all_cons, List.all_nil, Bool.and_true, Bool.and_eq_true, Bool.not_eq_true']
      exact ⟨hlog₂, hlog₁⟩

end NginxAdmin.Daemon
