import NginxAdmin.Daemon.Durable

/-!
# The versions of the state across processes

A daemon process loads its state, serves, and stops at any point; the next one finds `state.json` as it was left, and
whatever else is on the disk may have changed. `lives_lineage`: the states of all processes together are one lineage.
`compare_and_swap`: a `PUT` with the `ETag` of an answer, given by the same process or an earlier one, replaces exactly
the state of that answer.
-/

namespace NginxAdmin.Daemon

open Protocol

abbrev Loader := Pool Op.Res Moment (Except DaemonError (ControlPlaneState × RuntimeStatus))

/-- A process: it loads its state, or it has loaded `first` and does `tasks`. -/
inductive Life where
  | loading (p : Loader)
  | serving (first : ControlPlaneState) (tasks : List Task) (p : Pool Op.Res Moment (Option HttpResponse))

namespace Life

def disk : Life → Disk
  | loading p => p.shared.now.disk
  | serving _ _ p => p.shared.now.disk

def states : Life → List ControlPlaneState
  | loading _ => []
  | serving first _ p => versions first p.shared.log

def tasks : Life → List Task
  | loading _ => []
  | serving _ tasks _ => tasks

/-- The request `req` has been answered with `res`. -/
def Answered : Life → HttpRequest → HttpResponse → Prop
  | loading _, _, _ => False
  | serving _ tasks p, req, res => ∃ t, tasks[t]? = some (.request req) ∧ p.threads t = some (.ret (some res))

end Life

/-- The machine of a process that loads: its test for `state.json` is right. -/
abbrev loader : Machine Op.Res Moment := (sighted (· = .stateFileExists)).noDrops

/-- `Lives past life`: after the processes `past` (newest first), in the moments in which they stopped, there is now
`life`. No request is dropped, and no start is told that there is no `state.json` when there is one. -/
inductive Lives (cfg : DaemonConfig) (serde : Serde) (extract : JsonExtractor) : List Life → Life → Prop
  | first (disk : Disk) : Lives cfg serde extract [] (.loading (load serde disk))
  | loading {past : List Life} {p p' : Loader} (h : Lives cfg serde extract past (.loading p))
      (hs : p.Step loader p') : Lives cfg serde extract past (.loading p')
  | ready {past : List Life} {p : Loader} {x : ControlPlaneState} {status : RuntimeStatus} (tasks : List Task)
      (h : Lives cfg serde extract past (.loading p)) (hret : p.threads 0 = some (.ret (.ok (x, status)))) :
      Lives cfg serde extract past
        (.serving x tasks (serve cfg serde extract (.loaded x status p.shared.now.disk) tasks))
  | serving {past : List Life} {x : ControlPlaneState} {tasks : List Task}
      {p p' : Pool Op.Res Moment (Option HttpResponse)} (h : Lives cfg serde extract past (.serving x tasks p))
      (hs : p.Step machine.machine.noDrops p') : Lives cfg serde extract past (.serving x tasks p')
  | stop {past : List Life} {life : Life} (h : Lives cfg serde extract past life) (disk : Disk)
      (hdisk : disk.stateJson = life.disk.stateJson) :
      Lives cfg serde extract (life :: past) (.loading (load serde disk))

/-- The states of all processes, oldest first. -/
def history (lives : List Life) : List ControlPlaneState := lives.reverse.flatMap Life.states

theorem history_cons (life : Life) (past : List Life) : history (life :: past) = history past ++ life.states := by
  simp [history]

/-- What the requests of all processes offer. -/
def OfferedIn (extract : JsonExtractor) (lives : List Life) (expected : UInt64) (draft : ControlPlaneState) : Prop :=
  ∃ life ∈ lives, Offered extract life.tasks expected draft

theorem OfferedIn.cons {extract : JsonExtractor} {past : List Life} (life : Life) {expected : UInt64}
    {draft : ControlPlaneState} (h : OfferedIn extract past expected draft) :
    OfferedIn extract (life :: past) expected draft := by
  obtain ⟨l, hl, hoffered⟩ := h
  exact ⟨l, List.mem_cons_of_mem _ hl, hoffered⟩

theorem Succeeds.mono {offered offered' : UInt64 → ControlPlaneState → Prop}
    (hle : ∀ expected draft, offered expected draft → offered' expected draft) {x y : ControlPlaneState}
    (h : Succeeds offered x y) : Succeeds offered' x y := by
  obtain ⟨draft, now, hdraft, heq⟩ := h
  exact ⟨draft, now, hle _ _ hdraft, heq⟩

def FileHolds (serde : Serde) (disk : Disk) (x : ControlPlaneState) : Prop :=
  ∃ raw, disk.stateJson = some raw ∧ serde.fromStr raw = .ok x

theorem FileHolds.congr {serde : Serde} {disk disk' : Disk} {x : ControlPlaneState} (h : FileHolds serde disk x)
    (hsame : disk'.stateJson = disk.stateJson) : FileHolds serde disk' x := by
  obtain ⟨raw, hraw, hx⟩ := h
  exact ⟨raw, hsame.trans hraw, hx⟩

theorem FileHolds.unique {serde : Serde} {disk : Disk} {x y : ControlPlaneState} (hx : FileHolds serde disk x)
    (hy : FileHolds serde disk y) : x = y := by
  obtain ⟨raw, hraw, hx⟩ := hx
  obtain ⟨raw', hraw', hy⟩ := hy
  obtain rfl : raw = raw' := Option.some.inj (hraw.symm.trans hraw')
  exact Except.ok.inj (hx.symm.trans hy)

section Loading

variable {serde : Serde} {disk : Disk}

/-- `load_or_init` leaves an existing `state.json` alone. -/
def LoadKeeps (disk : Disk) (s : Moment) : Prop := disk.stateJson ≠ none → s.now.disk.stateJson = disk.stateJson

/-- What has been read or initialised stands in `state.json`. -/
def Loads (serde : Serde) (r : Except DaemonError ControlPlaneState) (s : Moment) : Prop :=
  ∀ x, r = .ok x → FileHolds serde s.now.disk x

theorem performs_load {o : Op} {A : Moment → Prop} {Q : o.Res → Moment → Prop}
    (h : ∀ s r s' c, A s → o.exec 0 c s.now = some (r, s'.now) → LoadKeeps disk s' ∧ Q r s') :
    (keeping 0 (LoadKeeps disk)).Performs loader 0 A o Q := by
  refine performs_keeping (fun _ _ => id) fun s hA r s' hs => ?_
  obtain ⟨⟨c, -, hexec⟩, -⟩ := Exec.traced_step.1 hs.1
  exact h s r s' c hA hexec

/-- `state.json` is there, and it is read. -/
theorem triple_load_file {raw : Bytes} (hraw : disk.stateJson = some raw) :
    (keeping 0 (LoadKeeps disk)).Triple loader 0 (fun s => s.now.disk.stateJson = some raw)
      (attempt (perform .readStateFile) >>= fun raw => check (serde.fromStr raw) : Fallible ControlPlaneState).run
      (Loads serde) := by
  have hread : (keeping 0 (LoadKeeps disk)).Triple loader 0 (fun s => s.now.disk.stateJson = some raw)
      (perform .readStateFile) fun r s => s.now.disk.stateJson = some raw ∧ ∀ b, r = .ok b → b = raw := by
    refine Triple.perform (stable_keeping _) (fun _ => stable_keeping _) (performs_load fun s r s' c hs hexec => ?_)
    simp only [Op.exec, hs] at hexec
    split at hexec
    · obtain ⟨rfl, hnow⟩ := Prod.mk.inj (Option.some.inj hexec)
      exact ⟨fun _ => by rw [← hnow, hs, hraw], by rw [← hnow]; exact hs, fun b hb => by cases hb⟩
    · rename_i heq
      cases heq
    · rename_i raw' _ heq
      obtain ⟨rfl, hnow⟩ := Prod.mk.inj (Option.some.inj hexec)
      refine ⟨fun _ => by rw [← hnow, hs, hraw], by rw [← hnow]; exact hs, fun b hb => ?_⟩
      rw [← Except.ok.inj hb]
      exact (Option.some.inj heq).symm
  refine triple_attempt hread (fun _ => stable_keeping _) (fun b => ?_) fun e s _ _ x hx => by cases hx
  refine .pure (stable_keeping _) fun s _ h x hx => ?_
  obtain rfl := h.2 b rfl
  exact ⟨b, h.1, hx⟩

/-- There is no `state.json`, and `x` is written. -/
theorem triple_load_init (hnone : disk.stateJson = none) (x : ControlPlaneState) :
    (keeping 0 (LoadKeeps disk)).Triple loader 0 (fun _ => True)
      (writeStateFile serde x >>= fun _ => pure x).run (Loads serde) := by
  have hkeeps : ∀ s, LoadKeeps disk s := fun s h => absurd hnone h
  unfold writeStateFile
  simp only [bind_assoc]
  refine triple_check (stable_keeping _) (fun payload hp => ?_) fun e s _ _ _ y hy => by cases hy
  have hwrite : (keeping 0 (LoadKeeps disk)).Triple loader 0 (fun _ => True)
      (perform (.writeStateTmp payload)) fun r s => ∀ u, r = .ok u → s.now.disk.stateTmp = some payload := by
    refine Triple.perform (stable_keeping _) (fun _ => stable_keeping _) (performs_load fun s r s' c _ hexec => ?_)
    have hio := Option.some.inj hexec
    unfold World.io at hio
    split at hio
    all_goals
      obtain ⟨rfl, hnow⟩ := Prod.mk.inj hio
      refine ⟨hkeeps s', fun u hu => ?_⟩
    · cases hu
    · rw [← hnow]
  have hrename : (keeping 0 (LoadKeeps disk)).Triple loader 0 (fun s => s.now.disk.stateTmp = some payload)
      (perform .renameStateTmp) fun r s => ∀ u, r = .ok u → FileHolds serde s.now.disk x := by
    refine Triple.perform (stable_keeping _) (fun _ => stable_keeping _) (performs_load fun s r s' c hs hexec => ?_)
    have hio := Option.some.inj hexec
    unfold World.io at hio
    split at hio
    · obtain ⟨rfl, hnow⟩ := Prod.mk.inj hio
      exact ⟨hkeeps s', fun u hu => by cases hu⟩
    · simp only [Disk.renameTmp, hs] at hio
      obtain ⟨rfl, hnow⟩ := Prod.mk.inj hio
      exact ⟨hkeeps s', fun u _ => ⟨payload, by rw [← hnow], serde.fromStr_payload hp⟩⟩
  refine triple_attempt hwrite (fun _ => stable_keeping _) (fun u => ?_) fun e s _ _ y hy => by cases hy
  refine triple_attempt (hrename.conseq (fun s h => h u rfl) fun _ _ _ => id) (fun _ => stable_keeping _) (fun v => ?_)
    fun e s _ _ y hy => by cases hy
  refine triple_pure (stable_keeping _) fun s _ h y hy => ?_
  obtain rfl := Except.ok.inj hy
  exact h v rfl

theorem triple_load_readOrInit : (keeping 0 (LoadKeeps disk)).Triple loader 0
    (fun s => s.now.disk.stateJson = disk.stateJson) (readOrInit serde).run (Loads serde) := by
  refine triple_ask (o := .stateFileExists) (stable_keeping _)
    (B := fun b s => s.now.disk.stateJson = disk.stateJson ∧ b = disk.stateJson.isSome) (fun _ => stable_keeping _) ?_
    fun b => ?_
  · refine performs_keeping (fun _ _ => id) fun s hs b s' hstep => ?_
    obtain ⟨⟨c, -, hexec⟩, -⟩ := Exec.traced_step.1 hstep.1
    obtain ⟨-, hnow⟩ := Prod.mk.inj (Option.some.inj hexec)
    have hsame : s'.now.disk.stateJson = disk.stateJson := by rw [← hnow]; exact hs
    have hright : b = s.now.disk.stateJson.isSome := hstep.2 rfl
    exact ⟨fun _ => hsame, hsame, hright.trans (congrArg Option.isSome hs)⟩
  rintro s ⟨hs, rfl⟩
  cases hjson : disk.stateJson with
  | some raw => exact triple_load_file hjson s (hs.trans hjson)
  | none =>
    have hkeeps : ∀ s, LoadKeeps disk s := fun s h => absurd hjson h
    have skip : ∀ {o : Op}, (keeping 0 (LoadKeeps disk)).Performs loader 0 (fun _ => True) o fun _ _ => True :=
      performs_load fun s r s' c _ _ => ⟨hkeeps s', trivial⟩
    refine triple_attempt (Triple.perform (stable_keeping _) (fun _ => stable_keeping _) skip) (fun _ => stable_keeping _)
      (fun _ => ?_) (fun e s _ _ y hy => by cases hy) s trivial
    refine triple_ask (o := .now) (stable_keeping _) (fun _ => stable_keeping _) skip fun n => ?_
    exact triple_load_init hjson _

/-- What `load_or_init` returns stands in `state.json` and is valid. -/
theorem triple_load_loadOrInit : (keeping 0 (LoadKeeps disk)).Triple loader 0
    (fun s => s.now.disk.stateJson = disk.stateJson) (loadOrInit serde).run fun r s =>
      ∀ x status, r = .ok (x, status) → FileHolds serde s.now.disk x ∧ validateState x = .ok () := by
  refine Triple.tryBind triple_load_readOrInit (fun x => ?_) (fun _ => stable_keeping _) fun e s _ _ x st h => by cases h
  refine triple_check (stable_keeping _) (fun u hvalid => ?_) fun e s _ _ _ x st h => by cases h
  refine triple_ask (o := .now) (B := fun _ s => FileHolds serde s.now.disk x) (stable_keeping _)
    (fun _ => stable_keeping _) ?_ fun n => ?_
  · intro s hs hkeeps
    refine performs_load (A := fun s => LoadKeeps disk s ∧ FileHolds serde s.now.disk x) (fun s' r s'' c hs hexec => ?_) s
      ⟨hkeeps, hs x rfl⟩ hkeeps
    obtain ⟨-, hnow⟩ := Prod.mk.inj (Option.some.inj hexec)
    have hsame : s''.now.disk.stateJson = s'.now.disk.stateJson := by rw [← hnow]
    exact ⟨fun h => hsame.trans (hs.1 h), hs.2.congr hsame⟩
  · refine triple_pure (stable_keeping _) fun s _ h y st heq => ?_
    obtain ⟨rfl, rfl⟩ := Prod.mk.inj (Except.ok.inj heq)
    exact ⟨h, hvalid⟩

/-- A process that loads, at any moment. -/
theorem load_reach {p : Loader} (h : (load serde disk).Reach loader p) :
    LoadKeeps disk p.shared ∧ ∀ x status, p.threads 0 = some (.ret (.ok (x, status))) →
      FileHolds serde p.shared.now.disk x ∧ validateState x = .ok () := by
  obtain ⟨hkeeps, hret⟩ := Triple.reach (@triple_load_loadOrInit serde disk) (s := ⟨.unloaded disk, []⟩) rfl (fun _ => rfl) h
  exact ⟨hkeeps, fun x status hx => hret _ hx x status rfl⟩

end Loading

/-! ### All processes -/

section Lives

variable {cfg : DaemonConfig} {serde : Serde} {extract : JsonExtractor} {past : List Life} {life : Life}

/-- The disk holds the newest state of the history, or one that succeeds it. -/
def Remembered (serde : Serde) (extract : JsonExtractor) (lives : List Life) (disk : Disk) : Prop :=
  ∀ x ∈ (history lives).getLast?, ∃ y, FileHolds serde disk y ∧ validateState y = .ok () ∧
    Relation.ReflGen (Succeeds (OfferedIn extract lives)) x y

/-- What is known of the present process. -/
def Life.Known (cfg : DaemonConfig) (serde : Serde) (extract : JsonExtractor) (past : List Life) : Life → Prop
  | loading p => ∃ disk, Remembered serde extract past disk ∧ (load serde disk).Reach loader p
  | serving first tasks p => ∃ w, w.state = first ∧ w.stateLock = none ∧ w.jobs = [] ∧ Holds serde w first ∧
      validateState first = .ok () ∧ (serve cfg serde extract w tasks).Reach machine.machine.noDrops p ∧
      ∀ x ∈ (history past).getLast?, Relation.ReflGen (Succeeds (OfferedIn extract past)) x first

/-- What has been found of a process that serves. -/
theorem serving_ready {first : ControlPlaneState} {tasks : List Task} {p : Pool Op.Res Moment (Option HttpResponse)}
    (h : (Life.serving first tasks p).Known cfg serde extract past) :
    Ready (durableProtocol serde (OfferedIn extract (.serving first tasks p :: past)) first) machine.machine.noDrops
      (TaskAnswers extract first tasks) p := by
  obtain ⟨w, rfl, hlock, hjobs, hfile, hvalid, hreach, -⟩ := h
  refine (durable_ready hlock hjobs hfile hvalid fun expected draft hoffered => ?_).reach hreach
  exact ⟨_, List.mem_cons_self, hoffered⟩

/-- The history with the present process in it, and what the process leaves to the next one. -/
theorem known_lineage (hpast : Lineage (Succeeds (OfferedIn extract past)) (history past))
    (h : life.Known cfg serde extract past) : Lineage (Succeeds (OfferedIn extract (life :: past))) (history (life :: past)) ∧
      Remembered serde extract (life :: past) life.disk := by
  have hmono : ∀ x y, Succeeds (OfferedIn extract past) x y → Succeeds (OfferedIn extract (life :: past)) x y :=
    fun x y => Succeeds.mono fun _ _ => OfferedIn.cons life
  have hsucc : ∀ {x y}, Relation.ReflGen (Succeeds (OfferedIn extract past)) x y →
      Relation.ReflGen (Succeeds (OfferedIn extract (life :: past))) x y := Relation.ReflGen.mono hmono _ _
  cases life with
  | loading p =>
    obtain ⟨disk, hkept, hreach⟩ := h
    have hsame : history (.loading p :: past) = history past := by
      rw [history_cons]
      exact List.append_nil _
    refine ⟨hsame ▸ hpast.mono hmono, fun x hx => ?_⟩
    obtain ⟨y, hy, hvalid, hxy⟩ := hkept x (hsame ▸ hx)
    obtain ⟨raw, hraw, -⟩ := id hy
    have hfile := (load_reach hreach).1 (by rw [hraw]; exact Option.some_ne_none raw)
    exact ⟨y, hy.congr hfile, hvalid, hsucc hxy⟩
  | serving first tasks p =>
    have hinv := (serving_ready h).1
    obtain ⟨w, rfl, -, -, -, -, -, hlast⟩ := h
    have hcons : history (.serving w.state tasks p :: past) = history past ++ versions w.state p.shared.log := history_cons ..
    constructor
    · rw [hcons]
      refine (hpast.mono hmono).append hinv.lineage fun x hx y hy => ?_
      obtain rfl : w.state = y := Option.some.inj hy
      exact hsucc (hlast x hx)
    · intro x hx
      have hmemory : (history (.serving w.state tasks p :: past)).getLast? = some p.shared.now.state := by
        rw [hcons, List.getLast?_append, hinv.memory]
        rfl
      obtain rfl : p.shared.now.state = x := Option.some.inj (hmemory.symm.trans hx)
      obtain ⟨y, hy, hvalid, hxy, -⟩ := hinv.file
      exact ⟨y, hy, hvalid, hxy⟩

theorem Remembered.congr {lives : List Life} {disk disk' : Disk} (h : Remembered serde extract lives disk)
    (hsame : disk'.stateJson = disk.stateJson) : Remembered serde extract lives disk' := by
  intro x hx
  obtain ⟨y, hy, hvalid, hxy⟩ := h x hx
  exact ⟨y, hy.congr hsame, hvalid, hxy⟩

theorem Lives.known (h : Lives cfg serde extract past life) :
    Lineage (Succeeds (OfferedIn extract past)) (history past) ∧ life.Known cfg serde extract past := by
  induction h with
  | first disk => exact ⟨.nil, disk, (fun x hx => by cases hx), .refl⟩
  | loading _ hs ih =>
    obtain ⟨hpast, disk, hkept, hreach⟩ := ih
    exact ⟨hpast, disk, hkept, hreach.tail hs⟩
  | @ready past p x status tasks _ hret ih =>
    obtain ⟨hpast, disk, hkept, hreach⟩ := ih
    obtain ⟨hkeeps, hloaded⟩ := load_reach hreach
    obtain ⟨hfile, hvalid⟩ := hloaded x status hret
    refine ⟨hpast, .loaded x status p.shared.now.disk, rfl, rfl, rfl, hfile, hvalid, .refl, fun x' hx' => ?_⟩
    obtain ⟨y, hy, -, hxy⟩ := hkept x' hx'
    obtain ⟨raw, hraw, -⟩ := id hy
    have hsame := hkeeps (by rw [hraw]; exact Option.some_ne_none raw)
    exact (hy.congr hsame).unique hfile ▸ hxy
  | serving _ hs ih =>
    obtain ⟨hpast, w, hstate, hlock, hjobs, hfile, hvalid, hreach, hlast⟩ := ih
    exact ⟨hpast, w, hstate, hlock, hjobs, hfile, hvalid, hreach.tail hs, hlast⟩
  | stop _ disk hdisk ih =>
    obtain ⟨hlineage, hkept⟩ := known_lineage ih.1 ih.2
    exact ⟨hlineage, disk, hkept.congr hdisk, .refl⟩

theorem Lives.lineage (h : Lives cfg serde extract past life) :
    Lineage (Succeeds (OfferedIn extract (life :: past))) (history (life :: past)) :=
  (known_lineage h.known.1 h.known.2).1

/-- Every process has lived after those before it. -/
theorem Lives.of_mem (h : Lives cfg serde extract past life) {l : Life} (hl : l ∈ life :: past) :
    ∃ past', Lives cfg serde extract past' l := by
  induction h with
  | first disk => exact ⟨[], List.mem_singleton.1 hl ▸ .first disk⟩
  | loading h hs ih =>
    rcases List.mem_cons.1 hl with rfl | hl
    · exact ⟨_, h.loading hs⟩
    · exact ih (List.mem_cons_of_mem _ hl)
  | ready tasks h hret ih =>
    rcases List.mem_cons.1 hl with rfl | hl
    · exact ⟨_, h.ready tasks hret⟩
    · exact ih (List.mem_cons_of_mem _ hl)
  | serving h hs ih =>
    rcases List.mem_cons.1 hl with rfl | hl
    · exact ⟨_, h.serving hs⟩
    · exact ih (List.mem_cons_of_mem _ hl)
  | stop h disk hdisk ih =>
    rcases List.mem_cons.1 hl with rfl | hl
    · exact ⟨_, h.stop disk hdisk⟩
    · exact ih hl

/-- What is answered with a state, by whatever process. -/
theorem Lives.carries (h : Lives cfg serde extract past life) {l : Life} (hl : l ∈ life :: past) {req : HttpRequest}
    {res : HttpResponse} (hanswer : l.Answered req res) {x : ControlPlaneState} (hx : res.body = .state x) :
    ∃ first tasks p, l = .serving first tasks p ∧ Carries extract first req res x p.shared := by
  obtain ⟨past', h'⟩ := h.of_mem hl
  cases l with
  | loading p => exact hanswer.elim
  | serving first tasks p =>
    obtain ⟨t, hreq, hret⟩ := hanswer
    exact ⟨first, tasks, p, rfl, (serving_ready h'.known.2).ret hret req res hreq rfl x hx⟩

end Lives

/-- All processes together keep one line of versions: every state that one of them loads is the one before it or
succeeds it, and so is every state that it commits. Clients only see states of this line. -/
theorem lives_lineage {cfg : DaemonConfig} {serde : Serde} {extract : JsonExtractor} {past : List Life} {life : Life}
    (h : Lives cfg serde extract past life) :
    Lineage (Succeeds (OfferedIn extract (life :: past))) (history (life :: past)) ∧
    ∀ l ∈ life :: past, ∀ req res x, l.Answered req res → res.body = .state x → x ∈ l.states := by
  refine ⟨h.lineage, fun l hl req res x hanswer hx => ?_⟩
  obtain ⟨first, tasks, p, rfl, hcarries⟩ := h.carries hl hanswer hx
  exact hcarries.mem

section Samples

variable {past : List Life}

/-- The body of the sample's `PUT`, and nothing else, is a draft. -/
def sampleExtract : JsonExtractor := fun _ body =>
  match sampleSerde.fromStr body with
  | .ok draft => .ok draft
  | .error _ => .error ⟨400, "Failed to parse the request body as JSON"⟩

def getRequest : HttpRequest := ⟨.get, "/v1/state", [], []⟩

/-- A `PUT` with the `ETag` of revision 0. -/
def putRequest : HttpRequest := ⟨.put, "/v1/state", [("if-match", ⟨[34, 48, 34], by simp⟩)], sampleText sampleState⟩

theorem Lives.loading_reach {cfg : DaemonConfig} {serde : Serde} {extract : JsonExtractor} {p p' : Loader}
    (h : Lives cfg serde extract past (.loading p)) (hr : p.Reach loader p') :
    Lives cfg serde extract past (.loading p') := by
  induction hr with
  | refl => exact h
  | tail _ hs ih => exact ih.loading hs

theorem Lives.serving_reach {cfg : DaemonConfig} {serde : Serde} {extract : JsonExtractor} {x : ControlPlaneState}
    {tasks : List Task} {p p' : Pool Op.Res Moment (Option HttpResponse)}
    (h : Lives cfg serde extract past (.serving x tasks p)) (hr : p.Reach machine.machine.noDrops p') :
    Lives cfg serde extract past (.serving x tasks p') := by
  induction hr with
  | refl => exact h
  | tail _ hs ih => exact ih.serving hs

/-- A process that loads in `n` operations, and then does its first task in `m`. -/
def lifeOf (n m : Nat) (tasks : List Task) (disk : Disk) :
    Option (ControlPlaneState × Pool Op.Res Moment (Option HttpResponse)) :=
  (machine.schedule (turns 0 n) (load sampleSerde disk)).bind fun p => (loadResult p).bind fun r =>
    (machine.schedule (turns 0 m)
      (serve .defaults sampleSerde sampleExtract (.loaded r.1 r.2 p.shared.now.disk) tasks)).map fun p' => (r.1, p')

theorem isOp_turns (t n : Nat) : (turns t n).all Turn.isOp = true := by
  rw [turns, List.all_replicate]
  exact (ite_eq_left_iff.2 fun _ => rfl)

theorem loader_of_turns {n : Nat} {p p' : Loader} (h : machine.schedule (turns 0 n) p = some p') : p.Reach loader p' := by
  have hok : ∀ a ∈ turns 0 n, ∃ t c, a = .op t c ∧ Faultless c := fun a ha =>
    ⟨0, ⟨0, none, 0⟩, List.eq_of_mem_replicate ha, rfl⟩
  refine ((Exec.reach_noDrops_on_of_schedule hok h).of_inv (I := fun _ => True) trivial (fun t o s r s' _ hs => ?_)
    fun _ _ _ _ _ hc => hc.elim).2
  have hright : (sighted (· = .stateFileExists)).step t o s r s' := sighted_of_faultless hs
  exact ⟨trivial, hright⟩

theorem lives_of_lifeOf {n m : Nat} {tasks : List Task} {disk : Disk} {x : ControlPlaneState}
    {p : Pool Op.Res Moment (Option HttpResponse)} (hlife : lifeOf n m tasks disk = some (x, p))
    (h : Lives .defaults sampleSerde sampleExtract past (.loading (load sampleSerde disk))) :
    Lives .defaults sampleSerde sampleExtract past (.serving x tasks p) := by
  obtain ⟨q, hq, hlife⟩ := Option.bind_eq_some_iff.1 hlife
  obtain ⟨r, hr, hlife⟩ := Option.bind_eq_some_iff.1 hlife
  obtain ⟨p', hp', heq⟩ := Option.map_eq_some_iff.1 hlife
  obtain ⟨rfl, rfl⟩ := Prod.mk.inj heq
  have hloaded := h.loading_reach (loader_of_turns hq)
  exact (hloaded.ready tasks (loadResult_eq_some hr)).serving_reach (Exec.reach_noDrops_of_schedule (isOp_turns 0 m) hp')

/-- What the first task has answered. -/
def firstAnswer (p : Pool Op.Res Moment (Option HttpResponse)) : Option HttpResponse :=
  match p.threads 0 with
  | some (.ret r) => r
  | _ => none

theorem firstAnswer_eq_some {p : Pool Op.Res Moment (Option HttpResponse)} {res : HttpResponse}
    (h : firstAnswer p = some res) : p.threads 0 = some (.ret (some res)) := by
  unfold firstAnswer at h
  split at h
  · rename_i r hp
    rw [hp, h]
  · cases h

/-- The first process initialises the state and answers a `GET`; the second one accepts a `PUT`. -/
theorem sample_lives : ∃ (l l' : Life) (res res' : HttpResponse) (etag : HeaderValue),
    Lives .defaults sampleSerde sampleExtract [l] l' ∧ l.Answered getRequest res ∧ l'.Answered putRequest res' ∧
    res.body = .state (.initial 0) ∧ res'.body = .state sampleState ∧ res.etag = some etag ∧ etag.bytes = [34, 48, 34] ∧
    history [l', l] = [.initial 0, .initial 0, sampleState] := by
  have hrun : ((lifeOf 6 1 [.request getRequest] ⟨none, none, fun _ => none, fun _ => none, fun _ => false⟩).bind fun a =>
      (lifeOf 3 7 [.request putRequest] a.2.shared.now.disk).map fun b =>
        ((firstAnswer a.2).map fun res => (res.body, res.etag.map HeaderValue.bytes),
          (firstAnswer b.2).map HttpResponse.body, versions a.1 a.2.shared.log, versions b.1 b.2.shared.log)) =
      some (some (.state (.initial 0), some [34, 48, 34]), some (.state sampleState), [.initial 0],
        [.initial 0, sampleState]) := by
    decide +kernel
  obtain ⟨⟨x₁, p₁⟩, hlife₁, hrun⟩ := Option.bind_eq_some_iff.1 hrun
  obtain ⟨⟨x₂, p₂⟩, hlife₂, hres⟩ := Option.map_eq_some_iff.1 hrun
  simp only [Prod.mk.injEq] at hres
  obtain ⟨hget, hput, hfirst, hsecond⟩ := hres
  obtain ⟨res, hres, hbody⟩ := Option.map_eq_some_iff.1 hget
  obtain ⟨res', hres', hbody'⟩ := Option.map_eq_some_iff.1 hput
  obtain ⟨hbody, hetag⟩ := Prod.mk.inj hbody
  obtain ⟨etag, hetag, hbytes⟩ := Option.map_eq_some_iff.1 hetag
  have hlives₁ := lives_of_lifeOf hlife₁ (.first _)
  have hlives₂ := lives_of_lifeOf hlife₂ (hlives₁.stop _ rfl)
  refine ⟨_, _, res, res', etag, hlives₂, ⟨0, rfl, firstAnswer_eq_some hres⟩, ⟨0, rfl, firstAnswer_eq_some hres'⟩, hbody,
    hbody', hetag, hbytes, ?_⟩
  simp only [history, List.reverse_cons, List.reverse_nil, List.nil_append, List.cons_append, List.flatMap_cons,
    List.flatMap_nil, List.append_nil, Life.states, hfirst, hsecond]

end Samples

theorem lives_lineage_sample : ∃ l l' : Life, Lineage (Succeeds (OfferedIn sampleExtract [l', l])) (history [l', l]) ∧
    history [l', l] = [.initial 0, .initial 0, sampleState] ∧ sampleState ∈ l'.states := by
  obtain ⟨l, l', res, res', etag, hlives, -, hput, -, hbody', -, -, hhistory⟩ := sample_lives
  obtain ⟨hlineage, hseen⟩ := lives_lineage hlives
  exact ⟨l, l', hlineage, hhistory, hseen l' List.mem_cons_self _ _ _ hput hbody'⟩

end NginxAdmin.Daemon
