import NginxAdmin.Daemon.Accepted
import NginxAdmin.Daemon.Convergence
import NginxAdmin.Daemon.Restart

/-!
# What a stored state is like

`ControlPlaneState.Conforms` says in plain terms which states may be stored, with no reference to how
`validate_state` goes about its checks. `validateState` accepts exactly these states, and the store of a
process never holds any other: it is created with a state that passed the check, and only a `put_state` that
has checked its draft replaces it.
-/

namespace NginxAdmin.Daemon

/-- `word` occurs in `text`, in whatever case. -/
def Mentions (word text : String) : Prop :=
  ∃ x w y, text.toList = x ++ w ++ y ∧ w.map Char.toLower = word.toList

def sensitiveNames : List String :=
  ["token", "secret", "password", "passphrase", "private", "auth", "credential", "key", "jwt", "session", "cookie"]

def forbiddenKeywords : List String :=
  ["authorization", "cookie", "proxy_set_header auth", "password", "token", "secret", "credential", "jwt", "session"]

/-- The text between the first `://` and the next `/`, `?` or `#`, or the end, holds an `@`. -/
def HasUserInfo (target : String) : Prop :=
  ∃ before authority after, target.toList = before ++ "://".toList ++ (authority ++ after) ∧
    (∀ x, x ++ "://".toList <+: target.toList → before.length ≤ x.length) ∧
    (∀ c ∈ authority, c ∉ ['/', '?', '#']) ∧ (∀ c ∈ after.head?, c ∈ ['/', '?', '#']) ∧ '@' ∈ authority

structure Header.Conforms (header : Header) : Prop where
  name : ∀ word ∈ sensitiveNames, ¬ Mentions word header.name
  value : ∀ word ∈ forbiddenKeywords, ¬ Mentions word header.value

structure Route.Conforms (route : Route) : Prop where
  path : ∃ rest, route.path.toList = '/' :: rest
  headers : ∀ header ∈ route.headers.getD [], header.Conforms
  link : ∀ v ∈ route.action.link, ¬ HasUserInfo v ∧ ∀ word ∈ forbiddenKeywords, ¬ Mentions word v

structure Server.Conforms (server : Server) : Prop where
  id : Text.trim server.id ≠ ""
  listens : server.listen.Pairwise fun a b =>
    (a.port, a.ssl, a.http2.getD false, a.defaultServer.getD false) ≠
      (b.port, b.ssl, b.http2.getD false, b.defaultServer.getD false)
  directives : ∀ d ∈ server.extraDirectives.getD [], ∀ word ∈ forbiddenKeywords, ¬ Mentions word d
  paths : server.routes.Pairwise fun a b => a.path ≠ b.path
  routes : ∀ route ∈ server.routes, route.Conforms

def ControlPlaneState.Conforms (state : ControlPlaneState) : Prop :=
  ∀ server ∈ state.servers, server.Conforms

theorem any_contains_eq_false {words : List String} {text : String} :
    (words.any fun word => Text.contains (Text.toAsciiLowercase text) word) = false ↔
      ∀ word ∈ words, ¬ Mentions word text := by
  rw [List.any_eq_false]
  exact forall₂_congr fun word _ => not_congr Text.contains_toAsciiLowercase

theorem isSensitiveName_eq_false {text : String} :
    isSensitiveName text = false ↔ ∀ word ∈ sensitiveNames, ¬ Mentions word text :=
  any_contains_eq_false

theorem containsSensitiveDirective_eq_false {text : String} :
    containsSensitiveDirective text = false ↔ ∀ word ∈ forbiddenKeywords, ¬ Mentions word text :=
  any_contains_eq_false

theorem targetContainsCredentials_iff {target : String} :
    targetContainsCredentials target = true ↔ HasUserInfo target := by
  have hmark : ∀ c : Char, decide (c ≠ '/' ∧ c ≠ '?' ∧ c ≠ '#') = true ↔ c ∉ ['/', '?', '#'] := by
    intro c
    simp
  unfold targetContainsCredentials
  constructor
  · intro h
    cases hrest : Text.afterFirst "://".toList target.toList with
    | none => rw [hrest] at h; cases h
    | some rest =>
      rw [hrest] at h
      obtain ⟨before, htarget, hfirst⟩ := Text.afterFirst_eq_some_iff.1 hrest
      refine ⟨before, rest.takeWhile fun c => decide (c ≠ '/' ∧ c ≠ '?' ∧ c ≠ '#'),
        rest.dropWhile fun c => decide (c ≠ '/' ∧ c ≠ '?' ∧ c ≠ '#'), ?_, hfirst, fun c hc => ?_, fun c hc => ?_,
        of_decide_eq_true h⟩
      · rw [List.takeWhile_append_dropWhile, htarget]
      · exact (hmark c).1 (List.mem_takeWhile_imp (p := fun c => decide (c ≠ '/' ∧ c ≠ '?' ∧ c ≠ '#')) hc)
      · have hstop := List.head?_dropWhile_not (fun c => decide (c ≠ '/' ∧ c ≠ '?' ∧ c ≠ '#')) rest
        rw [Option.mem_def.1 hc] at hstop
        exact not_not.1 fun hne => Bool.false_ne_true (hstop.symm.trans ((hmark c).2 hne))
  · rintro ⟨before, authority, after, htarget, hfirst, hauthority, hafter, hat⟩
    rw [Text.afterFirst_eq_some_iff.2 ⟨before, htarget, hfirst⟩]
    have hcut := takeWhile_of_all (p := fun c => decide (c ≠ '/' ∧ c ≠ '?' ∧ c ≠ '#'))
      (fun c hc => (hmark c).2 (hauthority c hc)) fun c hc => Bool.eq_false_iff.2 fun h => (hmark c).1 h (hafter c hc)
    rw [decide_eq_true_eq, hcut.1]
    exact hat

theorem targetContainsCredentials_eq_false {target : String} :
    targetContainsCredentials target = false ↔ ¬ HasUserInfo target := by
  rw [← targetContainsCredentials_iff, Bool.not_eq_true]

theorem startsWithChar_iff {s : String} {c : Char} :
    Text.startsWithChar s c = true ↔ ∃ rest, s.toList = c :: rest := by
  rw [Text.startsWithChar, beq_iff_eq, List.head?_eq_some_iff]

theorem Route.accepted_iff {route : Route} : route.Accepted ↔ route.Conforms := by
  constructor
  · intro h
    refine ⟨startsWithChar_iff.1 h.path, fun header hh => ?_, fun v hv => ?_⟩
    · obtain ⟨hname, hvalue⟩ := h.headers header hh
      exact ⟨isSensitiveName_eq_false.1 hname, containsSensitiveDirective_eq_false.1 hvalue⟩
    · obtain ⟨huser, hword⟩ := h.link v hv
      exact ⟨targetContainsCredentials_eq_false.1 huser, containsSensitiveDirective_eq_false.1 hword⟩
  · intro h
    refine ⟨startsWithChar_iff.2 h.path, fun header hh => ?_, fun v hv => ?_⟩
    · obtain ⟨hname, hvalue⟩ := h.headers header hh
      exact ⟨isSensitiveName_eq_false.2 hname, containsSensitiveDirective_eq_false.2 hvalue⟩
    · obtain ⟨huser, hword⟩ := h.link v hv
      exact ⟨targetContainsCredentials_eq_false.2 huser, containsSensitiveDirective_eq_false.2 hword⟩

theorem Server.accepted_iff {server : Server} : server.Accepted ↔ server.Conforms := by
  have hdirectives : (∀ d ∈ server.extraDirectives.getD [], containsSensitiveDirective d = false) ↔
      ∀ d ∈ server.extraDirectives.getD [], ∀ word ∈ forbiddenKeywords, ¬ Mentions word d :=
    forall₂_congr fun _ _ => containsSensitiveDirective_eq_false
  constructor
  · intro h
    exact ⟨h.id, List.pairwise_map.1 h.listens, hdirectives.1 h.directives, List.pairwise_map.1 h.paths,
      fun route hr => Route.accepted_iff.1 (h.routes route hr)⟩
  · intro h
    exact ⟨h.id, List.pairwise_map.2 h.listens, hdirectives.2 h.directives, List.pairwise_map.2 h.paths,
      fun route hr => Route.accepted_iff.2 (h.routes route hr)⟩

theorem validateState_iff_conforms (state : ControlPlaneState) :
    validateState state = .ok () ↔ state.Conforms := by
  rw [validateState_ok_iff]
  exact forall₂_congr fun _ _ => Server.accepted_iff

/-- A state that is put behind the lock has been validated. -/
def Op.StoresValid : Op → Prop
  | writeState state => validateState state = .ok ()
  | _ => True

theorem Op.OfCall.storesValid {o : Op} (h : o.OfCall) : o.StoresValid := by
  cases o <;> first | exact trivial | exact h.elim

section Threads

variable {cfg : DaemonConfig} {serde : Serde}

theorem writeStateFile_storesValid (x : ControlPlaneState) : (writeStateFile serde x).run.All Op.StoresValid := by
  refine all_bind (all_check _) fun _ => ?_
  exact all_bind (all_attempt (.perform (o := Op.writeStateTmp _) trivial)) fun _ =>
    all_attempt (.perform (o := Op.renameStateTmp) trivial)

theorem putStateLocked_storesValid (current : ControlPlaneState) (expected : UInt64) (draft : ControlPlaneState) :
    (putStateLocked serde current expected draft).run.All Op.StoresValid := by
  unfold putStateLocked
  split
  · exact trivial
  split
  · exact trivial
  refine all_bind (all_ask (o := .now) trivial) fun now => all_check_bind fun _ hvalid => ?_
  refine all_bind (writeStateFile_storesValid _) fun _ => all_bind (all_ask hvalid) fun _ => ?_
  exact all_bind (all_ask (o := .updateStatus _) trivial) fun _ => trivial

theorem request_storesValid (req : Request) : (req.code cfg serde).All Op.StoresValid := by
  cases req with
  | getState => exact .bind (.perform (o := Op.readState) trivial) fun _ => trivial
  | getStatus => exact .bind (.perform (o := Op.readStatus) trivial) fun _ => trivial
  | putState expected draft =>
    refine .bind (.bind (.perform (o := Op.lockState) trivial) fun current => ?_) fun _ => trivial
    exact .bind (putStateLocked_storesValid current expected draft) fun _ =>
      .bind (.perform (o := Op.unlockState) trivial) fun _ => trivial
  | reconcile =>
    refine .bind (.bind (.perform (o := Op.lockApply) trivial) fun _ => ?_) fun _ => trivial
    refine .bind ((reconcileLocked_ofCall cfg).mono fun _ => Op.OfCall.storesValid) fun _ => ?_
    exact .bind (.perform (o := Op.unlockApply) trivial) fun _ => trivial
  | externalEdit content => exact .bind (.perform (o := Op.externalEdit ..) trivial) fun _ => trivial
  | finishJob => exact .bind (.perform (o := Op.runJob) trivial) fun _ => trivial

/-- Dropped requests and failed operations included. -/
theorem valid_of_reach {w : World} {reqs : List Request} {p : Pool Op.Res Moment Response}
    (hp : (start cfg serde w reqs).Reach machine.machine p) (hw : validateState w.state = .ok ()) :
    validateState p.shared.now.state = .ok () := by
  refine (hp.all (K := Op.StoresValid) (I := fun s => validateState s.now.state = .ok ()) hw ?_ ?_ ?_).1
  · intro t q hq
    obtain ⟨req, -, rfl⟩ := Option.map_eq_some_iff.1 hq
    exact request_storesValid req
  · intro t o s r s' ho hs hstep
    obtain ⟨⟨c, -, hexec⟩, -⟩ := Exec.traced_step.1 hstep
    rcases state_of_exec hexec with hsame | hwrite
    · exact hsame ▸ hs
    · rw [hwrite] at ho
      exact ho
  · intro t o s s' hs hdrop
    obtain ⟨hcancel, -⟩ := Exec.traced_cancel.1 hdrop
    have hsame : s'.now.state = s.now.state := by
      rcases cancel_cases hcancel with h | ⟨jobs, -, h⟩ <;> rw [h] <;> rfl
    exact hsame ▸ hs

theorem returns_loadOrInit : (loadOrInit serde).run.Returns fun r => ∀ x status, r = .ok (x, status) →
    validateState x = .ok () := by
  refine Prog.Returns.tryBind (Prog.returns_true _) (fun x _ => ?_) fun e _ x status h => by cases h
  refine Prog.Returns.tryBind (x := check _) (R := fun r => r = validateState x) rfl (fun _ hvalid => ?_)
    fun e _ x status h => by cases h
  refine Prog.Returns.tryBind (Prog.returns_true _) (fun _ _ => ?_) fun e _ x status h => by cases h
  rintro x' status h
  obtain ⟨rfl, -⟩ := Prod.mk.inj (Except.ok.inj h)
  exact hvalid.symm

end Threads

/-- `validate_state` decides `Conforms`, and the store of a process that loaded its state from any disk holds a
conforming state at every moment of every run. -/
theorem validateState_decides (cfg : DaemonConfig) (serde : Serde) :
    (∀ state, validateState state = .ok () ↔ state.Conforms) ∧
    ∀ disk q x status, (load serde disk).Reach machine.machine q → q.threads 0 = some (.ret (.ok (x, status))) →
      ∀ disk' reqs p, (start cfg serde (.loaded x status disk') reqs).Reach machine.machine p →
        p.shared.now.state.Conforms := by
  refine ⟨validateState_iff_conforms, fun disk q x status hload hret disk' reqs p hp => ?_⟩
  have hloaded : validateState x = .ok () := by
    have hreturns := hload.returns (t := 0) (R := fun r => ∀ x status, r = .ok (x, status) → validateState x = .ok ())
      fun q hq => by
        obtain rfl : (loadOrInit serde).run = q := Option.some.inj hq
        exact returns_loadOrInit
    exact hreturns _ hret x status rfl
  exact (validateState_iff_conforms _).1 (valid_of_reach hp hloaded)

theorem validateState_decides_sample : ∃ q x status p, (load sampleSerde renderedDisk).Reach machine.machine q ∧
    q.threads 0 = some (.ret (.ok (x, status))) ∧
    (start .defaults sampleSerde (.loaded x status renderedDisk) [.putState 0 sampleDraft]).Reach machine.machine p ∧
    p.shared.now.state.revision = 1 ∧ p.shared.now.state.Conforms := by
  have hload : ((machine.schedule (turns 0 3) (load sampleSerde renderedDisk)).bind loadResult).isSome := by
    decide +kernel
  obtain ⟨⟨x, status⟩, hr⟩ := Option.isSome_iff_exists.1 hload
  obtain ⟨q, hq, hret⟩ := Option.bind_eq_some_iff.1 hr
  have hput : ((machine.schedule (turns 0 3) (load sampleSerde renderedDisk)).bind loadResult).bind (fun r =>
      (machine.schedule (turns 0 7) (start .defaults sampleSerde (.loaded r.1 r.2 renderedDisk)
        [.putState 0 sampleDraft])).map fun p => p.shared.now.state.revision) = some 1 := by
    decide +kernel
  rw [hr, Option.bind_some] at hput
  obtain ⟨p, hp, hrev⟩ := Option.map_eq_some_iff.1 hput
  have hreach := Exec.reach_of_schedule hp
  exact ⟨q, x, status, p, Exec.reach_of_schedule hq, loadResult_eq_some hret, hreach, hrev,
    (validateState_decides .defaults sampleSerde).2 _ _ _ _ (Exec.reach_of_schedule hq) (loadResult_eq_some hret) _ _ _
      hreach⟩

end NginxAdmin.Daemon
