import NginxAdmin.Desktop.Bootstrap
import NginxAdmin.Desktop.SSHExecutor

/-!
# The handlers of the bootstrap (`registerBootstrapHandlers.ts`)

What a window may have run on the host. `install_in_order`: a page that is not trusted has nothing run; any other one has
the four commands of the settings run in their order, each only after the one before it has succeeded, whatever the page
asks for.
-/

namespace NginxAdmin.Desktop

open Web (redactPotentialSecrets)

namespace SSHExecutor

/-- `runShell` of an executor with `maxRetries`; `world` are the attempts. -/
def shellLoop (maxRetries : Nat) (command : String) (world : Nat → Attempt) : Loop :=
  execWithRetry (.number maxRetries) command world (maxRetries + 1)

def runShell (maxRetries : Nat) (command : String) (world : Nat → Attempt) : Except ExecError String :=
  (shellLoop maxRetries command world).outcome.getD (.error (.remote "SSH execution failed" "SSH_EXEC_FAILED"))

/-- The first `n` attempts have failed to connect, and their delays have passed. -/
def Retried (world : Nat → Attempt) (n : Nat) : Prop :=
  ∀ j < n, (∃ e, (world j).result = .error e ∧ isConnectFailed e = true) ∧ (world j).delayAborted = false

/-- How many of the first `n` attempts run the command. -/
def execCount (world : Nat → Attempt) (n : Nat) : Nat := (List.range n).countP fun j => (world j).executes

/-- The attempt ran the command, which succeeded with `output`. -/
def Attempt.Succeeds (a : Attempt) (output : String) : Prop :=
  a.executes = true ∧ ∃ stdout stderr, a.ending = .closed (.code 0) stdout stderr ∧ output = Js.trim stdout

/-- The attempt after `n` retries is the last one, and it succeeds. -/
def Passes (maxRetries : Nat) (world : Nat → Attempt) (n : Nat) (output : String) : Prop :=
  n ≤ maxRetries ∧ Retried world n ∧ (world n).Succeeds output

/-- The attempt after `n` retries is the last one, and it fails: its error allows no retry, or the delay is aborted. -/
def Fails (maxRetries : Nat) (world : Nat → Attempt) (n : Nat) (e : ExecError) : Prop :=
  n ≤ maxRetries ∧ Retried world n ∧ ∃ e', (world n).result = .error e' ∧
    (e = e' ∧ (n = maxRetries ∨ isConnectFailed e' = false) ∨ e = .aborted ∧ (world n).delayAborted = true)

variable {maxRetries : Nat} {command : String} {world : Nat → Attempt} {n m : Nat} {output : String} {e : ExecError}

theorem succeeds_of_result {a : Attempt} {output : String} (h : a.result = .ok output) : a.Succeeds output := by
  rw [Attempt.result] at h
  cases hclient : a.client with
  | error e => rw [hclient] at h; cases h
  | ok u =>
    rw [hclient] at h
    cases hsignal : a.signalled with
    | true => rw [hsignal] at h; cases h
    | false =>
      rw [hsignal] at h
      refine ⟨by simp [Attempt.executes, hclient, hsignal], ?_⟩
      cases hending : a.ending with
      | closed exit stdout stderr =>
        simp only [hending, Ending.result, Bool.false_eq_true, if_false] at h
        split at h
        · split at h <;> cases h
        · rename_i hexit
          obtain rfl : exit = .code 0 := not_not.1 hexit
          exact ⟨stdout, stderr, rfl, (Except.ok.inj h).symm⟩
      | thrown message => rw [hending] at h; cases h
      | openFailed message => rw [hending] at h; cases h
      | aborted => rw [hending] at h; cases h
      | timedOut => rw [hending] at h; cases h

theorem Attempt.Succeeds.result {a : Attempt} {output : String} (h : a.Succeeds output) : a.result = .ok output := by
  obtain ⟨hexecutes, stdout, stderr, hending, rfl⟩ := h
  unfold Attempt.executes at hexecutes
  unfold Attempt.result
  cases hclient : a.client with
  | error e => rw [hclient] at hexecutes; cases hexecutes
  | ok u =>
    rw [hclient] at hexecutes
    have hsignal : a.signalled = false := by simpa using hexecutes
    simp [hsignal, hending, Ending.result]

/-- A command does not come to two ends. -/
theorem not_fails_of_passes (h : Passes maxRetries world n output) : ¬ Fails maxRetries world m e := by
  rintro ⟨hm, hretried, e', he', hend⟩
  rcases Nat.lt_trichotomy n m with hlt | rfl | hlt
  · obtain ⟨⟨e'', he'', -⟩, -⟩ := hretried n hlt
    rw [h.2.2.result] at he''
    cases he''
  · rw [h.2.2.result] at he'
    cases he'
  · obtain ⟨⟨e'', he'', hcode⟩, hdelay⟩ := h.2.1 m hlt
    rw [he', Except.error.injEq] at he''
    subst he''
    rcases hend with ⟨-, rfl | hno⟩ | ⟨-, haborted⟩
    · exact absurd h.1 (by omega)
    · rw [hcode] at hno
      cases hno
    · rw [hdelay] at haborted
      cases haborted

theorem execCount_succ (world : Nat → Attempt) (n : Nat) :
    execCount world (n + 1) = execCount world n + if (world n).executes then 1 else 0 := by
  rw [execCount, execCount, List.range_succ, List.countP_append, List.countP_singleton]

/-- The loop goes on after `n` retries. -/
structure Going (maxRetries : Nat) (command : String) (world : Nat → Attempt) (n : Nat) (l : Loop) : Prop where
  outcome : l.outcome = none
  attempt : l.attempt = n
  le : n ≤ maxRetries
  retried : Retried world n
  execs : l.execs = List.replicate (execCount world n) command

/-- The loop has come to an end after `n` retries. -/
def Ended (maxRetries : Nat) (command : String) (world : Nat → Attempt) (n : Nat) (l : Loop) : Prop :=
  l.execs = List.replicate (execCount world (n + 1)) command ∧
    ((∃ output, l.outcome = some (.ok output) ∧ Passes maxRetries world n output) ∨
      ∃ e, l.outcome = some (.error e) ∧ Fails maxRetries world n e)

theorem Going.next {l : Loop} (h : Going maxRetries command world n l) :
    Going maxRetries command world (n + 1) (l.next (.number maxRetries) command (world n)) ∨
      Ended maxRetries command world n (l.next (.number maxRetries) command (world n)) := by
  have hallows : Retries.allows (.number maxRetries) l.attempt = true := by
    rw [h.attempt, Retries.allows, decide_eq_true_iff]
    exact_mod_cast Nat.lt_succ_of_le h.le
  have hagain : Retries.allows (.number maxRetries) (n + 1) = true ↔ n + 1 ≤ maxRetries := by
    rw [Retries.allows, decide_eq_true_iff]
    exact_mod_cast Nat.lt_succ_iff
  have hexecs : (if (world n).executes then l.execs ++ [command] else l.execs) =
      List.replicate (execCount world (n + 1)) command := by
    rw [h.execs, execCount_succ]
    split
    · rw [List.replicate_succ']
    · rw [Nat.add_zero]
  cases hresult : (world n).result with
  | ok output =>
    right
    rw [Loop.next, h.outcome]
    simp only [hallows, if_true, hresult]
    exact ⟨hexecs, .inl ⟨output, rfl, h.le, h.retried, succeeds_of_result hresult⟩⟩
  | error e =>
    rw [next_error h.outcome hallows hresult, Loop.failed]
    simp only [h.attempt]
    cases hretry : shouldRetry (.number maxRetries) e (n + 1) with
    | true =>
      obtain ⟨hle, hcode⟩ : n + 1 ≤ maxRetries ∧ isConnectFailed e = true := by
        simpa [shouldRetry, hagain] using hretry
      cases hdelay : (world n).delayAborted with
      | true => exact .inr ⟨hexecs, .inr ⟨_, rfl, h.le, h.retried, e, hresult, .inr ⟨rfl, hdelay⟩⟩⟩
      | false =>
        refine .inl ⟨h.outcome, rfl, hle, fun j hj => ?_, hexecs⟩
        rcases Nat.lt_succ_iff_lt_or_eq.1 hj with hj | rfl
        · exact h.retried j hj
        · exact ⟨⟨e, hresult, hcode⟩, hdelay⟩
    | false =>
      refine .inr ⟨hexecs, .inr ⟨e, rfl, h.le, h.retried, e, hresult, .inl ⟨rfl, ?_⟩⟩⟩
      have hle := h.le
      rw [shouldRetry, Bool.and_eq_false_iff] at hretry
      refine hretry.imp_left fun hno => ?_
      have hlast : ¬ n + 1 ≤ maxRetries := fun h => by rw [hagain.2 h] at hno; cases hno
      omega

theorem going_or_ended (maxRetries : Nat) (command : String) (world : Nat → Attempt) (n : Nat) :
    Going maxRetries command world n (execWithRetry (.number maxRetries) command world n) ∨
      ∃ m, Ended maxRetries command world m (execWithRetry (.number maxRetries) command world n) := by
  induction n with
  | zero => exact .inl ⟨rfl, rfl, Nat.zero_le _, fun j hj => absurd hj (Nat.not_lt_zero j), rfl⟩
  | succ n ih =>
    rw [execWithRetry]
    rcases ih with hgoing | ⟨m, hended⟩
    · exact hgoing.next.imp_right fun h => ⟨n, h⟩
    · right
      have hsome : ∃ r, (execWithRetry (.number maxRetries) command world n).outcome = some r := by
        rcases hended.2 with ⟨output, ho, -⟩ | ⟨e, ho, -⟩
        · exact ⟨_, ho⟩
        · exact ⟨_, ho⟩
      obtain ⟨r, ho⟩ := hsome
      rw [Loop.next_of_outcome ho]
      exact ⟨m, hended⟩

/-- A command comes to an end, and what is run and returned is that of its attempts. -/
theorem runShell_spec (maxRetries : Nat) (command : String) (world : Nat → Attempt) :
    ∃ n, (shellLoop maxRetries command world).execs = List.replicate (execCount world (n + 1)) command ∧
      ((∃ output, runShell maxRetries command world = .ok output ∧ Passes maxRetries world n output) ∨
        ∃ e, runShell maxRetries command world = .error e ∧ Fails maxRetries world n e) := by
  rcases going_or_ended maxRetries command world (maxRetries + 1) with hgoing | ⟨n, hexecs, hended⟩
  · exact absurd hgoing.le (Nat.not_succ_le_self maxRetries)
  · have hrun : ∀ r, (execWithRetry (.number maxRetries) command world (maxRetries + 1)).outcome = some r →
        runShell maxRetries command world = r := fun r hr => by rw [runShell, shellLoop, hr, Option.getD_some]
    refine ⟨n, hexecs, ?_⟩
    rcases hended with ⟨output, ho, hpasses⟩ | ⟨e, ho, hfails⟩
    · exact .inl ⟨output, hrun _ ho, hpasses⟩
    · exact .inr ⟨e, hrun _ ho, hfails⟩

/-- A command of the bootstrap, with the time that it is given. -/
structure Timed where
  command : String
  timeoutMs : Int
deriving DecidableEq

/-- Runs the commands one after the other, with the outputs; the `i`-th one meets the attempts `world i`. -/
def runShells (maxRetries : Nat) (world : Nat → Nat → Attempt) : Nat → List Timed → List Timed × Except ExecError (List String)
  | _, [] => ([], .ok [])
  | i, c :: rest =>
    let ran := (shellLoop maxRetries c.command (world i)).execs.map fun command => ⟨command, c.timeoutMs⟩
    match runShell maxRetries c.command (world i) with
    | .error e => (ran, .error e)
    | .ok output =>
      let (more, r) := runShells maxRetries world (i + 1) rest
      (ran ++ more, r.map (output :: ·))

/-- The commands are run in their order, each as often as its attempts get that far: the first one whose attempts fail is
the last one that is run, and its error is the result. -/
inductive InOrder (maxRetries : Nat) (world : Nat → Nat → Attempt) :
    Nat → List Timed → List Timed → Except ExecError (List String) → Prop
  | done (i : Nat) : InOrder maxRetries world i [] [] (.ok [])
  | failed {i n : Nat} {e : ExecError} (c : Timed) (rest : List Timed) (h : Fails maxRetries (world i) n e) :
      InOrder maxRetries world i (c :: rest) (List.replicate (execCount (world i) (n + 1)) c) (.error e)
  | next {i n : Nat} {c : Timed} {rest ran : List Timed} {output : String} {r : Except ExecError (List String)}
      (h : Passes maxRetries (world i) n output) (hrest : InOrder maxRetries world (i + 1) rest ran r) :
      InOrder maxRetries world i (c :: rest) (List.replicate (execCount (world i) (n + 1)) c ++ ran) (r.map (output :: ·))

theorem inOrder_runShells (maxRetries : Nat) (world : Nat → Nat → Attempt) (i : Nat) (commands : List Timed) :
    InOrder maxRetries world i commands (runShells maxRetries world i commands).1
      (runShells maxRetries world i commands).2 := by
  induction commands generalizing i with
  | nil => exact .done i
  | cons c rest ih =>
    obtain ⟨n, hexecs, hresult⟩ := runShell_spec maxRetries c.command (world i)
    have hran : (shellLoop maxRetries c.command (world i)).execs.map (fun command => (⟨command, c.timeoutMs⟩ : Timed)) =
        List.replicate (execCount (world i) (n + 1)) c := by
      rw [hexecs, List.map_replicate]
    rw [runShells]
    rcases hresult with ⟨output, hrun, hpasses⟩ | ⟨e, hrun, hfails⟩
    · simp only [hran, hrun]
      exact .next hpasses (ih (i + 1))
    · simp only [hran, hrun]
      exact .failed c rest hfails

/-- The result is a success just when every command passes. -/
theorem InOrder.ok_iff {world : Nat → Nat → Attempt} {i : Nat} {commands ran : List Timed}
    {r : Except ExecError (List String)} (h : InOrder maxRetries world i commands ran r) :
    (∃ outputs, r = .ok outputs) ↔ ∀ j < commands.length, ∃ n output, Passes maxRetries (world (i + j)) n output := by
  induction h with
  | done i => simp
  | failed c rest hfails =>
    refine iff_of_false (fun ⟨_, h⟩ => by cases h) fun hall => ?_
    obtain ⟨n, output, hpasses⟩ := hall 0 (Nat.zero_lt_succ _)
    exact not_fails_of_passes hpasses hfails
  | @next i n c rest ran output r hpasses _ ih =>
    have hmap : (∃ outputs, r.map (output :: ·) = .ok outputs) ↔ ∃ outputs, r = .ok outputs := by
      cases r with
      | ok outputs => exact ⟨fun _ => ⟨outputs, rfl⟩, fun _ => ⟨_, rfl⟩⟩
      | error e => exact iff_of_false (fun ⟨_, h⟩ => by cases h) (fun ⟨_, h⟩ => by cases h)
    rw [hmap, ih, List.length_cons]
    constructor
    · intro hall j hj
      cases j with
      | zero => exact ⟨n, output, hpasses⟩
      | succ j =>
        rw [show i + (j + 1) = i + 1 + j by omega]
        exact hall j (by omega)
    · intro hall j hj
      rw [show i + 1 + j = i + (j + 1) by omega]
      exact hall (j + 1) (by omega)

end SSHExecutor

inductive HostStatus where
  | unknown
  | reachable
  | unreachable

structure HostMetadata where
  id : String
  name : String
  host : String
  port : Nat
  description : Option String
  createdAt : Option String
  updatedAt : Option String
  checkedAt : Option String
  latencyMs : Option Rat
  status : Option HostStatus

namespace BootstrapIpc

open SSHExecutor

/-- What the handlers are registered with, and what they find in the environment of the process. `origin` is
`new URL(text).origin`; `none` when the constructor throws. -/
structure Setting where
  metadata : HostMetadata
  maxRetries : Nat
  installScriptUrl : String
  serviceName : String
  healthCommand : String
  packaged : Bool
  rendererUrl : Option String
  origin : String → Option String

/-- `BootstrapInstallOptions`; a `timeoutMs` that is no finite number is `none`. -/
structure InstallOptions where
  installScriptUrl : String
  serviceName : String
  healthCommand : String
  timeoutMs : Option Rat

/-- A message on one of the channels. -/
inductive IpcRequest where
  | getContext
  | checkHost
  | installDaemon (options : Option InstallOptions)

inductive IpcData where
  | context (connection : HostMetadata) (defaults : InstallOptions)
  | reachable (checkedAt : String) (latencyMs : Int)
  | installed (installedAt name : String) (active enabled : Bool) (activeStateRaw enabledStateRaw output : String)

inductive IpcResult where
  | ok (data : IpcData)
  | failure (message code : String)

/-- `toIpcError`. -/
def toIpcError : ExecError → IpcResult
  | .remote message code => .failure (redactPotentialSecrets message) code
  | .other message => .failure (redactPotentialSecrets message) "BOOTSTRAP_FAILED"
  | .value => .failure "Unhandled bootstrap error" "BOOTSTRAP_FAILED"

/-- `Math.trunc`. -/
def trunc (x : Rat) : Int := if 0 ≤ x then x.floor else x.ceil

/-- `normalizeTimeout`. -/
def normalizeTimeout : Option Rat → Int
  | none => 120000
  | some value => min 300000 (max 5000 (trunc value))

def hasFileScheme (url : String) : Bool := "file://".toList.isPrefixOf url.toList

variable (s : Setting)

/-- `isTrustedSender`. -/
def isTrustedSender (frameUrl : String) : Bool :=
  if frameUrl = "" then false
  else if s.packaged then hasFileScheme frameUrl
  else
    match s.rendererUrl with
    | none | some "" => hasFileScheme frameUrl
    | some devUrl =>
      match s.origin devUrl, s.origin frameUrl with
      | some allowed, some actual => allowed == actual
      | _, _ => false

/-- The commands of the installation. -/
def commands (timeoutMs : Int) : List Timed :=
  [⟨installCommand s.installScriptUrl, timeoutMs⟩, ⟨isActiveCommand s.serviceName, 15000⟩,
    ⟨isEnabledCommand s.serviceName, 15000⟩, ⟨s.healthCommand, 15000⟩]

def marker : String := "__nginx_admin_ssh_ok__"

/-- `checkConnection`: one attempt. -/
def checkConnection (a : Attempt) : List Timed × Except ExecError Unit :=
  (if a.executes then [⟨"echo " ++ marker, 7000⟩] else [], a.result.bind fun output =>
    if output = marker then .ok ()
    else .error (.remote ("Unexpected SSH health-check output: " ++ output) "SSH_HEALTHCHECK_FAILED"))

/-- The handler of `BOOTSTRAP_INSTALL_DAEMON_CHANNEL`, for a trusted sender. -/
def installHandler (timeoutMs : Option Rat) (world : Nat → Nat → Attempt) (now : String) : List Timed × IpcResult :=
  let (ran, r) := runShells s.maxRetries world 0 (commands s (normalizeTimeout timeoutMs))
  match r with
  | .error e => (ran, toIpcError e)
  | .ok outputs =>
    let active := Js.trim (outputs.getD 1 "")
    let enabled := Js.trim (outputs.getD 2 "")
    (ran, .ok (.installed now s.serviceName (active == "active") (enabled == "enabled") active enabled
      (redactPotentialSecrets (Js.trim (outputs.getD 3 "")))))

/-- A message from the frame `frameUrl`, with what is run on the host and what is answered. `now` and `latencyMs` come
from the clock. -/
def handle (frameUrl : String) (req : IpcRequest) (world : Nat → Nat → Attempt) (now : String) (latencyMs : Int) :
    List Timed × IpcResult :=
  if isTrustedSender s frameUrl then
    match req with
    | .getContext =>
      ([], .ok (.context s.metadata ⟨s.installScriptUrl, s.serviceName, s.healthCommand, some 120000⟩))
    | .checkHost =>
      let (ran, r) := checkConnection (world 0 0)
      match r with
      | .error e => (ran, toIpcError e)
      | .ok () => (ran, .ok (.reachable now latencyMs))
    | .installDaemon options => installHandler s (options.bind InstallOptions.timeoutMs) world now
  else ([], .failure "Untrusted sender" "UNTRUSTED_SENDER")

variable {s}

theorem normalizeTimeout_bounds (value : Option Rat) : 5000 ≤ normalizeTimeout value ∧ normalizeTimeout value ≤ 300000 := by
  cases value with
  | none => decide
  | some x => exact ⟨le_min (by decide) (le_max_left ..), min_le_left ..⟩

theorem redacted_toIpcError {e : ExecError} {message code : String} (h : toIpcError e = .failure message code) :
    ∃ text, message = redactPotentialSecrets text := by
  cases e with
  | remote text c =>
    rw [toIpcError, IpcResult.failure.injEq] at h
    exact ⟨text, h.1.symm⟩
  | other text =>
    rw [toIpcError, IpcResult.failure.injEq] at h
    exact ⟨text, h.1.symm⟩
  | value =>
    rw [toIpcError, IpcResult.failure.injEq] at h
    exact ⟨"Unhandled bootstrap error", h.1 ▸ by decide +kernel⟩

/-- The answer tells how the commands have ended. -/
theorem installHandler_spec (timeoutMs : Option Rat) (world : Nat → Nat → Attempt) (now : String) :
    ∃ r, InOrder s.maxRetries world 0 (commands s (normalizeTimeout timeoutMs)) (installHandler s timeoutMs world now).1 r ∧
      (∀ e, r = .error e → (installHandler s timeoutMs world now).2 = toIpcError e) ∧
      ∀ outputs, r = .ok outputs → ∃ data, (installHandler s timeoutMs world now).2 = .ok data := by
  have hran := inOrder_runShells s.maxRetries world 0 (commands s (normalizeTimeout timeoutMs))
  unfold installHandler
  generalize runShells s.maxRetries world 0 (commands s (normalizeTimeout timeoutMs)) = out at hran ⊢
  obtain ⟨ran, r⟩ := out
  cases r with
  | ok outputs => exact ⟨_, hran, fun e h => (by cases h), fun _ _ => ⟨_, rfl⟩⟩
  | error e => exact ⟨_, hran, fun e' h => (by cases h; rfl), fun _ h => by cases h⟩

theorem toIpcError_ne_ok {e : ExecError} {data : IpcData} : toIpcError e ≠ .ok data := by
  cases e <;> exact fun h => by cases h

/-- The answer of the installation is a success just when its four commands pass. -/
theorem installHandler_ok_iff (timeoutMs : Option Rat) (world : Nat → Nat → Attempt) (now : String) :
    (∃ data, (installHandler s timeoutMs world now).2 = .ok data) ↔
      ∀ j < 4, ∃ n output, Passes s.maxRetries (world j) n output := by
  obtain ⟨r, hran, herror, hok⟩ := installHandler_spec (s := s) timeoutMs world now
  have hpass := hran.ok_iff
  simp only [Nat.zero_add] at hpass
  rw [show 4 = (commands s (normalizeTimeout timeoutMs)).length from rfl, ← hpass]
  constructor
  · rintro ⟨data, hdata⟩
    cases r with
    | ok outputs => exact ⟨outputs, rfl⟩
    | error e => exact absurd ((herror e rfl).symm.trans hdata) toIpcError_ne_ok
  · rintro ⟨outputs, hr⟩
    exact hok outputs hr

theorem redacted_installHandler {timeoutMs : Option Rat} {world : Nat → Nat → Attempt} {now message code : String}
    (h : (installHandler s timeoutMs world now).2 = .failure message code) : ∃ text, message = redactPotentialSecrets text := by
  obtain ⟨r, -, herror, hok⟩ := installHandler_spec (s := s) timeoutMs world now
  cases r with
  | ok outputs =>
    obtain ⟨data, hdata⟩ := hok outputs rfl
    cases hdata.symm.trans h
  | error e => exact redacted_toIpcError ((herror e rfl).symm.trans h)

/-- The handler of `BOOTSTRAP_CHECK_HOST_CHANNEL` runs its marker, if anything. -/
theorem mem_checkConnection {a : Attempt} {c : Timed} (h : c ∈ (checkConnection a).1) : c = ⟨"echo " ++ marker, 7000⟩ := by
  simp only [checkConnection] at h
  split at h
  · exact List.mem_singleton.1 h
  · cases h

theorem handle_untrusted {frameUrl : String} (h : isTrustedSender s frameUrl = false) (req : IpcRequest)
    (world : Nat → Nat → Attempt) (now : String) (latencyMs : Int) :
    handle s frameUrl req world now latencyMs = ([], .failure "Untrusted sender" "UNTRUSTED_SENDER") := by
  simp only [handle, h, Bool.false_eq_true, if_false]

theorem handle_installDaemon {frameUrl : String} (h : isTrustedSender s frameUrl = true) (options : Option InstallOptions)
    (world : Nat → Nat → Attempt) (now : String) (latencyMs : Int) :
    handle s frameUrl (.installDaemon options) world now latencyMs =
      installHandler s (options.bind InstallOptions.timeoutMs) world now := by
  simp only [handle, h, if_true]

theorem mem_handle {frameUrl : String} {req : IpcRequest} (hreq : ∀ options, req ≠ .installDaemon options)
    {world : Nat → Nat → Attempt} {now : String} {latencyMs : Int} {c : Timed}
    (hc : c ∈ (handle s frameUrl req world now latencyMs).1) : c = ⟨"echo " ++ marker, 7000⟩ := by
  cases htrusted : isTrustedSender s frameUrl with
  | false =>
    rw [handle_untrusted htrusted] at hc
    cases hc
  | true =>
    simp only [handle, htrusted, if_true] at hc
    cases req with
    | getContext => cases hc
    | checkHost =>
      refine mem_checkConnection (a := world 0 0) ?_
      simp only at hc
      split at hc <;> exact hc
    | installDaemon options => exact absurd rfl (hreq options)

theorem redacted_handle {frameUrl : String} {req : IpcRequest} {world : Nat → Nat → Attempt} {now : String}
    {latencyMs : Int} {message code : String} (h : (handle s frameUrl req world now latencyMs).2 = .failure message code) :
    ∃ text, message = redactPotentialSecrets text := by
  cases htrusted : isTrustedSender s frameUrl with
  | false =>
    rw [handle_untrusted htrusted, IpcResult.failure.injEq] at h
    exact ⟨"Untrusted sender", h.1 ▸ by decide +kernel⟩
  | true =>
    cases req with
    | getContext =>
      simp only [handle, htrusted, if_true] at h
      cases h
    | checkHost =>
      simp only [handle, htrusted, if_true] at h
      split at h
      · exact redacted_toIpcError h
      · cases h
    | installDaemon options =>
      rw [handle_installDaemon htrusted] at h
      exact redacted_installHandler h

/-- A page that is not trusted has nothing run and learns nothing. For any other page, whatever it asks for and however
the host behaves: an installation runs the commands of the settings in their order, and is reported as done just when all
of them pass; a check runs at most its marker. What is said of an error is redacted. -/
theorem install_in_order (s : Setting) (frameUrl : String) (world : Nat → Nat → Attempt) (now : String) (latencyMs : Int) :
    (∀ req, isTrustedSender s frameUrl = false →
      handle s frameUrl req world now latencyMs = ([], .failure "Untrusted sender" "UNTRUSTED_SENDER")) ∧
    (∀ options, isTrustedSender s frameUrl = true →
      (∃ timeoutMs r, 5000 ≤ timeoutMs ∧ timeoutMs ≤ 300000 ∧
        InOrder s.maxRetries world 0 (commands s timeoutMs)
          (handle s frameUrl (.installDaemon options) world now latencyMs).1 r ∧
        ∀ e, r = .error e → (handle s frameUrl (.installDaemon options) world now latencyMs).2 = toIpcError e) ∧
      ((∃ data, (handle s frameUrl (.installDaemon options) world now latencyMs).2 = .ok data) ↔
        ∀ j < 4, ∃ n output, Passes s.maxRetries (world j) n output)) ∧
    (∀ req, (∀ options, req ≠ .installDaemon options) →
      ∀ c ∈ (handle s frameUrl req world now latencyMs).1, c = ⟨"echo " ++ marker, 7000⟩) ∧
    ∀ req message code, (handle s frameUrl req world now latencyMs).2 = .failure message code →
      ∃ text, message = redactPotentialSecrets text := by
  refine ⟨fun req h => handle_untrusted h req world now latencyMs, fun options h => ?_, fun _ hreq _ => mem_handle hreq,
    fun _ _ _ => redacted_handle⟩
  obtain ⟨r, hran, herror, -⟩ := installHandler_spec (s := s) (options.bind InstallOptions.timeoutMs) world now
  obtain ⟨hlow, hhigh⟩ := normalizeTimeout_bounds (options.bind InstallOptions.timeoutMs)
  rw [handle_installDaemon h]
  exact ⟨⟨_, r, hlow, hhigh, hran, herror⟩, installHandler_ok_iff ..⟩

def sampleSetting : Setting where
  metadata := ⟨"default", "web", "10.0.0.2", 22, none, none, none, none, none, some .unknown⟩
  maxRetries := 1
  installScriptUrl := "https://repo/install.sh"
  serviceName := "nginx-admin.service"
  healthCommand := "nginx-admin status"
  packaged := true
  rendererUrl := none
  origin _ := none

/-- The second command never gets a client: the others are not run. -/
theorem install_in_order_packaged : ∃ timeoutMs r, InOrder 1
      (fun i _ => ⟨if i = 0 then .ok () else .error (.remote "refused" connectFailedCode), false, .closed (.code 0) "" "", false⟩)
      0 (commands sampleSetting timeoutMs) [⟨installCommand "https://repo/install.sh", 120000⟩] r := by
  let world : Nat → Nat → Attempt := fun i _ =>
    ⟨if i = 0 then .ok () else .error (.remote "refused" connectFailedCode), false, .closed (.code 0) "" "", false⟩
  have hran : (handle sampleSetting "file:///index.html" (.installDaemon none) world "" 0).1 =
      [⟨installCommand "https://repo/install.sh", 120000⟩] := by decide +kernel
  obtain ⟨⟨timeoutMs, r, -, -, h, -⟩, -⟩ :=
    (install_in_order sampleSetting "file:///index.html" world "" 0).2.1 none (by decide)
  exact ⟨timeoutMs, r, hran ▸ h⟩

end BootstrapIpc

end NginxAdmin.Desktop
