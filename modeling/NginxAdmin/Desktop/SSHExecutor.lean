import Mathlib.Algebra.Order.Ring.Rat
import NginxAdmin.Lib.JsonText
import NginxAdmin.Web.Secrets

/-!
# Commands over SSH (`apps/desktop/src/main/ssh/SSHExecutor.ts`)

`execWithRetry` asks the connection manager for a client, runs the command on it, and tries again when the error has the
code of a failed connection. What the world does in an attempt is an `Attempt`: how the client was obtained and how the
command ended.
-/

namespace NginxAdmin.Desktop

open Web (redactPotentialSecrets)

def connectFailedCode : String := "SSH_CONNECT_FAILED"

def abortedCode : String := "ABORTED"

/-- A `RemoteExecutionError`, another `Error`, or a thrown value that is neither. -/
inductive ExecError where
  | remote (message code : String)
  | other (message : String)
  | value
deriving DecidableEq, Repr

def ExecError.isError : ExecError → Bool
  | .value => false
  | _ => true

def ExecError.aborted : ExecError := .remote "Operation aborted" abortedCode

namespace SSHExecutor

/-- The `code` of the event `close` of a stream. -/
inductive Exit where
  | code (n : Int)
  | null
  | undefined
deriving DecidableEq, Repr

def Exit.text : Exit → String
  | code n => toString n
  | null => "null"
  | undefined => "undefined"

/-- How a command ends that was passed to `client.exec`. -/
inductive Ending where
  /-- `exec` throws. -/
  | thrown (message : String)
  /-- The channel cannot be opened. -/
  | openFailed (message : String)
  | aborted
  | timedOut
  | closed (exit : Exit) (stdout stderr : String)
deriving DecidableEq, Repr

/-- The `message` and the `code` of an error that the remote side has written. -/
def parseRemoteError (stderr : String) : Option (String × String) :=
  let raw := Js.trim stderr
  if raw.toList.head? = some '\x7b' then
    (JsonText.parse raw).bind fun parsed =>
      match parsed.get "message", parsed.get "code" with
      | .str message, .str code => some (redactPotentialSecrets message, code)
      | _, _ => none
  else none

/-- What the promise of `execOnClient` comes to. -/
def Ending.result : Ending → Except ExecError String
  | thrown message => .error (.other message)
  | openFailed message => .error (.remote (redactPotentialSecrets message) "SSH_EXEC_OPEN_FAILED")
  | aborted => .error .aborted
  | timedOut => .error (.remote "SSH command timed out" "SSH_TIMEOUT")
  | closed exit stdout stderr =>
    if exit ≠ .code 0 then
      match parseRemoteError stderr with
      | some (message, code) => .error (.remote message code)
      | none =>
        let text := redactPotentialSecrets stderr
        .error (.remote (if text = "" then "SSH exited with code " ++ exit.text else text) "SSH_NON_ZERO")
    else .ok (Js.trim stdout)

structure Attempt where
  /-- How `getClient` settles. -/
  client : Except ExecError Unit
  /-- The signal is aborted when `execOnClient` is entered. -/
  signalled : Bool
  ending : Ending
  /-- The signal is aborted before the delay after the attempt is over. -/
  delayAborted : Bool

namespace Attempt

/-- The command is passed to `client.exec`. -/
def executes (a : Attempt) : Bool :=
  match a.client with
  | .ok _ => !a.signalled
  | .error _ => false

def result (a : Attempt) : Except ExecError String :=
  match a.client with
  | .error e => .error e
  | .ok _ => if a.signalled then .error .aborted else a.ending.result

end Attempt

/-- The option `maxRetries`; minus infinity does as `NaN` does. -/
inductive Retries where
  | number (x : Rat)
  | infinity
  | nan

/-- `attempt < totalAttempts` -/
def Retries.allows (retries : Retries) (attempt : Nat) : Bool :=
  match retries with
  | number x => (attempt : Rat) < x + 1
  | infinity => true
  | nan => false

def isConnectFailed : ExecError → Bool
  | .remote _ code => code = connectFailedCode
  | .other _ | .value => false

def shouldRetry (retries : Retries) (e : ExecError) (attempt : Nat) : Bool :=
  retries.allows attempt && isConnectFailed e

/-- Where `execWithRetry` is at the head of its loop, with the commands passed to `exec` so far. -/
structure Loop where
  attempt : Nat
  execs : List String
  lastError : Option ExecError
  outcome : Option (Except ExecError String)

def Loop.start : Loop := { attempt := 0, execs := [], lastError := none, outcome := none }

variable (retries : Retries) (command : String)

/-- An attempt that fails, and what follows of it. -/
def Loop.failed (l : Loop) (a : Attempt) (e : ExecError) : Loop :=
  if shouldRetry retries e l.attempt then
    if a.delayAborted then { l with lastError := some e, outcome := some (.error .aborted) }
    else { l with lastError := some e }
  else { l with lastError := some e, outcome := some (.error e) }

/-- One round of the loop. -/
def Loop.next (l : Loop) (a : Attempt) : Loop :=
  match l.outcome with
  | some _ => l
  | none =>
    if retries.allows l.attempt then
      let l' : Loop := { l with attempt := l.attempt + 1, execs := if a.executes then l.execs ++ [command] else l.execs }
      match a.result with
      | .ok output => { l' with outcome := some (.ok output) }
      | .error e => l'.failed retries a e
    else { l with outcome := some (.error ((l.lastError.filter ExecError.isError).getD (.remote "SSH execution failed" "SSH_EXEC_FAILED"))) }

/-- The loop after `n` rounds, with the attempts that the world makes of them. -/
def execWithRetry (world : Nat → Attempt) : Nat → Loop
  | 0 => .start
  | n + 1 => (execWithRetry world n).next retries command (world n)

/-- A call of `execute`, with the text of its payload, or of `runShell`. -/
inductive Request where
  | execute (cliPath command serialized : String)
  | runShell (command : String)

/-- The command that is run remotely. -/
def Request.remoteCommand : Request → String
  | execute cliPath command serialized => cliPath ++ " " ++ command ++ " " ++ serialized
  | runShell command => command

/-- The command is run at most once, and a further attempt follows only when it was not run. -/
def RunsOnce (world : Nat → Attempt) (request : Request) : Prop :=
  ∀ n, (execWithRetry retries request.remoteCommand world n).execs.length ≤ 1 ∧
    ((execWithRetry retries request.remoteCommand world n).outcome = none →
      (execWithRetry retries request.remoteCommand world n).execs = [])

/-! ### When it does -/

/-- The attempt gets no client, and its delay passes. -/
def ConnectFails (a : Attempt) : Prop := (∃ e, a.client = .error e ∧ isConnectFailed e = true) ∧ a.delayAborted = false

/-- The command exits with an error whose text claims that the connection failed. -/
def ClaimsConnectFailed (a : Attempt) : Prop :=
  ∃ exit stdout stderr message, a.ending = .closed exit stdout stderr ∧ exit ≠ .code 0 ∧
    parseRemoteError stderr = some (message, connectFailedCode)

/-- The first attempt that runs the command is not followed by another one. -/
def Trustworthy (world : Nat → Attempt) : Prop :=
  ∀ k, (∀ j < k, ConnectFails (world j)) → (world k).executes = true → retries.allows (k + 1) = true →
    (world k).delayAborted = false → ¬ ClaimsConnectFailed (world k)

variable {retries} {command} {world : Nat → Attempt}

/-- Of the errors of a command only one that the remote side has written has the code of a failed connection. -/
theorem result_connectFailed {ending : Ending} :
    (∃ e, ending.result = .error e ∧ isConnectFailed e = true) ↔
    ∃ exit stdout stderr message, ending = .closed exit stdout stderr ∧ exit ≠ .code 0 ∧
      parseRemoteError stderr = some (message, connectFailedCode) := by
  constructor
  · rintro ⟨e, he, hcode⟩
    cases ending with
    | thrown message => cases he; cases hcode
    | openFailed message => cases he; cases hcode
    | aborted => cases he; cases hcode
    | timedOut => cases he; cases hcode
    | closed exit stdout stderr =>
      rw [Ending.result] at he
      split at he
      next hexit =>
        split at he
        next message code hparse =>
          cases he
          have hc : code = connectFailedCode := by simpa [isConnectFailed] using hcode
          exact ⟨exit, stdout, stderr, message, rfl, hexit, by rw [hparse, hc]⟩
        next => cases he; cases hcode
      next => cases he
  · rintro ⟨exit, stdout, stderr, message, rfl, hexit, hparse⟩
    refine ⟨.remote message connectFailedCode, ?_, by simp [isConnectFailed]⟩
    rw [Ending.result, if_pos hexit, hparse]

theorem allows_of_le {m n : Nat} (h : retries.allows n = true) (hmn : m ≤ n) : retries.allows m = true := by
  cases retries with
  | number x =>
    have hn : (n : Rat) < x + 1 := by simpa [Retries.allows] using h
    have hle : (m : Rat) ≤ n := by exact_mod_cast hmn
    simpa [Retries.allows] using lt_of_le_of_lt hle hn
  | infinity => rfl
  | nan => cases h

/-- The attempts so far got no client. -/
structure Waiting (world : Nat → Attempt) (n : Nat) (l : Loop) : Prop where
  attempt : l.attempt = n
  execs : l.execs = []
  outcome : l.outcome = none
  connect : ∀ j < n, ConnectFails (world j)

theorem Loop.next_of_outcome {l : Loop} {r : Except ExecError String} (h : l.outcome = some r) (a : Attempt) :
    l.next retries command a = l := by
  rw [next, h]

theorem next_ok {l : Loop} {a : Attempt} {output : String} (ho : l.outcome = none)
    (hallows : retries.allows l.attempt = true) (h : a.result = .ok output) : (l.next retries command a).outcome ≠ none := by
  rw [Loop.next, ho]
  simp only [hallows, if_true, h]
  exact Option.some_ne_none _

theorem next_error {l : Loop} {a : Attempt} {e : ExecError} (ho : l.outcome = none)
    (hallows : retries.allows l.attempt = true) (h : a.result = .error e) :
    l.next retries command a = Loop.failed retries
      { l with attempt := l.attempt + 1, execs := if a.executes then l.execs ++ [command] else l.execs } a e := by
  rw [Loop.next, ho]
  simp only [hallows, if_true, h]

/-- An attempt is followed by another one just when its error says so and its delay passes. -/
theorem failed_outcome {l : Loop} {a : Attempt} {e : ExecError} (ho : l.outcome = none) :
    (l.failed retries a e).outcome = none ↔
      retries.allows l.attempt = true ∧ isConnectFailed e = true ∧ a.delayAborted = false := by
  rw [Loop.failed, shouldRetry]
  rcases h : retries.allows l.attempt
  · simp
  rcases h' : isConnectFailed e
  · simp
  rcases h'' : a.delayAborted
  · simp [ho]
  · simp

theorem failed_execs (l : Loop) (a : Attempt) (e : ExecError) : (l.failed retries a e).execs = l.execs := by
  rw [Loop.failed]
  split
  · split <;> rfl
  · rfl

theorem failed_attempt (l : Loop) (a : Attempt) (e : ExecError) : (l.failed retries a e).attempt = l.attempt := by
  rw [Loop.failed]
  split
  · split <;> rfl
  · rfl

theorem next_execs (l : Loop) (a : Attempt) : (l.next retries command a).execs = l.execs ∨
    (a.executes = true ∧ (l.next retries command a).execs = l.execs ++ [command]) := by
  rw [Loop.next]
  rcases l.outcome with _ | r
  · by_cases hallows : retries.allows l.attempt = true
    · simp only [hallows, if_true]
      rcases hx : a.executes
      · rcases a.result with e | output
        · left
          exact failed_execs _ a e
        · exact .inl rfl
      · rcases a.result with e | output
        · exact .inr ⟨rfl, failed_execs _ a e⟩
        · exact .inr ⟨rfl, rfl⟩
    · left
      simp [hallows]
  · exact .inl rfl

theorem Waiting.next {n : Nat} {l : Loop} (hw : Waiting world n l) (hallows : retries.allows (n + 1) = true)
    (hc : ConnectFails (world n)) : Waiting world (n + 1) (l.next retries command (world n)) := by
  obtain ⟨⟨e, he, hcode⟩, hdelay⟩ := hc
  have hnow : retries.allows l.attempt = true := hw.attempt ▸ allows_of_le hallows (Nat.le_succ n)
  have hresult : (world n).result = .error e := by rw [Attempt.result, he]
  have hexecutes : (world n).executes = false := by rw [Attempt.executes, he]
  rw [next_error hw.outcome hnow hresult]
  refine ⟨?_, ?_, ?_, ?_⟩
  · rw [failed_attempt]
    exact congrArg (· + 1) hw.attempt
  · rw [failed_execs]
    simp [hexecutes, hw.execs]
  · refine (failed_outcome ?_).2 ⟨?_, hcode, hdelay⟩
    · exact hw.outcome
    · show retries.allows (l.attempt + 1) = true
      rw [hw.attempt]
      exact hallows
  · intro j hj
    rcases Nat.lt_succ_iff_lt_or_eq.1 hj with hj | rfl
    · exact hw.connect j hj
    · exact ⟨⟨e, he, hcode⟩, hdelay⟩

theorem waiting_of_connectFails (command : String) {k : Nat} (hallows : retries.allows k = true) (hc : ∀ j < k, ConnectFails (world j)) :
    Waiting world k (execWithRetry retries command world k) := by
  induction k with
  | zero => exact ⟨rfl, rfl, rfl, by simp⟩
  | succ k ih =>
    have hw := ih (allows_of_le hallows (Nat.le_succ k)) fun j hj => hc j (by omega)
    exact hw.next hallows (hc k (by omega))

/-- An attempt that runs the command and is followed by another one. -/
theorem next_of_claims {n : Nat} {l : Loop} (hw : Waiting world n l) (hallows : retries.allows (n + 1) = true)
    (hx : (world n).executes = true) (hdelay : (world n).delayAborted = false) (hc : ClaimsConnectFailed (world n)) :
    (l.next retries command (world n)).execs = [command] ∧ (l.next retries command (world n)).outcome = none := by
  obtain ⟨e, he, hcode⟩ := result_connectFailed.2 hc
  have hnow : retries.allows l.attempt = true := hw.attempt ▸ allows_of_le hallows (Nat.le_succ n)
  have hresult : (world n).result = .error e := by
    rw [Attempt.executes] at hx
    rw [Attempt.result]
    split at hx
    next hclient =>
      have hs : (world n).signalled = false := by simpa using hx
      rw [hclient, hs, ← he]
      rfl
    next => cases hx
  rw [next_error hw.outcome hnow hresult, failed_execs]
  refine ⟨by simp [hx, hw.execs], (failed_outcome ?_).2 ⟨?_, hcode, hdelay⟩⟩
  · exact hw.outcome
  · show retries.allows (l.attempt + 1) = true
    rw [hw.attempt]
    exact hallows

theorem Waiting.of_next (h : Trustworthy retries world) {n : Nat} {l : Loop} (hw : Waiting world n l)
    (ho : (l.next retries command (world n)).outcome = none) :
    Waiting world (n + 1) (l.next retries command (world n)) := by
  by_cases hallows : retries.allows l.attempt = true
  · rcases hresult : (world n).result with e | output
    · have hnext := ho
      rw [next_error hw.outcome hallows hresult] at hnext
      obtain ⟨hagain, hcode, hdelay⟩ := (failed_outcome (by exact hw.outcome)).1 hnext
      have hagain' : retries.allows (n + 1) = true := hw.attempt ▸ hagain
      rcases hclient : (world n).client with e' | u
      · have heq : e' = e := by
          rw [Attempt.result, hclient] at hresult
          exact Except.error.inj hresult
        subst heq
        exact hw.next hagain' ⟨⟨e', hclient, hcode⟩, hdelay⟩
      · exfalso
        rcases hs : (world n).signalled
        · have hx : (world n).executes = true := by rw [Attempt.executes, hclient, hs]; rfl
          have hending : (world n).ending.result = .error e := by
            rw [Attempt.result, hclient, hs] at hresult
            exact hresult
          exact h n hw.connect hx hagain' hdelay (result_connectFailed.1 ⟨e, hending, hcode⟩)
        · have haborted : e = .aborted := by
            rw [Attempt.result, hclient, hs] at hresult
            exact (Except.error.inj hresult).symm
          rw [haborted] at hcode
          exact absurd hcode (by decide)
    · exact absurd ho (next_ok hw.outcome hallows hresult)
  · exfalso
    rw [Loop.next, hw.outcome] at ho
    simp [hallows] at ho

/-- The loop waits, or it is done with at most one execution. -/
theorem waiting_or_done (command : String) (h : Trustworthy retries world) (n : Nat) :
    Waiting world n (execWithRetry retries command world n) ∨
    ((execWithRetry retries command world n).outcome ≠ none ∧ (execWithRetry retries command world n).execs.length ≤ 1) := by
  induction n with
  | zero => exact .inl ⟨rfl, rfl, rfl, by simp⟩
  | succ n ih =>
    rw [execWithRetry]
    rcases ih with hw | ⟨ho, hlen⟩
    · by_cases ho : ((execWithRetry retries command world n).next retries command (world n)).outcome = none
      · exact .inl (hw.of_next h ho)
      · refine .inr ⟨ho, ?_⟩
        rcases next_execs (execWithRetry retries command world n) (world n) with he | ⟨-, he⟩
        · rw [he, hw.execs]
          exact Nat.zero_le 1
        · rw [he, hw.execs]
          exact Nat.le_refl 1
    · obtain ⟨r, hr⟩ := Option.ne_none_iff_exists'.1 ho
      rw [Loop.next_of_outcome hr]
      exact .inr ⟨ho, hlen⟩

/-- The command runs at most once just when the first attempt that runs it is the last one allowed, has its delay aborted,
or does not end with an error of the remote side that has the code of a failed connection. -/
theorem runsOnce_iff (retries : Retries) (request : Request) (world : Nat → Attempt) :
    RunsOnce retries world request ↔ Trustworthy retries world := by
  constructor
  · intro h k hconnect hx hallows hdelay hclaims
    have hw := waiting_of_connectFails request.remoteCommand (allows_of_le hallows (Nat.le_succ k)) hconnect
    obtain ⟨hexecs, hout⟩ := next_of_claims hw hallows hx hdelay hclaims
    have hnone := (h (k + 1)).2 hout
    rw [execWithRetry, hexecs] at hnone
    cases hnone
  · intro h n
    rcases waiting_or_done request.remoteCommand h n with hw | ⟨ho, hlen⟩
    · exact ⟨by rw [hw.execs]; exact Nat.zero_le 1, fun _ => hw.execs⟩
    · exact ⟨hlen, fun hn => absurd hn ho⟩

/-- With the default of one retry, a command that fails and says so with the code of a failed connection runs twice. -/
theorem runs_twice :
    ¬ RunsOnce (.number 1)
      (fun _ => ⟨.ok (), false, .closed (.code 1) "" "\x7b\"message\":\"m\",\"code\":\"SSH_CONNECT_FAILED\"\x7d", false⟩)
      (.runShell "ls") := by
  intro h
  have htwice := (h 2).1
  revert htwice
  decide +kernel

end SSHExecutor

end NginxAdmin.Desktop
