import NginxAdmin.Desktop.SSHExecutor

/-!
# The connection manager (`apps/desktop/src/main/ssh/SSHConnectionManager.ts`)

A state machine of the manager, its clients and the calls of `getClient` and `shutdown`. Clients, calls and shutdowns are
numbered in the order in which they come about, and signals by the callers. A step is what runs without interruption: a
call up to its first `await`, the handlers of an event, or a continuation. Each `connect` makes a new client, so that an
attempt has the number of its client.
-/

namespace NginxAdmin.Desktop

open Web (redactPotentialSecrets)

def shuttingDownCode : String := "SSH_SHUTTING_DOWN"

namespace SSHConnectionManager

/-- A client with what it has emitted, and the promise of the `connect` that made it. -/
structure Client where
  signal : Option Nat
  ready : Bool := false
  /-- It has emitted an error, or `connect` threw. -/
  errored : Bool := false
  closed : Bool := false
  /-- `end()` was called. -/
  ended : Bool := false
  /-- The variable of `connect`. -/
  settled : Bool := false
  /-- `onReady` has added the listeners that invalidate the active client. -/
  watched : Bool := false
  /-- The promise of `connect`. -/
  result : Option (Except ExecError Unit) := none

/-- A call of `getClient` waits for an attempt, or has settled. -/
inductive CallState where
  | waiting (attempt : Nat)
  | settled (result : Except ExecError Nat)

structure Call where
  signal : Option Nat
  state : CallState

/-- A call of `shutdown`; `before` is the number of attempts that had been started. -/
structure Shutdown where
  before : Nat
  client : Option Nat
  /-- The promise it awaits is resolved. -/
  released : Bool
  resolved : Bool

structure State where
  activeClient : Option Nat := none
  connectPromise : Option Nat := none
  shuttingDown : Bool := false
  clients : List Client := []
  calls : List Call := []
  shutdowns : List Shutdown := []
  /-- The signals that are aborted. -/
  aborted : List Nat := []

namespace Client

/-- A promise settles once. -/
def settle (c : Client) (r : Except ExecError Unit) : Client := { c with settled := true, result := c.result.or (some r) }

def onAbort (c : Client) : Client := if c.settled then c else { c.settle (.error .aborted) with ended := true }

def onError (c : Client) (message : String) : Client :=
  if c.settled then c else c.settle (.error (.remote (redactPotentialSecrets message) connectFailedCode))

def onReady (c : Client) : Client := if c.settled then c else { c.settle (.ok ()) with watched := true }

/-- `connect` is entered with the signals of `aborted`; the call of `client.connect` may throw. -/
def connect (signal : Option Nat) (aborted : List Nat) (thrown : Option String) : Client :=
  if signal.any fun s => aborted.contains s then Client.onAbort { signal := signal }
  else
    match thrown with
    | none => { signal := signal }
    | some message => { signal := signal, errored := true, result := some (.error (.other message)) }

end Client

namespace State

def update (s : State) (a : Nat) (f : Client → Client) : State := { s with clients := s.clients.modify a f }

/-- The listener of an active client for `error` and `close`. -/
def invalidate (s : State) (a : Nat) (c : Client) : State :=
  if c.watched && s.activeClient = some a then { s with activeClient := none } else s

/-- The call of `connect`, with its promise. -/
def start (s : State) (signal : Option Nat) (thrown : Option String) : State :=
  { s with connectPromise := some s.clients.length, clients := s.clients ++ [Client.connect signal s.aborted thrown] }

/-- `withAbort`, entered for an attempt. -/
def withAbort (s : State) (signal : Option Nat) (attempt : Nat) : CallState :=
  if signal.any fun sig => s.aborted.contains sig then .settled (.error .aborted) else .waiting attempt

def push (s : State) (signal : Option Nat) (state : CallState) : State := { s with calls := s.calls ++ [⟨signal, state⟩] }

def getClient (s : State) (signal : Option Nat) (thrown : Option String) : State :=
  if s.shuttingDown then
    s.push signal (.settled (.error (.remote "SSH connection manager is shutting down" shuttingDownCode)))
  else
    match s.activeClient with
    | some a => s.push signal (.settled (.ok a))
    | none =>
      match s.connectPromise with
      | some a => s.push signal (s.withAbort signal a)
      | none => (s.start signal thrown).push signal (s.withAbort signal s.clients.length)

def shutdown (s : State) : State :=
  match s.activeClient with
  | none =>
    { s with shuttingDown := false, shutdowns := s.shutdowns ++ [⟨s.clients.length, none, true, true⟩] }
  | some a =>
    { s.update a fun c => { c with ended := true } with
      shuttingDown := true
      activeClient := none
      shutdowns := s.shutdowns ++ [⟨s.clients.length, some a, false, false⟩] }

/-- The listeners of a signal: those of the attempts, then those of the calls. -/
def abort (s : State) (signal : Nat) : State :=
  { s with
    aborted := signal :: s.aborted
    clients := s.clients.map fun c => if c.signal = some signal then c.onAbort else c
    calls := s.calls.map fun call =>
      match call.state with
      | .waiting _ => if call.signal = some signal then { call with state := .settled (.error .aborted) } else call
      | .settled _ => call }

def ready (s : State) (a : Nat) (c : Client) : State :=
  let s' := s.update a fun c => { c.onReady with ready := true }
  if c.settled then s' else { s' with activeClient := some a }

def error (s : State) (a : Nat) (c : Client) (message : String) : State :=
  (s.update a fun c => { c.onError message with errored := true }).invalidate a c

def close (s : State) (a : Nat) (c : Client) : State :=
  { (s.update a fun c => { c with closed := true }).invalidate a c with
    shutdowns := s.shutdowns.map fun sh => if sh.client = some a then { sh with released := true } else sh }

end State

inductive Event where
  | getClient (signal : Option Nat) (thrown : Option String)
  | shutdown
  | abort (signal : Nat)
  | ready (a : Nat)
  | error (a : Nat) (message : String)
  | close (a : Nat)
  /-- The `finally` of an attempt. -/
  | cleared (a : Nat)
  /-- A call learns how its attempt has settled. -/
  | deliver (k : Nat)
  /-- The timer of a shutdown. -/
  | timer (j : Nat)
  /-- A shutdown goes on after its `await`. -/
  | finish (j : Nat)

/-- The step of an event, when it can happen: a client is ready at most once, and not after an error or its end. -/
def step (s : State) : Event → Option State
  | .getClient signal thrown => some (s.getClient signal thrown)
  | .shutdown => some s.shutdown
  | .abort signal => if s.aborted.contains signal then none else some (s.abort signal)
  | .ready a => s.clients[a]?.bind fun c => if c.ready || c.errored || c.closed then none else some (s.ready a c)
  | .error a message => s.clients[a]?.map fun c => s.error a c message
  | .close a => s.clients[a]?.map fun c => s.close a c
  | .cleared a =>
    s.clients[a]?.bind fun c =>
      if s.connectPromise = some a ∧ c.result.isSome then some { s with connectPromise := none } else none
  | .deliver k =>
    s.calls[k]?.bind fun call =>
      match call.state with
      | .waiting a =>
        if s.connectPromise = some a then none
        else
          (s.clients[a]?.bind Client.result).map fun r =>
            { s with calls := s.calls.set k { call with state := .settled (r.map fun _ => a) } }
      | .settled _ => none
  | .timer j => s.shutdowns[j]?.map fun sh => { s with shutdowns := s.shutdowns.set j { sh with released := true } }
  | .finish j =>
    s.shutdowns[j]?.bind fun sh =>
      if sh.released && !sh.resolved then
        some { s with shuttingDown := false, shutdowns := s.shutdowns.set j { sh with resolved := true } }
      else none

def run (s : State) : List Event → Option State
  | [] => some s
  | e :: events => (step s e).bind fun s' => run s' events

/-! ### The invariant -/

/-- An attempt under way has neither failed nor settled. -/
structure Client.Inv (c : Client) : Prop where
  unsettled : c.settled = false → c.errored = false → c.result = none
  settled : c.settled = true → c.result ≠ none

/-- An unsettled attempt is the one of `connectPromise`, and there is no active client then; the active client is ready,
and its listeners are in place. -/
structure Inv (s : State) : Prop where
  clients : ∀ c ∈ s.clients, c.Inv
  unsettled : ∀ a c, s.clients[a]? = some c → c.result = none → s.connectPromise = some a ∧ s.activeClient = none
  active : ∀ a, s.activeClient = some a →
    ∃ c, s.clients[a]? = some c ∧ c.ready = true ∧ c.errored = false ∧ c.closed = false ∧ c.watched = true

namespace Client

theorem settle_result_ne_none (c : Client) (r : Except ExecError Unit) : (c.settle r).result ≠ none := by
  rcases h : c.result <;> simp [settle, h]

theorem inv_settle (c : Client) (r : Except ExecError Unit) : (c.settle r).Inv :=
  ⟨fun h => (by cases h), fun _ => settle_result_ne_none c r⟩

theorem Inv.onAbort {c : Client} (h : c.Inv) : c.onAbort.Inv := by
  rw [Client.onAbort]
  split
  · exact h
  · exact ⟨fun hs => (by cases hs), fun _ => settle_result_ne_none c _⟩

theorem Inv.onError {c : Client} (h : c.Inv) (message : String) : (c.onError message).Inv := by
  rw [Client.onError]
  split
  · exact h
  · exact inv_settle c _

theorem Inv.onReady {c : Client} (h : c.Inv) : c.onReady.Inv := by
  rw [Client.onReady]
  split
  · exact h
  · exact ⟨fun hs => (by cases hs), fun _ => settle_result_ne_none c _⟩

theorem inv_connect (signal : Option Nat) (aborted : List Nat) (thrown : Option String) :
    (connect signal aborted thrown).Inv := by
  rw [connect.eq_def]
  split
  · exact Inv.onAbort ⟨fun _ _ => rfl, fun h => by cases h⟩
  · cases thrown with
    | none => exact ⟨fun _ _ => rfl, fun h => by cases h⟩
    | some message => exact ⟨fun _ h => (by cases h), fun h => (by cases h)⟩

theorem onAbort_result_none {c : Client} (h : c.onAbort.result = none) : c.result = none := by
  rw [onAbort] at h
  split at h
  · exact h
  · exact absurd h (settle_result_ne_none c _)

theorem onError_result_none {c : Client} {message : String} (h : (c.onError message).result = none) : c.result = none := by
  rw [onError] at h
  split at h
  · exact h
  · exact absurd h (settle_result_ne_none c _)

theorem onReady_result_none {c : Client} (h : c.onReady.result = none) : c.result = none := by
  rw [onReady] at h
  split at h
  · exact h
  · exact absurd h (settle_result_ne_none c _)

theorem onAbort_flags (c : Client) : c.onAbort.ready = c.ready ∧ c.onAbort.errored = c.errored ∧
    c.onAbort.closed = c.closed ∧ c.onAbort.watched = c.watched := by
  rw [onAbort]
  split <;> exact ⟨rfl, rfl, rfl, rfl⟩

end Client

variable {s s' : State}

theorem getElem?_update {s : State} {a b : Nat} {f : Client → Client} {c' : Client}
    (h : (s.update a f).clients[b]? = some c') :
    ∃ c, s.clients[b]? = some c ∧ ((a = b ∧ c' = f c) ∨ (a ≠ b ∧ c' = c)) := by
  rw [State.update, List.getElem?_modify] at h
  obtain ⟨c, hc, hf⟩ := Option.map_eq_some_iff.1 h
  refine ⟨c, hc, ?_⟩
  by_cases hab : a = b
  · exact .inl ⟨hab, by rw [← hf, if_pos hab]⟩
  · exact .inr ⟨hab, by rw [← hf, if_neg hab]⟩

theorem update_getElem?_ne {a b : Nat} {f : Client → Client} (h : a ≠ b) :
    (s.update a f).clients[b]? = s.clients[b]? := by
  rw [State.update, List.getElem?_modify]
  simp [h]

theorem update_getElem?_self {a : Nat} {f : Client → Client} {c : Client} (h : s.clients[a]? = some c) :
    (s.update a f).clients[a]? = some (f c) := by
  rw [State.update, List.getElem?_modify, h]
  simp

theorem forall_update {P : Client → Prop} {a : Nat} {f : Client → Client} (h : ∀ c ∈ s.clients, P c)
    (hf : ∀ c, s.clients[a]? = some c → P c → P (f c)) : ∀ c ∈ (s.update a f).clients, P c := by
  intro c' hc'
  obtain ⟨b, hb⟩ := List.mem_iff_getElem?.1 hc'
  obtain ⟨c, hc, ⟨rfl, rfl⟩ | ⟨-, rfl⟩⟩ := getElem?_update hb
  · exact hf c hc (h c (List.mem_of_getElem? hc))
  · exact h _ (List.mem_of_getElem? hc)

theorem Inv.mem {a : Nat} {c : Client} (hi : Inv s) (h : s.clients[a]? = some c) : c.Inv :=
  hi.clients c (List.mem_of_getElem? h)

theorem inv_init : Inv {} := ⟨by simp, by simp, by simp⟩

/-- What does not concern the clients and the manager's variables keeps the invariant. -/
theorem Inv.of_eq (hi : Inv s) (hc : s'.clients = s.clients) (ha : s'.activeClient = s.activeClient)
    (hp : s'.connectPromise = s.connectPromise) : Inv s' :=
  ⟨hc ▸ hi.clients, by rw [hc, ha, hp]; exact hi.unsettled, by rw [hc, ha]; exact hi.active⟩

theorem Inv.result_ne_none (hi : Inv s) (hp : s.connectPromise = none) {a : Nat} {c : Client}
    (h : s.clients[a]? = some c) : c.result ≠ none := by
  intro hr
  have hpa := (hi.unsettled a c h hr).1
  rw [hp] at hpa
  cases hpa

theorem Inv.start (hi : Inv s) (hp : s.connectPromise = none) (ha : s.activeClient = none) (signal : Option Nat)
    (thrown : Option String) : Inv (s.start signal thrown) := by
  refine ⟨?_, ?_, ?_⟩
  · intro c hc
    rcases List.mem_append.1 hc with hc | hc
    · exact hi.clients c hc
    · cases List.mem_singleton.1 hc
      exact Client.inv_connect signal s.aborted thrown
  · intro a c hc hr
    rcases Nat.lt_or_ge a s.clients.length with hlt | hge
    · have hold : s.clients[a]? = some c := by
        rw [← hc, State.start, List.getElem?_append_left hlt]
      exact absurd hr (hi.result_ne_none hp hold)
    · have hlt : a < s.clients.length + 1 := by
        have hbound := (List.getElem?_eq_some_iff.1 hc).1
        simpa [State.start] using hbound
      have haeq : a = s.clients.length := by omega
      exact ⟨by rw [haeq]; rfl, ha⟩
  · intro a haa
    change s.activeClient = some a at haa
    rw [ha] at haa
    cases haa

/-- A call of `getClient` is noted, with a new attempt where there is neither an active client nor one under way. -/
theorem getClient_cases (s : State) (signal : Option Nat) (thrown : Option String) :
    (∃ state, s.getClient signal thrown = s.push signal state) ∨
    (s.activeClient = none ∧ s.connectPromise = none ∧
      ∃ state, s.getClient signal thrown = (s.start signal thrown).push signal state) := by
  rw [State.getClient]
  split
  · exact .inl ⟨_, rfl⟩
  · rcases ha : s.activeClient with _ | a
    · rcases hp : s.connectPromise with _ | a
      · exact .inr ⟨rfl, rfl, _, rfl⟩
      · exact .inl ⟨_, rfl⟩
    · exact .inl ⟨_, rfl⟩

theorem Inv.getClient (hi : Inv s) (signal : Option Nat) (thrown : Option String) : Inv (s.getClient signal thrown) := by
  rcases getClient_cases s signal thrown with ⟨state, heq⟩ | ⟨ha, hp, state, heq⟩
  · rw [heq]
    exact hi.of_eq rfl rfl rfl
  · rw [heq]
    exact (hi.start hp ha signal thrown).of_eq rfl rfl rfl

theorem Inv.shutdown (hi : Inv s) : Inv s.shutdown := by
  rw [State.shutdown]
  rcases ha : s.activeClient with _ | a
  · exact hi.of_eq rfl ha.symm rfl
  · refine ⟨forall_update hi.clients fun c _ hc => ⟨hc.unsettled, hc.settled⟩, ?_, by simp⟩
    intro b c' hc' hr
    obtain ⟨c, hc, ⟨-, rfl⟩ | ⟨-, rfl⟩⟩ := getElem?_update hc'
    · exact ⟨(hi.unsettled b c hc hr).1, rfl⟩
    · exact ⟨(hi.unsettled b _ hc hr).1, rfl⟩

theorem getElem?_abort {signal a : Nat} {c' : Client} (h : (s.abort signal).clients[a]? = some c') :
    ∃ c, s.clients[a]? = some c ∧ ((c.signal = some signal ∧ c' = c.onAbort) ∨ (c.signal ≠ some signal ∧ c' = c)) := by
  rw [State.abort, List.getElem?_map] at h
  obtain ⟨c, hc, rfl⟩ := Option.map_eq_some_iff.1 h
  refine ⟨c, hc, ?_⟩
  by_cases hs : c.signal = some signal
  · exact .inl ⟨hs, if_pos hs⟩
  · exact .inr ⟨hs, if_neg hs⟩

theorem Inv.abort (hi : Inv s) (signal : Nat) : Inv (s.abort signal) := by
  refine ⟨?_, ?_, ?_⟩
  · intro c' hc'
    obtain ⟨a, ha⟩ := List.mem_iff_getElem?.1 hc'
    obtain ⟨c, hc, ⟨-, rfl⟩ | ⟨-, rfl⟩⟩ := getElem?_abort ha
    · exact (hi.mem hc).onAbort
    · exact hi.mem hc
  · intro a c' hc' hr
    obtain ⟨c, hc, ⟨-, rfl⟩ | ⟨-, rfl⟩⟩ := getElem?_abort hc'
    · exact hi.unsettled a c hc (Client.onAbort_result_none hr)
    · exact hi.unsettled a _ hc hr
  · intro a ha
    obtain ⟨c, hc, hready, herr, hclosed, hwatched⟩ := hi.active a ha
    refine ⟨if c.signal = some signal then c.onAbort else c, ?_, ?_⟩
    · rw [State.abort, List.getElem?_map, hc]
      rfl
    · split
      · obtain ⟨h₁, h₂, h₃, h₄⟩ := c.onAbort_flags
        rw [h₁, h₂, h₃, h₄]
        exact ⟨hready, herr, hclosed, hwatched⟩
      · exact ⟨hready, herr, hclosed, hwatched⟩

theorem Inv.ready (hi : Inv s) {a : Nat} {c : Client} (hc : s.clients[a]? = some c) (herr : c.errored = false)
    (hclosed : c.closed = false) : Inv (s.ready a c) := by
  have hclients : ∀ d ∈ (s.update a fun c => { c.onReady with ready := true }).clients, d.Inv :=
    forall_update hi.clients fun d _ hd => ⟨hd.onReady.unsettled, hd.onReady.settled⟩
  rw [State.ready]
  by_cases hs : c.settled = true
  · -- the attempt has settled before: the client only notes that it is ready
    have hsame : c.onReady = c := if_pos hs
    rw [if_pos hs]
    refine ⟨hclients, ?_, ?_⟩
    · intro b d hd hr
      obtain ⟨e, he, ⟨rfl, rfl⟩ | ⟨-, rfl⟩⟩ := getElem?_update hd
      · exact hi.unsettled a e he (Client.onReady_result_none hr)
      · exact hi.unsettled b _ he hr
    · intro b hb
      obtain ⟨d, hd, hready, hderr, hdclosed, hdw⟩ := hi.active b hb
      by_cases hab : a = b
      · subst hab
        obtain rfl : c = d := by rw [hc] at hd; exact Option.some.inj hd
        refine ⟨_, update_getElem?_self hd, rfl, ?_⟩
        rw [hsame]
        exact ⟨hderr, hdclosed, hdw⟩
      · exact ⟨d, (update_getElem?_ne hab).trans hd, hready, hderr, hdclosed, hdw⟩
  · have hs' : c.settled = false := by simpa using hs
    have hready : c.onReady = { c.settle (.ok ()) with watched := true } := if_neg hs
    have hnone := (hi.mem hc).unsettled hs' herr
    rw [if_neg hs]
    refine ⟨hclients, ?_, ?_⟩
    · intro b d hd hr
      obtain ⟨e, he, ⟨rfl, rfl⟩ | ⟨hab, rfl⟩⟩ := getElem?_update hd
      · obtain rfl : c = e := by rw [hc] at he; exact Option.some.inj he
        change c.onReady.result = none at hr
        rw [hready] at hr
        exact absurd hr (Client.settle_result_ne_none c _)
      · -- no other attempt was under way
        have ha := (hi.unsettled a c hc hnone).1
        have hb := (hi.unsettled b _ he hr).1
        rw [ha] at hb
        exact absurd (Option.some.inj hb) hab
    · intro b hb
      obtain rfl : a = b := Option.some.inj hb
      refine ⟨_, update_getElem?_self hc, rfl, ?_⟩
      rw [hready]
      exact ⟨herr, hclosed, rfl⟩

/-- The listener of a client that fails or closes: it is not the active one afterwards. -/
theorem invalidate_activeClient {a b : Nat} {c : Client} (h : (s.invalidate a c).activeClient = some b) :
    s.activeClient = some b ∧ (c.watched = true → b ≠ a) := by
  rw [State.invalidate] at h
  split at h
  next => cases h
  next hn =>
    refine ⟨h, fun hw hab => hn ?_⟩
    subst hab
    simp [hw, h]

theorem invalidate_clients (s : State) (a : Nat) (c : Client) : (s.invalidate a c).clients = s.clients := by
  rw [State.invalidate]
  split <;> rfl

theorem invalidate_connectPromise (s : State) (a : Nat) (c : Client) :
    (s.invalidate a c).connectPromise = s.connectPromise := by
  rw [State.invalidate]
  split <;> rfl

/-- An event of a client after which it is not usable, and of which its listeners take notice. -/
theorem Inv.invalidate (hi : Inv s) {a : Nat} {c : Client} {f : Client → Client} (hc : s.clients[a]? = some c)
    (hinv : ∀ d : Client, d.Inv → (f d).Inv) (hnone : ∀ d : Client, (f d).result = none → d.result = none) :
    Inv ((s.update a f).invalidate a c) := by
  refine ⟨?_, ?_, ?_⟩
  · rw [invalidate_clients]
    exact forall_update hi.clients fun d _ hd => hinv d hd
  · intro b d hd hr
    rw [invalidate_clients] at hd
    have hold : s.connectPromise = some b ∧ s.activeClient = none := by
      obtain ⟨e, he, ⟨rfl, rfl⟩ | ⟨-, rfl⟩⟩ := getElem?_update hd
      · exact hi.unsettled a e he (hnone e hr)
      · exact hi.unsettled b _ he hr
    refine ⟨(invalidate_connectPromise _ a c).trans hold.1, ?_⟩
    rcases hact : ((s.update a f).invalidate a c).activeClient with _ | b'
    · rfl
    · have hs := (invalidate_activeClient hact).1
      change s.activeClient = some b' at hs
      rw [hold.2] at hs
      cases hs
  · intro b hb
    obtain ⟨hact, hne⟩ := invalidate_activeClient hb
    obtain ⟨d, hd, hready, herr, hclosed, hw⟩ := hi.active b hact
    have hab : a ≠ b := by
      rintro rfl
      obtain rfl : c = d := by rw [hc] at hd; exact Option.some.inj hd
      exact hne hw rfl
    refine ⟨d, ?_, hready, herr, hclosed, hw⟩
    rw [invalidate_clients, update_getElem?_ne hab, hd]

theorem Inv.error (hi : Inv s) {a : Nat} {c : Client} (hc : s.clients[a]? = some c) (message : String) :
    Inv (s.error a c message) := by
  refine hi.invalidate hc (fun d hd => ?_) fun d hr => Client.onError_result_none hr
  exact ⟨fun _ h => (by cases h), (hd.onError message).settled⟩

theorem Inv.close (hi : Inv s) {a : Nat} {c : Client} (hc : s.clients[a]? = some c) : Inv (s.close a c) :=
  (hi.invalidate (f := fun c => { c with closed := true }) hc (fun _ hd => ⟨hd.unsettled, hd.settled⟩)
    fun _ hr => hr).of_eq rfl rfl rfl

theorem Inv.cleared (hi : Inv s) {a : Nat} {c : Client} (hc : s.clients[a]? = some c) (hp : s.connectPromise = some a)
    (hr : c.result.isSome = true) : Inv { s with connectPromise := none } := by
  refine ⟨hi.clients, fun b d hd hnone => ?_, hi.active⟩
  have hb := (hi.unsettled b d hd hnone).1
  rw [hp] at hb
  obtain rfl : a = b := Option.some.inj hb
  rw [hc] at hd
  obtain rfl : c = d := Option.some.inj hd
  rw [hnone] at hr
  cases hr

/-- What a step can do. -/
inductive Stepped (s : State) : Event → State → Prop where
  | getClient (signal : Option Nat) (thrown : Option String) :
    Stepped s (.getClient signal thrown) (s.getClient signal thrown)
  | shutdown : Stepped s .shutdown s.shutdown
  | abort (signal : Nat) : Stepped s (.abort signal) (s.abort signal)
  | ready {a : Nat} {c : Client} (hc : s.clients[a]? = some c) (herr : c.errored = false) (hclosed : c.closed = false) :
    Stepped s (.ready a) (s.ready a c)
  | error {a : Nat} {c : Client} (message : String) (hc : s.clients[a]? = some c) :
    Stepped s (.error a message) (s.error a c message)
  | close {a : Nat} {c : Client} (hc : s.clients[a]? = some c) : Stepped s (.close a) (s.close a c)
  | cleared {a : Nat} {c : Client} (hc : s.clients[a]? = some c) (hp : s.connectPromise = some a)
    (hr : c.result.isSome = true) : Stepped s (.cleared a) { s with connectPromise := none }
  | deliver {k a : Nat} {call : Call} {c : Client} {r : Except ExecError Unit} (hcall : s.calls[k]? = some call)
    (hstate : call.state = .waiting a) (hc : s.clients[a]? = some c) (hr : c.result = some r) :
    Stepped s (.deliver k) { s with calls := s.calls.set k { call with state := .settled (r.map fun _ => a) } }
  | timer {j : Nat} {sh : Shutdown} (hsh : s.shutdowns[j]? = some sh) :
    Stepped s (.timer j) { s with shutdowns := s.shutdowns.set j { sh with released := true } }
  | finish {j : Nat} {sh : Shutdown} (hsh : s.shutdowns[j]? = some sh) (hreleased : sh.released = true)
    (hresolved : sh.resolved = false) :
    Stepped s (.finish j) { s with shuttingDown := false, shutdowns := s.shutdowns.set j { sh with resolved := true } }

theorem stepped_of_step {e : Event} (h : step s e = some s') : Stepped s e s' := by
  cases e with
  | getClient signal thrown =>
    cases h
    exact .getClient signal thrown
  | shutdown =>
    cases h
    exact .shutdown
  | abort signal =>
    rw [step] at h
    split at h
    · cases h
    · cases h
      exact .abort signal
  | ready a =>
    obtain ⟨c, hc, hif⟩ := Option.bind_eq_some_iff.1 h
    split at hif
    · cases hif
    next hn =>
      cases hif
      have hflags : (c.ready = false ∧ c.errored = false) ∧ c.closed = false := by simpa using hn
      exact .ready hc hflags.1.2 hflags.2
  | error a message =>
    obtain ⟨c, hc, rfl⟩ := Option.map_eq_some_iff.1 h
    exact .error message hc
  | close a =>
    obtain ⟨c, hc, rfl⟩ := Option.map_eq_some_iff.1 h
    exact .close hc
  | cleared a =>
    obtain ⟨c, hc, hif⟩ := Option.bind_eq_some_iff.1 h
    split at hif
    next hcond =>
      cases hif
      exact .cleared hc hcond.1 hcond.2
    · cases hif
  | deliver k =>
    obtain ⟨call, hcall, hmatch⟩ := Option.bind_eq_some_iff.1 h
    rcases hstate : call.state with a | r
    · rw [hstate] at hmatch
      dsimp only at hmatch
      split at hmatch
      · cases hmatch
      · obtain ⟨r, hr, rfl⟩ := Option.map_eq_some_iff.1 hmatch
        obtain ⟨c, hc, hres⟩ := Option.bind_eq_some_iff.1 hr
        exact .deliver hcall hstate hc hres
    · rw [hstate] at hmatch
      cases hmatch
  | timer j =>
    obtain ⟨sh, hsh, rfl⟩ := Option.map_eq_some_iff.1 h
    exact .timer hsh
  | finish j =>
    obtain ⟨sh, hsh, hif⟩ := Option.bind_eq_some_iff.1 h
    split at hif
    next hcond =>
      cases hif
      have hflags : sh.released = true ∧ sh.resolved = false := by simpa using hcond
      exact .finish hsh hflags.1 hflags.2
    · cases hif

theorem Inv.step {e : Event} (hi : Inv s) (h : step s e = some s') : Inv s' := by
  cases stepped_of_step h with
  | getClient signal thrown => exact hi.getClient signal thrown
  | shutdown => exact hi.shutdown
  | abort signal => exact hi.abort signal
  | ready hc herr hclosed => exact hi.ready hc herr hclosed
  | error message hc => exact hi.error hc message
  | close hc => exact hi.close hc
  | cleared hc hp hr => exact hi.cleared hc hp hr
  | deliver => exact hi.of_eq rfl rfl rfl
  | timer => exact hi.of_eq rfl rfl rfl
  | finish => exact hi.of_eq rfl rfl rfl

theorem inv_run {events : List Event} (hi : Inv s) (h : run s events = some s') : Inv s' := by
  induction events generalizing s with
  | nil => cases h; exact hi
  | cons e events ih =>
    obtain ⟨s₁, hs₁, hrun⟩ := Option.bind_eq_some_iff.1 h
    exact ih (hi.step hs₁) hrun

/-- Only `getClient` starts attempts, and not while there is an active client. -/
theorem length_clients_step {e : Event} {a : Nat} (h : step s e = some s') (ha : s.activeClient = some a) :
    s'.clients.length = s.clients.length := by
  cases stepped_of_step h with
  | getClient signal thrown =>
    rcases getClient_cases s signal thrown with ⟨state, heq⟩ | ⟨hnone, -⟩
    · rw [heq]
      rfl
    · rw [ha] at hnone
      cases hnone
  | shutdown =>
    rw [State.shutdown, ha]
    simp [State.update]
  | abort signal => simp [State.abort]
  | ready =>
    rw [State.ready]
    split <;> simp [State.update]
  | error =>
    rw [State.error, invalidate_clients]
    simp [State.update]
  | @close b c hc =>
    show ((s.update b fun c => { c with closed := true }).invalidate b c).clients.length = _
    rw [invalidate_clients]
    simp [State.update]
  | cleared => rfl
  | deliver => rfl
  | timer => rfl
  | finish => rfl

theorem invalidate_of_ne {a b : Nat} (c : Client) (ha : s.activeClient = some a) (hab : b ≠ a) :
    (s.invalidate b c).activeClient = some a := by
  rw [State.invalidate, if_neg (by simp [ha, hab.symm]), ha]

/-- In every reachable state at most one attempt is unsettled, and the active client is ready and has neither failed nor
closed; while there is one, no step starts an attempt, and only its own error and close, or a shutdown, clear it. -/
theorem cache_invariant {events : List Event} {s : State} (h : run {} events = some s) :
    (∀ (a b : Nat) (c d : Client), s.clients[a]? = some c → s.clients[b]? = some d → c.result = none →
      d.result = none → a = b) ∧
    ∀ a, s.activeClient = some a →
      (∃ c, s.clients[a]? = some c ∧ c.ready = true ∧ c.errored = false ∧ c.closed = false) ∧
      (∀ e s', step s e = some s' → s'.clients.length = s.clients.length) ∧
      (∀ b ≠ a, ∀ message s', step s (.error b message) = some s' → s'.activeClient = some a) ∧
      (∀ b ≠ a, ∀ s', step s (.close b) = some s' → s'.activeClient = some a) ∧
      ∀ signal s', step s (.abort signal) = some s' → s'.activeClient = some a := by
  have hi := inv_run inv_init h
  refine ⟨?_, fun a ha => ⟨?_, fun e s' hs => length_clients_step hs ha, ?_, ?_, ?_⟩⟩
  · intro a b c d hc hd hrc hrd
    have hpa := (hi.unsettled a c hc hrc).1
    rw [(hi.unsettled b d hd hrd).1] at hpa
    exact (Option.some.inj hpa).symm
  · obtain ⟨c, hc, hready, herr, hclosed, -⟩ := hi.active a ha
    exact ⟨c, hc, hready, herr, hclosed⟩
  · intro b hb message s' hs
    obtain ⟨c, -, rfl⟩ := Option.map_eq_some_iff.1 hs
    exact invalidate_of_ne c ha hb
  · intro b hb s' hs
    obtain ⟨c, -, rfl⟩ := Option.map_eq_some_iff.1 hs
    exact invalidate_of_ne c ha hb
  · intro signal s' hs
    rw [step] at hs
    split at hs
    · cases hs
    · cases hs
      exact ha

/-- The first client fails, and the second one becomes the active one. -/
theorem cache_invariant_second :
    ∃ s, run {} [.getClient none none, .error 0 "refused", .cleared 0, .getClient (some 7) none, .ready 1] = some s ∧
      ∀ s', step s (.error 0 "late") = some s' → s'.activeClient = some 1 := by
  obtain ⟨s, hs, ha⟩ : ∃ s, run {} [.getClient none none, .error 0 "refused", .cleared 0, .getClient (some 7) none,
      .ready 1] = some s ∧ s.activeClient = some 1 := ⟨_, rfl, rfl⟩
  exact ⟨s, hs, fun s' hs' => ((cache_invariant hs).2 1 ha).2.2.1 0 (by decide) "late" s' hs'⟩

end SSHConnectionManager

end NginxAdmin.Desktop
