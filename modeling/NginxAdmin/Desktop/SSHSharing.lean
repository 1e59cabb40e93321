import NginxAdmin.Desktop.SSHConnectionManager

/-!
# Callers that share an attempt, and shutdowns

Concurrent calls of `getClient` wait for one attempt, which listens to the signal of the call that has started it: its
abort rejects all of them. `shutdown` looks at the active client only, and its flag is cleared by whichever shutdown is
over first.

Both are safe when the steps keep apart what shares a variable: a condition on the state before each step (`Meets`).
-/

namespace NginxAdmin.Desktop.SSHConnectionManager

/-- Every step of the events meets the condition in the state before it. -/
def Meets (P : State → Event → Prop) (s : State) : List Event → Prop
  | [] => True
  | e :: events => P s e ∧ ∀ s', step s e = some s' → Meets P s' events

variable {s s' : State}

/-- What holds at first and is kept by the steps that meet the condition. -/
theorem run_induction {P : State → Event → Prop} {I : State → Prop}
    (hstep : ∀ s e s', Inv s → I s → P s e → step s e = some s' → I s') {events : List Event} (hi : Inv s) (h₀ : I s)
    (hm : Meets P s events) (h : run s events = some s') : I s' := by
  induction events generalizing s with
  | nil => cases h; exact h₀
  | cons e events ih =>
    obtain ⟨s₁, hs₁, hrun⟩ := Option.bind_eq_some_iff.1 h
    exact ih (hi.step hs₁) (hstep s e s₁ hi h₀ hm.1 hs₁) (hm.2 s₁ hs₁) hrun

def IsAborted (e : ExecError) : Prop := ∃ message, e = .remote message abortedCode

/-- The signal of a call is aborted. -/
def OwnAborted (s : State) (signal : Option Nat) : Prop := ∃ sig, signal = some sig ∧ sig ∈ s.aborted

/-- A signal that an unsettled attempt listens to is aborted only when all who wait for the attempt have this signal; and
nobody joins an attempt that was aborted, but for a caller whose signal is aborted. -/
def KeepsApart (s : State) : Event → Prop
  | .abort signal => ∀ call ∈ s.calls, ∀ a c, call.state = .waiting a → s.clients[a]? = some c → c.result = none →
      c.signal = some signal → call.signal = some signal
  | .getClient signal _ => ∀ a c e, s.connectPromise = some a → s.clients[a]? = some c → c.result = some (.error e) →
      IsAborted e → OwnAborted s signal
  | _ => True

/-- Who was rejected by an abort, or is going to be, has aborted. -/
structure AbortInv (s : State) : Prop where
  promise : ∀ a, s.connectPromise = some a → a < s.clients.length
  bound : ∀ call ∈ s.calls, ∀ a, call.state = .waiting a → a < s.clients.length
  rejected : ∀ call ∈ s.calls, ∀ e, call.state = .settled (.error e) → IsAborted e → OwnAborted s call.signal
  waiting : ∀ call ∈ s.calls, ∀ a c e, call.state = .waiting a → s.clients[a]? = some c → c.result = some (.error e) →
    IsAborted e → OwnAborted s call.signal

theorem abortInv_init : AbortInv {} := ⟨by simp, by simp, by simp, by simp⟩

theorem AbortInv.of_clients (hi : AbortInv s) (hcalls : s'.calls = s.calls) (haborted : s'.aborted = s.aborted)
    (hlength : s'.clients.length = s.clients.length)
    (hpromise : ∀ a, s'.connectPromise = some a → s.connectPromise = some a)
    (hclients : ∀ (a : Nat) (c' : Client) (e : ExecError), s'.clients[a]? = some c' → c'.result = some (.error e) →
      IsAborted e → ∃ c, s.clients[a]? = some c ∧ c.result = some (.error e)) : AbortInv s' := by
  have hown : ∀ signal, OwnAborted s signal → OwnAborted s' signal := by
    rintro signal ⟨sig, hsig, hmem⟩
    exact ⟨sig, hsig, haborted ▸ hmem⟩
  refine ⟨fun a ha => hlength ▸ hi.promise a (hpromise a ha), ?_, ?_, ?_⟩
  · rw [hcalls, hlength]
    exact hi.bound
  · rw [hcalls]
    exact fun call hcall e hstate he => hown _ (hi.rejected call hcall e hstate he)
  · rw [hcalls]
    intro call hcall a c' e hstate hc' hr he
    obtain ⟨c, hc, hres⟩ := hclients a c' e hc' hr he
    exact hown _ (hi.waiting call hcall a c e hstate hc hres he)

theorem settle_error {c : Client} {r : Except ExecError Unit} {e : ExecError}
    (h : (c.settle r).result = some (.error e)) : c.result = some (.error e) ∨ r = .error e := by
  rcases hr : c.result with _ | r'
  · rw [Client.settle, hr] at h
    exact .inr (Option.some.inj h)
  · rw [Client.settle, hr] at h
    exact .inl h

theorem AbortInv.push (hi : AbortInv s) {signal : Option Nat} {state : CallState}
    (hbound : ∀ a, state = .waiting a → a < s.clients.length)
    (hrejected : ∀ e, state = .settled (.error e) → IsAborted e → OwnAborted s signal)
    (hwaiting : ∀ a c e, state = .waiting a → s.clients[a]? = some c → c.result = some (.error e) → IsAborted e →
      OwnAborted s signal) : AbortInv (s.push signal state) := by
  have hmem : ∀ call ∈ (s.push signal state).calls, call ∈ s.calls ∨ call = ⟨signal, state⟩ := by
    intro call hcall
    rcases List.mem_append.1 hcall with h | h
    · exact .inl h
    · exact .inr (List.mem_singleton.1 h)
  refine ⟨hi.promise, ?_, ?_, ?_⟩
  · intro call hcall a hstate
    rcases hmem call hcall with h | rfl
    · exact hi.bound call h a hstate
    · exact hbound a hstate
  · intro call hcall e hstate he
    rcases hmem call hcall with h | rfl
    · exact hi.rejected call h e hstate he
    · exact hrejected e hstate he
  · intro call hcall a c e hstate hc hr he
    rcases hmem call hcall with h | rfl
    · exact hi.waiting call h a c e hstate hc hr he
    · exact hwaiting a c e hstate hc hr he

theorem ownAborted_iff {signal : Option Nat} :
    (signal.any fun sig => s.aborted.contains sig) = true ↔ OwnAborted s signal := by
  cases signal with
  | none => simp [OwnAborted]
  | some sig => simp [OwnAborted]

theorem AbortInv.withAbort (hi : AbortInv s) {signal : Option Nat} {a : Nat} (ha : a < s.clients.length)
    (hjoin : ∀ c e, s.clients[a]? = some c → c.result = some (.error e) → IsAborted e → OwnAborted s signal) :
    AbortInv (s.push signal (s.withAbort signal a)) := by
  rw [State.withAbort]
  by_cases h : (signal.any fun sig => s.aborted.contains sig) = true
  · rw [if_pos h]
    exact hi.push (fun _ hs => (by cases hs)) (fun _ _ _ => ownAborted_iff.1 h) fun _ _ _ hs => (by cases hs)
  · rw [if_neg h]
    refine hi.push ?_ (fun _ hs => (by cases hs)) ?_
    · intro b hb
      cases hb
      exact ha
    · intro b c e hb hc hr he
      cases hb
      exact hjoin c e hc hr he

/-- A new attempt is aborted only by the signal of its call. -/
theorem connect_error {signal : Option Nat} {thrown : Option String} {e : ExecError}
    (h : (Client.connect signal s.aborted thrown).result = some (.error e)) (he : IsAborted e) : OwnAborted s signal := by
  rw [Client.connect.eq_def] at h
  split at h
  next hs => exact ownAborted_iff.1 hs
  next =>
    cases thrown with
    | none => cases h
    | some message =>
      cases h
      obtain ⟨m, hm⟩ := he
      cases hm

theorem AbortInv.start (hi : AbortInv s) (signal : Option Nat) (thrown : Option String) :
    AbortInv (s.start signal thrown) := by
  refine ⟨?_, ?_, hi.rejected, ?_⟩
  · intro a ha
    obtain rfl : s.clients.length = a := Option.some.inj ha
    simp [State.start]
  · intro call hcall a hstate
    have hlt := hi.bound call hcall a hstate
    simp only [State.start, List.length_append, List.length_singleton]
    omega
  · intro call hcall a c e hstate hc hr he
    have hlt := hi.bound call hcall a hstate
    rw [State.start, List.getElem?_append_left hlt] at hc
    exact hi.waiting call hcall a c e hstate hc hr he

theorem AbortInv.getClient (hi : AbortInv s) {signal : Option Nat} {thrown : Option String}
    (hk : KeepsApart s (.getClient signal thrown)) : AbortInv (s.getClient signal thrown) := by
  rw [State.getClient]
  by_cases hsd : s.shuttingDown = true
  · rw [if_pos hsd]
    refine hi.push (fun _ hs => (by cases hs)) ?_ fun _ _ _ hs => (by cases hs)
    rintro e hs ⟨m, rfl⟩
    simp [shuttingDownCode, abortedCode] at hs
  · rw [if_neg hsd]
    rcases ha : s.activeClient with _ | a
    · rcases hp : s.connectPromise with _ | a
      · -- a new attempt, with the number that follows
        have hlast : (s.start signal thrown).clients[s.clients.length]? =
            some (Client.connect signal s.aborted thrown) := by
          rw [State.start]
          simp
        refine (hi.start signal thrown).withAbort ?_ ?_
        · simp [State.start]
        · intro c e hc hr he
          rw [hlast] at hc
          obtain rfl := Option.some.inj hc
          exact connect_error hr he
      · exact hi.withAbort (hi.promise a hp) fun c e hc hr he => hk a c e hp hc hr he
    · exact hi.push (fun _ hs => (by cases hs)) (fun _ hs => (by cases hs)) fun _ _ _ hs => (by cases hs)

/-- An abort rejects those who wait with the signal, and the attempts that listen to it. -/
theorem AbortInv.abort (hi : AbortInv s) {signal : Nat} (hk : KeepsApart s (.abort signal)) :
    AbortInv (s.abort signal) := by
  have hown : ∀ sig, OwnAborted s sig → OwnAborted (s.abort signal) sig := by
    rintro sig ⟨n, hn, hmem⟩
    exact ⟨n, hn, List.mem_cons_of_mem signal hmem⟩
  have hsignal : OwnAborted (s.abort signal) (some signal) := ⟨signal, rfl, List.mem_cons_self⟩
  -- a call as it was, or one that waited with the signal
  have hcall : ∀ call' ∈ (s.abort signal).calls, call' ∈ s.calls ∨
      (call'.signal = some signal ∧ call'.state = .settled (.error .aborted)) := by
    intro call' hmem
    obtain ⟨call, hc, rfl⟩ := List.mem_map.1 hmem
    split
    · split
      next hs => exact .inr ⟨hs, rfl⟩
      next => exact .inl hc
    · exact .inl hc
  have hlength : (s.abort signal).clients.length = s.clients.length := by simp [State.abort]
  refine ⟨fun a ha => hlength ▸ hi.promise a ha, ?_, ?_, ?_⟩
  · intro call' hmem a hstate
    rcases hcall call' hmem with hc | ⟨-, hs⟩
    · exact hlength ▸ hi.bound call' hc a hstate
    · rw [hs] at hstate
      cases hstate
  · intro call' hmem e hstate he
    rcases hcall call' hmem with hc | ⟨hs, -⟩
    · exact hown _ (hi.rejected call' hc e hstate he)
    · rw [hs]
      exact hsignal
  · intro call' hmem a c' e hstate hc' hr he
    rcases hcall call' hmem with hcm | ⟨hs, -⟩
    · obtain ⟨c, hc, ⟨hsig, rfl⟩ | ⟨-, rfl⟩⟩ := getElem?_abort hc'
      · rcases hres : c.result with _ | r
        · have hs := hk call' hcm a c hstate hc hres hsig
          rw [hs]
          exact hsignal
        · have hold : c.result = some (.error e) := by
            rw [Client.onAbort] at hr
            split at hr
            · exact hr
            · change (c.settle _).result = some (.error e) at hr
              rw [Client.settle, hres] at hr
              rw [hres]
              exact hr
          exact hown _ (hi.waiting call' hcm a c e hstate hc hold he)
      · exact hown _ (hi.waiting call' hcm a _ e hstate hc hr he)
    · rw [hs]
      exact hsignal

theorem AbortInv.deliver (hi : AbortInv s) {k a : Nat} {call : Call} {c : Client} {r : Except ExecError Unit}
    (hcall : s.calls[k]? = some call) (hstate : call.state = .waiting a) (hc : s.clients[a]? = some c)
    (hr : c.result = some r) :
    AbortInv { s with calls := s.calls.set k { call with state := .settled (r.map fun _ => a) } } := by
  have hmem : ∀ call' ∈ s.calls.set k { call with state := .settled (r.map fun _ => a) },
      call' ∈ s.calls ∨ call' = { call with state := .settled (r.map fun _ => a) } := fun call' h =>
    List.mem_or_eq_of_mem_set h
  refine ⟨hi.promise, ?_, ?_, ?_⟩
  · intro call' h b hb
    rcases hmem call' h with h | rfl
    · exact hi.bound call' h b hb
    · cases hb
  · intro call' h e he haborted
    rcases hmem call' h with h | rfl
    · exact hi.rejected call' h e he haborted
    · have hre : r = .error e := by
        cases r with
        | ok u => cases he
        | error e' => cases he; rfl
      exact hi.waiting call (List.mem_of_getElem? hcall) a c e hstate hc (hre ▸ hr) haborted
  · intro call' h b d e hb hd hres haborted
    rcases hmem call' h with h | rfl
    · exact hi.waiting call' h b d e hb hd hres haborted
    · cases hb

theorem AbortInv.update (hi : AbortInv s) {a : Nat} {f : Client → Client}
    (hf : ∀ c e, (f c).result = some (.error e) → IsAborted e → c.result = some (.error e)) :
    AbortInv (s.update a f) := by
  refine hi.of_clients rfl rfl (by simp [State.update]) (fun _ h => h) fun b c' e hc' hr he => ?_
  obtain ⟨c, hc, ⟨-, rfl⟩ | ⟨-, rfl⟩⟩ := getElem?_update hc'
  · exact ⟨c, hc, hf c e hr he⟩
  · exact ⟨_, hc, hr⟩

theorem AbortInv.of_eq (hi : AbortInv s) (hc : s'.clients = s.clients) (hcalls : s'.calls = s.calls)
    (haborted : s'.aborted = s.aborted) (hpromise : ∀ a, s'.connectPromise = some a → s.connectPromise = some a) :
    AbortInv s' :=
  hi.of_clients hcalls haborted (by rw [hc]) hpromise fun a c' e hc' hr _ => ⟨c', hc ▸ hc', hr⟩

theorem onReady_error {c : Client} {e : ExecError} (h : c.onReady.result = some (.error e)) :
    c.result = some (.error e) := by
  rw [Client.onReady] at h
  split at h
  · exact h
  · rcases settle_error h with h | h
    · exact h
    · cases h

theorem onError_error {c : Client} {message : String} {e : ExecError}
    (h : (c.onError message).result = some (.error e)) (he : IsAborted e) : c.result = some (.error e) := by
  rw [Client.onError] at h
  split at h
  · exact h
  · rcases settle_error h with h | h
    · exact h
    · obtain ⟨m, rfl⟩ := he
      simp [connectFailedCode, abortedCode] at h

theorem AbortInv.invalidate (hi : AbortInv s) (a : Nat) (c : Client) : AbortInv (s.invalidate a c) := by
  rw [State.invalidate]
  split
  · exact hi.of_eq rfl rfl rfl fun _ h => h
  · exact hi

theorem AbortInv.step {e : Event} (hi : AbortInv s) (hk : KeepsApart s e) (h : step s e = some s') :
    AbortInv s' := by
  cases stepped_of_step h with
  | getClient => exact hi.getClient hk
  | shutdown =>
    rw [State.shutdown]
    rcases s.activeClient with _ | a
    · exact hi.of_eq rfl rfl rfl fun _ h => h
    · exact (hi.update (a := a) (f := fun c => { c with ended := true }) fun c e h _ => h).of_eq rfl rfl rfl fun _ h => h
  | abort => exact hi.abort hk
  | @ready a c hc herr hclosed =>
    have hready : AbortInv (s.update a fun c => { c.onReady with ready := true }) :=
      hi.update fun c e h _ => onReady_error h
    rw [State.ready]
    split
    · exact hready
    · exact hready.of_eq rfl rfl rfl fun _ h => h
  | @error a c message hc =>
    exact (hi.update (a := a) (f := fun c => { c.onError message with errored := true })
      fun c e h he => onError_error h he).invalidate a c
  | @close a c hc =>
    exact ((hi.update (a := a) (f := fun c => { c with closed := true }) fun c e h _ => h).invalidate a c).of_eq rfl rfl rfl
      fun _ h => h
  | cleared => exact hi.of_eq rfl rfl rfl fun _ h => by cases h
  | deliver hcall hstate hc hr => exact hi.deliver hcall hstate hc hr
  | timer => exact hi.of_eq rfl rfl rfl fun _ h => h
  | finish => exact hi.of_eq rfl rfl rfl fun _ h => h

/-- In a run whose aborts and calls keep apart, only who aborts is rejected with `ABORTED`. -/
theorem aborted_of_rejected {events : List Event} {s : State} (hm : Meets KeepsApart {} events)
    (h : run {} events = some s) :
    ∀ call ∈ s.calls, ∀ message, call.state = .settled (.error (.remote message abortedCode)) →
      ∃ signal, call.signal = some signal ∧ signal ∈ s.aborted := by
  have hi := run_induction (fun s e s' _ hi hk hs => AbortInv.step hi hk hs) inv_init abortInv_init hm h
  intro call hcall message hstate
  exact hi.rejected call hcall _ hstate ⟨message, rfl⟩

/-- Two calls with one signal share an attempt. -/
theorem aborted_of_rejected_both :
    ∃ s, run {} [.getClient (some 0) none, .getClient (some 0) none, .abort 0] = some s ∧
      ∀ call ∈ s.calls, ∀ message, call.state = .settled (.error (.remote message abortedCode)) →
        ∃ signal, call.signal = some signal ∧ signal ∈ s.aborted := by
  have hm : Meets KeepsApart {} [.getClient (some 0) none, .getClient (some 0) none, .abort 0] := by
    simp [Meets, KeepsApart, step, State.getClient, State.start, State.push, State.withAbort, Client.connect]
    rintro a c e rfl hc hr
    cases hc
    cases hr
  obtain ⟨s, hs⟩ : ∃ s, run {} [.getClient (some 0) none, .getClient (some 0) none, .abort 0] = some s := ⟨_, rfl⟩
  exact ⟨s, hs, aborted_of_rejected hm hs⟩

/-- A call without a signal joins an attempt, and the abort of the one who has started it rejects both. -/
theorem rejected_not_aborted :
    ∃ s call, run {} [.getClient (some 0) none, .getClient none none, .abort 0, .cleared 0, .deliver 1] = some s ∧
      s.calls[1]? = some call ∧ call.state = .settled (.error (.remote "Operation aborted" abortedCode)) ∧
      ¬ ∃ signal, call.signal = some signal ∧ signal ∈ s.aborted :=
  ⟨_, _, rfl, rfl, rfl, by rintro ⟨signal, h, -⟩; cases h⟩

/-- The client was ended, has closed or has failed. -/
def Client.Gone (c : Client) : Prop := c.ended = true ∨ c.closed = true ∨ c.errored = true

/-- A shutdown is called only when no attempt is under way, and no other shutdown. -/
def Alone (s : State) : Event → Prop
  | .shutdown => (∀ c ∈ s.clients, c.result ≠ none) ∧ ∀ sh ∈ s.shutdowns, sh.resolved = true
  | _ => True

/-- Shutdown `i` is not over. -/
def Pending (s : State) (i : Nat) : Prop := ∃ sh, s.shutdowns[i]? = some sh ∧ sh.resolved = false

/-- An attempt that has settled has left the active client, or one that is gone. -/
def AllGone (s : State) : Prop :=
  ∀ (a : Nat) (c : Client), s.clients[a]? = some c → c.result ≠ none → s.activeClient ≠ some a → c.Gone

structure BarrierInv (s : State) : Prop where
  gone : AllGone s
  before : ∀ sh ∈ s.shutdowns, ∀ a < sh.before,
    s.activeClient ≠ some a ∧ ∃ c, s.clients[a]? = some c ∧ c.result ≠ none
  flag : ∀ i, Pending s i → s.shuttingDown = true
  once : ∀ i j, Pending s i → Pending s j → i = j

theorem barrierInv_init : BarrierInv {} := ⟨by simp [AllGone], by simp, by simp [Pending], by simp [Pending]⟩

/-- What a step leaves of the attempts: they stay settled, and only one that was not becomes the active one. -/
structure Later (s s' : State) : Prop where
  clients : ∀ (a : Nat) (c : Client), s.clients[a]? = some c → c.result ≠ none →
    ∃ c', s'.clients[a]? = some c' ∧ c'.result ≠ none
  active : ∀ a, s'.activeClient = some a → s.activeClient = some a ∨
    ∃ c, s.clients[a]? = some c ∧ c.result = none

theorem Later.before (h : Later s s') {n : Nat}
    (hb : ∀ a < n, s.activeClient ≠ some a ∧ ∃ c, s.clients[a]? = some c ∧ c.result ≠ none) :
    ∀ a < n, s'.activeClient ≠ some a ∧ ∃ c, s'.clients[a]? = some c ∧ c.result ≠ none := by
  intro a ha
  obtain ⟨hne, c, hc, hr⟩ := hb a ha
  refine ⟨fun hact => ?_, h.clients a c hc hr⟩
  rcases h.active a hact with hold | ⟨c', hc', hnone⟩
  · exact hne hold
  · rw [hc] at hc'
    obtain rfl := Option.some.inj hc'
    exact hr hnone

theorem later_of_eq (hc : s'.clients = s.clients) (ha : ∀ a, s'.activeClient = some a → s.activeClient = some a) :
    Later s s' :=
  ⟨fun _ c h hr => ⟨c, hc ▸ h, hr⟩, fun a h => .inl (ha a h)⟩

theorem later_update {a : Nat} {f : Client → Client} (hf : ∀ c : Client, (f c).result = none → c.result = none)
    (hc : s'.clients = (s.update a f).clients)
    (hact : ∀ b, s'.activeClient = some b → s.activeClient = some b ∨ ∃ c, s.clients[b]? = some c ∧ c.result = none) :
    Later s s' := by
  refine ⟨fun b c h hr => ?_, hact⟩
  rw [hc]
  by_cases hab : a = b
  · subst hab
    exact ⟨f c, update_getElem?_self h, fun hn => hr (hf c hn)⟩
  · exact ⟨c, (update_getElem?_ne hab).trans h, hr⟩

theorem later_step {e : Event} (hinv : Inv s) (h : step s e = some s') : Later s s' := by
  cases stepped_of_step h with
  | getClient signal thrown =>
    rcases getClient_cases s signal thrown with ⟨state, heq⟩ | ⟨-, -, state, heq⟩
    · rw [heq]
      exact later_of_eq rfl fun _ h => h
    · rw [heq]
      refine ⟨fun b c hb hr => ⟨c, ?_, hr⟩, fun b hb => .inl hb⟩
      have hlt := (List.getElem?_eq_some_iff.1 hb).1
      exact (List.getElem?_append_left hlt).trans hb
  | shutdown =>
    rw [State.shutdown]
    rcases hact : s.activeClient with _ | a
    · exact later_of_eq rfl fun b hb => hact ▸ hb
    · exact later_update (f := fun c => { c with ended := true }) (fun _ h => h) rfl fun b hb => (by cases hb)
  | abort signal =>
    refine ⟨fun a c hc hr => ?_, fun a ha => .inl ha⟩
    refine ⟨if c.signal = some signal then c.onAbort else c, ?_, ?_⟩
    · rw [State.abort, List.getElem?_map, hc]
      rfl
    · split
      · exact fun hn => hr (Client.onAbort_result_none hn)
      · exact hr
  | @ready a c hc herr hclosed =>
    refine later_update (a := a) (f := fun c => { c.onReady with ready := true })
      (fun d hd => Client.onReady_result_none hd) ?_ ?_
    · rw [State.ready]
      split <;> rfl
    · intro b hb
      rw [State.ready] at hb
      split at hb
      next => exact .inl hb
      next hs =>
        obtain rfl : a = b := Option.some.inj hb
        exact .inr ⟨c, hc, (hinv.mem hc).unsettled (by simpa using hs) herr⟩
  | @error a c message hc =>
    exact later_update (f := fun c => { c.onError message with errored := true })
      (fun d hd => Client.onError_result_none hd) (invalidate_clients _ a c) fun b hb => .inl (invalidate_activeClient hb).1
  | @close a c hc =>
    exact later_update (f := fun c => { c with closed := true }) (fun d hd => hd) (invalidate_clients _ a c)
      fun b hb => .inl (invalidate_activeClient hb).1
  | cleared => exact later_of_eq rfl fun _ h => h
  | deliver => exact later_of_eq rfl fun _ h => h
  | timer => exact later_of_eq rfl fun _ h => h
  | finish => exact later_of_eq rfl fun _ h => h

theorem AllGone.of_eq (h : AllGone s) (hc : s'.clients = s.clients) (ha : s'.activeClient = s.activeClient) :
    AllGone s' := by
  intro a c
  rw [hc, ha]
  exact h a c

theorem gone_connect {signal : Option Nat} {aborted : List Nat} {thrown : Option String}
    (h : (Client.connect signal aborted thrown).result ≠ none) : (Client.connect signal aborted thrown).Gone := by
  rw [Client.connect.eq_def] at h ⊢
  by_cases hs : (signal.any fun sig => aborted.contains sig) = true
  · rw [if_pos hs]
    exact .inl rfl
  · rw [if_neg hs] at h ⊢
    cases thrown with
    | none => exact absurd rfl h
    | some message => exact .inr (.inr rfl)

theorem AllGone.start (h : AllGone s) (signal : Option Nat) (thrown : Option String) :
    AllGone (s.start signal thrown) := by
  intro a c hc hr hne
  rcases Nat.lt_or_ge a s.clients.length with hlt | hge
  · exact h a c ((List.getElem?_append_left hlt).symm.trans hc) hr hne
  · rw [State.start, List.getElem?_append_right hge] at hc
    have hmem := List.mem_of_getElem? hc
    obtain rfl := List.mem_singleton.1 hmem
    exact gone_connect hr

theorem gone_onAbort {c : Client} (hi : c.Inv) (h : c.result ≠ none → c.Gone) : c.onAbort.Gone := by
  rw [Client.onAbort]
  split
  next hs => exact h (hi.settled hs)
  next => exact .inl rfl

theorem AllGone.invalidate (h : AllGone s) {a : Nat} {c : Client} {f : Client → Client}
    (hf : ∀ d : Client, (f d).Gone) : AllGone ((s.update a f).invalidate a c) := by
  intro b d hd hr hne
  rw [invalidate_clients] at hd
  obtain ⟨e, he, ⟨-, rfl⟩ | ⟨hab, rfl⟩⟩ := getElem?_update hd
  · exact hf e
  · refine h b _ he hr fun hact => hne ?_
    exact invalidate_of_ne (s := s.update a f) c hact hab

theorem AllGone.ready (hinv : Inv s) (h : AllGone s) {a : Nat} {c : Client} (hc : s.clients[a]? = some c)
    (herr : c.errored = false) : AllGone (s.ready a c) := by
  have hflags : ∀ d : Client, d.Gone → Client.Gone { d.onReady with ready := true } := by
    intro d hd
    rw [Client.onReady]
    split
    · exact hd
    · exact hd
  intro b d hd hr hne
  rw [State.ready] at hd hne
  by_cases hs : c.settled = true
  · rw [if_pos hs] at hd hne
    obtain ⟨e, he, ⟨rfl, rfl⟩ | ⟨-, rfl⟩⟩ := getElem?_update hd
    · obtain rfl : c = e := by rw [hc] at he; exact Option.some.inj he
      exact hflags c (h a c hc ((hinv.mem hc).settled hs) hne)
    · exact h b _ he hr hne
  · rw [if_neg hs] at hd hne
    obtain ⟨e, he, ⟨rfl, rfl⟩ | ⟨hab, rfl⟩⟩ := getElem?_update hd
    · exact absurd rfl hne
    · -- nothing was active while the attempt was under way
      have hnone := (hinv.mem hc).unsettled (by simpa using hs) herr
      have hact := (hinv.unsettled a c hc hnone).2
      exact h b _ he hr (by simp [hact])

theorem AllGone.step {e : Event} (hinv : Inv s) (h : AllGone s) (hs : step s e = some s') : AllGone s' := by
  cases stepped_of_step hs with
  | getClient signal thrown =>
    rcases getClient_cases s signal thrown with ⟨state, heq⟩ | ⟨-, -, state, heq⟩
    · rw [heq]
      exact h.of_eq rfl rfl
    · rw [heq]
      exact (h.start signal thrown).of_eq rfl rfl
  | shutdown =>
    rw [State.shutdown]
    rcases hact : s.activeClient with _ | a
    · exact h.of_eq rfl hact.symm
    · intro b d hd hr hne
      obtain ⟨e, he, ⟨-, rfl⟩ | ⟨hab, rfl⟩⟩ := getElem?_update hd
      · exact .inl rfl
      · exact h b _ he hr (by rw [hact]; exact fun hb => hab (Option.some.inj hb))
  | abort signal =>
    intro a c' hc' hr hne
    obtain ⟨c, hc, ⟨-, rfl⟩ | ⟨-, rfl⟩⟩ := getElem?_abort hc'
    · exact gone_onAbort (hinv.mem hc) fun hr' => h a c hc hr' hne
    · exact h a _ hc hr hne
  | ready hc herr => exact h.ready hinv hc herr
  | error message => exact h.invalidate (f := fun c => { c.onError message with errored := true }) fun d => .inr (.inr rfl)
  | @close a c hc =>
    exact (h.invalidate (a := a) (c := c) (f := fun c => { c with closed := true }) fun d => .inr (.inl rfl)).of_eq rfl rfl
  | cleared => exact h.of_eq rfl rfl
  | deliver => exact h.of_eq rfl rfl
  | timer => exact h.of_eq rfl rfl
  | finish => exact h.of_eq rfl rfl

theorem shutdowns_invalidate (s : State) (a : Nat) (c : Client) : (s.invalidate a c).shutdowns = s.shutdowns ∧
    (s.invalidate a c).shuttingDown = s.shuttingDown := by
  rw [State.invalidate]
  split <;> exact ⟨rfl, rfl⟩

theorem shutdowns_getClient (s : State) (signal : Option Nat) (thrown : Option String) :
    (s.getClient signal thrown).shutdowns = s.shutdowns ∧ (s.getClient signal thrown).shuttingDown = s.shuttingDown := by
  rcases getClient_cases s signal thrown with ⟨state, heq⟩ | ⟨-, -, state, heq⟩
  · rw [heq]
    exact ⟨rfl, rfl⟩
  · rw [heq]
    exact ⟨rfl, rfl⟩

theorem shutdowns_ready (s : State) (a : Nat) (c : Client) : (s.ready a c).shutdowns = s.shutdowns ∧
    (s.ready a c).shuttingDown = s.shuttingDown := by
  rw [State.ready]
  split <;> exact ⟨rfl, rfl⟩

theorem getElem?_set_shutdown {i j : Nat} {sh sh' new : Shutdown} (hsh : s.shutdowns[j]? = some sh)
    (h : (s.shutdowns.set j new)[i]? = some sh') : (j = i ∧ sh' = new) ∨ (j ≠ i ∧ s.shutdowns[i]? = some sh') := by
  rw [List.getElem?_set] at h
  by_cases hji : j = i
  · have hlt := (List.getElem?_eq_some_iff.1 hsh).1
    rw [if_pos hji, if_pos hlt] at h
    exact .inl ⟨hji, (Option.some.inj h).symm⟩
  · rw [if_neg hji] at h
    exact .inr ⟨hji, h⟩

/-- The shutdowns after a step, but for the call of one. -/
theorem shutdowns_step {e : Event} (he : e ≠ .shutdown) (hs : step s e = some s') {i : Nat} {sh' : Shutdown}
    (h : s'.shutdowns[i]? = some sh') : ∃ sh, s.shutdowns[i]? = some sh ∧ sh'.before = sh.before ∧
      (sh'.resolved = false → sh.resolved = false ∧ e ≠ .finish i) := by
  cases stepped_of_step hs with
  | getClient signal thrown =>
    rw [(shutdowns_getClient s signal thrown).1] at h
    exact ⟨sh', h, rfl, fun hr => ⟨hr, by simp⟩⟩
  | shutdown => exact absurd rfl he
  | abort => exact ⟨sh', h, rfl, fun hr => ⟨hr, by simp⟩⟩
  | @ready a c =>
    rw [(shutdowns_ready s a c).1] at h
    exact ⟨sh', h, rfl, fun hr => ⟨hr, by simp⟩⟩
  | error =>
    rw [State.error, (shutdowns_invalidate _ _ _).1] at h
    exact ⟨sh', h, rfl, fun hr => ⟨hr, by simp⟩⟩
  | close =>
    rw [State.close, List.getElem?_map] at h
    obtain ⟨sh, hsh, rfl⟩ := Option.map_eq_some_iff.1 h
    refine ⟨sh, hsh, ?_, fun hr => ⟨?_, by simp⟩⟩
    · split <;> rfl
    · split at hr <;> exact hr
  | cleared => exact ⟨sh', h, rfl, fun hr => ⟨hr, by simp⟩⟩
  | deliver => exact ⟨sh', h, rfl, fun hr => ⟨hr, by simp⟩⟩
  | @timer j sh hsh =>
    rcases getElem?_set_shutdown hsh h with ⟨rfl, rfl⟩ | ⟨-, hold⟩
    · exact ⟨sh, hsh, rfl, fun hr => ⟨hr, by simp⟩⟩
    · exact ⟨sh', hold, rfl, fun hr => ⟨hr, by simp⟩⟩
  | @finish j sh hsh =>
    rcases getElem?_set_shutdown hsh h with ⟨rfl, rfl⟩ | ⟨hji, hold⟩
    · exact ⟨sh, hsh, rfl, fun hr => (by cases hr)⟩
    · exact ⟨sh', hold, rfl, fun hr => ⟨hr, by simp [hji]⟩⟩

/-- Only a shutdown sets and clears the flag. -/
theorem shuttingDown_step {e : Event} (he : e ≠ .shutdown) (hf : ∀ j, e ≠ .finish j) (hs : step s e = some s') :
    s'.shuttingDown = s.shuttingDown := by
  cases stepped_of_step hs with
  | getClient signal thrown => exact (shutdowns_getClient s signal thrown).2
  | shutdown => exact absurd rfl he
  | abort => rfl
  | @ready a c => exact (shutdowns_ready s a c).2
  | @error a c message => exact (shutdowns_invalidate (s.update a fun c => { c.onError message with errored := true }) a c).2
  | @close a c => exact (shutdowns_invalidate (s.update a fun c => { c with closed := true }) a c).2
  | cleared => rfl
  | deliver => rfl
  | timer => rfl
  | finish => exact absurd rfl (hf _)

/-- The call of a shutdown with nothing under way: there is no active client afterwards, and every attempt has settled. -/
theorem BarrierInv.shutdown (hinv : Inv s) (hi : BarrierInv s) (ha : Alone s .shutdown) : BarrierInv s.shutdown := by
  have hstep : step s .shutdown = some s.shutdown := rfl
  have hlater := later_step hinv hstep
  have hactive : s.shutdown.activeClient = none := by
    rw [State.shutdown]
    rcases s.activeClient with _ | a <;> rfl
  obtain ⟨sh₀, hshutdowns, hbefore, hflag⟩ : ∃ sh₀, s.shutdown.shutdowns = s.shutdowns ++ [sh₀] ∧
      sh₀.before = s.clients.length ∧ (sh₀.resolved = false → s.shutdown.shuttingDown = true) := by
    rw [State.shutdown]
    rcases s.activeClient with _ | a
    · exact ⟨_, rfl, rfl, fun h => (by cases h)⟩
    · exact ⟨_, rfl, rfl, fun _ => rfl⟩
  -- only the new shutdown may be pending
  have hpending : ∀ i, Pending s.shutdown i → i = s.shutdowns.length ∧ sh₀.resolved = false := by
    rintro i ⟨sh, hsh, hr⟩
    rw [hshutdowns] at hsh
    rcases Nat.lt_or_ge i s.shutdowns.length with hlt | hge
    · rw [List.getElem?_append_left hlt] at hsh
      rw [ha.2 sh (List.mem_of_getElem? hsh)] at hr
      cases hr
    · have hbound := (List.getElem?_eq_some_iff.1 hsh).1
      rw [List.length_append, List.length_singleton] at hbound
      rw [List.getElem?_append_right hge] at hsh
      obtain rfl := List.mem_singleton.1 (List.mem_of_getElem? hsh)
      exact ⟨by omega, hr⟩
  refine ⟨hi.gone.step hinv hstep, ?_, fun i h => hflag (hpending i h).2, ?_⟩
  · intro sh hsh
    rw [hshutdowns] at hsh
    rcases List.mem_append.1 hsh with hsh | hsh
    · exact hlater.before (hi.before sh hsh)
    · obtain rfl := List.mem_singleton.1 hsh
      intro a hlt
      rw [hbefore] at hlt
      obtain ⟨c, hc⟩ : ∃ c, s.clients[a]? = some c := ⟨_, List.getElem?_eq_getElem hlt⟩
      refine ⟨by rw [hactive]; simp, hlater.clients a c hc (ha.1 c (List.mem_of_getElem? hc))⟩
  · intro i j hi' hj'
    rw [(hpending i hi').1, (hpending j hj').1]

theorem BarrierInv.step {e : Event} (hinv : Inv s) (hi : BarrierInv s) (ha : Alone s e) (hs : step s e = some s') :
    BarrierInv s' := by
  by_cases he : e = .shutdown
  · subst he
    obtain rfl := Option.some.inj hs
    exact hi.shutdown hinv ha
  · have hlater := later_step hinv hs
    have hpending : ∀ i, Pending s' i → Pending s i ∧ e ≠ .finish i := by
      rintro i ⟨sh', hsh', hr⟩
      obtain ⟨sh, hsh, -, hres⟩ := shutdowns_step he hs hsh'
      exact ⟨⟨sh, hsh, (hres hr).1⟩, (hres hr).2⟩
    refine ⟨hi.gone.step hinv hs, ?_, ?_, fun i j h h' => hi.once i j (hpending i h).1 (hpending j h').1⟩
    · intro sh' hsh'
      obtain ⟨i, hsh'⟩ := List.mem_iff_getElem?.1 hsh'
      obtain ⟨sh, hsh, hb, -⟩ := shutdowns_step he hs hsh'
      rw [hb]
      exact hlater.before (hi.before sh (List.mem_of_getElem? hsh))
    · intro i h
      obtain ⟨hold, hne⟩ := hpending i h
      -- the step that clears the flag ends the only pending shutdown
      have hf : ∀ j, e ≠ .finish j := by
        rintro j rfl
        cases stepped_of_step hs with
        | @finish _ sh hsh _ hr =>
          obtain rfl := hi.once i j hold ⟨sh, hsh, hr⟩
          exact hne rfl
      rw [shuttingDown_step he hf hs]
      exact hi.flag i hold

/-- In a run whose shutdowns are called with nothing under way, the clients of the attempts before a shutdown are gone when
it is over, and none of them is the active one from then on; and while one is pending, `getClient` rejects. -/
theorem barrier_of_alone {events : List Event} {s : State} (hm : Meets Alone {} events) (h : run {} events = some s) :
    (∀ sh ∈ s.shutdowns, sh.resolved = true → ∀ a < sh.before, s.activeClient ≠ some a ∧
      ∃ c, s.clients[a]? = some c ∧ (c.ended = true ∨ c.closed = true ∨ c.errored = true)) ∧
    ((∃ sh ∈ s.shutdowns, sh.resolved = false) → ∀ signal thrown, step s (.getClient signal thrown) =
      some (s.push signal (.settled (.error (.remote "SSH connection manager is shutting down" shuttingDownCode))))) := by
  have hi := run_induction (fun s e s' hinv hi ha hs => BarrierInv.step hinv hi ha hs) inv_init barrierInv_init hm h
  constructor
  · intro sh hsh _ a ha
    obtain ⟨hne, c, hc, hr⟩ := hi.before sh hsh a ha
    exact ⟨hne, c, hc, hi.gone a c hc hr hne⟩
  · rintro ⟨sh, hsh, hr⟩ signal thrown
    obtain ⟨i, hget⟩ := List.mem_iff_getElem?.1 hsh
    have hflag := hi.flag i ⟨sh, hget, hr⟩
    show some (s.getClient signal thrown) = _
    rw [State.getClient, if_pos hflag]

/-- A client that is ready is shut down. -/
theorem barrier_of_alone_ready :
    ∃ s, run {} [.getClient none none, .ready 0, .cleared 0, .deliver 0, .shutdown, .close 0, .finish 0] = some s ∧
      ∀ sh ∈ s.shutdowns, sh.resolved = true → ∀ a < sh.before, s.activeClient ≠ some a ∧
        ∃ c, s.clients[a]? = some c ∧ (c.ended = true ∨ c.closed = true ∨ c.errored = true) := by
  have hm : Meets Alone {} [.getClient none none, .ready 0, .cleared 0, .deliver 0, .shutdown, .close 0, .finish 0] := by
    simp [Meets, Alone, step, State.getClient, State.start, State.push, State.withAbort, Client.connect, State.ready,
      State.update, Client.onReady, Client.settle]
  obtain ⟨s, hs⟩ : ∃ s, run {} [.getClient none none, .ready 0, .cleared 0, .deliver 0, .shutdown, .close 0, .finish 0] =
    some s := ⟨_, rfl⟩
  exact ⟨s, hs, (barrier_of_alone hm hs).1⟩

/-- A shutdown during an attempt is over at once, and the client of the attempt becomes the active one. -/
theorem shutdown_not_barrier :
    ∃ s c, run {} [.getClient none none, .shutdown, .ready 0] = some s ∧
      s.shutdowns[0]? = some ⟨1, none, true, true⟩ ∧ s.clients[0]? = some c ∧ s.activeClient = some 0 ∧
      ¬ (c.ended = true ∨ c.closed = true ∨ c.errored = true) :=
  ⟨_, _, rfl, rfl, rfl, rfl, by simp [Client.onReady, Client.settle, Client.connect]⟩

end NginxAdmin.Desktop.SSHConnectionManager
