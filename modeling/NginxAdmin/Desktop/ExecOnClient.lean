import NginxAdmin.Desktop.StreamText

/-!
# One command on a client (`execOnClient` of `SSHExecutor.ts`)

A state machine of the promise of `execOnClient`, with its timer, its abort listener and the channel that `client.exec` opens.
The promise is settled by the first of its events, which takes the timer and the listener away. An abort or a timeout closes
the channel that is there then; a channel that is opened later is not closed by anybody (`tidy_iff`, `channel_left_open`).
-/

namespace NginxAdmin.Desktop.SSHExecutor.ExecOnClient

/-- A channel, with what the executor has called on it. -/
structure ClientChannel where
  /-- `close()` was called. -/
  closed : Bool := false
  /-- `end()` was called. -/
  ended : Bool := false
  /-- It has emitted `close`. -/
  gone : Bool := false
deriving DecidableEq, Repr

structure State where
  /-- Whether the signal is aborted, if there is one. -/
  signal : Option Bool
  streamRef : Option ClientChannel := none
  settled : Bool := false
  /-- The timer is running. -/
  timer : Bool := false
  /-- `onAbort` is a listener of the signal. -/
  listening : Bool := false
  /-- `client.exec` has not called back yet. -/
  opening : Bool := false
  texts : Texts := {}
  /-- The calls of `resolve` and `reject`, each by how the command ended. -/
  settlements : List Ending := []
deriving DecidableEq, Repr

namespace State

/-- `rejectOnce` and `resolveOnce`. -/
def settleOnce (s : State) (ending : Ending) : State :=
  if s.settled then s
  else { s with settled := true, timer := false, listening := false, settlements := s.settlements ++ [ending] }

def abortStream (s : State) : State :=
  { s with streamRef := s.streamRef.map fun c => { c with closed := true, ended := true } }

def onAbort (s : State) : State := s.abortStream.settleOnce .aborted

/-- The callback of the timer. -/
def onTimeout (s : State) : State := s.abortStream.settleOnce .timedOut

/-- The handler of `close`. -/
def onClose (s : State) (exit : Exit) : State := s.settleOnce (.closed exit s.texts.stdout s.texts.stderr)

/-- What the promise has come to. -/
def promise (s : State) : Option (Except ExecError String) := s.settlements.head?.map Ending.result

@[simp] theorem texts_settleOnce (s : State) (ending : Ending) : (s.settleOnce ending).texts = s.texts := by
  unfold settleOnce
  split
  · rfl
  · rfl

@[simp] theorem texts_abortStream (s : State) : s.abortStream.texts = s.texts := rfl

@[simp] theorem settlements_abortStream (s : State) : s.abortStream.settlements = s.settlements := rfl

theorem settlements_settleOnce (s : State) (ending : Ending) :
    (s.settleOnce ending).settlements = s.settlements ∨ (s.settleOnce ending).settlements = s.settlements ++ [ending] := by
  unfold settleOnce
  split
  · exact .inl rfl
  · exact .inr rfl

end State

/-- The call: `client.exec` may throw, and the promise is rejected with that. -/
def execOnClient (signal : Option Bool) (thrown : Option String) : State :=
  if signal = some true then State.onAbort { signal := signal }
  else
    match thrown with
    | some message => { signal := signal, timer := true, listening := signal.isSome, settlements := [.thrown message] }
    | none => { signal := signal, timer := true, listening := signal.isSome, opening := true }

inductive Event where
  | abort
  | timeout
  /-- `client.exec` calls back with a channel. -/
  | opened
  | openFailed (message : String)
  | data (chunk : Chunk)
  | close (exit : Exit)
deriving DecidableEq, Repr

/-- The step of an event, when it can happen: a signal is aborted once, `client.exec` calls back once, and a channel emits
nothing after `close`. -/
def step (s : State) : Event → Option State
  | .abort =>
    if s.signal = some false then
      if s.listening then some (State.onAbort { s with signal := some true, listening := false })
      else some { s with signal := some true }
    else none
  | .timeout => if s.timer then some (State.onTimeout { s with timer := false }) else none
  | .opened => if s.opening then some { s with opening := false, streamRef := some {} } else none
  | .openFailed message =>
    if s.opening then some (State.settleOnce { s with opening := false } (.openFailed message)) else none
  | .data chunk =>
    s.streamRef.bind fun c => if c.gone then none else some { s with texts := s.texts.data chunk }
  | .close exit =>
    s.streamRef.bind fun c =>
      if c.gone then none else some (State.onClose { s with streamRef := some { c with gone := true } } exit)

def run (s : State) : List Event → Option State
  | [] => some s
  | e :: events => (step s e).bind fun s' => run s' events

/-- `P` holds in every state of the run. -/
def Always (P : State → Prop) : State → List Event → Prop
  | s, [] => P s
  | s, e :: events => P s ∧ ∀ s', step s e = some s' → Always P s' events

/-- The promise was rejected because of an abort or a timeout. -/
def CutShort (s : State) : Prop := .aborted ∈ s.settlements ∨ .timedOut ∈ s.settlements

/-- The promise is settled once, nothing is left of a settled call, and no channel of a call that was cut short is left open. -/
structure Tidy (s : State) : Prop where
  once : s.settlements.length ≤ 1
  removed : s.settlements ≠ [] → s.timer = false ∧ s.listening = false
  closed : CutShort s → ∀ c, s.streamRef = some c → c.closed = true

/-- No channel is opened after an abort or a timeout. -/
def OpensInTime : State → List Event → Prop
  | _, [] => True
  | s, e :: events => ∀ s', step s e = some s' → ¬ (e = .opened ∧ CutShort s) ∧ OpensInTime s' events

variable {s s' : State} {signal : Option Bool} {thrown : Option String}

/-- The steps, with what settles the promise. -/
inductive Stepped (s : State) : Event → State → Prop
  | ignored (h : s.listening = false) : Stepped s .abort { s with signal := some true }
  | aborted (h : s.listening = true) : Stepped s .abort (State.onAbort { s with signal := some true, listening := false })
  | timedOut (h : s.timer = true) : Stepped s .timeout (State.onTimeout { s with timer := false })
  | opened (h : s.opening = true) : Stepped s .opened { s with opening := false, streamRef := some {} }
  | openFailed {message : String} (h : s.opening = true) :
      Stepped s (.openFailed message) (State.settleOnce { s with opening := false } (.openFailed message))
  | data {chunk : Chunk} : Stepped s (.data chunk) { s with texts := s.texts.data chunk }
  | close {c : ClientChannel} {exit : Exit} (h : s.streamRef = some c) :
      Stepped s (.close exit) (State.onClose { s with streamRef := some { c with gone := true } } exit)

theorem stepped_of_step {e : Event} (h : step s e = some s') : Stepped s e s' := by
  cases e with
  | abort =>
    simp only [step] at h
    split at h
    · split at h
      next hl =>
        cases h
        exact .aborted hl
      next hl =>
        cases h
        exact .ignored (by simpa using hl)
    · cases h
  | timeout =>
    obtain ⟨ht, rfl⟩ : s.timer = true ∧ State.onTimeout { s with timer := false } = s' := by simpa [step] using h
    exact .timedOut ht
  | opened =>
    obtain ⟨ho, rfl⟩ : s.opening = true ∧ { s with opening := false, streamRef := some {} } = s' := by simpa [step] using h
    exact .opened ho
  | openFailed message =>
    obtain ⟨ho, rfl⟩ : s.opening = true ∧ State.settleOnce { s with opening := false } (.openFailed message) = s' := by
      simpa [step] using h
    exact .openFailed ho
  | data chunk =>
    obtain ⟨c, -, hc⟩ := Option.bind_eq_some_iff.1 h
    split at hc
    · cases hc
    · cases hc
      exact .data
  | close exit =>
    obtain ⟨c, hs, hc⟩ := Option.bind_eq_some_iff.1 h
    split at hc
    · cases hc
    · cases hc
      exact .close hs

/-! ### The invariant -/

structure Inv (s : State) : Prop where
  unsettled : s.settled = false → s.settlements = []
  settled : s.settled = true → s.settlements.length = 1 ∧ s.timer = false ∧ s.listening = false
  closed : CutShort s → ∀ c, s.streamRef = some c → c.closed = true

namespace Inv

theorem tidy (h : Inv s) : Tidy s := by
  cases hs : s.settled with
  | false => exact ⟨by simp [h.unsettled hs], fun hne => absurd (h.unsettled hs) hne, h.closed⟩
  | true => exact ⟨(h.settled hs).1.le, fun _ => (h.settled hs).2, h.closed⟩

/-- The promise may be settled with an abort or a timeout only after the channel was closed. -/
theorem settleOnce (h : Inv s) {ending : Ending}
    (hc : ending = .aborted ∨ ending = .timedOut → ∀ c, s.streamRef = some c → c.closed = true) :
    Inv (s.settleOnce ending) := by
  unfold State.settleOnce
  split
  · exact h
  next hs =>
    have hnil := h.unsettled (by simpa using hs)
    refine ⟨by simp, by simp [hnil], fun hcut c hstream => ?_⟩
    simp only [CutShort, hnil, List.nil_append, List.mem_singleton] at hcut
    exact hc (hcut.imp Eq.symm Eq.symm) c hstream

theorem abortStream (h : Inv s) : Inv s.abortStream := by
  refine ⟨h.unsettled, h.settled, fun _ c hc => ?_⟩
  obtain ⟨c', -, rfl⟩ := Option.map_eq_some_iff.1 hc
  rfl

theorem closed_abortStream (s : State) : ∀ c, s.abortStream.streamRef = some c → c.closed = true := by
  intro c hc
  obtain ⟨c', -, rfl⟩ := Option.map_eq_some_iff.1 hc
  rfl

/-- The timer and the listener do not come back. -/
theorem congr (h : Inv s) (hs : s'.settled = s.settled) (hm : s'.settlements = s.settlements) (hr : s'.streamRef = s.streamRef)
    (ht : s.timer = false → s'.timer = false) (hl : s.listening = false → s'.listening = false) : Inv s' := by
  refine ⟨?_, ?_, ?_⟩
  · rw [hs, hm]
    exact h.unsettled
  · rw [hs, hm]
    intro hsettled
    obtain ⟨hone, htimer, hlistening⟩ := h.settled hsettled
    exact ⟨hone, ht htimer, hl hlistening⟩
  · rw [CutShort, hm, hr]
    exact h.closed

theorem step {e : Event} (h : Inv s) (hstep : Stepped s e s') (hlate : ¬ (e = .opened ∧ CutShort s)) : Inv s' := by
  cases hstep with
  | ignored => exact h.congr rfl rfl rfl id id
  | aborted =>
    have hs : Inv { s with signal := some true, listening := false } := h.congr rfl rfl rfl id fun _ => rfl
    exact hs.abortStream.settleOnce fun _ => closed_abortStream _
  | timedOut =>
    have hs : Inv { s with timer := false } := h.congr rfl rfl rfl (fun _ => rfl) id
    exact hs.abortStream.settleOnce fun _ => closed_abortStream _
  | opened =>
    refine ⟨h.unsettled, h.settled, fun hcut => ?_⟩
    exact absurd ⟨rfl, hcut⟩ hlate
  | openFailed =>
    have hs : Inv { s with opening := false } := h.congr rfl rfl rfl id id
    exact hs.settleOnce (by simp)
  | data => exact h.congr rfl rfl rfl id id
  | @close c exit hs =>
    have hgone : Inv { s with streamRef := some { c with gone := true } } := by
      refine ⟨h.unsettled, h.settled, fun hcut c' hc' => ?_⟩
      rw [← Option.some.inj hc']
      exact h.closed hcut c hs
    exact hgone.settleOnce (by simp)

end Inv

theorem inv_execOnClient (h : signal = some true ∨ thrown = none) : Inv (execOnClient signal thrown) := by
  unfold execOnClient
  split
  · exact Inv.settleOnce ⟨fun _ => rfl, by simp [State.abortStream], by simp [CutShort, State.abortStream]⟩
      fun _ => Inv.closed_abortStream _
  next hs =>
    obtain rfl := h.resolve_left hs
    exact ⟨fun _ => rfl, by simp, by simp [CutShort]⟩

/-- What every step keeps, a run keeps. -/
theorem run_preserves {P : State → Prop} (hkeep : ∀ {s s' : State} {e : Event}, P s → Stepped s e s' → P s')
    {events : List Event} (h : P s) (hrun : run s events = some s') : P s' := by
  induction events generalizing s with
  | nil =>
    obtain rfl := Option.some.inj hrun
    exact h
  | cons e events ih =>
    obtain ⟨s₁, hstep, hrest⟩ := Option.bind_eq_some_iff.1 hrun
    exact ih (hkeep h (stepped_of_step hstep)) hrest

theorem tidy_of_always {events : List Event} (h : Always Tidy s events) : Tidy s := by
  cases events with
  | nil => exact h
  | cons e events => exact h.1

theorem always_tidy {events : List Event} (h : Inv s) (hin : OpensInTime s events) : Always Tidy s events := by
  induction events generalizing s with
  | nil => exact h.tidy
  | cons e events ih =>
    refine ⟨h.tidy, fun s' hstep => ?_⟩
    obtain ⟨hlate, hrest⟩ := hin s' hstep
    exact ih (h.step (stepped_of_step hstep) hlate) hrest

/-- Nobody closes a channel that is opened too late. -/
theorem not_tidy_of_late (h : step s .opened = some s') (hcut : CutShort s) : ¬ Tidy s' := by
  intro htidy
  cases stepped_of_step h with
  | opened => exact absurd (htidy.closed hcut {} rfl) (by simp)

theorem opensInTime_of_always {events : List Event} (h : Always Tidy s events) : OpensInTime s events := by
  induction events generalizing s with
  | nil => trivial
  | cons e events ih =>
    intro s' hstep
    have hs' := h.2 s' hstep
    refine ⟨?_, ih hs'⟩
    rintro ⟨rfl, hcut⟩
    exact not_tidy_of_late hstep hcut (tidy_of_always hs')

/-- When `exec` throws, the timer goes on. -/
theorem not_tidy_of_thrown {message : String} (h : signal ≠ some true) : ¬ Tidy (execOnClient signal (some message)) := by
  intro htidy
  unfold execOnClient at htidy
  rw [if_neg h] at htidy
  exact absurd (htidy.removed (by simp)).1 (by simp)

/-- The promise is settled once, with nothing left of the call and no channel of a call that was cut short open, in every state
of the run exactly when `exec` does not throw and opens no channel after an abort or a timeout. -/
theorem tidy_iff (signal : Option Bool) (thrown : Option String) (events : List Event) :
    Always Tidy (execOnClient signal thrown) events ↔
      (signal = some true ∨ thrown = none) ∧ OpensInTime (execOnClient signal thrown) events := by
  constructor
  · intro h
    refine ⟨?_, opensInTime_of_always h⟩
    by_contra hstart
    obtain ⟨hsignal, hthrown⟩ := not_or.1 hstart
    obtain ⟨message, rfl⟩ := Option.ne_none_iff_exists'.1 hthrown
    exact not_tidy_of_thrown hsignal (tidy_of_always h)
  · rintro ⟨hstart, hin⟩
    exact always_tidy (inv_execOnClient hstart) hin

/-! ### A channel that is opened too late -/

/-- The call is over, and its channel is open. -/
structure Abandoned (s : State) : Prop where
  cut : CutShort s
  settled : s.settled = true
  timer : s.timer = false
  listening : s.listening = false
  opening : s.opening = false
  unclosed : ∃ c, s.streamRef = some c ∧ c.closed = false

theorem Abandoned.step {e : Event} (h : Abandoned s) (hstep : Stepped s e s') : Abandoned s' := by
  cases hstep with
  | ignored => exact ⟨h.cut, h.settled, h.timer, h.listening, h.opening, h.unclosed⟩
  | aborted hl => simp [h.listening] at hl
  | timedOut ht => simp [h.timer] at ht
  | opened ho => simp [h.opening] at ho
  | openFailed ho => simp [h.opening] at ho
  | data => exact ⟨h.cut, h.settled, h.timer, h.listening, h.opening, h.unclosed⟩
  | close hs =>
    obtain ⟨c, hc, hclosed⟩ := h.unclosed
    obtain rfl := Option.some.inj (hs.symm.trans hc)
    unfold State.onClose State.settleOnce
    rw [if_pos h.settled]
    exact ⟨h.cut, h.settled, h.timer, h.listening, h.opening, _, rfl, hclosed⟩

theorem Abandoned.run {events : List Event} (h : Abandoned s) (hrun : run s events = some s') : Abandoned s' :=
  run_preserves (fun h => h.step) h hrun

/-- An abort, and then the channel: it stays open, whatever comes after. -/
theorem channel_left_open :
    ∃ s, run (execOnClient (some false) none) [.abort, .opened] = some s ∧ ¬ Tidy s ∧
      ∀ events s', run s events = some s' → ∃ c, s'.streamRef = some c ∧ c.closed = false := by
  let s : State := { signal := some true, streamRef := some {}, settled := true, settlements := [.aborted] }
  have hs : Abandoned s := ⟨.inl (by simp [s]), rfl, rfl, rfl, rfl, {}, rfl, rfl⟩
  refine ⟨s, by decide, fun htidy => ?_, fun events s' hrun => (hs.run hrun).unclosed⟩
  exact absurd (htidy.closed hs.cut {} rfl) (by simp)

/-- The chunks of the events. -/
def chunks (events : List Event) : List Chunk :=
  events.filterMap fun e =>
    match e with
    | .data chunk => some chunk
    | _ => none

theorem chunks_append (events events' : List Event) : chunks (events ++ events') = chunks events ++ chunks events' :=
  List.filterMap_append

/-- The endings that an event can settle the promise with. -/
def Event.ending (texts : Texts) : Event → Option Ending
  | .abort => some .aborted
  | .timeout => some .timedOut
  | .openFailed message => some (.openFailed message)
  | .close exit => some (.closed exit texts.stdout texts.stderr)
  | .opened | .data _ => none

theorem Stepped.texts {e : Event} (h : Stepped s e s') : s'.texts = (chunks [e]).foldl Texts.data s.texts := by
  cases h with
  | ignored => rfl
  | aborted => simp [State.onAbort, chunks]
  | timedOut => simp [State.onTimeout, chunks]
  | opened => rfl
  | openFailed => simp [chunks]
  | data => rfl
  | close => simp [State.onClose, chunks]

/-- A step settles the promise with the ending of its event, or not at all. -/
theorem Stepped.settlements {e : Event} (h : Stepped s e s') :
    s'.settlements = s.settlements ∨ ∃ ending, e.ending s.texts = some ending ∧ s'.settlements = s.settlements ++ [ending] := by
  cases h with
  | ignored => exact .inl rfl
  | aborted => exact (State.settlements_settleOnce _ _).imp id fun hs => ⟨_, rfl, hs⟩
  | timedOut => exact (State.settlements_settleOnce _ _).imp id fun hs => ⟨_, rfl, hs⟩
  | opened => exact .inl rfl
  | openFailed => exact (State.settlements_settleOnce _ _).imp id fun hs => ⟨_, rfl, hs⟩
  | data => exact .inl rfl
  | close => exact (State.settlements_settleOnce _ _).imp id fun hs => ⟨_, rfl, hs⟩

/-- The first settlement stays the first. -/
theorem head_run {events : List Event} {ending : Ending} (h : s.settlements.head? = some ending)
    (hrun : run s events = some s') : s'.settlements.head? = some ending := by
  refine run_preserves (P := fun s => s.settlements.head? = some ending) (fun h hstep => ?_) h hrun
  obtain hs | ⟨ending', -, hs⟩ := hstep.settlements
  · rw [hs, h]
  · rw [hs, List.head?_append, h, Option.some_or]

theorem texts_execOnClient (signal : Option Bool) (thrown : Option String) : (execOnClient signal thrown).texts = {} := by
  unfold execOnClient
  split
  · simp [State.onAbort]
  · split
    · rfl
    · rfl

/-- A command that was closed is judged by the texts of the chunks before that. -/
theorem closed_run {events seen : List Event} (htexts : s.texts = gathered (chunks seen))
    (hseen : ∀ exit out err, .closed exit out err ∈ s.settlements →
      ∃ before, before <+: seen ∧ .closed exit out err = closedAfter (chunks before) exit)
    (hrun : run s events = some s') :
    ∀ exit out err, .closed exit out err ∈ s'.settlements →
      ∃ before, before <+: seen ++ events ∧ .closed exit out err = closedAfter (chunks before) exit := by
  induction events generalizing s seen with
  | nil =>
    obtain rfl := Option.some.inj hrun
    simpa using hseen
  | cons e events ih =>
    obtain ⟨s₁, hstep, hrest⟩ := Option.bind_eq_some_iff.1 hrun
    have h := stepped_of_step hstep
    have htexts₁ : s₁.texts = gathered (chunks (seen ++ [e])) := by
      rw [h.texts, htexts, chunks_append, gathered, gathered, List.foldl_append]
    have hseen₁ : ∀ exit out err, .closed exit out err ∈ s₁.settlements →
        ∃ before, before <+: seen ++ [e] ∧ .closed exit out err = closedAfter (chunks before) exit := by
      intro exit out err hmem
      have hold : .closed exit out err ∈ s.settlements →
          ∃ before, before <+: seen ++ [e] ∧ .closed exit out err = closedAfter (chunks before) exit := by
        intro hmem
        obtain ⟨before, hbefore, heq⟩ := hseen exit out err hmem
        exact ⟨before, hbefore.trans (List.prefix_append _ _), heq⟩
      obtain hs | ⟨ending, hending, hs⟩ := h.settlements
      · exact hold (hs ▸ hmem)
      · rw [hs, List.mem_append, List.mem_singleton] at hmem
        obtain hmem | rfl := hmem
        · exact hold hmem
        · -- of the events only `close` settles the promise so
          cases e with
          | close exit' =>
            rw [Event.ending, htexts] at hending
            obtain ⟨rfl, -, -⟩ := Ending.closed.inj (Option.some.inj hending)
            exact ⟨seen, List.prefix_append _ _, (Option.some.inj hending).symm⟩
          | abort | timeout | opened | openFailed | data => simp [Event.ending] at hending
    have hrun' := ih htexts₁ hseen₁ hrest
    rwa [List.append_assoc] at hrun'

theorem closed_execOnClient {events : List Event} {exit : Exit} {out err : String}
    (hrun : run (execOnClient signal thrown) events = some s) (h : .closed exit out err ∈ s.settlements) :
    ∃ before, before <+: events ∧ .closed exit out err = closedAfter (chunks before) exit := by
  refine @closed_run _ _ events [] (texts_execOnClient signal thrown) ?_ hrun exit out err h
  intro exit out err hmem
  unfold execOnClient at hmem
  split at hmem
  · simp [State.onAbort, State.settleOnce, State.abortStream] at hmem
  · split at hmem
    · simp at hmem
    · simp at hmem

/-- The promise comes to what `execWithRetry` is told of the attempt. -/
theorem promise_eq_attempt {events : List Event} {ending : Ending} (delayAborted : Bool)
    (hrun : run (execOnClient signal thrown) events = some s) (h : s.settlements.head? = some ending) :
    s.promise = some ({ client := .ok (), signalled := signal == some true, ending, delayAborted } : Attempt).result := by
  have hpromise : s.promise = some ending.result := by rw [State.promise, h, Option.map_some]
  rw [hpromise, Attempt.result]
  by_cases hsignal : signal = some true
  · have hstart : (execOnClient signal thrown).settlements.head? = some .aborted := by
      unfold execOnClient
      rw [if_pos hsignal]
      rfl
    obtain rfl : .aborted = ending := Option.some.inj ((head_run hstart hrun).symm.trans h)
    simp [hsignal, Ending.result]
  · simp [hsignal]

end NginxAdmin.Desktop.SSHExecutor.ExecOnClient
