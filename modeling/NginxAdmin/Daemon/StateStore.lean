import NginxAdmin.Daemon.World
import NginxAdmin.Daemon.Validate

/-!
# The state store (`state_store.rs`)

Each function is the program that the source runs, as a sequence of the operations of `World`.
-/

namespace NginxAdmin.Daemon

/-- `serde_json` for `ControlPlaneState`. `fromStr` stands for `read_to_string`'s decoding of the bytes
and `serde_json::from_str`. -/
structure Serde where
  toVecPretty : ControlPlaneState → Except String Bytes
  fromStr : Bytes → Except DaemonError ControlPlaneState
  /-- What was written can be read back. -/
  fromStr_toVecPretty : ∀ {s b}, toVecPretty s = .ok b → fromStr b = .ok s

/-- The payload that `write_state_file` writes can be read back. -/
theorem Serde.fromStr_payload {serde : Serde} {x : ControlPlaneState} {payload : Bytes}
    (h : (serde.toVecPretty x).mapError DaemonError.json = .ok payload) : serde.fromStr payload = .ok x := by
  cases hs : serde.toVecPretty x with
  | ok b =>
    rw [hs] at h
    obtain rfl : b = payload := Except.ok.inj h
    exact serde.fromStr_toVecPretty hs
  | error e => rw [hs] at h; cases h

variable (serde : Serde)

/-- `write_state_file`. -/
def writeStateFile (state : ControlPlaneState) : Fallible Unit := do
  let payload ← check ((serde.toVecPretty state).mapError .json)
  attempt (perform (.writeStateTmp payload))
  attempt (perform .renameStateTmp)

/-- The status that a freshly loaded store reports. -/
def RuntimeStatus.loaded (state : ControlPlaneState) (now : DateTime) : RuntimeStatus where
  desiredRevision := state.revision
  observedRevision := state.revision
  syncState := .inSync
  activeConfigHash := none
  lastError := none
  updatedAt := now

/-- The first half of `load_or_init`: the state is read from its file, or initialised. -/
def readOrInit : Fallible ControlPlaneState := do
  if (← ask .stateFileExists) then do
    let raw ← attempt (perform .readStateFile)
    check (serde.fromStr raw)
  else do
    attempt (perform .createStateDir)
    let now ← ask .now
    writeStateFile serde (.initial now)
    pure (.initial now)

/-- `StateStore::load_or_init`: the state and the status that the locks are created with. -/
def loadOrInit : Fallible (ControlPlaneState × RuntimeStatus) := do
  let state ← readOrInit serde
  check (validateState state)
  pure (state, .loaded state (← ask .now))

/-- A daemon process that has just loaded `state`. -/
def World.boot (state : ControlPlaneState) (now : DateTime) (disk : Disk) : World where
  state := state
  status := .loaded state now
  stateLock := none
  applyLock := none
  jobs := []
  disk := disk

/-- `StateStore::get_state`. -/
def getState : Code ControlPlaneState := perform .readState

/-- `StateStore::get_status`. -/
def getStatus : Code RuntimeStatus := perform .readStatus

/-- The draft as `put_state` commits it on top of `current`. -/
def commitDraft (current draft : ControlPlaneState) (now : DateTime) : ControlPlaneState :=
  { draft with schemaVersion := current.schemaVersion, revision := current.revision + 1, updatedAt := now }

/-- The body of `put_state`, run with the state lock held; `current` is the state behind the lock. -/
def putStateLocked (current : ControlPlaneState) (expectedRevision : UInt64) (draft : ControlPlaneState) :
    Fallible ControlPlaneState :=
  if current.revision ≠ expectedRevision then
    throw (.conflict ("revision mismatch: expected " ++ toString expectedRevision ++ ", actual " ++
      toString current.revision))
  else if Text.trim draft.updatedBy = "" then
    throw (.invalidInput "updatedBy must be non-empty")
  else do
    let draft := commitDraft current draft (← ask .now)
    check (validateState draft)
    writeStateFile serde draft
    ask (.writeState draft)
    ask (.updateStatus (.pendingApply draft.revision))
    pure draft

/-- `StateStore::put_state`. The state guard lives until the function returns. -/
def putState (expectedRevision : UInt64) (draft : ControlPlaneState) : Code (Except DaemonError ControlPlaneState) := do
  let current ← perform .lockState
  let result ← (putStateLocked serde current expectedRevision draft).run
  perform .unlockState
  pure result

def markApplying : Fallible Unit := ask (.updateStatus .applying)

def markInSync (observedRevision : UInt64) (configHash : String) : Fallible Unit :=
  ask (.updateStatus (.inSync observedRevision configHash))

def markDegraded (error : String) : Fallible Unit := ask (.updateStatus (.degraded error))

def markOutOfSync (details : String) : Fallible Unit := ask (.updateStatus (.outOfSync details))

end NginxAdmin.Daemon
