import NginxAdmin.Daemon.Model
import NginxAdmin.Lib.History

/-!
# The daemon's world and the operations on it

`World` is the memory of one daemon process, with its locks, and the disk. `Op` lists the atomic
operations that the code of `state_store.rs`, `apply.rs` and `renderer.rs` performs: a lock is acquired
or released, a value behind a lock is read or written, one file-system call is made, one shell command
is run. `Op.exec` says what each does; `Choice` is what the outside world decides (the time, whether
the operation fails and what a failed operation leaves behind).

Reads and writes of the status are single operations, since the code never awaits while it holds the
status lock. The state write lock is held by `put_state` across awaits, so it is explicit, and so is
`apply_lock`.
-/

namespace NginxAdmin.Daemon

/-- What a backup archive holds of `state.json`. -/
structure Archive where
  stateJson : Option Bytes

/-- What `create_dir_all` makes outside the directories that the daemon works on: `backups_dir`, and the directories
above the state file or above one of those directories. -/
inductive Holder where
  | backups
  | ofState
  | parentOf (dir : Location)
deriving DecidableEq

/-- The files of the daemon. `state.json` and the archives stand outside the directories it works on. -/
structure Disk where
  /-- `state.json` and its temporary file `state.json.tmp`. -/
  stateJson : Option Bytes
  stateTmp : Option Bytes
  /-- The directories the daemon works on, by location. -/
  dirs : Location → Option Dir
  /-- The archives, by path. -/
  archives : PathBuf → Option Archive
  holders : Holder → Bool

/-- A file operation of a dropped `put_state` that the blocking pool still has to finish. -/
inductive Job where
  | writeTmp (payload : Bytes)
  | renameTmp
deriving DecidableEq

structure World where
  state : ControlPlaneState
  status : RuntimeStatus
  /-- The thread that holds the write lock of `state`. -/
  stateLock : Option Nat
  applyLock : Option Nat
  jobs : List Job
  disk : Disk

/-- The writes of `RuntimeStatus`: the one at the end of `put_state` and the `mark_*` functions. -/
inductive StatusUpdate where
  | pendingApply (revision : UInt64)
  | applying
  | inSync (revision : UInt64) (configHash : String)
  | degraded (error : String)
  | outOfSync (details : String)
deriving DecidableEq

def StatusUpdate.apply (now : DateTime) (st : RuntimeStatus) : StatusUpdate → RuntimeStatus
  | pendingApply revision =>
    { st with desiredRevision := revision, syncState := .pendingApply, lastError := none, updatedAt := now }
  | applying => { st with syncState := .applying, updatedAt := now, lastError := none }
  | inSync revision configHash =>
    { st with
      observedRevision := revision, desiredRevision := revision, syncState := .inSync,
      activeConfigHash := some configHash, updatedAt := now, lastError := none }
  | degraded error => { st with syncState := .degraded, lastError := some error, updatedAt := now }
  | outOfSync details => { st with syncState := .outOfSync, lastError := some details, updatedAt := now }

/-- The shell commands of the pipeline. -/
inductive Command where
  | nginxTest (text : String)
  | tar (text : String) (archive : PathBuf)
  | reload (text : String)
deriving DecidableEq

def Command.text : Command → String
  | nginxTest text => text
  | tar text _ => text
  | reload text => text

/-- The exit of a shell command: success, or failure with its standard error. -/
inductive ShellOutput where
  | success
  | failure (stderr : String)
deriving DecidableEq

inductive Op where
  /-- `self.state.write().await`: acquires the lock and gives the state behind it. -/
  | lockState
  | unlockState
  | readState
  | writeState (state : ControlPlaneState)
  | readStatus
  | updateStatus (u : StatusUpdate)
  | lockApply
  | unlockApply
  | now
  | stateFileExists
  | readStateFile
  | createStateDir
  | writeStateTmp (payload : Bytes)
  | renameStateTmp
  | exists (dir : Location)
  | readTree (dir : Location)
  | createParentOf (dir : Location)
  | createDirAll (dir : Location) (rel : List String)
  | removeDirAll (dir : Location)
  | writeFile (dir : Location) (rel : List String) (content : Bytes)
  | rename (src dst : Location)
  | createBackupsDir
  | sh (command : Command)
  /-- The blocking pool finishes an operation of a dropped request. -/
  | runJob
  /-- Somebody else changes a directory; only between two reconciles. -/
  | externalEdit (dir : Location) (content : Option Dir)

/-- The answer to an operation; `io::Error`s are given by their text. -/
abbrev Op.Res : Op → Type
  | lockState => ControlPlaneState
  | unlockState => Unit
  | readState => ControlPlaneState
  | writeState _ => Unit
  | readStatus => RuntimeStatus
  | updateStatus _ => Unit
  | lockApply => Unit
  | unlockApply => Unit
  | now => DateTime
  | stateFileExists => Bool
  | readStateFile => Except String Bytes
  | createStateDir => Except String Unit
  | writeStateTmp _ => Except String Unit
  | renameStateTmp => Except String Unit
  | .exists _ => Bool
  | readTree _ => Except String Dir
  | createParentOf _ => Except String Unit
  | createDirAll _ _ => Except String Unit
  | removeDirAll _ => Except String Unit
  | writeFile _ _ _ => Except String Unit
  | rename _ _ => Except String Unit
  | createBackupsDir => Except String Unit
  | sh _ => Except String ShellOutput
  | runJob => Unit
  | externalEdit _ _ => Unit

/-- A failure of an operation: the text of the error, whether a shell command failed to start at all,
whether the directories above have been made, and what is left at the place the operation worked on. -/
structure Fault where
  message : String
  spawn : Bool
  made : Bool
  dirLeft : Option Dir
  bytesLeft : Option Bytes
  archiveLeft : Option Archive

structure Choice where
  now : DateTime
  fault : Option Fault
  /-- Which of the waiting jobs the blocking pool takes. -/
  pick : Nat

/-- The decisions of a world in which everything succeeds. -/
def Faultless (c : Choice) : Prop := c.fault = none

namespace Disk

def setDir (d : Disk) (l : Location) (o : Option Dir) : Disk :=
  { d with dirs := fun l' => if l' = l then o else d.dirs l' }

def hold (d : Disk) (h : Holder) (made : Bool) : Disk :=
  { d with holders := fun h' => if h' = h then d.holders h || made else d.holders h' }

/-- `rename(2)` of a directory: the target must be missing or empty. -/
def rename (d : Disk) (src dst : Location) : Except String Unit × Disk :=
  match d.dirs src with
  | none => (.error "No such file or directory (os error 2)", d)
  | some tree =>
    if src = dst then (.ok (), d)
    else
      match d.dirs dst with
      | none | some [] => (.ok (), (d.setDir src none).setDir dst (some tree))
      | some (_ :: _) => (.error "Directory not empty (os error 39)", d)

def renameTmp (d : Disk) : Except String Unit × Disk :=
  match d.stateTmp with
  | none => (.error "No such file or directory (os error 2)", d)
  | some payload => (.ok (), { d with stateJson := some payload, stateTmp := none })

/-- A change of one directory by `f`, which is `none` when it is impossible. -/
def modifyDir (d : Disk) (l : Location) (f : Dir → Option Dir) : Except String Unit × Disk :=
  match (d.dirs l).bind f with
  | none => (.error "No such file or directory (os error 2)", d)
  | some tree => (.ok (), d.setDir l (some tree))

end Disk

namespace World

/-- Lets `f` act on the disk unless the operation fails; a failed one does `g` to the disk. -/
def io (w : World) (c : Choice) (f : Disk → Except String Unit × Disk) (g : Fault → Disk → Disk) :
    Except String Unit × World :=
  match c.fault with
  | some fault => (.error fault.message, { w with disk := g fault w.disk })
  | none =>
    let (r, disk) := f w.disk
    (r, { w with disk := disk })

/-- The guards that thread `t` holds are dropped. -/
def release (w : World) (t : Nat) : World :=
  { w with
    stateLock := if w.stateLock = some t then none else w.stateLock
    applyLock := if w.applyLock = some t then none else w.applyLock }

def runJob (w : World) (c : Choice) : Option World :=
  match w.jobs[c.pick]? with
  | none => none
  | some job =>
    let w := { w with jobs := w.jobs.eraseIdx c.pick }
    match job with
    | .writeTmp payload =>
      some (w.io c (fun d => (.ok (), { d with stateTmp := some payload }))
        fun f d => { d with stateTmp := f.bytesLeft }).2
    | .renameTmp => some (w.io c Disk.renameTmp fun _ d => d).2

end World

/-- What operation `o` of thread `t` does; `none`: it has to wait. -/
def Op.exec (t : Nat) (o : Op) (c : Choice) (w : World) : Option (o.Res × World) :=
  match o with
  | .lockState => if w.stateLock = none then some (w.state, { w with stateLock := some t }) else none
  | .unlockState => some ((), { w with stateLock := none })
  | .readState => if w.stateLock = none then some (w.state, w) else none
  | .writeState state => some ((), { w with state := state })
  | .readStatus => some (w.status, w)
  | .updateStatus u => some ((), { w with status := u.apply c.now w.status })
  | .lockApply => if w.applyLock = none then some ((), { w with applyLock := some t }) else none
  | .unlockApply => some ((), { w with applyLock := none })
  | .now => some (c.now, w)
  -- `Path::exists` is `false` on an error
  | .stateFileExists => some (c.fault.isNone && w.disk.stateJson.isSome, w)
  | .readStateFile =>
    match c.fault, w.disk.stateJson with
    | some f, _ => some (.error f.message, w)
    | none, none => some (.error "No such file or directory (os error 2)", w)
    | none, some raw => some (.ok raw, w)
  | .createStateDir => some (w.io c (fun d => (.ok (), d.hold .ofState true)) fun f d => d.hold .ofState f.made)
  | .writeStateTmp payload =>
    some (w.io c (fun d => (.ok (), { d with stateTmp := some payload })) fun f d =>
      { d with stateTmp := f.bytesLeft })
  | .renameStateTmp => some (w.io c Disk.renameTmp fun _ d => d)
  | .exists dir => some (c.fault.isNone && (w.disk.dirs dir).isSome, w)
  | .readTree dir =>
    match c.fault, w.disk.dirs dir with
    | some f, _ => some (.error f.message, w)
    | none, none => some (.error "No such file or directory (os error 2)", w)
    | none, some tree => some (.ok tree, w)
  | .createParentOf dir =>
    some (w.io c (fun d => (.ok (), d.hold (.parentOf dir) true)) fun f d => d.hold (.parentOf dir) f.made)
  | .createDirAll dir rel =>
    some (w.io c
      (fun d => ((d.hold (.parentOf dir) true).setDir dir (some ((d.dirs dir).getD []))).modifyDir dir (Dir.mkdirs rel))
      fun f d => (d.hold (.parentOf dir) f.made).setDir dir f.dirLeft)
  | .removeDirAll dir =>
    some (w.io c
      (fun d => if (d.dirs dir).isSome then (.ok (), d.setDir dir none)
        else (.error "No such file or directory (os error 2)", d))
      fun f d => d.setDir dir f.dirLeft)
  | .writeFile dir rel content =>
    some (w.io c (fun d => d.modifyDir dir (Dir.write rel content)) fun f d => d.setDir dir f.dirLeft)
  | .rename src dst => some (w.io c (fun d => d.rename src dst) fun _ d => d)
  | .createBackupsDir => some (w.io c (fun d => (.ok (), d.hold .backups true)) fun f d => d.hold .backups f.made)
  | .sh command =>
    let disk (a : Option Archive) : World :=
      match command with
      | .tar _ archive =>
        { w with disk := { w.disk with archives := fun p => if p = archive then a else w.disk.archives p } }
      | _ => w
    match c.fault with
    | none => some (.ok .success, disk (some ⟨w.disk.stateJson⟩))
    | some f => if f.spawn then some (.error f.message, w) else some (.ok (.failure f.message), disk f.archiveLeft)
  | .runJob => (w.runJob c).map fun w => ((), w)
  | .externalEdit dir content =>
    if w.applyLock = none then some ((), { w with disk := w.disk.setDir dir content }) else none

/-- Dropping the future of thread `t` while it waits for `o`: its guards are released, a file operation
that was handed to the blocking pool goes on there. Operations that are not awaited cannot be
interrupted. -/
def Op.cancel (t : Nat) (o : Op) (w : World) : Option World :=
  match o with
  | .lockState | .readState | .readStatus | .updateStatus _ | .lockApply => some (w.release t)
  | .writeStateTmp payload => some { w.release t with jobs := w.jobs ++ [.writeTmp payload] }
  | .renameStateTmp => some { w.release t with jobs := w.jobs ++ [.renameTmp] }
  | _ => none

abbrev Log := List (Event Op.Res World)

/-- A moment of a run: the world and its history. -/
abbrev Moment := Traced Op.Res World

/-- The daemon's machine, with its history. -/
def machine : Exec Op.Res Moment Choice :=
  Exec.traced ⟨Op.exec, Op.cancel⟩

/-- The answer of an existence test is right. -/
def Op.Sees (w : World) : (o : Op) → o.Res → Prop
  | stateFileExists, r => r = w.disk.stateJson.isSome
  | .exists dir, r => r = (w.disk.dirs dir).isSome
  | _, _ => True

/-- The machine whose existence tests in `tests` are right. -/
def sighted (tests : Op → Prop) : Machine Op.Res Moment :=
  machine.machine.restrict (fun _ o s r _ => tests o → o.Sees s.now r) fun _ _ _ => True

abbrev Code (α : Type) := Prog Op.Res α

/-- Code that can fail with a `DaemonError`. -/
abbrev Fallible (α : Type) := ExceptT DaemonError (Prog Op.Res) α

abbrev perform (o : Op) : Code o.Res := Prog.perform o

/-- Asks for an operation whose answer is not an error. -/
def ask (o : Op) : Fallible o.Res := ExceptT.lift (perform o)

/-- `?` on a file operation: an `io::Error` becomes a `DaemonError`. -/
def attempt {α : Type} (p : Code (Except String α)) : Fallible α :=
  ExceptT.mk (p >>= fun r => pure (r.mapError DaemonError.io))

/-- `?` on a computed result. -/
def check {α : Type} (e : Except DaemonError α) : Fallible α := ExceptT.mk (pure e)

/-- An `if` without `else`. -/
def whenever (c : Bool) (x : Fallible Unit) : Fallible Unit := if c then x else pure ()

end NginxAdmin.Daemon
