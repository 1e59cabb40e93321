import NginxAdmin.Daemon.StateStore
import NginxAdmin.Daemon.Render

/-!
# The apply pipeline (`apply.rs`, and the file operations of `renderer.rs`)
-/

namespace NginxAdmin.Daemon

/-- `shell_escape`. -/
def shellEscape (path : PathBuf) : String := "'" ++ Text.replace path "'" "'\"'\"'" ++ "'"

/-- `contains_sensitive_assignment`. -/
def containsSensitiveAssignment (value : String) : Bool :=
  (Text.containsChar value '=' || Text.containsChar value ':') &&
    ["authorization", "cookie", "token", "secret", "password", "passphrase", "credential", "jwt", "session",
      "apikey", "api_key"].any fun needle => Text.contains value needle

/-- The loop of `redact_potential_secrets`. -/
def redactParts : Bool → List String → List String
  | _, [] => []
  | redactNext, part :: rest =>
    let normalized := Text.toAsciiLowercase part
    if redactNext || containsSensitiveAssignment normalized then "[redacted]" :: redactParts false rest
    else if normalized == "bearer" || Text.endsWith normalized "bearer" then "[redacted]" :: redactParts true rest
    else part :: redactParts false rest

/-- `redact_potential_secrets`. -/
def redactPotentialSecrets (value : String) : String :=
  Text.join " " (redactParts false (Text.splitWhitespace value))

/-- What `run_shell` makes of the output of a command. -/
def shellResult (command : Command) : Except String ShellOutput → Except DaemonError Unit
  | .error e => .error (.io e)
  | .ok .success => .ok ()
  | .ok (.failure stderr) =>
    .error (.internal ("command failed [" ++ redactPotentialSecrets command.text ++ "]: " ++
      redactPotentialSecrets (Text.trim stderr)))

/-- `run_shell`. -/
def runShell (command : Command) : Fallible Unit := do
  check (shellResult command (← ask (.sh command)))

/-- Year, month and day of a day counted from 1970-01-01. -/
def civilFromDays (days : Nat) : Nat × Nat × Nat :=
  let z := days + 719468
  let era := z / 146097
  let doe := z % 146097
  let yoe := (doe - doe / 1460 + doe / 36524 - doe / 146096) / 365
  let doy := doe - (365 * yoe + yoe / 4 - yoe / 100)
  let mp := (5 * doy + 2) / 153
  let month := if mp < 10 then mp + 3 else mp - 9
  (yoe + era * 400 + (if month ≤ 2 then 1 else 0), month, doy - (153 * mp + 2) / 5 + 1)

def padLeft (width : Nat) (n : Nat) : String :=
  let digits := toString n
  String.ofList (List.replicate (width - digits.length) '0') ++ digits

/-- `%Y`: four digits, or a sign and more digits. -/
def formatYear (year : Nat) : String := if year ≤ 9999 then padLeft 4 year else "+" ++ toString year

/-- `Utc::now().format("%Y%m%d%H%M%S")`. -/
def snapshotId (now : DateTime) : String :=
  let secs := now / 1000000000
  let (year, month, day) := civilFromDays (secs / 86400)
  formatYear year ++ padLeft 2 month ++ padLeft 2 day ++ padLeft 2 (secs / 3600 % 24) ++
    padLeft 2 (secs / 60 % 60) ++ padLeft 2 (secs % 60)

variable (cfg : DaemonConfig)

/-! ### The stages -/

structure RenderResult where
  configHash : String
  stagingConfPath : PathBuf

/-- The loop of `render_to_staging` over the sorted servers; returns the text of `nginx.conf` so far. -/
def writeServers : List Server → String → Fallible String
  | [], root => pure root
  | server :: rest, root =>
    if server.enabled then do
      attempt (perform (.writeFile cfg.staging ["servers", serverFileName server] (Text.utf8 (renderServer server))))
      writeServers rest (root ++ (includeLine server ++ "\n"))
    else writeServers rest root

/-- `render_to_staging`. -/
def renderToStaging (state : ControlPlaneState) : Fallible RenderResult := do
  whenever (← ask (.exists cfg.staging)) (attempt (perform (.removeDirAll cfg.staging)))
  attempt (perform (.createDirAll cfg.staging ["servers"]))
  let root ← writeServers cfg (sortServers state.servers) rootHeader
  attempt (perform (.writeFile cfg.staging ["nginx.conf"] (Text.utf8 (root ++ "\x7d\n"))))
  let tree ← attempt (perform (.readTree cfg.staging))
  pure ⟨hashDirectory cfg.stagingDir tree, cfg.stagingDir.join "nginx.conf"⟩

/-- `validate`. -/
def validate (stagingConf : PathBuf) : Fallible Unit :=
  if cfg.dryRun then pure ()
  else
    runShell (.nginxTest (Text.replace (Text.replace cfg.nginxTestCmd "\x7bstaging_conf\x7d" stagingConf)
      "\x7bstaging_dir\x7d" cfg.stagingDir))

/-- The archive that `backup` makes at time `now`. -/
def snapshotArchive (now : DateTime) : PathBuf := cfg.backupsDir.join (snapshotId now ++ ".tar.gz")

/-- `backup`. -/
def backup : Fallible PathBuf := do
  let archive := snapshotArchive cfg (← ask .now)
  attempt (perform .createBackupsDir)
  runShell (.tar ("tar -czf " ++ shellEscape archive ++ " " ++ shellEscape "/etc/nginx" ++ " " ++
    shellEscape cfg.statePath) archive)
  pure archive

/-- `commit_staging`, after the rename of the staging directory failed: the old runtime is put back. -/
def restorePrevious (err : String) : Fallible Unit := do
  whenever (← ask (.exists cfg.previous)) (do let _ ← ask (.rename cfg.previous cfg.runtime))
  throw (.io err)

/-- The end of `commit_staging`: the staging directory takes the place of the runtime directory. -/
def switchRuntime : Fallible Unit := do
  match (← ask (.rename cfg.staging cfg.runtime)) with
  | .error err => restorePrevious cfg err
  | .ok () => whenever (← ask (.exists cfg.previous)) (attempt (perform (.removeDirAll cfg.previous)))

/-- `commit_staging`. -/
def commitStaging : Fallible Unit := do
  attempt (perform (.createParentOf cfg.runtime))
  whenever (← ask (.exists cfg.previous)) (attempt (perform (.removeDirAll cfg.previous)))
  whenever (← ask (.exists cfg.runtime)) (attempt (perform (.rename cfg.runtime cfg.previous)))
  switchRuntime cfg

/-- `reload`. -/
def reload : Fallible Unit :=
  if cfg.dryRun then pure () else runShell (.reload cfg.reloadCmd)

/-- The closure of `reconcile_once` that runs the pipeline; returns the hash of the rendered tree. -/
def pipeline (state : ControlPlaneState) : Fallible String := do
  let rendered ← renderToStaging cfg state
  validate cfg rendered.stagingConfPath
  let _ ← backup cfg
  commitStaging cfg
  reload cfg
  pure rendered.configHash

/-- `hash_directory(&runtime_output_dir)`. -/
def hashRuntime : Fallible (Option String) := do
  if (← ask (.exists cfg.runtime)) then do
    let tree ← attempt (perform (.readTree cfg.runtime))
    pure (some (hashDirectory cfg.runtimeOutputDir tree))
  else pure none

/-- `drift_detected`, from the hash in the status and the hash of the runtime directory. -/
def driftDetected (activeConfigHash runtimeHash : Option String) : Bool :=
  runtimeHash.isNone ||
    match activeConfigHash, runtimeHash with
    | some expected, some actual => expected != actual
    | some _, none => true
    | none, some _ => true
    | none, none => false

/-- `drift_reason`. -/
def driftReason (expectedHash activeHash : Option String) : String :=
  match expectedHash, activeHash with
  | _, none => "runtime output is missing: " ++ cfg.runtimeOutputDir
  | none, some actual =>
    "runtime output exists but no activeConfigHash has been observed yet: activeConfigHash=" ++ actual
  | some expected, some actual =>
    "active runtime hash differs from observed hash: expected activeConfigHash=" ++ expected ++
      ", actual activeConfigHash=" ++ actual

/-- The pipeline between its marks in the status. -/
def runPipeline (state : ControlPlaneState) : Fallible Unit := do
  markApplying
  match (← ExceptT.lift (pipeline cfg state).run) with
  | .ok hash => markInSync state.revision hash
  | .error err => do
    markDegraded err.toString
    throw err

/-- The part of `reconcile_once` that runs when the runtime is not in sync. -/
def applyState (state : ControlPlaneState) (status : RuntimeStatus) (runtimeHash : Option String) :
    Fallible Unit := do
  whenever (driftDetected status.activeConfigHash runtimeHash)
    (markOutOfSync (driftReason cfg status.activeConfigHash runtimeHash))
  runPipeline cfg state

/-- The body of `reconcile_once`, run with `apply_lock` held. -/
def reconcileLocked : Fallible Unit := do
  let state ← ExceptT.lift getState
  let status ← ExceptT.lift getStatus
  let runtimeHash ← hashRuntime cfg
  if status.observedRevision ≥ state.revision ∧ driftDetected status.activeConfigHash runtimeHash = false then
    pure ()
  else applyState cfg state status runtimeHash

/-- `ApplyService::reconcile_once`. -/
def reconcileOnce : Code (Except DaemonError Unit) := do
  perform .lockApply
  let result ← (reconcileLocked cfg).run
  perform .unlockApply
  pure result

end NginxAdmin.Daemon
