import NginxAdmin.Lib.Files

/-!
# The data of the daemon (`model.rs`, `error.rs`, `config.rs`)
-/

namespace NginxAdmin.Daemon

/-- `DateTime<Utc>`: nanoseconds since the epoch. -/
abbrev DateTime := Nat

structure Listen where
  port : UInt16
  ssl : Bool
  http2 : Option Bool
  defaultServer : Option Bool
deriving DecidableEq, Repr

structure Tls where
  certificate : String
  certificateKey : String
deriving DecidableEq, Repr

inductive RouteAction where
  | proxyPass (target : String)
  | static (root : String) (index : Option String)
  | redirect (url : String) (code : UInt16)
deriving DecidableEq, Repr

structure Header where
  name : String
  value : String
deriving DecidableEq, Repr

structure RateLimit where
  zone : String
  rate : String
  burst : Option UInt32
  nodelay : Option Bool
deriving DecidableEq, Repr

structure Route where
  id : String
  path : String
  matchType : Option String
  action : RouteAction
  headers : Option (List Header)
  rateLimit : Option RateLimit
  enabled : Bool
deriving DecidableEq, Repr

structure Server where
  id : String
  serverName : String
  listen : List Listen
  routes : List Route
  tls : Option Tls
  extraDirectives : Option (List String)
  enabled : Bool
deriving DecidableEq, Repr

structure ControlPlaneState where
  schemaVersion : String
  revision : UInt64
  updatedAt : DateTime
  updatedBy : String
  servers : List Server
deriving DecidableEq, Repr

/-- `ControlPlaneState::initial`, at time `now`. -/
def ControlPlaneState.initial (now : DateTime) : ControlPlaneState where
  schemaVersion := "1.0.0"
  revision := 0
  updatedAt := now
  updatedBy := "bootstrap"
  servers := []

inductive SyncState where
  | inSync
  | pendingApply
  | applying
  | outOfSync
  | degraded
deriving DecidableEq, Repr

structure RuntimeStatus where
  desiredRevision : UInt64
  observedRevision : UInt64
  syncState : SyncState
  activeConfigHash : Option String
  lastError : Option String
  updatedAt : DateTime
deriving DecidableEq, Repr

inductive DaemonError where
  | conflict (msg : String)
  | invalidInput (msg : String)
  | preconditionRequired
  | io (msg : String)
  | json (msg : String)
  | internal (msg : String)
deriving DecidableEq, Repr

/-- The `Display` text of an error. -/
def DaemonError.toString : DaemonError → String
  | conflict msg => "conflict: " ++ msg
  | invalidInput msg => "invalid input: " ++ msg
  | preconditionRequired => "precondition required"
  | io msg => "io error: " ++ msg
  | json msg => "json error: " ++ msg
  | internal msg => "internal error: " ++ msg

/-- The part of `DaemonConfig` that the store and the apply pipeline read. -/
structure DaemonConfig where
  statePath : PathBuf
  backupsDir : PathBuf
  stagingDir : PathBuf
  runtimeOutputDir : PathBuf
  nginxTestCmd : String
  reloadCmd : String
  dryRun : Bool
deriving DecidableEq, Repr

namespace DaemonConfig

/-- `env_bool`. -/
def envBool (raw : Option String) (default : Bool) : Bool :=
  match raw with
  | none => default
  | some raw =>
    let normalized := Text.toAsciiLowercase raw
    normalized == "1" || normalized == "true" || normalized == "yes"

/-- `DaemonConfig::from_env`, for an environment `env`. -/
def fromEnv (env : String → Option String) : DaemonConfig where
  statePath := (env "DAEMON_STATE_PATH").getD "/etc/nginx-admin/state.json"
  backupsDir := (env "DAEMON_BACKUPS_DIR").getD "/var/lib/nginx-admin/backups"
  stagingDir := (env "DAEMON_STAGING_DIR").getD "/etc/nginx-admin/staging"
  runtimeOutputDir := (env "DAEMON_RUNTIME_OUTPUT_DIR").getD "/etc/nginx-admin/generated"
  nginxTestCmd := (env "DAEMON_NGINX_TEST_CMD").getD "nginx -t -p \x7bstaging_dir\x7d -c \x7bstaging_conf\x7d"
  reloadCmd := (env "DAEMON_RELOAD_CMD").getD "nginx -s reload"
  dryRun := envBool (env "DAEMON_DRY_RUN") false

variable (cfg : DaemonConfig)

/-- Where the three directories of the apply pipeline are. -/
def staging : Location := cfg.stagingDir.location

def runtime : Location := cfg.runtimeOutputDir.location

/-- `runtime_output_dir.with_extension("previous")`. -/
def previous : Location := cfg.runtime.withExtension "previous"

/-- The staging, runtime and `.previous` directories are pairwise distinct and not nested. -/
structure DirsApart : Prop where
  staging_runtime : PathBuf.Apart cfg.staging cfg.runtime
  staging_previous : PathBuf.Apart cfg.staging cfg.previous
  runtime_previous : PathBuf.Apart cfg.runtime cfg.previous

/-- The configuration when nothing is set in the environment. -/
def defaults : DaemonConfig := fromEnv fun _ => none

theorem defaults_dirsApart : defaults.DirsApart :=
  ⟨by decide, by decide, by decide⟩

end DaemonConfig

end NginxAdmin.Daemon
