import NginxAdmin.Daemon.Model

/-!
# Validation of a state (`validate_state` of `state_store.rs`)

The checks run in the order of the source: the first that fails decides the error.
-/

namespace NginxAdmin.Daemon

/-- `is_sensitive_name`. -/
def isSensitiveName (value : String) : Bool :=
  let normalized := Text.toAsciiLowercase value
  ["token", "secret", "password", "passphrase", "private", "auth", "credential", "key", "jwt", "session",
    "cookie"].any fun needle => Text.contains normalized needle

/-- `target_contains_credentials`: an `@` between the first `://` and the end of the authority. -/
def targetContainsCredentials (target : String) : Bool :=
  match Text.afterFirst "://".toList target.toList with
  | none => false
  | some rest => decide ('@' ∈ rest.takeWhile fun c => decide (c ≠ '/' ∧ c ≠ '?' ∧ c ≠ '#'))

/-- `contains_sensitive_directive`. -/
def containsSensitiveDirective (value : String) : Bool :=
  let normalized := Text.toAsciiLowercase value
  ["authorization", "cookie", "proxy_set_header auth", "password", "token", "secret", "credential", "jwt",
    "session"].any fun needle => Text.contains normalized needle

/-- The tuple by which a `Listen` is told apart from the others of its server. -/
def Listen.key (l : Listen) : UInt16 × Bool × Bool × Bool :=
  (l.port, l.ssl, l.http2.getD false, l.defaultServer.getD false)

/-- The loop over `server.listen`; `seen` is the `HashSet`. -/
def validateListens (server : Server) : List Listen → List (UInt16 × Bool × Bool × Bool) → Except DaemonError Unit
  | [], _ => .ok ()
  | l :: rest, seen =>
    if l.key ∈ seen then .error (.invalidInput ("duplicate listen tuple in server " ++ server.id))
    else validateListens server rest (l.key :: seen)

/-- The loop over `server.extra_directives`. -/
def validateDirectives (server : Server) : List String → Except DaemonError Unit
  | [] => .ok ()
  | d :: rest =>
    if containsSensitiveDirective d then
      .error (.invalidInput ("sensitive directives must not be stored in state.json for server " ++ server.id))
    else validateDirectives server rest

/-- The loop over `route.headers`. -/
def validateHeaders : List Header → Except DaemonError Unit
  | [] => .ok ()
  | h :: rest =>
    if isSensitiveName h.name || containsSensitiveDirective h.value then
      .error (.invalidInput ("sensitive header values must not be stored in state.json: " ++ h.name))
    else validateHeaders rest

/-- The `match` on `route.action`. -/
def validateAction (server : Server) (route : Route) : Except DaemonError Unit :=
  match route.action with
  | .proxyPass target =>
    if targetContainsCredentials target || containsSensitiveDirective target then
      .error (.invalidInput ("proxy target must not contain credentials in server " ++ server.id ++ " route " ++
        route.id))
    else .ok ()
  | .redirect url _ =>
    if targetContainsCredentials url || containsSensitiveDirective url then
      .error (.invalidInput ("redirect url must not contain credentials in server " ++ server.id ++ " route " ++
        route.id))
    else .ok ()
  | .static .. => .ok ()

/-- The loop over `server.routes`; `seen` is the `HashSet` of paths. -/
def validateRoutes (server : Server) : List Route → List String → Except DaemonError Unit
  | [], _ => .ok ()
  | r :: rest, seen => do
    if Text.startsWithChar r.path '/' = false then
      throw (.invalidInput ("route.path must start with '/': " ++ r.path))
    if r.path ∈ seen then
      throw (.invalidInput ("duplicate route.path in server " ++ server.id ++ ": " ++ r.path))
    validateHeaders (r.headers.getD [])
    validateAction server r
    validateRoutes server rest (r.path :: seen)

def validateServer (server : Server) : Except DaemonError Unit := do
  if Text.trim server.id = "" then
    throw (.invalidInput "server.id must be non-empty")
  validateListens server server.listen []
  validateDirectives server (server.extraDirectives.getD [])
  validateRoutes server server.routes []

/-- `validate_state`. -/
def validateState (state : ControlPlaneState) : Except DaemonError Unit :=
  state.servers.forM validateServer

end NginxAdmin.Daemon
