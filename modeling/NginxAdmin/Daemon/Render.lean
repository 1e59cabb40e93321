import NginxAdmin.Daemon.Model
import NginxAdmin.Lib.Sha256
import Mathlib.Data.List.Sort

/-!
# Rendering and hashing (`renderer.rs`, `hash_directory` of `apply.rs`)

The texts that `render_to_staging` writes, the tree they make up, and the hash of a directory. The file
operations themselves are in `Apply`.
-/

namespace NginxAdmin.Daemon

/-- `sanitize_filename`. -/
def sanitizeFilename (id : String) : String :=
  String.ofList (id.toList.map fun ch => if ch.isAlphanum || ch == '-' || ch == '_' then ch else '_')

def renderListen (l : Listen) : String :=
  let parts := [toString l.port.toNat] ++ (if l.ssl then ["ssl"] else []) ++
    (if l.http2.getD false then ["http2"] else []) ++
    (if l.defaultServer.getD false then ["default_server"] else [])
  "  listen " ++ Text.join " " parts ++ ";\n"

def renderTls (tls : Tls) : String :=
  "  ssl_certificate " ++ tls.certificate ++ ";\n" ++ "  ssl_certificate_key " ++ tls.certificateKey ++ ";\n"

def renderAction : RouteAction → String
  | .proxyPass target => "    proxy_pass " ++ target ++ ";\n"
  | .static root index =>
    "    root " ++ root ++ ";\n" ++
      match index with
      | some index => "    index " ++ index ++ ";\n"
      | none => ""
  | .redirect url code => "    return " ++ toString code.toNat ++ " " ++ url ++ ";\n"

def renderRoute (route : Route) : String :=
  "  location " ++ route.path ++ " \x7b\n" ++ renderAction route.action ++ "  \x7d\n"

def concat (parts : List String) : String := parts.foldr (· ++ ·) ""

/-- `routes.sort_by(|a, b| a.path.cmp(&b.path))`, a stable sort. -/
def sortRoutes (routes : List Route) : List Route := routes.insertionSort fun a b => a.path ≤ b.path

/-- `server_entries.sort_by(|a, b| a.id.cmp(&b.id))`, a stable sort. -/
def sortServers (servers : List Server) : List Server := servers.insertionSort fun a b => a.id ≤ b.id

/-- The text of a server's own file. -/
def renderServer (server : Server) : String :=
  "server \x7b\n" ++ "  server_name " ++ server.serverName ++ ";\n" ++
    concat (server.listen.map renderListen) ++
    (match server.tls with
      | some tls => renderTls tls
      | none => "") ++
    concat (((sortRoutes server.routes).filter (·.enabled)).map renderRoute) ++
    concat ((server.extraDirectives.getD []).map fun directive => "  " ++ directive ++ "\n") ++
    "\x7d\n"

/-- The name of a server's own file under `servers/`. -/
def serverFileName (server : Server) : String := sanitizeFilename server.id ++ ".conf"

/-- `server_file`: the server's own file relative to the staging directory. -/
def serverFile (server : Server) : String := "servers/" ++ serverFileName server

/-- The line (without its end) by which `nginx.conf` includes a server's file. -/
def includeLine (server : Server) : String := "  include " ++ serverFile server ++ ";"

def rootHeader : String :=
  "worker_processes auto;\n" ++ "events \x7b worker_connections 1024; \x7d\n" ++ "http \x7b\n" ++
  "  include       /etc/nginx/mime.types;\n" ++ "  default_type  application/octet-stream;\n" ++
  "  sendfile        on;\n" ++ "  keepalive_timeout  65;\n"

/-- The loop over the sorted servers: the text of `nginx.conf` so far and the files under `servers/`. -/
def renderServers : List Server → String → Dir → String × Dir
  | [], root, files => (root, files)
  | server :: rest, root, files =>
    if server.enabled then
      renderServers rest (root ++ (includeLine server ++ "\n"))
        (files.put (serverFileName server) (.file (Text.utf8 (renderServer server))))
    else renderServers rest root files

/-- The tree that `render_to_staging` leaves in the staging directory. -/
def renderTree (state : ControlPlaneState) : Dir :=
  let (root, files) := renderServers (sortServers state.servers) rootHeader []
  [("servers", .dir files), ("nginx.conf", .file (Text.utf8 (root ++ "\x7d\n")))]

/-- `files.sort()`: paths are ordered by their components. -/
def sortFiles (files : List (PathBuf × Bytes)) : List (PathBuf × Bytes) :=
  files.insertionSort fun a b => Location.le a.1.location b.1.location

/-- What `hash_directory` feeds to the hasher: path and content of every file, in the order of the paths. -/
def hashInput (path : PathBuf) (d : Dir) : Bytes :=
  (sortFiles (Dir.collect path d)).flatMap fun f => Text.utf8 f.1 ++ f.2

def hexDigit (n : Nat) : Char := "0123456789abcdef".toList.getD n '0'

/-- `hex::encode`. -/
def hexEncode (b : Bytes) : String :=
  String.ofList (b.flatMap fun x => [hexDigit (x.toNat / 16), hexDigit (x.toNat % 16)])

/-- `hash_directory` of an existing directory (`renderer.rs` and `apply.rs` have the same one). -/
def hashDirectory (path : PathBuf) (d : Dir) : String := hexEncode (Sha256.digest (hashInput path d))

end NginxAdmin.Daemon
