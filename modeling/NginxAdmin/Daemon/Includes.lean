import NginxAdmin.Daemon.Structure

/-!
# The include graph of the rendered tree

`nginx.conf` and the files under `servers/` come out of one loop by two ways, a text that grows and a directory in
which an entry can be overwritten. `Names` relates them: what the loop has included is what the directory holds.
`includes_closed` is the result about `render_to_staging`: nothing that is included is missing, nothing is there that
is not included, and nothing is written elsewhere, whatever the ids are.
-/

namespace NginxAdmin.Daemon

open NginxConf

/-- A name of characters that mean nothing in a path, with its extension. -/
def PlainConf (name : String) : Prop :=
  ∃ stem : String, name = stem ++ ".conf" ∧ ∀ c ∈ stem.toList, c.isAlphanum = true ∨ c = '-' ∨ c = '_'

theorem plainConf_serverFileName (server : Server) : PlainConf (serverFileName server) := by
  refine ⟨sanitizeFilename server.id, rfl, fun c hc => ?_⟩
  rw [sanitizeFilename, String.toList_ofList] at hc
  obtain ⟨d, -, rfl⟩ := List.mem_map.1 hc
  split
  · rename_i hd
    simpa [or_assoc] using hd
  · exact .inr (.inr rfl)

/-- The characters of such a name and of the path to it. -/
theorem isPlain_of_plainConf {name : String} (h : PlainConf name) : ∀ c ∈ name.toList, isPlain c = true ∧ c ≠ '/' := by
  obtain ⟨stem, rfl, hstem⟩ := h
  have hplain : ∀ c : Char, c.isAlphanum = true ∨ c = '-' ∨ c = '_' → isPlain c = true ∧ c ≠ '/' := by
    rintro c (hc | rfl | rfl)
    · have hne : ∀ d : Char, d.isAlphanum = false → c ≠ d := fun d hd he => by rw [he, hd] at hc; cases hc
      simp [isPlain, isBlank, hne ' ' (by decide), hne '\t' (by decide), hne '\r' (by decide), hne '\n' (by decide),
        hne ';' (by decide), hne '\x7b' (by decide), hne '\x7d' (by decide), hne '#' (by decide), hne '\\' (by decide),
        hne '"' (by decide), hne '\'' (by decide), hne '$' (by decide), hne '/' (by decide)]
    · decide
    · decide
  intro c hc
  rw [String.toList_append] at hc
  rcases List.mem_append.1 hc with hc | hc
  · exact hplain c (hstem c hc)
  · have hconf : (".conf".toList.all fun c => isPlain c && c != '/') = true := by decide
    simpa using List.all_eq_true.1 hconf c hc

theorem names_plainConf {name : String} (h : PlainConf name) : PathBuf.names name.toList = [name.toList] := by
  have hslash : ∀ c ∈ name.toList, (c == '/') = false := fun c hc => by simpa using (isPlain_of_plainConf h c hc).2
  obtain ⟨stem, rfl, -⟩ := h
  rw [PathBuf.names, List.splitOn, List.splitOnP_eq_singleton hslash]
  have hlong : 5 ≤ (stem ++ ".conf").toList.length := by simp
  rw [List.filter_cons, if_pos, List.filter_nil]
  refine decide_eq_true ⟨fun hnil => ?_, fun hdot => ?_⟩
  · rw [hnil] at hlong
    exact absurd hlong (by decide)
  · rw [hdot] at hlong
    exact absurd hlong (by decide)

/-- The text of `server_file` names the file `<name>.conf` in `servers`. -/
theorem location_serverFile (server : Server) : PathBuf.location (serverFile server) = ["servers", serverFileName server] := by
  have htext : (serverFile server).toList = "servers".toList ++ '/' :: (serverFileName server).toList := by
    rw [serverFile, String.toList_append]
    rfl
  rw [PathBuf.location, htext, PathBuf.names_append_slash, names_plainConf (plainConf_serverFileName server)]
  have hservers : PathBuf.names "servers".toList = ["servers".toList] := by decide
  rw [hservers]
  simp

/-- `staging_dir.join(&server_file)`. -/
theorem location_join_serverFile (p : PathBuf) (server : Server) :
    (p.join (serverFile server)).location = p.location ++ ["servers", serverFileName server] := by
  by_cases hp : p = ""
  · subst hp
    have hjoin : PathBuf.join "" (serverFile server) = serverFile server := by simp [PathBuf.join, PathBuf.withSlash]
    rw [hjoin, location_serverFile]
    simp [PathBuf.location, PathBuf.names_nil]
  · obtain ⟨l, hl, hnames, hhead⟩ := PathBuf.withSlash_eq hp
    have hfile : (PathBuf.names (serverFile server).toList).map String.ofList = ["servers", serverFileName server] := by
      have hloc := location_serverFile server
      have hhead : (serverFile server).toList.head? ≠ some '/' := by
        rw [serverFile, String.toList_append, show "servers/".toList = 's' :: "ervers/".toList from rfl, List.cons_append,
          List.head?_cons]
        decide
      rwa [PathBuf.location, if_neg hhead, List.nil_append] at hloc
    have htext : (p.join (serverFile server)).toList = l ++ '/' :: (serverFile server).toList := by
      rw [PathBuf.join, String.toList_append, hl, List.append_assoc]
      rfl
    have hstart : (l ++ '/' :: (serverFile server).toList).head? = p.toList.head? := by
      rw [← hhead, hl]
      cases l <;> rfl
    rw [PathBuf.location, htext, hstart, PathBuf.names_append_slash, List.map_append, hfile, hnames, ← List.append_assoc]
    rfl

/-- `files` holds a file for each of `names`, and nothing else. -/
structure Names (names : List String) (files : Dir) : Prop where
  entries : ∀ e ∈ files, e.1 ∈ names ∧ ∃ content, e.2 = .file content
  file : ∀ name ∈ names, ∃ content, files.lookup name = some (.file content)

theorem Names.put {names : List String} {files : Dir} (h : Names names files) (name : String) (content : Bytes) :
    Names (names ++ [name]) (files.put name (.file content)) := by
  refine ⟨fun e he => ?_, fun n hn => ?_⟩
  · rcases Dir.mem_put he with rfl | he
    · exact ⟨List.mem_append_right _ List.mem_cons_self, content, rfl⟩
    · obtain ⟨hname, hfile⟩ := h.entries e he
      exact ⟨List.mem_append_left _ hname, hfile⟩
  · by_cases hne : n = name
    · subst hne
      exact ⟨content, Dir.lookup_put_self _ _ _⟩
    · rw [Dir.lookup_put_ne hne]
      rcases List.mem_append.1 hn with hn | hn
      · exact h.file n hn
      · exact absurd (List.mem_singleton.1 hn) hne

theorem names_renderServers (servers : List Server) (root : String) {names : List String} {files : Dir}
    (h : Names names files) :
    Names (names ++ (servers.filter (·.enabled)).map serverFileName) (renderServers servers root files).2 := by
  induction servers generalizing root names files with
  | nil => simpa [renderServers] using h
  | cons server rest ih =>
    rw [renderServers, List.filter_cons]
    split
    · have hrest := ih (root ++ (includeLine server ++ "\n")) (h.put (serverFileName server) (Text.utf8 (renderServer server)))
      rwa [List.append_assoc] at hrest
    · exact ih root h

theorem root_renderServers (servers : List Server) (root : String) (files : Dir) :
    (renderServers servers root files).1 =
      root ++ concat ((servers.filter (·.enabled)).map fun s => includeLine s ++ "\n") := by
  induction servers generalizing root files with
  | nil => simp [renderServers, concat]
  | cons server rest ih =>
    rw [renderServers, List.filter_cons]
    split
    · rw [ih]
      simp [concat, String.append_assoc]
    · exact ih root files

/-! ### What `nginx.conf` reads as -/

/-- The files that the `http` block includes. -/
def httpIncludes (ds : List Directive) : List String :=
  ds.flatMap fun
    | .simple _ => []
    | .block args body =>
      if args = ["http"] then
        body.flatMap fun
          | .simple ["include", file] => [file]
          | _ => []
      else []

theorem isWord_serverFile (server : Server) : IsWord (serverFile server) := by
  have htext : (serverFile server).toList = "servers/".toList ++ (serverFileName server).toList := String.toList_append
  rw [IsWord, htext]
  refine ⟨List.append_ne_nil_of_left_ne_nil (by decide) _, fun c hc => ?_⟩
  rcases List.mem_append.1 hc with hc | hc
  · have hdir : ("servers/".toList.all isPlain) = true := by decide
    exact List.all_eq_true.1 hdir c hc
  · exact (isPlain_of_plainConf (plainConf_serverFileName server) c hc).1

theorem writes_includeLine (server : Server) :
    Writes (includeLine server ++ "\n").toList [.simple ["include", serverFile server]] := by
  have hstart : Scans "  include ".toList [.word "include"] := by decide +kernel
  have htext : (includeLine server ++ "\n").toList = "  include ".toList ++ ((serverFile server).toList ++ [';', '\n']) := by
    simp [includeLine]
  have hline : Scans ("  include ".toList ++ ((serverFile server).toList ++ [';', '\n']))
      (["include", serverFile server].map .word ++ [.semicolon]) := hstart.append (scans_word_end (isWord_serverFile server))
  rw [htext]
  exact .simple hline (List.cons_ne_nil _ _)

/-- The directives of the `http` block before the servers. -/
def httpHeader : List Directive :=
  [.simple ["include", "/etc/nginx/mime.types"], .simple ["default_type", "application/octet-stream"],
    .simple ["sendfile", "on"], .simple ["keepalive_timeout", "65"]]

def httpHeaderText : List Char :=
  "  include       /etc/nginx/mime.types;\n".toList ++ "  default_type  application/octet-stream;\n".toList ++
    "  sendfile        on;\n".toList ++ "  keepalive_timeout  65;\n".toList

theorem writes_httpHeader : Writes httpHeaderText httpHeader := by
  have hinclude : Writes "  include       /etc/nginx/mime.types;\n".toList [.simple ["include", "/etc/nginx/mime.types"]] :=
    .simple (by decide +kernel) (List.cons_ne_nil _ _)
  have htype : Writes "  default_type  application/octet-stream;\n".toList
      [.simple ["default_type", "application/octet-stream"]] := .simple (by decide +kernel) (List.cons_ne_nil _ _)
  have hsend : Writes "  sendfile        on;\n".toList [.simple ["sendfile", "on"]] :=
    .simple (by decide +kernel) (List.cons_ne_nil _ _)
  have hkeep : Writes "  keepalive_timeout  65;\n".toList [.simple ["keepalive_timeout", "65"]] :=
    .simple (by decide +kernel) (List.cons_ne_nil _ _)
  exact ((hinclude.append htype).append hsend).append hkeep

theorem writes_nginxConf (servers : List Server) : Writes (nginxConf servers).toList
    [.simple ["worker_processes", "auto"], .block ["events"] [.simple ["worker_connections", "1024"]],
      .block ["http"] (httpHeader ++ servers.map fun s => .simple ["include", serverFile s])] := by
  have hworkers : Writes "worker_processes auto;\n".toList [.simple ["worker_processes", "auto"]] :=
    .simple (by decide +kernel) (List.cons_ne_nil _ _)
  have hconnections : Writes " worker_connections 1024;".toList [.simple ["worker_connections", "1024"]] :=
    .simple (by decide +kernel) (List.cons_ne_nil _ _)
  have hevents : Writes ("events \x7b".toList ++ " worker_connections 1024;".toList ++ " \x7d\n".toList)
      [.block ["events"] [.simple ["worker_connections", "1024"]]] :=
    .block (by decide +kernel) (List.cons_ne_nil _ _) hconnections (by decide +kernel)
  obtain ⟨ds, hservers, hds⟩ := writes_concat (f := fun s => includeLine s ++ "\n") (l := servers)
    (R := fun s d => d = .simple ["include", serverFile s]) fun s _ => ⟨_, writes_includeLine s, rfl⟩
  obtain rfl : ds = servers.map fun s => .simple ["include", serverFile s] := by
    rw [← List.forall₂_eq_eq_eq, List.forall₂_map_right_iff]
    exact (List.Forall₂.flip hds).imp fun _ _ h => h
  have hopen : Scans "http \x7b\n".toList (["http"].map .word ++ [.lbrace]) := by decide +kernel
  have hclose : Scans "\x7d\n".toList [.rbrace] := by decide +kernel
  have hhttp := Writes.block hopen (List.cons_ne_nil _ _) (writes_httpHeader.append hservers) hclose
  have hheader : rootHeader.toList = "worker_processes auto;\n".toList ++
      ("events \x7b".toList ++ " worker_connections 1024;".toList ++ " \x7d\n".toList) ++
      ("http \x7b\n".toList ++ httpHeaderText) := by
    have hline : "events \x7b worker_connections 1024; \x7d\n".toList =
        "events \x7b".toList ++ " worker_connections 1024;".toList ++ " \x7d\n".toList := by
      decide +kernel
    delta rootHeader httpHeaderText
    simp only [String.toList_append, hline, List.append_assoc]
  have htext : (nginxConf servers).toList = "worker_processes auto;\n".toList ++
      ("events \x7b".toList ++ " worker_connections 1024;".toList ++ " \x7d\n".toList) ++
      ("http \x7b\n".toList ++ (httpHeaderText ++ (concat (servers.map fun s => includeLine s ++ "\n")).toList) ++
        "\x7d\n".toList) := by
    rw [nginxConf, String.toList_append, String.toList_append, hheader]
    simp only [List.append_assoc]
  rw [htext]
  exact (hworkers.append hevents).append hhttp

/-- `tree` is `nginx.conf` with the text `conf` and the directory `servers` with the entries `files`; `conf` includes
the files of the servers `included`. -/
structure IncludesClosed (state : ControlPlaneState) (tree files : Dir) (conf : String) (included : List Server) :
    Prop where
  layout : tree = [("servers", .dir files), ("nginx.conf", .file (Text.utf8 conf))]
  names : ∀ e ∈ files, PlainConf e.1 ∧ ∃ content, e.2 = .file content
  reads : ∃ ds, parse conf = some ds ∧ httpIncludes ds = "/etc/nginx/mime.types" :: included.map serverFile
  servers : included.Perm (enabledServers state)
  ascending : included.Pairwise fun a b => a.id ≤ b.id
  present : ∀ line ∈ included.map serverFile, ∃ content, Dir.get? (PathBuf.location line) tree = some (.file content)
  named : ∀ e ∈ files, ∃ line ∈ included.map serverFile, PathBuf.location line = ["servers", e.1]

theorem httpIncludes_servers (servers : List Server) :
    httpIncludes [.simple ["worker_processes", "auto"], .block ["events"] [.simple ["worker_connections", "1024"]],
      .block ["http"] (httpHeader ++ servers.map fun s => .simple ["include", serverFile s])] =
      "/etc/nginx/mime.types" :: servers.map serverFile := by
  have hservers : (servers.map fun s => Directive.simple ["include", serverFile s]).flatMap (fun
      | .simple ["include", file] => [file]
      | _ => []) = servers.map serverFile := by
    induction servers with
    | nil => rfl
    | cons server rest ih =>
      rw [List.map_cons, List.flatMap_cons, ih]
      rfl
  show (if ["http"] = ["http"] then (httpHeader ++ _).flatMap _ else []) ++ [] = _
  rw [if_pos rfl, List.append_nil, List.flatMap_append, hservers]
  rfl

theorem includesClosed_renderTree (state : ControlPlaneState) :
    ∃ files conf included, IncludesClosed state (renderTree state) files conf included := by
  let included := (sortServers state.servers).filter (·.enabled)
  let files := (renderServers (sortServers state.servers) rootHeader []).2
  have hnone : Names [] [] := ⟨fun e he => absurd he List.not_mem_nil, fun n hn => absurd hn List.not_mem_nil⟩
  have hnames : Names (included.map serverFileName) files :=
    names_renderServers (sortServers state.servers) rootHeader hnone
  have htree : renderTree state = [("servers", .dir files), ("nginx.conf", .file (Text.utf8 (nginxConf included)))] := by
    rw [renderTree, nginxConf, ← root_renderServers (sortServers state.servers) rootHeader []]
  refine ⟨files, nginxConf included, included, htree, fun e he => ?_,
    ⟨_, parse_of_writes (writes_nginxConf included), httpIncludes_servers included⟩, sortServers_perm state, ?_,
    fun line hline => ?_, fun e he => ?_⟩
  · obtain ⟨hname, hfile⟩ := hnames.entries e he
    obtain ⟨server, -, hserver⟩ := List.mem_map.1 hname
    exact ⟨hserver ▸ plainConf_serverFileName server, hfile⟩
  · have hsorted : (sortServers state.servers).Pairwise fun a b => a.id ≤ b.id := by
      have : Std.Total fun a b : Server => a.id ≤ b.id := ⟨fun a b => String.le_total a.id b.id⟩
      have : IsTrans Server fun a b => a.id ≤ b.id := ⟨fun a b c => String.le_trans⟩
      exact List.pairwise_insertionSort _ _
    exact hsorted.filter _
  · obtain ⟨server, hserver, rfl⟩ := List.mem_map.1 hline
    obtain ⟨content, hcontent⟩ := hnames.file _ (List.mem_map_of_mem hserver)
    refine ⟨content, ?_⟩
    rw [location_serverFile, htree]
    simp [Dir.get?, hcontent]
  · obtain ⟨hname, -⟩ := hnames.entries e he
    obtain ⟨server, hserver, hentry⟩ := List.mem_map.1 hname
    exact ⟨serverFile server, List.mem_map_of_mem hserver, by rw [location_serverFile, hentry]⟩

/-- The operation works on the staging directory, and writes only `nginx.conf` and files in `servers`. -/
def Op.RendersIn (cfg : DaemonConfig) : Op → Prop
  | .exists l | readTree l | removeDirAll l => l = cfg.staging
  | createDirAll l rel => l = cfg.staging ∧ rel = ["servers"]
  | writeFile l rel _ => l = cfg.staging ∧ (rel = ["nginx.conf"] ∨ ∃ name, PlainConf name ∧ rel = ["servers", name])
  | _ => False

theorem writeServers_rendersIn (cfg : DaemonConfig) (servers : List Server) (root : String) :
    (writeServers cfg servers root).run.All (Op.RendersIn cfg) := by
  induction servers generalizing root with
  | nil => exact trivial
  | cons server rest ih =>
    unfold writeServers
    split
    · refine all_bind (all_attempt (.perform ⟨rfl, .inr ?_⟩)) fun _ => ih _
      exact ⟨serverFileName server, plainConf_serverFileName server, rfl⟩
    · exact ih _

theorem renderToStaging_rendersIn (cfg : DaemonConfig) (state : ControlPlaneState) :
    (renderToStaging cfg state).run.All (Op.RendersIn cfg) := by
  refine all_bind (all_ask (o := .exists cfg.staging) rfl) fun _ => ?_
  refine all_bind (all_whenever (all_attempt (.perform (o := Op.removeDirAll cfg.staging) rfl))) fun _ => ?_
  refine all_bind (all_attempt (.perform (o := Op.createDirAll cfg.staging ["servers"]) ⟨rfl, rfl⟩)) fun _ => ?_
  refine all_bind (writeServers_rendersIn cfg _ _) fun _ => ?_
  refine all_bind (all_attempt (.perform (o := Op.writeFile cfg.staging ["nginx.conf"] _) ⟨rfl, .inl rfl⟩)) fun _ => ?_
  exact all_bind (all_attempt (.perform (o := Op.readTree cfg.staging) rfl)) fun _ => trivial

/-- Whatever the state, a render writes nothing but `nginx.conf` and files in `servers`, under the paths that the texts
of `render_to_staging` denote, and a render that succeeds leaves a closed include graph when its test for an old staging
directory is right. -/
theorem includes_closed (cfg : DaemonConfig) (state : ControlPlaneState) :
    (renderToStaging cfg state).run.All (Op.RendersIn cfg) ∧
    (∀ server, (cfg.stagingDir.join (serverFile server)).location = cfg.staging ++ ["servers", serverFileName server]) ∧
    ∀ t s r s', (renderToStaging cfg state).run.Eval (sighted (· = .exists cfg.staging)) t s (.ok r) s' →
      ∃ tree files conf included, s'.now.disk.dirs cfg.staging = some tree ∧
        IncludesClosed state tree files conf included := by
  refine ⟨renderToStaging_rendersIn cfg state, location_join_serverFile cfg.stagingDir, fun t s r s' h => ?_⟩
  obtain ⟨files, conf, included, hclosed⟩ := includesClosed_renderTree state
  exact ⟨_, files, conf, included, (eval_renderToStaging h).1, hclosed⟩

/-- Ids with a separator, dots and other letters: a collision of names included. -/
theorem includes_closed_ids : ∃ tree files conf included, IncludesClosed
    (stateOf [sampleServer "../etc/passwd", sampleServer "é.b", sampleServer "è_b"]) tree files conf included := by
  obtain ⟨r, s', h⟩ := exists_render (stateOf [sampleServer "../etc/passwd", sampleServer "é.b", sampleServer "è_b"])
  obtain ⟨tree, files, conf, included, -, hclosed⟩ := (includes_closed .defaults _).2.2 _ _ _ _ h
  exact ⟨tree, files, conf, included, hclosed⟩

end NginxAdmin.Daemon
