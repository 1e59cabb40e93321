import NginxAdmin.Lib.NginxConf
import NginxAdmin.Daemon.Alike

/-!
# The structure of the rendered files

The renderer puts the strings of the state between its own words, `;`, `{` and `}` as they are, and `validate_state`
does not look at most of them. `structureKept_of_readable`: when each string, followed by what ends its directive, reads
as words and that end, the file of a server has the structure that the renderer intends.
-/

namespace NginxAdmin.Daemon

open NginxConf

def RouteAction.directiveNames : RouteAction → List String
  | proxyPass _ => ["proxy_pass"]
  | static _ (some _) => ["root", "index"]
  | static _ none => ["root"]
  | redirect .. => ["return"]

/-- The simple directives of a server's block. -/
def Server.directiveNames (server : Server) : List String :=
  "server_name" :: server.listen.map (fun _ => "listen") ++
    if server.tls.isSome then ["ssl_certificate", "ssl_certificate_key"] else []

/-- The block of a route. -/
def Route.outline (route : Route) : Option String × List (Bool × Option String) :=
  (some "location", route.action.directiveNames.map fun name => (false, some name))

/-- The simple directives and the blocks of a file that is one `server` block. -/
def serverOutline : List Directive → Option (List String × List (Option String × List (Bool × Option String)))
  | [.block args body] =>
    if args = ["server"] then some (body.filterMap Directive.simpleName?, body.filterMap Directive.block?) else none
  | _ => none

/-- One `server` block with the directives of `server` and a `location` for each enabled route. -/
def Structured (server : Server) (ds : List Directive) : Prop :=
  ∃ names blocks, serverOutline ds = some (names, blocks) ∧ names.Perm server.directiveNames ∧
    blocks.Perm ((server.routes.filter (·.enabled)).map Route.outline)

def Conforms (server : Server) (content : Bytes) : Prop :=
  ∃ text ds, Text.fromUtf8 content = some text ∧ parse text = some ds ∧ Structured server ds

/-- Every file under `servers/` is the block of an enabled server. -/
def StructureKept (state : ControlPlaneState) (tree : Option Dir) : Prop :=
  ∀ d files, tree = some d → ("servers", Node.dir files) ∈ d → ∀ name content, (name, Node.file content) ∈ files →
    ∃ server ∈ enabledServers state, serverFileName server = name ∧ Conforms server content

/-- Followed by `;` and the end of the line, `v` reads as words and the `;`. -/
def Arguments (v : String) : Prop :=
  ∃ ws : List String, Scans (v.toList ++ [';', '\n']) (ws.map .word ++ [.semicolon])

/-- Followed by ` {` and the end of the line, `v` reads as words and the `{`. -/
def BlockArguments (v : String) : Prop :=
  ∃ ws : List String, Scans (v.toList ++ [' ', '\x7b', '\n']) (ws.map .word ++ [.lbrace])

structure Tls.Readable (tls : Tls) : Prop where
  certificate : Arguments tls.certificate
  certificateKey : Arguments tls.certificateKey

def RouteAction.Readable : RouteAction → Prop
  | proxyPass target => Arguments target
  | static root index => Arguments root ∧ ∀ v ∈ index, Arguments v
  | redirect url _ => Arguments url

structure Route.Readable (route : Route) : Prop where
  path : BlockArguments route.path
  action : route.action.Readable

structure Server.Readable (server : Server) : Prop where
  serverName : Arguments server.serverName
  tls : ∀ t ∈ server.tls, t.Readable
  routes : ∀ r ∈ server.routes, r.enabled = true → r.Readable

/-- A directive that the renderer starts with the words `ws`. -/
theorem writes_words {pre v : String} {ws : List String} (hpre : Scans pre.toList (ws.map .word)) (hne : ws ≠ [])
    (hv : Arguments v) : ∃ args, Writes (pre ++ v ++ ";\n").toList [.simple (ws ++ args)] := by
  obtain ⟨args, hargs⟩ := hv
  refine ⟨args, .simple ?_ (by simp [hne])⟩
  have htext : (pre ++ v ++ ";\n").toList = pre.toList ++ (v.toList ++ [';', '\n']) := by simp
  rw [htext, List.map_append, List.append_assoc]
  exact hpre.append hargs

theorem writes_directive (pre name : String) {v : String} (hpre : Scans pre.toList [.word name]) (hv : Arguments v) :
    ∃ args, Writes (pre ++ v ++ ";\n").toList [.simple (name :: args)] :=
  @writes_words pre v [name] hpre (List.cons_ne_nil _ _) hv

theorem arguments_join {ws : List String} (hne : ws ≠ []) (h : ∀ w ∈ ws, IsWord w) : Arguments (Text.join " " ws) := by
  refine ⟨ws, ?_⟩
  induction ws with
  | nil => exact absurd rfl hne
  | cons w ws ih =>
    obtain ⟨hw, hws⟩ := List.forall_mem_cons.1 h
    cases ws with
    | nil => exact scans_word_end hw
    | cons w' ws =>
      have htext : (Text.join " " (w :: w' :: ws)).toList ++ [';', '\n'] =
          (w.toList ++ [' ']) ++ ((Text.join " " (w' :: ws)).toList ++ [';', '\n']) := by simp [Text.join]
      rw [htext]
      exact (scans_word_blank hw).append (ih (List.cons_ne_nil _ _) hws)

theorem writes_renderListen (l : Listen) :
    ∃ d, Writes (renderListen l).toList [d] ∧ ∃ args, d = Directive.simple ("listen" :: args) := by
  suffices harguments : Arguments _ by
    obtain ⟨args, hw⟩ := writes_directive "  listen " "listen" (by decide +kernel) harguments
    exact ⟨_, hw, args, rfl⟩
  refine arguments_join (by simp) fun w hw => ?_
  have hflag : ∀ {b : Bool} {name : String}, w ∈ (if b then [name] else []) → w = name := by
    intro b name h
    cases b with
    | true => exact List.mem_singleton.1 h
    | false => cases h
  have hword : ∀ name ∈ ["ssl", "http2", "default_server"], IsWord name := by
    decide
  rcases List.mem_append.1 hw with hw | hw
  · rcases List.mem_append.1 hw with hw | hw
    · rcases List.mem_append.1 hw with hw | hw
      · rw [List.mem_singleton.1 hw]
        exact isWord_toString _
      · rw [hflag hw]
        exact hword "ssl" (by decide)
    · rw [hflag hw]
      exact hword "http2" (by decide)
  · rw [hflag hw]
    exact hword "default_server" (by decide)

/-- `ds` are simple directives with these names. -/
def Named (names : List String) (ds : List Directive) : Prop :=
  List.Forall₂ (fun name d => ∃ args, d = Directive.simple (name :: args)) names ds

theorem Named.simpleNames {names : List String} {ds : List Directive} (h : Named names ds) :
    ds.filterMap Directive.simpleName? = names := by
  induction h with
  | nil => rfl
  | cons hd _ ih =>
    obtain ⟨args, rfl⟩ := hd
    rw [List.filterMap_cons, ih]
    rfl

theorem Named.blocks {names : List String} {ds : List Directive} (h : Named names ds) :
    ds.filterMap Directive.block? = [] := by
  induction h with
  | nil => rfl
  | cons hd _ ih =>
    obtain ⟨args, rfl⟩ := hd
    rw [List.filterMap_cons_none rfl, ih]

theorem Named.headings {names : List String} {ds : List Directive} (h : Named names ds) :
    ds.map Directive.heading = names.map fun name => (false, some name) := by
  induction h with
  | nil => rfl
  | cons hd _ ih =>
    obtain ⟨args, rfl⟩ := hd
    rw [List.map_cons, ih]
    rfl

theorem writes_renderAction {a : RouteAction} (h : a.Readable) :
    ∃ ds, Writes (renderAction a).toList ds ∧ Named a.directiveNames ds := by
  cases a with
  | proxyPass target =>
    obtain ⟨args, hw⟩ := writes_directive "    proxy_pass " "proxy_pass" (by decide +kernel) h
    exact ⟨_, hw, .cons ⟨args, rfl⟩ .nil⟩
  | static root index =>
    obtain ⟨hroot, hindex⟩ := h
    obtain ⟨args, hw⟩ := writes_directive "    root " "root" (by decide +kernel) hroot
    cases index with
    | none =>
      have htext : renderAction (.static root none) = "    root " ++ root ++ ";\n" ++ "" := rfl
      rw [htext, String.append_empty]
      exact ⟨_, hw, .cons ⟨args, rfl⟩ .nil⟩
    | some index =>
      obtain ⟨args', hw'⟩ := writes_directive "    index " "index" (by decide +kernel) (hindex index rfl)
      have htext : renderAction (.static root (some index)) =
          "    root " ++ root ++ ";\n" ++ ("    index " ++ index ++ ";\n") := rfl
      rw [htext, String.toList_append]
      exact ⟨_, hw.append hw', .cons ⟨args, rfl⟩ (.cons ⟨args', rfl⟩ .nil)⟩
  | redirect url code =>
    have hpre : Scans ("    return " ++ toString code.toNat ++ " ").toList
        (["return", toString code.toNat].map .word) := by
      have hreturn : Scans "    return ".toList [.word "return"] := by decide +kernel
      have htext : ("    return " ++ toString code.toNat ++ " ").toList =
          "    return ".toList ++ ((toString code.toNat).toList ++ [' ']) := by simp
      rw [htext]
      exact hreturn.append (scans_word_blank (isWord_toString _))
    obtain ⟨args, hw⟩ := writes_words hpre (List.cons_ne_nil _ _) h
    exact ⟨_, hw, .cons ⟨toString code.toNat :: args, rfl⟩ .nil⟩

/-- `d` is the block of a route. -/
def IsLocation (route : Route) (d : Directive) : Prop :=
  ∃ args body, d = .block ("location" :: args) body ∧ Named route.action.directiveNames body

theorem writes_renderRoute {r : Route} (h : r.Readable) : ∃ d, Writes (renderRoute r).toList [d] ∧ IsLocation r d := by
  obtain ⟨ws, hws⟩ := h.path
  obtain ⟨body, hbody, hnamed⟩ := writes_renderAction h.action
  have hopen : Scans ("  location ".toList ++ (r.path.toList ++ [' ', '\x7b', '\n']))
      (("location" :: ws).map .word ++ [.lbrace]) := by
    have hpre : Scans "  location ".toList [.word "location"] := by decide +kernel
    exact hpre.append hws
  have hclose : Scans "  \x7d\n".toList [.rbrace] := by decide +kernel
  refine ⟨_, ?_, ws, body, rfl, hnamed⟩
  simpa [renderRoute] using Writes.block hopen (List.cons_ne_nil _ _) hbody hclose

theorem writes_renderTls {t : Tls} (h : t.Readable) :
    ∃ ds, Writes (renderTls t).toList ds ∧ Named ["ssl_certificate", "ssl_certificate_key"] ds := by
  obtain ⟨args, hw⟩ := writes_directive "  ssl_certificate " "ssl_certificate" (by decide +kernel) h.certificate
  obtain ⟨args', hw'⟩ := writes_directive "  ssl_certificate_key " "ssl_certificate_key" (by decide +kernel) h.certificateKey
  have htext : (renderTls t).toList = ("  ssl_certificate " ++ t.certificate ++ ";\n").toList ++
      ("  ssl_certificate_key " ++ t.certificateKey ++ ";\n").toList := by
    delta renderTls
    simp only [String.toList_append, List.append_assoc]
  exact ⟨_, htext ▸ hw.append hw', .cons ⟨args, rfl⟩ (.cons ⟨args', rfl⟩ .nil)⟩

theorem writes_concat {α : Type} {f : α → String} {R : α → Directive → Prop} {l : List α}
    (h : ∀ a ∈ l, ∃ d, Writes (f a).toList [d] ∧ R a d) :
    ∃ ds, Writes (concat (l.map f)).toList ds ∧ List.Forall₂ R l ds := by
  induction l with
  | nil => exact ⟨[], .nil, .nil⟩
  | cons a l ih =>
    obtain ⟨ha, hl⟩ := List.forall_mem_cons.1 h
    obtain ⟨d, hd, hR⟩ := ha
    obtain ⟨ds, hds, hRs⟩ := ih hl
    refine ⟨d :: ds, ?_, .cons hR hRs⟩
    simpa [concat] using hd.append hds

theorem locations_outline {routes : List Route} {ds : List Directive} (h : List.Forall₂ IsLocation routes ds) :
    ds.filterMap Directive.simpleName? = [] ∧ ds.filterMap Directive.block? = routes.map Route.outline := by
  induction h with
  | nil => exact ⟨rfl, rfl⟩
  | @cons r _ _ _ hd _ ih =>
    obtain ⟨args, body, rfl, hnamed⟩ := hd
    refine ⟨?_, ?_⟩
    · rw [List.filterMap_cons_none rfl, ih.1]
    · rw [List.filterMap_cons, ih.2, List.map_cons, Route.outline, ← hnamed.headings]
      rfl

theorem sortRoutes_enabled (routes : List Route) :
    ((sortRoutes routes).filter (·.enabled)).Perm (routes.filter (·.enabled)) :=
  (List.perm_insertionSort _ _).filter _

theorem writes_tls {tls : Option Tls} (h : ∀ t ∈ tls, t.Readable) : ∃ ds, Writes (tls.elim "" renderTls).toList ds ∧
    Named (if tls.isSome then ["ssl_certificate", "ssl_certificate_key"] else []) ds := by
  cases tls with
  | none => exact ⟨[], .nil, .nil⟩
  | some t => exact writes_renderTls (h t rfl)

theorem toList_renderServer {server : Server} (hextra : server.extraDirectives.getD [] = []) :
    (renderServer server).toList = "server \x7b\n".toList ++
      (("  server_name " ++ server.serverName ++ ";\n").toList ++ (concat (server.listen.map renderListen)).toList ++
        (server.tls.elim "" renderTls).toList ++
        (concat (((sortRoutes server.routes).filter (·.enabled)).map renderRoute)).toList) ++ "\x7d\n".toList := by
  delta renderServer
  rw [hextra]
  cases server.tls <;> simp only [concat, List.map_nil, List.foldr_nil, String.toList_append, List.append_assoc,
    String.append_empty, Option.elim, String.toList_empty, List.nil_append]

theorem structured_of_named {server : Server} {simples locations : List Directive}
    (hnamed : Named server.directiveNames simples)
    (hlocations : List.Forall₂ IsLocation ((sortRoutes server.routes).filter (·.enabled)) locations) :
    Structured server [.block ["server"] (simples ++ locations)] := by
  obtain ⟨hnone, hblocks⟩ := locations_outline hlocations
  refine ⟨_, _, rfl, ?_, ?_⟩
  · rw [List.filterMap_append, hnamed.simpleNames, hnone, List.append_nil]
  · rw [List.filterMap_append, hnamed.blocks, hblocks, List.nil_append]
    exact (sortRoutes_enabled server.routes).map _

theorem writes_renderServer {server : Server} (hextra : server.extraDirectives.getD [] = []) (h : server.Readable) :
    ∃ ds, Writes (renderServer server).toList ds ∧ Structured server ds := by
  obtain ⟨args, hname⟩ := writes_directive "  server_name " "server_name" (by decide +kernel) h.serverName
  obtain ⟨listens, hlistens, hnames⟩ := writes_concat fun l (_ : l ∈ server.listen) => writes_renderListen l
  obtain ⟨tls, htls, htlsNames⟩ := writes_tls h.tls
  have hroutes : ∀ r ∈ (sortRoutes server.routes).filter (·.enabled), r.Readable := by
    intro r hr
    obtain ⟨hmem, henabled⟩ := List.mem_filter.1 ((sortRoutes_enabled server.routes).mem_iff.1 hr)
    exact h.routes r hmem henabled
  obtain ⟨locations, hlocations, hblocks⟩ := writes_concat fun r hr => writes_renderRoute (hroutes r hr)
  have hopen : Scans "server \x7b\n".toList (["server"].map .word ++ [.lbrace]) := by decide +kernel
  have hclose : Scans "\x7d\n".toList [.rbrace] := by decide +kernel
  have hbody := ((hname.append hlistens).append htls).append hlocations
  rw [toList_renderServer hextra]
  refine ⟨_, .block hopen (List.cons_ne_nil _ _) hbody hclose, ?_⟩
  refine structured_of_named ?_ hblocks
  have hlisten : Named (server.listen.map fun _ => "listen") listens := List.forall₂_map_left_iff.2 hnames
  exact List.rel_append (.cons ⟨args, rfl⟩ hlisten) htlsNames

/-! ### The files -/

theorem mem_renderServers {servers : List Server} {root : String} {files : Dir} {e : String × Node}
    (h : e ∈ (renderServers servers root files).2) :
    e ∈ files ∨ ∃ server ∈ servers, server.enabled = true ∧ e = serverEntry server := by
  induction servers generalizing root files with
  | nil => exact .inl h
  | cons server servers ih =>
    rw [renderServers] at h
    split at h
    · rename_i henabled
      rcases ih h with hfiles | ⟨s, hs, hentry⟩
      · rcases Dir.mem_put hfiles with rfl | hfiles
        · exact .inr ⟨server, List.mem_cons_self, henabled, rfl⟩
        · exact .inl hfiles
      · exact .inr ⟨s, List.mem_cons_of_mem _ hs, hentry⟩
    · rcases ih h with hfiles | ⟨s, hs, hentry⟩
      · exact .inl hfiles
      · exact .inr ⟨s, List.mem_cons_of_mem _ hs, hentry⟩

theorem mem_renderTree {state : ControlPlaneState} {files : Dir} (h : ("servers", Node.dir files) ∈ renderTree state)
    {e : String × Node} (he : e ∈ files) : ∃ server ∈ enabledServers state, e = serverEntry server := by
  have hrendered : files = (renderServers (sortServers state.servers) rootHeader []).2 := by
    simpa [renderTree] using h
  rw [hrendered] at he
  rcases mem_renderServers he with hnil | ⟨server, hmem, henabled, hentry⟩
  · cases hnil
  · exact ⟨server, (sortServers_perm state).mem_iff.1 (List.mem_filter.2 ⟨hmem, henabled⟩), hentry⟩

/-- The files that `render_to_staging` leaves have the structure of their servers when the strings of these keep it, and
the test for an old staging directory is right. -/
theorem structureKept_of_readable (cfg : DaemonConfig) (state : ControlPlaneState) {t : Nat} {s s' : Moment}
    {r : RenderResult} (h : (renderToStaging cfg state).run.Eval (sighted (· = .exists cfg.staging)) t s (.ok r) s')
    (hextra : ∀ server ∈ state.servers, server.extraDirectives.getD [] = [])
    (hread : ∀ server ∈ enabledServers state, server.Readable) :
    StructureKept state (s'.now.disk.dirs cfg.staging) := by
  rw [(eval_renderToStaging h).1]
  intro d files hd hfiles name content hmem
  obtain rfl := Option.some.inj hd
  obtain ⟨server, hserver, hentry⟩ := mem_renderTree hfiles hmem
  obtain ⟨rfl, hnode⟩ := Prod.mk.inj hentry
  obtain ⟨ds, hwrites, hstructured⟩ := writes_renderServer (hextra server (List.mem_of_mem_filter hserver))
    (hread server hserver)
  refine ⟨server, hserver, rfl, renderServer server, ds, ?_, parse_of_writes hwrites, hstructured⟩
  rw [Node.file.inj hnode]
  exact Text.fromUtf8_utf8 _

theorem exists_render (state : ControlPlaneState) :
    ∃ r s', (renderToStaging .defaults state).run.Eval (sighted (· = .exists DaemonConfig.defaults.staging)) 0 bareMoment
      (.ok r) s' := by
  obtain ⟨r, s', h⟩ := renderToStaging_returns .defaults state 0 bareMoment
  exact ⟨r, s', h.imp fun _ _ _ _ => sighted_of_faultless⟩

/-- A server with a name, a certificate and a route of its own. -/
def hostServer (serverName : String) : Server where
  id := "web"
  serverName := serverName
  listen := [⟨443, true, some true, none⟩]
  routes := [⟨"home", "/", none, .proxyPass "http://127.0.0.1:8080", none, none, true⟩]
  tls := some ⟨"/etc/ssl/web.pem", "/etc/ssl/web.pk"⟩
  extraDirectives := none
  enabled := true

theorem structureKept_host : ∃ r s', (renderToStaging .defaults (stateOf [hostServer "example.org"])).run.Eval
      (sighted (· = .exists DaemonConfig.defaults.staging)) 0 bareMoment (.ok r) s' ∧
    StructureKept (stateOf [hostServer "example.org"]) (s'.now.disk.dirs DaemonConfig.defaults.staging) := by
  obtain ⟨r, s', h⟩ := exists_render (stateOf [hostServer "example.org"])
  refine ⟨r, s', h, structureKept_of_readable .defaults _ h ?_ ?_⟩
  · intro server hserver
    rw [List.mem_singleton.1 hserver]
    rfl
  · intro server hserver
    rw [List.mem_singleton.1 hserver]
    refine ⟨⟨["example.org"], by decide +kernel⟩, fun t ht => ?_, fun r hr _ => ?_⟩
    · obtain rfl := Option.some.inj ht
      exact ⟨⟨["/etc/ssl/web.pem"], by decide +kernel⟩, ⟨["/etc/ssl/web.pk"], by decide +kernel⟩⟩
    · obtain rfl := List.mem_singleton.1 hr
      exact ⟨⟨["/"], by decide +kernel⟩, ⟨["http://127.0.0.1:8080"], by decide +kernel⟩⟩

theorem servers_renderTree {server : Server} (h : server.enabled = true) :
    ("servers", Node.dir [serverEntry server]) ∈ renderTree (stateOf [server]) := by
  simp [renderTree, sortServers, renderServers, stateOf, h, Dir.put, serverEntry]

/-- The name ends its directive and starts another one. -/
def brokenServer : Server := { sampleServer "web" with serverName := "example.org; return 444" }

/-- `validate_state` accepts such a name. -/
theorem structure_broken : validateState (stateOf [brokenServer]) = .ok () ∧
    ∃ r s', (renderToStaging .defaults (stateOf [brokenServer])).run.Eval
      (sighted (· = .exists DaemonConfig.defaults.staging)) 0 bareMoment (.ok r) s' ∧
    ¬ StructureKept (stateOf [brokenServer])
      (s'.now.disk.dirs DaemonConfig.defaults.staging) := by
  obtain ⟨r, s', h⟩ := exists_render (stateOf [brokenServer])
  refine ⟨by decide +kernel, r, s', h, fun hkept => ?_⟩
  have hnames : ((parse (renderServer brokenServer)).bind serverOutline).map Prod.fst =
      some ["server_name", "return", "listen"] := by decide +kernel
  rw [(eval_renderToStaging h).1] at hkept
  obtain ⟨server, hserver, -, text, ds, htext, hparse, names, blocks, houtline, hperm, -⟩ :=
    hkept _ _ rfl (servers_renderTree rfl) _ _ List.mem_cons_self
  obtain rfl := List.mem_singleton.1 hserver
  rw [Text.fromUtf8_utf8] at htext
  obtain rfl := Option.some.inj htext
  rw [hparse, Option.bind_some, houtline, Option.map_some, Option.some.injEq] at hnames
  have hnames' : names = _ := hnames
  rw [hnames'] at hperm
  exact absurd hperm (by decide +kernel)

end NginxAdmin.Daemon
