import NginxAdmin.Daemon.Accepted
import NginxAdmin.Daemon.Hosts
import NginxAdmin.Daemon.StoreRun
import NginxAdmin.Lib.StableSort

/-!
# States that render alike

What `render_to_staging` writes depends on the enabled servers and their enabled routes only, not on the
order in which they are listed (as long as ids and paths tell them apart), and not on `match_type`,
`headers` and `rate_limit` of a route.
-/

namespace NginxAdmin.Daemon

/-- What the loop of `render_to_staging` takes from the servers: id and text of every enabled one. -/
def shown (servers : List Server) : List (String × String) :=
  (servers.filter (·.enabled)).map fun server => (server.id, renderServer server)

theorem renderServers_congr {servers servers' : List Server} (h : shown servers = shown servers') (root : String)
    (files : Dir) : renderServers servers root files = renderServers servers' root files := by
  -- the loop, on the list of what is shown
  let add (acc : String × Dir) (x : String × String) : String × Dir :=
    (acc.1 ++ ("  include " ++ ("servers/" ++ (sanitizeFilename x.1 ++ ".conf")) ++ ";" ++ "\n"),
      acc.2.put (sanitizeFilename x.1 ++ ".conf") (.file (Text.utf8 x.2)))
  have loop : ∀ (l : List Server) (root : String) (files : Dir),
      renderServers l root files = (shown l).foldl add (root, files) := by
    intro l
    induction l with
    | nil => intro root files; rfl
    | cons server l ih =>
      intro root files
      unfold renderServers
      cases hs : server.enabled with
      | false => simp only [shown, List.filter_cons, hs, Bool.false_eq_true, ↓reduceIte]; exact ih root files
      | true => simp only [shown, List.filter_cons, hs, ↓reduceIte, List.map_cons, List.foldl_cons]; exact ih _ _
  rw [loop, loop, h]

theorem renderTree_congr {x y : ControlPlaneState}
    (h : shown (sortServers x.servers) = shown (sortServers y.servers)) : renderTree x = renderTree y := by
  unfold renderTree
  rw [renderServers_congr h]

/-- `x` and `y` render alike: without faults `render_to_staging` succeeds for both, and whatever it starts from, a
render of `x` and a render of `y` that succeed leave the same tree, with the same hash, when each is right about whether
there is an old staging directory. -/
structure RendersAlike (cfg : DaemonConfig) (x y : ControlPlaneState) : Prop where
  returns : ∀ z, z = x ∨ z = y → ∀ t s, ∃ r s',
    (renderToStaging cfg z).run.Eval (machine.machineOn Faultless) t s (.ok r) s'
  same : ∀ {t t' s s' u u' r q},
    (renderToStaging cfg x).run.Eval (sighted (· = .exists cfg.staging)) t s (.ok r) s' →
    (renderToStaging cfg y).run.Eval (sighted (· = .exists cfg.staging)) t' u (.ok q) u' →
    ∃ tree, s'.now.disk.dirs cfg.staging = some tree ∧ u'.now.disk.dirs cfg.staging = some tree ∧
      r.configHash = q.configHash

theorem renderToStaging_returns (cfg : DaemonConfig) (x : ControlPlaneState) (t : Nat) (s : Moment) :
    ∃ r s', (renderToStaging cfg x).run.Eval (machine.machineOn Faultless) t s (.ok r) s' := by
  have henabled : ∀ o : Op, o.OnDirs → ∀ s : Moment, True →
      ∃ r s', (machine.machineOn Faultless).step t o s r s' ∧ True := fun o ho s _ => by
    obtain ⟨r, s', hstep, -⟩ := onDirs_enabled ho t s
    exact ⟨r, s', hstep, trivial⟩
  obtain ⟨r, s', he, -⟩ := Prog.exists_eval henabled (renderToStaging_onDirs x) (s := s) trivial
  obtain ⟨a, rfl⟩ := eval_renderToStaging_faultless he
  exact ⟨a, s', he⟩

theorem rendersAlike_of_tree (cfg : DaemonConfig) {x y : ControlPlaneState} (h : renderTree x = renderTree y) :
    RendersAlike cfg x y where
  returns z _ t s := renderToStaging_returns cfg z t s
  same hx hy := by
    obtain ⟨htree, hhash⟩ := eval_renderToStaging hx
    obtain ⟨htree', hhash'⟩ := eval_renderToStaging hy
    exact ⟨renderTree x, htree, h ▸ htree', by rw [hhash, hhash', h]⟩

/-- The server without its disabled routes. -/
def Server.visible (server : Server) : Server :=
  { server with routes := server.routes.filter (·.enabled) }

/-- The servers that are left when every disabled server and every disabled route is removed. -/
def visibleServers (servers : List Server) : List Server :=
  (servers.filter (·.enabled)).map Server.visible

instance : Std.Total fun a b : Server => a.id ≤ b.id := ⟨fun a b => String.le_total a.id b.id⟩

instance : IsTrans Server fun a b => a.id ≤ b.id := ⟨fun _ _ _ => String.le_trans⟩

instance : Std.Total fun a b : Route => a.path ≤ b.path := ⟨fun a b => String.le_total a.path b.path⟩

instance : IsTrans Route fun a b => a.path ≤ b.path := ⟨fun _ _ _ => String.le_trans⟩

/-- What the text of a server's file is made of. -/
theorem renderServer_congr {a b : Server} (hname : a.serverName = b.serverName) (hlisten : a.listen = b.listen)
    (htls : a.tls = b.tls) (hextra : a.extraDirectives = b.extraDirectives)
    (hroutes : ((sortRoutes a.routes).filter (·.enabled)).map renderRoute =
      ((sortRoutes b.routes).filter (·.enabled)).map renderRoute) : renderServer a = renderServer b := by
  delta renderServer
  rw [hname, hlisten, htls, hextra, hroutes]

theorem renderServer_visible (server : Server) : renderServer server.visible = renderServer server := by
  have hroutes : (sortRoutes (server.routes.filter (·.enabled))).filter (·.enabled) =
      (sortRoutes server.routes).filter (·.enabled) := by
    simp only [sortRoutes, List.filter_insertionSort, List.filter_filter, Bool.and_self]
  exact renderServer_congr rfl rfl rfl rfl (congrArg (List.map renderRoute) hroutes)

theorem shown_sortServers (servers : List Server) :
    shown (sortServers servers) =
      (sortServers (visibleServers servers)).map fun server => (server.id, renderServer server) := by
  -- the sort moves past the removal of servers, then past that of routes
  have hmap : sortServers (visibleServers servers) =
      (sortServers (servers.filter (·.enabled))).map Server.visible :=
    (List.map_insertionSort _ _ Server.visible _ fun _ _ _ _ => Iff.rfl).symm
  rw [hmap, shown, sortServers, List.filter_insertionSort, List.map_map]
  refine List.map_congr_left fun server _ => ?_
  simp only [Function.comp_apply, renderServer_visible]
  rfl

theorem rendersAlike_of_visible (cfg : DaemonConfig) {x y : ControlPlaneState}
    (h : visibleServers x.servers = visibleServers y.servers) : RendersAlike cfg x y := by
  refine rendersAlike_of_tree cfg (renderTree_congr ?_)
  rw [shown_sortServers, shown_sortServers, h]

/-- A route that serves files. -/
def sampleRoute (path : String) (enabled : Bool) : Route where
  id := "rt"
  path := path
  matchType := none
  action := .static "/srv" none
  headers := none
  rateLimit := none
  enabled := enabled

/-- A disabled server and a disabled route, each standing between others, make no difference. -/
theorem rendersAlike_hidden : RendersAlike .defaults
    (stateOf [{ sampleServer "b" with routes := [sampleRoute "/x" true, sampleRoute "/a" false] },
      { sampleServer "a" with enabled := false }, sampleServer "c"])
    (stateOf [{ sampleServer "b" with routes := [sampleRoute "/x" true] }, sampleServer "c"]) :=
  rendersAlike_of_visible .defaults (by decide)

/-! ### The order of the lists -/

/-- `b` is `a` with its routes in some order. -/
def Server.Shuffled (a b : Server) : Prop := b = { a with routes := b.routes } ∧ a.routes.Perm b.routes

/-- The servers of `y` are those of `x`, in some order and each with its routes in some order. -/
def Reordered (x y : ControlPlaneState) : Prop :=
  ∃ servers, List.Forall₂ Server.Shuffled x.servers servers ∧ servers.Perm y.servers

theorem sortRoutes_perm {routes routes' : List Route} (h : routes.Perm routes')
    (hpaths : (routes.map (·.path)).Nodup) : sortRoutes routes = sortRoutes routes' :=
  h.insertionSort_eq fun _ ha _ hb hab hba => List.inj_on_of_nodup_map hpaths ha hb (String.le_antisymm hab hba)

theorem sortServers_eq_of_perm {servers servers' : List Server} (h : servers.Perm servers')
    (hids : (servers.map (·.id)).Nodup) : sortServers servers = sortServers servers' :=
  h.insertionSort_eq fun _ ha _ hb hab hba => List.inj_on_of_nodup_map hids ha hb (String.le_antisymm hab hba)

theorem Server.Shuffled.renderServer_eq {a b : Server} (h : a.Shuffled b) (hpaths : (a.routes.map (·.path)).Nodup) :
    renderServer a = renderServer b := by
  rw [h.1]
  exact renderServer_congr rfl rfl rfl rfl (by rw [sortRoutes_perm h.2 hpaths])

theorem shown_eq_of_forall₂ {servers servers' : List Server}
    (h : List.Forall₂ (fun a b => a.id = b.id ∧ a.enabled = b.enabled ∧ renderServer a = renderServer b)
      servers servers') : shown servers = shown servers' := by
  refine List.filter_map_eq_of_forall₂ (h.imp fun a b hab => ?_)
  obtain ⟨hid, hen, htext⟩ := hab
  exact ⟨hen, by rw [hid, htext]⟩

/-- The order in which an accepted state lists its servers and routes does not matter. -/
theorem rendersAlike_of_reordered (cfg : DaemonConfig) {x y : ControlPlaneState} (hx : validateState x = .ok ())
    (hids : (x.servers.map (·.id)).Nodup) (h : Reordered x y) : RendersAlike cfg x y := by
  obtain ⟨servers, hshuffled, hperm⟩ := h
  have hpaths : ∀ server ∈ x.servers, (server.routes.map (·.path)).Nodup :=
    fun server hs => ((validateState_ok_iff x).1 hx server hs).paths
  -- shuffled servers keep their ids, so they are sorted alike
  have hrel : List.Forall₂ (fun a b => a.id = b.id ∧ a.enabled = b.enabled ∧ renderServer a = renderServer b)
      x.servers servers := by
    refine (List.forall₂_and_left ..).2 ⟨hpaths, hshuffled⟩ |>.imp fun a b hab => ?_
    obtain ⟨hroutes, hab⟩ := hab
    exact ⟨by rw [hab.1], by rw [hab.1], hab.renderServer_eq hroutes⟩
  have hids' : x.servers.map (·.id) = servers.map (·.id) := by
    rw [← List.forall₂_eq_eq_eq, List.forall₂_map_left_iff, List.forall₂_map_right_iff]
    exact hrel.imp fun _ _ hab => hab.1
  refine rendersAlike_of_tree cfg (renderTree_congr ?_)
  rw [← sortServers_eq_of_perm hperm (hids' ▸ hids)]
  refine shown_eq_of_forall₂ (hrel.insertionSort fun a b a' b' hab hab' => ?_)
  rw [hab.1, hab'.1]

/-- Two servers and two routes, listed the other way round. -/
theorem rendersAlike_swapped : RendersAlike .defaults
    (stateOf [{ sampleServer "b" with routes := [sampleRoute "/x" true, sampleRoute "/a" true] }, sampleServer "c"])
    (stateOf [sampleServer "c", { sampleServer "b" with routes := [sampleRoute "/a" true, sampleRoute "/x" true] }]) := by
  refine rendersAlike_of_reordered .defaults (by decide +kernel) (by decide) ⟨_, ?_, .swap ..⟩
  exact .cons ⟨rfl, .swap ..⟩ (.cons ⟨rfl, .refl _⟩ .nil)

/-- `b` is `a` with any `match_type`, `headers` and `rate_limit`. -/
def Route.Retuned (a b : Route) : Prop :=
  b = { a with matchType := b.matchType, headers := b.headers, rateLimit := b.rateLimit }

def Server.Retuned (a b : Server) : Prop :=
  b = { a with routes := b.routes } ∧ List.Forall₂ Route.Retuned a.routes b.routes

theorem Route.Retuned.fields {a b : Route} (h : a.Retuned b) :
    a.path = b.path ∧ a.enabled = b.enabled ∧ renderRoute a = renderRoute b := by
  rw [h]
  exact ⟨rfl, rfl, rfl⟩

theorem Server.Retuned.renderServer_eq {a b : Server} (h : a.Retuned b) : renderServer a = renderServer b := by
  obtain ⟨hb, hroutes⟩ := h
  have hsorted : List.Forall₂ Route.Retuned (sortRoutes a.routes) (sortRoutes b.routes) :=
    hroutes.insertionSort fun r r' q q' hr hq => by rw [hr.fields.1, hq.fields.1]
  have htexts : ((sortRoutes a.routes).filter (·.enabled)).map renderRoute =
      ((sortRoutes b.routes).filter (·.enabled)).map renderRoute :=
    List.filter_map_eq_of_forall₂ (hsorted.imp fun r r' hr => hr.fields.2)
  rw [hb]
  exact renderServer_congr rfl rfl rfl rfl htexts

/-- `match_type`, `headers` and `rate_limit` are not rendered: whatever they are changed to, the text of
every server's file stays the same, and so does the tree. -/
theorem rendersAlike_of_retuned (cfg : DaemonConfig) {x y : ControlPlaneState}
    (h : List.Forall₂ Server.Retuned x.servers y.servers) :
    List.Forall₂ (fun a b => renderServer a = renderServer b) x.servers y.servers ∧ RendersAlike cfg x y := by
  have htexts : List.Forall₂ (fun a b => a.id = b.id ∧ a.enabled = b.enabled ∧ renderServer a = renderServer b)
      x.servers y.servers := h.imp fun a b hab => ⟨by rw [hab.1], by rw [hab.1], hab.renderServer_eq⟩
  refine ⟨htexts.imp fun _ _ hab => hab.2.2, rendersAlike_of_tree cfg (renderTree_congr ?_)⟩
  refine shown_eq_of_forall₂ (htexts.insertionSort fun a b a' b' hab hab' => ?_)
  rw [hab.1, hab'.1]

/-- A server with one route: an exact match with a limit and a header, or a regular expression without. -/
def tunedServer (exact : Bool) : Server :=
  { sampleServer "a" with
    routes := [if exact then
        { sampleRoute "/x" true with
          matchType := some "exact", headers := some [⟨"X-Frame-Options", "DENY"⟩],
          rateLimit := some ⟨"one", "10r/s", none, none⟩ }
      else { sampleRoute "/x" true with matchType := some "regex" }] }

theorem retuned_tunedServer : List.Forall₂ Server.Retuned [tunedServer true] [tunedServer false] :=
  .cons ⟨rfl, .cons rfl .nil⟩ .nil

theorem rendersAlike_tuned :
    List.Forall₂ (fun a b => renderServer a = renderServer b) [tunedServer true] [tunedServer false] ∧
      RendersAlike .defaults (stateOf [tunedServer true]) (stateOf [tunedServer false]) :=
  rendersAlike_of_retuned .defaults (x := stateOf [tunedServer true]) (y := stateOf [tunedServer false])
    retuned_tunedServer

/-- Two accepted states that ask for different matching, headers and limits, and one text. -/
theorem tuned_not_rendered : validateState (stateOf [tunedServer true]) = .ok () ∧
    validateState (stateOf [tunedServer false]) = .ok () ∧ tunedServer true ≠ tunedServer false ∧
    ¬ renderServer (tunedServer true) ≠ renderServer (tunedServer false) ∧
    renderTree (stateOf [tunedServer true]) = renderTree (stateOf [tunedServer false]) := by
  refine ⟨by decide +kernel, by decide +kernel, by decide, fun h => h (by decide +kernel), ?_⟩
  exact renderTree_congr (by decide +kernel)

end NginxAdmin.Daemon
