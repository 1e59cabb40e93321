import NginxAdmin.Lib.Keyed
import NginxAdmin.Web.Secrets

/-!
# The routes of the backend and their projection

`RoutesProcess` (`packages/app`) sends the commands of `CommandRouteGateway` to an executor and shows the answers in the
store of `apps/web/src/projection/routesStore.ts`. The executor here is `MockExecutor`; what the process relies on of
any other one is `Gateway`.
-/

namespace NginxAdmin.Web

/-- `Route` of `packages/core/src/domain/Route.ts`. -/
structure Route where
  id : String
  host : String
  destination : String
  enabled : Bool
  updatedAt : String
deriving DecidableEq, Repr

structure RouteDraft where
  id : Option String
  host : String
  destination : String
  enabled : Option Bool
deriving DecidableEq, Repr

namespace Route

def toJs (r : Route) : Js :=
  .obj [("id", .str r.id), ("host", .str r.host), ("destination", .str r.destination), ("enabled", .bool r.enabled),
    ("updatedAt", .str r.updatedAt)]

/-- The route that `sanitizeForJson` makes of `r`. -/
def sanitized (r : Route) : Route :=
  { id := redactPotentialSecrets r.id
    host := redactPotentialSecrets r.host
    destination := redactPotentialSecrets r.destination
    enabled := r.enabled
    updatedAt := redactPotentialSecrets r.updatedAt }

theorem sanitizeForJson_toJs (r : Route) : sanitizeForJson r.toJs = r.sanitized.toJs := by
  have hkeys : isSensitiveFieldName "id" = false ∧ isSensitiveFieldName "host" = false ∧
      isSensitiveFieldName "destination" = false ∧ isSensitiveFieldName "enabled" = false ∧
      isSensitiveFieldName "updatedAt" = false := by decide +kernel
  obtain ⟨h₁, h₂, h₃, h₄, h₅⟩ := hkeys
  simp [toJs, sanitized, sanitizeForJson, sanitizeMembers, h₁, h₂, h₃, h₄, h₅]

end Route

/-- The requests of `RouteCommandMap`. -/
inductive Command where
  | list (includeDisabled : Bool)
  | save (draft : RouteDraft)
  | toggle (id : String) (enabled : Bool)
deriving DecidableEq, Repr

/-- Its responses. -/
inductive Response where
  | routes (routes : List Route)
  | route (route : Route)
deriving DecidableEq, Repr

/-- What a failing call throws: the message of an `Error`, or something else. -/
inductive Thrown where
  | error (message : String)
  | other
deriving DecidableEq, Repr

/-- What `crypto.randomUUID()` and `new Date().toISOString()` return during a call. -/
structure Ambient where
  uuid : String
  now : String
deriving DecidableEq, Repr

structure MockExecutor where
  routes : List Route := []
deriving DecidableEq, Repr

namespace MockExecutor

/-- The route that `routes:save` stores for a draft. -/
def saved (draft : RouteDraft) (env : Ambient) : Route :=
  { id := draft.id.getD env.uuid
    host := draft.host
    destination := draft.destination
    enabled := draft.enabled.getD true
    updatedAt := env.now }

def execute (e : MockExecutor) (env : Ambient) : Command → Except Thrown Response × MockExecutor
  | .list includeDisabled => (.ok (.routes (if includeDisabled then e.routes else e.routes.filter Route.enabled)), e)
  | .save draft =>
    let route := saved draft env
    (.ok (.route route), { routes := (e.routes.filter fun r => r.id ≠ route.id) ++ [route] })
  | .toggle id enabled =>
    match e.routes.find? fun r => r.id = id with
    | none => (.error (.error ("Route " ++ id ++ " not found")), e)
    | some current =>
      let route := { current with enabled := enabled, updatedAt := env.now }
      (.ok (.route route), { routes := e.routes.map fun r => if r.id = id then route else r })

end MockExecutor

/-- The state of `useRoutesStore`. -/
structure Projection where
  pending : Bool := false
  error : Option String := none
  routes : List Route := []
deriving DecidableEq, Repr

namespace Projection

def setPending (p : Projection) (pending : Bool) : Projection := { p with pending := pending }

def setError (p : Projection) (error : Option String) : Projection :=
  { p with error := (error.filter fun message => message ≠ "").map redactPotentialSecrets }

def replaceRoutes (p : Projection) (routes : List Route) : Projection :=
  { p with routes := routes.map Route.sanitized }

def upsertRoute (p : Projection) (route : Route) : Projection :=
  { p with routes :=
      if p.routes.any fun r => r.id = route.id then p.routes.map fun r => if r.id = route.id then route.sanitized else r
      else p.routes ++ [route.sanitized] }

end Projection

/-- A call of `load`, `save` or `toggle`. -/
inductive Operation where
  | load (includeDisabled : Bool)
  | save (draft : RouteDraft)
  | toggle (id : String) (enabled : Bool)
deriving DecidableEq, Repr

namespace Operation

/-- The command that `CommandRouteGateway` sends. -/
def command : Operation → Command
  | load includeDisabled => .list includeDisabled
  | save draft => .save draft
  | toggle id enabled => .toggle id enabled

/-- The text shown for a failure that is not an `Error`. -/
def fallback : Operation → String
  | load _ => "Failed to load routes"
  | save _ => "Failed to save route"
  | toggle _ _ => "Failed to toggle route"

end Operation

namespace Projection

/-- What an operation does before its request is answered. -/
def requested (p : Projection) : Projection := (p.setPending true).setError none

/-- What a response does to the routes: `load` reads `routes` of it, `save` and `toggle` read `route`. -/
def shown (p : Projection) : Response → Projection
  | .routes routes => p.replaceRoutes routes
  | .route route => p.upsertRoute route

/-- What an operation does with the answer. -/
def answered (p : Projection) (op : Operation) : Except Thrown Response → Projection
  | .ok response => (p.shown response).setPending false
  | .error (.error message) => (p.setError (some message)).setPending false
  | .error .other => (p.setError (some op.fallback)).setPending false

end Projection

/-- An operation that is completed before anything else happens; it rethrows what the executor throws. -/
def RoutesProcess.run (e : MockExecutor) (p : Projection) (op : Operation) (env : Ambient) :
    Except Thrown Unit × MockExecutor × Projection :=
  let answer := e.execute env op.command
  (answer.1.map fun _ => (), answer.2, p.requested.answered op answer.1)

namespace RoutesProcess

/-- Operations one after another. -/
def runs (s : MockExecutor × Projection) (calls : List (Operation × Ambient)) : MockExecutor × Projection :=
  calls.foldl (fun s call => (run s.1 s.2 call.1 call.2).2) s

end RoutesProcess

/-! ### Routes as maps -/

abbrev RouteMap := String → Option Route

/-- The ids by which the routes are found are the ones that are shown. -/
def KeepsIds (routes : List Route) : Prop := ∀ r ∈ routes, redactPotentialSecrets r.id = r.id

/-- The map that should be shown. -/
def sanitizedMap (m : RouteMap) : RouteMap := fun id => (m id).map Route.sanitized

namespace Response

/-- What a response does to the map that is shown. -/
def effect : Response → RouteMap → RouteMap
  | routes rs, _ => sanitizedMap (Keyed.view Route.id rs)
  | route r, m => Function.update m r.id (some r.sanitized)

/-- The ids of a response are kept, and it has no two routes of one id. -/
def Proper : Response → Prop
  | routes rs => Keyed.Distinct Route.id rs ∧ KeepsIds rs
  | route r => redactPotentialSecrets r.id = r.id

end Response

theorem view_sanitized {rs : List Route} (h : KeepsIds rs) :
    Keyed.view Route.id (rs.map Route.sanitized) = sanitizedMap (Keyed.view Route.id rs) := by
  funext id
  exact Keyed.view_map h

theorem upsertRoute_routes {p : Projection} {r : Route} (h : redactPotentialSecrets r.id = r.id) :
    (p.upsertRoute r).routes = Keyed.upsert Route.id r.sanitized p.routes := by
  have hid : r.sanitized.id = r.id := h
  simp [Projection.upsertRoute, Keyed.upsert, Keyed.replace, hid]

namespace Projection

@[simp] theorem setPending_routes (p : Projection) (b : Bool) : (p.setPending b).routes = p.routes := rfl

@[simp] theorem setError_routes (p : Projection) (e : Option String) : (p.setError e).routes = p.routes := rfl

@[simp] theorem requested_routes (p : Projection) : p.requested.routes = p.routes := rfl

theorem view_shown (p : Projection) {response : Response} (h : response.Proper) :
    Keyed.view Route.id (p.shown response).routes = response.effect (Keyed.view Route.id p.routes) := by
  cases response with
  | routes rs => exact view_sanitized h.2
  | route r =>
    have hid : r.sanitized.id = r.id := h
    rw [shown, upsertRoute_routes h, Keyed.view_upsert, hid]
    rfl

theorem distinct_shown {p : Projection} {response : Response} (hp : Keyed.Distinct Route.id p.routes)
    (h : response.Proper) : Keyed.Distinct Route.id (p.shown response).routes := by
  cases response with
  | routes rs =>
    have hmap : (rs.map Route.sanitized).map Route.id = rs.map Route.id := by
      rw [List.map_map]
      exact List.map_congr_left h.2
    show ((rs.map Route.sanitized).map Route.id).Nodup
    rw [hmap]
    exact h.1
  | route r =>
    rw [shown, upsertRoute_routes h]
    exact Keyed.distinct_upsert hp

theorem answered_ok_routes (p : Projection) (op : Operation) (response : Response) :
    (p.answered op (.ok response)).routes = (p.shown response).routes := rfl

theorem answered_error_routes (p : Projection) (op : Operation) (t : Thrown) :
    (p.answered op (.error t)).routes = p.routes := by
  cases t <;> rfl

end Projection

theorem Operation.command_ne_list {op : Operation} (h : op ≠ .load false) (h' : op ≠ .load true) (b : Bool) :
    op.command ≠ .list b := by
  cases op with
  | load c => cases c <;> contradiction
  | save draft => simp [command]
  | toggle id enabled => simp [command]

/-- Something that answers commands and has routes. -/
structure Gateway (σ : Type) where
  routes : σ → List Route
  execute : σ → Ambient → Command → Except Thrown Response × σ

namespace Gateway

variable {σ : Type}

def map (G : Gateway σ) (s : σ) : RouteMap := Keyed.view Route.id (G.routes s)

/-- Each command is executed as a whole on the routes of the gateway: a listing has all of them, a `save` or a `toggle`
answers with the one that was written, and a failing command writes none. -/
structure Atomic (G : Gateway σ) (Valid : σ → Prop) : Prop where
  valid : ∀ {s env c}, Valid s → Valid (G.execute s env c).2
  distinct : ∀ {s}, Valid s → Keyed.Distinct Route.id (G.routes s)
  lists : ∀ {s env response}, Valid s → (G.execute s env (.list true)).1 = .ok response →
    response = .routes (G.routes s) ∧ G.routes (G.execute s env (.list true)).2 = G.routes s
  writes : ∀ {s env c response}, Valid s → (∀ b, c ≠ .list b) → (G.execute s env c).1 = .ok response →
    ∃ r, response = .route r ∧ G.map (G.execute s env c).2 = Function.update (G.map s) r.id (some r)
  fails : ∀ {s env c t}, (G.execute s env c).1 = .error t → G.routes (G.execute s env c).2 = G.routes s

variable {G : Gateway σ} {Valid : σ → Prop} {s : σ} {env : Ambient} {op : Operation} {response : Response}

/-- A successful operation writes to the gateway what its response writes to the projection. -/
theorem Atomic.effect (hG : G.Atomic Valid) (hs : Valid s) (hop : op ≠ .load false)
    (h : (G.execute s env op.command).1 = .ok response) :
    sanitizedMap (G.map (G.execute s env op.command).2) = response.effect (sanitizedMap (G.map s)) := by
  by_cases hc : op = .load true
  · subst hc
    obtain ⟨rfl, hr⟩ := hG.lists hs h
    show sanitizedMap (Keyed.view Route.id (G.routes (G.execute s env (.list true)).2)) = _
    rw [hr]
    rfl
  · obtain ⟨r, rfl, hr⟩ := hG.writes hs (Operation.command_ne_list hop hc) h
    funext id
    rw [sanitizedMap, hr]
    show (Function.update (G.map s) r.id (some r) id).map Route.sanitized =
      Function.update (sanitizedMap (G.map s)) r.id (some r.sanitized) id
    by_cases hid : id = r.id
    · subst hid
      simp
    · simp [hid, sanitizedMap]

/-- The ids of an answer are ids of routes that the gateway has afterwards. -/
theorem Atomic.proper (hG : G.Atomic Valid) (hs : Valid s) (hop : op ≠ .load false)
    (h : (G.execute s env op.command).1 = .ok response) (hids : KeepsIds (G.routes (G.execute s env op.command).2)) :
    response.Proper := by
  by_cases hc : op = .load true
  · subst hc
    obtain ⟨rfl, hr⟩ := hG.lists hs h
    exact ⟨hG.distinct hs, hr ▸ hids⟩
  · obtain ⟨r, rfl, hr⟩ := hG.writes hs (Operation.command_ne_list hop hc) h
    have hview : G.map (G.execute s env op.command).2 r.id = some r := by rw [hr, Function.update_self]
    exact hids r (Keyed.mem_of_view hview)

end Gateway

namespace MockExecutor

def gateway : Gateway MockExecutor where
  routes := routes
  execute := execute

variable {e : MockExecutor} {env : Ambient}

theorem execute_toggle_none {id : String} (enabled : Bool) (h : Keyed.view Route.id e.routes id = none) :
    e.execute env (.toggle id enabled) = (.error (.error ("Route " ++ id ++ " not found")), e) := by
  rw [Keyed.view] at h
  rw [execute, h]

theorem execute_toggle_some {id : String} (enabled : Bool) {r : Route} (h : Keyed.view Route.id e.routes id = some r) :
    e.execute env (.toggle id enabled) = (.ok (.route { r with enabled := enabled, updatedAt := env.now }),
      ⟨Keyed.replace Route.id { r with enabled := enabled, updatedAt := env.now } e.routes⟩) := by
  have hid := Keyed.key_of_view h
  rw [Keyed.view] at h
  rw [execute, h, Keyed.replace]
  simp only [hid]

theorem distinct_execute (c : Command) (h : Keyed.Distinct Route.id e.routes) :
    Keyed.Distinct Route.id (e.execute env c).2.routes := by
  cases c with
  | list b => exact h
  | save draft => exact Keyed.distinct_put h
  | toggle id enabled =>
    rcases hv : Keyed.view Route.id e.routes id with _ | r
    · rw [execute_toggle_none enabled hv]
      exact h
    · rw [execute_toggle_some enabled hv]
      exact Keyed.distinct_replace h

theorem atomic : gateway.Atomic fun e => Keyed.Distinct Route.id e.routes where
  valid h := distinct_execute _ h
  distinct h := h
  lists _ h := ⟨by cases h; rfl, rfl⟩
  writes {e env c response} _ hc h := by
    cases c with
    | list b => exact absurd rfl (hc b)
    | save draft =>
      cases h
      exact ⟨_, rfl, Keyed.view_put⟩
    | toggle id enabled =>
      change (e.execute env (.toggle id enabled)).1 = .ok response at h
      show ∃ r, response = .route r ∧ Keyed.view Route.id (e.execute env (.toggle id enabled)).2.routes = _
      rcases hv : Keyed.view Route.id e.routes id with _ | r
      · rw [execute_toggle_none enabled hv] at h
        cases h
      · have hid := Keyed.key_of_view hv
        rw [execute_toggle_some enabled hv] at h ⊢
        cases h
        refine ⟨_, rfl, Keyed.view_replace_of_ne_none ?_⟩
        show Keyed.view Route.id e.routes r.id ≠ none
        rw [hid, hv]
        exact Option.some_ne_none r
  fails {e env c t} h := by
    cases c with
    | list b => rfl
    | save draft => cases h
    | toggle id enabled =>
      change (e.execute env (.toggle id enabled)).1 = .error t at h
      show (e.execute env (.toggle id enabled)).2.routes = e.routes
      rcases hv : Keyed.view Route.id e.routes id with _ | r
      · rw [execute_toggle_none enabled hv]
      · rw [execute_toggle_some enabled hv] at h
        cases h

end MockExecutor

/-! ### Operations one after another -/

namespace RoutesProcess

/-- The id of a route that a call saves is kept. -/
def KeepsId (call : Operation × Ambient) : Prop :=
  ∀ draft, call.1 = .save draft → redactPotentialSecrets (MockExecutor.saved draft call.2).id =
    (MockExecutor.saved draft call.2).id

/-- What holds of both sides between two operations. -/
structure Simulates (e : MockExecutor) (p : Projection) : Prop where
  executor : Keyed.Distinct Route.id e.routes
  ids : KeepsIds e.routes
  projection : Keyed.Distinct Route.id p.routes
  same : Keyed.view Route.id p.routes = sanitizedMap (Keyed.view Route.id e.routes)

variable {e : MockExecutor} {p : Projection} {op : Operation} {env : Ambient}

theorem keepsIds_execute (h : KeepsIds e.routes) (hid : KeepsId (op, env)) :
    KeepsIds (e.execute env op.command).2.routes := by
  intro r hr
  cases op with
  | load b => exact h r hr
  | save draft =>
    rcases List.mem_append.1 hr with hr | hr
    · exact h r (List.mem_filter.1 hr).1
    · cases List.mem_singleton.1 hr
      exact hid draft rfl
  | toggle id enabled =>
    change r ∈ (e.execute env (.toggle id enabled)).2.routes at hr
    rcases hv : Keyed.view Route.id e.routes id with _ | current
    · rw [MockExecutor.execute_toggle_none enabled hv] at hr
      exact h r hr
    · rw [MockExecutor.execute_toggle_some enabled hv] at hr
      obtain ⟨r', hr', rfl⟩ := List.mem_map.1 hr
      split
      · exact h current (Keyed.mem_of_view hv)
      · exact h r' hr'

theorem run_error_iff {t : Thrown} : (run e p op env).1 = .error t ↔ (e.execute env op.command).1 = .error t := by
  rcases h : (e.execute env op.command).1 with t' | response <;> simp [run, h, Except.map]

/-- A failing operation changes the routes of neither side. -/
theorem run_error {t : Thrown} (h : (e.execute env op.command).1 = .error t) :
    (run e p op env).2.1.routes = e.routes ∧ (run e p op env).2.2.routes = p.routes := by
  refine ⟨MockExecutor.atomic.fails h, ?_⟩
  show (p.requested.answered op (e.execute env op.command).1).routes = p.routes
  rw [h]
  exact Projection.answered_error_routes _ op t

theorem run_ok {response : Response} (h : (e.execute env op.command).1 = .ok response) :
    (run e p op env).2.2.routes = (p.requested.shown response).routes := by
  show (p.requested.answered op (e.execute env op.command).1).routes = _
  rw [h]
  rfl

theorem simulates_run (h : Simulates e p) (hop : op ≠ .load false) (hid : KeepsId (op, env)) :
    Simulates (run e p op env).2.1 (run e p op env).2.2 := by
  have hids := keepsIds_execute h.ids hid
  rcases hr : (e.execute env op.command).1 with t | response
  · obtain ⟨he, hp⟩ := run_error (p := p) hr
    exact ⟨he ▸ h.executor, he ▸ h.ids, hp ▸ h.projection, by rw [he, hp, h.same]⟩
  · have hproper : response.Proper := MockExecutor.atomic.proper h.executor hop hr hids
    refine ⟨MockExecutor.distinct_execute _ h.executor, hids, ?_, ?_⟩
    · rw [run_ok hr]
      exact Projection.distinct_shown h.projection hproper
    · rw [run_ok hr, Projection.view_shown _ hproper, Projection.requested_routes, h.same]
      exact (MockExecutor.atomic.effect h.executor hop hr).symm

theorem simulates_runs {calls : List (Operation × Ambient)} (h : Simulates e p)
    (hcalls : ∀ call ∈ calls, call.1 ≠ .load false ∧ KeepsId call) :
    Simulates (runs (e, p) calls).1 (runs (e, p) calls).2 := by
  induction calls generalizing e p with
  | nil => exact h
  | cons call calls ih =>
    have hcall := hcalls call (by simp)
    exact ih (simulates_run h hcall.1 hcall.2) fun c hc => hcalls c (by simp [hc])

/-- A load shows the routes of the executor, whatever was shown before. -/
theorem simulates_load (p : Projection) (env : Ambient) (h : Keyed.Distinct Route.id e.routes) (hids : KeepsIds e.routes) :
    Simulates e (run e p (.load true) env).2.2 := by
  have hproper : (Response.routes e.routes).Proper := ⟨h, hids⟩
  exact ⟨h, hids, Projection.distinct_shown (p := { p with routes := [] }) List.nodup_nil hproper, view_sanitized hids⟩

/-- After a load and any operations, each completed before the next, both sides have the same routes, and an operation
that fails then changes the routes of neither. -/
theorem projection_simulates {e : MockExecutor} {p : Projection} {env : Ambient} {calls : List (Operation × Ambient)}
    (he : Keyed.Distinct Route.id e.routes) (hids : KeepsIds e.routes)
    (hcalls : ∀ call ∈ calls, call.1 ≠ .load false ∧ KeepsId call) {s : MockExecutor × Projection}
    (hs : runs (e, p) ((.load true, env) :: calls) = s) :
    Keyed.Distinct Route.id s.1.routes ∧ Keyed.Distinct Route.id s.2.routes ∧
    (∀ id, (Keyed.view Route.id s.2.routes id).map Route.toJs =
      (Keyed.view Route.id s.1.routes id).map fun r => sanitizeForJson r.toJs) ∧
    ∀ op env t, ((run s.1 s.2 op env).1 = .error t ↔ (s.1.execute env op.command).1 = .error t) ∧
      ((run s.1 s.2 op env).1 = .error t →
        (run s.1 s.2 op env).2.1.routes = s.1.routes ∧ (run s.1 s.2 op env).2.2.routes = s.2.routes) := by
  subst hs
  have h := simulates_runs (simulates_load p env he hids) hcalls
  refine ⟨h.executor, h.projection, fun id => ?_, fun op env t =>
    ⟨run_error_iff, fun ht => run_error (run_error_iff.1 ht)⟩⟩
  show (Keyed.view Route.id (runs (e, (run e p (.load true) env).2.2) calls).2.routes id).map Route.toJs = _
  rw [h.same]
  show ((Keyed.view Route.id (runs (e, (run e p (.load true) env).2.2) calls).1.routes id).map Route.sanitized).map
    Route.toJs = _
  rw [Option.map_map]
  exact congrArg (fun f => Option.map f _) (funext fun r => (Route.sanitizeForJson_toJs r).symm)

/-- A route is saved and toggled, then a missing one is toggled. -/
theorem projection_simulates_missing :
    Keyed.Distinct Route.id (runs ({}, {}) [(.load true, ⟨"b", "t"⟩), (.save ⟨some "a", "h", "d", none⟩, ⟨"b", "t"⟩),
      (.toggle "a" false, ⟨"b", "t"⟩), (.toggle "c" true, ⟨"b", "t"⟩)]).2.routes := by
  refine (projection_simulates (e := {}) (p := {}) List.nodup_nil (by simp [KeepsIds]) ?_ rfl).2.1
  intro call hcall
  simp only [List.mem_cons, List.not_mem_nil, or_false] at hcall
  rcases hcall with rfl | rfl | rfl
  · refine ⟨by simp, fun draft hdraft => ?_⟩
    cases hdraft
    show redactPotentialSecrets "a" = "a"
    decide +kernel
  · exact ⟨by simp, fun draft hdraft => by cases hdraft⟩
  · exact ⟨by simp, fun draft hdraft => by cases hdraft⟩

end RoutesProcess

end NginxAdmin.Web
