import NginxAdmin.Web.DateTexts
import NginxAdmin.Web.Projection
import NginxAdmin.Web.Repositories

/-!
# The executor over `localStorage` (`apps/desktop/src/renderer/adapters/LocalRouteExecutor.ts`)

`LocalRouteExecutor` answers the commands of `MockExecutor`, with its routes in an item of the storage: each command reads the
whole list from its text and a writing one writes it again through the sanitizer. `executors_agree`: nobody who sends commands
can tell the two apart.
-/

namespace NginxAdmin.Desktop

open Web

namespace LocalRouteExecutor

/-- `loadRoutes`; what the text holds need not be an array. -/
def loadRoutes : Item → Js
  | .absent | .text none => .arr []
  | .text (some value) => value.1

/-- The array whose method is called. -/
def elements (method : String) : Js → Except Thrown (List Js)
  | .arr xs => .ok xs
  | .null => .error (.error ("Cannot read properties of null (reading '" ++ method ++ "')"))
  | _ => .error (.error ("routes." ++ method ++ " is not a function"))

/-- `a.key` for an element of the array. -/
def read (key : String) (a : Js) : Except Thrown Js :=
  if a = .null then .error (.error ("Cannot read properties of null (reading '" ++ key ++ "')")) else .ok (a.get key)

def filter (p : Js → Except Thrown Bool) : List Js → Except Thrown (List Js)
  | [] => .ok []
  | x :: xs => do
    let keep ← p x
    let rest ← filter p xs
    pure (if keep then x :: rest else rest)

def find (p : Js → Except Thrown Bool) : List Js → Except Thrown (Option Js)
  | [] => .ok none
  | x :: xs => do
    let found ← p x
    if found then pure (some x) else find p xs

/-- The route that `routes:save` stores for a draft. -/
def saved (draft : RouteDraft) (env : Ambient) : Js :=
  .obj [("id", .str (draft.id.getD env.uuid)), ("host", .str draft.host), ("destination", .str draft.destination),
    ("enabled", .bool (draft.enabled.getD true)), ("updatedAt", .str env.now)]

/-- What `routes:toggle` stores in place of `current`. -/
def toggled (current : Js) (enabled : Bool) (env : Ambient) : Js :=
  current.spread (.obj [("enabled", .bool enabled), ("updatedAt", .str env.now)])

/-- The list of an answer to `routes:list`. -/
def listed (routes : Js) (includeDisabled : Bool) : Except Thrown Js :=
  if includeDisabled then .ok routes
  else do
    let xs ← elements "filter" routes
    let kept ← filter (fun route => (read "enabled" route).map Js.truthy) xs
    pure (.arr kept)

/-- The route that a command answers with, and the list that it leaves. -/
def save (routes : Js) (draft : RouteDraft) (env : Ambient) : Except Thrown (Js × List Js) := do
  let route := saved draft env
  let xs ← elements "filter" routes
  let kept ← filter (fun item => (read "id" item).map fun id => decide (id ≠ route.get "id")) xs
  pure (route, kept ++ [route])

def toggle (routes : Js) (id : String) (enabled : Bool) (env : Ambient) : Except Thrown (Js × List Js) := do
  let xs ← elements "find" routes
  let found ← find (fun route => (read "id" route).map fun id' => decide (id' = .str id)) xs
  match found with
  | none => .error (.error ("Route " ++ id ++ " not found"))
  | some current => do
    let route := toggled current enabled env
    let next ← xs.mapM fun item => (read "id" item).map fun id' => if id' = .str id then route else item
    pure (route, next)

/-- The answer of a command that writes, and the item afterwards. -/
def answered (dates : Js.Dates) (item : Item) : Except Thrown (Js × List Js) → Except Thrown Js × Item
  | .error e => (.error e, item)
  | .ok (route, next) => (.ok (.obj [("route", route)]), stored dates next)

def execute (dates : Js.Dates) (item : Item) (env : Ambient) : Command → Except Thrown Js × Item
  | .list includeDisabled =>
    ((listed (loadRoutes item) includeDisabled).map fun result => .obj [("routes", result)], item)
  | .save draft => answered dates item (save (loadRoutes item) draft env)
  | .toggle id enabled => answered dates item (toggle (loadRoutes item) id enabled env)

section

variable {rs : List Route} {p : Js → Except Thrown Bool} {q : Route → Bool}

theorem read_toJs (r : Route) (key : String) : read key r.toJs = .ok (r.toJs.get key) := rfl

theorem id_toJs (r : Route) : r.toJs.get "id" = .str r.id := rfl

theorem filter_toJs (h : ∀ r : Route, p r.toJs = .ok (q r)) : filter p (rs.map Route.toJs) = .ok ((rs.filter q).map Route.toJs) := by
  induction rs with
  | nil => rfl
  | cons r rs ih =>
    rw [List.map_cons, filter, h r, ih]
    cases hr : q r with
    | true =>
      rw [List.filter_cons_of_pos hr]
      rfl
    | false =>
      rw [List.filter_cons_of_neg (by simp [hr])]
      rfl

theorem find_toJs (h : ∀ r : Route, p r.toJs = .ok (q r)) : find p (rs.map Route.toJs) = .ok ((rs.find? q).map Route.toJs) := by
  induction rs with
  | nil => rfl
  | cons r rs ih =>
    rw [List.map_cons, find, h r]
    cases hr : q r with
    | true =>
      rw [List.find?_cons_of_pos hr]
      rfl
    | false =>
      rw [List.find?_cons_of_neg (by simp [hr])]
      exact ih

theorem mapM_toJs {f : Js → Except Thrown Js} {g : Route → Route} (h : ∀ r : Route, f r.toJs = .ok (g r).toJs) :
    (rs.map Route.toJs).mapM f = .ok ((rs.map g).map Route.toJs) := by
  induction rs with
  | nil => rfl
  | cons r rs ih =>
    rw [List.map_cons, List.mapM_cons, h r, ih]
    rfl

theorem saved_eq (draft : RouteDraft) (env : Ambient) : saved draft env = (MockExecutor.saved draft env).toJs := rfl

theorem toggled_toJs (r : Route) (enabled : Bool) (env : Ambient) :
    toggled r.toJs enabled env = { r with enabled := enabled, updatedAt := env.now }.toJs := by
  cases r
  rfl

end

/-! ### The item and the routes of the other executor -/

/-- The object of a response. -/
def response : Response → Js
  | .routes routes => .obj [("routes", .arr (routes.map Route.toJs))]
  | .route route => .obj [("route", route.toJs)]

/-- The item has the routes of `e`, and the sanitizer leaves them alone. -/
structure Agrees (e : MockExecutor) (item : Item) : Prop where
  routes : loadRoutes item = .arr (e.routes.map Route.toJs)
  sanitized : ∀ r ∈ e.routes, r.sanitized = r
  distinct : Keyed.Distinct Route.id e.routes

/-- No text of the route that a draft makes is redacted. -/
structure UnredactedDraft (draft : RouteDraft) (env : Ambient) : Prop where
  id : redactPotentialSecrets (MockExecutor.saved draft env).id = (MockExecutor.saved draft env).id
  host : redactPotentialSecrets draft.host = draft.host
  destination : redactPotentialSecrets draft.destination = draft.destination

/-- The time of a call is a text of `toISOString`, and a route that it saves is not redacted. -/
structure Unredacted (command : Command) (env : Ambient) : Prop where
  now : ∃ t, env.now = Js.Dates.iso.toISOString t
  draft : ∀ draft, command = .save draft → UnredactedDraft draft env

variable (dates : Js.Dates) {e : MockExecutor} {item : Item} {env : Ambient}

theorem loadRoutes_stored {rs : List Route} (h : ∀ r ∈ rs, r.sanitized = r) :
    loadRoutes (stored dates (rs.map Route.toJs)) = .arr (rs.map Route.toJs) := by
  have hclean : sanitizeItems (rs.map Route.toJs) = rs.map Route.toJs := by
    induction rs with
    | nil => rfl
    | cons r rs ih =>
      rw [List.forall_mem_cons] at h
      rw [List.map_cons, sanitizeItems, Route.sanitizeForJson_toJs, h.1, ih h.2]
  have hjson : Js.isJsonItems (rs.map Route.toJs) = true := by
    clear h hclean
    induction rs with
    | nil => rfl
    | cons r rs ih => exact ih
  show Js.arr (Js.jsonItems dates (sanitizeItems (rs.map Route.toJs))) = _
  rw [hclean, Js.jsonItems_of_isJson dates hjson]

theorem redact_now (h : ∃ t, env.now = Js.Dates.iso.toISOString t) : redactPotentialSecrets env.now = env.now := by
  obtain ⟨t, ht⟩ := h
  rw [ht]
  exact redact_toISOString t

theorem sanitized_saved {draft : RouteDraft} (h : Unredacted (.save draft) env) :
    (MockExecutor.saved draft env).sanitized = MockExecutor.saved draft env := by
  obtain ⟨hid, hhost, hdestination⟩ := h.draft draft rfl
  have hhost' : redactPotentialSecrets (MockExecutor.saved draft env).host = _ := hhost
  have hdestination' : redactPotentialSecrets (MockExecutor.saved draft env).destination = _ := hdestination
  have hnow : redactPotentialSecrets (MockExecutor.saved draft env).updatedAt = _ := redact_now h.now
  rw [Route.sanitized, hid, hhost', hdestination', hnow]
  rfl

theorem sanitized_toggled {r : Route} (h : r.sanitized = r) (enabled : Bool)
    (hnow : ∃ t, env.now = Js.Dates.iso.toISOString t) :
    Route.sanitized { r with enabled := enabled, updatedAt := env.now } =
      { r with enabled := enabled, updatedAt := env.now } := by
  show { r.sanitized with enabled := enabled, updatedAt := redactPotentialSecrets env.now } = _
  rw [h, redact_now hnow]

theorem save_routes (rs : List Route) (draft : RouteDraft) (env : Ambient) :
    save (.arr (rs.map Route.toJs)) draft env = .ok ((MockExecutor.saved draft env).toJs,
      (Keyed.put Route.id (MockExecutor.saved draft env) rs).map Route.toJs) := by
  have hfilter : filter (fun item => (read "id" item).map fun id => decide (id ≠ (saved draft env).get "id"))
      (rs.map Route.toJs) = .ok ((rs.filter fun r => r.id ≠ (MockExecutor.saved draft env).id).map Route.toJs) := by
    refine filter_toJs fun r => ?_
    rw [read_toJs, saved_eq, id_toJs, id_toJs]
    simp [Except.map]
  rw [save, elements]
  show (do
    let kept ← filter _ (rs.map Route.toJs)
    pure (saved draft env, kept ++ [saved draft env])) = _
  rw [hfilter, Keyed.put, List.map_append]
  rfl

theorem find_routes (rs : List Route) (id : String) :
    find (fun route => (read "id" route).map fun id' => decide (id' = .str id)) (rs.map Route.toJs) =
      .ok ((Keyed.view Route.id rs id).map Route.toJs) := by
  refine find_toJs fun r => ?_
  rw [read_toJs, id_toJs]
  simp [Except.map]

theorem toggle_routes_none {rs : List Route} {id : String} (enabled : Bool) (env : Ambient)
    (h : Keyed.view Route.id rs id = none) :
    toggle (.arr (rs.map Route.toJs)) id enabled env = .error (.error ("Route " ++ id ++ " not found")) := by
  show (find _ (rs.map Route.toJs)).bind _ = _
  rw [find_routes, h]
  rfl

theorem toggle_routes_some {rs : List Route} {id : String} (enabled : Bool) (env : Ambient) {r : Route}
    (h : Keyed.view Route.id rs id = some r) :
    toggle (.arr (rs.map Route.toJs)) id enabled env = .ok ({ r with enabled := enabled, updatedAt := env.now }.toJs,
      (Keyed.replace Route.id { r with enabled := enabled, updatedAt := env.now } rs).map Route.toJs) := by
  have hid := Keyed.key_of_view h
  have hmap : (rs.map Route.toJs).mapM (fun item => (read "id" item).map fun id' =>
      if id' = .str id then toggled r.toJs enabled env else item) =
      .ok ((Keyed.replace Route.id { r with enabled := enabled, updatedAt := env.now } rs).map Route.toJs) := by
    refine mapM_toJs fun r' => ?_
    rw [read_toJs, id_toJs, toggled_toJs]
    by_cases hr' : r'.id = id
    · simp [Except.map, hr', hid]
    · simp [Except.map, hr', hid]
  show (find _ (rs.map Route.toJs)).bind _ = _
  rw [find_routes, h]
  show Except.bind (List.mapM _ (rs.map Route.toJs)) _ = _
  rw [hmap, toggled_toJs]
  rfl

/-- A command has the same answer from both, and leaves both with the same routes. -/
theorem agrees_execute (h : Agrees e item) {c : Command} (hc : Unredacted c env) :
    (execute dates item env c).1 = (e.execute env c).1.map response ∧
    Agrees (e.execute env c).2 (execute dates item env c).2 := by
  have hdistinct : Keyed.Distinct Route.id (e.execute env c).2.routes := MockExecutor.distinct_execute c h.distinct
  cases c with
  | list includeDisabled =>
    refine ⟨?_, h⟩
    show (listed (loadRoutes item) includeDisabled).map _ = _
    rw [h.routes]
    cases includeDisabled with
    | true => rfl
    | false =>
      have hfilter : filter (fun route => (read "enabled" route).map Js.truthy) (e.routes.map Route.toJs) =
          .ok ((e.routes.filter Route.enabled).map Route.toJs) := filter_toJs fun r => rfl
      show ((filter _ (e.routes.map Route.toJs)).bind _).map _ = _
      rw [hfilter]
      rfl
  | save draft =>
    have hexecute : execute dates item env (.save draft) = (.ok (response (.route (MockExecutor.saved draft env))),
        stored dates ((Keyed.put Route.id (MockExecutor.saved draft env) e.routes).map Route.toJs)) := by
      rw [execute, h.routes, save_routes]
      rfl
    have hsanitized : ∀ r ∈ Keyed.put Route.id (MockExecutor.saved draft env) e.routes, r.sanitized = r := by
      intro r hr
      rcases List.mem_append.1 hr with hr | hr
      · exact h.sanitized r (List.mem_filter.1 hr).1
      · rw [List.mem_singleton.1 hr]
        exact sanitized_saved hc
    rw [hexecute]
    exact ⟨rfl, loadRoutes_stored dates hsanitized, hsanitized, hdistinct⟩
  | toggle id enabled =>
    rcases hv : Keyed.view Route.id e.routes id with _ | r
    · have hexecute : execute dates item env (.toggle id enabled) =
          (.error (.error ("Route " ++ id ++ " not found")), item) := by
        rw [execute, h.routes, toggle_routes_none enabled env hv]
        rfl
      rw [hexecute, MockExecutor.execute_toggle_none enabled hv]
      exact ⟨rfl, h⟩
    · let r' : Route := { r with enabled := enabled, updatedAt := env.now }
      have hexecute : execute dates item env (.toggle id enabled) =
          (.ok (response (.route r')), stored dates ((Keyed.replace Route.id r' e.routes).map Route.toJs)) := by
        rw [execute, h.routes, toggle_routes_some enabled env hv]
        rfl
      have hsanitized : ∀ b ∈ Keyed.replace Route.id r' e.routes, b.sanitized = b := by
        intro b hb
        obtain ⟨a, ha, rfl⟩ := List.mem_map.1 hb
        split
        · exact sanitized_toggled (h.sanitized r (Keyed.mem_of_view hv)) enabled hc.now
        · exact h.sanitized a ha
      rw [MockExecutor.execute_toggle_some enabled hv] at hdistinct
      rw [hexecute, MockExecutor.execute_toggle_some enabled hv]
      exact ⟨rfl, loadRoutes_stored dates hsanitized, hsanitized, hdistinct⟩

/-- The answers of an executor to commands, one after another, and its last state. -/
def answers {σ α : Type} (execute : σ → Ambient → Command → Except Thrown α × σ) :
    σ → List (Command × Ambient) → List (Except Thrown α) × σ
  | s, [] => ([], s)
  | s, call :: calls =>
    let answer := execute s call.2 call.1
    let rest := answers execute answer.2 calls
    (answer.1 :: rest.1, rest.2)

theorem agrees_answers (h : Agrees e item) {calls : List (Command × Ambient)}
    (hcalls : ∀ call ∈ calls, Unredacted call.1 call.2) :
    (answers (execute dates) item calls).1 = (answers MockExecutor.execute e calls).1.map (Except.map response) ∧
    Agrees (answers MockExecutor.execute e calls).2 (answers (execute dates) item calls).2 := by
  induction calls generalizing e item with
  | nil => exact ⟨rfl, h⟩
  | cons call calls ih =>
    rw [List.forall_mem_cons] at hcalls
    obtain ⟨hanswer, hafter⟩ := agrees_execute dates h hcalls.1
    obtain ⟨hrest, hlast⟩ := ih hafter hcalls.2
    refine ⟨?_, hlast⟩
    rw [answers, answers, List.map_cons, hanswer, hrest]

theorem Agrees.distinct_item (h : Agrees e item) :
    ∃ xs, loadRoutes item = .arr xs ∧ (xs.map fun x => x.get "id").Nodup := by
  refine ⟨_, h.routes, ?_⟩
  have hids : (e.routes.map Route.toJs).map (fun x => x.get "id") = (e.routes.map Route.id).map Js.str := by
    rw [List.map_map, List.map_map]
    rfl
  rw [hids]
  exact h.distinct.map fun s t hst => Js.str.inj hst

/-- From an empty store both executors give the same answers to the same commands, failing ones included, and have no two
routes of one id. -/
theorem executors_agree {calls : List (Command × Ambient)} (hcalls : ∀ call ∈ calls, Unredacted call.1 call.2) :
    (answers (execute dates) .absent calls).1 = (answers MockExecutor.execute {} calls).1.map (Except.map response) ∧
    Keyed.Distinct Route.id (answers MockExecutor.execute {} calls).2.routes ∧
    ∃ xs, loadRoutes (answers (execute dates) .absent calls).2 = .arr xs ∧ (xs.map fun x => x.get "id").Nodup := by
  have hstart : Agrees {} .absent := ⟨rfl, List.forall_mem_nil _, List.nodup_nil⟩
  obtain ⟨hanswers, hlast⟩ := agrees_answers dates hstart hcalls
  exact ⟨hanswers, hlast.distinct, hlast.distinct_item⟩

/-- A route is saved and saved again, a missing one is toggled, and the routes are listed. -/
theorem executors_agree_saved :
    (answers (execute .iso) .absent [(.save ⟨some "a", "h", "d", none⟩, ⟨"b", Js.Dates.iso.toISOString 0⟩),
      (.save ⟨some "a", "h", "e", some false⟩, ⟨"b", Js.Dates.iso.toISOString 1⟩),
      (.toggle "c" true, ⟨"b", Js.Dates.iso.toISOString 2⟩), (.list true, ⟨"b", Js.Dates.iso.toISOString 3⟩)]).1 =
      [.ok (response (.route ⟨"a", "h", "d", true, Js.Dates.iso.toISOString 0⟩)),
        .ok (response (.route ⟨"a", "h", "e", false, Js.Dates.iso.toISOString 1⟩)),
        .error (.error "Route c not found"),
        .ok (response (.routes [⟨"a", "h", "e", false, Js.Dates.iso.toISOString 1⟩]))] := by
  refine (executors_agree .iso fun call hcall => ?_).1
  have ha : redactPotentialSecrets "a" = "a" := by decide +kernel
  have hd : redactPotentialSecrets "d" = "d" := by decide +kernel
  have he : redactPotentialSecrets "e" = "e" := by decide +kernel
  have hh : redactPotentialSecrets "h" = "h" := by decide +kernel
  simp only [List.mem_cons, List.not_mem_nil, or_false] at hcall
  rcases hcall with rfl | rfl | rfl | rfl
  · refine ⟨⟨0, rfl⟩, fun draft hdraft => ?_⟩
    cases hdraft
    exact ⟨ha, hh, hd⟩
  · refine ⟨⟨1, rfl⟩, fun draft hdraft => ?_⟩
    cases hdraft
    exact ⟨ha, hh, he⟩
  · exact ⟨⟨2, rfl⟩, fun draft hdraft => by cases hdraft⟩
  · exact ⟨⟨3, rfl⟩, fun draft hdraft => by cases hdraft⟩

end LocalRouteExecutor

end NginxAdmin.Desktop
