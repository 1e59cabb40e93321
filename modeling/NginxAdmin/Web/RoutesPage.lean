import NginxAdmin.Web.RoutesStore
import NginxAdmin.Web.StoredRoutes

/-!
# The routes page (`useRoutesPage.ts`, `useRouteOperations.ts`, `repositoryHooks.ts`, `storeIntegrations.ts`)

A handler of the page has the routes of the render in which it was called. It waits for a while, and then a use case works on
these routes: its result replaces the map of the store and the item of the storage, and the store loads the item again. In
between other handlers go on and the timers of the auto-save fire. `page_session`: the page shows what is stored, whatever
the timers do, and a handler undoes what was done under other ids while it waited.
-/

namespace NginxAdmin.Web.RoutesPage

open Js Zod

inductive FormMode where
  | create
  | edit
deriving DecidableEq

/-- `onSubmit` and `saveRouteForce`, with the values of the form; `onToggle`; `onRemove`. -/
inductive Handler where
  | save (mode : FormMode) (values : Js)
  | toggle (id : String)
  | remove (id : String)

/-- What a use case gets from outside: `Date.now()`, `Math.random().toString(36).substr(2, 9)`, and the times of its dates. -/
structure Moment where
  now : Nat
  random : String
  base36 : ∀ c ∈ random.toList, c.isAlphanum = true
  clock : Nat → Int

/-- The id that `createRoute` makes. -/
def Moment.routeId (moment : Moment) : String := "route_" ++ toString moment.now ++ "_" ++ moment.random

/-- `{ ...rest, id }` -/
def idLast (values : Js) : Js := .obj ((values.members.filter fun m => m.1 ≠ "id") ++ [("id", values.get "id")])

section

variable (browser : Browser)

/-- The use case that a handler calls after its `delay`; `none` when the values are no route. -/
def Handler.call (moment : Moment) : Handler → Option PlainMap.Call
  | save mode values =>
    if mode = .create || !(values.get "id").truthy then
      (routeSchema browser.toPlatform values).map fun route =>
        .create moment.routeId route (moment.clock 0) (moment.clock 1)
    else
      match values.get "id" with
      | .str id => (routeSchema browser.toPlatform (idLast values)).map fun updates => .update id updates (moment.clock 0)
      -- the schema takes no other id
      | _ => none
  | toggle id => some (.toggle id (moment.clock 0))
  | remove id => some (.delete id)

/-- A use case over the repository of `useRoutesRepository`, which works on the routes of a render. -/
def useCase (c : PlainMap.Call) (rendered : JsMap) : Except UseCaseError Unit × JsMap :=
  match c with
  | .update id .. | .toggle id _ =>
    -- what `findById` returns is tested for being falsy
    if (rendered.get (.str id)).truthy then PlainMap.call browser.toPlatform c rendered
    else (.error (.error "Route not found"), rendered)
  | _ => PlainMap.call browser.toPlatform c rendered

/-- What a handler does after its `delay`: the routes are set in the store and saved, and the store loads them again. An error
of the use case is caught by `wrap`. -/
def resume (handler : Handler) (rendered : JsMap) (moment : Moment) (s : RoutesStore.State) : RoutesStore.State :=
  match handler.call browser moment with
  | none => s
  | some c =>
    match useCase browser c rendered with
    | (.error _, _) => s
    | (.ok _, routes) =>
      let saved := { s with routes := routes, item := LocalStorageRouteRepository.saveAll browser.dates routes }
      RoutesStore.act browser saved.notify moment.clock .loadRoutes

/-- The store, and the handlers that wait, each with the routes of its render. -/
structure Page where
  store : RoutesStore.State
  waiting : List (Handler × JsMap)

inductive Event where
  | click (handler : Handler)
  | resume (i : Nat) (moment : Moment)
  /-- A timer of the auto-save. -/
  | fire

def step (p : Page) : Event → Option Page
  | .click handler => some { p with waiting := p.waiting ++ [(handler, p.store.routes)] }
  | .resume i moment => (p.waiting[i]?).map fun w =>
      { store := RoutesPage.resume browser w.1 w.2 moment p.store, waiting := p.waiting.eraseIdx i }
  | .fire => (RoutesStore.step browser p.store .fire).map fun store => { p with store := store }

def run (p : Page) : List Event → Option Page
  | [] => some p
  | e :: events => (step browser p e).bind fun p' => run p' events

/-- The page after `useRoutesList` has loaded the routes. -/
def opened (item : Item) : Page :=
  { store := RoutesStore.act browser (RoutesStore.initial item) (fun _ => 0) .loadRoutes, waiting := [] }

/-- The map as it is read from the text that is written of it. -/
def readBack (routes : JsMap) : JsMap := routes.map fun e => (e.1, (json browser.dates e.2).getD .null)

/-- What a handler makes of the routes of its render, in place of the current ones. -/
def effect (handler : Handler) (rendered : JsMap) (moment : Moment) (current : JsMap) : JsMap :=
  match handler.call browser moment with
  | none => current
  | some c =>
    match useCase browser c rendered with
    | (.error _, _) => current
    | (.ok _, routes) => readBack browser routes

/-- The page without the storage and the timers. -/
structure Table where
  routes : JsMap
  waiting : List (Handler × JsMap)

def Table.step (t : Table) : Event → Option Table
  | .click handler => some { t with waiting := t.waiting ++ [(handler, t.routes)] }
  | .resume i moment => (t.waiting[i]?).map fun w =>
      { routes := effect browser w.1 w.2 moment t.routes, waiting := t.waiting.eraseIdx i }
  | .fire => some t

def Table.run (t : Table) : List Event → Option Table
  | [] => some t
  | e :: events => (t.step browser e).bind fun t' => Table.run t' events

def Page.table (p : Page) : Table := ⟨p.store.routes, p.waiting⟩

def Event.isHandler : Event → Bool
  | click _ | resume .. => true
  | fire => false

/-- Each handler goes on before the next one is called. -/
def oneByOne (calls : List (Handler × Moment)) : List Event := calls.flatMap fun call => [.click call.1, .resume 0 call.2]

/-- The sanitizer leaves alone what the schema makes of the values. -/
def Handler.Plain : Handler → Prop
  | save _ values => ∀ v ∈ [values, idLast values], ∀ route, routeSchema browser.toPlatform v = some route → Clean route
  | toggle _ | remove _ => True

end

variable {browser : Browser} {platform : Platform}

/-! ### What the use cases save -/

theorem clean_spread {ms ns : List (String × Js)} (hms : Clean (.obj ms)) (hns : Clean (.obj ns)) :
    Clean (spread (.obj ms) (.obj ns)) := by
  show Clean (.obj (ns.foldl (fun ms m => setMember m.1 m.2 ms) ms))
  induction ns generalizing ms with
  | nil => exact hms
  | cons m ns ih =>
    obtain ⟨hm, hns⟩ := List.forall_mem_cons.1 (clean_obj.1 hns)
    exact ih (BrowserLocalStorageRouteRepository.clean_setMember hms hm.1 hm.2) (clean_obj.2 hns)

theorem isSensitiveFieldName_created : ∀ key ∈ ["id", "metadata", "createdAt", "updatedAt", "createdBy", "tags", "enabled"],
    isSensitiveFieldName key = false := by decide +kernel

theorem clean_routeId (moment : Moment) : Clean (.str moment.routeId) := by
  refine congrArg Js.str (redact_of_names fun c hc => ?_)
  simp only [Moment.routeId, String.toList_append, List.mem_append] at hc
  rcases hc with ((hc | hc) | hc) | hc
  · exact List.all_eq_true.1 (show ("route_".toList.all isNameChar) = true from rfl) c hc
  · have hdigit : c.isDigit = true :=
      Nat.isDigit_of_mem_toDigits (b := 10) (n := moment.now) (by decide) (by decide) (by simpa using hc)
    exact isNameChar_of_isAlphanum (by rw [Char.isAlphanum, hdigit, Bool.or_true])
  · exact List.all_eq_true.1 (show ("_".toList.all isNameChar) = true from rfl) c hc
  · exact isNameChar_of_isAlphanum (moment.base36 c hc)

theorem clean_createdRoute {routeData : Js} {ms : List (String × Js)} (hobj : routeData = .obj ms) (h : Clean routeData)
    (moment : Moment) (createdAt updatedAt : Int) : Clean (createdRoute moment.routeId routeData createdAt updatedAt) := by
  subst hobj
  have hkeys := isSensitiveFieldName_created
  simp only [List.forall_mem_cons, List.not_mem_nil, false_imp_iff, implies_true, and_true] at hkeys
  obtain ⟨hid, hmetadata, hcreatedAt, hupdatedAt, hcreatedBy, htags, -⟩ := hkeys
  have hsystem : Clean (.str "system") := congrArg Js.str (redact_of_names (List.all_eq_true.1 rfl))
  refine clean_spread h (clean_obj.2 ?_)
  simp only [List.forall_mem_cons, List.not_mem_nil, false_imp_iff, implies_true, and_true]
  refine ⟨⟨hid, clean_routeId moment⟩, hmetadata, clean_obj.2 ?_⟩
  simp only [List.forall_mem_cons, List.not_mem_nil, false_imp_iff, implies_true, and_true]
  exact ⟨⟨hcreatedAt, rfl⟩, ⟨hupdatedAt, rfl⟩, ⟨hcreatedBy, hsystem⟩, htags, rfl⟩

/-- The indices of an array or a text are no names. -/
theorem get_indices {α : Type} (f : α → Js) (xs : List α) {key : String} (hkey : ∀ n : Nat, toString n ≠ key) :
    Js.get (.obj (xs.zipIdx.map fun p => (toString p.2, f p.1))) key = .undefined := by
  rcases get_eq_undefined_or_mem (xs.zipIdx.map fun p => (toString p.2, f p.1)) key with hu | hmem
  · exact hu
  · obtain ⟨p, -, hp⟩ := List.mem_map.1 hmem
    exact absurd (congrArg Prod.fst hp) (hkey p.2)

theorem toString_ne_createdAt (n : Nat) : toString n ≠ "createdAt" := by
  intro h
  have hmem : 'c' ∈ Nat.toDigits 10 n := by
    rw [← Nat.toList_repr, show n.repr = "createdAt" from h]
    decide
  exact absurd (Nat.isDigit_of_mem_toDigits (by decide) (by decide) hmem) (by decide)

/-- Only the metadata of an object has the dates that the schema asks for. -/
theorem metadata_of_accepts {existing updates : Js} {now : Int}
    (h : accepts (routeSchema platform) (updatedRoute existing updates now) = true)
    (htruthy : (existing.get "metadata").truthy = true) : ∃ ns, existing.get "metadata" = .obj ns := by
  obtain ⟨out, hout⟩ := Option.isSome_iff_exists.1 h
  obtain ⟨fields, hfields, -⟩ := Option.bind_eq_some_iff.1 hout
  have hmetadata : Zod.optional (metadataSchema platform) ((updatedRoute existing updates now).get "metadata") =
      some (fields.get "metadata") := get_object (nodup_routeFields platform) hfields (by simp [routeFields])
  rw [updatedRoute, get_spread_single, if_pos rfl, if_pos htruthy, Zod.optional, if_neg (by simp [spread])] at hmetadata
  obtain ⟨date, hcreatedAt⟩ : ∃ date, preprocess (dateOf platform) Zod.date _ = some date :=
    ⟨_, get_object (show ((metadataFields platform).map Prod.fst).Nodup by simp [metadataFields]) hmetadata List.mem_cons_self⟩
  rw [get_spread_single, if_neg (by decide), preprocess] at hcreatedAt
  generalize existing.get "metadata" = metadata at hcreatedAt htruthy ⊢
  have habsent : Js.get (.obj metadata.members) "createdAt" ≠ .undefined := by
    intro hu
    rw [hu] at hcreatedAt
    cases hcreatedAt
  cases metadata with
  | obj ns => exact ⟨ns, rfl⟩
  | arr xs => exact absurd (get_indices (fun x => x) xs toString_ne_createdAt) habsent
  | str s => exact absurd (get_indices (fun c => Js.str (String.singleton c)) s.toList toString_ne_createdAt) habsent
  | _ => exact absurd rfl habsent

theorem clean_updatedRoute {existing updates : Js} {now : Int} {ms ns : List (String × Js)} (hexisting : existing = .obj ms)
    (hupdates : updates = .obj ns) (hclean : Clean existing) (hclean' : Clean updates)
    (h : accepts (routeSchema platform) (updatedRoute existing updates now) = true) :
    Clean (updatedRoute existing updates now) := by
  have hmetadata := metadata_of_accepts h
  have hkey := isSensitiveFieldName_created
  subst hexisting hupdates
  refine clean_spread (clean_spread hclean hclean') (clean_obj.2 (List.forall_mem_singleton.2 ⟨hkey _ (by simp), ?_⟩))
  dsimp only
  split
  next htruthy =>
    obtain ⟨metadata, hobj⟩ := hmetadata htruthy
    have hold := BrowserLocalStorageRouteRepository.clean_get hclean "metadata"
    rw [hobj] at hold ⊢
    exact clean_spread hold (clean_obj.2 (List.forall_mem_singleton.2 ⟨hkey _ (by simp), rfl⟩))
  next => rfl

/-- A use case that does not throw saves an accepted route, or deletes. -/
theorem ok_of_useCase {c : PlainMap.Call} {rendered routes : JsMap} {u : Unit}
    (h : useCase browser c rendered = (.ok u, routes)) :
    (∃ route, PlainMap.Saves rendered route c ∧ accepts (routeSchema browser.toPlatform) route = true ∧
      routes = rendered.set (route.get "id") route) ∨
    ∃ id, c = .delete id ∧ routes = JsMap.delete rendered (.str id) := by
  have hupdate : ∀ {id updates now}, PlainMap.updateRoute browser.toPlatform id updates now rendered = (.ok u, routes) →
      ∃ existing, rendered.find (.str id) = some existing ∧
        accepts (routeSchema browser.toPlatform) (updatedRoute existing updates now) = true ∧
        routes = rendered.set ((updatedRoute existing updates now).get "id") (updatedRoute existing updates now) := by
    intro id updates now h
    cases hfind : rendered.find (.str id) with
    | none =>
      rw [PlainMap.updateRoute_of_none hfind] at h
      cases h
    | some existing =>
      by_cases haccepts : accepts (routeSchema browser.toPlatform) (updatedRoute existing updates now) = true
      · rw [PlainMap.updateRoute_of_accepts hfind haccepts] at h
        exact ⟨existing, rfl, haccepts, (Prod.mk.inj h).2.symm⟩
      · rw [PlainMap.updateRoute_of_rejects hfind (by simpa using haccepts)] at h
        cases h
  unfold useCase at h
  cases c with
  | create id routeData createdAt updatedAt =>
    by_cases haccepts : accepts (routeSchema browser.toPlatform) (createdRoute id routeData createdAt updatedAt) = true
    · refine .inl ⟨_, rfl, haccepts, ?_⟩
      simp only [PlainMap.call, PlainMap.createRoute, PlainMap.checked_of_accepts haccepts] at h
      iterate 3
        split at h
        · cases h
      exact (Prod.mk.inj h).2.symm
    · obtain ⟨e, he⟩ : ∃ e, PlainMap.createRoute browser.toPlatform id routeData createdAt updatedAt rendered =
          (.error e, rendered) := PlainMap.createRoute_of_rejects (by simpa using haccepts)
      simp only [PlainMap.call, he] at h
      cases h
  | update id updates now =>
    dsimp only at h
    split at h
    · obtain ⟨existing, hfind, haccepts, hroutes⟩ := hupdate h
      exact .inl ⟨_, ⟨existing, hfind, rfl⟩, haccepts, hroutes⟩
    · cases h
  | toggle id now =>
    dsimp only at h
    split at h
    · rw [PlainMap.call, PlainMap.toggleRouteStatus, PlainMap.run_found] at h
      cases hfind : rendered.find (.str id) with
      | none =>
        rw [hfind] at h
        cases h
      | some route =>
        rw [hfind] at h
        obtain ⟨existing, hexisting, haccepts, hroutes⟩ := hupdate h
        obtain rfl := Option.some.inj (hfind.symm.trans hexisting)
        exact .inl ⟨_, ⟨route, hfind, rfl⟩, haccepts, hroutes⟩
    · cases h
  | delete id => exact .inr ⟨id, rfl, (Prod.mk.inj h).2.symm⟩

/-- Objects under texts that the sanitizer leaves alone. -/
structure Routes (m : JsMap) : Prop where
  distinct : m.Distinct
  entries : ∀ e ∈ m, ∃ id ms, e = (.str id, .obj ms) ∧ Clean (.str id) ∧ Clean (.obj ms)

/-- They have been read from the storage. -/
structure Stocked (m : JsMap) : Prop extends Routes m where
  isJson : ∀ e ∈ m, e.2.isJson = true

theorem mem_set {s : String} {x : Js} {m : JsMap} {e : Js × Js} (h : e ∈ m.set (.str s) x) : e = (.str s, x) ∨ e ∈ m := by
  induction m with
  | nil => exact .inl (List.mem_singleton.1 h)
  | cons f m ih =>
    obtain ⟨k, y⟩ := f
    rw [JsMap.set] at h
    split at h
    next hk =>
      obtain rfl := JsMap.sameKey_str.1 hk
      exact (List.mem_cons.1 h).imp_right (List.mem_cons_of_mem _)
    next =>
      rcases List.mem_cons.1 h with rfl | h
      · exact .inr List.mem_cons_self
      · exact (ih h).imp_right (List.mem_cons_of_mem _)

theorem Routes.set {m : JsMap} (h : Routes m) {id : String} {route : Js} {ms : List (String × Js)} (hobj : route = .obj ms)
    (hroute : Clean route) (hid : Clean (.str id)) : Routes (m.set (.str id) route) := by
  refine ⟨h.distinct.set _ _, fun e he => ?_⟩
  rcases mem_set he with rfl | he
  · exact ⟨id, ms, by rw [hobj], hid, hobj ▸ hroute⟩
  · exact h.entries e he

theorem Routes.delete {m : JsMap} (h : Routes m) (key : Js) : Routes (m.delete key) :=
  ⟨h.distinct.delete key, fun e he => h.entries e (List.mem_filter.1 he).1⟩

theorem Routes.loadAll_saveAll {m : JsMap} (h : Routes m) :
    LocalStorageRouteRepository.loadAll (LocalStorageRouteRepository.saveAll browser.dates m) = readBack browser m := by
  have hwritten : jsonItems browser.dates (sanitizeItems (m.map fun e => .arr [e.1, e.2])) =
      (readBack browser m).map fun e => .arr [e.1, e.2] := by
    have hentries := h.entries
    clear h
    induction m with
    | nil => rfl
    | cons e m ih =>
      obtain ⟨⟨id, ms, rfl, hid, hms⟩, htail⟩ := List.forall_mem_cons.1 hentries
      have hentry : sanitizeForJson (.arr [.str id, .obj ms]) = .arr [.str id, .obj ms] := by
        rw [sanitizeForJson, sanitizeItems, sanitizeItems, sanitizeItems, hid, hms]
      rw [List.map_cons, sanitizeItems, hentry, jsonItems, ih htail]
      rfl
  show LocalStorageRouteRepository.ofJson (.arr (jsonItems browser.dates (sanitizeItems (m.map fun e => .arr [e.1, e.2])))) = _
  rw [hwritten, LocalStorageRouteRepository.ofJson, RoutesStore.mapM_entry]
  exact JsMap.ofEntries_of_distinct (JsMap.distinct_of_keys h.distinct (by simp [readBack]))

theorem Routes.stocked {m : JsMap} (hiso : browser.dates.toISOString = Dates.iso.toISOString) (h : Routes m) :
    Stocked (readBack browser m) := by
  have hread : ∀ e ∈ readBack browser m, ∃ id ms, e = (.str id, .obj (jsonMembers browser.dates ms)) ∧ Clean (.str id) ∧
      Clean (.obj ms) := by
    intro e he
    obtain ⟨f, hf, rfl⟩ := List.mem_map.1 he
    obtain ⟨id, ms, rfl, hid, hms⟩ := h.entries f hf
    exact ⟨id, ms, rfl, hid, hms⟩
  refine ⟨⟨JsMap.distinct_of_keys h.distinct (by simp [readBack]), fun e he => ?_⟩, fun e he => ?_⟩
  · obtain ⟨id, ms, rfl, hid, hms⟩ := hread e he
    exact ⟨id, _, rfl, hid, BrowserLocalStorageRouteRepository.clean_json
      (BrowserLocalStorageRouteRepository.clean_toISOString hiso) hms rfl⟩
  · obtain ⟨id, ms, rfl, -, -⟩ := hread e he
    exact isJson_jsonMembers browser.dates ms

theorem Stocked.durable {m : JsMap} (h : Stocked m) : ∀ e ∈ m, RoutesStore.Durable e.1 ∧ RoutesStore.Durable e.2 := by
  intro e he
  have hjson := h.isJson e he
  obtain ⟨id, ms, rfl, hid, hms⟩ := h.entries e he
  exact ⟨⟨hid, rfl⟩, hms, hjson⟩

theorem Stocked.readBack {m : JsMap} (h : Stocked m) : readBack browser m = m := by
  refine (List.map_congr_left fun e he => ?_).trans (List.map_id m)
  rw [json_of_isJson browser.dates (h.isJson e he)]
  rfl

theorem Stocked.sanitize {m : JsMap} (h : Stocked m) : RoutesStore.sanitizeRoutesMap m = m := by
  have hmap : (m.map fun e => (e.1, sanitizeForJson e.2)) = m := by
    refine (List.map_congr_left fun e he => ?_).trans (List.map_id m)
    rw [(h.durable e he).2.1]
    rfl
  rw [RoutesStore.sanitizeRoutesMap, hmap]
  exact JsMap.ofEntries_of_distinct h.distinct

variable {handler : Handler} {rendered : JsMap} {moment : Moment}

theorem Routes.of_find {m : JsMap} (h : Routes m) {key route : Js} (hfind : m.find key = some route) :
    ∃ ms, route = .obj ms ∧ Clean route := by
  obtain ⟨e, he, rfl⟩ := Option.map_eq_some_iff.1 hfind
  obtain ⟨id, ms, rfl, -, hms⟩ := h.entries e (List.mem_of_find?_eq_some he)
  exact ⟨ms, rfl, hms⟩

theorem clean_of_saves {c : PlainMap.Call} {route : Js} (hrendered : Routes rendered) (hplain : handler.Plain browser)
    (hcall : handler.call browser moment = some c) (hsaves : PlainMap.Saves rendered route c)
    (haccepts : accepts (routeSchema browser.toPlatform) route = true) : Clean route := by
  cases handler with
  | save mode values =>
    rw [Handler.call] at hcall
    split at hcall
    · obtain ⟨routeData, hdata, rfl⟩ := Option.map_eq_some_iff.1 hcall
      obtain ⟨ms, hobj, -⟩ := route_typed _ hdata
      cases hsaves
      exact clean_createdRoute hobj (hplain values (by simp) _ hdata) moment _ _
    · split at hcall
      · obtain ⟨updates, hupdates, rfl⟩ := Option.map_eq_some_iff.1 hcall
        obtain ⟨ns, hobj, -⟩ := route_typed _ hupdates
        obtain ⟨existing, hfind, rfl⟩ := hsaves
        obtain ⟨ms, hobj', hclean⟩ := hrendered.of_find hfind
        exact clean_updatedRoute hobj' hobj hclean (hplain _ (by simp) _ hupdates) haccepts
      · cases hcall
  | toggle id =>
    obtain rfl := Option.some.inj hcall
    obtain ⟨existing, hfind, rfl⟩ := hsaves
    obtain ⟨ms, hobj, hclean⟩ := hrendered.of_find hfind
    refine clean_updatedRoute hobj rfl hclean (clean_obj.2 (List.forall_mem_singleton.2 ⟨?_, rfl⟩)) haccepts
    exact isSensitiveFieldName_created _ (by simp)
  | remove id =>
    obtain rfl := Option.some.inj hcall
    exact hsaves.elim

theorem obj_of_saves {c : PlainMap.Call} {route : Js} (hsaves : PlainMap.Saves rendered route c) : ∃ ms, route = .obj ms := by
  cases c with
  | create id routeData createdAt updatedAt => exact ⟨_, hsaves⟩
  | update id updates now =>
    obtain ⟨existing, -, h⟩ := hsaves
    exact ⟨_, h⟩
  | toggle id now =>
    obtain ⟨existing, -, h⟩ := hsaves
    exact ⟨_, h⟩
  | delete id => exact hsaves.elim

/-- A use case leaves routes, and those of the render under every id but one. -/
theorem routes_of_useCase {c : PlainMap.Call} {routes : JsMap} {u : Unit} (hrendered : Routes rendered)
    (hplain : handler.Plain browser) (hcall : handler.call browser moment = some c)
    (h : useCase browser c rendered = (.ok u, routes)) :
    Routes routes ∧ ∃ id, ∀ other ≠ id, routes.find (.str other) = rendered.find (.str other) := by
  rcases ok_of_useCase h with ⟨route, hsaves, haccepts, rfl⟩ | ⟨id, -, rfl⟩
  · obtain ⟨id, hid⟩ := PlainMap.string_id haccepts
    obtain ⟨ms, hobj⟩ := obj_of_saves hsaves
    have hclean := clean_of_saves hrendered hplain hcall hsaves haccepts
    have hkey : Clean (.str id) := by
      rw [← hid, hobj]
      exact BrowserLocalStorageRouteRepository.clean_get (hobj ▸ hclean) "id"
    rw [hid]
    refine ⟨hrendered.set hobj hclean hkey, id, fun other hother => ?_⟩
    rw [JsMap.find_set, if_neg fun heq => hother (Js.str.inj heq)]
  · refine ⟨hrendered.delete _, id, fun other hother => ?_⟩
    rw [JsMap.find_delete, if_neg fun heq => hother (Js.str.inj heq)]

/-- The store after `setState`, `saveRoutes` and `loadRoutes`. -/
def reloaded (browser : Browser) (clock : Nat → Int) (routes : JsMap) (s : RoutesStore.State) : RoutesStore.State :=
  RoutesStore.act browser
    (RoutesStore.State.notify { s with routes := routes, item := LocalStorageRouteRepository.saveAll browser.dates routes })
    clock .loadRoutes

/-- A handler changes nothing, or puts its routes in place of all others. -/
theorem resume_cases (hrendered : Routes rendered) (hplain : handler.Plain browser) (moment : Moment) :
    ((∀ s, resume browser handler rendered moment s = s) ∧
      ∀ current, effect browser handler rendered moment current = current) ∨
    ∃ routes, Routes routes ∧ (∃ id, ∀ other ≠ id, routes.find (.str other) = rendered.find (.str other)) ∧
      (∀ s, resume browser handler rendered moment s = reloaded browser moment.clock routes s) ∧
      ∀ current, effect browser handler rendered moment current = readBack browser routes := by
  cases hcall : handler.call browser moment with
  | none => exact .inl ⟨fun s => by rw [resume, hcall], fun current => by rw [effect, hcall]⟩
  | some c =>
    rcases h : useCase browser c rendered with ⟨_ | u, routes⟩
    · exact .inl ⟨fun s => by simp only [resume, hcall, h], fun current => by simp only [effect, hcall, h]⟩
    · obtain ⟨hroutes, hother⟩ := routes_of_useCase hrendered hplain hcall h
      exact .inr ⟨routes, hroutes, hother, fun s => by simp only [resume, hcall, h]; rfl,
        fun current => by simp only [effect, hcall, h]⟩

/-! ### The session -/

/-- The map of the store is what is stored, and every handler that waits has such a map. -/
structure Inv (browser : Browser) (p : Page) : Prop where
  stocked : Stocked p.store.routes
  item : LocalStorageRouteRepository.loadAll p.store.item = p.store.routes
  waiting : ∀ w ∈ p.waiting, w.1.Plain browser ∧ Stocked w.2

theorem reloaded_routes {routes : JsMap} (hiso : browser.dates.toISOString = Dates.iso.toISOString) (h : Routes routes)
    (clock : Nat → Int) (s : RoutesStore.State) : (reloaded browser clock routes s).routes = readBack browser routes ∧
      LocalStorageRouteRepository.loadAll (reloaded browser clock routes s).item = readBack browser routes := by
  refine ⟨?_, h.loadAll_saveAll⟩
  show RoutesStore.sanitizeRoutesMap (LocalStorageRouteRepository.loadAll (LocalStorageRouteRepository.saveAll _ routes)) = _
  rw [h.loadAll_saveAll, (h.stocked hiso).sanitize]

theorem find_readBack (m : JsMap) (key : Js) :
    (readBack browser m).find key = (m.find key).map fun route => (json browser.dates route).getD .null := by
  induction m with
  | nil => rfl
  | cons e m ih =>
    show JsMap.find (_ :: readBack browser m) key = _
    rw [JsMap.find_cons, JsMap.find_cons, ih]
    split <;> rfl

theorem Stocked.map_json {m : JsMap} (h : Stocked m) (key : Js) :
    (m.find key).map (fun route => (json browser.dates route).getD .null) = m.find key := by
  rw [← find_readBack, h.readBack]

theorem inv_opened {item : Item} (hitem : Stocked (LocalStorageRouteRepository.loadAll item)) :
    Inv browser (opened browser item) where
  stocked := (hitem.sanitize.symm ▸ hitem : Stocked (RoutesStore.sanitizeRoutesMap _))
  item := hitem.sanitize.symm
  waiting w hw := by cases hw

theorem inv_step (hiso : browser.dates.toISOString = Dates.iso.toISOString) {p p' : Page} {e : Event} (hp : Inv browser p)
    (he : ∀ handler, e = .click handler → handler.Plain browser) (h : step browser p e = some p') :
    Inv browser p' ∧ p.table.step browser e = some p'.table := by
  cases e with
  | click handler =>
    cases h
    refine ⟨⟨hp.stocked, hp.item, fun w hw => ?_⟩, rfl⟩
    rcases List.mem_append.1 hw with hw | hw
    · exact hp.waiting w hw
    · obtain rfl := List.mem_singleton.1 hw
      exact ⟨he handler rfl, hp.stocked⟩
  | resume i moment =>
    obtain ⟨w, hw, rfl⟩ := Option.map_eq_some_iff.1 h
    obtain ⟨hplain, hrendered⟩ := hp.waiting w (List.mem_of_getElem? hw)
    have hwaiting : ∀ v ∈ p.waiting.eraseIdx i, v.1.Plain browser ∧ Stocked v.2 :=
      fun v hv => hp.waiting v (List.mem_of_mem_eraseIdx hv)
    have htable : p.table.step browser (.resume i moment) =
        some ⟨effect browser w.1 w.2 moment p.store.routes, p.waiting.eraseIdx i⟩ := by
      rw [Table.step, show p.table.waiting[i]? = some w from hw]
      rfl
    rw [htable]
    rcases resume_cases hrendered.toRoutes hplain moment with ⟨hsame, heffect⟩ | ⟨routes, hroutes, -, hresume, heffect⟩
    · rw [hsame, heffect]
      exact ⟨⟨hp.stocked, hp.item, hwaiting⟩, rfl⟩
    · obtain ⟨hshown, hitem⟩ := reloaded_routes hiso hroutes moment.clock p.store
      rw [hresume, heffect, ← hshown]
      exact ⟨⟨hshown ▸ hroutes.stocked hiso, hitem.trans hshown.symm, hwaiting⟩, rfl⟩
  | fire =>
    obtain ⟨store, hstore, rfl⟩ := Option.map_eq_some_iff.1 h
    rw [RoutesStore.step] at hstore
    split at hstore
    · cases hstore
    · cases hstore
      refine ⟨⟨hp.stocked, ?_, hp.waiting⟩, rfl⟩
      exact hp.stocked.loadAll_saveAll.trans hp.stocked.readBack

theorem inv_run (hiso : browser.dates.toISOString = Dates.iso.toISOString) {events : List Event} {p p' : Page}
    (hp : Inv browser p) (hplain : ∀ handler, Event.click handler ∈ events → handler.Plain browser)
    (h : run browser p events = some p') : Inv browser p' ∧ p.table.run browser events = some p'.table := by
  induction events generalizing p with
  | nil =>
    cases h
    exact ⟨hp, rfl⟩
  | cons e events ih =>
    obtain ⟨p₁, hstep, hrest⟩ := Option.bind_eq_some_iff.1 h
    obtain ⟨hp₁, htable⟩ := inv_step hiso hp (fun handler heq => hplain handler (heq ▸ List.mem_cons_self)) hstep
    obtain ⟨hp', hrun⟩ := ih hp₁ (fun handler hmem => hplain handler (List.mem_cons_of_mem e hmem)) hrest
    exact ⟨hp', Option.bind_eq_some_iff.2 ⟨_, htable, hrun⟩⟩

/-- The table knows nothing of the timers. -/
theorem table_run_filter (t : Table) (events : List Event) :
    t.run browser (events.filter Event.isHandler) = t.run browser events := by
  induction events generalizing t with
  | nil => rfl
  | cons e events ih =>
    cases e with
    | fire => exact ih t
    | click handler => exact ih _
    | resume i moment =>
      show (t.step browser _).bind _ = (t.step browser _).bind _
      simp only [ih]

theorem table_run_oneByOne (routes : JsMap) (calls : List (Handler × Moment)) :
    (Table.mk routes []).run browser (oneByOne calls) =
      some ⟨calls.foldl (fun routes call => effect browser call.1 routes call.2 routes) routes, []⟩ := by
  induction calls generalizing routes with
  | nil => rfl
  | cons call calls ih => exact ih _

/-- The page shows what is stored, and the timers of the auto-save change neither. Handlers that go on before the next one is
called change the routes one after the other. One that goes on later leaves all routes but one as they were when it was
called. -/
theorem page_session (hiso : browser.dates.toISOString = Dates.iso.toISOString) {item : Item}
    (hitem : Stocked (LocalStorageRouteRepository.loadAll item)) {events : List Event}
    (hplain : ∀ handler, Event.click handler ∈ events → handler.Plain browser) {p : Page}
    (hrun : run browser (opened browser item) events = some p) :
    LocalStorageRouteRepository.loadAll p.store.item = p.store.routes ∧
    Table.run browser ⟨LocalStorageRouteRepository.loadAll item, []⟩ (events.filter Event.isHandler) = some p.table ∧
    (∀ calls, events.filter Event.isHandler = oneByOne calls → p.store.routes =
      calls.foldl (fun routes call => effect browser call.1 routes call.2 routes) (LocalStorageRouteRepository.loadAll item)) ∧
    ∀ i moment w p', p.waiting[i]? = some w → step browser p (.resume i moment) = some p' →
      p'.store.routes = p.store.routes ∨
        ∃ id, ∀ other ≠ id, p'.store.routes.find (.str other) = w.2.find (.str other) := by
  obtain ⟨hp, htable⟩ := inv_run hiso (inv_opened hitem) hplain hrun
  have hopened : (opened browser item).table = ⟨LocalStorageRouteRepository.loadAll item, []⟩ :=
    congrArg (Table.mk · []) hitem.sanitize
  rw [hopened, ← table_run_filter] at htable
  refine ⟨hp.item, htable, fun calls hcalls => ?_, fun i moment w p' hw hstep => ?_⟩
  · rw [hcalls, table_run_oneByOne, Option.some.injEq] at htable
    exact (congrArg Table.routes htable).symm
  · obtain ⟨hplain, hrendered⟩ := hp.waiting w (List.mem_of_getElem? hw)
    obtain rfl : { store := RoutesPage.resume browser w.1 w.2 moment p.store, waiting := p.waiting.eraseIdx i } = p' := by
      simpa only [step, hw, Option.map_some, Option.some.injEq] using hstep
    rcases resume_cases hrendered.toRoutes hplain moment with ⟨hsame, -⟩ | ⟨routes, hroutes, ⟨id, hother⟩, hresume, -⟩
    · exact .inl (congrArg RoutesStore.State.routes (hsame p.store))
    · refine .inr ⟨id, fun other hne => ?_⟩
      show (RoutesPage.resume browser w.1 w.2 moment p.store).routes.find _ = _
      rw [hresume, (reloaded_routes hiso hroutes moment.clock p.store).1, find_readBack, hother other hne, hrendered.map_json]

def oneRoute : JsMap := [(.str "a", plainRoute "a" true)]

theorem routes_oneRoute : Routes oneRoute := by
  refine ⟨List.pairwise_singleton _ _, List.forall_mem_singleton.2 ⟨"a", _, rfl, ?_⟩⟩
  unfold Clean
  decide +kernel

def formValues : Js :=
  .obj [("id", .str ""), ("domain", .str "b.com"), ("port", .num 80), ("root", .str ""), ("enabled", .bool true),
    ("ssl", .bool false), ("proxy_pass", .str "http://b:80"), ("locations", .arr [])]

theorem plain_formValues : (Handler.save .create formValues).Plain .plain := by
  have hchecked : ∀ v ∈ [formValues, idLast formValues],
      (routeSchema Browser.plain.toPlatform v).all (fun route => sanitizeForJson route = route) = true := by decide +kernel
  intro v hv route hroute
  have hclean := hchecked v hv
  rw [hroute] at hclean
  show sanitizeForJson route = route
  exact of_decide_eq_true hclean

/-- `a` is switched off while a new route waits to be saved, and a timer fires: `a` is on again. -/
def staleSession : List Event :=
  let moment : Moment := ⟨0, "x", List.all_eq_true.1 (by decide), fun _ => 0⟩
  [.click (.save .create formValues), .click (.toggle "a"), .resume 1 moment, .fire, .resume 0 moment]

theorem page_session_stale : ∃ p, run .plain (opened .plain (LocalStorageRouteRepository.saveAll .iso oneRoute)) staleSession =
    some p ∧ LocalStorageRouteRepository.loadAll p.store.item = p.store.routes ∧
      (p.store.routes.find (.str "a")).map (·.get "enabled") = some (.bool true) ∧
      (p.store.routes.find (.str "route_0_x")).isSome = true := by
  have hseen : (run .plain (opened .plain (LocalStorageRouteRepository.saveAll .iso oneRoute)) staleSession).map
      (fun p => ((p.store.routes.find (.str "a")).map (·.get "enabled"), (p.store.routes.find (.str "route_0_x")).isSome)) =
      some (some (.bool true), true) := by
    decide +kernel
  obtain ⟨p, hrun, hfinal⟩ := Option.map_eq_some_iff.1 hseen
  obtain ⟨ha, hnew⟩ := Prod.mk.inj hfinal
  have hitem : Stocked (LocalStorageRouteRepository.loadAll
      (LocalStorageRouteRepository.saveAll Browser.plain.dates oneRoute)) := by
    rw [routes_oneRoute.loadAll_saveAll]
    exact routes_oneRoute.stocked rfl
  have hplain : ∀ handler, Event.click handler ∈ staleSession → handler.Plain .plain := by
    intro handler hmem
    simp only [staleSession, List.mem_cons, Event.click.injEq, reduceCtorEq, List.not_mem_nil, or_false] at hmem
    rcases hmem with rfl | rfl
    · exact plain_formValues
    · exact trivial
  exact ⟨p, hrun, (page_session rfl hitem hplain hrun).1, ha, hnew⟩

end NginxAdmin.Web.RoutesPage
