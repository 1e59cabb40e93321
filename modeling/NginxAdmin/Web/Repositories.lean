import NginxAdmin.Lib.IsoDate
import NginxAdmin.Web.Types

/-!
# The repositories over `localStorage`

`LocalStorageRouteRepository` of `packages/core` and `BrowserLocalStorageRouteRepository` of `packages/infra` keep their
routes in one item of the storage, under the same key. The text of the item is taken as the value that `JSON.parse` reads
from it.
-/

namespace NginxAdmin.Web

/-- What `localStorage.getItem` returns: nothing, or a text, which may not be JSON. -/
inductive Item where
  | absent
  | text (content : Option JsonValue)

/-- What the repositories take from the language besides: `String(a)` of an object. -/
structure Browser extends Platform where
  text : Js → String

/-- A route: an object with a string `id`. -/
structure RouteValue where
  js : Js
  id : String
  id_eq : js.get "id" = .str id

/-- The item after `setItem(key, stringifyWithoutSecrets(items))` for an array. -/
def stored (dates : Js.Dates) (items : List Js) : Item :=
  .text (some ⟨.arr (Js.jsonItems dates (sanitizeItems items)), Js.isJson_jsonItems dates _⟩)

namespace LocalStorageRouteRepository

/-- What the constructor of `Map` takes an element of an iterable for. -/
def entry : Js → Option (Js × Js)
  | .arr xs => some (xs[0]?.getD .undefined, xs[1]?.getD .undefined)
  | .obj ms => some (Js.get (.obj ms) "0", Js.get (.obj ms) "1")
  | _ => none

/-- `new Map(JSON.parse(raw))`; a value that has no entries is taken as an error is. -/
def ofJson : Js → JsMap
  | .arr xs => ((xs.mapM entry).map JsMap.ofEntries).getD []
  | _ => []

def loadAll : Item → JsMap
  | .absent | .text none => []
  | .text (some value) => ofJson value.1

def saveAll (dates : Js.Dates) (routes : JsMap) : Item := stored dates (routes.map fun e => .arr [e.1, e.2])

/-- `all.get(id) || null` -/
def findById (item : Item) (id : String) : Option Js :=
  let found := (loadAll item).get (.str id)
  if found.truthy then some found else none

def save (dates : Js.Dates) (item : Item) (route : Js) : Item :=
  saveAll dates ((loadAll item).set (route.get "id") route)

def delete (dates : Js.Dates) (item : Item) (id : String) : Item := saveAll dates ((loadAll item).delete (.str id))

end LocalStorageRouteRepository

namespace BrowserLocalStorageRouteRepository

/-- `date?.toISOString()`; `none` when it throws. -/
def isoOf (dates : Js.Dates) : Js → Option Js
  | .undefined | .null => some .undefined
  | .date (some t) => some (.str (dates.toISOString t))
  | _ => none

def toPersistedRoute (dates : Js.Dates) (route : Js) : Option Js :=
  let metadata := route.get "metadata"
  if metadata.truthy then
    (isoOf dates (metadata.get "createdAt")).bind fun createdAt =>
    (isoOf dates (metadata.get "updatedAt")).map fun updatedAt =>
      route.spread (.obj [("metadata", metadata.spread (.obj [("createdAt", createdAt), ("updatedAt", updatedAt)]))])
  else some (route.spread (.obj [("metadata", .undefined)]))

/-- `new Date(a)` -/
def newDate (browser : Browser) : Js → Option Int
  | .undefined => none
  | .null => some 0
  | .bool b => some (if b then 1 else 0)
  | .num x =>
    let t := if x < 0 then -(-x).floor else x.floor
    if -8640000000000000 ≤ t ∧ t ≤ 8640000000000000 then some t else none
  | .str s => browser.dates.parse s
  | .date t => t
  | a => browser.dates.parse (browser.text a)

/-- `a ? new Date(a) : new Date()` at the time `now`. -/
def dateFrom (browser : Browser) (now : Int) (a : Js) : Js :=
  .date (if a.truthy then newDate browser a else some now)

/-- `none` when it throws, on `null`. -/
def fromPersistedRoute (browser : Browser) (now : Int) (route : Js) : Option Js :=
  if route = .null then none
  else
    let metadata := route.get "metadata"
    if metadata.truthy then
      some (route.spread (.obj [("metadata", metadata.spread (.obj
        [("createdAt", dateFrom browser now (metadata.get "createdAt")),
         ("updatedAt", dateFrom browser now (metadata.get "updatedAt"))]))]))
    else some (route.spread (.obj [("metadata", .undefined)]))

def findAll (browser : Browser) (now : Int) : Item → List Js
  | .text (some ⟨.arr xs, _⟩) => (xs.mapM (fromPersistedRoute browser now)).getD []
  | _ => []

/-- `none` when a route cannot be written. -/
def persist (dates : Js.Dates) (routes : List Js) : Option Item :=
  (routes.mapM (toPersistedRoute dates)).map (stored dates)

def byId (routes : List Js) : JsMap := JsMap.ofEntries (routes.map fun r => (r.get "id", r))

def findById (browser : Browser) (now : Int) (item : Item) (id : String) : Option Js :=
  (findAll browser now item).find? fun r => r.get "id" = .str id

def save (browser : Browser) (now : Int) (item : Item) (route : Js) : Option Item :=
  persist browser.dates ((byId (findAll browser now item)).set (route.get "id") route).values

def delete (browser : Browser) (now : Int) (item : Item) (id : String) : Option Item :=
  persist browser.dates ((findAll browser now item).filter fun r => r.get "id" ≠ .str id)

def saveAll (dates : Js.Dates) (routes : JsMap) : Option Item := persist dates routes.values

def loadAll (browser : Browser) (now : Int) (item : Item) : JsMap := byId (findAll browser now item)

end BrowserLocalStorageRouteRepository

/-! ### One in place of the other -/

/-- The repositories with the default key. -/
inductive Repository where
  | core
  | infra
deriving DecidableEq

namespace Repository

def saveAll (browser : Browser) (routes : JsMap) : Repository → Option Item
  | core => some (LocalStorageRouteRepository.saveAll browser.dates routes)
  | infra => BrowserLocalStorageRouteRepository.saveAll browser.dates routes

def loadAll (browser : Browser) (now : Int) (item : Item) : Repository → JsMap
  | core => LocalStorageRouteRepository.loadAll item
  | infra => BrowserLocalStorageRouteRepository.loadAll browser now item

end Repository

/-- A map of routes, each under its id. -/
def routesById (routes : List RouteValue) : JsMap := routes.map fun r => (.str r.id, r.js)

/-- Whichever repository saves the map, both load it. -/
def Interchangeable (browser : Browser) (m : JsMap) : Prop :=
  ∀ saver loader : Repository, ∀ now : Int, ∃ item, saver.saveAll browser m = some item ∧
    ∀ key, (loader.loadAll browser now item).find key = m.find key

theorem fromPersistedRoute_entry (browser : Browser) (now : Int) (a b : Js) :
    ∃ r, BrowserLocalStorageRouteRepository.fromPersistedRoute browser now (.arr [a, b]) = some r ∧
      r.get "id" = .undefined := by
  refine ⟨.obj [("0", a), ("1", b), ("metadata", .undefined)], ?_, rfl⟩
  have h₀ : Nat.repr 0 = "0" := rfl
  have h₁ : Nat.repr 1 = "1" := rfl
  simp [BrowserLocalStorageRouteRepository.fromPersistedRoute, Js.get, Js.truthy, Js.spread, Js.members, Js.setMember,
    h₀, h₁]

theorem findAll_entries (browser : Browser) (now : Int) (m : JsMap) :
    ∀ r ∈ BrowserLocalStorageRouteRepository.findAll browser now (LocalStorageRouteRepository.saveAll browser.dates m),
      r.get "id" = .undefined := by
  have hread : ∃ routes, (Js.jsonItems browser.dates (sanitizeItems (m.map fun e => .arr [e.1, e.2]))).mapM
      (BrowserLocalStorageRouteRepository.fromPersistedRoute browser now) = some routes ∧
      ∀ r ∈ routes, r.get "id" = .undefined := by
    induction m with
    | nil => exact ⟨[], rfl, by simp⟩
    | cons e m ih =>
      obtain ⟨routes, hroutes, hids⟩ := ih
      obtain ⟨r, hr, hid⟩ := fromPersistedRoute_entry browser now
        ((Js.json browser.dates (sanitizeForJson e.1)).getD .null) ((Js.json browser.dates (sanitizeForJson e.2)).getD .null)
      refine ⟨r :: routes, ?_, ?_⟩
      · rw [List.map_cons, sanitizeItems, Js.jsonItems]
        show List.mapM _ (Js.arr [(Js.json browser.dates (sanitizeForJson e.1)).getD .null,
          (Js.json browser.dates (sanitizeForJson e.2)).getD .null] :: _) = _
        rw [List.mapM_cons, hr, hroutes]
        rfl
      · simpa using ⟨hid, hids⟩
  obtain ⟨routes, hroutes, hids⟩ := hread
  intro r hr
  change r ∈ ((Js.jsonItems browser.dates (sanitizeItems (m.map fun e => .arr [e.1, e.2]))).mapM
    (BrowserLocalStorageRouteRepository.fromPersistedRoute browser now)).getD [] at hr
  rw [hroutes] at hr
  exact hids r hr

/-- The map that the one repository saves has no route under an id for the other. -/
theorem find_loadAll_entries (browser : Browser) (now : Int) (m : JsMap) (id : String) :
    (Repository.infra.loadAll browser now (LocalStorageRouteRepository.saveAll browser.dates m)).find (.str id) = none := by
  refine JsMap.find_ofEntries_eq_none fun e he => ?_
  obtain ⟨r, hr, rfl⟩ := List.mem_map.1 he
  rw [findAll_entries browser now m r hr]
  exact Js.noConfusion

/-- Only the empty map is the same for both repositories. -/
theorem interchangeable_iff (browser : Browser) (routes : List RouteValue) :
    Interchangeable browser (routesById routes) ↔ routes = [] := by
  constructor
  · intro h
    rcases routes with _ | ⟨r, routes⟩
    · rfl
    · obtain ⟨item, hitem, hfind⟩ := h .core .infra 0
      cases hitem
      have hr := hfind (.str r.id)
      rw [find_loadAll_entries, routesById, List.map_cons, JsMap.find_cons,
        if_pos (JsMap.sameKey_str.2 rfl)] at hr
      cases hr
  · rintro rfl saver loader now
    cases saver <;> cases loader <;> exact ⟨_, rfl, fun key => rfl⟩

def Browser.plain : Browser where
  lower := .simple
  dates := .iso
  text _ := "[object Object]"

/-- A route that is proxied. -/
def plainRoute (id : String) (enabled : Bool) : Js :=
  .obj [("id", .str id), ("domain", .str "a.com"), ("port", .num 80), ("root", .str ""), ("enabled", .bool enabled),
    ("ssl", .bool false), ("proxy_pass", .str "http://b:80"), ("locations", .arr []),
    ("advanced", .obj [("client_max_body_size", .str "1m"), ("keepalive_timeout", .str "1s"), ("gzip", .bool false),
      ("caching", .bool false)]),
    ("metadata", .obj [("createdAt", .date (some 0)), ("updatedAt", .date (some 0)), ("createdBy", .str "system"),
      ("tags", .arr [])])]

theorem not_interchangeable :
    (routeSchema Browser.plain.toPlatform (plainRoute "a" true)).isSome = true ∧
    sanitizeForJson (plainRoute "a" true) = plainRoute "a" true ∧
    ¬ Interchangeable Browser.plain [(.str "a", plainRoute "a" true)] := by
  refine ⟨by decide +kernel, by decide +kernel, fun h => ?_⟩
  obtain ⟨item, hitem, hfind⟩ := h .core .infra 0
  cases hitem
  have ha := hfind (.str "a")
  rw [find_loadAll_entries, JsMap.find_cons, if_pos (JsMap.sameKey_str.2 rfl)] at ha
  cases ha

end NginxAdmin.Web
