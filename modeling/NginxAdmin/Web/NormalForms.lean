import NginxAdmin.Lib.JsTypes
import NginxAdmin.Web.UseCases

/-!
# Routes in normal form

The use cases of routes over a repository that is a plain map. They check a route with `RouteSchema` and save the route, not
what the schema makes of it; `normalForms_iff`: the stored routes are what the schema outputs for them exactly when no call
saves a field that the schema clears.
-/

namespace NginxAdmin.Web

open Js Zod

def locationType : List (String × (Js → Bool)) :=
  [("path", isString), ("proxy_pass", isString), ("try_files", isString), ("index", isString),
   ("extra_directives", isString)]

def advancedType : List (String × (Js → Bool)) :=
  [("client_max_body_size", isString), ("keepalive_timeout", isString), ("gzip", isBoolean), ("gzip_types", isString),
   ("caching", isBoolean), ("cache_valid", isString)]

def metadataType : List (String × (Js → Bool)) :=
  [("createdAt", isDate), ("updatedAt", isDate), ("createdBy", isString), ("tags", arrayOf isString)]

/-- The properties of `Route`. -/
def routeType : List (String × (Js → Bool)) :=
  [("id", isString), ("domain", isString), ("port", isNumber), ("root", isString), ("enabled", isBoolean),
   ("ssl", isBoolean), ("ssl_certificate", isString), ("ssl_certificate_key", isString), ("proxy_pass", isString),
   ("locations", arrayOf (ofType locationType)), ("advanced", ofType advancedType), ("metadata", ofType metadataType)]

/-- Nothing that `AdvancedConfigSchema` clears. -/
structure TidyAdvanced (adv : Js) : Prop where
  gzip : (adv.get "gzip").truthy = false → (adv.get "gzip_types").truthy = false
  caching : (adv.get "caching").truthy = false → (adv.get "cache_valid").truthy = false

/-- Nothing that `RouteSchema` clears. -/
structure Tidy (route : Js) : Prop where
  certificate : (route.get "ssl").truthy = false → route.get "ssl_certificate" = .undefined
  certificateKey : (route.get "ssl").truthy = false → route.get "ssl_certificate_key" = .undefined
  advanced : TidyAdvanced (route.get "advanced")

theorem echo_proxyTarget : Echo proxyTargetSchema := ((echo_regex _).refine _).optional

theorem echo_unixPath : Echo unixPathSchema := (echo_regex _).or (echo_literal _)

theorem get_assign_of_obj {a : Js} {ms : List (String × Js)} (h : a = .obj ms) (key key' : String) (x : Js) :
    (assign key x a).get key' = if key' = key then x else a.get key' := by
  subst h
  exact get_setMember key key' x ms

theorem TidyAdvanced.congr {a b : Js} (ht : TidyAdvanced b) (h : ∀ key, (a.get key).truthy = (b.get key).truthy) :
    TidyAdvanced a where
  gzip := by
    rw [h "gzip", h "gzip_types"]
    exact ht.gzip
  caching := by
    rw [h "caching", h "cache_valid"]
    exact ht.caching

/-- One of the two assignments of `AdvancedConfigSchema`. -/
def clear (switch key : String) (adv : Js) : Js :=
  if !(adv.get switch).truthy && (adv.get key).truthy then assign key .undefined adv else adv

theorem get_clear {adv : Js} {ms : List (String × Js)} (hobj : adv = .obj ms) {switch key key' : String} (h : key' ≠ key) :
    (clear switch key adv).get key' = adv.get key' := by
  rw [clear]
  split
  · rw [get_assign_of_obj hobj, if_neg h]
  · rfl

theorem clear_obj {adv : Js} {ms : List (String × Js)} (hobj : adv = .obj ms) (switch key : String) :
    ∃ ns, clear switch key adv = .obj ns := by
  subst hobj
  rw [clear]
  split
  · exact ⟨_, rfl⟩
  · exact ⟨ms, rfl⟩

theorem refineAdvanced_eq {adv out : Js} (h : refineAdvanced adv = some out) :
    out = clear "caching" "cache_valid" (clear "gzip" "gzip_types" adv) := by
  rw [refineAdvanced] at h
  split at h
  · cases h
  · split at h
    · cases h
    · exact (Option.some.inj h).symm

variable {platform : Platform} {route out : Js}

theorem routeSchema_eq : routeSchema platform = superRefine refineRoute (object (routeFields platform)) := rfl

theorem refineRoute_eq (h : refineRoute route = some out) : out =
    if (route.get "ssl").truthy then route else
      assign "ssl_certificate_key" .undefined (assign "ssl_certificate" .undefined route) := by
  simp only [refineRoute] at h
  iterate 6
    split at h
    · cases h
  exact (Option.some.inj h).symm

/-- What `RouteSchema` outputs, property by property. -/
theorem get_refineRoute {ms : List (String × Js)} (hobj : route = .obj ms) (h : refineRoute route = some out) (key : String) :
    out.get key = if (route.get "ssl").truthy = false ∧ (key = "ssl_certificate" ∨ key = "ssl_certificate_key") then .undefined
      else route.get key := by
  rw [refineRoute_eq h]
  by_cases hssl : (route.get "ssl").truthy = true
  · rw [if_pos hssl, if_neg]
    rintro ⟨hoff, -⟩
    rw [hssl] at hoff
    cases hoff
  · have hcleared : ∃ ns, assign "ssl_certificate" .undefined route = .obj ns := by rw [hobj]; exact ⟨_, rfl⟩
    obtain ⟨ns, hns⟩ := hcleared
    rw [if_neg hssl, get_assign_of_obj hns, get_assign_of_obj hobj]
    have hoff : (route.get "ssl").truthy = false := by simpa using hssl
    by_cases hkey : key = "ssl_certificate_key"
    · rw [if_pos hkey, if_pos ⟨hoff, .inr hkey⟩]
    · by_cases hcert : key = "ssl_certificate"
      · rw [if_neg hkey, if_pos hcert, if_pos ⟨hoff, .inl hcert⟩]
      · rw [if_neg hkey, if_neg hcert, if_neg]
        rintro ⟨-, h | h⟩
        · exact hcert h
        · exact hkey h

theorem obj_of_refineRoute {ms : List (String × Js)} (hobj : route = .obj ms) (h : refineRoute route = some out) :
    ∃ ns, out = .obj ns := by
  rw [refineRoute_eq h, hobj]
  split
  · exact ⟨ms, rfl⟩
  · exact ⟨_, rfl⟩

/-- A use case over a repository that is a `Map`. -/
abbrev MapUseCase (α : Type) := ExceptT UseCaseError (StateM JsMap) α

namespace PlainMap

def save (route : Js) : MapUseCase Unit := modify fun routes => routes.set (route.get "id") route

def findById (id : String) : MapUseCase (Option Js) := do
  let routes ← get
  pure (routes.find (.str id))

def delete (id : String) : MapUseCase Unit := modify fun routes => JsMap.delete routes (.str id)

variable (platform : Platform)

def createRoute (id : String) (routeData : Js) (createdAt updatedAt : Int) : MapUseCase String :=
  if !validateDomain (routeData.get "domain") then throw (.error "Invalid domain format")
  else if !validatePort (routeData.get "port") then throw (.error "Port must be between 1 and 65535")
  else if !validateUnixPath (routeData.get "root") then throw (.error "Invalid path format")
  else do
    let route := createdRoute id routeData createdAt updatedAt
    if (routeSchema platform route).isNone then throw .zodError
    else do
      save route
      pure id

def updateRoute (id : String) (updates : Js) (now : Int) : MapUseCase Unit := do
  let existing ← findById id
  match existing with
  | none => throw (.error "Route not found")
  | some existing =>
    let route := updatedRoute existing updates now
    if (routeSchema platform route).isNone then throw .zodError
    else save route

def toggleRouteStatus (id : String) (now : Int) : MapUseCase Unit := do
  let route ← findById id
  match route with
  | none => throw (.error "Route not found")
  | some route => updateRoute platform id (toggled route) now

/-- A call, with the id, the times and the arguments it is made with. -/
inductive Call where
  | create (id : String) (routeData : Js) (createdAt updatedAt : Int)
  | update (id : String) (updates : Js) (now : Int)
  | toggle (id : String) (now : Int)
  | delete (id : String)

/-- What the call leaves, and whether it throws. -/
def call (c : Call) (routes : JsMap) : Except UseCaseError Unit × JsMap :=
  match c with
  | .create id routeData createdAt updatedAt =>
    ((createRoute platform id routeData createdAt updatedAt routes).1.map fun _ => (),
      (createRoute platform id routeData createdAt updatedAt routes).2)
  | .update id updates now => updateRoute platform id updates now routes
  | .toggle id now => toggleRouteStatus platform id now routes
  | .delete id => delete id routes

def run (calls : List Call) (routes : JsMap) : JsMap := calls.foldl (fun routes c => (call platform c routes).2) routes

/-- A route that the call saves has nothing that the schema clears. -/
def Meets (routes : JsMap) : Call → Prop
  | .create id routeData createdAt updatedAt =>
    (accepts (routeSchema platform) (createdRoute id routeData createdAt updatedAt) = true) → Tidy routeData
  | .update id updates now => ∀ existing, routes.find (.str id) = some existing →
    accepts (routeSchema platform) (updatedRoute existing updates now) = true → Tidy (existing.spread updates)
  | .toggle .. | .delete _ => True

/-- The route that the call is about to save. -/
def Saves (routes : JsMap) (route : Js) : Call → Prop
  | .create id routeData createdAt updatedAt => route = createdRoute id routeData createdAt updatedAt
  | .update id updates now => ∃ existing, routes.find (.str id) = some existing ∧ route = updatedRoute existing updates now
  | .toggle id now => ∃ existing, routes.find (.str id) = some existing ∧ route = updatedRoute existing (toggled existing) now
  | .delete _ => False

variable {platform} {routes : JsMap} {c : Call} {route : Js}

theorem string_id (h : accepts (routeSchema platform) route = true) : ∃ id, route.get "id" = .str id := by
  obtain ⟨out, hout⟩ := Option.isSome_iff_exists.1 h
  obtain ⟨fields, hfields, -⟩ := Option.bind_eq_some_iff.1 hout
  have hid : string (route.get "id") = some (fields.get "id") := get_object (nodup_routeFields platform) hfields List.mem_cons_self
  cases hget : route.get "id" with
  | str id => exact ⟨id, rfl⟩
  | _ => rw [hget] at hid; cases hid

/-- The checks of `createRoute` are part of the schema. -/
theorem validated (h : accepts (routeSchema platform) route = true) : validateDomain (route.get "domain") = true ∧
    validatePort (route.get "port") = true ∧ validateUnixPath (route.get "root") = true := by
  obtain ⟨out, hout⟩ := Option.isSome_iff_exists.1 h
  obtain ⟨fields, hfields, -⟩ := Option.bind_eq_some_iff.1 hout
  have hfield (key : String) (s : Zod) (hs : (key, s) ∈ routeFields platform) : accepts s (route.get key) = true := by
    rw [accepts, get_object (nodup_routeFields platform) hfields hs]
    rfl
  exact ⟨hfield "domain" domainSchema (by simp [routeFields]), hfield "port" portSchema (by simp [routeFields]),
    hfield "root" unixPathSchema (by simp [routeFields])⟩

theorem checked_of_accepts {α : Type} {x y : MapUseCase α} (h : accepts (routeSchema platform) route = true) :
    (if (routeSchema platform route).isNone then x else y) = y := by
  rw [if_neg]
  rw [Option.isNone_iff_eq_none]
  intro hnone
  rw [accepts, hnone] at h
  cases h

theorem checked_of_rejects {α : Type} {x y : MapUseCase α} (h : accepts (routeSchema platform) route = false) :
    (if (routeSchema platform route).isNone then x else y) = x := by
  rw [accepts] at h
  rw [if_pos]
  rw [Option.isNone_iff_eq_none, ← Option.not_isSome_iff_eq_none, h]
  exact Bool.false_ne_true

theorem run_found {α : Type} {id : String} (f : Option Js → MapUseCase α) :
    (findById id >>= f) routes = f (routes.find (.str id)) routes := rfl

theorem updateRoute_of_none {id : String} {updates : Js} {now : Int} (hfind : routes.find (.str id) = none) :
    updateRoute platform id updates now routes = (.error (.error "Route not found"), routes) := by
  rw [updateRoute, run_found, hfind]
  rfl

theorem updateRoute_of_accepts {id : String} {updates existing : Js} {now : Int} (hfind : routes.find (.str id) = some existing)
    (h : accepts (routeSchema platform) (updatedRoute existing updates now) = true) :
    updateRoute platform id updates now routes =
      (.ok (), routes.set ((updatedRoute existing updates now).get "id") (updatedRoute existing updates now)) := by
  rw [updateRoute, run_found, hfind]
  exact congrFun (checked_of_accepts h) routes

theorem updateRoute_of_rejects {id : String} {updates existing : Js} {now : Int} (hfind : routes.find (.str id) = some existing)
    (h : accepts (routeSchema platform) (updatedRoute existing updates now) = false) :
    updateRoute platform id updates now routes = (.error .zodError, routes) := by
  rw [updateRoute, run_found, hfind]
  exact congrFun (checked_of_rejects h) routes

theorem createRoute_of_rejects {id : String} {routeData : Js} {createdAt updatedAt : Int}
    (h : accepts (routeSchema platform) (createdRoute id routeData createdAt updatedAt) = false) :
    ∃ e, createRoute platform id routeData createdAt updatedAt routes = (.error e, routes) := by
  rw [createRoute]
  split
  · exact ⟨_, rfl⟩
  · split
    · exact ⟨_, rfl⟩
    · split
      · exact ⟨_, rfl⟩
      · exact ⟨.zodError, congrFun (checked_of_rejects h) routes⟩

/-- What holds of the stored routes whatever the calls are. -/
def Stored (platform : Platform) (routes : JsMap) : Prop := ∀ id route, routes.find (.str id) = some route →
  ofType routeType route = true ∧ accepts (routeSchema platform) route = true

/-- What a form passes to `createRoute`, with a certificate of a route without SSL or without it. -/
def formData (certificate : Js) : Js :=
  .obj [("domain", .str "a.com"), ("port", .num 80), ("root", .str ""), ("enabled", .bool true), ("ssl", .bool false),
    ("ssl_certificate", certificate), ("proxy_pass", .str "http://b:80"), ("locations", .arr [])]

end PlainMap

end NginxAdmin.Web
