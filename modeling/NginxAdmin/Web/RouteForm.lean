import Mathlib.Logic.Function.Iterate
import NginxAdmin.Web.Sanitize

/-!
# The route form (`packages/shared/src/store/slices/routeFormSlice.ts`, `packages/core/src/useCases/routeForm.ts`)

The store keeps the location that is edited by its index, and a deletion moves the locations behind it without the index.
`origins` says which location of the list at the start stands where; `session_editsOnly_iff`: `updateLocation` replaces the
location that the modal was opened for, and changes no other one, exactly when the index still is that of the location.
-/

namespace NginxAdmin.Web

/-- The properties of an object. -/
abbrev Members := List (String × Js)

def validateForm (formData : Members) : Members :=
  let field (key : String) : Js := (Js.obj formData).get key
  (if (field "domain").truthy && validateDomain (field "domain") then [] else [("domain", .str "Invalid domain format")]) ++
  (if (field "port").truthy && validatePort (field "port") then []
    else [("port", .str "Port must be between 1 and 65535")]) ++
  if (field "root").truthy && validateUnixPath (field "root") then [] else [("root", .str "Invalid path format")]

def createLocation (locationData : Members) : Js := Js.spread (.obj [("path", .str "/")]) (.obj locationData)

namespace RouteForm

structure State where
  isEditing : Bool
  formData : Members
  isLocationModalOpen : Bool
  editingLocationIndex : Option Int
  locationFormData : Members
  validationErrors : Members

def initialRouteForm : Members :=
  [("domain", .str ""), ("port", .num 80), ("root", .str "/var/www/html"), ("enabled", .bool true), ("ssl", .bool false),
    ("locations", .arr []),
    ("advanced", .obj [("client_max_body_size", .str "1m"), ("keepalive_timeout", .str "65s"), ("gzip", .bool true),
      ("gzip_types", .str "text/plain text/css application/json"), ("caching", .bool false), ("cache_valid", .str "5m")])]

def initialLocationForm : Members :=
  [("path", .str "/"), ("proxy_pass", .undefined), ("try_files", .undefined), ("index", .str "index.html"),
    ("extra_directives", .str "")]

def State.initial : State :=
  { isEditing := false
    formData := initialRouteForm
    isLocationModalOpen := false
    editingLocationIndex := none
    locationFormData := initialLocationForm
    validationErrors := [] }

/-- `formData.locations`, an array where it is there. -/
def locationsOf (formData : Members) : List Js :=
  match (Js.obj formData).get "locations" with
  | .arr locations => locations
  | _ => []

def State.locations (s : State) : List Js := locationsOf s.formData

/-- `locations[index]` -/
def element (locations : List Js) (index : Int) : Js :=
  if 0 ≤ index then locations.getD index.toNat .undefined else .undefined

/-- Where `splice(index, 1)` starts: a negative index counts from the end. -/
def spliceStart (length : Nat) (index : Int) : Nat := if index < 0 then (length + index).toNat else index.toNat

/-- `splice(index, 1)` -/
def splice {α : Type} (l : List α) (index : Int) : List α := l.eraseIdx (spliceStart l.length index)

/-- `sanitizeForJson({ ...formData, locations })` -/
def withLocations (formData : Members) (locations : List Js) : Members :=
  sanitizeMembers (Js.setMember "locations" (.arr locations) formData)

def setField (field : String) (value : Js) (s : State) : State :=
  { s with
    formData := sanitizeMembers (Js.setMember field value s.formData)
    validationErrors := Js.setMember field (.str "") s.validationErrors }

def setAdvancedField (field : String) (value : Js) (s : State) : State :=
  let advanced := Js.spread ((Js.obj s.formData).get "advanced") (.obj [(field, value)])
  { s with formData := Js.setMember "advanced" (sanitizeForJson advanced) s.formData }

def setLocationField (field : String) (value : Js) (s : State) : State :=
  { s with locationFormData := sanitizeMembers (Js.setMember field value s.locationFormData) }

def openLocationModal (index : Option Int) (s : State) : State :=
  let location := (index.map (element s.locations)).getD .undefined
  { s with
    isLocationModalOpen := true
    editingLocationIndex := index
    locationFormData := if location.truthy then sanitizeMembers location.members else initialLocationForm }

def closeLocationModal (s : State) : State :=
  { s with isLocationModalOpen := false, editingLocationIndex := none, locationFormData := initialLocationForm }

def addLocation (s : State) : State :=
  { s with
    formData := withLocations s.formData (s.locations ++ [createLocation s.locationFormData])
    isLocationModalOpen := false
    locationFormData := initialLocationForm }

/-- The index, if a location stands there. -/
def occupied (s : State) (index : Int) : Option Nat :=
  if (element s.locations index).truthy then some index.toNat else none

/-- The index that `updateLocation` writes to. -/
def target (s : State) : Option Nat := s.editingLocationIndex.bind (occupied s)

/-- The list with another element at an index. -/
def put {α : Type} (position : Option Nat) (x : α) (l : List α) : List α :=
  match position with
  | some k => l.set k x
  | none => l

def updateLocation (s : State) : State :=
  { s with
    formData := withLocations s.formData (put (target s) (createLocation s.locationFormData) s.locations)
    isLocationModalOpen := false
    editingLocationIndex := none
    locationFormData := initialLocationForm }

def deleteLocation (index : Int) (s : State) : State :=
  { s with formData := withLocations s.formData (splice s.locations index) }

def resetForm (s : State) : State := { s with formData := initialRouteForm, isEditing := false, validationErrors := [] }

def setFormData (route : Members) (s : State) : State :=
  { s with formData := sanitizeMembers route, isEditing := ((Js.obj route).get "id").truthy, validationErrors := [] }

def validate (s : State) : Bool × State :=
  let errors := validateForm s.formData
  (errors.isEmpty, { s with validationErrors := errors })

/-! ### A session -/

/-- What may happen between `openLocationModal` and `updateLocation`. -/
inductive SessionAction where
  | setField (field : String) (value : Js) (other : field ≠ "locations")
  | setAdvancedField (field : String) (value : Js)
  | setLocationField (field : String) (value : Js)
  | addLocation
  | deleteLocation (index : Int)

namespace SessionAction

def apply (s : State) : SessionAction → State
  | setField field value _ => RouteForm.setField field value s
  | setAdvancedField field value => RouteForm.setAdvancedField field value s
  | setLocationField field value => RouteForm.setLocationField field value s
  | addLocation => RouteForm.addLocation s
  | deleteLocation index => RouteForm.deleteLocation index s

/-- The origins after an action: a location that is added has none. -/
def origins (l : List (Option Nat)) : SessionAction → List (Option Nat)
  | addLocation => l ++ [none]
  | deleteLocation index => splice l index
  | setField .. | setAdvancedField .. | setLocationField .. => l

end SessionAction

def session (s : State) (actions : List SessionAction) : State := actions.foldl SessionAction.apply s

/-- Of the locations after the actions, the index that each had before. -/
def origins (s : State) (actions : List SessionAction) : List (Option Nat) :=
  actions.foldl SessionAction.origins ((List.range s.locations.length).map some)

/-- Where the location stands after the actions that had this index, if it was there and still is. -/
def followed (s : State) (index : Int) (actions : List SessionAction) : Option Nat :=
  if 0 ≤ index then (origins s actions).idxOf? (some index.toNat) else none

/-- What `updateLocation` stores. -/
def stored (s : State) : Js := sanitizeForJson (createLocation s.locationFormData)

/-- `updateLocation` changes the location at this position and no other one. -/
def EditsOnly (s : State) (position : Option Nat) : Prop :=
  (updateLocation s).locations = put position (stored s) s.locations

instance (s : State) (position : Option Nat) : Decidable (EditsOnly s position) := inferInstanceAs (Decidable (_ = _))

/-- What would be stored stands where it goes, and where it should go. -/
def Idle (s : State) (position : Option Nat) : Prop :=
  (∀ j x, target s = some j → s.locations[j]? = some x → x = stored s) ∧
    ∀ j x, position = some j → s.locations[j]? = some x → sanitizeForJson x = stored s

theorem get_sanitizeMembers {key : String} (hkey : isSensitiveFieldName key = false) (ms : Members) :
    (Js.obj (sanitizeMembers ms)).get key = sanitizeForJson ((Js.obj ms).get key) := by
  have hlookup : (sanitizeMembers ms).lookup key = (ms.lookup key).map sanitizeForJson := by
    induction ms with
    | nil => rfl
    | cons m ms ih =>
      obtain ⟨k, x⟩ := m
      rw [sanitizeMembers, List.lookup_cons]
      by_cases hk : key = k
      · subst hk
        rw [if_neg (by simp [hkey]), List.lookup_cons]
        simp
      · rw [beq_false_of_ne hk]
        split
        · exact ih
        · rw [List.lookup_cons, beq_false_of_ne hk]
          exact ih
  simp only [Js.get, hlookup]
  cases ms.lookup key with
  | none => rfl
  | some x => rfl

theorem sanitizeItems_eq_map (xs : List Js) : sanitizeItems xs = xs.map sanitizeForJson := by
  induction xs with
  | nil => rfl
  | cons x xs ih => rw [sanitizeItems, ih, List.map_cons]

theorem not_sensitive_locations : isSensitiveFieldName "locations" = false := by decide +kernel

theorem locationsOf_sanitizeMembers (ms : Members) : locationsOf (sanitizeMembers ms) = (locationsOf ms).map sanitizeForJson := by
  unfold locationsOf
  rw [get_sanitizeMembers not_sensitive_locations]
  cases (Js.obj ms).get "locations" with
  | arr xs => exact sanitizeItems_eq_map xs
  | undefined | null | bool | num | str | date | obj => rfl

@[simp] theorem locationsOf_withLocations (ms : Members) (xs : List Js) :
    locationsOf (withLocations ms xs) = xs.map sanitizeForJson := by
  rw [withLocations, locationsOf_sanitizeMembers, locationsOf, Js.get_setMember, if_pos rfl]

theorem locationsOf_setMember {field : String} (h : field ≠ "locations") (x : Js) (ms : Members) :
    locationsOf (Js.setMember field x ms) = locationsOf ms := by
  rw [locationsOf, Js.get_setMember, if_neg (Ne.symm h), locationsOf]

theorem locations_updateLocation (s : State) :
    (updateLocation s).locations = (put (target s) (createLocation s.locationFormData) s.locations).map sanitizeForJson :=
  locationsOf_withLocations _ _

/-- The list after an action, before it is sanitised; some actions do not sanitise it. -/
def SessionAction.edit (s : State) : SessionAction → List Js
  | addLocation => s.locations ++ [createLocation s.locationFormData]
  | deleteLocation index => splice s.locations index
  | setField .. | setAdvancedField .. | setLocationField .. => s.locations

theorem SessionAction.locations_apply (a : SessionAction) (s : State) :
    (a.apply s).locations = (a.edit s).map sanitizeForJson ∨ (a.apply s).locations = a.edit s := by
  cases a with
  | setField field value other =>
    left
    show locationsOf (sanitizeMembers (Js.setMember field value s.formData)) = (locationsOf s.formData).map sanitizeForJson
    rw [locationsOf_sanitizeMembers, locationsOf_setMember other]
  | setAdvancedField field value => exact .inr (locationsOf_setMember (by decide) _ _)
  | setLocationField field value => exact .inr rfl
  | addLocation => exact .inl (locationsOf_withLocations _ _)
  | deleteLocation index => exact .inl (locationsOf_withLocations _ _)

/-- An element of the list has this origin: it was there under that index, and has been sanitised a number of times. -/
def Descends (locations : List Js) (origin : Option Nat) (x : Js) : Prop :=
  ∀ k, origin = some k → ∃ y n, locations[k]? = some y ∧ sanitizeForJson^[n] y = x

theorem forall₂_eraseIdx {α β : Type} {R : α → β → Prop} {l : List α} {m : List β} (h : List.Forall₂ R l m) (i : Nat) :
    List.Forall₂ R (l.eraseIdx i) (m.eraseIdx i) := by
  induction h generalizing i with
  | nil => exact .nil
  | cons hab hrest ih =>
    cases i with
    | zero => exact hrest
    | succ i => exact .cons hab (ih i)

theorem forall₂_splice {α β : Type} {R : α → β → Prop} {l : List α} {m : List β} (h : List.Forall₂ R l m) (index : Int) :
    List.Forall₂ R (splice l index) (splice m index) := by
  rw [splice, splice, h.length_eq]
  exact forall₂_eraseIdx h _

theorem SessionAction.descends_edit {locations : List Js} {l : List (Option Nat)} {s : State}
    (h : List.Forall₂ (Descends locations) l s.locations) (a : SessionAction) :
    List.Forall₂ (Descends locations) (a.origins l) (a.edit s) := by
  cases a with
  | setField => exact h
  | setAdvancedField => exact h
  | setLocationField => exact h
  | addLocation => exact List.rel_append h (.cons (fun k hk => by cases hk) .nil)
  | deleteLocation index => exact forall₂_splice h index

theorem SessionAction.descends_apply {locations : List Js} {l : List (Option Nat)} {s : State}
    (h : List.Forall₂ (Descends locations) l s.locations) (a : SessionAction) :
    List.Forall₂ (Descends locations) (a.origins l) (a.apply s).locations := by
  have hedit := a.descends_edit h
  obtain heq | heq := a.locations_apply s
  · rw [heq, List.forall₂_map_right_iff]
    refine hedit.imp fun origin x hx k hk => ?_
    obtain ⟨y, n, hy, hyx⟩ := hx k hk
    exact ⟨y, n + 1, hy, by rw [Function.iterate_succ_apply', hyx]⟩
  · rw [heq]
    exact hedit

/-- The locations after the actions, with their origins. -/
theorem descends_session (s : State) (actions : List SessionAction) :
    List.Forall₂ (Descends s.locations) (origins s actions) (session s actions).locations := by
  have hrun : ∀ (l : List (Option Nat)) (s' : State), List.Forall₂ (Descends s.locations) l s'.locations →
      List.Forall₂ (Descends s.locations) (actions.foldl SessionAction.origins l) (session s' actions).locations := by
    induction actions with
    | nil => exact fun l s' h => h
    | cons a actions ih => exact fun l s' h => ih _ _ (a.descends_apply h)
  refine hrun _ _ (List.forall₂_iff_get.2 ⟨by simp, fun i hi hi' => ?_⟩)
  rintro k hk
  obtain rfl : i = k := by simpa using hk
  exact ⟨_, 0, List.getElem?_eq_getElem hi', rfl⟩

/-! ### The index -/

theorem editingLocationIndex_session (s : State) (actions : List SessionAction) :
    (session s actions).editingLocationIndex = s.editingLocationIndex := by
  have hstep : ∀ (a : SessionAction) (s : State), (a.apply s).editingLocationIndex = s.editingLocationIndex := by
    intro a s
    cases a with
    | setField | setAdvancedField | setLocationField | addLocation | deleteLocation => rfl
  induction actions generalizing s with
  | nil => rfl
  | cons a actions ih => exact (ih _).trans (hstep a s)

theorem getElem?_put {α : Type} (position : Option Nat) (x : α) (l : List α) (j : Nat) :
    (put position x l)[j]? = (l[j]?).map fun y => if position = some j then x else y := by
  cases position with
  | none => simp [put]
  | some k =>
    rw [put, List.getElem?_set]
    by_cases hk : k = j
    · subst hk
      by_cases hlen : k < l.length
      · simp [hlen]
      · simp [hlen]
    · simp [hk]

/-- What the location at an index is after `updateLocation`, and what it should be. -/
theorem editsOnly_iff_forall (s : State) (position : Option Nat) : EditsOnly s position ↔ ∀ j x, s.locations[j]? = some x →
    (if target s = some j then stored s else sanitizeForJson x) = if position = some j then stored s else x := by
  rw [EditsOnly, locations_updateLocation, List.ext_getElem?_iff]
  refine forall_congr' fun j => ?_
  rw [List.getElem?_map, getElem?_put, getElem?_put]
  cases s.locations[j]? with
  | none => simp
  | some x =>
    simp only [Option.map_some, Option.some.injEq, forall_eq']
    rw [apply_ite sanitizeForJson]
    rfl

/-- The location at this position is replaced and no other one is changed exactly when the index is that of the position, or
what is stored shows nowhere, and the other locations are clean. -/
theorem editsOnly_iff (s : State) (position : Option Nat) : EditsOnly s position ↔ (target s = position ∨ Idle s position) ∧
    ∀ j x, target s ≠ some j → position ≠ some j → s.locations[j]? = some x → Clean x := by
  rw [editsOnly_iff_forall]
  constructor
  · intro h
    refine ⟨or_iff_not_imp_left.2 fun hne => ⟨fun j x ht hx => ?_, fun j x hp hx => ?_⟩, fun j x ht hp hx => ?_⟩
    · have hj := h j x hx
      rw [if_pos ht, if_neg fun hp => hne (ht.trans hp.symm)] at hj
      exact hj.symm
    · have hj := h j x hx
      rwa [if_pos hp, if_neg fun ht => hne (ht.trans hp.symm)] at hj
    · have hj := h j x hx
      rwa [if_neg ht, if_neg hp] at hj
  · rintro ⟨hindex, hclean⟩ j x hx
    by_cases ht : target s = some j
    · by_cases hp : position = some j
      · rw [if_pos ht, if_pos hp]
      · have hidle := hindex.resolve_left fun he => hp (he.symm.trans ht)
        rw [if_pos ht, if_neg hp, hidle.1 j x ht hx]
    · by_cases hp : position = some j
      · have hidle := hindex.resolve_left fun he => ht (he.trans hp)
        rw [if_neg ht, if_pos hp, hidle.2 j x hp hx]
      · rw [if_neg ht, if_neg hp]
        exact hclean j x ht hp hx

/-- What stands where the location is followed to is that location, sanitised a number of times. -/
theorem descends_followed {s : State} {index : Int} {actions : List SessionAction} {j : Nat}
    (h : followed s index actions = some j) :
    ∃ y n, s.locations[index.toNat]? = some y ∧ (session s actions).locations[j]? = some (sanitizeForJson^[n] y) := by
  unfold followed at h
  split at h
  · obtain ⟨hlen, horigin, -⟩ := List.idxOf?_eq_some_iff.1 h
    have hdescends := descends_session s actions
    have hlen' : j < (session s actions).locations.length := hdescends.length_eq ▸ hlen
    obtain ⟨y, n, hy, hyx⟩ := hdescends.get hlen hlen' index.toNat (by simpa using horigin)
    exact ⟨y, n, hy, by rw [hyx, List.getElem?_eq_getElem hlen']; rfl⟩
  · cases h

/-- Every deletion is of a location behind this index, or of none. -/
def Spares (k : Nat) : List (Option Nat) → List SessionAction → Prop
  | _, [] => True
  | l, a :: actions => (∀ index, a = .deleteLocation index → k < spliceStart l.length index) ∧ Spares k (a.origins l) actions

theorem followed_of_spares {s : State} {k : Nat} {actions : List SessionAction} (hk : k < s.locations.length)
    (h : Spares k ((List.range s.locations.length).map some) actions) : followed s k actions = some k := by
  -- the origins up to the index stay in front
  have hrun : ∀ l, (List.range (k + 1)).map some <+: l → Spares k l actions →
      (List.range (k + 1)).map some <+: actions.foldl SessionAction.origins l := by
    clear h
    induction actions with
    | nil => exact fun l hl _ => hl
    | cons a actions ih =>
      rintro l ⟨tail, rfl⟩ ⟨hstep, hrest⟩
      refine ih _ ?_ hrest
      cases a with
      | setField | setAdvancedField | setLocationField => exact List.prefix_append _ _
      | addLocation => exact (List.prefix_append _ _).trans (List.prefix_append _ _)
      | deleteLocation index =>
        have hlt := hstep index rfl
        rw [SessionAction.origins, splice, List.eraseIdx_append_of_length_le (by simpa using Nat.succ_le_of_lt hlt)]
        exact List.prefix_append _ _
  obtain ⟨m, hm⟩ := Nat.exists_eq_add_of_le (Nat.succ_le_of_lt hk)
  have hstart : (List.range (k + 1)).map some <+: (List.range s.locations.length).map some := by
    have hrange := List.range_add (n := k + 1) (m := m)
    rw [hm, show k.succ + m = k + 1 + m from rfl, hrange, List.map_append]
    exact List.prefix_append _ _
  obtain ⟨tail, htail⟩ := hrun _ hstart h
  have hindex : (0 : Int) ≤ (k : Int) := Int.natCast_nonneg k
  rw [followed, if_pos hindex, origins, ← htail, List.idxOf?_eq_some_iff]
  refine ⟨by simp; omega, by simp, fun i hi => ?_⟩
  rw [List.getElem_append_left (by simp; omega)]
  simp
  omega

/-- Where no deletion is at the index or before it, the location that the modal was opened for is replaced, and no other one is
changed in which nothing is redacted. -/
theorem editsOnly_of_spares {s : State} {k : Nat} {ms : Members} {actions : List SessionAction}
    (hk : s.locations[k]? = some (.obj ms)) (hindex : s.editingLocationIndex = some k)
    (h : Spares k ((List.range s.locations.length).map some) actions)
    (hclean : ∀ j x, j ≠ k → (session s actions).locations[j]? = some x → Clean x) : EditsOnly (session s actions) (some k) := by
  have hfollowed := followed_of_spares (List.getElem?_eq_some_iff.1 hk).1 h
  obtain ⟨y, n, hy, hx⟩ := descends_followed hfollowed
  obtain rfl : Js.obj ms = y := by
    rw [Int.toNat_natCast, hk] at hy
    exact Option.some.inj hy
  have hobj : ∀ n, ∃ ns, sanitizeForJson^[n] (Js.obj ms) = .obj ns := by
    intro n
    induction n with
    | zero => exact ⟨ms, rfl⟩
    | succ n ih =>
      obtain ⟨ns, hns⟩ := ih
      exact ⟨sanitizeMembers ns, by rw [Function.iterate_succ_apply', hns, sanitizeForJson]⟩
  obtain ⟨ns, hns⟩ := hobj n
  have htarget : target (session s actions) = some k := by
    rw [hns] at hx
    simp [target, editingLocationIndex_session, hindex, occupied, element, List.getD_eq_getElem?_getD, hx, Js.truthy]
  refine (editsOnly_iff _ _).2 ⟨.inl htarget, fun j x hj _ hx => hclean j x ?_ hx⟩
  rintro rfl
  exact hj htarget

/-- In any session, `updateLocation` replaces the location that the modal was opened for and changes no other one exactly when
the location at the index is that one (or there is none, after it was deleted), or what is stored shows nowhere, and nothing in
the other locations is redacted. -/
theorem session_editsOnly_iff (s₀ : State) (index : Int) (actions : List SessionAction) :
    let s := session (openLocationModal (some index) s₀) actions
    let position := followed (openLocationModal (some index) s₀) index actions
    EditsOnly s position ↔ (occupied s index = position ∨ Idle s position) ∧
      ∀ j x, occupied s index ≠ some j → position ≠ some j → s.locations[j]? = some x → Clean x := by
  intro s position
  have htarget : target s = occupied s index := by
    rw [target, editingLocationIndex_session]
    rfl
  rw [editsOnly_iff, htarget]

/-- With an earlier location deleted, the one behind the edited location is replaced. -/
theorem next_location_replaced :
    let locations := [Js.obj [("path", .str "/a")], .obj [("path", .str "/b")], .obj [("path", .str "/c")]]
    let s₀ := openLocationModal (some 1) (setFormData [("locations", .arr locations)] .initial)
    let s := session s₀ [.deleteLocation 0]
    followed s₀ 1 [.deleteLocation 0] = some 0 ∧ ¬ EditsOnly s (some 0) ∧
      (updateLocation s).locations = [.obj [("path", .str "/b")], .obj [("path", .str "/b")]] := by
  intro locations s₀ s
  decide +kernel

end RouteForm

end NginxAdmin.Web
