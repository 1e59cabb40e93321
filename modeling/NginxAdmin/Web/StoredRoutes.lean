import NginxAdmin.Lib.JsPlain
import NginxAdmin.Web.DateTexts
import NginxAdmin.Web.NormalForms
import NginxAdmin.Web.Sanitize

/-!
# `BrowserLocalStorageRouteRepository` as a map

Every operation of the repository reads the whole collection, changes it and writes it again, with the dates of the metadata as
texts and through the sanitizer. `refines_map`: on routes that the sanitizer leaves alone, and with valid dates, the
operations are those of a map from ids to routes.
-/

namespace NginxAdmin.Web.BrowserLocalStorageRouteRepository

open Js

/-- The time of a valid date. -/
def ValidTime (t : Int) : Prop := -8640000000000000 ≤ t ∧ t ≤ 8640000000000000

/-- The metadata of a route: two valid dates, and plain values besides. -/
structure StorableMetadata (metadata : Js) : Prop where
  object : ∃ ms, metadata = .obj ms ∧ (ms.map Prod.fst).Nodup
  createdAt : ∃ t, metadata.get "createdAt" = .date (some t) ∧ ValidTime t
  updatedAt : ∃ t, metadata.get "updatedAt" = .date (some t) ∧ ValidTime t
  others : ∀ key, key ≠ "createdAt" → key ≠ "updatedAt" → PlainProperty (metadata.get key)

/-- A route that the sanitizer leaves alone, with valid dates. -/
structure Storable (route : Js) : Prop where
  object : ∃ ms, route = .obj ms ∧ (ms.map Prod.fst).Nodup
  id : ∃ s, route.get "id" = .str s
  clean : Clean route
  metadata : route.get "metadata" = .undefined ∨ StorableMetadata (route.get "metadata")
  others : ∀ key, key ≠ "metadata" → PlainProperty (route.get key)

theorem plainType_location : PlainType (ofType locationType) := by
  refine plainType_ofType fun p hp => ?_
  simp only [locationType, List.mem_cons, List.not_mem_nil, or_false] at hp
  rcases hp with rfl | rfl | rfl | rfl | rfl <;> exact plainType_string

theorem plainType_advanced : PlainType (ofType advancedType) := by
  refine plainType_ofType fun p hp => ?_
  simp only [advancedType, List.mem_cons, List.not_mem_nil, or_false] at hp
  rcases hp with rfl | rfl | rfl | rfl | rfl | rfl
  · exact plainType_string
  · exact plainType_string
  · exact plainType_boolean
  · exact plainType_string
  · exact plainType_boolean
  · exact plainType_string

theorem storableMetadata_of_type {metadata : Js} (htype : ofType metadataType metadata = true) (ho : once metadata = true)
    (hcreated : ∃ t, metadata.get "createdAt" = .date (some t) ∧ ValidTime t)
    (hupdated : ∃ t, metadata.get "updatedAt" = .date (some t) ∧ ValidTime t) : StorableMetadata metadata := by
  obtain ⟨ms, rfl⟩ := obj_of_ofType htype
  refine ⟨⟨ms, rfl, nodup_of_once ho⟩, hcreated, hupdated, fun key hc hu => ?_⟩
  refine plainProperty_of_property (property_get htype key) (fun p hp hkey => ?_) (once_get ho key)
  simp only [metadataType, List.mem_cons, List.not_mem_nil, or_false] at hp
  rcases hp with rfl | rfl | rfl | rfl
  · exact absurd hkey.symm hc
  · exact absurd hkey.symm hu
  · exact plainType_string
  · exact plainType_string.arrayOf

/-- A value of the type `Route` comes back when its texts and its dates do. -/
theorem storable_of_type {route : Js} (htype : ofType routeType route = true) (ho : once route = true)
    (hid : route.get "id" ≠ .undefined) (hclean : Clean route)
    (hdates : route.get "metadata" = .undefined ∨
      (∃ t, (route.get "metadata").get "createdAt" = .date (some t) ∧ ValidTime t) ∧
      ∃ t, (route.get "metadata").get "updatedAt" = .date (some t) ∧ ValidTime t) : Storable route := by
  have hproperty := property_get htype
  obtain ⟨ms, rfl⟩ := obj_of_ofType htype
  refine ⟨⟨ms, rfl, nodup_of_once ho⟩, ?_, hclean, ?_, fun key hkey => ?_⟩
  · have hstring : isString (Js.get (.obj ms) "id") = true := (undefined_or_of_property (hproperty "id")).resolve_left hid
    cases hs : Js.get (.obj ms) "id" with
    | str s => exact ⟨s, rfl⟩
    | _ =>
      rw [hs] at hstring
      cases hstring
  · refine (em (Js.get (.obj ms) "metadata" = .undefined)).imp_right fun hn => ?_
    obtain ⟨hcreated, hupdated⟩ := hdates.resolve_left hn
    have hmetadata := (undefined_or_of_property (hproperty "metadata")).resolve_left hn
    exact storableMetadata_of_type hmetadata (once_get ho _) hcreated hupdated
  · refine plainProperty_of_property (hproperty key) (fun p hp hp' => ?_) (once_get ho key)
    simp only [routeType, List.mem_cons, List.not_mem_nil, or_false] at hp
    rcases hp with rfl | rfl | rfl | rfl | rfl | rfl | rfl | rfl | rfl | rfl | rfl | rfl
    · exact plainType_string
    · exact plainType_string
    · exact plainType_number
    · exact plainType_string
    · exact plainType_boolean
    · exact plainType_boolean
    · exact plainType_string
    · exact plainType_string
    · exact plainType_string
    · exact plainType_location.arrayOf
    · exact plainType_advanced
    · exact absurd hp'.symm hkey

mutual

theorem clean_json {dates : Js.Dates} (hdates : ∀ t, Clean (.str (dates.toISOString t))) {a b : Js} (h : Clean a)
    (hb : json dates a = some b) : Clean b := by
  cases a with
  | undefined => cases hb
  | date t =>
    cases t with
    | none =>
      cases hb
      rfl
    | some t =>
      cases hb
      exact hdates t
  | arr xs =>
    cases hb
    exact clean_arr.2 (clean_jsonItems hdates (clean_arr.1 h))
  | obj ms =>
    cases hb
    exact clean_obj.2 (clean_jsonMembers hdates (clean_obj.1 h))
  | _ =>
    cases hb
    exact h

theorem clean_jsonItems {dates : Js.Dates} (hdates : ∀ t, Clean (.str (dates.toISOString t))) {xs : List Js}
    (h : ∀ x ∈ xs, Clean x) : ∀ y ∈ jsonItems dates xs, Clean y := by
  cases xs with
  | nil => exact List.forall_mem_nil _
  | cons x xs =>
    rw [List.forall_mem_cons] at h
    rw [jsonItems, List.forall_mem_cons]
    refine ⟨?_, clean_jsonItems hdates h.2⟩
    cases hx : json dates x with
    | none => rfl
    | some y => exact clean_json hdates h.1 hx

theorem clean_jsonMembers {dates : Js.Dates} (hdates : ∀ t, Clean (.str (dates.toISOString t))) {ms : List (String × Js)}
    (h : ∀ m ∈ ms, isSensitiveFieldName m.1 = false ∧ Clean m.2) :
    ∀ m ∈ jsonMembers dates ms, isSensitiveFieldName m.1 = false ∧ Clean m.2 := by
  cases ms with
  | nil => exact List.forall_mem_nil _
  | cons m ms =>
    obtain ⟨k, x⟩ := m
    rw [List.forall_mem_cons] at h
    rw [jsonMembers]
    cases hx : json dates x with
    | none => exact clean_jsonMembers hdates h.2
    | some y => exact List.forall_mem_cons.2 ⟨⟨h.1.1, clean_json hdates h.1.2 hx⟩, clean_jsonMembers hdates h.2⟩

end

theorem clean_setMember {key : String} {x : Js} {ms : List (String × Js)} (h : Clean (.obj ms))
    (hkey : isSensitiveFieldName key = false) (hx : Clean x) : Clean (.obj (setMember key x ms)) := by
  refine clean_obj.2 fun m hm => ?_
  rcases mem_setMember hm with rfl | hm
  · exact ⟨hkey, hx⟩
  · exact clean_obj.1 h m hm

theorem isSensitiveFieldName_dates : isSensitiveFieldName "metadata" = false ∧ isSensitiveFieldName "createdAt" = false ∧
    isSensitiveFieldName "updatedAt" = false := by decide +kernel

theorem clean_get {ms : List (String × Js)} (h : Clean (.obj ms)) (key : String) : Clean (Js.get (.obj ms) key) := by
  rcases get_eq_undefined_or_mem ms key with hu | hmem
  · rw [hu]
    rfl
  · exact (clean_obj.1 h _ hmem).2

/-- The members with other dates. -/
def dated (createdAt updatedAt : Js) (ms : List (String × Js)) : List (String × Js) :=
  setMember "updatedAt" updatedAt (setMember "createdAt" createdAt ms)

section

variable {c u : Js} {ms : List (String × Js)}

theorem get_dated (key : String) : Js.get (.obj (dated c u ms)) key =
    if key = "updatedAt" then u else if key = "createdAt" then c else Js.get (.obj ms) key := by
  rw [dated, get_setMember, get_setMember]

theorem get_dated_other {key : String} (hc : key ≠ "createdAt") (hu : key ≠ "updatedAt") :
    Js.get (.obj (dated c u ms)) key = Js.get (.obj ms) key := by
  rw [get_dated, if_neg hu, if_neg hc]

theorem nodup_dated (h : (ms.map Prod.fst).Nodup) : ((dated c u ms).map Prod.fst).Nodup :=
  nodup_setMember (nodup_setMember h)

theorem clean_dated (h : Clean (.obj ms)) (hc : Clean c) (hu : Clean u) : Clean (.obj (dated c u ms)) :=
  clean_setMember (clean_setMember h isSensitiveFieldName_dates.2.1 hc) isSensitiveFieldName_dates.2.2 hu

/-- Plain members are metadata with valid dates, and equal to any metadata with these dates and equal members. -/
theorem storable_dated {t t' : Int} (ht : ValidTime t) (ht' : ValidTime t') (hd : (ms.map Prod.fst).Nodup)
    (hothers : ∀ key, key ≠ "createdAt" → key ≠ "updatedAt" → PlainProperty (Js.get (.obj ms) key)) :
    StorableMetadata (.obj (dated (.date (some t)) (.date (some t')) ms)) := by
  refine ⟨⟨_, rfl, nodup_dated hd⟩, ⟨t, get_dated _, ht⟩, ⟨t', get_dated _, ht'⟩, fun key hc hu => ?_⟩
  rw [get_dated_other hc hu]
  exact hothers key hc hu

theorem same_dated {ns : List (String × Js)} (hc : c = Js.get (.obj ns) "createdAt") (hu : u = Js.get (.obj ns) "updatedAt")
    (hothers : ∀ key, key ≠ "createdAt" → key ≠ "updatedAt" → Same (Js.get (.obj ms) key) (Js.get (.obj ns) key)) :
    Same (.obj (dated c u ms)) (.obj ns) := by
  refine .obj fun key => ?_
  rw [get_dated]
  split
  next hkey => exact hkey ▸ hu ▸ .refl _
  next hkey =>
    split
    next hkey' => exact hkey' ▸ hc ▸ .refl _
    next hkey' => exact hothers key hkey' hkey

end

/-! ### One route -/

/-- An object that has the properties of a route as they come back is such a route, with metadata that are the same. -/
theorem storable_setMember (dates : Js.Dates) {ms ns : List (String × Js)} {a : Js} (h : Storable (.obj ms))
    (hd : (ns.map Prod.fst).Nodup) (hclean : Clean (.obj ns))
    (hget : ∀ key, key ≠ "metadata" → Js.get (.obj ns) key = back dates (Js.get (.obj ms) key))
    (ha : a = .undefined ∨ StorableMetadata a) (hcleana : Clean a) (hsame : Same a (Js.get (.obj ms) "metadata")) :
    Storable (.obj (setMember "metadata" a ns)) ∧ Same (.obj (setMember "metadata" a ns)) (.obj ms) := by
  have hmetadata : Js.get (.obj (setMember "metadata" a ns)) "metadata" = a := by rw [get_setMember, if_pos rfl]
  have hother : ∀ key, key ≠ "metadata" →
      Js.get (.obj (setMember "metadata" a ns)) key = back dates (Js.get (.obj ms) key) := fun key hkey => by
    rw [get_setMember, if_neg hkey, hget key hkey]
  obtain ⟨s, hs⟩ := h.id
  refine ⟨⟨⟨_, rfl, nodup_setMember hd⟩, ⟨s, ?_⟩, clean_setMember hclean isSensitiveFieldName_dates.1 hcleana, ?_,
    fun key hkey => ?_⟩, .obj fun key => ?_⟩
  · rw [hother "id" (by decide), hs]
    rfl
  · rw [hmetadata]
    exact ha
  · rw [hother key hkey]
    exact (h.others key hkey).back.1
  · by_cases hkey : key = "metadata"
    · rw [hkey, hmetadata]
      exact hsame
    · rw [hother key hkey]
      exact (h.others key hkey).back.2

section

variable {browser : Browser} (hiso : browser.dates.toISOString = Js.Dates.iso.toISOString)

include hiso

theorem clean_toISOString (t : Int) : Clean (.str (browser.dates.toISOString t)) := by
  rw [hiso, Clean, sanitizeForJson, redact_toISOString]

theorem dateFrom_toISOString {t : Int} (h : ValidTime t) (now : Int) :
    dateFrom browser now (.str (browser.dates.toISOString t)) = .date (some t) := by
  have htruthy : (Js.str (browser.dates.toISOString t)).truthy = true := by
    rw [hiso]
    exact decide_eq_true (toISOString_ne t)
  rw [dateFrom, if_pos htruthy]
  exact congrArg Js.date (browser.dates.parse_toISOString t h.1 h.2)

/-- The metadata are written with texts for the dates, and read with the dates of the texts. -/
theorem metadata_back {metadata : Js} (h : StorableMetadata metadata) (hclean : Clean metadata) : ∃ c u ns,
    isoOf browser.dates (metadata.get "createdAt") = some c ∧ isoOf browser.dates (metadata.get "updatedAt") = some u ∧
    Clean (metadata.spread (.obj [("createdAt", c), ("updatedAt", u)])) ∧
    json browser.dates (metadata.spread (.obj [("createdAt", c), ("updatedAt", u)])) = some (.obj ns) ∧
    ∀ now, ∃ a, (Js.obj ns).spread (.obj [("createdAt", dateFrom browser now (Js.get (.obj ns) "createdAt")),
      ("updatedAt", dateFrom browser now (Js.get (.obj ns) "updatedAt"))]) = a ∧
      StorableMetadata a ∧ Clean a ∧ Same a metadata := by
  obtain ⟨⟨ms, rfl, hd⟩, ⟨t, ht, hvalid⟩, ⟨t', ht', hvalid'⟩, hothers⟩ := h
  have hc := clean_toISOString hiso
  let c := Js.str (browser.dates.toISOString t)
  let u := Js.str (browser.dates.toISOString t')
  have hclean' : Clean (.obj (dated c u ms)) := clean_dated hclean (hc t) (hc t')
  -- what is read
  let ns := jsonMembers browser.dates (dated c u ms)
  have hget : ∀ key, Js.get (.obj ns) key = back browser.dates (Js.get (.obj (dated c u ms)) key) :=
    get_jsonMembers (nodup_dated hd)
  have hcreated : Js.get (.obj ns) "createdAt" = c := by
    rw [hget, get_dated]
    rfl
  have hupdated : Js.get (.obj ns) "updatedAt" = u := by
    rw [hget, get_dated]
    rfl
  have hback : ∀ key, key ≠ "createdAt" → key ≠ "updatedAt" → PlainProperty (Js.get (.obj ns) key) ∧
      Same (Js.get (.obj ns) key) (Js.get (.obj ms) key) := by
    intro key hk hu
    rw [hget, get_dated_other hk hu]
    exact (hothers key hk hu).back
  refine ⟨c, u, ns, by rw [ht]; rfl, by rw [ht']; rfl, hclean', rfl, fun now =>
    ⟨.obj (dated (.date (some t)) (.date (some t')) ns), ?_, ?_, clean_dated (clean_json hc hclean' rfl) rfl rfl, ?_⟩⟩
  · rw [hcreated, hupdated, dateFrom_toISOString hiso hvalid, dateFrom_toISOString hiso hvalid']
    rfl
  · exact storable_dated hvalid hvalid' (nodup_jsonMembers (nodup_dated hd)) fun key hk hu => (hback key hk hu).1
  · exact same_dated ht.symm ht'.symm fun key hk hu => (hback key hk hu).2

/-- A route is written, and read as the same route. -/
theorem route_back {route : Js} (h : Storable route) : ∃ p q, toPersistedRoute browser.dates route = some p ∧ Clean p ∧
    json browser.dates p = some q ∧
    ∀ now, ∃ r, fromPersistedRoute browser now q = some r ∧ Storable r ∧ Same r route := by
  obtain ⟨ms, rfl, hd⟩ := h.object
  have hc := clean_toISOString hiso
  have hkey := isSensitiveFieldName_dates.1
  -- whatever is written for the metadata
  have hwritten : ∀ a, ∀ key, Js.get (.obj (jsonMembers browser.dates (setMember "metadata" a ms))) key =
      back browser.dates (if key = "metadata" then a else Js.get (.obj ms) key) := fun a key => by
    rw [get_jsonMembers (nodup_setMember hd), get_setMember]
  have hread : ∀ {a b : Js}, Clean a → (b = .undefined ∨ StorableMetadata b) → Clean b →
      Same b (Js.get (.obj ms) "metadata") → Storable (.obj (setMember "metadata" b
        (jsonMembers browser.dates (setMember "metadata" a ms)))) ∧
      Same (.obj (setMember "metadata" b (jsonMembers browser.dates (setMember "metadata" a ms)))) (.obj ms) := by
    intro a b ha hb hcleanb hsame
    refine storable_setMember browser.dates h (nodup_jsonMembers (nodup_setMember hd))
      (clean_json hc (clean_setMember h.clean hkey ha) rfl) (fun key hkey => ?_) hb hcleanb hsame
    rw [hwritten, if_neg hkey]
  rcases h.metadata with hnone | hsome
  · refine ⟨.obj (setMember "metadata" .undefined ms), _, ?_, clean_setMember h.clean hkey rfl, rfl, fun now => ?_⟩
    · rw [toPersistedRoute, hnone]
      rfl
    · have hmetadata : Js.get (.obj (jsonMembers browser.dates (setMember "metadata" .undefined ms))) "metadata" =
          .undefined := hwritten _ _
      have hr := hread (a := .undefined) (b := .undefined) rfl (.inl rfl) rfl (hnone ▸ .refl _)
      refine ⟨_, ?_, hr⟩
      rw [fromPersistedRoute, if_neg (by simp), hmetadata]
      rfl
  · obtain ⟨c, u, ns, hcreated, hupdated, hclean, hjson, hback⟩ := metadata_back hiso hsome (clean_get h.clean _)
    let a := (Js.get (.obj ms) "metadata").spread (.obj [("createdAt", c), ("updatedAt", u)])
    have hobject : (Js.get (.obj ms) "metadata").truthy = true := by
      obtain ⟨ms', hms', -⟩ := hsome.object
      rw [hms']
      rfl
    refine ⟨.obj (setMember "metadata" a ms), _, ?_, clean_setMember h.clean hkey hclean, rfl, fun now => ?_⟩
    · simp only [toPersistedRoute, if_pos hobject, hcreated, hupdated]
      rfl
    · have hmetadata : Js.get (.obj (jsonMembers browser.dates (setMember "metadata" a ms))) "metadata" = .obj ns := by
        rw [hwritten, if_pos rfl, back, hjson]
        rfl
      obtain ⟨b, hb, hstorable, hcleanb, hsame⟩ := hback now
      have hr := hread hclean (.inr hstorable) hcleanb hsame
      refine ⟨_, ?_, hr⟩
      rw [fromPersistedRoute, if_neg (by simp), hmetadata, ← hb]
      rfl

theorem mapM_back {routes : List Js} (h : ∀ r ∈ routes, Storable r) : ∃ ps, routes.mapM (toPersistedRoute browser.dates) = some ps ∧
    (∀ p ∈ ps, Clean p) ∧ ∀ now, ∃ rs, (jsonItems browser.dates ps).mapM (fromPersistedRoute browser now) = some rs ∧
      List.Forall₂ (fun a b => Storable a ∧ Same a b) rs routes := by
  induction routes with
  | nil => exact ⟨[], rfl, List.forall_mem_nil _, fun now => ⟨[], rfl, .nil⟩⟩
  | cons r routes ih =>
    rw [List.forall_mem_cons] at h
    obtain ⟨p, q, hp, hclean, hq, hback⟩ := route_back hiso h.1
    obtain ⟨ps, hps, hcleans, hbacks⟩ := ih h.2
    refine ⟨p :: ps, ?_, List.forall_mem_cons.2 ⟨hclean, hcleans⟩, fun now => ?_⟩
    · rw [List.mapM_cons, hp, hps]
      rfl
    · obtain ⟨a, ha, hsame⟩ := hback now
      obtain ⟨rs, hrs, hsames⟩ := hbacks now
      refine ⟨a :: rs, ?_, .cons hsame hsames⟩
      rw [jsonItems, hq, List.mapM_cons, Option.getD_some, ha, hrs]
      rfl

/-- A collection of routes is written, and read as the same routes. -/
theorem persist_back {routes : List Js} (h : ∀ r ∈ routes, Storable r) : ∃ item, persist browser.dates routes = some item ∧
    ∀ now, List.Forall₂ (fun a b => Storable a ∧ Same a b) (findAll browser now item) routes := by
  obtain ⟨ps, hps, hclean, hback⟩ := mapM_back hiso h
  refine ⟨stored browser.dates ps, by rw [persist, hps]; rfl, fun now => ?_⟩
  obtain ⟨rs, hrs, hsame⟩ := hback now
  have hitems : sanitizeItems ps = ps := Js.arr.inj (clean_arr.2 hclean)
  show List.Forall₂ _ (((jsonItems browser.dates (sanitizeItems ps)).mapM (fromPersistedRoute browser now)).getD []) _
  rw [hitems, hrs]
  exact hsame

end

/-! ### The map -/

/-- A route that is read, and the entry that it stands for. -/
structure Entry (r : Js) (e : Js × Js) : Prop where
  key : e.1 = r.get "id"
  storable : Storable r
  same : Same r e.2

/-- Whenever it is read, the item has the routes of the map. -/
structure Represents (browser : Browser) (item : Item) (m : JsMap) : Prop where
  distinct : m.Distinct
  routes : ∀ now, List.Forall₂ Entry (findAll browser now item) m

section

variable {browser : Browser} {item : Item} {m : JsMap}

theorem Entry.of_same {a r : Js} {e : Js × Js} (h : Entry r e) (ha : Storable a) (hsame : Same a r) : Entry a e := by
  obtain ⟨s, hs⟩ := h.storable.id
  have hid := hsame.get "id"
  rw [hs] at hid
  exact ⟨by rw [h.key, hs, hid.eq_of_str], ha, hsame.trans h.same⟩

theorem entries_of_back {as rs : List Js} (h : List.Forall₂ (fun a r => Storable a ∧ Same a r) as rs)
    (hm : List.Forall₂ Entry rs m) : List.Forall₂ Entry as m := by
  induction h generalizing m with
  | nil => exact hm
  | cons har _ ih =>
    cases hm with
    | cons he hm => exact .cons (he.of_same har.1 har.2) (ih hm)

theorem storable_of_entries {rs : List Js} (h : List.Forall₂ Entry rs m) : ∀ r ∈ rs, Storable r := by
  induction h with
  | nil => exact List.forall_mem_nil _
  | cons he _ ih => exact List.forall_mem_cons.2 ⟨he.storable, ih⟩

/-- What is persisted represents the map whose entries it has. -/
theorem represents_persist (hiso : browser.dates.toISOString = Js.Dates.iso.toISOString) {rs : List Js}
    (hd : m.Distinct) (h : List.Forall₂ Entry rs m) :
    ∃ item, persist browser.dates rs = some item ∧ Represents browser item m := by
  obtain ⟨item, hitem, hback⟩ := persist_back hiso (storable_of_entries h)
  exact ⟨item, hitem, hd, fun now => entries_of_back (hback now) h⟩

/-- The entries of the map that is loaded. -/
theorem entries_loadAll (h : Represents browser item m) (now : Int) :
    loadAll browser now item = (findAll browser now item).map (fun r => (r.get "id", r)) ∧
    List.Forall₂ (fun e f => e.1 = f.1 ∧ Entry e.2 f) (loadAll browser now item) m := by
  have hentries : List.Forall₂ (fun e f : Js × Js => e.1 = f.1 ∧ Entry e.2 f)
      ((findAll browser now item).map fun r => (r.get "id", r)) m :=
    List.forall₂_map_left_iff.2 ((h.routes now).imp fun r e he => ⟨he.key.symm, he⟩)
  have hkeys : ((findAll browser now item).map fun r => (r.get "id", r)).map Prod.fst = m.map Prod.fst := by
    rw [← List.forall₂_eq_eq_eq, List.forall₂_map_left_iff, List.forall₂_map_right_iff]
    exact hentries.imp fun e f hef => hef.1
  have hload : loadAll browser now item = (findAll browser now item).map fun r => (r.get "id", r) :=
    JsMap.ofEntries_of_distinct (JsMap.distinct_of_keys h.distinct hkeys)
  exact ⟨hload, hload ▸ hentries⟩

theorem find_loadAll (h : Represents browser item m) (now : Int) (id : String) :
    (loadAll browser now item).find (.str id) = findById browser now item id := by
  rw [(entries_loadAll h now).1, findById]
  induction findAll browser now item with
  | nil => rfl
  | cons r rs ih =>
    rw [List.map_cons, JsMap.find_cons, ih]
    by_cases hr : r.get "id" = .str id
    · rw [if_pos (JsMap.sameKey_str.2 hr), List.find?_cons_of_pos (by simpa using hr)]
    · rw [if_neg (fun hs => hr (JsMap.sameKey_str.1 hs)), List.find?_cons_of_neg (by simpa using hr)]

end

/-- The operations that write. -/
inductive Change where
  | save (route : Js)
  | delete (id : String)
  | saveAll (routes : JsMap)

namespace Change

/-- What the operation leaves in the storage, at the time `now`. -/
def perform (browser : Browser) (now : Int) (item : Item) : Change → Option Item
  | save route => BrowserLocalStorageRouteRepository.save browser now item route
  | delete id => BrowserLocalStorageRouteRepository.delete browser now item id
  | saveAll routes => BrowserLocalStorageRouteRepository.saveAll browser.dates routes

/-- What it does to a map. -/
def apply (m : JsMap) : Change → JsMap
  | save route => m.set (route.get "id") route
  | delete id => m.delete (.str id)
  | saveAll routes => routes

/-- The routes come back, and a map has each under its id. -/
def Admissible : Change → Prop
  | save route => Storable route
  | delete _ => True
  | saveAll routes => routes.Distinct ∧ ∀ e ∈ routes, e.1 = e.2.get "id" ∧ Storable e.2

end Change

section

variable {browser : Browser} {item : Item} {m : JsMap}

theorem entry_self {route : Js} (h : Storable route) : Entry route (route.get "id", route) := ⟨rfl, h, .refl _⟩

theorem represents_save (hiso : browser.dates.toISOString = Js.Dates.iso.toISOString) (h : Represents browser item m)
    (now : Int) {route : Js} (hroute : Storable route) :
    ∃ item', save browser now item route = some item' ∧ Represents browser item' (m.set (route.get "id") route) := by
  obtain ⟨s, hs⟩ := hroute.id
  obtain ⟨-, hentries⟩ := entries_loadAll h now
  have hself := entry_self hroute
  rw [hs] at hself ⊢
  have hset := JsMap.forall₂_set hentries (fun e f hef => hef.1) (s := s) (x := route) (y := route) ⟨rfl, hself⟩
  have hvalues : List.Forall₂ Entry ((loadAll browser now item).set (.str s) route).values (m.set (.str s) route) :=
    List.forall₂_map_left_iff.2 (hset.imp fun e f hef => hef.2)
  obtain ⟨item', hitem', hrep⟩ := represents_persist hiso (h.distinct.set _ _) hvalues
  refine ⟨item', ?_, hrep⟩
  rw [save, hs]
  exact hitem'

theorem represents_delete (hiso : browser.dates.toISOString = Js.Dates.iso.toISOString) (h : Represents browser item m)
    (now : Int) (id : String) :
    ∃ item', delete browser now item id = some item' ∧ Represents browser item' (m.delete (.str id)) := by
  refine represents_persist hiso (h.distinct.delete _) (List.rel_filter ?_ (h.routes now))
  intro r e he
  have hkey : JsMap.sameKey e.1 (.str id) = true ↔ r.get "id" = .str id := by
    rw [he.key]
    exact JsMap.sameKey_str
  simp [← hkey]

theorem represents_saveAll (hiso : browser.dates.toISOString = Js.Dates.iso.toISOString) {routes : JsMap}
    (hd : routes.Distinct) (hroutes : ∀ e ∈ routes, e.1 = e.2.get "id" ∧ Storable e.2) :
    ∃ item', saveAll browser.dates routes = some item' ∧ Represents browser item' routes := by
  refine represents_persist hiso hd (List.forall₂_map_left_iff.2 (List.forall₂_same.2 fun e he => ?_))
  obtain ⟨hkey, hstorable⟩ := hroutes e he
  exact ⟨hkey, hstorable, .refl _⟩

/-- An operation on the item is the operation on the map. -/
theorem represents_perform (hiso : browser.dates.toISOString = Js.Dates.iso.toISOString) (h : Represents browser item m)
    (now : Int) {c : Change} (hc : c.Admissible) :
    ∃ item', c.perform browser now item = some item' ∧ Represents browser item' (c.apply m) := by
  cases c with
  | save route => exact represents_save hiso h now hc
  | delete id => exact represents_delete hiso h now id
  | saveAll routes => exact represents_saveAll hiso hc.1 hc.2

/-- Operations one after another, each with its time; `none` when one of them throws. -/
def run (browser : Browser) (item : Item) (changes : List (Change × Int)) : Option Item :=
  changes.foldlM (fun item c => c.1.perform browser c.2 item) item

/-- The map after the operations. -/
def map (m : JsMap) (changes : List (Change × Int)) : JsMap := changes.foldl (fun m c => c.1.apply m) m

theorem represents_run (hiso : browser.dates.toISOString = Js.Dates.iso.toISOString) (h : Represents browser item m)
    {changes : List (Change × Int)} (hc : ∀ c ∈ changes, c.1.Admissible) :
    ∃ item', run browser item changes = some item' ∧ Represents browser item' (map m changes) := by
  induction changes generalizing item m with
  | nil => exact ⟨item, rfl, h⟩
  | cons c changes ih =>
    rw [List.forall_mem_cons] at hc
    obtain ⟨item₁, hitem₁, h₁⟩ := represents_perform hiso h c.2 hc.1
    obtain ⟨item₂, hitem₂, h₂⟩ := ih h₁ hc.2
    refine ⟨item₂, ?_, h₂⟩
    rw [run, List.foldlM_cons, hitem₁]
    exact hitem₂

theorem rel_find {P : Js → Js → Prop} {m m' : JsMap} (h : List.Forall₂ (fun e f => e.1 = f.1 ∧ P e.2 f.2) m m') (key : Js) :
    Option.Rel P (m.find key) (m'.find key) := by
  induction h with
  | nil => exact .none
  | cons hef _ ih =>
    rw [JsMap.find_cons, JsMap.find_cons, hef.1]
    split
    · exact .some hef.2
    · exact ih

/-- After any operations the repository has the routes of the map: in the order of the map, each under its id, with equal
dates and equal properties. -/
theorem refines_map (hiso : browser.dates.toISOString = Js.Dates.iso.toISOString) {changes : List (Change × Int)}
    (hc : ∀ c ∈ changes, c.1.Admissible) : ∃ item, run browser .absent changes = some item ∧ ∀ now,
      List.Forall₂ Same (findAll browser now item) (map [] changes).values ∧
      (∀ id, Option.Rel Same (findById browser now item id) ((map [] changes).find (.str id))) ∧
      List.Forall₂ (fun e f => e.1 = f.1 ∧ Same e.2 f.2) (loadAll browser now item) (map [] changes) := by
  have hstart : Represents browser .absent [] := ⟨.nil, fun _ => .nil⟩
  obtain ⟨item, hitem, h⟩ := represents_run hiso hstart hc
  refine ⟨item, hitem, fun now => ?_⟩
  have hload : List.Forall₂ (fun e f : Js × Js => e.1 = f.1 ∧ Same e.2 f.2) (loadAll browser now item) (map [] changes) :=
    (entries_loadAll h now).2.imp fun e f hef => ⟨hef.1, hef.2.same⟩
  refine ⟨List.forall₂_map_right_iff.2 ((h.routes now).imp fun r e he => he.same), fun id => ?_, hload⟩
  rw [← find_loadAll h now id]
  exact rel_find hload _

theorem storable_plainRoute {id : String} {enabled : Bool}
    (h : sanitizeForJson (plainRoute id enabled) = plainRoute id enabled) :
    Storable (plainRoute id enabled) := by
  have hdate : ∃ t : Int, Js.date (some 0) = .date (some t) ∧ ValidTime t := ⟨0, rfl, by decide, by decide⟩
  exact storable_of_type rfl rfl Js.noConfusion h (.inr ⟨hdate, hdate⟩)

/-- A route is saved, saved again and deleted, beside another one. -/
theorem refines_map_plain : ∃ item, run Browser.plain .absent [(.save (plainRoute "a" true), 0), (.save (plainRoute "b" true), 1),
    (.save (plainRoute "a" false), 2), (.delete "b", 3)] = some item ∧ ∀ now,
      List.Forall₂ Same (findAll Browser.plain now item) [plainRoute "a" false] ∧
      (∀ id, Option.Rel Same (findById Browser.plain now item id) (JsMap.find [(.str "a", plainRoute "a" false)] (.str id))) ∧
      List.Forall₂ (fun e f => e.1 = f.1 ∧ Same e.2 f.2) (loadAll Browser.plain now item)
        [(.str "a", plainRoute "a" false)] := by
  have ha : Storable (plainRoute "a" true) := storable_plainRoute (by decide +kernel)
  have hb : Storable (plainRoute "b" true) := storable_plainRoute (by decide +kernel)
  have ha' : Storable (plainRoute "a" false) := storable_plainRoute (by decide +kernel)
  refine refines_map rfl fun c hc => ?_
  simp only [List.mem_cons, List.not_mem_nil, or_false] at hc
  rcases hc with rfl | rfl | rfl | rfl
  · exact ha
  · exact hb
  · exact ha'
  · trivial

end

end NginxAdmin.Web.BrowserLocalStorageRouteRepository
