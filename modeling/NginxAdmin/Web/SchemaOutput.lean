import Mathlib.Data.Rat.Lemmas
import Mathlib.Data.Rat.Cast.Order
import NginxAdmin.Web.NormalForms
import NginxAdmin.Web.Sanitize

/-!
# What the schema of a route outputs

`RouteOutput` is what holds between the fields of an output of `RouteSchema`. `routeSchema_projects`: it holds of every
output, and the schema reads every output as itself. The three refinements check and clear one after the other; what is
cleared is none of what is checked.
-/

namespace NginxAdmin.Web

open Js Zod

theorem boolean_out {a b : Js} (h : boolean a = some b) : ∃ x, b = .bool x := by
  cases a <;> cases h
  exact ⟨_, rfl⟩

theorem regex_out {r : Regex} {a b : Js} (h : Zod.regex r string a = some b) : ∃ s, b = .str s ∧ Regex.test r s = true := by
  obtain ⟨c, hc, hif⟩ := Option.bind_eq_some_iff.1 h
  obtain ⟨s, rfl⟩ := string_out hc
  split at hif
  next htest =>
    cases hif
    exact ⟨s, rfl, htest⟩
  next => cases hif

theorem unixPath_out {a b : Js} (h : unixPathSchema a = some b) :
    ∃ s, b = .str s ∧ (s ≠ "" → Regex.test unixPathPattern s = true) := by
  rcases Option.or_eq_some_iff.1 h with h | ⟨-, h⟩
  · obtain ⟨s, hs, htest⟩ := regex_out h
    exact ⟨s, hs, fun _ => htest⟩
  · rw [Zod.literal] at h
    split at h
    next heq =>
      cases h
      exact ⟨"", heq, fun hne => absurd rfl hne⟩
    next => cases h

theorem optional_out {s : Zod} {P : Js → Prop} (hs : ∀ a b, s a = some b → P b) {a b : Js} (h : optional s a = some b) :
    b = .undefined ∨ P b := by
  rw [Zod.optional] at h
  split at h
  · cases h
    exact .inl rfl
  · exact .inr (hs a b h)

/-- No pattern of a target takes the empty text. -/
theorem proxyTarget_out {a b : Js} (h : proxyTargetSchema a = some b) : b = .undefined ∨ ∃ s, b = .str s ∧ s ≠ "" := by
  refine optional_out (P := fun b => ∃ s, b = .str s ∧ s ≠ "") (fun a b h => ?_) h
  obtain ⟨c, hc, hif⟩ := Option.bind_eq_some_iff.1 h
  obtain ⟨s, rfl, htest⟩ := regex_out hc
  split at hif
  · cases hif
    refine ⟨s, rfl, ?_⟩
    rintro rfl
    exact absurd htest (by decide)
  · cases hif

theorem timeUnit_out {a b : Js} (h : timeUnitSchema a = some b) :
    ∃ s, b = .str s ∧ Regex.test (unitPattern ['s', 'm', 'h', 'd']) s = true := regex_out h

theorem ne_empty_of_timeUnit {s : String} (h : Regex.test (unitPattern ['s', 'm', 'h', 'd']) s = true) : s ≠ "" := by
  rintro rfl
  exact absurd h (by decide)

theorem port_out {a b : Js} (h : portSchema a = some b) : ∃ n : Nat, b = .num n ∧ 1 ≤ n ∧ n ≤ 65535 := by
  rw [portSchema, preprocess] at h
  cases hp : portOf a with
  | num x =>
    rw [hp, int] at h
    split at h
    next hx =>
      cases h
      obtain ⟨hden, hlo, hhi⟩ := hx
      rw [← Rat.coe_int_num_of_den_eq_one hden] at hlo hhi ⊢
      have hlo' : (1 : Int) ≤ x.num := by exact_mod_cast hlo
      have hhi' : x.num ≤ (65535 : Int) := by exact_mod_cast hhi
      obtain ⟨n, hn⟩ := Int.eq_ofNat_of_zero_le (Int.le_trans (by decide) hlo')
      rw [hn] at hlo' hhi' ⊢
      exact ⟨n, by simp, by omega, by omega⟩
    next => cases h
  | _ =>
    rw [hp] at h
    cases h

theorem truthy_str {s : String} : (Js.str s).truthy = true ↔ s ≠ "" := decide_eq_true_iff

structure LocationOutput (loc : Js) : Prop where
  path : ∃ s, loc.get "path" = .str s
  files : loc.get "proxy_pass" = .undefined ∨ loc.get "try_files" = .undefined ∨ loc.get "try_files" = .str ""

variable {platform : Platform}

theorem refineLocation_eq {loc out : Js} (h : refineLocation platform loc = some out) : out = loc := by
  rw [refineLocation] at h
  split at h
  · cases h
  · split at h
    · cases h
    · exact (Option.some.inj h).symm

theorem location_fields {a b : Js} (h : locationConfigSchema platform a = some b) :
    object locationFields a = some b ∧ refineLocation platform b = some b := by
  obtain ⟨loc, hloc, hrefine⟩ := Option.bind_eq_some_iff.1 h
  have heq := refineLocation_eq hrefine
  subst heq
  exact ⟨hloc, hrefine⟩

theorem echo_locationFields : ∀ f ∈ locationFields, Echo f.2 := by
  simp only [locationFields, List.forall_mem_cons, List.not_mem_nil, false_imp_iff, implies_true, and_true]
  exact ⟨echo_regex _, echo_proxyTarget, echo_string.optional, echo_string.optional, echo_string.optional⟩

theorem location_output {a b : Js} (h : locationConfigSchema platform a = some b) : LocationOutput b := by
  obtain ⟨hfields, hrefine⟩ := location_fields h
  have hfield (key : String) (s : Zod) (hs : (key, s) ∈ locationFields) : s (a.get key) = some (b.get key) :=
    get_object (by decide) hfields hs
  obtain ⟨path, hpath, -⟩ := regex_out (hfield "path" urlPathSchema (by simp [locationFields]))
  refine ⟨⟨path, hpath⟩, ?_⟩
  rcases proxyTarget_out (hfield "proxy_pass" proxyTargetSchema (by simp [locationFields])) with hu | ⟨target, htarget, hne⟩
  · exact .inl hu
  · right
    rcases optional_string_out (hfield "try_files" (optional string) (by simp [locationFields])) with hu | ⟨files, hfiles⟩
    · exact .inl hu
    · by_cases hempty : files = ""
      · subst hempty
        exact .inr hfiles
      · -- both are set
        have hboth : ((b.get "proxy_pass").truthy && (b.get "try_files").truthy) = true := by
          rw [htarget, hfiles, truthy_str.2 hne, truthy_str.2 hempty]
          rfl
        rw [refineLocation, if_pos hboth] at hrefine
        cases hrefine

theorem projects_location : Projects (locationConfigSchema platform) := by
  intro a b h
  obtain ⟨hfields, hrefine⟩ := location_fields h
  obtain ⟨c, hc, hsame⟩ := projects_object (by decide) (fun f hf => (echo_locationFields f hf).projects) a b hfields
  have hget (key : String) (s : Zod) (hs : (key, s) ∈ locationFields) : c.get key = b.get key :=
    echo_locationFields _ hs _ _ (get_object (by decide) hc hs)
  have hproxy := hget "proxy_pass" proxyTargetSchema (by simp [locationFields])
  have hfiles := hget "try_files" (optional string) (by simp [locationFields])
  have hextra := hget "extra_directives" (optional string) (by simp [locationFields])
  refine ⟨c, ?_, hsame⟩
  show (object locationFields b).bind (refineLocation platform) = some c
  rw [hc, Option.bind_some]
  rw [refineLocation] at hrefine ⊢
  rw [hproxy, hfiles, hextra]
  split at hrefine
  · cases hrefine
  · split at hrefine
    · cases hrefine
    next hboth hsecret => rw [if_neg hboth, if_neg hsecret]

structure AdvancedOutput (adv : Js) : Prop where
  gzip : (adv.get "gzip" = .bool true ∧ ∃ s, adv.get "gzip_types" = .str s ∧ Js.trim s ≠ "") ∨
    (adv.get "gzip" = .bool false ∧ (adv.get "gzip_types" = .undefined ∨ adv.get "gzip_types" = .str ""))
  caching : (adv.get "caching" = .bool true ∧ ∃ s, adv.get "cache_valid" = .str s ∧ s ≠ "") ∨
    (adv.get "caching" = .bool false ∧ adv.get "cache_valid" = .undefined)

theorem AdvancedOutput.congr {a b : Js} (hb : AdvancedOutput b) (h : ∀ key ∈ advancedFields.map Prod.fst, a.get key = b.get key) :
    AdvancedOutput a := by
  constructor
  · rw [h "gzip" (by decide), h "gzip_types" (by decide)]
    exact hb.gzip
  · rw [h "caching" (by decide), h "cache_valid" (by decide)]
    exact hb.caching

theorem ne_empty_of_trim {s : String} (h : Js.trim s ≠ "") : s ≠ "" := by
  rintro rfl
  exact h (by decide)

/-- What holds of the output is what is checked, and nothing is left to clear. -/
theorem refineAdvanced_of_output {adv : Js} (h : AdvancedOutput adv) : refineAdvanced adv = some adv := by
  have hgzip : ((adv.get "gzip").truthy && (!(adv.get "gzip_types").truthy || isBlank (adv.get "gzip_types"))) = false ∧
      (!(adv.get "gzip").truthy && (adv.get "gzip_types").truthy) = false := by
    rcases h.gzip with ⟨hon, s, hs, hblank⟩ | ⟨hoff, hu | hempty⟩
    · rw [hon, hs, truthy_str.2 (ne_empty_of_trim hblank), isBlank, beq_eq_false_iff_ne.2 hblank]
      exact ⟨rfl, rfl⟩
    · rw [hoff, hu]
      exact ⟨rfl, rfl⟩
    · rw [hoff, hempty]
      exact ⟨rfl, rfl⟩
  have hcaching : ((adv.get "caching").truthy && !(adv.get "cache_valid").truthy) = false ∧
      (!(adv.get "caching").truthy && (adv.get "cache_valid").truthy) = false := by
    rcases h.caching with ⟨hon, s, hs, hne⟩ | ⟨hoff, hu⟩
    · rw [hon, hs, truthy_str.2 hne]
      exact ⟨rfl, rfl⟩
    · rw [hoff, hu]
      exact ⟨rfl, rfl⟩
  simp only [refineAdvanced, hgzip.1, hgzip.2, hcaching.1, hcaching.2, Bool.false_eq_true, if_false]

theorem get_clear_self {adv : Js} {ms : List (String × Js)} (hobj : adv = .obj ms) (switch key : String) :
    (clear switch key adv).get key =
      if (!(adv.get switch).truthy && (adv.get key).truthy) = true then .undefined else adv.get key := by
  rw [clear]
  split
  · rw [get_assign_of_obj hobj, if_pos rfl]
  · rfl

theorem get_refineAdvanced {adv out : Js} {ms : List (String × Js)} (hobj : adv = .obj ms) (h : refineAdvanced adv = some out)
    (key : String) : out.get key =
      if key = "gzip_types" ∧ (!(adv.get "gzip").truthy && (adv.get key).truthy) = true ∨
        key = "cache_valid" ∧ (!(adv.get "caching").truthy && (adv.get key).truthy) = true then .undefined else adv.get key := by
  rw [refineAdvanced_eq h]
  obtain ⟨ns, hns⟩ := clear_obj hobj "gzip" "gzip_types"
  by_cases hvalid : key = "cache_valid"
  · subst hvalid
    rw [get_clear_self hns, get_clear hobj (by decide), get_clear hobj (by decide)]
    simp
  · rw [get_clear hns hvalid]
    by_cases htypes : key = "gzip_types"
    · subst htypes
      rw [get_clear_self hobj]
      simp
    · rw [get_clear hobj htypes]
      simp [hvalid, htypes]

/-- A property that is needed with its switch on, and cleared with its switch off. -/
theorem switched_out {on : Bool} {v out : Js} (hv : v = .undefined ∨ ∃ s, v = .str s) (hset : on = true → v ≠ .undefined)
    (hout : out = if on = false ∧ v.truthy = true then .undefined else v) :
    (on = true ∧ ∃ s, v = .str s ∧ out = .str s) ∨ on = false ∧ (out = .undefined ∨ v = .str "" ∧ out = .str "") := by
  cases on with
  | true =>
    obtain ⟨s, hs⟩ := hv.resolve_left (hset rfl)
    refine .inl ⟨rfl, s, hs, ?_⟩
    rw [hout, if_neg (by simp), hs]
  | false =>
    refine .inr ⟨rfl, ?_⟩
    rcases hv with hu | ⟨s, hs⟩
    · rw [hout, hu]
      exact .inl (ite_self _)
    · by_cases hempty : s = ""
      · subst hempty
        rw [hout, hs]
        exact .inr ⟨rfl, rfl⟩
      · rw [hout, hs, if_pos ⟨rfl, truthy_str.2 hempty⟩]
        exact .inl rfl

theorem advanced_output {a b : Js} (h : advancedConfigSchema a = some b) : AdvancedOutput b := by
  obtain ⟨adv, hfields, hrefine⟩ := Option.bind_eq_some_iff.1 h
  obtain ⟨ms, hobj⟩ := obj_of_object hfields
  have hfield (key : String) (s : Zod) (hs : (key, s) ∈ advancedFields) : s (a.get key) = some (adv.get key) :=
    get_object (by decide) hfields hs
  have hget := get_refineAdvanced hobj hrefine
  obtain ⟨gzip, hgzip⟩ := boolean_out (hfield "gzip" boolean (by simp [advancedFields]))
  obtain ⟨caching, hcaching⟩ := boolean_out (hfield "caching" boolean (by simp [advancedFields]))
  have htypes := optional_string_out (hfield "gzip_types" (optional string) (by simp [advancedFields]))
  have hvalid := optional_out (fun _ _ => timeUnit_out) (hfield "cache_valid" (optional timeUnitSchema) (by simp [advancedFields]))
  have hgzip' : b.get "gzip" = .bool gzip := by
    rw [hget, if_neg (by simp), hgzip]
  have hcaching' : b.get "caching" = .bool caching := by
    rw [hget, if_neg (by simp), hcaching]
  rw [refineAdvanced, hgzip, hcaching] at hrefine
  split at hrefine
  · cases hrefine
  next htypesChecked =>
  split at hrefine
  · cases hrefine
  next hvalidChecked =>
  constructor
  · have htypesOut := hget "gzip_types"
    simp only [hgzip, truthy, Bool.and_eq_true, Bool.not_eq_true', true_and, String.reduceEq, false_and,
      or_false] at htypesOut
    have hset : gzip = true → adv.get "gzip_types" ≠ .undefined := by
      rintro rfl hu
      exact htypesChecked (by rw [hu]; rfl)
    rcases switched_out htypes hset htypesOut with ⟨rfl, s, hs, hout⟩ | ⟨rfl, hout⟩
    · refine .inl ⟨hgzip', s, hout, fun hblank => htypesChecked ?_⟩
      rw [hs, isBlank, beq_iff_eq.2 hblank, Bool.or_true]
      rfl
    · exact .inr ⟨hgzip', hout.imp_right And.right⟩
  · have hvalidOut := hget "cache_valid"
    simp only [hcaching, truthy, Bool.and_eq_true, Bool.not_eq_true', true_and, String.reduceEq, false_and,
      false_or] at hvalidOut
    have hset : caching = true → adv.get "cache_valid" ≠ .undefined := by
      rintro rfl hu
      exact hvalidChecked (by rw [hu]; rfl)
    have htime : ∀ s, adv.get "cache_valid" = .str s → s ≠ "" := by
      intro s hs
      rcases hvalid with hu | ⟨s', hs', htest⟩
      · rw [hu] at hs
        cases hs
      · rw [hs'] at hs
        cases hs
        exact ne_empty_of_timeUnit htest
    rcases switched_out (hvalid.imp_right (Exists.imp fun _ => And.left)) hset hvalidOut with ⟨rfl, s, hs, hout⟩ | ⟨rfl, hout⟩
    · exact .inl ⟨hcaching', s, hout, htime s hs⟩
    · exact .inr ⟨hcaching', hout.resolve_right fun hempty => htime "" hempty.1 rfl⟩

theorem echo_advancedFields : ∀ f ∈ advancedFields, Echo f.2 := by
  simp only [advancedFields, List.forall_mem_cons, List.not_mem_nil, false_imp_iff, implies_true, and_true]
  exact ⟨echo_regex _, echo_regex _, echo_boolean, echo_string.optional, echo_boolean, (echo_regex _).optional⟩

theorem projects_advanced : Projects advancedConfigSchema := by
  intro a b h
  have houtput := advanced_output h
  obtain ⟨adv, hfields, hrefine⟩ := Option.bind_eq_some_iff.1 h
  obtain ⟨ms, hobj⟩ := obj_of_object hfields
  have hget := get_refineAdvanced hobj hrefine
  obtain ⟨ns, rfl, -⟩ := advanced_typed h
  have hread : ∃ c, object advancedFields (.obj ns) = some c ∧ Same c (.obj ns) := by
    refine object_of_fields (by decide) (fun f hf => ?_) fun key hkey => ?_
    · rw [hget]
      split
      next hcleared =>
        -- only optional properties are cleared
        have hoptional : ∃ s, f.2 = optional s := by
          simp only [advancedFields, List.mem_cons, List.not_mem_nil, or_false] at hf
          rcases hf with rfl | rfl | rfl | rfl | rfl | rfl
          · exact absurd hcleared (by simp)
          · exact absurd hcleared (by simp)
          · exact absurd hcleared (by simp)
          · exact ⟨_, rfl⟩
          · exact absurd hcleared (by simp)
          · exact ⟨_, rfl⟩
        obtain ⟨s, hs⟩ := hoptional
        rw [hs]
        exact ⟨.undefined, rfl, .refl _⟩
      next => exact (echo_advancedFields f hf).projects _ _ (get_object (by decide) hfields hf)
    · rw [hget, get_object_of_not_mem hfields hkey]
      exact ite_self _
  obtain ⟨c, hc, hsame⟩ := hread
  refine ⟨c, ?_, hsame⟩
  show (object advancedFields (.obj ns)).bind refineAdvanced = some c
  rw [hc, Option.bind_some]
  refine refineAdvanced_of_output (houtput.congr fun key hkey => ?_)
  obtain ⟨f, hf, rfl⟩ := List.mem_map.1 hkey
  exact echo_advancedFields f hf _ _ (get_object (by decide) hc hf)

/-- A property that is never cleared. -/
theorem advanced_field {a b : Js} (h : advancedConfigSchema a = some b) (key : String) (s : Zod) (hs : (key, s) ∈ advancedFields)
    (hkey : key ≠ "gzip_types" ∧ key ≠ "cache_valid") : s (a.get key) = some (b.get key) := by
  obtain ⟨adv, hfields, hrefine⟩ := Option.bind_eq_some_iff.1 h
  obtain ⟨ms, hobj⟩ := obj_of_object hfields
  rw [get_refineAdvanced hobj hrefine, if_neg (by simp [hkey])]
  exact get_object (by decide) hfields hs

theorem cacheValid_field {a b : Js} (h : advancedConfigSchema a = some b) : b.get "cache_valid" = .undefined ∨
    ∃ s, b.get "cache_valid" = .str s ∧ Regex.test (unitPattern ['s', 'm', 'h', 'd']) s = true := by
  obtain ⟨adv, hfields, hrefine⟩ := Option.bind_eq_some_iff.1 h
  obtain ⟨ms, hobj⟩ := obj_of_object hfields
  have hmem : ("cache_valid", optional timeUnitSchema) ∈ advancedFields := by simp [advancedFields]
  rw [get_refineAdvanced hobj hrefine]
  split
  · exact .inl rfl
  · exact optional_out (fun _ _ => timeUnit_out) (get_object (by decide) hfields hmem)

/-! ### Routes -/

def certificates : List String := ["ssl_certificate", "ssl_certificate_key"]

structure RouteOutput (route : Js) : Prop where
  ssl : (route.get "ssl" = .bool true ∧ ∀ key ∈ certificates, ∃ s, route.get key = .str s ∧ s ≠ "") ∨
    (route.get "ssl" = .bool false ∧ ∀ key ∈ certificates, route.get key = .undefined)
  proxied : route.get "proxy_pass" ≠ .undefined → route.get "locations" = .arr []
  root : route.get "proxy_pass" = .undefined → ∃ s, route.get "root" = .str s ∧ Js.trim s ≠ ""
  port : ∃ n : Nat, route.get "port" = .num n ∧ 1 ≤ n ∧ n ≤ 65535 ∧ (n = 443 → route.get "ssl" = .bool true) ∧
    (n = 80 → route.get "ssl" = .bool false)
  locations : ∃ ls, route.get "locations" = .arr ls ∧ (ls.map (·.get "path")).Nodup ∧ ∀ l ∈ ls, LocationOutput l
  advanced : route.get "advanced" = .undefined ∨ AdvancedOutput (route.get "advanced")

/-- What the refinement checks. -/
structure RouteChecked (route : Js) : Prop where
  ssl : (route.get "ssl").truthy = true → (route.get "ssl_certificate").truthy = true ∧ (route.get "ssl_certificate_key").truthy = true
  proxied : (route.get "proxy_pass").truthy = true → locationsOf route = []
  root : (route.get "proxy_pass").truthy = false → isBlank (route.get "root") = false
  port443 : route.get "port" = .num 443 → (route.get "ssl").truthy = true
  port80 : route.get "port" = .num 80 → (route.get "ssl").truthy = false
  paths : ((locationsOf route).map (·.get "path")).Nodup

theorem exists_refineRoute_iff {route : Js} : (∃ out, refineRoute route = some out) ↔ RouteChecked route := by
  constructor
  · rintro ⟨out, h⟩
    simp only [refineRoute] at h
    split at h
    · cases h
    next hssl =>
    split at h
    · cases h
    next hproxied =>
    split at h
    · cases h
    next hroot =>
    split at h
    · cases h
    next h443 =>
    split at h
    · cases h
    next h80 =>
    split at h
    · cases h
    next hpaths =>
    constructor
    · intro hon
      simpa [hon] using hssl
    · intro hon
      simpa [hon] using hproxied
    · intro hoff
      simpa [hoff] using hroot
    · intro hport
      simpa [hport] using h443
    · intro hport
      simpa [hport] using h80
    · exact not_not.1 hpaths
  · intro h
    have hssl : ((route.get "ssl").truthy && (!(route.get "ssl_certificate").truthy || !(route.get "ssl_certificate_key").truthy)) =
        false := Bool.and_eq_false_imp.2 fun hon => by
      rw [(h.ssl hon).1, (h.ssl hon).2]
      rfl
    have hproxied : ((route.get "proxy_pass").truthy && !(locationsOf route).isEmpty) = false :=
      Bool.and_eq_false_imp.2 fun hon => by
        rw [h.proxied hon]
        rfl
    have hroot : (!(route.get "proxy_pass").truthy && isBlank (route.get "root")) = false :=
      Bool.and_eq_false_imp.2 fun hoff => h.root (by simpa using hoff)
    have h443 : (decide (route.get "port" = .num 443) && !(route.get "ssl").truthy) = false :=
      Bool.and_eq_false_imp.2 fun hport => by rw [h.port443 (of_decide_eq_true hport), Bool.not_true]
    have h80 : (decide (route.get "port" = .num 80) && (route.get "ssl").truthy) = false :=
      Bool.and_eq_false_imp.2 fun hport => h.port80 (of_decide_eq_true hport)
    simp only [refineRoute, hssl, hproxied, hroot, h443, h80, h.paths, not_true_eq_false, Bool.false_eq_true, if_false]
    exact ⟨_, rfl⟩

theorem RouteChecked.congr {a b : Js} (hb : RouteChecked b) (h : ∀ key ∈ ["ssl", "proxy_pass", "root", "port"], a.get key = b.get key)
    (hcertificates : (b.get "ssl").truthy = true → ∀ key ∈ certificates, a.get key = b.get key)
    (hlocations : (locationsOf a).map (·.get "path") = (locationsOf b).map (·.get "path")) : RouteChecked a := by
  simp only [certificates, List.forall_mem_cons, List.not_mem_nil, false_imp_iff, implies_true, and_true] at h hcertificates
  obtain ⟨hssl, hproxy, hroot, hport⟩ := h
  constructor
  · intro hon
    rw [hssl] at hon
    rw [(hcertificates hon).1, (hcertificates hon).2]
    exact hb.ssl hon
  · intro hon
    rw [hproxy] at hon
    rw [hb.proxied hon] at hlocations
    exact List.map_eq_nil_iff.1 hlocations
  · rw [hproxy, hroot]
    exact hb.root
  · rw [hssl, hport]
    exact hb.port443
  · rw [hssl, hport]
    exact hb.port80
  · rw [hlocations]
    exact hb.paths

variable {input route : Js}

/-- An output, from the object before the refinement. -/
theorem route_refined (h : routeSchema platform input = some route) : ∃ fields, object (routeFields platform) input = some fields ∧
    RouteChecked route ∧ ∀ key, route.get key =
      if (fields.get "ssl").truthy = false ∧ (key = "ssl_certificate" ∨ key = "ssl_certificate_key") then .undefined
      else fields.get key := by
  obtain ⟨fields, hfields, hrefine⟩ := Option.bind_eq_some_iff.1 h
  obtain ⟨ms, hobj⟩ := obj_of_object hfields
  have hget := get_refineRoute hobj hrefine
  have hplain (key : String) (hkey : key ≠ "ssl_certificate" ∧ key ≠ "ssl_certificate_key") : route.get key = fields.get key := by
    rw [hget, if_neg]
    rintro ⟨-, hc | hc⟩
    · exact hkey.1 hc
    · exact hkey.2 hc
  refine ⟨fields, hfields, ?_, hget⟩
  refine (exists_refineRoute_iff.1 ⟨route, hrefine⟩).congr ?_ (fun hon key _ => ?_) ?_
  · simp only [List.forall_mem_cons, List.not_mem_nil, false_imp_iff, implies_true, and_true]
    exact ⟨hplain _ (by decide), hplain _ (by decide), hplain _ (by decide), hplain _ (by decide)⟩
  · rw [hget, if_neg]
    rintro ⟨hoff, -⟩
    rw [hon] at hoff
    cases hoff
  · rw [locationsOf, locationsOf, hplain _ (by decide)]

/-- A property that is never cleared. -/
theorem route_field (h : routeSchema platform input = some route) (key : String) (s : Zod) (hs : (key, s) ∈ routeFields platform)
    (hkey : key ≠ "ssl_certificate" ∧ key ≠ "ssl_certificate_key") : s (input.get key) = some (route.get key) := by
  obtain ⟨fields, hfields, -, hget⟩ := route_refined h
  rw [hget, if_neg]
  · exact get_object (nodup_routeFields platform) hfields hs
  · rintro ⟨-, hc | hc⟩
    · exact hkey.1 hc
    · exact hkey.2 hc

theorem certificate_field (h : routeSchema platform input = some route) {key : String}
    (hs : (key, optional unixPathSchema) ∈ routeFields platform) :
    route.get key = .undefined ∨ ∃ s, route.get key = .str s ∧ (s ≠ "" → Regex.test unixPathPattern s = true) := by
  obtain ⟨fields, hfields, -, hget⟩ := route_refined h
  rw [hget]
  split
  · exact .inl rfl
  · exact optional_out (fun _ _ => unixPath_out) (get_object (nodup_routeFields platform) hfields hs)

theorem route_output (h : routeSchema platform input = some route) : RouteOutput route := by
  obtain ⟨fields, hfields, hchecked, hget⟩ := route_refined h
  have hfield := route_field h
  obtain ⟨ssl, hssl⟩ := boolean_out (hfield "ssl" boolean (by simp [routeFields]) (by decide))
  have hsslFields : (fields.get "ssl").truthy = ssl := by
    have hkeep := hget "ssl"
    rw [if_neg (by simp), hssl] at hkeep
    rw [← hkeep]
    rfl
  have hproxy := proxyTarget_out (hfield "proxy_pass" proxyTargetSchema (by simp [routeFields]) (by decide))
  obtain ⟨root, hroot, -⟩ := unixPath_out (hfield "root" unixPathSchema (by simp [routeFields]) (by decide))
  obtain ⟨n, hn, hlo, hhi⟩ := port_out (hfield "port" portSchema (by simp [routeFields]) (by decide))
  obtain ⟨ls, hls, hlocations⟩ := array_out (fun _ _ => location_output)
    (hfield "locations" (array (locationConfigSchema platform)) (by simp [routeFields]) (by decide))
  have hlocationsOf : locationsOf route = ls := by rw [locationsOf, hls]
  constructor
  · cases ssl with
    | true =>
      refine .inl ⟨hssl, fun key hkey => ?_⟩
      have htext (key : String) (hs : (key, optional unixPathSchema) ∈ routeFields platform) (ht : (route.get key).truthy = true) :
          ∃ s, route.get key = .str s ∧ s ≠ "" := by
        rcases certificate_field h hs with hu | ⟨s, hs, -⟩
        · rw [hu] at ht
          cases ht
        · rw [hs] at ht
          exact ⟨s, hs, truthy_str.1 ht⟩
      have hset := hchecked.ssl (by rw [hssl]; rfl)
      simp only [certificates, List.mem_cons, List.not_mem_nil, or_false] at hkey
      rcases hkey with rfl | rfl
      · exact htext _ (by simp [routeFields]) hset.1
      · exact htext _ (by simp [routeFields]) hset.2
    | false =>
      refine .inr ⟨hssl, fun key hkey => ?_⟩
      rw [hget, if_pos ⟨hsslFields, by simpa [certificates] using hkey⟩]
  · intro hset
    rcases hproxy with hu | ⟨s, hs, hne⟩
    · exact absurd hu hset
    · have hnone := hchecked.proxied (by rw [hs]; exact truthy_str.2 hne)
      rw [hls, ← hlocationsOf, hnone]
  · intro hu
    have hblank := hchecked.root (by rw [hu]; rfl)
    rw [hroot, isBlank, beq_eq_false_iff_ne] at hblank
    exact ⟨root, hroot, hblank⟩
  · refine ⟨n, hn, hlo, hhi, ?_, ?_⟩
    · rintro rfl
      have hon := hchecked.port443 hn
      rw [hssl] at hon ⊢
      exact congrArg Js.bool hon
    · rintro rfl
      have hoff := hchecked.port80 hn
      rw [hssl] at hoff ⊢
      exact congrArg Js.bool hoff
  · refine ⟨ls, hls, ?_, hlocations⟩
    rw [← hlocationsOf]
    exact hchecked.paths
  · exact optional_out (fun _ _ => advanced_output)
      (hfield "advanced" (optional advancedConfigSchema) (by simp [routeFields]) (by decide))

theorem projects_port : Projects portSchema := (echo_int _ _).projects.preprocess fun a b h => by
  cases a with
  | num x =>
    rw [echo_int _ _ _ _ h]
    rfl
  | _ => cases h

theorem projects_metadata : Projects (metadataSchema platform) := by
  have hdate : Projects (preprocess (dateOf platform) date) := echo_date.projects.preprocess fun a b h => by
    cases a with
    | date d =>
      rw [echo_date _ _ h]
      rfl
    | _ => cases h
  have hnames : ["createdAt", "updatedAt", "createdBy", "tags"].Nodup := by decide
  refine projects_object hnames ?_
  simp only [List.forall_mem_cons, List.not_mem_nil, false_imp_iff, implies_true, and_true]
  exact ⟨hdate, hdate, echo_string.projects, echo_string.array.projects⟩

theorem projects_routeFields : ∀ f ∈ routeFields platform, Projects f.2 := by
  simp only [routeFields, List.forall_mem_cons, List.not_mem_nil, false_imp_iff, implies_true, and_true]
  exact ⟨echo_string.projects, (echo_regex _).projects, projects_port, echo_unixPath.projects, echo_boolean.projects,
    echo_boolean.projects, echo_unixPath.optional.projects, echo_unixPath.optional.projects, echo_proxyTarget.projects,
    projects_location.array, projects_advanced.optional, projects_metadata.optional⟩

/-- Before the refinement an output is read as itself. -/
theorem object_route (h : routeSchema platform input = some route) :
    ∃ c, object (routeFields platform) route = some c ∧ Same c route := by
  obtain ⟨fields, hfields, -, hget⟩ := route_refined h
  obtain ⟨ms, rfl, -⟩ := route_typed platform h
  refine object_of_fields (nodup_routeFields platform) (fun f hf => ?_) fun key hkey => ?_
  · rw [hget]
    split
    next hcleared =>
      have hoptional : f.2 = optional unixPathSchema := by
        obtain ⟨-, hkey⟩ := hcleared
        have hmem (key : String) (hs : (key, optional unixPathSchema) ∈ routeFields platform) (hkey : f.1 = key) :
            f.2 = optional unixPathSchema :=
          congrArg Prod.snd (List.inj_on_of_nodup_map (nodup_routeFields platform) hf hs hkey)
        rcases hkey with hkey | hkey
        · exact hmem _ (by simp [routeFields]) hkey
        · exact hmem _ (by simp [routeFields]) hkey
      rw [hoptional]
      exact ⟨.undefined, rfl, .refl _⟩
    next => exact projects_routeFields f hf _ _ (get_object (nodup_routeFields platform) hfields hf)
  · rw [hget, get_object_of_not_mem hfields hkey]
    exact ite_self _

theorem map_path_of_same {xs ys : List Js} (h : List.Forall₂ Same xs ys) (hy : ∀ y ∈ ys, LocationOutput y) :
    xs.map (·.get "path") = ys.map (·.get "path") := by
  induction h with
  | nil => rfl
  | cons hsame _ ih =>
    rw [List.forall_mem_cons] at hy
    obtain ⟨path, hpath⟩ := hy.1.path
    have hx := hsame.get "path"
    rw [hpath] at hx
    rw [List.map_cons, List.map_cons, hpath, hx.eq_of_str, ih hy.2]

/-- The schema takes its outputs as they are. -/
theorem routeSchema_output (h : routeSchema platform input = some route) :
    ∃ r, routeSchema platform route = some r ∧ Same r route := by
  have houtput := route_output h
  obtain ⟨fields, -, hchecked, hget⟩ := route_refined h
  obtain ⟨c, hc, hsame⟩ := object_route h
  have hecho (key : String) (s : Zod) (hs : (key, s) ∈ routeFields platform) (he : Echo s) : c.get key = route.get key :=
    he _ _ (get_object (nodup_routeFields platform) hc hs)
  have hport : c.get "port" = route.get "port" := by
    obtain ⟨n, hn, -⟩ := houtput.port
    have hkeep := hsame.get "port"
    rw [hn] at hkeep ⊢
    exact hkeep.eq_of_num
  have hlocations : (locationsOf c).map (·.get "path") = (locationsOf route).map (·.get "path") := by
    obtain ⟨ls, hls, -, hout⟩ := houtput.locations
    have hkeep := hsame.get "locations"
    rw [hls] at hkeep
    obtain ⟨xs, hxs, hall⟩ := hkeep.arr_inv
    rw [locationsOf, locationsOf, hxs, hls]
    exact map_path_of_same hall hout
  have hread : RouteChecked c := by
    refine hchecked.congr ?_ (fun _ => ?_) hlocations
    · simp only [List.forall_mem_cons, List.not_mem_nil, false_imp_iff, implies_true, and_true]
      exact ⟨hecho "ssl" boolean (by simp [routeFields]) echo_boolean,
        hecho "proxy_pass" proxyTargetSchema (by simp [routeFields]) echo_proxyTarget,
        hecho "root" unixPathSchema (by simp [routeFields]) echo_unixPath, hport⟩
    · simp only [certificates, List.forall_mem_cons, List.not_mem_nil, false_imp_iff, implies_true, and_true]
      exact ⟨hecho _ (optional unixPathSchema) (by simp [routeFields]) echo_unixPath.optional,
        hecho _ (optional unixPathSchema) (by simp [routeFields]) echo_unixPath.optional⟩
  obtain ⟨r, hr⟩ := exists_refineRoute_iff.2 hread
  have hschema : routeSchema platform route = some r := by
    rw [routeSchema_eq, superRefine, hc]
    exact hr
  obtain ⟨ms, hobj⟩ := obj_of_object hc
  have hgetr := get_refineRoute hobj hr
  obtain ⟨ns, rfl⟩ := obj_of_refineRoute hobj hr
  obtain ⟨os, rfl, -⟩ := route_typed platform h
  refine ⟨_, hschema, .obj fun key => ?_⟩
  rw [hgetr]
  split
  next hcleared =>
    obtain ⟨hoff, hkey⟩ := hcleared
    rw [hecho "ssl" boolean (by simp [routeFields]) echo_boolean] at hoff
    rcases houtput.ssl with ⟨hon, -⟩ | ⟨-, hundefined⟩
    · rw [hon] at hoff
      cases hoff
    · rw [hundefined key (by simpa [certificates] using hkey)]
      exact .refl _
  next => exact hsame.get key

/-- `RouteSchema` normalises: its outputs are consistent, and it takes them as they are. -/
theorem routeSchema_projects (platform : Platform) {input route : Js} (h : routeSchema platform input = some route) :
    RouteOutput route ∧ ∃ r, routeSchema platform route = some r ∧ Same r route :=
  ⟨route_output h, routeSchema_output h⟩

/-- A port that is a text, and types of `gzip` that are cleared. -/
def textPortRoute : Js :=
  .obj [("id", .str "a"), ("domain", .str "a.com"), ("port", .str "443"), ("root", .str ""), ("enabled", .bool true),
    ("ssl", .bool true), ("ssl_certificate", .str "/c"), ("ssl_certificate_key", .str "/k"), ("proxy_pass", .str "http://b"),
    ("locations", .arr []), ("advanced", .obj [("client_max_body_size", .str "1m"), ("keepalive_timeout", .str "5s"),
      ("gzip", .bool false), ("gzip_types", .str "text/css"), ("caching", .bool true), ("cache_valid", .str "1h")])]

theorem routeSchema_projects_textPort : ∃ route, routeSchema ⟨.simple, .iso⟩ textPortRoute = some route ∧
    RouteOutput route ∧ ∃ r, routeSchema ⟨.simple, .iso⟩ route = some r ∧ Same r route := by
  have haccepted : (routeSchema ⟨.simple, .iso⟩ textPortRoute).isSome = true := by decide +kernel
  obtain ⟨route, hroute⟩ := Option.isSome_iff_exists.1 haccepted
  exact ⟨route, hroute, routeSchema_projects _ hroute⟩

end NginxAdmin.Web
