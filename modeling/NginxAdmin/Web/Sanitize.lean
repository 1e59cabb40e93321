import Mathlib.Data.List.Nodup
import NginxAdmin.Lib.IsoDate
import NginxAdmin.Lib.JsTypes
import NginxAdmin.Web.Types

/-!
# Accepted routes under the sanitizer

`sanitizeForJson` is applied to every route that is written. Of the fields of an accepted route some hold characters that
no secret pattern can do without (a colon, an equals sign, white space) in no text the schema takes, and `proxy_pass` is
checked against the patterns themselves; the free texts are not. A route is written as it is just when its free texts are
left alone.
-/

namespace NginxAdmin.Web

open Regex Zod

/-- What every secret pattern needs one of. -/
def isMark (c : Char) : Bool := c == ':' || c == '=' || isSpace c

theorem unmarked_of_all {cs : List Char} (h : cs.all (fun c => !isMark c) = true) : ∀ c ∈ cs, isMark c = false := by
  simpa using h

theorem needs_assignPattern : Needs (isMark · = true) assignPattern := by
  refine Needs.seq_right (Needs.seq_left (needs_char fun c hc => ?_))
  rw [isMark, hc, Bool.true_or]

theorem isMark_of_isSpace {c : Char} (h : isSpace c = true) : isMark c = true := by
  rw [isMark, h, Bool.or_true]

theorem needs_urlWithCredentials : Needs (isMark · = true) urlWithCredentialsPattern.regex := by
  have hsep : Needs (isMark · = true) (Regex.literal "://") := needs_literal (c := ':') (by decide) (by decide)
  exact hsep.seq_right.seq_right.seq_left.seq_right

theorem needs_bearer : Needs (isMark · = true) bearerPattern.regex := by
  have hspace : Needs (isMark · = true) (plus (char isSpace)) :=
    Needs.seq_left (needs_char fun _ hc => isMark_of_isSpace hc)
  exact hspace.seq_left.seq_right.seq_right.seq_right.seq_right

theorem needs_privateKey : Needs (isMark · = true) privateKeyPattern.regex := by
  have hbegin : Needs (isMark · = true) (Regex.literal "-----BEGIN ") := needs_literal (c := ' ') (by decide) (by decide)
  exact hbegin.seq_left.seq_right.seq_right

theorem redact_of_no_mark {s : String} (h : ∀ c ∈ s.toList, isMark c = false) : redactPotentialSecrets s = s :=
  redact_of_needs needs_urlWithCredentials needs_assignPattern.seq_left.seq_right.seq_right
    needs_assignPattern.seq_left.seq_right.seq_right needs_assignPattern.seq_left.seq_right.seq_right.seq_right
    needs_bearer needs_privateKey fun c hc => by simp [h c hc]

theorem toNat_of_isAlphanum {c : Char} (h : c.isAlphanum = true) : (48 ≤ c.toNat ∧ c.toNat ≤ 57) ∨
    (65 ≤ c.toNat ∧ c.toNat ≤ 90) ∨ (97 ≤ c.toNat ∧ c.toNat ≤ 122) := by
  delta Char.isAlphanum Char.isAlpha Char.isUpper Char.isLower Char.isDigit at h
  simp only [Bool.or_eq_true, Bool.and_eq_true, decide_eq_true_eq, UInt32.le_iff_toNat_le, ge_iff_le] at h
  rcases h with (h | h) | h
  · exact .inr (.inl h)
  · exact .inr (.inr h)
  · exact .inl h

theorem isMark_of_isAlphanum {c : Char} (h : c.isAlphanum = true) : isMark c = false := by
  have hn := toNat_of_isAlphanum h
  have hcolon : c ≠ ':' := by
    rintro rfl
    exact absurd h (by decide)
  have hequals : c ≠ '=' := by
    rintro rfl
    exact absurd h (by decide)
  have hspace : isSpace c = false := by
    simp only [isSpace, Bool.or_eq_false_iff, Bool.and_eq_false_iff, decide_eq_false_iff_not, beq_eq_false_iff_ne]
    omega
  rw [isMark, hspace, beq_eq_false_iff_ne.2 hcolon, beq_eq_false_iff_ne.2 hequals]
  rfl

/-- A character of paths. -/
def isNameChar (c : Char) : Bool := isPathChar c || c == '/'

theorem isNameChar_of_isAlphanum {c : Char} (h : c.isAlphanum = true) : isNameChar c = true := by
  simp only [isNameChar, isPathChar, h, Bool.true_or]

theorem isMark_of_isNameChar {c : Char} (h : isNameChar c = true) : isMark c = false := by
  simp only [isNameChar, isPathChar, Bool.or_eq_true, beq_iff_eq] at h
  rcases h with (((h | rfl) | rfl) | rfl) | rfl
  · exact isMark_of_isAlphanum h
  · decide
  · decide
  · decide
  · decide

theorem chars_of_domain {s : String} (h : test domainPattern s = true) : ∀ c ∈ s.toList, isNameChar c = true := by
  have hlabel : ∀ c : Char, (c.isAlphanum || c == '-') = true → isNameChar c = true := by
    intro c hc
    simp only [Bool.or_eq_true, beq_iff_eq] at hc
    rcases hc with hc | rfl
    · exact isNameChar_of_isAlphanum hc
    · decide
  have halpha : ∀ c : Char, c.isAlpha = true → isNameChar c = true := fun c hc =>
    isNameChar_of_isAlphanum (by rw [Char.isAlphanum, hc, Bool.true_or])
  have hchar : Only (isNameChar · = true) (char Char.isAlphanum) := only_char fun _ hc => isNameChar_of_isAlphanum hc
  refine Only.of_test ?_ starts_bol_seq ends_eol.seq_right.seq_right.seq_right.seq_right h
  refine (only_look _).seq (Only.seq ?_ ((only_char halpha).seq ((only_char halpha).plus.seq (only_look _))))
  refine (hchar.seq (Only.seq ?_ (only_literal (List.all_eq_true.1 (by decide))))).plus
  exact (((only_char hlabel).upto 61).seq hchar).opt

theorem chars_of_unixPath {s : String} (h : test unixPathPattern s = true) : ∀ c ∈ s.toList, isNameChar c = true := by
  have hname : Only (isNameChar · = true) (plus (char isPathChar)) :=
    (only_char fun c hc => by rw [isNameChar, hc, Bool.true_or]).plus
  have hslash : Only (isNameChar · = true) (Regex.literal "/") := only_literal (List.all_eq_true.1 (by decide))
  refine Only.of_test ?_ starts_bol_seq ends_eol.seq_right.seq_right.seq_right h
  exact (only_look _).seq (hslash.seq (((hname.seq ((hslash.seq hname).rep true)).opt).seq (only_look _)))

theorem chars_of_urlPath {s : String} (h : test urlPathPattern s = true) : ∀ c ∈ s.toList, isNameChar c = true := by
  have hchar : Only (isNameChar · = true) (char fun c => isPathChar c || c == '/') := only_char fun _ hc => hc
  refine Only.of_test ?_ starts_bol_seq ends_eol.seq_right.seq_right.seq_right h
  exact (only_look _).seq ((only_literal (List.all_eq_true.1 (by decide))).seq ((hchar.rep true).seq (only_look _)))

theorem isAlphanum_of_isUpper {c : Char} (h : c.isUpper = true) : c.isAlphanum = true := by
  have halpha : c.isAlpha = true := by
    delta Char.isAlpha
    rw [h, Bool.true_or]
  rw [Char.isAlphanum, halpha, Bool.true_or]

theorem toLower_of_not_isUpper {c : Char} (h : ¬ c.isUpper = true) : c.toLower = c := by
  delta Char.toLower
  rw [dif_neg]
  intro hbounds
  refine h ?_
  delta Char.isUpper
  simpa using hbounds

theorem toLower_of_isMark {c : Char} (h : isMark c = true) : c.toLower = c := by
  refine toLower_of_not_isUpper fun hu => ?_
  rw [isMark_of_isAlphanum (isAlphanum_of_isUpper hu)] at h
  cases h

theorem isAlphanum_of_toLower {c : Char} (h : c.toLower.isAlphanum = true) : c.isAlphanum = true := by
  by_cases hu : c.isUpper = true
  · exact isAlphanum_of_isUpper hu
  · rwa [toLower_of_not_isUpper hu] at h

theorem chars_of_unit {units : List Char} (hunits : ∀ c ∈ units, c.isAlphanum = true) {s : String}
    (h : test (unitPattern units) s = true) : ∀ c ∈ s.toList, isNameChar c = true := by
  have hdigit : Only (isNameChar · = true) (char Char.isDigit) :=
    only_char fun c hc => isNameChar_of_isAlphanum (by rw [Char.isAlphanum, hc, Bool.or_true])
  have hunit : Only (isNameChar · = true) (char fun c => units.contains c.toLower) := by
    refine only_char fun c hc => isNameChar_of_isAlphanum (isAlphanum_of_toLower (hunits _ ?_))
    simpa using hc
  refine Only.of_test ?_ starts_bol_seq ends_eol.seq_right.seq_right.seq_right h
  exact (only_look _).seq (hdigit.plus.seq (hunit.seq (only_look _)))

theorem redact_of_names {s : String} (h : ∀ c ∈ s.toList, isNameChar c = true) : redactPotentialSecrets s = s :=
  redact_of_no_mark fun c hc => isMark_of_isNameChar (h c hc)

def Clean (a : Js) : Prop := sanitizeForJson a = a

theorem clean_arr {xs : List Js} : Clean (.arr xs) ↔ ∀ x ∈ xs, Clean x := by
  rw [Clean, sanitizeForJson, Js.arr.injEq]
  induction xs with
  | nil => simp [sanitizeItems]
  | cons x xs ih => rw [sanitizeItems, List.cons.injEq, ih, List.forall_mem_cons]; rfl

theorem length_sanitizeMembers (ms : List (String × Js)) : (sanitizeMembers ms).length ≤ ms.length := by
  induction ms with
  | nil => exact Nat.le_refl 0
  | cons m ms ih =>
    obtain ⟨key, x⟩ := m
    rw [sanitizeMembers]
    split
    · exact Nat.le_succ_of_le ih
    · exact Nat.succ_le_succ ih

theorem clean_obj {ms : List (String × Js)} :
    Clean (.obj ms) ↔ ∀ m ∈ ms, isSensitiveFieldName m.1 = false ∧ Clean m.2 := by
  rw [Clean, sanitizeForJson, Js.obj.injEq]
  induction ms with
  | nil => simp [sanitizeMembers]
  | cons m ms ih =>
    obtain ⟨key, x⟩ := m
    rw [sanitizeMembers, List.forall_mem_cons]
    by_cases hkey : isSensitiveFieldName key = true
    · -- a member is missing then
      rw [if_pos hkey]
      constructor
      · intro h
        have hlen := length_sanitizeMembers ms
        rw [h, List.length_cons] at hlen
        omega
      · rintro ⟨⟨hn, -⟩, -⟩
        rw [hkey] at hn
        cases hn
    · rw [if_neg hkey, List.cons.injEq, ih, Prod.mk.injEq]
      simp only [true_and, Bool.not_eq_true] at hkey ⊢
      rw [hkey]
      simp only [true_and]
      rfl

def CleanSchema (s : Zod) : Prop := ∀ a b, s a = some b → Clean b

theorem cleanSchema_boolean : CleanSchema boolean := by
  intro a b h
  cases a <;> cases h
  rfl

theorem cleanSchema_int (lo hi : Rat) : CleanSchema (int lo hi) := by
  intro a b h
  cases a with
  | num x =>
    rw [int] at h
    split at h
    · cases h; rfl
    · cases h
  | _ => cases h

theorem cleanSchema_date : CleanSchema date := by
  intro a b h
  cases a with
  | date t =>
    cases t with
    | none => cases h
    | some t => cases h; rfl
  | _ => cases h

theorem cleanSchema_regex {r : Regex} (hr : ∀ s, test r s = true → redactPotentialSecrets s = s) :
    CleanSchema (Zod.regex r string) := by
  intro a b h
  cases a with
  | str s =>
    simp only [Zod.regex, Zod.refine, Zod.string, Option.bind_some] at h
    split at h
    next htest =>
      cases h
      exact congrArg Js.str (hr s htest)
    next => cases h
  | _ => cases h

theorem CleanSchema.optional {s : Zod} (hs : CleanSchema s) : CleanSchema (optional s) := by
  intro a b h
  rw [Zod.optional] at h
  split at h
  · cases h; rfl
  · exact hs a b h

theorem CleanSchema.preprocess {s : Zod} (hs : CleanSchema s) (f : Js → Js) : CleanSchema (preprocess f s) :=
  fun a b h => hs (f a) b h

theorem cleanSchema_unixPath : CleanSchema unixPathSchema := by
  intro a b h
  rw [unixPathSchema, Zod.or] at h
  rcases hr : Zod.regex unixPathPattern string a with _ | c
  · rw [hr, Option.none_or, Zod.literal] at h
    split at h
    next hempty =>
      cases h
      rw [hempty]
      exact congrArg Js.str (redact_of_no_mark (by simp))
    next => cases h
  · rw [hr, Option.some_or] at h
    cases h
    exact cleanSchema_regex (fun _ hs => redact_of_names (chars_of_unixPath hs)) a b hr

/-- The target of a proxy is checked against the patterns. -/
theorem cleanSchema_proxyTarget : CleanSchema proxyTargetSchema := by
  refine CleanSchema.optional fun a b h => ?_
  obtain ⟨c, hc, hif⟩ := Option.bind_eq_some_iff.1 h
  split at hif
  next hno =>
    cases hif
    cases b with
    | str s =>
      have hs : redactPotentialSecrets s = s := by simpa [noSecret, containsSecretLikeValue] using hno
      exact congrArg Js.str hs
    | _ => cases hno
  next => cases hif

theorem cleanSchema_timeUnit : CleanSchema timeUnitSchema := cleanSchema_regex fun _ hs =>
  redact_of_names (chars_of_unit (List.all_eq_true.1 rfl) hs)

theorem cleanSchema_sizeUnit : CleanSchema sizeUnitSchema := cleanSchema_regex fun _ hs =>
  redact_of_names (chars_of_unit (List.all_eq_true.1 rfl) hs)

/-! ### Objects that a schema outputs -/

/-- Members that come from fields of the schema, or were cleared. -/
structure Typed (fields : List (String × Zod)) (ms : List (String × Js)) : Prop where
  names : ∀ m ∈ ms, m.1 ∈ fields.map Prod.fst
  distinct : (ms.map Prod.fst).Nodup
  values : ∀ m ∈ ms, m.2 = .undefined ∨ ∃ s a, (m.1, s) ∈ fields ∧ s a = some m.2

theorem typed_of_object (fields : List (String × Zod)) {a b : Js} (hf : (fields.map Prod.fst).Nodup)
    (h : object fields a = some b) : ∃ ms, b = .obj ms ∧ Typed fields ms := by
  cases a with
  | obj ms =>
    obtain ⟨out, hout, rfl⟩ := Option.map_eq_some_iff.1 h
    obtain ⟨hnames, hvalues⟩ := Zod.mapM_field hout
    refine ⟨_, rfl, ?_, ?_, ?_⟩
    · intro m hm
      rw [← hnames]
      exact List.mem_map_of_mem (List.mem_filter.1 hm).1
    · exact (List.filter_sublist.map Prod.fst).nodup (hnames ▸ hf)
    · intro m hm
      obtain ⟨s, hs, ha⟩ := hvalues m (List.mem_filter.1 hm).1
      exact .inr ⟨s, _, hs, ha⟩
  | _ => cases h

theorem Typed.assign {fields : List (String × Zod)} {ms : List (String × Js)} (h : Typed fields ms) {key : String}
    (hk : key ∈ fields.map Prod.fst) : Typed fields (Js.setMember key .undefined ms) := by
  refine ⟨?_, Js.nodup_setMember h.distinct, ?_⟩
  · intro m hm
    rcases Js.mem_setMember hm with rfl | hm
    · exact hk
    · exact h.names m hm
  · intro m hm
    rcases Js.mem_setMember hm with rfl | hm
    · exact .inl rfl
    · exact h.values m hm

variable {fields : List (String × Zod)} {ms : List (String × Js)}

/-- Only the fields `free` decide whether an object is left alone, when the schemas of the others let nothing else pass. -/
theorem Typed.clean_iff (free : List String) (h : Typed fields ms)
    (hkeys : ∀ f ∈ fields.map Prod.fst, isSensitiveFieldName f = false)
    (hclosed : ∀ f ∈ fields, f.1 ∉ free → CleanSchema f.2) :
    Clean (.obj ms) ↔ ∀ key ∈ free, Clean (Js.get (.obj ms) key) := by
  rw [clean_obj]
  constructor
  · intro hall key _
    rcases Js.get_eq_undefined_or_mem ms key with hu | hmem
    · rw [hu]
      rfl
    · exact (hall _ hmem).2
  · intro hall m hm
    refine ⟨hkeys m.1 (h.names m hm), ?_⟩
    by_cases hfree : m.1 ∈ free
    · rw [← Js.get_of_mem h.distinct hm]
      exact hall m.1 hfree
    · rcases h.values m hm with hu | ⟨s, a, hs, ha⟩
      · rw [hu]
        rfl
      · exact hclosed (m.1, s) hs hfree a m.2 ha

theorem Typed.get {s : Zod} (h : Typed fields ms) (hf : (fields.map Prod.fst).Nodup) (key : String)
    (hs : (key, s) ∈ fields) : Js.get (.obj ms) key = .undefined ∨ ∃ a, s a = some (Js.get (.obj ms) key) := by
  rcases Js.get_eq_undefined_or_mem ms key with hu | hmem
  · exact .inl hu
  · rcases h.values _ hmem with hu | ⟨s', a, hs', ha⟩
    · exact .inl hu
    · have heq : s' = s := by
        have hinj := List.inj_on_of_nodup_map hf hs' hs rfl
        exact (Prod.mk.inj hinj).2
      subst heq
      exact .inr ⟨a, ha⟩

/-- A text that the patterns leave alone, or no text. -/
def Unredacted (t : Js) : Prop := ∀ s, t = .str s → redactPotentialSecrets s = s

theorem clean_iff_unredacted {t : Js} (h : t = .undefined ∨ ∃ s, t = .str s) : Clean t ↔ Unredacted t := by
  rcases h with rfl | ⟨s, rfl⟩
  · exact ⟨fun _ s hs => (by cases hs), fun _ => rfl⟩
  · constructor
    · intro hc s' hs'
      cases hs'
      exact Js.str.inj hc
    · intro hu
      exact congrArg Js.str (hu s rfl)

theorem string_out {a b : Js} (h : string a = some b) : ∃ s, b = .str s := by
  cases a <;> cases h
  exact ⟨_, rfl⟩

theorem optional_string_out {a b : Js} (h : optional string a = some b) : b = .undefined ∨ ∃ s, b = .str s := by
  rw [Zod.optional] at h
  split at h
  · cases h
    exact .inl rfl
  · exact .inr (string_out h)

variable (platform : Platform)

def itemsOf : Js → List Js
  | .arr xs => xs
  | _ => []

/-- The texts of a route that no pattern of the schema restricts. -/
def freeTexts (route : Js) : List Js :=
  route.get "id" ::
    ((locationsOf route).flatMap (fun l => [l.get "try_files", l.get "index", l.get "extra_directives"]) ++
      ((route.get "advanced").get "gzip_types" :: (route.get "metadata").get "createdBy" ::
        itemsOf ((route.get "metadata").get "tags")))

def locationFields : List (String × Zod) :=
  [("path", urlPathSchema), ("proxy_pass", proxyTargetSchema), ("try_files", optional string), ("index", optional string),
    ("extra_directives", optional string)]

theorem location_clean_iff {a b : Js} (h : locationConfigSchema platform a = some b) :
    Clean b ↔ ∀ t ∈ [b.get "try_files", b.get "index", b.get "extra_directives"], Unredacted t := by
  obtain ⟨loc, hloc, hrefine⟩ := Option.bind_eq_some_iff.1 h
  have hb : loc = b := by
    rw [refineLocation] at hrefine
    split at hrefine
    · cases hrefine
    · split at hrefine
      · cases hrefine
      · exact Option.some.inj hrefine
  subst hb
  obtain ⟨ms, rfl, htyped⟩ := typed_of_object locationFields (by decide) hloc
  rw [htyped.clean_iff ["try_files", "index", "extra_directives"] (by decide +kernel)]
  · have htext : ∀ key, (key, optional string) ∈ locationFields →
        Js.get (.obj ms) key = .undefined ∨ ∃ s, Js.get (.obj ms) key = .str s := by
      intro key hkey
      rcases htyped.get (by decide) key hkey with hu | ⟨x, hx⟩
      · exact .inl hu
      · exact optional_string_out hx
    simp only [List.forall_mem_cons, List.not_mem_nil, false_imp_iff, implies_true, and_true]
    rw [clean_iff_unredacted (htext "try_files" (by simp [locationFields])),
      clean_iff_unredacted (htext "index" (by simp [locationFields])),
      clean_iff_unredacted (htext "extra_directives" (by simp [locationFields]))]
  · intro f hf hfree
    simp only [locationFields, List.mem_cons, List.not_mem_nil, or_false] at hf
    rcases hf with rfl | rfl | rfl | rfl | rfl
    · exact cleanSchema_regex fun _ hs => redact_of_names (chars_of_urlPath hs)
    · exact cleanSchema_proxyTarget
    · exact absurd (by simp) hfree
    · exact absurd (by simp) hfree
    · exact absurd (by simp) hfree

def advancedFields : List (String × Zod) :=
  [("client_max_body_size", sizeUnitSchema), ("keepalive_timeout", timeUnitSchema), ("gzip", boolean),
    ("gzip_types", optional string), ("caching", boolean), ("cache_valid", optional timeUnitSchema)]

/-- The fields are those of the schema, but for cleared ones. -/
theorem advanced_typed {a b : Js} (h : advancedConfigSchema a = some b) : ∃ ms, b = .obj ms ∧ Typed advancedFields ms := by
  obtain ⟨adv, hadv, hrefine⟩ := Option.bind_eq_some_iff.1 h
  obtain ⟨ms, rfl, htyped⟩ := typed_of_object advancedFields (by decide) hadv
  rw [refineAdvanced] at hrefine
  split at hrefine
  · cases hrefine
  split at hrefine
  · cases hrefine
  simp only [Option.some.injEq] at hrefine
  have hgzip : ∃ ns, (if !((Js.obj ms).get "gzip").truthy && ((Js.obj ms).get "gzip_types").truthy then
      assign "gzip_types" .undefined (.obj ms) else .obj ms) = .obj ns ∧ Typed advancedFields ns := by
    split
    · exact ⟨_, rfl, htyped.assign (by decide)⟩
    · exact ⟨_, rfl, htyped⟩
  obtain ⟨ns, hns, htyped'⟩ := hgzip
  rw [hns] at hrefine
  subst hrefine
  split
  · exact ⟨_, rfl, htyped'.assign (by decide)⟩
  · exact ⟨_, rfl, htyped'⟩

theorem advanced_clean_iff {a b : Js} (h : advancedConfigSchema a = some b) :
    Clean b ↔ Unredacted (b.get "gzip_types") := by
  obtain ⟨ms, rfl, htyped⟩ := advanced_typed h
  rw [htyped.clean_iff ["gzip_types"] (by decide +kernel)]
  · have htext : Js.get (.obj ms) "gzip_types" = .undefined ∨ ∃ s, Js.get (.obj ms) "gzip_types" = .str s := by
      rcases htyped.get (s := optional string) (by decide) "gzip_types" (by simp [advancedFields]) with hu | ⟨x, hx⟩
      · exact .inl hu
      · exact optional_string_out hx
    rw [List.forall_mem_singleton, clean_iff_unredacted htext]
  · intro f hf hfree
    simp only [advancedFields, List.mem_cons, List.not_mem_nil, or_false] at hf
    rcases hf with rfl | rfl | rfl | rfl | rfl | rfl
    · exact cleanSchema_sizeUnit
    · exact cleanSchema_timeUnit
    · exact cleanSchema_boolean
    · exact absurd (by simp) hfree
    · exact cleanSchema_boolean
    · exact cleanSchema_timeUnit.optional

def metadataFields : List (String × Zod) :=
  [("createdAt", preprocess (dateOf platform) date), ("updatedAt", preprocess (dateOf platform) date),
    ("createdBy", string), ("tags", array string)]

theorem mapM_forall {s : Zod} {P : Js → Prop} (hs : ∀ a b, s a = some b → P b) {xs ys : List Js}
    (h : xs.mapM s = some ys) : ∀ y ∈ ys, P y := by
  induction xs generalizing ys with
  | nil =>
    cases h
    simp
  | cons x xs ih =>
    rw [List.mapM_cons] at h
    obtain ⟨y, hy, h⟩ := Option.bind_eq_some_iff.1 h
    obtain ⟨rest, hrest, h⟩ := Option.bind_eq_some_iff.1 h
    cases h
    exact List.forall_mem_cons.2 ⟨hs x y hy, ih hrest⟩

theorem array_out {s : Zod} {P : Js → Prop} (hs : ∀ a b, s a = some b → P b) {a b : Js} (h : array s a = some b) :
    ∃ xs, b = .arr xs ∧ ∀ x ∈ xs, P x := by
  cases a with
  | arr xs =>
    obtain ⟨ys, hys, rfl⟩ := Option.map_eq_some_iff.1 h
    exact ⟨ys, rfl, mapM_forall hs hys⟩
  | _ => cases h

theorem metadata_clean_iff {a b : Js} (h : metadataSchema platform a = some b) :
    Clean b ↔ Unredacted (b.get "createdBy") ∧ ∀ t ∈ itemsOf (b.get "tags"), Unredacted t := by
  obtain ⟨ms, rfl, htyped⟩ := typed_of_object (metadataFields platform) (by simp [metadataFields]) h
  have hkeys : ∀ f ∈ ["createdAt", "updatedAt", "createdBy", "tags"], isSensitiveFieldName f = false := by decide +kernel
  rw [htyped.clean_iff ["createdBy", "tags"] hkeys]
  · have hnodup : ((metadataFields platform).map Prod.fst).Nodup := by simp [metadataFields]
    have htext : Js.get (.obj ms) "createdBy" = .undefined ∨ ∃ s, Js.get (.obj ms) "createdBy" = .str s := by
      rcases htyped.get (s := string) hnodup "createdBy" (by simp [metadataFields]) with hu | ⟨x, hx⟩
      · exact .inl hu
      · exact .inr (string_out hx)
    have htags : Clean (Js.get (.obj ms) "tags") ↔ ∀ t ∈ itemsOf (Js.get (.obj ms) "tags"), Unredacted t := by
      rcases htyped.get (s := array string) hnodup "tags" (by simp [metadataFields]) with hu | ⟨x, hx⟩
      · rw [hu]
        exact ⟨fun _ t ht => (by cases ht), fun _ => rfl⟩
      · obtain ⟨xs, hxs, hstr⟩ := array_out (fun _ _ hs => string_out hs) hx
        rw [hxs, clean_arr]
        exact forall₂_congr fun t ht => clean_iff_unredacted (.inr (hstr t ht))
    rw [List.forall_mem_cons, List.forall_mem_singleton, clean_iff_unredacted htext, htags]
  · intro f hf hfree
    simp only [metadataFields, List.mem_cons, List.not_mem_nil, or_false] at hf
    rcases hf with rfl | rfl | rfl | rfl
    · exact cleanSchema_date.preprocess _
    · exact cleanSchema_date.preprocess _
    · exact absurd (by simp) hfree
    · exact absurd (by simp) hfree

theorem route_typed {a b : Js} (h : routeSchema platform a = some b) :
    ∃ ms, b = .obj ms ∧ Typed (routeFields platform) ms := by
  obtain ⟨route, hroute, hrefine⟩ := Option.bind_eq_some_iff.1 h
  obtain ⟨ms, rfl, htyped⟩ := typed_of_object _ (nodup_routeFields platform) hroute
  rw [refineRoute] at hrefine
  iterate 6
    split at hrefine
    · cases hrefine
  simp only [Option.some.injEq] at hrefine
  subst hrefine
  split
  · exact ⟨_, rfl, htyped⟩
  · exact ⟨_, rfl, (htyped.assign (by simp [routeFields])).assign (by simp [routeFields])⟩

variable {platform}

theorem locations_clean_iff {ms : List (String × Js)} (h : Typed (routeFields platform) ms) :
    Clean (Js.get (.obj ms) "locations") ↔ ∀ l ∈ locationsOf (.obj ms), ∀ t ∈ [l.get "try_files", l.get "index",
      l.get "extra_directives"], Unredacted t := by
  rw [locationsOf]
  rcases h.get (s := array (locationConfigSchema platform)) (nodup_routeFields platform) "locations"
    (by simp [routeFields]) with hu | ⟨x, hx⟩
  · rw [hu]
    exact ⟨fun _ l hl => (by cases hl), fun _ => rfl⟩
  · obtain ⟨ls, hls, hout⟩ := array_out (fun _ _ hs => location_clean_iff platform hs) hx
    rw [hls, clean_arr]
    exact forall₂_congr fun l hl => hout l hl

theorem optional_clean_iff {ms : List (String × Js)} (key : String) (s : Zod) (P : Js → Prop)
    (h : Typed (routeFields platform) ms) (hs : (key, optional s) ∈ routeFields platform)
    (hclean : ∀ a b, s a = some b → (Clean b ↔ P b)) (hundefined : P .undefined) :
    Clean (Js.get (.obj ms) key) ↔ P (Js.get (.obj ms) key) := by
  rcases h.get (nodup_routeFields platform) key hs with hu | ⟨x, hx⟩
  · rw [hu]
    exact ⟨fun _ => hundefined, fun _ => rfl⟩
  · rw [Zod.optional] at hx
    split at hx
    · rw [← Option.some.inj hx]
      exact ⟨fun _ => hundefined, fun _ => rfl⟩
    · exact hclean _ _ hx

theorem closed_routeFields : ∀ f ∈ routeFields platform, f.1 ∉ ["id", "locations", "advanced", "metadata"] →
    CleanSchema f.2 := by
  intro f hf hfree
  simp only [routeFields, List.mem_cons, List.not_mem_nil, or_false] at hf
  rcases hf with rfl | rfl | rfl | rfl | rfl | rfl | rfl | rfl | rfl | rfl | rfl | rfl
  · exact absurd (by simp) hfree
  · exact cleanSchema_regex fun _ hs => redact_of_names (chars_of_domain hs)
  · exact (cleanSchema_int 1 65535).preprocess _
  · exact cleanSchema_unixPath
  · exact cleanSchema_boolean
  · exact cleanSchema_boolean
  · exact cleanSchema_unixPath.optional
  · exact cleanSchema_unixPath.optional
  · exact cleanSchema_proxyTarget
  · exact absurd (by simp) hfree
  · exact absurd (by simp) hfree
  · exact absurd (by simp) hfree

/-- An accepted route is written as it is just when the patterns leave its free texts alone. -/
theorem sanitizeForJson_route_iff {platform : Platform} {input r : Js} (h : routeSchema platform input = some r) :
    sanitizeForJson r = r ↔ ∀ t ∈ freeTexts r, ∀ s, t = .str s → redactPotentialSecrets s = s := by
  obtain ⟨ms, rfl, htyped⟩ := route_typed platform h
  have hkeys : ∀ f ∈ ["id", "domain", "port", "root", "enabled", "ssl", "ssl_certificate", "ssl_certificate_key",
      "proxy_pass", "locations", "advanced", "metadata"], isSensitiveFieldName f = false := by decide +kernel
  have hid : Clean (Js.get (.obj ms) "id") ↔ Unredacted (Js.get (.obj ms) "id") := by
    refine clean_iff_unredacted ?_
    rcases htyped.get (s := string) (nodup_routeFields platform) "id" (by simp [routeFields]) with hu | ⟨x, hx⟩
    · exact .inl hu
    · exact .inr (string_out hx)
  have hadvanced := optional_clean_iff "advanced" advancedConfigSchema (fun b => Unredacted (b.get "gzip_types")) htyped
    (by simp [routeFields]) (fun _ _ hs => advanced_clean_iff hs) fun s hs => (by cases hs)
  have hmetadata := optional_clean_iff "metadata" (metadataSchema platform)
    (fun b => Unredacted (b.get "createdBy") ∧ ∀ t ∈ itemsOf (b.get "tags"), Unredacted t) htyped
    (by simp [routeFields]) (fun _ _ hs => metadata_clean_iff platform hs)
    ⟨fun s hs => (by cases hs), fun t ht => (by cases ht)⟩
  show Clean (.obj ms) ↔ ∀ t ∈ freeTexts (.obj ms), Unredacted t
  rw [htyped.clean_iff _ hkeys closed_routeFields]
  have hlocations := locations_clean_iff htyped
  simp only [freeTexts, List.forall_mem_cons, List.forall_mem_append, List.forall_mem_flatMap, List.not_mem_nil,
    false_imp_iff, implies_true, and_true] at hlocations ⊢
  rw [hid, hadvanced, hmetadata, hlocations]

/-- A route with one tag. -/
def taggedRoute (tag : String) : Js :=
  .obj [("id", .str "a"), ("domain", .str "a.com"), ("port", .num 80), ("root", .str "/var"), ("enabled", .bool true),
    ("ssl", .bool false), ("locations", .arr [.obj [("path", .str "/"), ("index", .str "index.html")]]),
    ("metadata", .obj [("createdAt", .date (some 0)), ("updatedAt", .date (some 0)), ("createdBy", .str "system"),
      ("tags", .arr [.str tag])])]

theorem sanitizeForJson_route_iff_blue :
    ∃ r, routeSchema ⟨.simple, .iso⟩ (taggedRoute "blue") = some r ∧ sanitizeForJson r = r := by
  have htexts : (routeSchema ⟨.simple, .iso⟩ (taggedRoute "blue")).map freeTexts = some [.str "a", .undefined,
      .str "index.html", .undefined, .undefined, .str "system", .str "blue"] := by decide +kernel
  obtain ⟨r, hr, hfree⟩ := Option.map_eq_some_iff.1 htexts
  have hclean : ∀ t ∈ [Js.str "a", .undefined, .str "index.html", .undefined, .undefined, .str "system", .str "blue"],
      sanitizeForJson t = t := by decide +kernel
  refine ⟨r, hr, (sanitizeForJson_route_iff hr).2 fun t ht s hs => ?_⟩
  rw [hfree] at ht
  have hsame := hclean t ht
  rw [hs] at hsame
  exact Js.str.inj hsame

/-- An accepted route whose tag is rewritten. -/
theorem sanitizeForJson_route_ne :
    ∃ r, routeSchema ⟨.simple, .iso⟩ (taggedRoute "password=x") = some r ∧ sanitizeForJson r ≠ r := by
  have hne : (routeSchema ⟨.simple, .iso⟩ (taggedRoute "password=x")).map (fun r => decide (sanitizeForJson r = r)) =
      some false := by decide +kernel
  obtain ⟨r, hr, hfalse⟩ := Option.map_eq_some_iff.1 hne
  exact ⟨r, hr, of_decide_eq_false hfalse⟩

end NginxAdmin.Web
