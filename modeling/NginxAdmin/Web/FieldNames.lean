import NginxAdmin.Web.Secrets

/-!
# Sensitive names in what is stored

`sanitizeForJson` writes and `containsSensitiveFieldName` checks. `sanitized_names`: the check finds nothing in what has
been sanitised, whatever the value, and a value without sensitive names and secrets is left as it is.
-/

namespace NginxAdmin.Web

mutual

def hasSensitiveFieldName : Js → Bool
  | .arr items => hasSensitiveItem items
  | .obj members => hasSensitiveMember members
  | _ => false

def hasSensitiveItem : List Js → Bool
  | [] => false
  | x :: xs => hasSensitiveFieldName x || hasSensitiveItem xs

def hasSensitiveMember : List (String × Js) → Bool
  | [] => false
  | (key, item) :: rest => (isSensitiveFieldName key || hasSensitiveFieldName item) || hasSensitiveMember rest

end

/-- The text is given by the value that `JSON.parse` reads from it; `none` when nothing is written. -/
def stringifyWithoutSecrets (dates : Js.Dates) (value : Js) : Option JsonValue :=
  match h : Js.json dates (sanitizeForJson value) with
  | some parsed => some ⟨parsed, Js.isJson_of_json dates h⟩
  | none => none

def containsSensitiveFieldName (serialized : JsonValue) : Bool := hasSensitiveFieldName serialized.1

mutual

/-- The keys of the objects at any depth. -/
def fieldNames : Js → List String
  | .arr items => fieldNamesOfItems items
  | .obj members => fieldNamesOfMembers members
  | _ => []

def fieldNamesOfItems : List Js → List String
  | [] => []
  | x :: xs => fieldNames x ++ fieldNamesOfItems xs

def fieldNamesOfMembers : List (String × Js) → List String
  | [] => []
  | (key, item) :: rest => key :: (fieldNames item ++ fieldNamesOfMembers rest)

end

mutual

/-- The strings at any depth. -/
def stringLeaves : Js → List String
  | .str s => [s]
  | .arr items => stringLeavesOfItems items
  | .obj members => stringLeavesOfMembers members
  | _ => []

def stringLeavesOfItems : List Js → List String
  | [] => []
  | x :: xs => stringLeaves x ++ stringLeavesOfItems xs

def stringLeavesOfMembers : List (String × Js) → List String
  | [] => []
  | (_, item) :: rest => stringLeaves item ++ stringLeavesOfMembers rest

end

mutual

/-- The check looks at every name at any depth. -/
theorem hasSensitiveFieldName_iff (a : Js) :
    hasSensitiveFieldName a = true ↔ ∃ key ∈ fieldNames a, isSensitiveFieldName key = true := by
  cases a with
  | arr items => exact hasSensitiveItem_iff items
  | obj members => exact hasSensitiveMember_iff members
  | _ => simp [hasSensitiveFieldName, fieldNames]

theorem hasSensitiveItem_iff (items : List Js) :
    hasSensitiveItem items = true ↔ ∃ key ∈ fieldNamesOfItems items, isSensitiveFieldName key = true := by
  cases items with
  | nil => simp [hasSensitiveItem, fieldNamesOfItems]
  | cons x xs =>
    rw [hasSensitiveItem, Bool.or_eq_true, hasSensitiveFieldName_iff x, hasSensitiveItem_iff xs, fieldNamesOfItems]
    simp only [List.mem_append, or_and_right, exists_or]

theorem hasSensitiveMember_iff (members : List (String × Js)) :
    hasSensitiveMember members = true ↔ ∃ key ∈ fieldNamesOfMembers members, isSensitiveFieldName key = true := by
  cases members with
  | nil => simp [hasSensitiveMember, fieldNamesOfMembers]
  | cons m rest =>
    obtain ⟨key, item⟩ := m
    rw [hasSensitiveMember, Bool.or_eq_true, Bool.or_eq_true, hasSensitiveFieldName_iff item,
      hasSensitiveMember_iff rest, fieldNamesOfMembers]
    simp only [List.mem_cons, List.mem_append, or_and_right, exists_or, exists_eq_left, or_assoc]

end

mutual

theorem insensitive_sanitizeForJson (a : Js) : ∀ key ∈ fieldNames (sanitizeForJson a), isSensitiveFieldName key = false := by
  cases a with
  | arr items => exact insensitive_sanitizeItems items
  | obj members => exact insensitive_sanitizeMembers members
  | _ => simp [sanitizeForJson, fieldNames]

theorem insensitive_sanitizeItems (items : List Js) :
    ∀ key ∈ fieldNamesOfItems (sanitizeItems items), isSensitiveFieldName key = false := by
  cases items with
  | nil => exact List.forall_mem_nil _
  | cons x xs =>
    rw [sanitizeItems, fieldNamesOfItems]
    intro key hkey
    rcases List.mem_append.1 hkey with hkey | hkey
    · exact insensitive_sanitizeForJson x key hkey
    · exact insensitive_sanitizeItems xs key hkey

theorem insensitive_sanitizeMembers (members : List (String × Js)) :
    ∀ key ∈ fieldNamesOfMembers (sanitizeMembers members), isSensitiveFieldName key = false := by
  cases members with
  | nil => exact List.forall_mem_nil _
  | cons m rest =>
    obtain ⟨name, item⟩ := m
    rw [sanitizeMembers]
    split
    · exact insensitive_sanitizeMembers rest
    · rename_i hname
      rw [fieldNamesOfMembers]
      intro key hkey
      rcases List.mem_cons.1 hkey with rfl | hkey
      · exact Bool.eq_false_iff.2 hname
      · rcases List.mem_append.1 hkey with hkey | hkey
        · exact insensitive_sanitizeForJson item key hkey
        · exact insensitive_sanitizeMembers rest key hkey

end

mutual

/-- A text has the names of the value it was written for. -/
theorem fieldNames_json {dates : Js.Dates} {a b : Js} (h : Js.json dates a = some b) : fieldNames b ⊆ fieldNames a := by
  cases a with
  | undefined => cases h
  | date t => cases t <;> cases h <;> exact List.nil_subset _
  | arr items => cases h; exact fieldNames_jsonItems items
  | obj members => cases h; exact fieldNames_jsonMembers members
  | _ => cases h; exact List.Subset.refl _

theorem fieldNames_jsonItems {dates : Js.Dates} (items : List Js) :
    fieldNamesOfItems (Js.jsonItems dates items) ⊆ fieldNamesOfItems items := by
  cases items with
  | nil => exact List.Subset.refl _
  | cons x xs =>
    have hx : fieldNames ((Js.json dates x).getD .null) ⊆ fieldNames x := by
      cases hx : Js.json dates x with
      | none => exact List.nil_subset _
      | some y => exact fieldNames_json hx
    rw [Js.jsonItems, fieldNamesOfItems, fieldNamesOfItems]
    intro name hname
    rcases List.mem_append.1 hname with hname | hname
    · exact List.mem_append_left _ (hx hname)
    · exact List.mem_append_right _ (fieldNames_jsonItems xs hname)

theorem fieldNames_jsonMembers {dates : Js.Dates} (members : List (String × Js)) :
    fieldNamesOfMembers (Js.jsonMembers dates members) ⊆ fieldNamesOfMembers members := by
  cases members with
  | nil => exact List.Subset.refl _
  | cons m rest =>
    obtain ⟨key, item⟩ := m
    have hrest : fieldNamesOfMembers (Js.jsonMembers dates rest) ⊆ fieldNamesOfMembers rest := fieldNames_jsonMembers rest
    rw [Js.jsonMembers, fieldNamesOfMembers]
    cases hitem : Js.json dates item with
    | none => exact fun name hname => List.mem_cons_of_mem key (List.mem_append_right _ (hrest hname))
    | some y =>
      intro name hname
      rw [fieldNamesOfMembers, List.mem_cons, List.mem_append] at hname
      rw [List.mem_cons, List.mem_append]
      exact hname.imp_right (Or.imp (fun h => fieldNames_json hitem h) (fun h => hrest h))

end

mutual

theorem sanitizeForJson_of_plain (a : Js) (hnames : ∀ key ∈ fieldNames a, isSensitiveFieldName key = false)
    (htexts : ∀ s ∈ stringLeaves a, redactPotentialSecrets s = s) : sanitizeForJson a = a := by
  cases a with
  | str s => exact congrArg Js.str (htexts s (List.mem_singleton_self s))
  | arr items => exact congrArg Js.arr (sanitizeItems_of_plain items hnames htexts)
  | obj members => exact congrArg Js.obj (sanitizeMembers_of_plain members hnames htexts)
  | _ => rfl

theorem sanitizeItems_of_plain (items : List Js)
    (hnames : ∀ key ∈ fieldNamesOfItems items, isSensitiveFieldName key = false)
    (htexts : ∀ s ∈ stringLeavesOfItems items, redactPotentialSecrets s = s) : sanitizeItems items = items := by
  cases items with
  | nil => rfl
  | cons x xs =>
    rw [fieldNamesOfItems, List.forall_mem_append] at hnames
    rw [stringLeavesOfItems, List.forall_mem_append] at htexts
    rw [sanitizeItems, sanitizeForJson_of_plain x hnames.1 htexts.1, sanitizeItems_of_plain xs hnames.2 htexts.2]

theorem sanitizeMembers_of_plain (members : List (String × Js))
    (hnames : ∀ key ∈ fieldNamesOfMembers members, isSensitiveFieldName key = false)
    (htexts : ∀ s ∈ stringLeavesOfMembers members, redactPotentialSecrets s = s) : sanitizeMembers members = members := by
  cases members with
  | nil => rfl
  | cons m rest =>
    obtain ⟨key, item⟩ := m
    rw [fieldNamesOfMembers, List.forall_mem_cons, List.forall_mem_append] at hnames
    rw [stringLeavesOfMembers, List.forall_mem_append] at htexts
    obtain ⟨hkey, hitem, hrest⟩ := hnames
    rw [sanitizeMembers, if_neg (by rw [hkey]; exact Bool.false_ne_true), sanitizeForJson_of_plain item hitem htexts.1,
      sanitizeMembers_of_plain rest hrest htexts.2]

end

theorem isSome_stringifyWithoutSecrets (dates : Js.Dates) {v : Js} (h : v ≠ .undefined) :
    (stringifyWithoutSecrets dates v).isSome = true := by
  have hjson : Js.json dates (sanitizeForJson v) ≠ none := by
    cases v with
    | undefined => exact absurd rfl h
    | date t => cases t <;> exact fun hn => by cases hn
    | _ => exact fun hn => by cases hn
  rw [stringifyWithoutSecrets]
  split
  · rfl
  · rename_i hnone
    exact absurd hnone hjson

/-- The writer and the check agree, and the writer changes nothing else. -/
theorem sanitized_names (dates : Js.Dates) (v : Js) :
    (∀ text, stringifyWithoutSecrets dates v = some text → containsSensitiveFieldName text = false) ∧
    (v ≠ .undefined → (stringifyWithoutSecrets dates v).isSome = true) ∧
    ((∀ key ∈ fieldNames v, isSensitiveFieldName key = false) →
      (∀ s ∈ stringLeaves v, redactPotentialSecrets s = s) → sanitizeForJson v = v) := by
  refine ⟨?_, isSome_stringifyWithoutSecrets dates, sanitizeForJson_of_plain v⟩
  intro text htext
  rw [stringifyWithoutSecrets] at htext
  split at htext
  · rename_i parsed hjson
    obtain rfl := Option.some.inj htext
    refine Bool.eq_false_iff.2 fun hfound => ?_
    obtain ⟨key, hkey, hsensitive⟩ := (hasSensitiveFieldName_iff parsed).1 hfound
    have hnot := insensitive_sanitizeForJson v key (fieldNames_json hjson hkey)
    rw [hsensitive] at hnot
    cases hnot
  · cases htext

end NginxAdmin.Web
