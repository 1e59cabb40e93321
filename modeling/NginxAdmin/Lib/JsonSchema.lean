import NginxAdmin.Lib.Json
import NginxAdmin.Lib.Regex

/-!
# JSON Schema

The keywords of the draft 2020-12 vocabulary that a schema of objects, arrays and texts uses. A schema is the
check that it makes of a document; a keyword that does not apply to the kind of the value accepts it.
-/

namespace NginxAdmin

abbrev Schema := Json → Bool

namespace Schema

inductive Kind where
  | string
  | integer
  | boolean
  | array
  | object
deriving DecidableEq

def type : Kind → Schema
  | .string, .str _ => true
  | .integer, .int _ => true
  | .boolean, .bool _ => true
  | .array, .arr _ => true
  | .object, .obj _ => true
  | _, _ => false

/-- The keywords of one schema. -/
def all (keywords : List Schema) : Schema := fun j => keywords.all fun k => k j

def pattern (a : Regex) : Schema
  | .str s => a.test s
  | _ => true

def not (schema : Schema) : Schema := fun j => !schema j

/-- `minLength`, in characters. -/
def minLength (n : Nat) : Schema
  | .str s => decide (n ≤ s.length)
  | _ => true

def maxLength (n : Nat) : Schema
  | .str s => decide (s.length ≤ n)
  | _ => true

def minimum (n : Int) : Schema
  | .int k => decide (n ≤ k)
  | _ => true

def maximum (n : Int) : Schema
  | .int k => decide (k ≤ n)
  | _ => true

def minItems (n : Nat) : Schema
  | .arr js => decide (n ≤ js.length)
  | _ => true

def items (schema : Schema) : Schema
  | .arr js => js.all schema
  | _ => true

/-- `enum` over texts. -/
def enumStr (values : List String) : Schema
  | .str s => decide (s ∈ values)
  | _ => false

/-- `enum` over integers. -/
def enumInt (values : List Int) : Schema
  | .int n => decide (n ∈ values)
  | _ => false

def const (s : String) : Schema := enumStr [s]

def properties (ps : List (String × Schema)) : Schema
  | .obj ms => ps.all fun p => ((ms.lookup p.1).map p.2).getD true
  | _ => true

def required (names : List String) : Schema
  | .obj ms => names.all fun name => decide (name ∈ ms.map Prod.fst)
  | _ => true

/-- `"additionalProperties": false` beside the properties `names`. -/
def closed (names : List String) : Schema
  | .obj ms => ms.all fun m => decide (m.1 ∈ names)
  | _ => true

def oneOf (schemas : List Schema) : Schema := fun j => decide ((schemas.countP fun s => s j) = 1)

/-- An object with no other properties than `ps`. -/
def object (names : List String) (ps : List (String × Schema)) : Schema :=
  all [type .object, closed (ps.map Prod.fst), required names, properties ps]

@[simp] theorem all_nil (j : Json) : all [] j = true := rfl

@[simp] theorem all_cons (k : Schema) (ks : List Schema) (j : Json) : all (k :: ks) j = (k j && all ks j) := by
  simp [all]

@[simp] theorem not_apply (schema : Schema) (j : Json) : Schema.not schema j = !schema j := rfl

@[simp] theorem pattern_str (a : Regex) (s : String) : pattern a (.str s) = a.test s := rfl

@[simp] theorem items_arr (schema : Schema) (js : List Json) : items schema (.arr js) = js.all schema := rfl

theorem properties_obj {ps : List (String × Schema)} {ms : List (String × Json)} (hkeys : ms.map Prod.fst = ps.map Prod.fst)
    (hnodup : (ps.map Prod.fst).Nodup) :
    properties ps (.obj ms) = true ↔ List.Forall₂ (fun p m => p.2 m.2 = true) ps ms := by
  rw [properties, List.all_eq_true]
  induction ps generalizing ms with
  | nil =>
    obtain rfl : ms = [] := List.map_eq_nil_iff.1 hkeys
    simp
  | cons p ps ih =>
    obtain ⟨m, ms, rfl, hm, hkeys⟩ := List.map_eq_cons_iff.1 hkeys
    rw [List.map_cons, List.nodup_cons] at hnodup
    rw [List.forall_mem_cons, List.forall₂_cons, ← ih hkeys hnodup.2]
    refine and_congr ?_ (forall₂_congr fun q hq => ?_)
    · rw [← hm, List.lookup_cons, beq_self_eq_true]
      rfl
    · have hne : (q.1 == m.1) = false := by
        rw [hm, beq_eq_false_iff_ne]
        exact fun he => hnodup.1 (he ▸ List.mem_map_of_mem hq)
      rw [List.lookup_cons, hne]

theorem object_obj {names : List String} {ps : List (String × Schema)} {ms : List (String × Json)}
    (hkeys : ms.map Prod.fst = ps.map Prod.fst) (hnodup : (ps.map Prod.fst).Nodup)
    (hnames : ∀ name ∈ names, name ∈ ps.map Prod.fst) :
    object names ps (.obj ms) = true ↔ List.Forall₂ (fun p m => p.2 m.2 = true) ps ms := by
  have hclosed : closed (ps.map Prod.fst) (.obj ms) = true := by
    rw [closed, ← hkeys, List.all_eq_true]
    exact fun m hm => decide_eq_true (List.mem_map_of_mem hm)
  have hrequired : required names (.obj ms) = true := by
    rw [required, hkeys, List.all_eq_true]
    exact fun name hn => decide_eq_true (hnames name hn)
  rw [← properties_obj hkeys hnodup, object, all_cons, all_cons, all_cons, all_cons, all_nil, hclosed, hrequired]
  simp [type]

@[simp] theorem items_map {α : Type} (schema : Schema) (write : α → Json) (as : List α) :
    items schema (.arr (as.map write)) = as.all fun a => schema (write a) := by
  rw [items, List.all_map]
  rfl

theorem object_missing {names : List String} {ps : List (String × Schema)} {ms : List (String × Json)} {name : String}
    (hname : name ∈ names) (hms : name ∉ ms.map Prod.fst) : object names ps (.obj ms) = false := by
  have hrequired : required names (.obj ms) = false := by
    rw [required, List.all_eq_false]
    exact ⟨name, hname, by simpa using hms⟩
  simp [object, hrequired]

end Schema

end NginxAdmin
