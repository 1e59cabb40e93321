import Mathlib.Data.List.Forall2
import Mathlib.Data.List.Nodup
import NginxAdmin.Lib.Zod

/-!
# Properties, types and schemas

`Js.Same` is the equality of values up to the order of properties and properties that are `undefined`. `Js.ofType` is the
type of an object by the types of its properties. `Zod.Keeps t s`: what the schema `s` outputs for a value of the type `t`
is the same value.
-/

namespace NginxAdmin

namespace Js

theorem mem_setMember {key : String} {x : Js} {ms : List (String × Js)} {m : String × Js}
    (h : m ∈ setMember key x ms) : m = (key, x) ∨ m ∈ ms := by
  induction ms with
  | nil => exact .inl (List.mem_singleton.1 h)
  | cons n ms ih =>
    obtain ⟨k, y⟩ := n
    rw [setMember] at h
    split at h
    · rcases List.mem_cons.1 h with h | h
      · exact .inl h
      · exact .inr (List.mem_cons_of_mem _ h)
    · rcases List.mem_cons.1 h with rfl | h
      · exact .inr List.mem_cons_self
      · exact (ih h).imp_right (List.mem_cons_of_mem _)

theorem nodup_setMember {key : String} {x : Js} {ms : List (String × Js)} (h : (ms.map Prod.fst).Nodup) :
    ((setMember key x ms).map Prod.fst).Nodup := by
  induction ms with
  | nil => simp [setMember]
  | cons n ms ih =>
    obtain ⟨k, y⟩ := n
    rw [List.map_cons, List.nodup_cons] at h
    rw [setMember]
    split
    next hk =>
      subst hk
      exact List.nodup_cons.2 h
    next hk =>
      rw [List.map_cons, List.nodup_cons]
      refine ⟨fun hmem => ?_, ih h.2⟩
      obtain ⟨m, hm, hmk⟩ := List.mem_map.1 hmem
      rcases mem_setMember hm with rfl | hm
      · exact hk hmk.symm
      · exact h.1 (hmk ▸ List.mem_map_of_mem hm)

theorem get_of_mem {ms : List (String × Js)} {m : String × Js} (hd : (ms.map Prod.fst).Nodup) (hm : m ∈ ms) :
    get (.obj ms) m.1 = m.2 := by
  show (ms.lookup m.1).getD .undefined = m.2
  induction ms with
  | nil => cases hm
  | cons n ms ih =>
    obtain ⟨k, y⟩ := n
    rw [List.map_cons, List.nodup_cons] at hd
    rcases List.mem_cons.1 hm with rfl | htail
    · simp
    · have hne : (m.1 == k) = false := beq_eq_false_iff_ne.2 fun hk => hd.1 (List.mem_map.2 ⟨m, htail, hk⟩)
      rw [List.lookup_cons, hne]
      exact ih hd.2 htail

theorem get_eq_undefined_or_mem (ms : List (String × Js)) (key : String) :
    get (.obj ms) key = .undefined ∨ (key, get (.obj ms) key) ∈ ms := by
  show (ms.lookup key).getD .undefined = .undefined ∨ (key, (ms.lookup key).getD .undefined) ∈ ms
  induction ms with
  | nil => exact .inl rfl
  | cons n ms ih =>
    obtain ⟨k, y⟩ := n
    rw [List.lookup_cons]
    by_cases hk : key = k
    · subst hk
      right
      simp
    · rw [beq_eq_false_iff_ne.2 hk]
      exact ih.imp_right (List.mem_cons_of_mem _)

/-- The value of a property in a list of members that is part of one without repetitions. -/
theorem get_filter {ms : List (String × Js)} {p : String × Js → Bool} (hd : (ms.map Prod.fst).Nodup)
    (hp : ∀ m ∈ ms, p m = false → m.2 = .undefined) {m : String × Js} (hm : m ∈ ms) : get (.obj (ms.filter p)) m.1 = m.2 := by
  by_cases hkeep : p m = true
  · exact get_of_mem ((List.filter_sublist.map Prod.fst).nodup hd) (List.mem_filter.2 ⟨hm, hkeep⟩)
  · rcases get_eq_undefined_or_mem (ms.filter p) m.1 with hu | hmem
    · rw [hu, hp m hm (by simpa using hkeep)]
    · obtain ⟨hmem, hkeep'⟩ := List.mem_filter.1 hmem
      have heq := List.inj_on_of_nodup_map hd hmem hm rfl
      rw [heq] at hkeep'
      exact absurd hkeep' hkeep

theorem get_spread_single (a : Js) (k : String) (x : Js) (key : String) :
    get (spread a (.obj [(k, x)])) key = if key = k then x else get (.obj a.members) key := get_setMember k key x a.members

inductive Same : Js → Js → Prop
  | refl (a : Js) : Same a a
  | arr {xs ys : List Js} (h : List.Forall₂ Same xs ys) : Same (.arr xs) (.arr ys)
  | obj {ms ns : List (String × Js)} (h : ∀ key, Same (get (.obj ms) key) (get (.obj ns) key)) : Same (.obj ms) (.obj ns)

theorem Same.get {a b : Js} (h : Same a b) (key : String) : Same (a.get key) (b.get key) := by
  cases h with
  | refl => exact .refl _
  | arr _ => exact .refl _
  | obj h => exact h key

theorem Same.truthy {a b : Js} (h : Same a b) : a.truthy = b.truthy := by
  cases h <;> rfl

theorem Same.eq_undefined {b : Js} (h : Same .undefined b) : b = .undefined := by
  cases h
  rfl

theorem Same.eq_of_str {a : Js} {s : String} (h : Same a (.str s)) : a = .str s := by
  cases h
  rfl

theorem Same.eq_of_num {a : Js} {x : Rat} (h : Same a (.num x)) : a = .num x := by
  cases h
  rfl

theorem Same.arr_inv {a : Js} {ys : List Js} (h : Same a (.arr ys)) : ∃ xs, a = .arr xs ∧ List.Forall₂ Same xs ys := by
  cases h with
  | refl => exact ⟨ys, rfl, List.forall₂_same.2 fun x _ => .refl x⟩
  | arr h => exact ⟨_, rfl, h⟩

def isString : Js → Bool
  | .str _ => true
  | _ => false

def isNumber : Js → Bool
  | .num _ => true
  | _ => false

def isBoolean : Js → Bool
  | .bool _ => true
  | _ => false

def isDate : Js → Bool
  | .date _ => true
  | _ => false

def arrayOf (t : Js → Bool) : Js → Bool
  | .arr xs => xs.all t
  | _ => false

/-- The value of an optional property. -/
def property (types : List (String × (Js → Bool))) (key : String) (a : Js) : Bool :=
  decide (a = .undefined) || (types.lookup key).any (· a)

def ofType (types : List (String × (Js → Bool))) : Js → Bool
  | .obj ms => ms.all fun m => property types m.1 m.2
  | _ => false

variable {types : List (String × (Js → Bool))} {a b : Js}

theorem property_get (h : ofType types a = true) (key : String) : property types key (a.get key) = true := by
  cases a with
  | obj ms =>
    rcases get_eq_undefined_or_mem ms key with hu | hmem
    · rw [hu]
      rfl
    · exact List.all_eq_true.1 h _ hmem
  | _ => cases h

theorem undefined_or_of_property {key : String} (h : property types key a = true) :
    a = .undefined ∨ (types.lookup key).any (· a) = true := by
  rw [property, Bool.or_eq_true, decide_eq_true_eq] at h
  exact h

theorem obj_of_ofType (h : ofType types a = true) : ∃ ms, a = .obj ms := by
  cases a with
  | obj ms => exact ⟨ms, rfl⟩
  | _ => cases h

end Js

/-! ### Schemas -/

namespace Zod

open Js

theorem mapM_field {ms out : List (String × Js)} {fields : List (String × Zod)}
    (h : fields.mapM (field ms) = some out) : out.map Prod.fst = fields.map Prod.fst ∧
      ∀ m ∈ out, ∃ s, (m.1, s) ∈ fields ∧ s (Js.get (.obj ms) m.1) = some m.2 := by
  induction fields generalizing out with
  | nil =>
    cases h
    exact ⟨rfl, by simp⟩
  | cons f fields ih =>
    rw [List.mapM_cons] at h
    obtain ⟨m, hm, h⟩ := Option.bind_eq_some_iff.1 h
    obtain ⟨rest, hrest, h⟩ := Option.bind_eq_some_iff.1 h
    cases h
    obtain ⟨hnames, hvalues⟩ := ih hrest
    obtain ⟨b, hb, rfl⟩ := Option.map_eq_some_iff.1 hm
    refine ⟨by simp [hnames], ?_⟩
    intro m hm
    rcases List.mem_cons.1 hm with rfl | hm
    · exact ⟨f.2, List.mem_cons_self, hb⟩
    · obtain ⟨s, hs, ha⟩ := hvalues m hm
      exact ⟨s, List.mem_cons_of_mem f hs, ha⟩

theorem get_object {fields : List (String × Zod)} (hf : (fields.map Prod.fst).Nodup) {a b : Js} (h : object fields a = some b)
    {key : String} {s : Zod} (hs : (key, s) ∈ fields) : s (a.get key) = some (b.get key) := by
  cases a with
  | obj ms =>
    obtain ⟨out, hout, rfl⟩ := Option.map_eq_some_iff.1 h
    obtain ⟨hnames, hvalues⟩ := mapM_field hout
    have hkey : key ∈ out.map Prod.fst := hnames ▸ List.mem_map_of_mem hs
    obtain ⟨m, hm, rfl⟩ := List.mem_map.1 hkey
    obtain ⟨s', hs', hvalue⟩ := hvalues m hm
    have heq := List.inj_on_of_nodup_map hf hs' hs rfl
    obtain rfl : s' = s := (Prod.mk.inj heq).2
    rw [get_filter (hnames ▸ hf) ?_ hm]
    · exact hvalue
    · intro m _ hp
      rw [Bool.or_eq_false_iff] at hp
      simpa using hp.2
  | _ => cases h

theorem obj_of_object {fields : List (String × Zod)} {a b : Js} (h : object fields a = some b) : ∃ ms, b = .obj ms := by
  cases a with
  | obj ms =>
    obtain ⟨out, -, rfl⟩ := Option.map_eq_some_iff.1 h
    exact ⟨_, rfl⟩
  | _ => cases h

theorem get_object_of_not_mem {fields : List (String × Zod)} {a b : Js} (h : object fields a = some b) {key : String}
    (hkey : key ∉ fields.map Prod.fst) : b.get key = .undefined := by
  cases a with
  | obj ms =>
    obtain ⟨out, hout, rfl⟩ := Option.map_eq_some_iff.1 h
    obtain ⟨hnames, -⟩ := mapM_field hout
    rcases get_eq_undefined_or_mem (out.filter fun m => (ms.lookup m.1).isSome || m.2 != .undefined) key with hu | hmem
    · exact hu
    · refine absurd ?_ hkey
      rw [← hnames]
      exact List.mem_map_of_mem (List.mem_filter.1 hmem).1
  | _ => cases h

/-- Every output is the value that was read. -/
def Echo (s : Zod) : Prop := ∀ a b, s a = some b → b = a

def Keeps (t : Js → Bool) (s : Zod) : Prop := ∀ a b, t a = true → s a = some b → Same b a

/-- Every output is read again, as itself. -/
def Projects (s : Zod) : Prop := ∀ a b, s a = some b → ∃ c, s b = some c ∧ Same c b

variable {t : Js → Bool} {s s' : Zod}

theorem Echo.keeps (hs : Echo s) : Keeps t s := fun a b _ h => hs a b h ▸ .refl b

theorem Echo.eq_some {a b : Js} (hs : Echo s) (h : s a = some b) : s b = some b := by
  have heq := hs a b h
  subst heq
  exact h

theorem Echo.projects (hs : Echo s) : Projects s := fun _ b h => ⟨b, hs.eq_some h, .refl b⟩

theorem echo_string : Echo string := by
  intro a b h
  cases a <;> cases h
  rfl

theorem echo_boolean : Echo boolean := by
  intro a b h
  cases a <;> cases h
  rfl

theorem echo_date : Echo date := by
  intro a b h
  cases a with
  | date d => cases d <;> cases h; rfl
  | _ => cases h

theorem echo_int (lo hi : Rat) : Echo (int lo hi) := by
  intro a b h
  cases a with
  | num x =>
    rw [int] at h
    split at h
    · cases h
      rfl
    · cases h
  | _ => cases h

theorem echo_literal (x : String) : Echo (literal x) := by
  intro a b h
  rw [literal] at h
  split at h
  · cases h
    rfl
  · cases h

theorem Echo.refine (hs : Echo s) (p : Js → Bool) : Echo (refine p s) := by
  intro a b h
  obtain ⟨c, hc, hif⟩ := Option.bind_eq_some_iff.1 h
  split at hif
  · cases hif
    exact hs a b hc
  · cases hif

theorem echo_regex (r : Regex) : Echo (regex r string) := echo_string.refine _

theorem Echo.or (hs : Echo s) (hs' : Echo s') : Echo (or s s') := by
  intro a b h
  rcases Option.or_eq_some_iff.1 h with h | ⟨-, h⟩
  · exact hs a b h
  · exact hs' a b h

theorem Echo.optional (hs : Echo s) : Echo (optional s) := by
  intro a b h
  rw [Zod.optional] at h
  split at h
  next hu =>
    cases h
    exact hu.symm
  next => exact hs a b h

theorem Echo.superRefine {f : Js → Option Js} (hs : Echo s) (hf : ∀ a b, f a = some b → b = a) : Echo (superRefine f s) := by
  intro a b h
  obtain ⟨c, hc, hfc⟩ := Option.bind_eq_some_iff.1 h
  rw [hf c b hfc]
  exact hs a c hc

theorem echo_mapM (hs : Echo s) {xs ys : List Js} (h : xs.mapM s = some ys) : ys = xs := by
  induction xs generalizing ys with
  | nil =>
    cases h
    rfl
  | cons x xs ih =>
    rw [List.mapM_cons] at h
    obtain ⟨y, hy, h⟩ := Option.bind_eq_some_iff.1 h
    obtain ⟨rest, hrest, h⟩ := Option.bind_eq_some_iff.1 h
    cases h
    rw [hs x y hy, ih hrest]

theorem Echo.array (hs : Echo s) : Echo (array s) := by
  intro a b h
  cases a with
  | arr xs =>
    obtain ⟨ys, hys, rfl⟩ := Option.map_eq_some_iff.1 h
    rw [echo_mapM hs hys]
  | _ => cases h

theorem Keeps.optional (hs : Keeps t s) : Keeps (fun a => decide (a = .undefined) || t a) (optional s) := by
  intro a b ha h
  rw [Zod.optional] at h
  split at h
  next hu =>
    cases h
    rw [hu]
    exact .refl _
  next hu =>
    rw [Bool.or_eq_true, decide_eq_true_eq] at ha
    exact hs a b (ha.resolve_left hu) h

/-- A schema that does not take `undefined`. -/
theorem Keeps.required (hs : Keeps t s) (hu : s .undefined = none) : Keeps (fun a => decide (a = .undefined) || t a) s := by
  intro a b ha h
  rw [Bool.or_eq_true, decide_eq_true_eq] at ha
  refine hs a b (ha.resolve_left ?_) h
  rintro rfl
  rw [hu] at h
  cases h

theorem Keeps.preprocess {f : Js → Js} (hs : Keeps t s) (hf : ∀ a, t a = true → f a = a) : Keeps t (preprocess f s) := by
  intro a b ha h
  rw [Zod.preprocess, hf a ha] at h
  exact hs a b ha h

theorem Keeps.superRefine {f : Js → Option Js} (hs : Keeps t s) (hf : ∀ a b, f a = some b → b = a) :
    Keeps t (superRefine f s) := by
  intro a b ha h
  obtain ⟨c, hc, hfc⟩ := Option.bind_eq_some_iff.1 h
  rw [hf c b hfc]
  exact hs a c ha hc

theorem Keeps.array (hs : Keeps t s) : Keeps (arrayOf t) (array s) := by
  intro a b ha h
  cases a with
  | arr xs =>
    obtain ⟨ys, hys, rfl⟩ := Option.map_eq_some_iff.1 h
    refine .arr ?_
    rw [arrayOf, List.all_eq_true] at ha
    clear h
    induction xs generalizing ys with
    | nil =>
      cases hys
      exact .nil
    | cons x xs ih =>
      rw [List.mapM_cons] at hys
      obtain ⟨y, hy, hys⟩ := Option.bind_eq_some_iff.1 hys
      obtain ⟨ys', hys', heq⟩ := Option.bind_eq_some_iff.1 hys
      cases heq
      exact .cons (hs x y (ha x List.mem_cons_self) hy) (ih (fun z hz => ha z (List.mem_cons_of_mem x hz)) _ hys')
  | _ => cases h

theorem Projects.optional (hs : Projects s) : Projects (optional s) := by
  intro a b h
  by_cases hb : b = .undefined
  · subst hb
    exact ⟨.undefined, rfl, .refl _⟩
  · rw [Zod.optional] at h ⊢
    split at h
    next =>
      cases h
      exact absurd rfl hb
    next =>
      rw [if_neg hb]
      exact hs a b h

theorem Projects.preprocess {f : Js → Js} (hs : Projects s) (hf : ∀ a b, s a = some b → f b = b) :
    Projects (preprocess f s) := by
  intro a b h
  rw [Zod.preprocess, hf (f a) b h]
  exact hs (f a) b h

theorem Projects.array (hs : Projects s) : Projects (array s) := by
  intro a b h
  cases a with
  | arr xs =>
    obtain ⟨ys, hys, rfl⟩ := Option.map_eq_some_iff.1 h
    have hread : ∃ zs, ys.mapM s = some zs ∧ List.Forall₂ Same zs ys := by
      clear h
      induction xs generalizing ys with
      | nil =>
        cases hys
        exact ⟨[], rfl, .nil⟩
      | cons x xs ih =>
        rw [List.mapM_cons] at hys
        obtain ⟨y, hy, hys⟩ := Option.bind_eq_some_iff.1 hys
        obtain ⟨rest, hrest, heq⟩ := Option.bind_eq_some_iff.1 hys
        cases heq
        obtain ⟨z, hz, hsame⟩ := hs x y hy
        obtain ⟨zs, hzs, hsames⟩ := ih rest hrest
        refine ⟨z :: zs, ?_, .cons hsame hsames⟩
        rw [List.mapM_cons, hz, hzs]
        rfl
    obtain ⟨zs, hzs, hsame⟩ := hread
    exact ⟨.arr zs, by rw [Zod.array, hzs]; rfl, .arr hsame⟩
  | _ => cases h

/-- An object whose properties are read as themselves, and that has no others, is read as itself. -/
theorem object_of_fields {fields : List (String × Zod)} (hf : (fields.map Prod.fst).Nodup) {ms : List (String × Js)}
    (hfields : ∀ f ∈ fields, ∃ c, f.2 (Js.get (.obj ms) f.1) = some c ∧ Same c (Js.get (.obj ms) f.1))
    (hother : ∀ key, key ∉ fields.map Prod.fst → Js.get (.obj ms) key = .undefined) :
    ∃ c, object fields (.obj ms) = some c ∧ Same c (.obj ms) := by
  have hread : ∃ out, fields.mapM (field ms) = some out := by
    clear hf hother
    induction fields with
    | nil => exact ⟨[], rfl⟩
    | cons f fields ih =>
      rw [List.forall_mem_cons] at hfields
      obtain ⟨c, hc, -⟩ := hfields.1
      obtain ⟨out, hout⟩ := ih hfields.2
      exact ⟨(f.1, c) :: out, by rw [List.mapM_cons, hout, field, hc]; rfl⟩
  obtain ⟨out, hout⟩ := hread
  have hobject : object fields (.obj ms) = some (.obj (out.filter fun m => (ms.lookup m.1).isSome || m.2 != .undefined)) := by
    rw [object, hout]
    rfl
  refine ⟨_, hobject, .obj fun key => ?_⟩
  by_cases hkey : key ∈ fields.map Prod.fst
  · obtain ⟨f, hmem, rfl⟩ := List.mem_map.1 hkey
    obtain ⟨c, hc, hsame⟩ := hfields f hmem
    rw [get_object hf hobject hmem] at hc
    rw [Option.some.inj hc]
    exact hsame
  · rw [get_object_of_not_mem hobject hkey, hother key hkey]
    exact .refl _

theorem projects_object {fields : List (String × Zod)} (hf : (fields.map Prod.fst).Nodup)
    (hfields : ∀ f ∈ fields, Projects f.2) : Projects (object fields) := by
  intro a b h
  obtain ⟨ms, rfl⟩ := obj_of_object h
  exact object_of_fields hf (fun f hmem => hfields f hmem _ _ (get_object hf h hmem))
    fun key hkey => get_object_of_not_mem h hkey

end Zod

end NginxAdmin
