import NginxAdmin.Lib.JsTypes

/-!
# Values that come back from their text

`json` is the value that `JSON.parse` reads from what `JSON.stringify` writes. A plain value comes back as the same value, and
as a plain one; of an object with a date each other property does.
-/

namespace NginxAdmin.Js

mutual

theorem Same.trans {a b c : Js} (h : Same a b) (h' : Same b c) : Same a c := by
  cases b with
  | arr ys =>
    cases h' with
    | refl => exact h
    | arr h' =>
      obtain ⟨xs, rfl, hxs⟩ := h.arr_inv
      exact .arr (same_trans_items hxs h')
  | obj ns =>
    cases h' with
    | refl => exact h
    | obj h' =>
      cases h with
      | refl => exact .obj h'
      | obj h =>
        refine .obj fun key => ?_
        rcases get_eq_undefined_or_mem ns key with hu | hmem
        · have hleft := h key
          have hright := h' key
          rw [hu] at hleft hright
          rw [hright.eq_undefined]
          exact hleft
        · exact same_trans_members ns (key, _) hmem (h key) (h' key)
  | _ =>
    cases h' with
    | refl => exact h
termination_by structural b

theorem same_trans_items {xs ys zs : List Js} (h : List.Forall₂ Same xs ys) (h' : List.Forall₂ Same ys zs) :
    List.Forall₂ Same xs zs := by
  cases ys with
  | nil =>
    cases h
    cases h'
    exact .nil
  | cons y ys =>
    cases h with
    | cons hx h =>
      cases h' with
      | cons hz h' => exact .cons (hx.trans hz) (same_trans_items h h')
termination_by structural ys

theorem same_trans_members (ms : List (String × Js)) (m : String × Js) (hm : m ∈ ms) {a c : Js} (h : Same a m.2)
    (h' : Same m.2 c) : Same a c := by
  cases ms with
  | nil => cases hm
  | cons n ms =>
    obtain ⟨k, x⟩ := n
    rcases List.mem_cons.1 hm with heq | hm
    · subst heq
      exact Same.trans (b := x) h h'
    · exact same_trans_members ms m hm h h'
termination_by structural ms

end

mutual

/-- Neither a date nor an `undefined` in an array stands anywhere, and no property stands twice. -/
def plain : Js → Bool
  | undefined | date _ => false
  | null | bool _ | num _ | str _ => true
  | arr xs => plainItems xs
  | obj ms => decide (ms.map Prod.fst).Nodup && plainMembers ms

def plainItems : List Js → Bool
  | [] => true
  | x :: xs => plain x && plainItems xs

def plainMembers : List (String × Js) → Bool
  | [] => true
  | (_, x) :: ms => (decide (x = undefined) || plain x) && plainMembers ms

end

/-- The value of a property is plain, if it has one. -/
def PlainProperty (a : Js) : Prop := a = undefined ∨ a.plain = true

/-- What comes back of the value of a property. -/
def back (dates : Dates) (a : Js) : Js := (json dates a).getD undefined

variable {dates : Dates}

theorem keys_jsonMembers (ms : List (String × Js)) :
    ((jsonMembers dates ms).map Prod.fst).Sublist (ms.map Prod.fst) := by
  induction ms with
  | nil => exact .slnil
  | cons m ms ih =>
    obtain ⟨k, x⟩ := m
    rw [jsonMembers]
    cases json dates x with
    | none => exact ih.cons k
    | some y => exact ih.cons_cons k

theorem nodup_jsonMembers {ms : List (String × Js)} (h : (ms.map Prod.fst).Nodup) :
    ((jsonMembers dates ms).map Prod.fst).Nodup := (keys_jsonMembers ms).nodup h

theorem get_cons (k key : String) (x : Js) (ms : List (String × Js)) :
    get (.obj ((k, x) :: ms)) key = if key = k then x else get (.obj ms) key := by
  show (List.lookup key ((k, x) :: ms)).getD undefined = _
  rw [List.lookup_cons]
  by_cases h : key = k
  · rw [if_pos h, beq_iff_eq.2 h]
    rfl
  · rw [if_neg h, beq_eq_false_iff_ne.2 h]
    rfl

/-- A property of what comes back of an object is what comes back of the property. -/
theorem get_jsonMembers {ms : List (String × Js)} (h : (ms.map Prod.fst).Nodup) (key : String) :
    get (.obj (jsonMembers dates ms)) key = back dates (get (.obj ms) key) := by
  induction ms with
  | nil => rfl
  | cons m ms ih =>
    obtain ⟨k, x⟩ := m
    rw [List.map_cons, List.nodup_cons] at h
    rw [get_cons, jsonMembers]
    cases hx : json dates x with
    | some y =>
      rw [get_cons, ih h.2]
      split
      · rw [back, hx]
        rfl
      · rfl
    | none =>
      rw [ih h.2]
      split
      next hk =>
        -- the key does not stand in the rest
        subst hk
        rcases get_eq_undefined_or_mem ms key with hu | hmem
        · rw [hu, back, back, hx]
          rfl
        · exact absurd (List.mem_map_of_mem hmem) h.1
      next => rfl

theorem plainMembers_cons {k : String} {x : Js} {ms : List (String × Js)} (h : plainMembers ((k, x) :: ms) = true) :
    PlainProperty x ∧ plainMembers ms = true := by
  rw [plainMembers, Bool.and_eq_true, Bool.or_eq_true, decide_eq_true_eq] at h
  exact h

mutual

theorem json_of_plain {a : Js} (h : a.plain = true) : ∃ b, json dates a = some b ∧ b.plain = true ∧ Same b a := by
  cases a with
  | undefined => cases h
  | date t => cases h
  | arr xs =>
    obtain ⟨hplain, hsame⟩ := jsonItems_of_plain h
    exact ⟨_, rfl, hplain, .arr hsame⟩
  | obj ms =>
    rw [plain, Bool.and_eq_true, decide_eq_true_eq] at h
    obtain ⟨hplain, hsame⟩ := jsonMembers_of_plain h.2
    refine ⟨_, rfl, ?_, .obj fun key => ?_⟩
    · rw [plain, hplain, decide_eq_true (nodup_jsonMembers h.1)]
      rfl
    · rw [get_jsonMembers h.1]
      rcases get_eq_undefined_or_mem ms key with hu | hmem
      · rw [hu]
        exact .refl _
      · exact hsame _ hmem
  | _ => exact ⟨_, rfl, rfl, .refl _⟩

theorem jsonItems_of_plain {xs : List Js} (h : plainItems xs = true) :
    plainItems (jsonItems dates xs) = true ∧ List.Forall₂ Same (jsonItems dates xs) xs := by
  cases xs with
  | nil => exact ⟨rfl, .nil⟩
  | cons x xs =>
    rw [plainItems, Bool.and_eq_true] at h
    obtain ⟨y, hy, hplain, hsame⟩ := json_of_plain h.1
    obtain ⟨hplains, hsames⟩ := jsonItems_of_plain h.2
    rw [jsonItems, hy]
    refine ⟨?_, .cons hsame hsames⟩
    show (plain y && plainItems (jsonItems dates xs)) = true
    rw [hplain, hplains]
    rfl

theorem jsonMembers_of_plain {ms : List (String × Js)} (h : plainMembers ms = true) :
    plainMembers (jsonMembers dates ms) = true ∧ ∀ m ∈ ms, Same (back dates m.2) m.2 := by
  cases ms with
  | nil => exact ⟨rfl, by simp⟩
  | cons m ms =>
    obtain ⟨k, x⟩ := m
    obtain ⟨hx, hms⟩ := plainMembers_cons h
    obtain ⟨hplains, hsames⟩ := jsonMembers_of_plain hms
    rcases hx with rfl | hx
    · exact ⟨hplains, List.forall_mem_cons.2 ⟨.refl _, hsames⟩⟩
    · obtain ⟨y, hy, hplain, hsame⟩ := json_of_plain hx
      rw [jsonMembers, hy]
      refine ⟨?_, List.forall_mem_cons.2 ⟨?_, hsames⟩⟩
      · show ((decide (y = undefined) || plain y) && plainMembers (jsonMembers dates ms)) = true
        rw [hplain, hplains, Bool.or_true]
        rfl
      · show Same ((json dates x).getD undefined) x
        rw [hy]
        exact hsame

end

theorem PlainProperty.back {a : Js} (h : PlainProperty a) : PlainProperty (back dates a) ∧ Same (Js.back dates a) a := by
  rcases h with rfl | h
  · exact ⟨.inl rfl, .refl _⟩
  · obtain ⟨b, hb, hplain, hsame⟩ : ∃ b, json dates a = some b ∧ b.plain = true ∧ Same b a := json_of_plain h
    rw [Js.back, hb]
    exact ⟨.inr hplain, hsame⟩

/-! ### Plain values by their types -/

mutual

/-- No property stands twice in an object. -/
def once : Js → Bool
  | arr xs => onceItems xs
  | obj ms => decide (ms.map Prod.fst).Nodup && onceMembers ms
  | _ => true

def onceItems : List Js → Bool
  | [] => true
  | x :: xs => once x && onceItems xs

def onceMembers : List (String × Js) → Bool
  | [] => true
  | (_, x) :: ms => once x && onceMembers ms

end

theorem onceItems_iff {xs : List Js} : onceItems xs = true ↔ ∀ x ∈ xs, once x = true := by
  induction xs with
  | nil => simp [onceItems]
  | cons x xs ih => rw [onceItems, Bool.and_eq_true, ih, List.forall_mem_cons]

theorem onceMembers_iff {ms : List (String × Js)} : onceMembers ms = true ↔ ∀ m ∈ ms, once m.2 = true := by
  induction ms with
  | nil => simp [onceMembers]
  | cons m ms ih => rw [onceMembers, Bool.and_eq_true, ih, List.forall_mem_cons]

theorem plainItems_iff {xs : List Js} : plainItems xs = true ↔ ∀ x ∈ xs, plain x = true := by
  induction xs with
  | nil => simp [plainItems]
  | cons x xs ih => rw [plainItems, Bool.and_eq_true, ih, List.forall_mem_cons]

theorem plainMembers_iff {ms : List (String × Js)} : plainMembers ms = true ↔ ∀ m ∈ ms, PlainProperty m.2 := by
  induction ms with
  | nil => simp [plainMembers]
  | cons m ms ih =>
    rw [plainMembers, Bool.and_eq_true, Bool.or_eq_true, decide_eq_true_eq, ih, List.forall_mem_cons]
    rfl

theorem nodup_of_once {ms : List (String × Js)} (h : once (.obj ms) = true) : (ms.map Prod.fst).Nodup := by
  rw [once, Bool.and_eq_true, decide_eq_true_eq] at h
  exact h.1

theorem once_get {a : Js} (h : once a = true) (key : String) : once (a.get key) = true := by
  cases a with
  | obj ms =>
    rw [once, Bool.and_eq_true] at h
    rcases get_eq_undefined_or_mem ms key with hu | hmem
    · rw [hu]
      rfl
    · exact onceMembers_iff.1 h.2 _ hmem
  | _ => rfl

/-- A type whose values are plain when no property stands twice. -/
def PlainType (t : Js → Bool) : Prop := ∀ a, t a = true → once a = true → plain a = true

theorem plainType_string : PlainType isString := by
  intro a h _
  cases a with
  | str s => rfl
  | _ => cases h

theorem plainType_number : PlainType isNumber := by
  intro a h _
  cases a with
  | num x => rfl
  | _ => cases h

theorem plainType_boolean : PlainType isBoolean := by
  intro a h _
  cases a with
  | bool b => rfl
  | _ => cases h

theorem PlainType.arrayOf {t : Js → Bool} (ht : PlainType t) : PlainType (arrayOf t) := by
  intro a h ho
  cases a with
  | arr xs =>
    rw [Js.arrayOf, List.all_eq_true] at h
    rw [once, onceItems_iff] at ho
    rw [plain, plainItems_iff]
    exact fun x hx => ht x (h x hx) (ho x hx)
  | _ => cases h

theorem plainProperty_of_property {types : List (String × (Js → Bool))} {key : String} {a : Js}
    (h : property types key a = true) (hplain : ∀ p ∈ types, p.1 = key → PlainType p.2) (ho : once a = true) :
    PlainProperty a := by
  refine (undefined_or_of_property h).imp_right fun h => ?_
  obtain ⟨t, ht, hta⟩ := (Option.any_eq_true _ _).1 h
  obtain ⟨l₁, l₂, htypes, -⟩ := List.lookup_eq_some_iff.1 ht
  exact hplain (key, t) (by simp [htypes]) rfl a hta ho

theorem plainType_ofType {types : List (String × (Js → Bool))} (hplain : ∀ p ∈ types, PlainType p.2) :
    PlainType (ofType types) := by
  intro a h ho
  cases a with
  | obj ms =>
    rw [ofType, List.all_eq_true] at h
    rw [once, Bool.and_eq_true, onceMembers_iff] at ho
    rw [plain, Bool.and_eq_true, plainMembers_iff]
    exact ⟨ho.1, fun m hm => plainProperty_of_property (h m hm) (fun p hp _ => hplain p hp) (ho.2 m hm)⟩
  | _ => cases h

end NginxAdmin.Js
