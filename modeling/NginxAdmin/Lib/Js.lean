import NginxAdmin.Lib.Regex
import Mathlib.Data.Rat.Defs

/-!
# Values of JavaScript

`Js` has the values that data is made of: primitives, dates, arrays and plain objects; an object is the list of its
properties in their order. Numbers are finite. `json` is the value that `JSON.parse` reads from what `JSON.stringify`
writes.

A `JsMap` is a `Map`, as the list of its entries in the order of insertion.
-/

namespace NginxAdmin

inductive Js where
  | undefined
  | null
  | bool (b : Bool)
  | num (x : Rat)
  | str (s : String)
  /-- Milliseconds since the epoch; `none` is an invalid date. -/
  | date (t : Option Int)
  | arr (items : List Js)
  | obj (members : List (String × Js))

namespace Js

mutual

def beq : Js → Js → Bool
  | undefined, undefined => true
  | null, null => true
  | bool a, bool b => a == b
  | num x, num y => x == y
  | str s, str t => s == t
  | date s, date t => s == t
  | arr xs, arr ys => beqItems xs ys
  | obj ms, obj ns => beqMembers ms ns
  | _, _ => false

def beqItems : List Js → List Js → Bool
  | [], [] => true
  | x :: xs, y :: ys => beq x y && beqItems xs ys
  | _, _ => false

def beqMembers : List (String × Js) → List (String × Js) → Bool
  | [], [] => true
  | (k, x) :: ms, (k', y) :: ns => k == k' && beq x y && beqMembers ms ns
  | _, _ => false

end

mutual

theorem beq_iff (a b : Js) : beq a b = true ↔ a = b := by
  cases a <;> cases b <;> simp [beq]
  case arr.arr xs ys => exact beqItems_iff xs ys
  case obj.obj ms ns => exact beqMembers_iff ms ns

theorem beqItems_iff (xs ys : List Js) : beqItems xs ys = true ↔ xs = ys := by
  cases xs with
  | nil => cases ys <;> simp [beqItems]
  | cons x xs =>
    cases ys with
    | nil => simp [beqItems]
    | cons y ys => simp [beqItems, beq_iff x y, beqItems_iff xs ys]

theorem beqMembers_iff (ms ns : List (String × Js)) : beqMembers ms ns = true ↔ ms = ns := by
  cases ms with
  | nil => cases ns <;> simp [beqMembers]
  | cons m ms =>
    obtain ⟨k, x⟩ := m
    cases ns with
    | nil => simp [beqMembers]
    | cons n ns =>
      obtain ⟨k', y⟩ := n
      simp [beqMembers, beq_iff x y, beqMembers_iff ms ns]

end

instance : DecidableEq Js := fun a b => decidable_of_iff (beq a b = true) (beq_iff a b)

/-- `a.key`. -/
def get (a : Js) (key : String) : Js :=
  match a with
  | obj ms => (ms.lookup key).getD undefined
  | _ => undefined

/-- `Boolean(a)`. -/
def truthy : Js → Bool
  | undefined | null => false
  | bool b => b
  | num x => x ≠ 0
  | str s => s ≠ ""
  | date _ | arr _ | obj _ => true

/-- `Object.entries(a)`. -/
def members : Js → List (String × Js)
  | obj ms => ms
  | arr xs => xs.zipIdx.map fun p => (toString p.2, p.1)
  | str s => s.toList.zipIdx.map fun p => (toString p.2, str (String.singleton p.1))
  | _ => []

/-- A property is replaced where it stands, or added at the end. -/
def setMember (key : String) (x : Js) : List (String × Js) → List (String × Js)
  | [] => [(key, x)]
  | (k, y) :: ms => if k = key then (key, x) :: ms else (k, y) :: setMember key x ms

theorem lookup_setMember (key key' : String) (x : Js) (ms : List (String × Js)) :
    (setMember key x ms).lookup key' = if key' = key then some x else ms.lookup key' := by
  induction ms with
  | nil =>
    rw [setMember, List.lookup_cons, List.lookup_nil]
    by_cases h : key' = key
    · rw [if_pos h, beq_iff_eq.2 h]
    · rw [if_neg h, beq_eq_false_iff_ne.2 h]
  | cons m ms ih =>
    obtain ⟨k, y⟩ := m
    rw [setMember]
    by_cases hk : k = key
    · subst hk
      rw [if_pos rfl, List.lookup_cons, List.lookup_cons]
      by_cases h : key' = k
      · rw [if_pos h, beq_iff_eq.2 h]
      · rw [if_neg h, beq_eq_false_iff_ne.2 h]
    · rw [if_neg hk, List.lookup_cons, List.lookup_cons, ih]
      by_cases h : key' = k
      · subst h
        simp only [beq_self_eq_true, if_neg hk]
      · rw [beq_eq_false_iff_ne.2 h]

theorem get_setMember (key key' : String) (x : Js) (ms : List (String × Js)) :
    get (obj (setMember key x ms)) key' = if key' = key then x else get (obj ms) key' := by
  show ((setMember key x ms).lookup key').getD undefined = _
  rw [lookup_setMember]
  split <;> rfl

/-- `{ ...a, ...b }`. -/
def spread (a b : Js) : Js := obj (b.members.foldl (fun ms m => setMember m.1 m.2 ms) a.members)

mutual

/-- Neither `undefined` nor a date stands anywhere. -/
def isJson : Js → Bool
  | undefined | date _ => false
  | null | bool _ | num _ | str _ => true
  | arr xs => isJsonItems xs
  | obj ms => isJsonMembers ms

def isJsonItems : List Js → Bool
  | [] => true
  | x :: xs => isJson x && isJsonItems xs

def isJsonMembers : List (String × Js) → Bool
  | [] => true
  | (_, x) :: ms => isJson x && isJsonMembers ms

end

/-- `Date.prototype.toISOString` and the reading of a date by `new Date(text)`. -/
structure Dates where
  toISOString : Int → String
  parse : String → Option Int
  /-- Over the range of valid dates. -/
  parse_toISOString : ∀ t : Int, -8640000000000000 ≤ t → t ≤ 8640000000000000 → parse (toISOString t) = some t

variable (dates : Dates)

mutual

/-- `JSON.parse(JSON.stringify(a))`; `none` when nothing is written for `a`. -/
def json : Js → Option Js
  | undefined => none
  | null => some null
  | bool b => some (bool b)
  | num x => some (num x)
  | str s => some (str s)
  | date none => some null
  | date (some t) => some (str (dates.toISOString t))
  | arr xs => some (arr (jsonItems xs))
  | obj ms => some (obj (jsonMembers ms))

def jsonItems : List Js → List Js
  | [] => []
  | x :: xs => (json x).getD null :: jsonItems xs

def jsonMembers : List (String × Js) → List (String × Js)
  | [] => []
  | (k, x) :: ms =>
    match json x with
    | some y => (k, y) :: jsonMembers ms
    | none => jsonMembers ms

end

mutual

theorem isJson_of_json {a b : Js} (h : json dates a = some b) : b.isJson = true := by
  cases a with
  | undefined => cases h
  | null => cases h; rfl
  | bool c => cases h; rfl
  | num x => cases h; rfl
  | str s => cases h; rfl
  | date t => cases t <;> cases h <;> rfl
  | arr xs => cases h; exact isJson_jsonItems xs
  | obj ms => cases h; exact isJson_jsonMembers ms

theorem isJson_jsonItems (xs : List Js) : isJsonItems (jsonItems dates xs) = true := by
  cases xs with
  | nil => rfl
  | cons x xs =>
    rw [jsonItems, isJsonItems, isJson_jsonItems xs, Bool.and_true]
    cases h : json dates x with
    | none => rfl
    | some y => exact isJson_of_json h

theorem isJson_jsonMembers (ms : List (String × Js)) : isJsonMembers (jsonMembers dates ms) = true := by
  cases ms with
  | nil => rfl
  | cons m ms =>
    obtain ⟨k, x⟩ := m
    rw [jsonMembers]
    cases h : json dates x with
    | none => exact isJson_jsonMembers ms
    | some y =>
      show (isJson y && isJsonMembers (jsonMembers dates ms)) = true
      rw [isJson_of_json h, isJson_jsonMembers ms]
      rfl

end

mutual

theorem json_of_isJson {a : Js} (h : a.isJson = true) : json dates a = some a := by
  cases a with
  | undefined => cases h
  | null => rfl
  | bool c => rfl
  | num x => rfl
  | str s => rfl
  | date t => cases h
  | arr xs => rw [json, jsonItems_of_isJson h]
  | obj ms => rw [json, jsonMembers_of_isJson h]

theorem jsonItems_of_isJson {xs : List Js} (h : isJsonItems xs = true) : jsonItems dates xs = xs := by
  cases xs with
  | nil => rfl
  | cons x xs =>
    rw [isJsonItems, Bool.and_eq_true] at h
    rw [jsonItems, json_of_isJson h.1, jsonItems_of_isJson h.2]
    rfl

theorem jsonMembers_of_isJson {ms : List (String × Js)} (h : isJsonMembers ms = true) : jsonMembers dates ms = ms := by
  cases ms with
  | nil => rfl
  | cons m ms =>
    obtain ⟨k, x⟩ := m
    rw [isJsonMembers, Bool.and_eq_true] at h
    rw [jsonMembers, json_of_isJson h.1, jsonMembers_of_isJson h.2]

end

end Js

/-- A value that stands in a JSON text. -/
def JsonValue : Type := { a : Js // a.isJson = true }

/-! ### Numbers in strings -/

namespace Js

/-- `String.prototype.trim`. -/
def trim (s : String) : String :=
  String.ofList ((s.toList.dropWhile Regex.isSpace).reverse.dropWhile Regex.isSpace).reverse

/-- The nearest number of 53 bits, the even one of two. -/
def roundDouble (x : Rat) : Rat :=
  if x = 0 then 0
  else
    let e : Int := (Nat.log2 x.num.natAbs : Int) - Nat.log2 x.den - 53
    let scaled : Rat := if 0 ≤ e then x / (2 ^ e.toNat : Nat) else x * (2 ^ (-e).toNat : Nat)
    -- `scaled` has 53 to 55 bits before the point
    let unit : Nat := 2 ^ (Nat.log2 scaled.floor.natAbs - 52)
    let q : Rat := scaled / unit
    let f := q.floor
    let r := q - f
    let m : Int := if r < 1 / 2 then f else if 1 / 2 < r then f + 1 else if f % 2 = 0 then f else f + 1
    let y : Rat := m * unit
    if 0 ≤ e then y * (2 ^ e.toNat : Nat) else y / (2 ^ (-e).toNat : Nat)

def digits (base : Nat) (cs : List Char) : Nat :=
  cs.foldl (fun n c => n * base +
    (if c.isDigit then c.toNat - 48 else if c.toNat < 97 then c.toNat - 55 else c.toNat - 87)) 0

/-- The exponent of a decimal number, if there is one. -/
def exponent : List Char → Option Int
  | [] => some 0
  | c :: cs =>
    if c = 'e' ∨ c = 'E' then
      let sign := cs.head? == some '-'
      let ds := if sign ∨ cs.head? == some '+' then cs.tail else cs
      if ds ≠ [] ∧ ds.all Char.isDigit then some (if sign then -(digits 10 ds : Int) else digits 10 ds) else none
    else none

def decimal (cs : List Char) : Option Rat :=
  let int := cs.takeWhile Char.isDigit
  let rest := cs.dropWhile Char.isDigit
  let point := rest.head? == some '.'
  let frac := if point then rest.tail.takeWhile Char.isDigit else []
  let rest := if point then rest.tail.dropWhile Char.isDigit else rest
  if int = [] ∧ frac = [] then none
  else (exponent rest).map fun e =>
    let e : Int := e - frac.length
    let n : Rat := digits 10 (int ++ frac)
    if 0 ≤ e then n * (10 ^ e.toNat : Nat) else n / (10 ^ (-e).toNat : Nat)

def isHexDigit (c : Char) : Bool := c.isDigit || ('a' ≤ c && c ≤ 'f') || ('A' ≤ c && c ≤ 'F')

/-- The double next to the number, if that is not infinite. -/
def finite (x : Rat) : Option Rat :=
  let y := roundDouble x
  if -2 ^ 1024 < y ∧ y < 2 ^ 1024 then some y else none

/-- `Number(s)` of a string that is not blank; `none` when it is not a finite number. -/
def toNumber (s : String) : Option Rat :=
  match (trim s).toList with
  | '-' :: cs => (decimal cs).bind fun x => finite (-x)
  | '+' :: cs => (decimal cs).bind finite
  | '0' :: 'x' :: cs | '0' :: 'X' :: cs => if cs ≠ [] ∧ cs.all isHexDigit then finite (digits 16 cs) else none
  | '0' :: 'o' :: cs | '0' :: 'O' :: cs =>
    if cs ≠ [] ∧ cs.all (fun c => '0' ≤ c && c ≤ '7') then finite (digits 8 cs) else none
  | '0' :: 'b' :: cs | '0' :: 'B' :: cs =>
    if cs ≠ [] ∧ cs.all (fun c => c = '0' || c = '1') then finite (digits 2 cs) else none
  | cs => (decimal cs).bind finite

end Js

/-- Not an object: an object is equal to itself only. -/
def Js.isPrimitive : Js → Bool
  | .date _ | .arr _ | .obj _ => false
  | _ => true

abbrev JsMap := List (Js × Js)

namespace JsMap

/-- The comparison of keys; two objects that were read from a text are never the same. -/
def sameKey (a b : Js) : Bool := a.isPrimitive && a = b

def find (m : JsMap) (key : Js) : Option Js := (List.find? (fun e => sameKey e.1 key) m).map Prod.snd

def get (m : JsMap) (key : Js) : Js := (m.find key).getD .undefined

def set (key x : Js) : JsMap → JsMap
  | [] => [(key, x)]
  | (k, y) :: m => if sameKey k key then (k, x) :: m else (k, y) :: set key x m

def delete (m : JsMap) (key : Js) : JsMap := m.filter fun e => !sameKey e.1 key

def values (m : JsMap) : List Js := m.map Prod.snd

/-- `new Map(entries)`. -/
def ofEntries (entries : List (Js × Js)) : JsMap := entries.foldl (fun m e => m.set e.1 e.2) []

@[simp] theorem find_nil (key : Js) : find [] key = none := rfl

theorem find_cons (e : Js × Js) (m : JsMap) (key : Js) :
    find (e :: m) key = if sameKey e.1 key then some e.2 else find m key := by
  by_cases h : sameKey e.1 key = true <;> simp [find, h]

theorem sameKey_str {a : Js} {s : String} : sameKey a (.str s) = true ↔ a = .str s := by
  rw [sameKey, Bool.and_eq_true, decide_eq_true_eq]
  constructor
  · rintro ⟨-, rfl⟩
    rfl
  · rintro rfl
    exact ⟨rfl, rfl⟩

theorem sameKey_str_left {a : Js} {s : String} : sameKey (.str s) a = true ↔ a = .str s := by
  rw [sameKey, Bool.and_eq_true, decide_eq_true_eq]
  exact ⟨fun h => h.2.symm, fun h => ⟨rfl, h.symm⟩⟩

theorem find_set (m : JsMap) (s : String) (x key : Js) :
    find (set (.str s) x m) key = if key = .str s then some x else find m key := by
  induction m with
  | nil =>
    rw [set, find_cons]
    simp only [sameKey_str_left, find_nil]
  | cons e m ih =>
    obtain ⟨k, y⟩ := e
    rw [set]
    by_cases hk : sameKey k (.str s) = true
    · obtain rfl := sameKey_str.1 hk
      rw [if_pos hk, find_cons, find_cons]
      simp only [sameKey_str_left]
      split <;> rfl
    · rw [if_neg hk, find_cons, find_cons, ih]
      by_cases hkey : key = .str s
      · subst hkey
        rw [if_neg hk, if_pos rfl, if_pos rfl]
      · rw [if_neg hkey, if_neg hkey]

theorem find_set_of_ne {k : Js} {s : String} (m : JsMap) (x : Js) (h : k ≠ .str s) :
    find (set k x m) (.str s) = find m (.str s) := by
  have hk : ¬ sameKey k (.str s) = true := fun hs => h (sameKey_str.1 hs)
  induction m with
  | nil => rw [set, find_cons, if_neg hk]
  | cons e m ih =>
    obtain ⟨k', y⟩ := e
    rw [set]
    by_cases hkk : sameKey k' k = true
    · have heq : k' = k := by
        rw [sameKey, Bool.and_eq_true, decide_eq_true_eq] at hkk
        exact hkk.2
      subst heq
      rw [if_pos hkk, find_cons, find_cons, if_neg hk, if_neg hk]
    · rw [if_neg hkk, find_cons, find_cons, ih]

theorem find_ofEntries_eq_none {entries : List (Js × Js)} {s : String} (h : ∀ e ∈ entries, e.1 ≠ .str s) :
    (ofEntries entries).find (.str s) = none := by
  suffices hfold : ∀ m : JsMap, m.find (.str s) = none →
      (entries.foldl (fun m e => m.set e.1 e.2) m).find (.str s) = none from hfold [] rfl
  induction entries with
  | nil => exact fun m hm => hm
  | cons e entries ih =>
    intro m hm
    exact ih (fun e he => h e (by simp [he])) _ ((find_set_of_ne m e.2 (h e (by simp))).trans hm)

/-- No key stands twice. -/
def Distinct (m : JsMap) : Prop := m.Pairwise fun e f => sameKey e.1 f.1 = false

theorem set_of_new {m : JsMap} {key : Js} (x : Js) (h : ∀ e ∈ m, sameKey e.1 key = false) : set key x m = m ++ [(key, x)] := by
  induction m with
  | nil => rfl
  | cons e m ih =>
    rw [List.forall_mem_cons] at h
    rw [set, if_neg (by simp [h.1]), ih h.2, List.cons_append]

theorem key_of_mem_set {m : JsMap} {key x : Js} {e : Js × Js} (h : e ∈ set key x m) :
    (∃ f ∈ m, f.1 = e.1) ∨ (e = (key, x) ∧ ∀ f ∈ m, sameKey f.1 key = false) := by
  induction m with
  | nil => exact .inr ⟨List.mem_singleton.1 h, by simp⟩
  | cons f m ih =>
    obtain ⟨k, y⟩ := f
    rw [set] at h
    by_cases hk : sameKey k key = true
    · rw [if_pos hk] at h
      rcases List.mem_cons.1 h with rfl | h
      · exact .inl ⟨(k, y), List.mem_cons_self, rfl⟩
      · exact .inl ⟨e, List.mem_cons_of_mem _ h, rfl⟩
    · rw [if_neg hk] at h
      rcases List.mem_cons.1 h with rfl | h
      · exact .inl ⟨(k, y), List.mem_cons_self, rfl⟩
      · rcases ih h with ⟨f, hf, he⟩ | ⟨he, hnew⟩
        · exact .inl ⟨f, List.mem_cons_of_mem _ hf, he⟩
        · exact .inr ⟨he, List.forall_mem_cons.2 ⟨by simpa using hk, hnew⟩⟩

theorem Distinct.set {m : JsMap} (h : Distinct m) (key x : Js) : Distinct (set key x m) := by
  induction m with
  | nil => exact List.pairwise_singleton _ _
  | cons e m ih =>
    obtain ⟨k, y⟩ := e
    obtain ⟨hk, hm⟩ := List.pairwise_cons.1 h
    rw [JsMap.set]
    by_cases hkey : sameKey k key = true
    · rw [if_pos hkey]
      exact List.pairwise_cons.2 ⟨hk, hm⟩
    · rw [if_neg hkey]
      refine List.pairwise_cons.2 ⟨fun e he => ?_, ih hm⟩
      rcases key_of_mem_set he with ⟨f, hf, heq⟩ | ⟨rfl, -⟩
      · rw [← heq]
        exact hk f hf
      · simpa using hkey

theorem distinct_ofEntries (entries : List (Js × Js)) : Distinct (ofEntries entries) := by
  suffices hfold : ∀ m : JsMap, Distinct m → Distinct (entries.foldl (fun m e => m.set e.1 e.2) m) from
    hfold [] List.Pairwise.nil
  induction entries with
  | nil => exact fun m hm => hm
  | cons e entries ih => exact fun m hm => ih _ (hm.set e.1 e.2)

theorem ofEntries_of_distinct {m : JsMap} (h : Distinct m) : ofEntries m = m := by
  suffices hfold : ∀ acc : JsMap, Distinct (acc ++ m) → m.foldl (fun m e => m.set e.1 e.2) acc = acc ++ m from
    hfold [] h
  clear h
  induction m with
  | nil => exact fun acc _ => (List.append_nil acc).symm
  | cons e m ih =>
    intro acc hacc
    have hnew : ∀ f ∈ acc, sameKey f.1 e.1 = false :=
      fun f hf => (List.pairwise_append.1 hacc).2.2 f hf e List.mem_cons_self
    rw [List.foldl_cons, set_of_new e.2 hnew, ih _ (by simpa using hacc)]
    simp

theorem find_delete (m : JsMap) (s : String) (key : Js) :
    find (delete m (.str s)) key = if key = .str s then none else find m key := by
  induction m with
  | nil => simp [delete]
  | cons e m ih =>
    obtain ⟨k, y⟩ := e
    by_cases hk : sameKey k (.str s) = true
    · obtain rfl := sameKey_str.1 hk
      rw [show delete ((.str s, y) :: m) (.str s) = delete m (.str s) from List.filter_cons_of_neg (by simp [hk]), ih,
        find_cons]
      simp only [sameKey_str_left]
      split <;> rfl
    · rw [show delete ((k, y) :: m) (.str s) = (k, y) :: delete m (.str s) from List.filter_cons_of_pos (by simp [hk]),
        find_cons, find_cons, ih]
      by_cases hkey : key = .str s
      · subst hkey
        rw [if_neg hk, if_pos rfl, if_pos rfl]
      · rw [if_neg hkey, if_neg hkey]

theorem Distinct.delete {m : JsMap} (h : Distinct m) (key : Js) : Distinct (delete m key) := h.filter _

theorem distinct_of_keys {m m' : JsMap} (h : Distinct m) (hkeys : m'.map Prod.fst = m.map Prod.fst) : Distinct m' := by
  have hd : (m.map Prod.fst).Pairwise fun a b => sameKey a b = false := List.pairwise_map.2 h
  exact List.pairwise_map.1 (hkeys ▸ hd)

/-- Entries that are related, under the same keys. -/
theorem forall₂_set {R : Js × Js → Js × Js → Prop} {m m' : JsMap} (h : List.Forall₂ R m m')
    (hkeys : ∀ e f, R e f → e.1 = f.1) {s : String} {x y : Js} (hxy : R (.str s, x) (.str s, y)) :
    List.Forall₂ R (set (.str s) x m) (set (.str s) y m') := by
  induction h with
  | nil => exact .cons hxy .nil
  | @cons e f m m' hef h ih =>
    obtain ⟨k, a⟩ := e
    obtain ⟨k', b⟩ := f
    obtain rfl : k = k' := hkeys _ _ hef
    rw [set, set]
    by_cases hk : sameKey k (.str s) = true
    · rw [if_pos hk, if_pos hk]
      obtain rfl := sameKey_str.1 hk
      exact .cons hxy h
    · rw [if_neg hk, if_neg hk]
      exact .cons hef ih

end JsMap

end NginxAdmin
