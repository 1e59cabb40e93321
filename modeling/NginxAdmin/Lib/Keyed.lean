import Mathlib.Data.List.Nodup
import Mathlib.Logic.Function.Basic

/-!
# Lists of records that stand for maps

A list of records, each with a key, is read as the map `view` from a key to the first record with that key. A record is
written in one of three ways: `replace` (where a record with its key stands), `upsert` (there, or at the end when there
is none) and `put` (at the end, without the old one). `put` and `upsert` are the same update of the map.
-/

namespace NginxAdmin.Keyed

section

variable {α κ : Type} (key : α → κ)

def Distinct (l : List α) : Prop := (l.map key).Nodup

variable {key} {l : List α} {a : α}

theorem distinct_append_singleton (h : Distinct key l) (hn : ∀ b ∈ l, key b ≠ key a) : Distinct key (l ++ [a]) := by
  rw [Distinct, List.map_append]
  refine List.Nodup.append h (by simp) ?_
  simpa using hn

theorem distinct_filter (h : Distinct key l) (p : α → Bool) : Distinct key (l.filter p) :=
  (List.filter_sublist.map key).nodup h

end

variable {α κ : Type} [DecidableEq κ] (key : α → κ)

def view (l : List α) (k : κ) : Option α := l.find? fun a => key a = k

def replace (a : α) (l : List α) : List α := l.map fun b => if key b = key a then a else b

def upsert (a : α) (l : List α) : List α :=
  if l.any fun b => key b = key a then replace key a l else l ++ [a]

def put (a : α) (l : List α) : List α := (l.filter fun b => key b ≠ key a) ++ [a]

variable {key} {l : List α} {a : α} {k : κ}

@[simp] theorem view_nil : view key [] k = none := rfl

theorem view_cons (b : α) : view key (b :: l) k = if key b = k then some b else view key l k := by
  by_cases h : key b = k <;> simp [view, h]

theorem view_append_singleton : view key (l ++ [a]) k = (view key l k).or (if key a = k then some a else none) := by
  by_cases h : key a = k <;> simp [view, List.find?_append, h]

theorem key_of_view {b : α} (h : view key l k = some b) : key b = k := by
  simpa using List.find?_some h

theorem mem_of_view {b : α} (h : view key l k = some b) : b ∈ l := List.mem_of_find?_eq_some h

theorem view_eq_none : view key l k = none ↔ ∀ b ∈ l, key b ≠ k := by simp [view]

theorem view_map {f : α → α} (hf : ∀ b ∈ l, key (f b) = key b) : view key (l.map f) k = (view key l k).map f := by
  induction l with
  | nil => rfl
  | cons b l ih =>
    rw [List.map_cons, view_cons, view_cons, hf b (by simp), ih fun c hc => hf c (by simp [hc])]
    split <;> rfl

theorem key_replace (b : α) : key (if key b = key a then a else b) = key b := by
  split <;> simp_all

theorem view_replace : view key (replace key a l) k = (view key l k).map fun b => if key b = key a then a else b :=
  view_map fun b _ => key_replace b

theorem distinct_replace (h : Distinct key l) : Distinct key (replace key a l) := by
  have hmap : (replace key a l).map key = l.map key := by
    rw [replace, List.map_map]
    exact List.map_congr_left fun b _ => key_replace b
  rwa [Distinct, hmap]

theorem any_key : (l.any fun b => decide (key b = key a)) = false ↔ view key l (key a) = none := by
  simp [view]

theorem view_upsert : view key (upsert key a l) = Function.update (view key l) (key a) (some a) := by
  funext k
  rw [upsert]
  split
  next h =>
    obtain ⟨b, hb⟩ : ∃ b, view key l (key a) = some b := by
      rcases hv : view key l (key a) with _ | b
      · rw [any_key.2 hv] at h
        cases h
      · exact ⟨b, rfl⟩
    rw [view_replace, Function.update_apply]
    by_cases hk : k = key a
    · rw [if_pos hk, hk, hb, Option.map_some, if_pos (key_of_view hb)]
    · rw [if_neg hk]
      rcases hv : view key l k with _ | c
      · rfl
      · rw [Option.map_some, if_neg (by rw [key_of_view hv]; exact hk)]
  next h =>
    have hn := any_key.1 (Bool.not_eq_true _ ▸ h)
    rw [view_append_singleton, Function.update_apply]
    by_cases hk : k = key a
    · rw [if_pos hk, hk, hn, if_pos rfl, Option.none_or]
    · rw [if_neg hk, if_neg (Ne.symm hk), Option.or_none]

theorem distinct_upsert (h : Distinct key l) : Distinct key (upsert key a l) := by
  rw [upsert]
  split
  next => exact distinct_replace h
  next hn => exact distinct_append_singleton h (view_eq_none.1 (any_key.1 (Bool.not_eq_true _ ▸ hn)))

theorem view_filter_ne {k' : κ} (h : k ≠ k') : view key (l.filter fun b => key b ≠ k') k = view key l k := by
  induction l with
  | nil => rfl
  | cons b l ih =>
    by_cases hb : key b = k'
    · rw [List.filter_cons_of_neg (by simp [hb]), ih, view_cons, if_neg (by rw [hb]; exact Ne.symm h)]
    · rw [List.filter_cons_of_pos (by simp [hb]), view_cons, view_cons, ih]

theorem view_put : view key (put key a l) = Function.update (view key l) (key a) (some a) := by
  funext k
  rw [put, view_append_singleton, Function.update_apply]
  by_cases hk : k = key a
  · have hn : view key (l.filter fun b => key b ≠ key a) (key a) = none := by
      refine view_eq_none.2 fun b hb => ?_
      simpa using (List.mem_filter.1 hb).2
    rw [if_pos hk, hk, hn, if_pos rfl, Option.none_or]
  · rw [if_neg hk, if_neg (Ne.symm hk), Option.or_none, view_filter_ne hk]

theorem distinct_put (h : Distinct key l) : Distinct key (put key a l) :=
  distinct_append_singleton (distinct_filter h _) fun _ hb => by simpa using (List.mem_filter.1 hb).2

/-- A record found under its key is written over with `replace` as with `upsert`. -/
theorem view_replace_of_ne_none (h : view key l (key a) ≠ none) :
    view key (replace key a l) = Function.update (view key l) (key a) (some a) := by
  have hany : ¬ (l.any fun b => decide (key b = key a)) = false := fun hn => h (any_key.1 hn)
  rw [← view_upsert, upsert, if_pos (by simpa using hany)]

end NginxAdmin.Keyed
