import Mathlib.Data.List.Sort
import Mathlib.Data.List.Forall2

/-!
# Stable sorting

What a stable sort by a total preorder `r` does to selections, permutations and element-wise changes of a
list: it commutes with `filter`, forgets the order of a list whose elements are told apart by `r`, and
keeps two lists related that are related element by element.
-/

namespace List

variable {α β : Type} {r : α → α → Prop} [DecidableRel r] {p : α → Bool}

theorem orderedInsert_eq_cons {a : α} {l : List α} (h : ∀ b ∈ l, r a b) : l.orderedInsert r a = a :: l := by
  cases l with
  | nil => rfl
  | cons b l => exact orderedInsert_cons_of_le r l (h b mem_cons_self)

theorem filter_orderedInsert [IsTrans α r] {l : List α} (hl : l.Pairwise r) (a : α) :
    (l.orderedInsert r a).filter p = if p a then (l.filter p).orderedInsert r a else l.filter p := by
  induction l with
  | nil => simp [filter_cons]
  | cons b l ih =>
    obtain ⟨hb, hl⟩ := pairwise_cons.1 hl
    by_cases hab : r a b
    · -- everything that is kept stands behind `a`
      have hall : ∀ c ∈ (b :: l).filter p, r a c := by
        intro c hc
        rcases mem_cons.1 (mem_of_mem_filter hc) with rfl | hc
        · exact hab
        · exact IsTrans.trans _ _ _ hab (hb c hc)
      rw [orderedInsert_cons_of_le r l hab, filter_cons, orderedInsert_eq_cons hall]
    · rw [orderedInsert_of_not_le r l hab, filter_cons, filter_cons, ih hl]
      cases hpa : p a <;> cases hpb : p b <;> simp [hab]

theorem filter_insertionSort [Std.Total r] [IsTrans α r] (l : List α) :
    (l.insertionSort r).filter p = (l.filter p).insertionSort r := by
  induction l with
  | nil => rfl
  | cons a l ih =>
    rw [insertionSort_cons, filter_orderedInsert (pairwise_insertionSort r l), ih, filter_cons]
    split <;> rfl

/-- Permutations of a list whose elements are told apart by `r` are sorted alike. -/
theorem Perm.insertionSort_eq [Std.Total r] [IsTrans α r] {l l' : List α} (h : l.Perm l')
    (hr : ∀ a ∈ l, ∀ b ∈ l, r a b → r b a → a = b) : l.insertionSort r = l'.insertionSort r := by
  have hperm : (l.insertionSort r).Perm (l'.insertionSort r) :=
    (perm_insertionSort r l).trans (h.trans (perm_insertionSort r l').symm)
  refine hperm.eq_of_pairwise (fun a b ha hb => hr a ?_ b ?_) (pairwise_insertionSort r l)
    (pairwise_insertionSort r l')
  · exact (mem_insertionSort r).1 ha
  · exact h.mem_iff.2 ((mem_insertionSort r).1 hb)

/-- Selecting and then mapping two lists that agree in what is selected and in what it is mapped to. -/
theorem filter_map_eq_of_forall₂ {p' : β → Bool} {γ : Type} {f : α → γ} {g : β → γ} {l : List α} {l' : List β}
    (h : Forall₂ (fun a b => p a = p' b ∧ f a = g b) l l') : (l.filter p).map f = (l'.filter p').map g := by
  induction h with
  | nil => rfl
  | cons hab _ ih =>
    obtain ⟨hp, hf⟩ := hab
    simp only [filter_cons, hp]
    split
    · simp only [map_cons, hf, ih]
    · exact ih

variable {q : β → β → Prop} [DecidableRel q] {R : α → β → Prop}

theorem Forall₂.orderedInsert (hR : ∀ a b a' b', R a b → R a' b' → (r a a' ↔ q b b')) {a : α} {b : β}
    (hab : R a b) {l : List α} {l' : List β} (h : Forall₂ R l l') :
    Forall₂ R (l.orderedInsert r a) (l'.orderedInsert q b) := by
  induction h with
  | nil => exact .cons hab .nil
  | @cons c d l l' hcd h ih =>
    rw [orderedInsert_cons, orderedInsert_cons]
    by_cases hac : r a c
    · rw [if_pos hac, if_pos ((hR _ _ _ _ hab hcd).1 hac)]
      exact .cons hab (.cons hcd h)
    · rw [if_neg hac, if_neg fun hbd => hac ((hR _ _ _ _ hab hcd).2 hbd)]
      exact .cons hcd ih

theorem Forall₂.insertionSort (hR : ∀ a b a' b', R a b → R a' b' → (r a a' ↔ q b b')) {l : List α}
    {l' : List β} (h : Forall₂ R l l') : Forall₂ R (l.insertionSort r) (l'.insertionSort q) := by
  induction h with
  | nil => exact .nil
  | cons hab _ ih => exact Forall₂.orderedInsert hR hab ih

end List
