import Mathlib.Data.List.Forall2
import Mathlib.Data.List.Infix
import Mathlib.Tactic.Common

/-!
# Unicode lower case, and ASCII words in it

`LowerCase` is a conversion to lower case of which only what ASCII words can see is known: ASCII characters go to
their lower case, the Kelvin sign to `k`, the capital `İ` to `i` and a combining dot, and every other character to
something outside ASCII. The conversion may look at the context of a character.
`infix_toLowerCase_iff`: a word is found in the converted text as in the text with each character folded by itself.
-/

namespace NginxAdmin

/-- `p` is what the character `c` becomes. -/
def Lowered (c : Char) (p : List Char) : Prop :=
  if c.toNat < 128 then p = [c.toLower]
  else if c = '\u212a' then p = ['k']
  else if c = '\u0130' then p = ['i', '\u0307']
  else p ≠ [] ∧ ∀ d ∈ p, 128 ≤ d.toNat

structure LowerCase where
  toLowerCase : List Char → List Char
  pieces : ∀ cs, ∃ ps, toLowerCase cs = ps.flatten ∧ List.Forall₂ Lowered cs ps

namespace LowerCase

/-- The character by itself. -/
def fold (c : Char) : Char := if c = '\u212a' then 'k' else c.toLower

/-- An ASCII word that does not end in `i`. -/
structure Word (n : List Char) : Prop where
  ascii : ∀ c ∈ n, c.toNat < 128
  last : n.getLast? ≠ some 'i'

theorem Word.tail {m : Char} {n : List Char} (h : Word (m :: n)) : Word n where
  ascii c hc := h.ascii c (List.mem_cons_of_mem m hc)
  last hl := by
    cases n with
    | nil => cases hl
    | cons c n => exact h.last (by rw [List.getLast?_cons_cons]; exact hl)

theorem toLower_of_le {c : Char} (h : 128 ≤ c.toNat) : c.toLower = c := by
  have hZ : 'Z'.val.toNat = 90 := by decide
  have hnot : ¬ (c.val ≥ 'A'.val ∧ c.val ≤ 'Z'.val) := by
    rintro ⟨-, hle⟩
    rw [UInt32.le_iff_toNat_le, hZ] at hle
    have hc : c.val.toNat = c.toNat := rfl
    omega
  delta Char.toLower
  rw [dif_neg hnot]

/-- Either a character becomes one character, or the word search can tell neither it nor its folding from a
character outside ASCII. -/
theorem lowered_cases {c : Char} {p : List Char} (h : Lowered c p) :
    p = [fold c] ∨ (128 ≤ (fold c).toNat ∧ (p = ['i', '\u0307'] ∨ (p ≠ [] ∧ ∀ d ∈ p, 128 ≤ d.toNat))) := by
  rw [Lowered] at h
  split at h
  · rename_i hc
    have hne : c ≠ '\u212a' := by
      rintro rfl
      exact absurd hc (by decide)
    rw [fold, if_neg hne]
    exact .inl h
  rename_i hc
  split at h
  · rename_i hk
    rw [fold, if_pos hk]
    exact .inl h
  rename_i hk
  have hfold : fold c = c := by rw [fold, if_neg hk, toLower_of_le (Nat.le_of_not_lt hc)]
  rw [hfold]
  split at h
  · exact .inr ⟨Nat.le_of_not_lt hc, .inl h⟩
  · exact .inr ⟨Nat.le_of_not_lt hc, .inr h⟩

theorem not_prefix_cons {n l : List Char} {c : Char} (hn : Word n) (hne : n ≠ []) (hc : 128 ≤ c.toNat) :
    ¬ n <+: c :: l := by
  obtain ⟨m, n, rfl⟩ := List.exists_cons_of_ne_nil hne
  rw [List.cons_prefix_cons]
  rintro ⟨rfl, -⟩
  have := hn.ascii m List.mem_cons_self
  omega

/-- A word does not start in the middle of what one character becomes. -/
theorem prefix_flatten_iff {cs : List Char} {ps : List (List Char)} (h : List.Forall₂ Lowered cs ps) {n : List Char}
    (hn : Word n) : n <+: ps.flatten ↔ n <+: cs.map fold := by
  induction h generalizing n with
  | nil => exact Iff.rfl
  | @cons c p cs ps hp _ ih =>
    cases n with
    | nil => exact iff_of_true List.nil_prefix List.nil_prefix
    | cons m n =>
      rw [List.flatten_cons, List.map_cons]
      rcases lowered_cases hp with rfl | ⟨hc, rfl | ⟨hne, hall⟩⟩
      · rw [List.singleton_append, List.cons_prefix_cons, List.cons_prefix_cons, ih hn.tail]
      · refine iff_of_false ?_ (not_prefix_cons hn (List.cons_ne_nil m n) hc)
        rw [List.cons_append, List.cons_append, List.cons_prefix_cons]
        rintro ⟨rfl, hpre⟩
        by_cases hnil : n = []
        · exact hn.last (by rw [hnil]; rfl)
        · exact not_prefix_cons hn.tail hnil (by decide) hpre
      · refine iff_of_false ?_ (not_prefix_cons hn (List.cons_ne_nil m n) hc)
        obtain ⟨d, p, rfl⟩ := List.exists_cons_of_ne_nil hne
        exact not_prefix_cons hn (List.cons_ne_nil m n) (hall d List.mem_cons_self)

theorem infix_append_iff {n p l : List Char} (hn : Word n) (hne : n ≠ []) (hp : ∀ d ∈ p, 128 ≤ d.toNat) :
    n <:+: p ++ l ↔ n <:+: l := by
  induction p with
  | nil => exact Iff.rfl
  | cons d p ih =>
    obtain ⟨hd, hp⟩ := List.forall_mem_cons.1 hp
    rw [List.cons_append, List.infix_cons_iff, ih hp]
    exact or_iff_right (not_prefix_cons hn hne hd)

theorem infix_flatten_iff {cs : List Char} {ps : List (List Char)} (h : List.Forall₂ Lowered cs ps) {n : List Char}
    (hn : Word n) (hne : n ≠ []) : n <:+: ps.flatten ↔ n <:+: cs.map fold := by
  induction h with
  | nil => exact Iff.rfl
  | @cons c p cs ps hp hrest ih =>
    have hpre := prefix_flatten_iff (.cons hp hrest) hn
    rw [List.map_cons] at hpre
    rw [List.map_cons, List.infix_cons_iff, ← hpre, List.flatten_cons, ← ih]
    rcases lowered_cases hp with rfl | ⟨hc, rfl | ⟨-, hall⟩⟩
    · rw [List.singleton_append, List.infix_cons_iff]
    · rw [List.cons_append, List.infix_cons_iff, List.singleton_append, List.infix_cons_iff]
      refine or_congr_right (or_iff_right (not_prefix_cons hn hne (by decide)))
    · rw [infix_append_iff hn hne hall]
      have hnot := (not_congr hpre).2 (not_prefix_cons hn hne hc)
      rw [List.flatten_cons] at hnot
      exact (or_iff_right hnot).symm

/-- `includes`, on the text in lower case. -/
theorem infix_toLowerCase_iff (L : LowerCase) {cs n : List Char} (hn : Word n) (hne : n ≠ []) :
    n <:+: L.toLowerCase cs ↔ n <:+: cs.map fold := by
  obtain ⟨ps, hps, hpieces⟩ := L.pieces cs
  rw [hps, infix_flatten_iff hpieces hn hne]

theorem infix_map_of_imp {f g : Char → Char} {n cs : List Char} (h : ∀ m ∈ n, ∀ c, f c = m → g c = m)
    (hn : n <:+: cs.map f) : n <:+: cs.map g := by
  obtain ⟨x, y, heq⟩ := hn
  obtain ⟨xw, y', rfl, hxw, -⟩ := List.map_eq_append_iff.1 heq.symm
  obtain ⟨x', w, rfl, -, rfl⟩ := List.map_eq_append_iff.1 hxw
  have hw : w.map g = w.map f := by
    refine List.map_congr_left fun c hc => h (f c) (List.mem_map_of_mem hc) c rfl
  refine ⟨x'.map g, y'.map g, ?_⟩
  rw [List.map_append, List.map_append, hw]

/-- Folding finds what the lower case of ASCII finds. -/
theorem infix_fold_of_toLower {n cs : List Char} (hn : Word n) (h : n <:+: cs.map Char.toLower) : n <:+: cs.map fold := by
  refine infix_map_of_imp (fun m hm c hc => ?_) h
  have hne : c ≠ '\u212a' := by
    rintro rfl
    have hlt := hn.ascii m hm
    rw [← hc] at hlt
    exact absurd hlt (by decide)
  rw [fold, if_neg hne, hc]

/-- Only a word with a `k` can be found by folding alone. -/
theorem infix_toLower_of_fold {n cs : List Char} (hk : 'k' ∉ n) (h : n <:+: cs.map fold) :
    n <:+: cs.map Char.toLower := by
  refine infix_map_of_imp (fun m hm c hc => ?_) h
  rw [fold] at hc
  split at hc
  · exact absurd (hc ▸ hm) hk
  · exact hc

/-- The conversion of each character by itself, as far as ASCII can see it. -/
def piece (c : Char) : List Char :=
  if c = '\u0130' then ['i', '\u0307'] else [fold c]

theorem lowered_piece (c : Char) : Lowered c (piece c) := by
  rw [Lowered, piece]
  split
  · rename_i hc
    have h₁ : c ≠ '\u0130' := by rintro rfl; exact absurd hc (by decide)
    have h₂ : c ≠ '\u212a' := by rintro rfl; exact absurd hc (by decide)
    rw [if_neg h₁, fold, if_neg h₂]
  rename_i hc
  split
  · rename_i hk
    subst hk
    rfl
  rename_i hk
  split
  · rfl
  · rw [fold, if_neg hk, toLower_of_le (Nat.le_of_not_lt hc)]
    exact ⟨List.cons_ne_nil c [], fun d hd => by rw [List.mem_singleton.1 hd]; exact Nat.le_of_not_lt hc⟩

def simple : LowerCase where
  toLowerCase cs := (cs.map piece).flatten
  pieces cs := ⟨cs.map piece, rfl, List.forall₂_map_right_iff.2 (List.forall₂_same.2 fun c _ => lowered_piece c)⟩

end LowerCase

end NginxAdmin
