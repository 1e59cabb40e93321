import NginxAdmin.Lib.Text
import Mathlib.Tactic.Common

/-!
# Decimal numerals of 64-bit numbers

`parseU64` is `str::parse::<u64>`: an optional `+`, then digits, with a check for overflow at each of them.
`parseU64_eq_some_iff` says which texts it reads as which number.
-/

namespace NginxAdmin.Text

/-- The digits read so far make `acc`; `none` at anything else and at an overflow. -/
def accumulate : Nat → List Char → Option Nat
  | acc, [] => some acc
  | acc, c :: cs =>
    if c.isDigit then
      let next := 10 * acc + (c.toNat - '0'.toNat)
      if next < UInt64.size then accumulate next cs else none
    else none

/-- What follows an optional `+`. -/
def unsigned : List Char → List Char
  | '+' :: cs => cs
  | cs => cs

/-- `str::parse::<u64>`. -/
def parseU64 (s : String) : Option UInt64 :=
  let digits := unsigned s.toList
  if digits = [] then none else (accumulate 0 digits).map UInt64.ofNat

theorem le_ofDigitChars (ds : List Char) (acc : Nat) : acc ≤ Nat.ofDigitChars 10 ds acc := by
  induction ds generalizing acc with
  | nil => rw [Nat.ofDigitChars_nil]
  | cons d ds ih =>
    rw [Nat.ofDigitChars_cons]
    have hnext := ih (10 * acc + (d.toNat - '0'.toNat))
    omega

/-- No intermediate value overflows unless the last one does. -/
theorem accumulate_eq_some_iff {ds : List Char} {acc n : Nat} (hacc : acc < UInt64.size) : accumulate acc ds = some n ↔
    (∀ c ∈ ds, c.isDigit = true) ∧ Nat.ofDigitChars 10 ds acc = n ∧ n < UInt64.size := by
  induction ds generalizing acc with
  | nil =>
    rw [accumulate, Nat.ofDigitChars_nil, Option.some.injEq]
    constructor
    · rintro rfl
      exact ⟨List.forall_mem_nil _, rfl, hacc⟩
    · exact fun h => h.2.1
  | cons d ds ih =>
    rw [accumulate, Nat.ofDigitChars_cons, List.forall_mem_cons]
    by_cases hd : d.isDigit = true
    · rw [if_pos hd]
      by_cases hnext : 10 * acc + (d.toNat - '0'.toNat) < UInt64.size
      · rw [if_pos hnext, ih hnext]
        exact ⟨fun ⟨hds, h⟩ => ⟨⟨hd, hds⟩, h⟩, fun ⟨⟨_, hds⟩, h⟩ => ⟨hds, h⟩⟩
      · rw [if_neg hnext]
        refine ⟨fun h => (Option.some_ne_none n h.symm).elim, fun ⟨_, hn, hlt⟩ => absurd ?_ hnext⟩
        have hle := le_ofDigitChars ds (10 * acc + (d.toNat - '0'.toNat))
        omega
    · rw [if_neg hd]
      exact ⟨fun h => (Option.some_ne_none n h.symm).elim, fun ⟨⟨h, _⟩, _⟩ => absurd h hd⟩

theorem unsigned_of_digits {ds : List Char} (h : ∀ c ∈ ds, c.isDigit = true) : unsigned ds = ds := by
  unfold unsigned
  split
  · exact absurd (h '+' List.mem_cons_self) (by decide)
  · rfl

theorem unsigned_cases (cs : List Char) : cs = unsigned cs ∨ cs = '+' :: unsigned cs := by
  unfold unsigned
  split
  · exact .inr rfl
  · exact .inl rfl

/-- The accepted texts: an optional `+` and at least one digit, of a value below 2^64. -/
theorem parseU64_eq_some_iff {s : String} {r : UInt64} : parseU64 s = some r ↔
    ∃ ds, (s.toList = ds ∨ s.toList = '+' :: ds) ∧ ds ≠ [] ∧ (∀ c ∈ ds, c.isDigit = true) ∧
      Nat.ofDigitChars 10 ds 0 = r.toNat ∧ Nat.ofDigitChars 10 ds 0 < 18446744073709551616 := by
  have hzero : 0 < UInt64.size := by decide
  constructor
  · intro h
    simp only [parseU64] at h
    split at h
    · cases h
    · rename_i hne
      obtain ⟨n, hn, hr⟩ := Option.map_eq_some_iff.1 h
      obtain ⟨hds, hval, hlt⟩ := (accumulate_eq_some_iff hzero).1 hn
      refine ⟨unsigned s.toList, unsigned_cases s.toList, hne, hds, ?_, by rw [hval]; exact hlt⟩
      rw [hval, ← hr]
      exact (UInt64.toNat_ofNat_of_lt hlt).symm
  · rintro ⟨ds, hs, hne, hds, hval, hlt⟩
    have hdigits : unsigned s.toList = ds := by
      rcases hs with hs | hs
      · rw [hs, unsigned_of_digits hds]
      · rw [hs]
        rfl
    have hread := (accumulate_eq_some_iff hzero).2 ⟨hds, rfl, hlt⟩
    rw [parseU64, hdigits, if_neg hne, hread, Option.map_some, hval, UInt64.ofNat_toNat]

/-- What `to_string` writes is read back. -/
theorem parseU64_toString (r : UInt64) : parseU64 (toString r) = some r := by
  refine parseU64_eq_some_iff.2 ⟨Nat.toDigits 10 r.toNat, .inl Nat.toList_repr, Nat.toDigits_ne_nil, fun c hc => ?_,
    Nat.ofDigitChars_ten_toDigits, ?_⟩
  · exact Nat.isDigit_of_mem_toDigits (by decide) (by decide) hc
  · rw [Nat.ofDigitChars_ten_toDigits]
    exact r.toNat_lt

end NginxAdmin.Text
