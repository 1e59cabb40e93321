import Mathlib.Tactic.Common

/-!
# Base64

The encoding of bytes in the standard alphabet, with padding, and the strict decoder of its texts.
-/

namespace NginxAdmin.Base64

/-- The digit for six bits. -/
def digit (n : Nat) : Char :=
  if n < 26 then Char.ofNat (n + 65)
  else if n < 52 then Char.ofNat (n + 71)
  else if n < 62 then Char.ofNat (n - 4)
  else if n = 62 then '+'
  else '/'

def value (c : Char) : Option Nat :=
  if 'A' ≤ c ∧ c ≤ 'Z' then some (c.toNat - 65)
  else if 'a' ≤ c ∧ c ≤ 'z' then some (c.toNat - 71)
  else if '0' ≤ c ∧ c ≤ '9' then some (c.toNat + 4)
  else if c = '+' then some 62
  else if c = '/' then some 63
  else none

def encode : List UInt8 → List Char
  | [] => []
  | [a] => [digit (a.toNat / 4), digit (a.toNat % 4 * 16), '=', '=']
  | [a, b] => [digit (a.toNat / 4), digit (a.toNat % 4 * 16 + b.toNat / 16), digit (b.toNat % 16 * 4), '=']
  | a :: b :: c :: rest =>
    digit (a.toNat / 4) :: digit (a.toNat % 4 * 16 + b.toNat / 16) :: digit (b.toNat % 16 * 4 + c.toNat / 64) ::
      digit (c.toNat % 64) :: encode rest

/-- The byte of the first digit and of the first two bits of the second one, and so on. -/
def byte₁ (x y : Nat) : UInt8 := .ofNat (x * 4 + y / 16)

def byte₂ (y z : Nat) : UInt8 := .ofNat (y % 16 * 16 + z / 4)

def byte₃ (z w : Nat) : UInt8 := .ofNat (z % 4 * 64 + w)

/-- A group of two or of three digits only stands at the end, and its last digit has no bits of a further byte. -/
def decode : List Char → Option (List UInt8)
  | [] => some []
  | a :: b :: c :: d :: rest =>
    if d = '=' then
      if rest ≠ [] then none
      else if c = '=' then do
        let x ← value a
        let y ← value b
        if y % 16 = 0 then some [byte₁ x y] else none
      else do
        let x ← value a
        let y ← value b
        let z ← value c
        if z % 4 = 0 then some [byte₁ x y, byte₂ y z] else none
    else do
      let x ← value a
      let y ← value b
      let z ← value c
      let w ← value d
      let bytes ← decode rest
      pure (byte₁ x y :: byte₂ y z :: byte₃ z w :: bytes)
  | _ => none

theorem value_digit {n : Nat} (h : n < 64) : value (digit n) = some n := by
  have hall : ∀ n : Fin 64, value (digit n) = some n.val := by decide
  exact hall ⟨n, h⟩

theorem digit_ne_pad {n : Nat} (h : n < 64) : digit n ≠ '=' := by
  have hall : ∀ n : Fin 64, digit n ≠ '=' := by decide
  exact hall ⟨n, h⟩

theorem first_lt (a : UInt8) : a.toNat / 4 < 64 := by
  have ha := a.toNat_lt
  omega

theorem second_lt (a b : UInt8) : a.toNat % 4 * 16 + b.toNat / 16 < 64 := by
  have hb := b.toNat_lt
  omega

theorem third_lt (b c : UInt8) : b.toNat % 16 * 4 + c.toNat / 64 < 64 := by
  have hc := c.toNat_lt
  omega

theorem fourth_lt (c : UInt8) : c.toNat % 64 < 64 := Nat.mod_lt _ (by decide)

/-- The second digit of one byte, and the third one of two bytes. -/
theorem padded_lt (n : Nat) : n % 4 * 16 < 64 ∧ n % 16 * 4 < 64 := by omega

theorem byte_toNat {b : UInt8} {n : Nat} (h : n = b.toNat) : UInt8.ofNat n = b := by
  rw [h, UInt8.ofNat_toNat]

/-- What is encoded is decoded. -/
theorem decode_encode (bs : List UInt8) : decode (encode bs) = some bs := by
  induction bs using encode.induct with
  | case1 => rfl
  | case2 a =>
    have ha := a.toNat_lt
    have h₁ : byte₁ (a.toNat / 4) (a.toNat % 4 * 16) = a := byte_toNat (by omega)
    have hrest : a.toNat % 4 * 16 % 16 = 0 := by omega
    simp [encode, decode, value_digit (first_lt a), value_digit (padded_lt a.toNat).1, hrest, h₁]
  | case3 a b =>
    have ha := a.toNat_lt
    have hb := b.toNat_lt
    have h₁ : byte₁ (a.toNat / 4) (a.toNat % 4 * 16 + b.toNat / 16) = a := byte_toNat (by omega)
    have h₂ : byte₂ (a.toNat % 4 * 16 + b.toNat / 16) (b.toNat % 16 * 4) = b := byte_toNat (by omega)
    have hrest : b.toNat % 16 * 4 % 4 = 0 := by omega
    simp [encode, decode, value_digit (first_lt a), value_digit (second_lt a b), digit_ne_pad (padded_lt b.toNat).2,
      value_digit (padded_lt b.toNat).2, hrest, h₁, h₂]
  | case4 a b c rest ih =>
    have ha := a.toNat_lt
    have hb := b.toNat_lt
    have hc := c.toNat_lt
    have h₁ : byte₁ (a.toNat / 4) (a.toNat % 4 * 16 + b.toNat / 16) = a := byte_toNat (by omega)
    have h₂ : byte₂ (a.toNat % 4 * 16 + b.toNat / 16) (b.toNat % 16 * 4 + c.toNat / 64) = b := byte_toNat (by omega)
    have h₃ : byte₃ (b.toNat % 16 * 4 + c.toNat / 64) (c.toNat % 64) = c := byte_toNat (by omega)
    simp [encode, decode, value_digit (first_lt a), value_digit (second_lt a b), value_digit (third_lt b c),
      digit_ne_pad (fourth_lt c), value_digit (fourth_lt c), ih, h₁, h₂, h₃]

/-- The characters of an encoding: digits and padding. -/
theorem encode_forall {P : Char → Prop} (hdigit : ∀ n < 64, P (digit n)) (hpad : P '=') (bs : List UInt8) :
    ∀ c ∈ encode bs, P c := by
  induction bs using encode.induct with
  | case1 => simp [encode]
  | case2 a =>
    simp only [encode, List.forall_mem_cons]
    exact ⟨hdigit _ (first_lt a), hdigit _ (padded_lt a.toNat).1, hpad, hpad, by simp⟩
  | case3 a b =>
    simp only [encode, List.forall_mem_cons]
    exact ⟨hdigit _ (first_lt a), hdigit _ (second_lt a b), hdigit _ (padded_lt b.toNat).2, hpad, by simp⟩
  | case4 a b c rest ih =>
    simp only [encode, List.forall_mem_cons]
    exact ⟨hdigit _ (first_lt a), hdigit _ (second_lt a b), hdigit _ (third_lt b c), hdigit _ (fourth_lt c), ih⟩

theorem encode_ne_nil {bs : List UInt8} (h : bs ≠ []) : encode bs ≠ [] := by
  unfold encode
  split <;> simp_all

end NginxAdmin.Base64
