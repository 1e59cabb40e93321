import NginxAdmin.Lib.Text

/-!
# SHA-256

The hash function of FIPS 180-4 on byte lists, with 32-bit words as naturals below `2 ^ 32`.
-/

namespace NginxAdmin.Sha256

def mask : Nat := 0x100000000

def rotr (n x : Nat) : Nat := (x >>> n) ||| (x <<< (32 - n)) % mask

def bigSigma0 (x : Nat) : Nat := rotr 2 x ^^^ rotr 13 x ^^^ rotr 22 x
def bigSigma1 (x : Nat) : Nat := rotr 6 x ^^^ rotr 11 x ^^^ rotr 25 x
def smallSigma0 (x : Nat) : Nat := rotr 7 x ^^^ rotr 18 x ^^^ (x >>> 3)
def smallSigma1 (x : Nat) : Nat := rotr 17 x ^^^ rotr 19 x ^^^ (x >>> 10)

def roundConstants : List Nat :=
  [0x428a2f98, 0x71374491, 0xb5c0fbcf, 0xe9b5dba5, 0x3956c25b, 0x59f111f1, 0x923f82a4, 0xab1c5ed5,
   0xd807aa98, 0x12835b01, 0x243185be, 0x550c7dc3, 0x72be5d74, 0x80deb1fe, 0x9bdc06a7, 0xc19bf174,
   0xe49b69c1, 0xefbe4786, 0x0fc19dc6, 0x240ca1cc, 0x2de92c6f, 0x4a7484aa, 0x5cb0a9dc, 0x76f988da,
   0x983e5152, 0xa831c66d, 0xb00327c8, 0xbf597fc7, 0xc6e00bf3, 0xd5a79147, 0x06ca6351, 0x14292967,
   0x27b70a85, 0x2e1b2138, 0x4d2c6dfc, 0x53380d13, 0x650a7354, 0x766a0abb, 0x81c2c92e, 0x92722c85,
   0xa2bfe8a1, 0xa81a664b, 0xc24b8b70, 0xc76c51a3, 0xd192e819, 0xd6990624, 0xf40e3585, 0x106aa070,
   0x19a4c116, 0x1e376c08, 0x2748774c, 0x34b0bcb5, 0x391c0cb3, 0x4ed8aa4a, 0x5b9cca4f, 0x682e6ff3,
   0x748f82ee, 0x78a5636f, 0x84c87814, 0x8cc70208, 0x90befffa, 0xa4506ceb, 0xbef9a3f7, 0xc67178f2]

/-- The eight working words. -/
structure Words where
  (a b c d e f g h : Nat)

def initial : Words :=
  ⟨0x6a09e667, 0xbb67ae85, 0x3c6ef372, 0xa54ff53a, 0x510e527f, 0x9b05688c, 0x1f83d9ab, 0x5be0cd19⟩

/-- Extends the message schedule, newest word first, by `n` words. -/
def extend : Nat → List Nat → List Nat
  | 0, w => w
  | n + 1, w =>
    extend n ((smallSigma1 (w.getD 1 0) + w.getD 6 0 + smallSigma0 (w.getD 14 0) + w.getD 15 0) % mask :: w)

def round (s : Words) (kw : Nat × Nat) : Words :=
  let ch := (s.e &&& s.f) ^^^ ((mask - 1 - s.e) &&& s.g)
  let t1 := s.h + bigSigma1 s.e + ch + kw.1 + kw.2
  let maj := (s.a &&& s.b) ^^^ (s.a &&& s.c) ^^^ (s.b &&& s.c)
  let t2 := bigSigma0 s.a + maj
  ⟨(t1 + t2) % mask, s.a, s.b, s.c, (s.d + t1) % mask, s.e, s.f, s.g⟩

/-- The big-endian words of a byte block. -/
def words : Bytes → List Nat
  | a :: b :: c :: d :: rest =>
    (a.toNat * 0x1000000 + b.toNat * 0x10000 + c.toNat * 0x100 + d.toNat) :: words rest
  | _ => []

def compress (s : Words) (block : Bytes) : Words :=
  let w := (extend 48 (words block).reverse).reverse
  let r := (roundConstants.zip w).foldl round s
  ⟨(s.a + r.a) % mask, (s.b + r.b) % mask, (s.c + r.c) % mask, (s.d + r.d) % mask,
   (s.e + r.e) % mask, (s.f + r.f) % mask, (s.g + r.g) % mask, (s.h + r.h) % mask⟩

/-- The `n` low bytes of `x`, most significant first. -/
def bigEndian (n x : Nat) : Bytes :=
  (List.range n).reverse.map fun i => UInt8.ofNat (x >>> (8 * i))

def pad (m : Bytes) : Bytes :=
  m ++ [0x80] ++ List.replicate ((119 - m.length % 64) % 64) 0 ++ bigEndian 8 (8 * m.length)

def blocks : Nat → Words → Bytes → Words
  | 0, s, _ => s
  | n + 1, s, m => blocks n (compress s (m.take 64)) (m.drop 64)

def digest (m : Bytes) : Bytes :=
  let p := pad m
  let s := blocks (p.length / 64) initial p
  [s.a, s.b, s.c, s.d, s.e, s.f, s.g, s.h].flatMap (bigEndian 4)

end NginxAdmin.Sha256
