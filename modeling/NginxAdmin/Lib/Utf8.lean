import Mathlib.Data.List.Basic
import Mathlib.Tactic.Common

/-!
# UTF-8, decoded with replacement

`decode` reads bytes as the Encoding Standard says: what cannot be read is replaced, one character for each longest part that
could have been the start of one. `decode_encode`: of an encoded text it reads the text. `decode_chunks_iff`: the chunks of an
encoded text, decoded one by one, give the text exactly when each chunk is an encoded text. `encode_lt_iff`: texts are ordered
as their bytes are.
-/

namespace NginxAdmin.Utf8

/-- U+FFFD -/
def replacement : Char := '\ufffd'

/-- The values of a byte that can follow. -/
structure Window where
  low : Nat
  high : Nat
  low_ge : 0x80 ≤ low
  high_le : high ≤ 0xBF

def Window.has (w : Window) (b : UInt8) : Bool := w.low ≤ b.toNat && b.toNat ≤ w.high

def Window.tail : Window := ⟨0x80, 0xBF, by decide, by decide⟩

/-- The second byte, by the first one. -/
def Window.after (lead : Nat) : Window :=
  if lead = 0xE0 then ⟨0xA0, 0xBF, by decide, by decide⟩
  else if lead = 0xED then ⟨0x80, 0x9F, by decide, by decide⟩
  else if lead = 0xF0 then ⟨0x90, 0xBF, by decide, by decide⟩
  else if lead = 0xF4 then ⟨0x80, 0x8F, by decide, by decide⟩
  else tail

inductive State where
  | start
  /-- Within a character: `more` bytes are needed after the next one. -/
  | pending (more : Nat) (w : Window) (value : Nat)

/-- The first byte of a character: what is written, and the state after it. -/
def lead (b : Nat) : List Char × State :=
  if b ≤ 0x7F then ([Char.ofNat b], .start)
  else if 0xC2 ≤ b ∧ b ≤ 0xDF then ([], .pending 0 .tail (b - 0xC0))
  else if 0xE0 ≤ b ∧ b ≤ 0xEF then ([], .pending 1 (.after b) (b - 0xE0))
  else if 0xF0 ≤ b ∧ b ≤ 0xF4 then ([], .pending 2 (.after b) (b - 0xF0))
  else ([replacement], .start)

def step : State → UInt8 → List Char × State
  | .start, b => lead b.toNat
  | .pending more w value, b =>
    if w.has b then
      let value := value * 64 + b.toNat % 64
      match more with
      | 0 => ([Char.ofNat value], .start)
      | more + 1 => ([], .pending more .tail value)
    else
      -- the byte is read again, as the first one of a character
      let next := lead b.toNat
      (replacement :: next.1, next.2)

def decodeFrom : State → List UInt8 → List Char
  | .start, [] => []
  | .pending _ _ _, [] => [replacement]
  | s, b :: bs => (step s b).1 ++ decodeFrom (step s b).2 bs

def decode (bs : List UInt8) : List Char := decodeFrom .start bs

def encode (cs : List Char) : List UInt8 := cs.flatMap String.utf8EncodeChar

/-- Well-formed UTF-8. -/
def Valid (bs : List UInt8) : Prop := ∃ cs, bs = encode cs

theorem decodeFrom_cons (s : State) (b : UInt8) (bs : List UInt8) :
    decodeFrom s (b :: bs) = (step s b).1 ++ decodeFrom (step s b).2 bs := by
  cases s <;> rfl

theorem encode_cons (c : Char) (cs : List Char) : encode (c :: cs) = String.utf8EncodeChar c ++ encode cs := rfl

theorem encode_append (cs cs' : List Char) : encode (cs ++ cs') = encode cs ++ encode cs' := List.flatMap_append

theorem valid_nil : Valid [] := ⟨[], rfl⟩

theorem Valid.append {as bs : List UInt8} (ha : Valid as) (hb : Valid bs) : Valid (as ++ bs) := by
  obtain ⟨cs, rfl⟩ := ha
  obtain ⟨cs', rfl⟩ := hb
  exact ⟨cs ++ cs', (encode_append cs cs').symm⟩

/-- The bytes are taken one after another, and complete the character. -/
inductive Completes : Nat → Window → Nat → List UInt8 → Char → Prop
  | last {w : Window} {value : Nat} {b : UInt8} (h : w.has b = true) :
      Completes 0 w value [b] (Char.ofNat (value * 64 + b.toNat % 64))
  | next {more : Nat} {w : Window} {value : Nat} {b : UInt8} {bs : List UInt8} {c : Char} (h : w.has b = true)
      (hbs : Completes more .tail (value * 64 + b.toNat % 64) bs c) : Completes (more + 1) w value (b :: bs) c

theorem toNat_byte {n : Nat} (h : n < 256) : (UInt8.ofNat n).toNat = n := by
  rw [UInt8.toNat_ofNat', Nat.mod_eq_of_lt h]

theorem Window.has_iff {w : Window} {b : UInt8} : w.has b = true ↔ w.low ≤ b.toNat ∧ b.toNat ≤ w.high := by
  rw [Window.has, Bool.and_eq_true, decide_eq_true_eq, decide_eq_true_eq]

theorem has_tail {n : Nat} (h : n < 64) : Window.tail.has (UInt8.ofNat (n + 0x80)) = true := by
  rw [Window.has_iff, toNat_byte (by omega)]
  show 0x80 ≤ n + 0x80 ∧ n + 0x80 ≤ 0xBF
  omega

theorem has_after {lead n : Nat} (h : n < 64) (he0 : lead = 0xE0 → 0x20 ≤ n) (hed : lead = 0xED → n < 0x20)
    (hf0 : lead = 0xF0 → 0x10 ≤ n) (hf4 : lead = 0xF4 → n < 0x10) :
    (Window.after lead).has (UInt8.ofNat (n + 0x80)) = true := by
  rw [Window.has_iff, toNat_byte (by omega), Window.after]
  split
  next heq =>
    have hn := he0 heq
    show 0xA0 ≤ n + 0x80 ∧ n + 0x80 ≤ 0xBF
    omega
  next =>
    split
    next heq =>
      have hn := hed heq
      show 0x80 ≤ n + 0x80 ∧ n + 0x80 ≤ 0x9F
      omega
    next =>
      split
      next heq =>
        have hn := hf0 heq
        show 0x90 ≤ n + 0x80 ∧ n + 0x80 ≤ 0xBF
        omega
      next =>
        split
        next heq =>
          have hn := hf4 heq
          show 0x80 ≤ n + 0x80 ∧ n + 0x80 ≤ 0x8F
          omega
        next =>
          show 0x80 ≤ n + 0x80 ∧ n + 0x80 ≤ 0xBF
          omega

theorem lead_two {n : Nat} (h : 0xC2 ≤ n) (h' : n ≤ 0xDF) : lead n = ([], .pending 0 .tail (n - 0xC0)) := by
  rw [lead, if_neg (by omega), if_pos ⟨h, h'⟩]

theorem lead_three {n : Nat} (h : 0xE0 ≤ n) (h' : n ≤ 0xEF) : lead n = ([], .pending 1 (.after n) (n - 0xE0)) := by
  rw [lead, if_neg (by omega), if_neg (by omega), if_pos ⟨h, h'⟩]

theorem lead_four {n : Nat} (h : 0xF0 ≤ n) (h' : n ≤ 0xF4) : lead n = ([], .pending 2 (.after n) (n - 0xF0)) := by
  rw [lead, if_neg (by omega), if_neg (by omega), if_neg (by omega), if_pos ⟨h, h'⟩]

/-- The value that the bytes of a character add up to. -/
theorem completes_last {w : Window} {value v : Nat} {b : UInt8} (h : w.has b = true) (hv : value * 64 + b.toNat % 64 = v) :
    Completes 0 w value [b] (Char.ofNat v) := hv ▸ .last h

theorem encodeChar_spec (c : Char) : ∃ b bs, String.utf8EncodeChar c = b :: bs ∧
    ((bs = [] ∧ lead b.toNat = ([c], .start)) ∨
      ∃ more w value, lead b.toNat = ([], .pending more w value) ∧ Completes more w value bs c) := by
  have hchar : Char.ofNat c.val.toNat = c := Char.ofNat_toNat c
  have hvalid : c.val.toNat < 0xd800 ∨ (0xdfff < c.val.toNat ∧ c.val.toNat < 0x110000) := c.valid
  rw [String.utf8EncodeChar]
  generalize c.val.toNat = v at *
  by_cases h₁ : v ≤ 0x7f
  · refine ⟨_, _, if_pos h₁, .inl ⟨rfl, ?_⟩⟩
    rw [toNat_byte (by omega), lead, if_pos h₁, hchar]
  by_cases h₂ : v ≤ 0x7ff
  · refine ⟨_, _, by rw [if_neg h₁, if_pos h₂], .inr ⟨_, _, _, by
      rw [toNat_byte (by omega), lead_two (by omega) (by omega)], ?_⟩⟩
    have hlast : Completes 0 .tail (v / 64 % 0x20 + 0xc0 - 0xc0) [UInt8.ofNat (v % 0x40 + 0x80)] (Char.ofNat v) :=
      completes_last (has_tail (by omega)) (by rw [toNat_byte (by omega)]; omega)
    rwa [hchar] at hlast
  by_cases h₃ : v ≤ 0xffff
  · refine ⟨_, _, by rw [if_neg h₁, if_neg h₂, if_pos h₃], .inr ⟨_, _, _, by
      rw [toNat_byte (by omega), lead_three (by omega) (by omega)], ?_⟩⟩
    have hlast : Completes 0 .tail
        ((v / 4096 % 0x10 + 0xe0 - 0xe0) * 64 + (UInt8.ofNat (v / 64 % 0x40 + 0x80)).toNat % 64)
        [UInt8.ofNat (v % 0x40 + 0x80)] (Char.ofNat v) :=
      completes_last (has_tail (by omega)) (by rw [toNat_byte (by omega), toNat_byte (by omega)]; omega)
    rw [hchar] at hlast
    exact .next (has_after (by omega) (by omega) (by omega) (by omega) (by omega)) hlast
  · refine ⟨_, _, by rw [if_neg h₁, if_neg h₂, if_neg h₃], .inr ⟨_, _, _, by
      rw [toNat_byte (by omega), lead_four (by omega) (by omega)], ?_⟩⟩
    have hlast : Completes 0 .tail
        (((v / 262144 % 0x08 + 0xf0 - 0xf0) * 64 + (UInt8.ofNat (v / 4096 % 0x40 + 0x80)).toNat % 64) * 64 +
          (UInt8.ofNat (v / 64 % 0x40 + 0x80)).toNat % 64)
        [UInt8.ofNat (v % 0x40 + 0x80)] (Char.ofNat v) := completes_last (has_tail (by omega))
      (by rw [toNat_byte (by omega), toNat_byte (by omega), toNat_byte (by omega)]; omega)
    rw [hchar] at hlast
    exact .next (has_after (by omega) (by omega) (by omega) (by omega) (by omega))
      (.next (has_tail (by omega)) hlast)

/-! ### Encoded texts -/

theorem decodeFrom_completes {more : Nat} {w : Window} {value : Nat} {bs : List UInt8} {c : Char}
    (h : Completes more w value bs c) (rest : List UInt8) :
    decodeFrom (.pending more w value) (bs ++ rest) = c :: decodeFrom .start rest := by
  induction h with
  | last h =>
    rw [List.singleton_append, decodeFrom_cons, step, if_pos h]
    rfl
  | next h _ ih =>
    rw [List.cons_append, decodeFrom_cons, step, if_pos h]
    exact ih

theorem decode_encodeChar (c : Char) (rest : List UInt8) : decode (String.utf8EncodeChar c ++ rest) = c :: decode rest := by
  obtain ⟨b, bs, hbytes, h⟩ := encodeChar_spec c
  rw [hbytes, decode, List.cons_append, decodeFrom_cons, step]
  rcases h with ⟨rfl, hlead⟩ | ⟨more, w, value, hlead, hcompletes⟩
  · rw [hlead]
    rfl
  · rw [hlead]
    exact decodeFrom_completes hcompletes rest

theorem decode_encode_append (cs : List Char) (rest : List UInt8) : decode (encode cs ++ rest) = cs ++ decode rest := by
  induction cs with
  | nil => rfl
  | cons c cs ih => rw [encode_cons, List.append_assoc, decode_encodeChar, ih, List.cons_append]

theorem decode_encode (cs : List Char) : decode (encode cs) = cs := by
  have h := decode_encode_append cs []
  rwa [List.append_nil, show decode [] = [] from rfl, List.append_nil] at h

theorem Valid.of_append {as bs : List UInt8} (h : Valid (as ++ bs)) (ha : Valid as) : Valid bs := by
  obtain ⟨cs, hcs⟩ := h
  obtain ⟨as', rfl⟩ := ha
  have hdecode : cs = as' ++ decode bs := by rw [← decode_encode_append, hcs, decode_encode]
  rw [hdecode, encode_append] at hcs
  exact ⟨_, List.append_cancel_left hcs⟩

def replaced (cs : List Char) : Nat := cs.count replacement

theorem replaced_append (cs cs' : List Char) : replaced (cs ++ cs') = replaced cs + replaced cs' := List.count_append

theorem replaced_replacement (cs : List Char) : replaced (replacement :: cs) = replaced cs + 1 := List.count_cons_self

theorem replaced_singleton_le (c : Char) : replaced [c] ≤ 1 := List.count_le_length

theorem lead_of_has {w : Window} {b : UInt8} (h : w.has b = true) : lead b.toNat = ([replacement], .start) := by
  obtain ⟨hlow, hhigh⟩ := Window.has_iff.1 h
  have hge := w.low_ge
  have hle := w.high_le
  rw [lead, if_neg (by omega), if_neg (by omega), if_neg (by omega), if_neg (by omega)]

/-- When a character is given up and the bytes are read from the start, no replacement character is lost, and one is added
where the next byte belongs to the character. -/
theorem replaced_pending (more : Nat) (w : Window) (value : Nat) (bs : List UInt8) :
    replaced (decodeFrom (.pending more w value) bs) ≤ replaced (decode bs) + 1 ∧
    ∀ b bs', bs = b :: bs' → w.has b = true →
      replaced (decodeFrom (.pending more w value) bs) < replaced (decode bs) + 1 := by
  induction bs generalizing more w value with
  | nil => exact ⟨Nat.le_refl 1, fun b bs' h => by cases h⟩
  | cons b bs ih =>
    by_cases h : w.has b = true
    · have hdecode : replaced (decode (b :: bs)) = replaced (decode bs) + 1 := by
        rw [decode, decodeFrom_cons, step, lead_of_has h]
        exact replaced_replacement _
      have hlt : replaced (decodeFrom (.pending more w value) (b :: bs)) < replaced (decode (b :: bs)) + 1 := by
        rw [hdecode, decodeFrom_cons, step, if_pos h]
        cases more with
        | zero =>
          have hone := replaced_singleton_le (Char.ofNat (value * 64 + b.toNat % 64))
          show replaced ([_] ++ decode bs) < _
          rw [replaced_append]
          omega
        | succ more =>
          have hle := (ih more .tail (value * 64 + b.toNat % 64)).1
          exact Nat.lt_succ_of_le hle
      exact ⟨Nat.le_of_lt hlt, fun _ _ _ _ => hlt⟩
    · have heq : decodeFrom (.pending more w value) (b :: bs) = replacement :: decode (b :: bs) := by
        have hstep : step (.pending more w value) b = (replacement :: (lead b.toNat).1, (lead b.toNat).2) := by
          rw [step, if_neg h]
        rw [decode, decodeFrom_cons, decodeFrom_cons, hstep]
        rfl
      rw [heq, replaced_replacement]
      refine ⟨Nat.le_refl _, fun b' bs' hcons hhas => ?_⟩
      cases hcons
      exact absurd hhas h

theorem replaced_decodeFrom_append (s : State) (as bs : List UInt8) :
    replaced (decodeFrom s (as ++ bs)) ≤ replaced (decodeFrom s as) + replaced (decode bs) := by
  induction as generalizing s with
  | nil =>
    cases s with
    | start => exact Nat.le_add_left _ _
    | pending more w value =>
      have hle := (replaced_pending more w value bs).1
      rw [List.nil_append, show replaced (decodeFrom (.pending more w value) []) = 1 from rfl]
      omega
  | cons a as ih =>
    have hle := ih (step s a).2
    rw [List.cons_append, decodeFrom_cons, decodeFrom_cons, replaced_append, replaced_append]
    omega

/-- A cut within a character: the next byte belongs to it. -/
theorem Completes.cut {more : Nat} {w : Window} {value : Nat} {as bs : List UInt8} {b : UInt8} {c : Char}
    (h : Completes more w value (as ++ b :: bs) c) : ∃ more' w' value', w'.has b = true ∧
      ∀ rest, decodeFrom (.pending more w value) (as ++ rest) = decodeFrom (.pending more' w' value') rest := by
  induction as generalizing more w value with
  | nil =>
    have hb : w.has b = true := by
      cases h with
      | last h => exact h
      | next h _ => exact h
    exact ⟨more, w, value, hb, fun rest => rfl⟩
  | cons a as ih =>
    generalize hbytes : (a :: as) ++ b :: bs = l at h
    cases h with
    | last h => simp at hbytes
    | next h hrest =>
      obtain ⟨rfl, rfl⟩ := List.cons.inj hbytes
      obtain ⟨more', w', value', hb, hdecode⟩ := ih hrest
      refine ⟨more', w', value', hb, fun rest => ?_⟩
      rw [List.cons_append, decodeFrom_cons, step, if_pos h]
      exact hdecode rest

theorem replaced_lt_of_char {as bs bs' t : List UInt8} {b : UInt8} {c : Char} (ha : ¬ Valid as)
    (hchar : String.utf8EncodeChar c = as ++ b :: t) (hbs : bs = b :: bs') :
    replaced (decode (as ++ bs)) < replaced (decode as) + replaced (decode bs) := by
  cases as with
  | nil => exact absurd valid_nil ha
  | cons a as =>
    obtain ⟨a', rest, hbytes, h⟩ := encodeChar_spec c
    rw [hchar, List.cons_append] at hbytes
    obtain ⟨rfl, rfl⟩ := List.cons.inj hbytes
    rcases h with ⟨hnil, -⟩ | ⟨more, w, value, hlead, hcompletes⟩
    · simp at hnil
    · obtain ⟨more', w', value', hb, hdecode⟩ := hcompletes.cut
      have hrun : ∀ rest, decode (a :: as ++ rest) = decodeFrom (.pending more' w' value') rest := by
        intro rest
        rw [decode, List.cons_append, decodeFrom_cons, step, hlead]
        exact hdecode rest
      have has : decode (a :: as) = [replacement] := by
        have h := hrun []
        rwa [List.append_nil] at h
      have hlt := (replaced_pending more' w' value' bs).2 b bs' hbs hb
      rw [hrun, has, show replaced [replacement] = 1 from rfl]
      omega

/-- A cut within a character adds a replacement character. -/
theorem replaced_lt_of_cut {as bs : List UInt8} (h : Valid (as ++ bs)) (ha : ¬ Valid as) :
    replaced (decode (as ++ bs)) < replaced (decode as) + replaced (decode bs) := by
  obtain ⟨cs, hcs⟩ := h
  induction cs generalizing as with
  | nil =>
    have hnil : as = [] := (List.append_eq_nil_iff.1 hcs).1
    exact absurd (hnil ▸ valid_nil) ha
  | cons c cs ih =>
    rw [encode_cons] at hcs
    rcases List.append_eq_append_iff.1 hcs with ⟨t, hchar, hbs⟩ | ⟨as', has, hrest⟩
    · cases t with
      | nil =>
        rw [List.append_nil] at hchar
        exact absurd ⟨[c], by rw [← hchar, encode_cons]; exact (List.append_nil _).symm⟩ ha
      | cons b t => exact replaced_lt_of_char ha hchar (by rw [hbs, List.cons_append])
    · have ha' : ¬ Valid as' := fun hv => ha (has ▸ Valid.append ⟨[c], (List.append_nil _).symm⟩ hv)
      have hlt := ih ha' hrest.symm
      have hcons : ∀ l, replaced (c :: l) = replaced [c] + replaced l := replaced_append [c]
      rw [has, List.append_assoc, decode_encodeChar, decode_encodeChar, hcons, hcons (decode as')]
      omega

/-! ### Chunks -/

theorem replaced_chunks_le (chunks : List (List UInt8)) :
    replaced (decode chunks.flatten) ≤ replaced (chunks.flatMap decode) := by
  induction chunks with
  | nil => exact Nat.le_refl _
  | cons chunk chunks ih =>
    have hle := replaced_decodeFrom_append .start chunk chunks.flatten
    rw [List.flatten_cons, List.flatMap_cons, replaced_append]
    exact Nat.le_trans hle (Nat.add_le_add_left ih _)

theorem replaced_chunks_lt {chunks : List (List UInt8)} (h : Valid chunks.flatten) (hchunk : ∃ c ∈ chunks, ¬ Valid c) :
    replaced (decode chunks.flatten) < replaced (chunks.flatMap decode) := by
  induction chunks with
  | nil => simp at hchunk
  | cons chunk chunks ih =>
    rw [List.flatten_cons] at h ⊢
    rw [List.flatMap_cons, replaced_append]
    by_cases hv : Valid chunk
    · have hrest : ∃ c ∈ chunks, ¬ Valid c := by
        obtain ⟨c, hc, hn⟩ := hchunk
        rcases List.mem_cons.1 hc with rfl | hc
        · exact absurd hv hn
        · exact ⟨c, hc, hn⟩
      have hlt := ih (h.of_append hv) hrest
      have hle := replaced_decodeFrom_append .start chunk chunks.flatten
      exact Nat.lt_of_le_of_lt hle (Nat.add_lt_add_left hlt _)
    · exact Nat.lt_of_lt_of_le (replaced_lt_of_cut h hv) (Nat.add_le_add_left (replaced_chunks_le chunks) _)

theorem decode_chunks {chunks : List (List UInt8)} (h : ∀ c ∈ chunks, Valid c) :
    chunks.flatMap decode = decode chunks.flatten := by
  induction chunks with
  | nil => rfl
  | cons chunk chunks ih =>
    rw [List.forall_mem_cons] at h
    obtain ⟨cs, rfl⟩ := h.1
    rw [List.flatMap_cons, List.flatten_cons, ih h.2, decode_encode_append, decode_encode]

/-- The texts of the chunks and the text of the whole, seen through something that keeps replacement characters, are the same
exactly when no chunk ends within a character. -/
theorem decode_chunks_iff {f : List Char → List Char} (hf : ∀ cs, replaced (f cs) = replaced cs)
    {chunks : List (List UInt8)} (h : Valid chunks.flatten) :
    f (chunks.flatMap decode) = f (decode chunks.flatten) ↔ ∀ c ∈ chunks, Valid c := by
  constructor
  · intro heq
    by_contra hn
    have hlt := replaced_chunks_lt h (by simpa using hn)
    rw [← hf, ← hf (chunks.flatMap decode), heq] at hlt
    exact Nat.lt_irrefl _ hlt
  · intro hchunks
    rw [decode_chunks hchunks]

/-- Characters of four bytes. -/
theorem four_lt {v w : Nat} (h : v < w) (hw : w < 0x110000) (as bs : List UInt8) :
    ([UInt8.ofNat (v / 262144 % 8 + 240), UInt8.ofNat (v / 4096 % 64 + 128), UInt8.ofNat (v / 64 % 64 + 128),
        UInt8.ofNat (v % 64 + 128)] ++ as).map UInt8.toNat <
      ([UInt8.ofNat (w / 262144 % 8 + 240), UInt8.ofNat (w / 4096 % 64 + 128), UInt8.ofNat (w / 64 % 64 + 128),
        UInt8.ofNat (w % 64 + 128)] ++ bs).map UInt8.toNat := by
  have digits : ∀ n < 0x110000, n = 262144 * (n / 262144 % 8) + 4096 * (n / 4096 % 64) + 64 * (n / 64 % 64) + n % 64 := by
    intro n hn
    omega
  have hv := digits v (by omega)
  have hw := digits w hw
  have low : ∀ n, n % 64 < 64 := fun n => Nat.mod_lt _ (by decide)
  have := low (v / 4096)
  have := low (v / 64)
  have := low v
  have := low (w / 4096)
  have := low (w / 64)
  have := low w
  have := Nat.mod_lt (v / 262144) (by decide : 0 < 8)
  have := Nat.mod_lt (w / 262144) (by decide : 0 < 8)
  simp (disch := omega) only [List.cons_append, List.nil_append, List.map_cons, toNat_byte, List.cons_lt_cons_iff]
  generalize v / 262144 % 8 = a at *
  generalize v / 4096 % 64 = b at *
  generalize v / 64 % 64 = c at *
  generalize v % 64 = d at *
  generalize w / 262144 % 8 = a' at *
  generalize w / 4096 % 64 = b' at *
  generalize w / 64 % 64 = c' at *
  generalize w % 64 = d' at *
  omega

theorem encodeChar_lt {c d : Char} (h : c < d) (as bs : List UInt8) :
    (String.utf8EncodeChar c ++ as).map UInt8.toNat < (String.utf8EncodeChar d ++ bs).map UInt8.toNat := by
  have hlt : c.val.toNat < d.val.toNat := h
  have hd : d.val.toNat < 0xd800 ∨ (0xdfff < d.val.toNat ∧ d.val.toNat < 0x110000) := d.valid
  rw [String.utf8EncodeChar, String.utf8EncodeChar]
  generalize c.val.toNat = v at *
  generalize d.val.toNat = w at *
  -- the longer encoding starts with the greater byte
  by_cases h₁ : w ≤ 0x7f
  · rw [if_pos (by omega), if_pos h₁]
    simp (disch := omega) [List.cons_lt_cons_iff]
    omega
  by_cases h₂ : w ≤ 0x7ff
  · rw [if_neg h₁, if_pos h₂]
    split
    · simp (disch := omega) [List.cons_lt_cons_iff]
      omega
    · rw [if_pos (by omega)]
      simp (disch := omega) [List.cons_lt_cons_iff]
      omega
  by_cases h₃ : w ≤ 0xffff
  · rw [if_neg h₁, if_neg h₂, if_pos h₃]
    split
    · simp (disch := omega) [List.cons_lt_cons_iff]
      omega
    · split
      · simp (disch := omega) [List.cons_lt_cons_iff]
        omega
      · rw [if_pos (by omega)]
        simp (disch := omega) [List.cons_lt_cons_iff]
        omega
  · rw [if_neg h₁, if_neg h₂, if_neg h₃]
    split
    · simp (disch := omega) [List.cons_lt_cons_iff]
      omega
    · split
      · simp (disch := omega) [List.cons_lt_cons_iff]
        omega
      · split
        · simp (disch := omega) [List.cons_lt_cons_iff]
          omega
        · exact four_lt hlt (by omega) as bs

theorem encode_lt {cs cs' : List Char} (h : cs < cs') : (encode cs).map UInt8.toNat < (encode cs').map UInt8.toNat := by
  induction cs generalizing cs' with
  | nil =>
    cases cs' with
    | nil => exact absurd h (List.lt_irrefl _)
    | cons d cs' =>
      obtain ⟨b, bs, hbytes, -⟩ := encodeChar_spec d
      rw [encode_cons, hbytes]
      exact List.nil_lt_cons _ _
  | cons c cs ih =>
    cases cs' with
    | nil => exact absurd h (List.not_lt_nil _)
    | cons d cs' =>
      rw [encode_cons, encode_cons]
      rcases List.cons_lt_cons_iff.1 h with hlt | ⟨rfl, hlt⟩
      · exact encodeChar_lt hlt _ _
      · rw [List.map_append, List.map_append]
        exact List.append_left_lt (ih hlt)

theorem encode_injective : Function.Injective encode := Function.LeftInverse.injective decode_encode

/-- Texts are ordered as their bytes are. -/
theorem encode_lt_iff {cs cs' : List Char} : (encode cs).map UInt8.toNat < (encode cs').map UInt8.toNat ↔ cs < cs' := by
  constructor
  · intro h
    by_contra hle
    rcases List.le_iff_lt_or_eq.1 (List.not_lt.1 hle) with hlt | rfl
    · exact List.lt_asymm h (encode_lt hlt)
    · exact List.lt_irrefl _ h
  · exact encode_lt

theorem mem_encodeChar_ascii {c : Char} {b : UInt8} (hb : b.toNat ≤ 0x7f) : b ∈ String.utf8EncodeChar c ↔ c.val.toNat = b.toNat := by
  have hc : c.val.toNat < 0xd800 ∨ (0xdfff < c.val.toNat ∧ c.val.toNat < 0x110000) := c.valid
  rw [String.utf8EncodeChar]
  generalize c.val.toNat = v at *
  split
  · simp [← UInt8.toNat_inj]
    omega
  · split
    · simp (disch := omega) [← UInt8.toNat_inj]
      omega
    · split
      · simp (disch := omega) [← UInt8.toNat_inj]
        omega
      · simp (disch := omega) [← UInt8.toNat_inj]
        omega

end NginxAdmin.Utf8
