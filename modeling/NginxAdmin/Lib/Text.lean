import Mathlib.Data.List.Basic
import Mathlib.Data.List.Infix
import Mathlib.Data.List.TakeWhile

/-!
# Text as Rust's standard library sees it

The string functions of `std` that programs of this kind use, over the characters of a `String`:
Unicode white space, trimming, substring search, replacement, and the UTF-8 bytes of a text.
-/

namespace NginxAdmin

abbrev Bytes := List UInt8

/-- The longest run of a class in a text that is a run of the class and does not go on with it. -/
theorem takeWhile_of_all {α : Type} {p : α → Bool} {u r : List α} (hu : ∀ c ∈ u, p c = true)
    (hr : ∀ c, r.head? = some c → p c = false) : (u ++ r).takeWhile p = u ∧ (u ++ r).dropWhile p = r := by
  induction u with
  | nil =>
    cases r with
    | nil => exact ⟨rfl, rfl⟩
    | cons c r =>
      have hc : ¬ p c = true := by
        rw [hr c rfl]
        exact Bool.false_ne_true
      exact ⟨List.takeWhile_cons_of_neg hc, List.dropWhile_cons_of_neg hc⟩
  | cons c u ih =>
    rw [List.forall_mem_cons] at hu
    obtain ⟨htake, hdrop⟩ := ih hu.2
    rw [List.cons_append, List.takeWhile_cons_of_pos hu.1, List.dropWhile_cons_of_pos hu.1]
    exact ⟨congrArg (c :: ·) htake, hdrop⟩

namespace Text

/-- `char::is_whitespace`: the Unicode property `White_Space`. -/
def isWhitespace (c : Char) : Bool :=
  let n := c.toNat
  (9 ≤ n && n ≤ 13) || n == 0x20 || n == 0x85 || n == 0xA0 || n == 0x1680 || (0x2000 ≤ n && n ≤ 0x200A) ||
    n == 0x2028 || n == 0x2029 || n == 0x202F || n == 0x205F || n == 0x3000

/-- `str::trim`. -/
def trim (s : String) : String :=
  String.ofList ((s.toList.dropWhile isWhitespace).reverse.dropWhile isWhitespace).reverse

/-- A text without the characters of `p` at both ends. -/
def strip (p : Char → Bool) (l : List Char) : List Char := ((l.dropWhile p).reverse.dropWhile p).reverse

/-- `str::trim_matches` with a character pattern. -/
def trimMatches (c : Char) (s : String) : String := String.ofList (strip (· == c) s.toList)

theorem toList_trim (s : String) : (trim s).toList = strip isWhitespace s.toList := String.toList_ofList

theorem strip_append {p : Char → Bool} {a m b : List Char} (ha : ∀ c ∈ a, p c = true) (hb : ∀ c ∈ b, p c = true)
    (hne : m ≠ []) (hhead : ∀ c ∈ m.head?, p c = false) (hlast : ∀ c ∈ m.getLast?, p c = false) :
    strip p (a ++ (m ++ b)) = m := by
  have hfront : (a ++ (m ++ b)).dropWhile p = m ++ b := by
    rw [List.dropWhile_append_of_pos ha]
    obtain ⟨c, m, rfl⟩ := List.exists_cons_of_ne_nil hne
    exact List.dropWhile_cons_of_neg (by rw [hhead c rfl]; exact Bool.false_ne_true)
  have hback : (m ++ b).reverse.dropWhile p = m.reverse := by
    rw [List.reverse_append, List.dropWhile_append_of_pos fun c hc => hb c (List.mem_reverse.1 hc)]
    obtain ⟨c, l, hl⟩ := List.exists_cons_of_ne_nil (List.reverse_ne_nil_iff.2 hne)
    have hc : c ∈ m.getLast? := by rw [List.getLast?_eq_head?_reverse, hl]; rfl
    rw [hl]
    exact List.dropWhile_cons_of_neg (by rw [hlast c hc]; exact Bool.false_ne_true)
  rw [strip, hfront, hback, List.reverse_reverse]

/-- `str::split_whitespace`. -/
def splitWhitespace (s : String) : List String :=
  ((s.toList.splitOnP isWhitespace).filter (· ≠ [])).map String.ofList

/-- `str::to_ascii_lowercase`. -/
def toAsciiLowercase (s : String) : String := String.ofList (s.toList.map Char.toLower)

/-- `str::contains` with a string pattern. -/
def contains (s needle : String) : Bool := decide (needle.toList <:+: s.toList)

/-- `str::contains` with a character pattern. -/
def containsChar (s : String) (c : Char) : Bool := decide (c ∈ s.toList)

/-- `str::starts_with` with a character pattern. -/
def startsWithChar (s : String) (c : Char) : Bool := s.toList.head? == some c

/-- `str::ends_with`. -/
def endsWith (s suffix : String) : Bool := decide (suffix.toList <:+ s.toList)

/-- What follows the first occurrence of `pat`. -/
def afterFirst (pat : List Char) : List Char → Option (List Char)
  | [] => if pat = [] then some [] else none
  | c :: cs => if pat.isPrefixOf (c :: cs) then some ((c :: cs).drop pat.length) else afterFirst pat cs

/-- Replacement of the occurrences of `pat`, left to right; `skip` characters belong to the
occurrence just replaced. -/
def replaceAux (pat rep : List Char) : Nat → List Char → List Char
  | _, [] => []
  | skip + 1, _ :: cs => replaceAux pat rep skip cs
  | 0, c :: cs =>
    if pat.isPrefixOf (c :: cs) then rep ++ replaceAux pat rep (pat.length - 1) cs
    else c :: replaceAux pat rep 0 cs

/-- `str::replace` with a non-empty pattern. -/
def replace (s pat rep : String) : String :=
  String.ofList (replaceAux pat.toList rep.toList 0 s.toList)

/-- A pattern of one character is replaced character by character. -/
theorem replaceAux_singleton (c : Char) (rep l : List Char) :
    replaceAux [c] rep 0 l = l.flatMap fun d => if d = c then rep else [d] := by
  induction l with
  | nil => rfl
  | cons d l ih =>
    rw [replaceAux, List.flatMap_cons]
    by_cases hd : d = c
    · subst hd
      rw [if_pos (by simp [List.isPrefixOf]), if_pos rfl]
      exact congrArg (rep ++ ·) ih
    · rw [if_neg (by simp [List.isPrefixOf, Ne.symm hd]), if_neg hd, ih]
      rfl

/-- `[T]::join`. -/
def join (sep : String) : List String → String
  | [] => ""
  | [s] => s
  | s :: rest => s ++ sep ++ join sep rest

/-- A text that is one word: not empty and without white space. -/
def IsWord (s : String) : Prop := s.toList ≠ [] ∧ ∀ c ∈ s.toList, isWhitespace c = false

theorem not_mem_of_mem_splitOnP {α : Type} {p : α → Bool} {l piece : List α} (h : piece ∈ l.splitOnP p) :
    ∀ c ∈ piece, p c = false := by
  induction l generalizing piece with
  | nil =>
    rw [List.splitOnP_nil, List.mem_singleton] at h
    subst h
    exact fun c hc => absurd hc List.not_mem_nil
  | cons x l ih =>
    rw [List.splitOnP_cons_eq_if_modifyHead] at h
    split at h
    · rcases List.mem_cons.1 h with rfl | h
      · exact fun c hc => absurd hc List.not_mem_nil
      · exact ih h
    · rename_i hx
      obtain ⟨first, rest, hsplit⟩ := List.exists_cons_of_ne_nil (List.splitOnP_ne_nil p l)
      rw [hsplit, List.modifyHead_cons] at h
      rcases List.mem_cons.1 h with rfl | h
      · intro c hc
        rcases List.mem_cons.1 hc with rfl | hc
        · exact Bool.eq_false_iff.2 hx
        · exact ih (hsplit ▸ List.mem_cons_self) c hc
      · exact ih (hsplit ▸ List.mem_cons_of_mem first h)

theorem isWord_of_mem_splitWhitespace {s word : String} (h : word ∈ splitWhitespace s) : IsWord word := by
  obtain ⟨piece, hpiece, rfl⟩ := List.mem_map.1 h
  obtain ⟨hmem, hne⟩ := List.mem_filter.1 hpiece
  rw [IsWord, String.toList_ofList]
  exact ⟨of_decide_eq_true hne, not_mem_of_mem_splitOnP hmem⟩

/-- Words joined by blanks are found again. -/
theorem splitWhitespace_join {words : List String} (h : ∀ word ∈ words, IsWord word) :
    splitWhitespace (join " " words) = words := by
  induction words with
  | nil => rfl
  | cons word rest ih =>
    obtain ⟨hne, hword⟩ := h word List.mem_cons_self
    cases rest with
    | nil =>
      show (((word.toList).splitOnP isWhitespace).filter (· ≠ [])).map String.ofList = [word]
      have hkeep : decide (word.toList ≠ []) = true := decide_eq_true hne
      rw [List.splitOnP_eq_singleton hword]
      simp only [List.filter_cons, hkeep, List.filter_nil, if_true, List.map_cons, List.map_nil, String.ofList_toList]
    | cons next rest =>
      have hrest := ih fun w hw => h w (List.mem_cons_of_mem word hw)
      have htext : (join " " (word :: next :: rest)).toList =
          word.toList ++ ' ' :: (join " " (next :: rest)).toList := by
        show (word ++ " " ++ join " " (next :: rest)).toList = _
        rw [String.toList_append, String.toList_append, List.append_assoc]
        rfl
      have hkeep : decide (word.toList ≠ []) = true := decide_eq_true hne
      rw [splitWhitespace, htext, List.splitOnP_append_cons_of_forall_mem hword ' ' (by decide)]
      simp only [List.filter_cons, hkeep, if_true, List.map_cons, String.ofList_toList]
      exact congrArg (word :: ·) hrest

/-- `afterFirst` cuts at the occurrence with the shortest text before it. -/
theorem afterFirst_eq_some_iff {pat l rest : List Char} : afterFirst pat l = some rest ↔
    ∃ before, l = before ++ pat ++ rest ∧ ∀ x, x ++ pat <+: l → before.length ≤ x.length := by
  induction l with
  | nil =>
    rw [afterFirst]
    constructor
    · intro h
      split at h
      · rename_i hpat
        cases h
        exact ⟨[], by rw [hpat]; rfl, fun _ _ => Nat.zero_le _⟩
      · cases h
    · rintro ⟨before, hl, -⟩
      obtain ⟨hcut, rfl⟩ := List.append_eq_nil_iff.1 hl.symm
      rw [if_pos (List.append_eq_nil_iff.1 hcut).2]
  | cons c cs ih =>
    rw [afterFirst]
    by_cases hpat : pat <+: c :: cs
    · rw [if_pos (List.isPrefixOf_iff_prefix.2 hpat)]
      obtain ⟨tail, htail⟩ := hpat
      constructor
      · intro h
        rw [← Option.some.inj h, ← htail, List.drop_left]
        exact ⟨[], rfl, fun _ _ => Nat.zero_le _⟩
      · rintro ⟨before, hl, hfirst⟩
        obtain rfl : before = [] :=
          List.length_eq_zero_iff.1 (Nat.le_zero.1 (hfirst [] ⟨tail, htail⟩))
        rw [hl, List.nil_append, List.drop_left]
    · rw [if_neg (fun h => hpat (List.isPrefixOf_iff_prefix.1 h)), ih]
      constructor
      · rintro ⟨before, hl, hfirst⟩
        refine ⟨c :: before, by rw [hl]; rfl, fun x hx => ?_⟩
        cases x with
        | nil => exact absurd hx hpat
        | cons d x => exact Nat.succ_le_succ (hfirst x (List.cons_prefix_cons.1 hx).2)
      · rintro ⟨before, hl, hfirst⟩
        cases before with
        | nil => exact absurd ⟨rest, hl.symm⟩ hpat
        | cons d before =>
          obtain ⟨rfl, hcs⟩ := List.cons.inj hl
          exact ⟨before, hcs, fun x hx => Nat.le_of_succ_le_succ (hfirst (c :: x) (List.cons_prefix_cons.2 ⟨rfl, hx⟩))⟩

/-- The UTF-8 bytes of a text. -/
def utf8 (s : String) : Bytes := s.toList.flatMap String.utf8EncodeChar

/-- A lower-case letter and its upper-case form are the characters with this lower-case form. -/
theorem toLower_eq_iff {c d : Char} (hc : c.isLower = true) : d.toLower = c ↔ d = c.toUpper ∨ d = c := by
  have hbound : 97 ≤ c.val.toNat ∧ c.val.toNat ≤ 122 := by
    delta Char.isLower at hc
    simpa [UInt32.le_iff_toNat_le] using hc
  have hA : 'A'.val.toNat = 65 ∧ 'Z'.val.toNat = 90 := by decide
  have ha : 'a'.val.toNat = 97 ∧ 'z'.val.toNat = 122 := by decide
  have hup : ('A'.val - 'a'.val).toNat = 4294967264 := by decide
  have hdown : ('a'.val - 'A'.val).toNat = 32 := by decide
  have hd := d.val.toNat_lt
  delta Char.toLower Char.toUpper
  simp only [UInt32.le_iff_toNat_le, ge_iff_le, hA, ha, hbound, and_self, dite_true,
    Char.ext_iff]
  split
  · simp only [← UInt32.toNat_inj, UInt32.toNat_add]
    omega
  · simp only [← UInt32.toNat_inj, UInt32.toNat_add]
    omega

/-- `contains`, on the text in lower case. -/
theorem contains_toAsciiLowercase {s needle : String} : contains (toAsciiLowercase s) needle = true ↔
    ∃ x w y, s.toList = x ++ w ++ y ∧ w.map Char.toLower = needle.toList := by
  rw [contains, decide_eq_true_eq, toAsciiLowercase, String.toList_ofList]
  constructor
  · rintro ⟨x, y, h⟩
    obtain ⟨xw, y', hs, hxw, -⟩ := List.map_eq_append_iff.1 h.symm
    obtain ⟨x', w, rfl, -, hw⟩ := List.map_eq_append_iff.1 hxw
    exact ⟨x', w, y', hs, hw⟩
  · rintro ⟨x, w, y, hs, hw⟩
    exact ⟨x.map Char.toLower, y.map Char.toLower, by rw [hs, ← hw, List.map_append, List.map_append]⟩

/-- The bytes of a text in ASCII are its characters. -/
theorem utf8_ascii {l : List Char} (h : ∀ c ∈ l, c.toNat < 128) :
    l.flatMap String.utf8EncodeChar = l.map fun c => UInt8.ofNat c.toNat := by
  induction l with
  | nil => rfl
  | cons c l ih =>
    obtain ⟨hc, hl⟩ := List.forall_mem_cons.1 h
    have hchar : String.utf8EncodeChar c = [UInt8.ofNat c.toNat] := by
      have hle : c.val.toNat ≤ 0x7f := Nat.le_of_lt_succ hc
      simp only [String.utf8EncodeChar, hle, ↓reduceIte]
      rfl
    rw [List.flatMap_cons, List.map_cons, hchar, ih hl]
    rfl

/-- `String::from_utf8`. -/
def fromUtf8 (raw : Bytes) : Option String := raw.toByteArray.utf8Decode?.map fun cs => String.ofList cs.toList

theorem fromUtf8_utf8 (s : String) : fromUtf8 (utf8 s) = some s := by
  have hbytes : (utf8 s).toByteArray = s.toList.utf8Encode := rfl
  rw [fromUtf8, hbytes, List.utf8Decode?_utf8Encode]
  simp

/-- UTF-8 is a prefix code. -/
theorem utf8EncodeChar_append_inj {c d : Char} {x y : Bytes}
    (h : String.utf8EncodeChar c ++ x = String.utf8EncodeChar d ++ y) : c = d ∧ x = y := by
  have hb := congrArg List.toByteArray h
  rw [List.toByteArray_append, List.toByteArray_append] at hb
  have hc := @ByteArray.utf8DecodeChar?_utf8EncodeChar_append x.toByteArray c
  rw [hb, ByteArray.utf8DecodeChar?_utf8EncodeChar_append] at hc
  obtain rfl : d = c := Option.some.inj hc
  exact ⟨rfl, List.append_cancel_left h⟩

/-- Two texts that start the same byte sequence are comparable. -/
theorem prefix_or_prefix_of_utf8 {l l' : List Char} {x y : Bytes}
    (h : l.flatMap String.utf8EncodeChar ++ x = l'.flatMap String.utf8EncodeChar ++ y) :
    l <+: l' ∨ l' <+: l := by
  induction l generalizing l' with
  | nil => exact .inl (List.nil_prefix)
  | cons c l ih =>
    cases l' with
    | nil => exact .inr (List.nil_prefix)
    | cons d l' =>
      simp only [List.flatMap_cons, List.append_assoc] at h
      obtain ⟨rfl, h'⟩ := utf8EncodeChar_append_inj h
      rcases ih h' with h | h
      · exact .inl ((List.prefix_cons_inj c).2 h)
      · exact .inr ((List.prefix_cons_inj c).2 h)

end Text

end NginxAdmin
