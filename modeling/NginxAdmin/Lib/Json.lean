import NginxAdmin.Lib.Text

/-!
# JSON documents and their text

`Json` is a document as a tree; an object is the list of its members in their order. `print` is the text
with two spaces of indentation, `parse` reads a text, with white space between the tokens and at most
`limit` containers inside each other. `parse_print`: what is printed can be read back.

Numbers are integers; a text with a fraction or an exponent is not read.
-/

namespace NginxAdmin

inductive Json where
  | null
  | bool (b : Bool)
  | int (n : Int)
  | str (s : String)
  | arr (items : List Json)
  | obj (members : List (String × Json))

namespace Json

/-- The value of a member of an object. -/
def get (name : String) : Json → Option Json
  | obj members => members.lookup name
  | _ => none

mutual

def depth : Json → Nat
  | null | bool _ | int _ | str _ => 0
  | arr items => depthItems items + 1
  | obj members => depthMembers members + 1

def depthItems : List Json → Nat
  | [] => 0
  | j :: js => max (depth j) (depthItems js)

def depthMembers : List (String × Json) → Nat
  | [] => 0
  | (_, j) :: ms => max (depth j) (depthMembers ms)

end

def hexDigit (n : Nat) : Char := "0123456789abcdef".toList.getD n '0'

/-- How a character stands in a string. -/
def escape (c : Char) : List Char :=
  if c = '"' then ['\\', '"']
  else if c = '\\' then ['\\', '\\']
  else if c.toNat = 8 then ['\\', 'b']
  else if c.toNat = 9 then ['\\', 't']
  else if c.toNat = 10 then ['\\', 'n']
  else if c.toNat = 12 then ['\\', 'f']
  else if c.toNat = 13 then ['\\', 'r']
  else if c.toNat < 32 then ['\\', 'u', '0', '0', hexDigit (c.toNat / 16), hexDigit (c.toNat % 16)]
  else [c]

def quote (s : String) : List Char := '"' :: (s.toList.flatMap escape ++ ['"'])

def newline (indent : Nat) : List Char := '\n' :: List.replicate (2 * indent) ' '

mutual

def pretty (indent : Nat) : Json → List Char
  | null => "null".toList
  | bool true => "true".toList
  | bool false => "false".toList
  | int n => (toString n).toList
  | str s => quote s
  | arr [] => ['[', ']']
  | arr (j :: js) => '[' :: (newline (indent + 1) ++ pretty (indent + 1) j ++ prettyItems (indent + 1) js ++
      newline indent ++ [']'])
  | obj [] => ['\x7b', '\x7d']
  | obj ((k, j) :: ms) => '\x7b' :: (newline (indent + 1) ++ quote k ++ [':', ' '] ++ pretty (indent + 1) j ++
      prettyMembers (indent + 1) ms ++ newline indent ++ ['\x7d'])

def prettyItems (indent : Nat) : List Json → List Char
  | [] => []
  | j :: js => ',' :: (newline indent ++ pretty indent j ++ prettyItems indent js)

def prettyMembers (indent : Nat) : List (String × Json) → List Char
  | [] => []
  | (k, j) :: ms => ',' :: (newline indent ++ quote k ++ [':', ' '] ++ pretty indent j ++ prettyMembers indent ms)

end

def print (j : Json) : String := String.ofList (pretty 0 j)

def isSpace (c : Char) : Bool := c == ' ' || c == '\n' || c == '\t' || c == '\r'

def skip (cs : List Char) : List Char := cs.dropWhile isSpace

def hexValue (c : Char) : Option Nat :=
  if '0' ≤ c ∧ c ≤ '9' then some (c.toNat - '0'.toNat)
  else if 'a' ≤ c ∧ c ≤ 'f' then some (c.toNat - 'a'.toNat + 10)
  else if 'A' ≤ c ∧ c ≤ 'F' then some (c.toNat - 'A'.toNat + 10)
  else none

def unescape (c : Char) : Option Char :=
  if c = '"' ∨ c = '\\' ∨ c = '/' then some c
  else if c = 'b' then some (Char.ofNat 8)
  else if c = 't' then some '\t'
  else if c = 'n' then some '\n'
  else if c = 'f' then some (Char.ofNat 12)
  else if c = 'r' then some '\r'
  else none

/-- The characters of a string after its opening quote, and the text after its closing quote. -/
def string : List Char → Option (List Char × List Char)
  | [] => none
  | '"' :: cs => some ([], cs)
  | '\\' :: 'u' :: a :: b :: c :: d :: cs => do
    let n := 4096 * (← hexValue a) + 256 * (← hexValue b) + 16 * (← hexValue c) + (← hexValue d)
    if n.isValidChar then
      let (s, rest) ← string cs
      pure (Char.ofNat n :: s, rest)
    else none
  | '\\' :: c :: cs => do
    let ch ← unescape c
    let (s, rest) ← string cs
    pure (ch :: s, rest)
  | c :: cs =>
    if c.toNat < 32 then none
    else do
      let (s, rest) ← string cs
      pure (c :: s, rest)

/-- Digits without a leading zero, not followed by a fraction or an exponent. -/
def natural (cs : List Char) : Option (Nat × List Char) :=
  let digits := cs.takeWhile Char.isDigit
  let rest := cs.dropWhile Char.isDigit
  if digits = [] ∨ (digits.head? = some '0' ∧ digits.length ≠ 1) then none
  else if rest.head? ∈ [some '.', some 'e', some 'E'] then none
  else some (Nat.ofDigitChars 10 digits 0, rest)

def number : List Char → Option (Int × List Char)
  | '-' :: cs => (natural cs).bind fun p => if p.1 = 0 then none else some (-p.1, p.2)
  | cs => (natural cs).map fun p => (p.1, p.2)

mutual

/-- A value with at most `depth` containers inside each other; `fuel` bounds the number of values. -/
def value (depth : Nat) : Nat → List Char → Option (Json × List Char)
  | 0, _ => none
  | fuel + 1, cs =>
    match skip cs with
    | 'n' :: 'u' :: 'l' :: 'l' :: cs => some (null, cs)
    | 't' :: 'r' :: 'u' :: 'e' :: cs => some (bool true, cs)
    | 'f' :: 'a' :: 'l' :: 's' :: 'e' :: cs => some (bool false, cs)
    | '"' :: cs => (string cs).map fun p => (str (String.ofList p.1), p.2)
    | '[' :: cs =>
      match depth, skip cs with
      | 0, _ => none
      | _ + 1, ']' :: cs => some (arr [], cs)
      | depth + 1, cs => (items depth fuel cs).map fun p => (arr p.1, p.2)
    | '\x7b' :: cs =>
      match depth, skip cs with
      | 0, _ => none
      | _ + 1, '\x7d' :: cs => some (obj [], cs)
      | depth + 1, cs => (members depth fuel cs).map fun p => (obj p.1, p.2)
    | cs => (number cs).map fun p => (int p.1, p.2)

/-- The items of an array up to its end. -/
def items (depth : Nat) : Nat → List Char → Option (List Json × List Char)
  | 0, _ => none
  | fuel + 1, cs =>
    (value depth fuel cs).bind fun p =>
      match skip p.2 with
      | ']' :: cs => some ([p.1], cs)
      | ',' :: cs => (items depth fuel cs).map fun q => (p.1 :: q.1, q.2)
      | _ => none

/-- The members of an object up to its end. -/
def members (depth : Nat) : Nat → List Char → Option (List (String × Json) × List Char)
  | 0, _ => none
  | fuel + 1, cs =>
    match skip cs with
    | '"' :: cs =>
      (string cs).bind fun k =>
        match skip k.2 with
        | ':' :: cs =>
          (value depth fuel cs).bind fun p =>
            match skip p.2 with
            | '\x7d' :: cs => some ([(String.ofList k.1, p.1)], cs)
            | ',' :: cs => (members depth fuel cs).map fun q => ((String.ofList k.1, p.1) :: q.1, q.2)
            | _ => none
        | _ => none
    | _ => none

end

/-- A text that is one value, with white space around it. -/
def parse (limit : Nat) (text : String) : Option Json :=
  match value limit (text.toList.length + 1) text.toList with
  | some (j, rest) => if skip rest = [] then some j else none
  | none => none

/-! ### What is printed can be read back -/

theorem skip_newline (n : Nat) (cs : List Char) : skip (newline n ++ cs) = skip cs := by
  have hspaces : ∀ m, skip (List.replicate m ' ' ++ cs) = skip cs := by
    intro m
    induction m with
    | zero => rfl
    | succ m ih => exact ih
  exact hspaces (2 * n)

theorem skip_cons {c : Char} (hc : isSpace c = false) (cs : List Char) : skip (c :: cs) = c :: cs := by
  rw [skip, List.dropWhile_cons_of_neg (by simp [hc])]

theorem hexValue_hexDigit {n : Nat} (h : n < 16) : hexValue (hexDigit n) = some n := by
  have hall : ∀ m : Fin 16, hexValue (hexDigit m) = some m.1 := by decide
  exact hall ⟨n, h⟩

theorem string_plain {c : Char} (hq : c ≠ '"') (hb : c ≠ '\\') (hc : ¬ c.toNat < 32) (cs : List Char) :
    string (c :: cs) = (string cs).map fun p => (c :: p.1, p.2) := by
  rw [string.eq_def]
  split
  · contradiction
  · simp_all
  · simp_all
  · simp_all
  · rename_i heq
    obtain ⟨rfl, rfl⟩ := List.cons.inj heq
    rw [if_neg hc]
    cases string cs <;> rfl

/-- A character as it stands, after a backslash, or by its number. -/
inductive Escaped (c : Char) : List Char → Prop
  | plain (hq : c ≠ '"') (hb : c ≠ '\\') (hc : ¬ c.toNat < 32) : Escaped c [c]
  | short (e : Char) (he : e ≠ 'u') (h : unescape e = some c) : Escaped c ['\\', e]
  | hex (a b : Char) (ha : hexValue a = some (c.toNat / 16)) (hb : hexValue b = some (c.toNat % 16)) :
      Escaped c ['\\', 'u', '0', '0', a, b]

theorem escaped_escape (c : Char) : Escaped c (escape c) := by
  have hof : ∀ n, c.toNat = n → some (Char.ofNat n) = some c := fun n h => by rw [← h, Char.ofNat_toNat]
  unfold escape
  split_ifs with hq hb h8 h9 h10 h12 h13 h32
  · subst hq
    exact .short _ (by decide) (by decide)
  · subst hb
    exact .short _ (by decide) (by decide)
  · exact .short _ (by decide) (hof 8 h8)
  · exact .short _ (by decide) (hof 9 h9)
  · exact .short _ (by decide) (hof 10 h10)
  · exact .short _ (by decide) (hof 12 h12)
  · exact .short _ (by decide) (hof 13 h13)
  · exact .hex _ _ (hexValue_hexDigit (by omega)) (hexValue_hexDigit (by omega))
  · exact .plain hq hb h32

/-- The number of a character that is written with two digits. -/
theorem hex_sum (n : Nat) : 4096 * 0 + 256 * 0 + 16 * (n / 16) + n % 16 = n := by omega

theorem string_short {e ch : Char} (he : e ≠ 'u') (h : unescape e = some ch) (cs : List Char) :
    string ('\\' :: e :: cs) = (string cs).map fun p => (ch :: p.1, p.2) := by
  have hback : string ('\\' :: e :: cs) = (unescape e).bind fun ch => (string cs).bind fun p => some (ch :: p.1, p.2) := by
    rw [string.eq_def]
    split
    · contradiction
    · simp_all
    · simp_all
    · rename_i heq
      obtain ⟨rfl, rfl⟩ := List.cons.inj (List.cons.inj heq).2
      rfl
    · rename_i hother heq
      obtain ⟨rfl, rfl⟩ := List.cons.inj heq
      exact (hother e cs rfl rfl).elim
  rw [hback, h, Option.bind_some]
  cases string cs <;> rfl

theorem string_escape (c : Char) (cs : List Char) :
    string (escape c ++ cs) = (string cs).map fun p => (c :: p.1, p.2) := by
  have hc := escaped_escape c
  generalize escape c = w at hc ⊢
  cases hc with
  | plain hq hb hc => exact string_plain hq hb hc cs
  | short e he h => exact string_short he h cs
  | hex a b ha hb =>
    have hzero : hexValue '0' = some 0 := by decide
    show string ('\\' :: 'u' :: '0' :: '0' :: a :: b :: cs) = _
    rw [string]
    simp only [hzero, ha, hb, Option.bind_eq_bind, Option.bind_some, hex_sum, Char.ofNat_toNat]
    refine (if_pos c.valid).trans ?_
    cases string cs <;> rfl

theorem string_quote (s cs : List Char) : string (s.flatMap escape ++ '"' :: cs) = some (s, cs) := by
  induction s with
  | nil => rfl
  | cons c s ih => rw [List.flatMap_cons, List.append_assoc, string_escape, ih]; rfl

/-- What may follow a number. -/
def Stops (cs : List Char) : Prop :=
  ∀ c, cs.head? = some c → c.isDigit = false ∧ c ≠ '.' ∧ c ≠ 'e' ∧ c ≠ 'E'

theorem isDigit_toDigits {n : Nat} {c : Char} (h : c ∈ Nat.toDigits 10 n) : c.isDigit = true :=
  Nat.isDigit_of_mem_toDigits (by decide) (by decide) h

theorem head_toDigits {n : Nat} (h : 0 < n) : (Nat.toDigits 10 n).head? ≠ some '0' := by
  induction n using Nat.strong_induction_on with
  | _ n ih =>
    by_cases hn : n < 10
    · rw [Nat.toDigits_of_lt_base hn]
      have hall : ∀ m : Fin 10, 0 < m.1 → [Nat.digitChar m.1].head? ≠ some '0' := by decide
      exact hall ⟨n, hn⟩ h
    · rw [Nat.toDigits_of_base_le (by decide) (by omega), List.head?_append_of_ne_nil _ Nat.toDigits_ne_nil]
      exact ih (n / 10) (by omega) (by omega)

theorem natural_toDigits (n : Nat) {rest : List Char} (h : Stops rest) :
    natural (Nat.toDigits 10 n ++ rest) = some (n, rest) := by
  have hall : ∀ c ∈ Nat.toDigits 10 n, c.isDigit = true := fun c => isDigit_toDigits
  have hrest : rest.takeWhile Char.isDigit = [] ∧ rest.dropWhile Char.isDigit = rest := by
    cases rest with
    | nil => exact ⟨rfl, rfl⟩
    | cons c cs => simp [(h c rfl).1]
  have htake : (Nat.toDigits 10 n ++ rest).takeWhile Char.isDigit = Nat.toDigits 10 n := by
    rw [List.takeWhile_append_of_pos hall, hrest.1, List.append_nil]
  have hdrop : (Nat.toDigits 10 n ++ rest).dropWhile Char.isDigit = rest := by
    rw [List.dropWhile_append_of_pos hall, hrest.2]
  have hlead : ¬ (Nat.toDigits 10 n = [] ∨ ((Nat.toDigits 10 n).head? = some '0' ∧ (Nat.toDigits 10 n).length ≠ 1)) := by
    rintro (hnil | ⟨hzero, hlen⟩)
    · exact Nat.toDigits_ne_nil hnil
    · rcases Nat.eq_zero_or_pos n with rfl | hn
      · exact hlen rfl
      · exact head_toDigits hn hzero
  have hstop : rest.head? ∉ [some '.', some 'e', some 'E'] := by
    intro hm
    simp only [List.mem_cons, List.not_mem_nil, or_false] at hm
    rcases hm with hm | hm | hm
    · exact (h _ hm).2.1 rfl
    · exact (h _ hm).2.2.1 rfl
    · exact (h _ hm).2.2.2 rfl
  simp only [natural, htake, hdrop, if_neg hlead, if_neg hstop, Nat.ofDigitChars_ten_toDigits]

theorem number_toString (n : Int) {rest : List Char} (h : Stops rest) :
    number ((toString n).toList ++ rest) = some (n, rest) := by
  cases n with
  | ofNat n =>
    have htext : (toString (Int.ofNat n)).toList = Nat.toDigits 10 n := Nat.toList_repr
    have hminus : (Nat.toDigits 10 n ++ rest).head? ≠ some '-' := by
      intro hm
      rw [List.head?_append_of_ne_nil _ Nat.toDigits_ne_nil] at hm
      exact absurd (isDigit_toDigits (List.mem_of_mem_head? hm)) (by decide)
    rw [htext, number.eq_def]
    split
    · rename_i heq
      rw [heq] at hminus
      exact absurd rfl hminus
    · rw [natural_toDigits n h]
      rfl
  | negSucc n =>
    have htext : (toString (Int.negSucc n)).toList = '-' :: Nat.toDigits 10 (n + 1) := by
      show ("-" ++ Nat.repr (n + 1)).toList = _
      rw [String.toList_append, Nat.toList_repr]
      rfl
    rw [htext, List.cons_append, number, natural_toDigits (n + 1) h]
    rfl

mutual

/-- The fuel that a value needs. -/
def cost : Json → Nat
  | null | bool _ | int _ | str _ => 1
  | arr items => costItems items + 1
  | obj members => costMembers members + 1

def costItems : List Json → Nat
  | [] => 0
  | j :: js => max (cost j) (costItems js) + 1

def costMembers : List (String × Json) → Nat
  | [] => 0
  | (_, j) :: ms => max (cost j) (costMembers ms) + 1

end

theorem value_newline (depth fuel n : Nat) (cs : List Char) :
    value depth fuel (newline n ++ cs) = value depth fuel cs := by
  cases fuel with
  | zero => rfl
  | succ fuel => rw [value, value, skip_newline]

theorem stops_newline (n : Nat) (cs : List Char) : Stops (newline n ++ cs) := by
  intro c hc
  cases hc
  decide

theorem stops_comma (cs : List Char) : Stops (',' :: cs) := by
  intro c hc
  cases hc
  decide

theorem toString_cons (n : Int) : ∃ c cs, (toString n).toList = c :: cs ∧ (c.isDigit = true ∨ c = '-') := by
  cases n with
  | ofNat n =>
    obtain ⟨c, cs, hcs⟩ := List.exists_cons_of_ne_nil (Nat.toDigits_ne_nil (b := 10) (n := n))
    refine ⟨c, cs, Nat.toList_repr.trans hcs, .inl (isDigit_toDigits (n := n) ?_)⟩
    rw [hcs]
    exact List.mem_cons_self
  | negSucc n => exact ⟨'-', (Nat.repr (n + 1)).toList, String.toList_append, .inr rfl⟩

/-- A number starts like no other value, and not with white space. -/
theorem numeral_start {c : Char} (hc : c.isDigit = true ∨ c = '-') :
    isSpace c = false ∧ ∀ d ∈ ['n', 't', 'f', '"', '[', ']', '\x7b'], c ≠ d := by
  rcases hc with hc | rfl
  · have hne : ∀ {d : Char}, d.isDigit = false → c ≠ d := fun hd he => by rw [he, hd] at hc; cases hc
    refine ⟨?_, fun d hd => hne ?_⟩
    · simp only [isSpace, Bool.or_eq_false_iff, beq_eq_false_iff_ne]
      exact ⟨⟨⟨hne (by decide), hne (by decide)⟩, hne (by decide)⟩, hne (by decide)⟩
    · simp only [List.mem_cons, List.not_mem_nil, or_false] at hd
      rcases hd with rfl | rfl | rfl | rfl | rfl | rfl | rfl <;> decide
  · exact ⟨by decide, by simp⟩

theorem value_int (depth fuel : Nat) (n : Int) {rest : List Char} (h : Stops rest) :
    value depth (fuel + 1) ((toString n).toList ++ rest) = some (int n, rest) := by
  obtain ⟨c, cs, hcs, hc⟩ := toString_cons n
  obtain ⟨hspace, hne⟩ := numeral_start hc
  have hnumber := number_toString n h
  rw [hcs, List.cons_append] at hnumber ⊢
  rw [value, skip_cons hspace]
  split
  case h_7 => rw [hnumber]; rfl
  all_goals
    rename_i heq
    exact absurd (List.cons.inj heq).1 (hne _ (by decide))

theorem items_newline (depth fuel n : Nat) (cs : List Char) :
    items depth fuel (newline n ++ cs) = items depth fuel cs := by
  cases fuel with
  | zero => rfl
  | succ fuel => rw [items, items, value_newline]

theorem members_newline (depth fuel n : Nat) (cs : List Char) :
    members depth fuel (newline n ++ cs) = members depth fuel cs := by
  cases fuel with
  | zero => rfl
  | succ fuel => rw [members, members, skip_newline]

theorem pretty_cons (indent : Nat) (j : Json) :
    ∃ c cs, pretty indent j = c :: cs ∧ isSpace c = false ∧ c ≠ ']' := by
  cases j with
  | null => exact ⟨'n', _, rfl, by decide, by decide⟩
  | bool b => cases b <;> exact ⟨_, _, rfl, by decide, by decide⟩
  | int n =>
    obtain ⟨c, cs, hcs, hc⟩ := toString_cons n
    obtain ⟨hspace, hne⟩ := numeral_start hc
    exact ⟨c, cs, by rw [pretty, hcs], hspace, hne _ (by decide)⟩
  | str s => exact ⟨'"', _, rfl, by decide, by decide⟩
  | arr js => cases js <;> exact ⟨'[', _, by rw [pretty], by decide, by decide⟩
  | obj ms =>
    cases ms with
    | nil => exact ⟨'\x7b', _, by rw [pretty], by decide, by decide⟩
    | cons m ms => exact ⟨'\x7b', _, by rw [pretty], by decide, by decide⟩

theorem skip_pretty (indent : Nat) (j : Json) (cs : List Char) :
    skip (pretty indent j ++ cs) = pretty indent j ++ cs := by
  obtain ⟨c, ds, hds, hspace, -⟩ := pretty_cons indent j
  rw [hds, List.cons_append, skip_cons hspace]

theorem value_quote {depth fuel : Nat} (s : String) (rest : List Char) :
    value depth (fuel + 1) (quote s ++ rest) = some (str s, rest) := by
  have htext : quote s ++ rest = '"' :: (s.toList.flatMap escape ++ '"' :: rest) := by simp [quote]
  rw [htext, value, skip_cons (by decide)]
  simp only [string_quote, Option.map_some, String.ofList_toList]

theorem value_arr {depth fuel n : Nat} {j : Json} {js : List Json} {cs rest : List Char}
    (h : items depth fuel (pretty n j ++ cs) = some (j :: js, rest)) :
    value (depth + 1) (fuel + 1) ('[' :: (newline n ++ (pretty n j ++ cs))) = some (arr (j :: js), rest) := by
  obtain ⟨c, ds, hds, hspace, hclose⟩ := pretty_cons n j
  rw [value, skip_cons (by decide)]
  simp only [skip_newline, skip_pretty]
  split
  · contradiction
  · rename_i heq
    rw [hds, List.cons_append] at heq
    exact absurd (List.cons.inj heq).1 hclose
  · rename_i hdepth _
    cases hdepth
    rw [h]
    rfl

theorem value_obj {depth fuel n : Nat} {k : String} {j : Json} {ms : List (String × Json)} {cs rest : List Char}
    (h : members depth fuel (quote k ++ cs) = some ((k, j) :: ms, rest)) :
    value (depth + 1) (fuel + 1) ('\x7b' :: (newline n ++ (quote k ++ cs))) = some (obj ((k, j) :: ms), rest) := by
  have hskip : skip (quote k ++ cs) = quote k ++ cs := skip_cons (by decide) _
  rw [value, skip_cons (by decide)]
  simp only [skip_newline, hskip]
  split
  · contradiction
  · rename_i heq
    exact absurd (List.cons.inj heq).1 (by decide)
  · rename_i hdepth _
    cases hdepth
    rw [h]
    rfl

theorem members_quote {depth fuel : Nat} (k : String) (cs : List Char) :
    members depth (fuel + 1) (quote k ++ (':' :: ' ' :: cs)) = (value depth fuel cs).bind fun p =>
      match skip p.2 with
      | '\x7d' :: cs => some ([(k, p.1)], cs)
      | ',' :: cs => (members depth fuel cs).map fun q => ((k, p.1) :: q.1, q.2)
      | _ => none := by
  have htext : quote k ++ (':' :: ' ' :: cs) = '"' :: (k.toList.flatMap escape ++ '"' :: (':' :: ' ' :: cs)) := by
    simp [quote]
  have hspace : value depth fuel (' ' :: cs) = value depth fuel cs := by
    cases fuel with
    | zero => rfl
    | succ fuel => rw [value, value]; rfl
  rw [htext, members, skip_cons (by decide)]
  simp only [string_quote, Option.bind_some, skip_cons (by decide : isSpace ':' = false), hspace, String.ofList_toList]

/-! With so much fuel, what is printed is read: values, items of an array, members of an object. -/

def ReadsValues (fuel : Nat) : Prop := ∀ (j : Json) (depth indent : Nat) (rest : List Char), j.depth ≤ depth →
  j.cost ≤ fuel → Stops rest → value depth fuel (pretty indent j ++ rest) = some (j, rest)

def ReadsItems (fuel : Nat) : Prop := ∀ (j : Json) (js : List Json) (depth indent indent' : Nat) (rest : List Char),
  depthItems (j :: js) ≤ depth → costItems (j :: js) ≤ fuel →
  items depth fuel (pretty indent j ++ (prettyItems indent js ++ (newline indent' ++ ']' :: rest))) = some (j :: js, rest)

def ReadsMembers (fuel : Nat) : Prop :=
  ∀ (k : String) (j : Json) (ms : List (String × Json)) (depth indent indent' : Nat) (rest : List Char),
  depthMembers ((k, j) :: ms) ≤ depth → costMembers ((k, j) :: ms) ≤ fuel →
  members depth fuel (quote k ++ (':' :: ' ' :: (pretty indent j ++ (prettyMembers indent ms ++
    (newline indent' ++ '\x7d' :: rest))))) = some ((k, j) :: ms, rest)

theorem ReadsValues.succ {fuel : Nat} (hitems : ReadsItems fuel) (hmembers : ReadsMembers fuel) :
    ReadsValues (fuel + 1) := by
  intro j depth indent rest hd hf hstops
  cases j with
  | null => rfl
  | bool b => cases b <;> rfl
  | int n => exact value_int depth fuel n hstops
  | str s => exact value_quote s rest
  | arr js =>
    cases depth with
    | zero => simp [Json.depth] at hd
    | succ depth =>
      cases js with
      | nil => rfl
      | cons j js =>
        rw [Json.depth, Nat.add_le_add_iff_right] at hd
        rw [cost, Nat.add_le_add_iff_right] at hf
        have h := value_arr (hitems j js depth (indent + 1) indent rest hd hf)
        simpa only [pretty, List.cons_append, List.append_assoc, List.nil_append] using h
  | obj ms =>
    cases depth with
    | zero => simp [Json.depth] at hd
    | succ depth =>
      cases ms with
      | nil => rfl
      | cons m ms =>
        rw [Json.depth, Nat.add_le_add_iff_right] at hd
        rw [cost, Nat.add_le_add_iff_right] at hf
        have h := value_obj (n := indent + 1) (hmembers m.1 m.2 ms depth (indent + 1) indent rest hd hf)
        simpa only [pretty, List.cons_append, List.append_assoc, List.nil_append] using h

theorem ReadsItems.succ {fuel : Nat} (hvalues : ReadsValues fuel) (hitems : ReadsItems fuel) :
    ReadsItems (fuel + 1) := by
  intro j js depth indent indent' rest hd hf
  rw [depthItems] at hd
  rw [costItems] at hf
  rw [items]
  cases js with
  | nil =>
    rw [prettyItems, List.nil_append, hvalues j depth indent _ (by omega) (by omega) (stops_newline _ _)]
    simp only [Option.bind_some, skip_newline, skip_cons (by decide : isSpace ']' = false)]
  | cons j' js =>
    rw [prettyItems, List.cons_append, hvalues j depth indent _ (by omega) (by omega) (stops_comma _)]
    have h := hitems j' js depth indent indent' rest (by omega) (by omega)
    simp only [Option.bind_some, skip_cons (by decide : isSpace ',' = false), List.append_assoc, items_newline, h,
      Option.map_some]

theorem ReadsMembers.succ {fuel : Nat} (hvalues : ReadsValues fuel) (hmembers : ReadsMembers fuel) :
    ReadsMembers (fuel + 1) := by
  intro k j ms depth indent indent' rest hd hf
  rw [depthMembers] at hd
  rw [costMembers] at hf
  rw [members_quote]
  cases ms with
  | nil =>
    rw [prettyMembers, List.nil_append, hvalues j depth indent _ (by omega) (by omega) (stops_newline _ _)]
    simp only [Option.bind_some, skip_newline, skip_cons (by decide : isSpace '\x7d' = false)]
  | cons m ms =>
    obtain ⟨k', j'⟩ := m
    rw [prettyMembers, List.cons_append, hvalues j depth indent _ (by omega) (by omega) (stops_comma _)]
    have h := hmembers k' j' ms depth indent indent' rest (by omega) (by omega)
    simp only [Option.bind_some, skip_cons (by decide : isSpace ',' = false), List.append_assoc, List.cons_append,
      List.nil_append, members_newline, h, Option.map_some]

theorem reads (fuel : Nat) : ReadsValues fuel ∧ ReadsItems fuel ∧ ReadsMembers fuel := by
  induction fuel with
  | zero =>
    refine ⟨fun j _ _ _ _ hf _ => ?_, fun j js _ _ _ _ _ hf => ?_, fun k j ms _ _ _ _ _ hf => ?_⟩
    · cases j <;> simp [cost] at hf
    · simp [costItems] at hf
    · simp [costMembers] at hf
  | succ fuel ih =>
    obtain ⟨hvalues, hitems, hmembers⟩ := ih
    exact ⟨.succ hitems hmembers, .succ hvalues hitems, .succ hvalues hmembers⟩

mutual

theorem cost_le : (j : Json) → ∀ indent, j.cost ≤ (pretty indent j).length
  | null, _ => by simp [cost, pretty]
  | bool b, _ => by cases b <;> simp [cost, pretty]
  | int n, _ => by
    obtain ⟨c, cs, hcs, -⟩ := toString_cons n
    rw [cost, pretty, hcs]
    exact Nat.succ_le_succ (Nat.zero_le _)
  | str s, _ => by simp [cost, pretty, quote]
  | arr [], _ => by simp [cost, costItems, pretty]
  | arr (j :: js), indent => by
    have hj := cost_le j (indent + 1)
    have hjs := costItems_le js (indent + 1)
    simp only [cost, costItems, pretty, List.length_cons, List.length_append, newline]
    omega
  | obj [], _ => by simp [cost, costMembers, pretty]
  | obj ((k, j) :: ms), indent => by
    have hj := cost_le j (indent + 1)
    have hms := costMembers_le ms (indent + 1)
    simp only [cost, costMembers, pretty, List.length_cons, List.length_append, newline]
    omega

theorem costItems_le : (js : List Json) → ∀ indent, costItems js ≤ (prettyItems indent js).length
  | [], _ => by simp [costItems]
  | j :: js, indent => by
    have hj := cost_le j indent
    have hjs := costItems_le js indent
    simp only [costItems, prettyItems, List.length_cons, List.length_append]
    omega

theorem costMembers_le : (ms : List (String × Json)) → ∀ indent, costMembers ms ≤ (prettyMembers indent ms).length
  | [], _ => by simp [costMembers]
  | (k, j) :: ms, indent => by
    have hj := cost_le j indent
    have hms := costMembers_le ms indent
    simp only [costMembers, prettyMembers, List.length_cons, List.length_append]
    omega

end

/-- What is printed can be read back. -/
theorem parse_print {limit : Nat} {j : Json} (h : j.depth ≤ limit) : parse limit (print j) = some j := by
  have hfuel : j.cost ≤ (pretty 0 j).length + 1 := Nat.le_succ_of_le (cost_le j 0)
  have hvalue := (reads _).1 j limit 0 [] h hfuel fun c hc => by cases hc
  rw [List.append_nil] at hvalue
  simp only [parse, print, String.toList_ofList, hvalue]
  rfl

/-! ### Reading the values of a document -/

/-- The member of an object that has at most one of the name. -/
def member (ms : List (String × Json)) (name : String) : Option (Option Json) :=
  match ms.filter (·.1 == name) with
  | [] => some none
  | [(_, j)] => some (some j)
  | _ => none

/-- The fields of a struct: by their names from an object, which may have others but none of these twice, or by
their places from an array. -/
def fields (names : List String) : Json → Option (List (Option Json))
  | obj ms => names.mapM (member ms)
  | arr items => if items.length = names.length then some (items.map some) else none
  | _ => none

/-- A field that has to be there. -/
def required {α : Type} (read : Json → Option α) (field : Option Json) : Option α := field.bind read

/-- A field of an `Option` type: it may be missing or `null`. -/
def optional {α : Type} (read : Json → Option α) : Option Json → Option (Option α)
  | none | some null => some none
  | some j => (read j).map some

def asString : Json → Option String
  | str s => some s
  | _ => none

def asBool : Json → Option Bool
  | bool b => some b
  | _ => none

/-- A natural number below `size`. -/
def asUnsigned (size : Nat) : Json → Option Nat
  | int n => if 0 ≤ n ∧ n.toNat < size then some n.toNat else none
  | _ => none

def asVec {α : Type} (read : Json → Option α) : Json → Option (List α)
  | arr items => items.mapM read
  | _ => none

def ofOption {α : Type} (write : α → Json) : Option α → Json
  | none => null
  | some a => write a

section RoundTrip

variable {α : Type} {read : Json → Option α} {write : α → Json}

theorem mapM_map (h : ∀ a, read (write a) = some a) (as : List α) : (as.map write).mapM read = some as := by
  induction as with
  | nil => rfl
  | cons a as ih => rw [List.map_cons, List.mapM_cons, h, ih]; rfl

theorem asVec_map (h : ∀ a, read (write a) = some a) (as : List α) : asVec read (arr (as.map write)) = some as :=
  mapM_map h as

theorem asUnsigned_int {size n : Nat} (h : n < size) : asUnsigned size (int n) = some n := by
  simp [asUnsigned, h]

/-- An absent value is told apart from a value, which is not `null`. -/
theorem optional_ofOption (h : ∀ a, read (write a) = some a) (hnull : ∀ a, write a ≠ null) (o : Option α) :
    optional read (some (ofOption write o)) = some o := by
  cases o with
  | none => rfl
  | some a =>
    have hread : optional read (some (write a)) = (read (write a)).map some := by
      cases hw : write a with
      | null => exact absurd hw (hnull a)
      | _ => rfl
    rw [ofOption, hread, h]
    rfl

/-- The fields of an object that has exactly these. -/
theorem fields_obj {names : List String} {ms : List (String × Json)} (hn : names.Nodup) (h : ms.map Prod.fst = names) :
    fields names (obj ms) = some (ms.map fun m => some m.2) := by
  -- `before` are the members already read, none of which has a name that is still to come
  have hfields : ∀ (before ms : List (String × Json)), (ms.map Prod.fst).Nodup →
      (∀ m ∈ ms, before.filter (·.1 == m.1) = []) →
      (ms.map Prod.fst).mapM (member (before ++ ms)) = some (ms.map fun m => some m.2) := by
    intro before ms
    induction ms generalizing before with
    | nil => exact fun _ _ => rfl
    | cons m ms ih =>
      intro hn hbefore
      rw [List.map_cons, List.nodup_cons] at hn
      have hlater : ms.filter (·.1 == m.1) = [] := by
        rw [List.filter_eq_nil_iff]
        intro m' hm' he
        exact hn.1 (List.mem_map.2 ⟨m', hm', by simpa using he⟩)
      have hfirst : member (before ++ m :: ms) m.1 = some (some m.2) := by
        rw [member, List.filter_append, hbefore m List.mem_cons_self, List.filter_cons, hlater]
        simp
      have hrest := ih (before ++ [m]) hn.2 fun m' hm' => by
        have hne : m.1 ≠ m'.1 := fun he => hn.1 (List.mem_map.2 ⟨m', hm', he.symm⟩)
        rw [List.filter_append, hbefore m' (List.mem_cons_of_mem _ hm')]
        simp [hne]
      rw [List.append_assoc, List.singleton_append] at hrest
      rw [List.map_cons, List.mapM_cons, hfirst, hrest]
      rfl
  subst h
  exact hfields [] ms hn fun _ _ => rfl

end RoundTrip

mutual

/-- Every number of the document satisfies `P`. -/
def Numbers (P : Int → Prop) : Json → Prop
  | int n => P n
  | arr items => NumbersItems P items
  | obj ms => NumbersMembers P ms
  | null | bool _ | str _ => True

def NumbersItems (P : Int → Prop) : List Json → Prop
  | [] => True
  | j :: js => Numbers P j ∧ NumbersItems P js

def NumbersMembers (P : Int → Prop) : List (String × Json) → Prop
  | [] => True
  | (_, j) :: ms => Numbers P j ∧ NumbersMembers P ms

end

/-- At most `n` containers inside each other, and the numbers are naturals below `size`. -/
structure Within (size n : Nat) (j : Json) : Prop where
  depth : j.depth ≤ n
  numbers : j.Numbers fun k => 0 ≤ k ∧ k < size

section Size

variable {α : Type} {write : α → Json} {size n : Nat}

theorem Within.mono {m : Nat} {j : Json} (h : Within size n j) (hm : n ≤ m) : Within size m j :=
  ⟨h.depth.trans hm, h.numbers⟩

theorem within_null : Within size n null := ⟨by simp [depth], by simp [Numbers]⟩

theorem within_bool (b : Bool) : Within size n (bool b) := ⟨by simp [depth], by simp [Numbers]⟩

theorem within_str (s : String) : Within size n (str s) := ⟨by simp [depth], by simp [Numbers]⟩

theorem within_int {k : Nat} (h : k < size) : Within size n (int k) := by
  refine ⟨by simp [depth], ?_⟩
  simp only [Numbers]
  omega

theorem within_arr {js : List Json} (h : ∀ j ∈ js, Within size n j) : Within size (n + 1) (arr js) := by
  suffices hjs : depthItems js ≤ n ∧ NumbersItems (fun k => 0 ≤ k ∧ k < size) js by
    exact ⟨by rw [depth]; exact Nat.succ_le_succ hjs.1, by rw [Numbers]; exact hjs.2⟩
  induction js with
  | nil => exact ⟨Nat.zero_le n, trivial⟩
  | cons j js ih =>
    obtain ⟨hdepth, hnumbers⟩ := ih fun j hj => h j (List.mem_cons_of_mem _ hj)
    have hj := h j List.mem_cons_self
    exact ⟨max_le hj.depth hdepth, hj.numbers, hnumbers⟩

theorem within_map (h : ∀ a, Within size n (write a)) (as : List α) : Within size (n + 1) (arr (as.map write)) := by
  refine within_arr fun j hj => ?_
  obtain ⟨a, -, rfl⟩ := List.mem_map.1 hj
  exact h a

theorem within_ofOption (h : ∀ a, Within size n (write a)) (o : Option α) : Within size n (ofOption write o) := by
  cases o with
  | none => exact within_null
  | some a => exact h a

theorem within_obj {ms : List (String × Json)} (h : ∀ m ∈ ms, Within size n m.2) : Within size (n + 1) (obj ms) := by
  suffices hms : depthMembers ms ≤ n ∧ NumbersMembers (fun k => 0 ≤ k ∧ k < size) ms by
    exact ⟨by rw [depth]; exact Nat.succ_le_succ hms.1, by rw [Numbers]; exact hms.2⟩
  induction ms with
  | nil => exact ⟨Nat.zero_le n, trivial⟩
  | cons m ms ih =>
    obtain ⟨k, j⟩ := m
    obtain ⟨hdepth, hnumbers⟩ := ih fun m hm => h m (List.mem_cons_of_mem _ hm)
    have hj := h (k, j) List.mem_cons_self
    exact ⟨max_le hj.depth hdepth, hj.numbers, hnumbers⟩

end Size

end Json

end NginxAdmin
