import NginxAdmin.Lib.JsonText

/-!
# `JSON.stringify` of an object of strings

`stringify` writes the members in their order. `parse_stringify`: of different names, `JSON.parse` reads the same members.
-/

namespace NginxAdmin.JsonText

open Json (quote escape skip)

/-- The members after the first one. -/
def writeMembers : List (String × String) → List Char
  | [] => []
  | (k, v) :: ms => ',' :: (quote k ++ ':' :: (quote v ++ writeMembers ms))

def stringify : List (String × String) → String
  | [] => String.ofList ['\x7b', '\x7d']
  | (k, v) :: ms => String.ofList ('\x7b' :: (quote k ++ ':' :: (quote v ++ (writeMembers ms ++ ['\x7d']))))

theorem units_plain {c : Char} (hq : c ≠ '"') (hb : c ≠ '\\') (hc : ¬ c.toNat < 32) (cs : List Char) :
    units (c :: cs) = (units cs).map fun p => (c.toNat :: p.1, p.2) := by
  rw [units.eq_def]
  split
  · contradiction
  · simp_all
  · simp_all
  · simp_all
  · rename_i heq
    obtain ⟨rfl, rfl⟩ := List.cons.inj heq
    rw [if_neg hc]
    cases units cs with
    | none => rfl
    | some p => rfl

theorem units_short {e ch : Char} (he : e ≠ 'u') (h : Json.unescape e = some ch) (cs : List Char) :
    units ('\\' :: e :: cs) = (units cs).map fun p => (ch.toNat :: p.1, p.2) := by
  have hback : units ('\\' :: e :: cs) =
      (Json.unescape e).bind fun ch => (units cs).bind fun p => some (ch.toNat :: p.1, p.2) := by
    rw [units.eq_def]
    split
    · contradiction
    · simp_all
    · simp_all
    · rename_i heq
      obtain ⟨rfl, rfl⟩ := List.cons.inj (List.cons.inj heq).2
      rfl
    · rename_i hother heq
      obtain ⟨rfl, rfl⟩ := List.cons.inj heq
      exact (hother e cs rfl rfl).elim
  rw [hback, h, Option.bind_some]
  cases units cs <;> rfl

theorem units_escape (c : Char) (cs : List Char) :
    units (escape c ++ cs) = (units cs).map fun p => (c.toNat :: p.1, p.2) := by
  have hc := Json.escaped_escape c
  generalize escape c = w at hc ⊢
  cases hc with
  | plain hq hb hc => exact units_plain hq hb hc cs
  | short e he h => exact units_short he h cs
  | hex a b ha hb =>
    have hzero : Json.hexValue '0' = some 0 := by decide
    show units ('\\' :: 'u' :: '0' :: '0' :: a :: b :: cs) = _
    rw [units]
    simp only [hzero, ha, hb, Option.bind_eq_bind, Option.bind_some, Json.hex_sum]
    cases units cs <;> rfl

theorem units_flatMap (s cs : List Char) : units (s.flatMap escape ++ '"' :: cs) = some (s.map Char.toNat, cs) := by
  induction s with
  | nil => rfl
  | cons c s ih =>
    rw [List.flatMap_cons, List.append_assoc, units_escape, ih]
    rfl

/-- Characters are no halves of pairs. -/
theorem characters_toNat (s : List Char) : characters (s.map Char.toNat) = s := by
  have hvalid : ∀ c : Char, (if c.toNat.isValidChar then Char.ofNat c.toNat else '\ufffd') = c := by
    intro c
    have hc : c.toNat.isValidChar := c.valid
    rw [if_pos hc, Char.ofNat_toNat]
  induction s with
  | nil => rfl
  | cons c s ih =>
    cases s with
    | nil => rw [List.map_cons, List.map_nil, characters, hvalid]
    | cons d s =>
      have hpair : ¬ (55296 ≤ c.toNat ∧ c.toNat < 56320 ∧ 56320 ≤ d.toNat ∧ d.toNat < 57344) := by
        have hc : c.toNat < 0xd800 ∨ (0xdfff < c.toNat ∧ c.toNat < 0x110000) := c.valid
        omega
      rw [List.map_cons, List.map_cons] at *
      rw [characters, if_neg hpair, hvalid, ih]

theorem string_quote (s : String) (cs : List Char) : string (s.toList.flatMap escape ++ '"' :: cs) = some (s, cs) := by
  rw [string, units_flatMap, Option.map_some, characters_toNat, String.ofList_toList]

theorem quote_append (s : String) (cs : List Char) : quote s ++ cs = '"' :: (s.toList.flatMap escape ++ '"' :: cs) := by
  simp [quote]

theorem value_quote (fuel : Nat) (s : String) (cs : List Char) : value (fuel + 1) (quote s ++ cs) = some (.str s, cs) := by
  rw [quote_append, value, Json.skip_cons (by decide)]
  simp only [string_quote, Option.map_some]

theorem members_last (fuel : Nat) (k v : String) {cs rest : List Char} (h : skip cs = '\x7d' :: rest) :
    members (fuel + 2) (quote k ++ ':' :: (quote v ++ cs)) = some ([(k, .str v)], rest) := by
  rw [quote_append, members, Json.skip_cons (by decide)]
  simp only [string_quote, Option.bind_some, Json.skip_cons (by decide : Json.isSpace ':' = false), value_quote, h]

theorem members_next (fuel : Nat) (k v : String) {cs rest : List Char} (h : skip cs = ',' :: rest) :
    members (fuel + 2) (quote k ++ ':' :: (quote v ++ cs)) =
      (members (fuel + 1) rest).map fun q => ((k, .str v) :: q.1, q.2) := by
  rw [quote_append, members, Json.skip_cons (by decide)]
  simp only [string_quote, Option.bind_some, Json.skip_cons (by decide : Json.isSpace ':' = false), value_quote, h]

theorem members_writeMembers {fuel : Nat} (k v : String) (ms : List (String × String)) (rest : List Char)
    (hfuel : ms.length + 2 ≤ fuel) : members fuel (quote k ++ ':' :: (quote v ++ (writeMembers ms ++ '\x7d' :: rest))) =
      some ((k, .str v) :: ms.map fun m => (m.1, .str m.2), rest) := by
  induction ms generalizing fuel k v with
  | nil =>
    obtain ⟨fuel, rfl⟩ := Nat.exists_eq_add_of_le' hfuel
    exact members_last fuel k v (Json.skip_cons (by decide) rest)
  | cons m ms ih =>
    obtain ⟨k', v'⟩ := m
    rw [List.length_cons] at hfuel
    obtain ⟨fuel, rfl⟩ := Nat.exists_eq_add_of_le' (show 2 ≤ fuel by omega)
    have hrest := ih k' v' (show ms.length + 2 ≤ fuel + 1 by omega)
    have hcomma : writeMembers ((k', v') :: ms) ++ '\x7d' :: rest =
        ',' :: (quote k' ++ ':' :: (quote v' ++ (writeMembers ms ++ '\x7d' :: rest))) := by simp [writeMembers]
    rw [hcomma, members_next fuel k v (Json.skip_cons (by decide) _), hrest]
    rfl

/-- Members with names of their own stay as they are. -/
theorem foldl_setMember {ms ns : List (String × Js)} (h : (ns ++ ms).Pairwise fun m m' => m.1 ≠ m'.1) :
    ms.foldl (fun ns m => Js.setMember m.1 m.2 ns) ns = ns ++ ms := by
  have hnew : ∀ {m : String × Js} {ns : List (String × Js)}, (∀ n ∈ ns, n.1 ≠ m.1) → Js.setMember m.1 m.2 ns = ns ++ [m] := by
    intro m ns hns
    induction ns with
    | nil => rfl
    | cons n ns ih =>
      rw [List.forall_mem_cons] at hns
      rw [Js.setMember, if_neg hns.1, ih hns.2, List.cons_append]
  induction ms generalizing ns with
  | nil => exact (List.append_nil ns).symm
  | cons m ms ih =>
    have hm : ∀ n ∈ ns, n.1 ≠ m.1 := fun n hn => (List.pairwise_append.1 h).2.2 n hn m List.mem_cons_self
    rw [List.foldl_cons, hnew hm, ih (by simpa using h), List.append_assoc]
    rfl

theorem length_writeMembers_le (ms : List (String × String)) : ms.length ≤ (writeMembers ms).length := by
  induction ms with
  | nil => exact Nat.le_refl 0
  | cons m ms ih =>
    simp [writeMembers]
    omega

/-- What is written is read. -/
theorem parse_stringify {ms : List (String × String)} (h : ms.Pairwise fun m m' => m.1 ≠ m'.1) :
    parse (stringify ms) = some (.obj (ms.map fun m => (m.1, .str m.2))) := by
  cases ms with
  | nil => decide
  | cons m ms =>
    obtain ⟨k, v⟩ := m
    have hlength := length_writeMembers_le ms
    have hmembers := @members_writeMembers (stringify ((k, v) :: ms)).toList.length k v ms [] (by
      simp [stringify, quote]
      omega)
    have hskip : ∀ cs, skip (quote k ++ cs) = quote k ++ cs := fun cs => Json.skip_cons (by decide) _
    have hfold := @foldl_setMember (((k, v) :: ms).map fun m => (m.1, .str m.2)) [] (List.pairwise_map.2 h)
    have hvalue : value ((stringify ((k, v) :: ms)).toList.length + 1) (stringify ((k, v) :: ms)).toList =
        some (.obj (((k, v) :: ms).map fun m => (m.1, .str m.2)), []) := by
      have htext : (stringify ((k, v) :: ms)).toList =
          '\x7b' :: (quote k ++ ':' :: (quote v ++ (writeMembers ms ++ ['\x7d']))) := by rw [stringify, String.toList_ofList]
      generalize (stringify ((k, v) :: ms)).toList.length = fuel at hmembers
      rw [htext, value, Json.skip_cons (by decide)]
      simp only [hskip]
      split
      · rename_i heq
        rw [quote_append] at heq
        exact absurd (List.cons.inj heq).1 (by decide)
      · rw [hmembers]
        exact congrArg (fun ms => some (Js.obj ms, [])) hfold
    rw [parse, hvalue]
    rfl

end NginxAdmin.JsonText
