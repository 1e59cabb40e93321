import NginxAdmin.Lib.Js
import NginxAdmin.Lib.Json

/-!
# `JSON.parse`

The grammar of JSON texts, with the values of `Js`: of members with one name the last one counts, and half of a surrogate
pair, which is no character, is read as U+FFFD.
-/

namespace NginxAdmin.JsonText

open Json (hexValue unescape skip)

/-- The code units of a string after its opening quote, and the text after its closing quote. -/
def units : List Char → Option (List Nat × List Char)
  | [] => none
  | '"' :: cs => some ([], cs)
  | '\\' :: 'u' :: a :: b :: c :: d :: cs => do
    let n := 4096 * (← hexValue a) + 256 * (← hexValue b) + 16 * (← hexValue c) + (← hexValue d)
    let (s, rest) ← units cs
    pure (n :: s, rest)
  | '\\' :: c :: cs => do
    let ch ← unescape c
    let (s, rest) ← units cs
    pure (ch.toNat :: s, rest)
  | c :: cs =>
    if c.toNat < 32 then none
    else do
      let (s, rest) ← units cs
      pure (c.toNat :: s, rest)

/-- Two halves of a pair are one character. -/
def characters : List Nat → List Char
  | [] => []
  | [n] => [if n.isValidChar then Char.ofNat n else '\ufffd']
  | hi :: lo :: ns =>
    if 55296 ≤ hi ∧ hi < 56320 ∧ 56320 ≤ lo ∧ lo < 57344 then
      Char.ofNat (65536 + (hi - 55296) * 1024 + (lo - 56320)) :: characters ns
    else (if hi.isValidChar then Char.ofNat hi else '\ufffd') :: characters (lo :: ns)

def string (cs : List Char) : Option (String × List Char) :=
  (units cs).map fun p => (String.ofList (characters p.1), p.2)

/-- Digits, at least one. -/
def digits (cs : List Char) : Option (List Char × List Char) :=
  let ds := cs.takeWhile Char.isDigit
  if ds = [] then none else some (ds, cs.dropWhile Char.isDigit)

def fraction : List Char → Option (List Char × List Char)
  | '.' :: cs => digits cs
  | cs => some ([], cs)

def exponent (cs : List Char) : Option (Int × List Char) :=
  if cs.head? = some 'e' ∨ cs.head? = some 'E' then
    match cs.tail with
    | '-' :: cs => (digits cs).map fun p => (-(Js.digits 10 p.1 : Int), p.2)
    | '+' :: cs => (digits cs).map fun p => ((Js.digits 10 p.1 : Int), p.2)
    | cs => (digits cs).map fun p => ((Js.digits 10 p.1 : Int), p.2)
  else some (0, cs)

def unsigned (cs : List Char) : Option (Rat × List Char) := do
  let (int, cs) ← digits cs
  if int.head? = some '0' ∧ int.length ≠ 1 then none
  else
    let (frac, cs) ← fraction cs
    let (exp, cs) ← exponent cs
    let e : Int := exp - frac.length
    let n : Rat := Js.digits 10 (int ++ frac)
    pure (Js.roundDouble (if 0 ≤ e then n * (10 ^ e.toNat : Nat) else n / (10 ^ (-e).toNat : Nat)), cs)

def number : List Char → Option (Rat × List Char)
  | '-' :: cs => (unsigned cs).map fun p => (-p.1, p.2)
  | cs => unsigned cs

mutual

/-- A value; `fuel` bounds the number of values. -/
def value : Nat → List Char → Option (Js × List Char)
  | 0, _ => none
  | fuel + 1, cs =>
    match skip cs with
    | 'n' :: 'u' :: 'l' :: 'l' :: cs => some (.null, cs)
    | 't' :: 'r' :: 'u' :: 'e' :: cs => some (.bool true, cs)
    | 'f' :: 'a' :: 'l' :: 's' :: 'e' :: cs => some (.bool false, cs)
    | '"' :: cs => (string cs).map fun p => (.str p.1, p.2)
    | '[' :: cs =>
      match skip cs with
      | ']' :: cs => some (.arr [], cs)
      | cs => (items fuel cs).map fun p => (.arr p.1, p.2)
    | '\x7b' :: cs =>
      match skip cs with
      | '\x7d' :: cs => some (.obj [], cs)
      | cs => (members fuel cs).map fun p => (.obj (p.1.foldl (fun ms m => Js.setMember m.1 m.2 ms) []), p.2)
    | cs => (number cs).map fun p => (.num p.1, p.2)

def items : Nat → List Char → Option (List Js × List Char)
  | 0, _ => none
  | fuel + 1, cs =>
    (value fuel cs).bind fun p =>
      match skip p.2 with
      | ']' :: cs => some ([p.1], cs)
      | ',' :: cs => (items fuel cs).map fun q => (p.1 :: q.1, q.2)
      | _ => none

def members : Nat → List Char → Option (List (String × Js) × List Char)
  | 0, _ => none
  | fuel + 1, cs =>
    match skip cs with
    | '"' :: cs =>
      (string cs).bind fun k =>
        match skip k.2 with
        | ':' :: cs =>
          (value fuel cs).bind fun p =>
            match skip p.2 with
            | '\x7d' :: cs => some ([(k.1, p.1)], cs)
            | ',' :: cs => (members fuel cs).map fun q => ((k.1, p.1) :: q.1, q.2)
            | _ => none
        | _ => none
    | _ => none

end

/-- `JSON.parse(text)`; `none` when it throws. -/
def parse (text : String) : Option Js :=
  match value (text.toList.length + 1) text.toList with
  | some (a, rest) => if skip rest = [] then some a else none
  | none => none

example : parse " [1.5e1, \x7b\"a\":\"\\u00e9\\ud83d\\ude00\", \"a\": null\x7d]" = some (.arr [.num 15, .obj [("a", .null)]]) := by
  decide +kernel

end NginxAdmin.JsonText
