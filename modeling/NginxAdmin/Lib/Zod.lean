import NginxAdmin.Lib.Js

/-!
# Schemas that parse values of JavaScript

A schema takes a value to the value that it outputs, or rejects it. An object schema keeps the properties that it names.
-/

namespace NginxAdmin

abbrev Zod := Js → Option Js

namespace Zod

open Js

def string : Zod
  | .str s => some (.str s)
  | _ => none

def boolean : Zod
  | .bool b => some (.bool b)
  | _ => none

/-- `z.number().int().min(lo).max(hi)` -/
def int (lo hi : Rat) : Zod
  | .num x => if x.den = 1 ∧ lo ≤ x ∧ x ≤ hi then some (.num x) else none
  | _ => none

/-- `z.date()`: an invalid date is rejected. -/
def date : Zod
  | .date (some t) => some (.date (some t))
  | _ => none

def literal (s : String) : Zod := fun a => if a = .str s then some a else none

/-- A further condition on the output. -/
def refine (p : Js → Bool) (s : Zod) : Zod := fun a => (s a).bind fun b => if p b then some b else none

def regex (r : Regex) (s : Zod) : Zod :=
  refine (fun b => match b with
    | .str t => Regex.test r t
    | _ => false) s

def optional (s : Zod) : Zod := fun a => if a = .undefined then some .undefined else s a

def or (s t : Zod) : Zod := fun a => (s a).or (t a)

def preprocess (f : Js → Js) (s : Zod) : Zod := fun a => s (f a)

def array (s : Zod) : Zod
  | .arr xs => (xs.mapM s).map .arr
  | _ => none

/-- A property of an object with the members `ms`. -/
def field (ms : List (String × Js)) (f : String × Zod) : Option (String × Js) :=
  (f.2 (Js.get (.obj ms) f.1)).map fun b => (f.1, b)

/-- A property that the value lacks stays away unless the schema gives it a value. -/
def object (fields : List (String × Zod)) : Zod
  | .obj ms => (fields.mapM (field ms)).map fun out =>
      .obj (out.filter fun m => (ms.lookup m.1).isSome || m.2 != .undefined)
  | _ => none

/-- `superRefine`: `f` rejects the output, or returns it as it leaves it. -/
def superRefine (f : Js → Option Js) (s : Zod) : Zod := fun a => (s a).bind f

/-- `safeParse(a).success`. -/
def accepts (s : Zod) (a : Js) : Bool := (s a).isSome

end Zod

end NginxAdmin
