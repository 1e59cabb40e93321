import Mathlib.Algebra.Ring.Nat
import Mathlib.Data.List.Forall2
import Mathlib.Data.List.Infix
import Mathlib.Tactic.Common

/-!
# Regular expressions with backtracking

`Regex.run` enumerates the ways in which an expression matches at a position, in the order in which a
backtracking matcher finds them; a position is the text before it, nearest character first, and the text after
it. `Regex.Matches a l w r` says that `a` matches the word `w` between the text `l` before and the text `r`
after it; `mem_run` and `search_iff` relate the two.
-/

namespace NginxAdmin

inductive Regex where
  | nil
  /-- One character of a class. -/
  | char (p : Char → Bool)
  | seq (a b : Regex)
  | alt (a b : Regex)
  /-- Repetitions, as many as possible first or as few as possible first. -/
  | rep (greedy : Bool) (a : Regex)
  /-- An assertion about the text before and after. -/
  | look (p : List Char → List Char → Bool)

namespace Regex

/-- `a*` -/
abbrev star (a : Regex) : Regex := rep true a

/-- `a*?` -/
abbrev lazy (a : Regex) : Regex := rep false a

/-- Repetition of `f`, at most `n` times; an empty repetition ends it. -/
def iterate (greedy : Bool) (f : List Char → List Char → List (List Char × List Char)) :
    Nat → List Char → List Char → List (List Char × List Char)
  | 0, l, r => [(l, r)]
  | n + 1, l, r =>
    let more := ((f l r).filter fun q => decide (q.2.length < r.length)).flatMap fun q => iterate greedy f n q.1 q.2
    if greedy then more ++ [(l, r)] else (l, r) :: more

def run : Regex → List Char → List Char → List (List Char × List Char)
  | nil, l, r => [(l, r)]
  | char _, _, [] => []
  | char p, l, c :: r => if p c then [(c :: l, r)] else []
  | seq a b, l, r => (run a l r).flatMap fun q => run b q.1 q.2
  | alt a b, l, r => run a l r ++ run b l r
  | rep greedy a, l, r => iterate greedy (run a) r.length l r
  | look p, l, r => if p l r then [(l, r)] else []

/-- `a` matches somewhere from this position on. -/
def search (a : Regex) (l : List Char) : List Char → Bool
  | [] => !(run a l []).isEmpty
  | c :: r => !(run a l (c :: r)).isEmpty || search a (c :: l) r

/-- `RegExp.prototype.test`. -/
def test (a : Regex) (s : String) : Bool := search a [] s.toList

def never : Regex := char fun _ => false

def plus (a : Regex) : Regex := seq a (star a)

def opt (a : Regex) : Regex := alt a nil

def upto (a : Regex) : Nat → Regex
  | 0 => nil
  | n + 1 => opt (seq a (upto a n))

/-- `^` -/
def bol : Regex := look fun l _ => l.isEmpty

/-- `$` -/
def eol : Regex := look fun _ r => r.isEmpty

/-- A word whose characters match one by one. -/
def literalBy (eq : Char → Char → Bool) : List Char → Regex
  | [] => nil
  | c :: cs => seq (char (eq c)) (literalBy eq cs)

def literal (s : String) : Regex := literalBy (fun c d => d == c) s.toList

def alts : List Regex → Regex
  | [] => never
  | a :: as => alt a (alts as)

/-- `before(key)rest`, an expression with one group. -/
structure Grouped where
  before : Regex
  key : Regex
  rest : Regex

def Grouped.regex (g : Grouped) : Regex := seq g.before (seq g.key g.rest)

/-- The group of the first match at this position, and the length of the match. -/
def Grouped.first (g : Grouped) (l r : List Char) : Option (List Char × Nat) :=
  ((run g.before l r).flatMap fun q => (run g.key q.1 q.2).flatMap fun k => (run g.rest k.1 k.2).map fun e =>
    (q.2.take (q.2.length - k.2.length), r.length - e.2.length)).head?

/-- The number of UTF-16 code units. -/
def utf16Length (cs : List Char) : Nat := (cs.map fun c => if c.toNat < 0x10000 then 1 else 2).sum

/-- The matches are replaced from left to right; `f` is given the group and the text before the match, and `skip`
characters belong to the match just replaced. -/
def Grouped.replaceAux (g : Grouped) (f : List Char → List Char → List Char) :
    Nat → List Char → List Char → List Char
  | _, _, [] => []
  | skip + 1, l, c :: r => replaceAux g f skip (c :: l) r
  | 0, l, c :: r =>
    match g.first l (c :: r) with
    | some (key, n + 1) => f key l ++ replaceAux g f n (c :: l) r
    | _ => c :: replaceAux g f 0 (c :: l) r

/-- `String.prototype.replace` with the flag `g`. -/
def Grouped.replace (g : Grouped) (f : List Char → List Char → List Char) (s : String) : String :=
  String.ofList (g.replaceAux f 0 [] s.toList)

/-- `\s` -/
def isSpace (c : Char) : Bool :=
  let n := c.toNat
  (9 ≤ n && n ≤ 13) || n == 0x20 || n == 0xA0 || n == 0x1680 || (0x2000 ≤ n && n ≤ 0x200A) || n == 0x2028 ||
    n == 0x2029 || n == 0x202F || n == 0x205F || n == 0x3000 || n == 0xFEFF

/-- `.` -/
def isDot (c : Char) : Bool := c != '\n' && c != '\r' && c.toNat != 0x2028 && c.toNat != 0x2029

/-- `[^/?#\s@]` -/
def isUserChar (c : Char) : Bool := c != '/' && c != '?' && c != '#' && !isSpace c && c != '@'

/-- `[a-z]` with the flags `iu`: the long s and the Kelvin sign fold to letters. -/
def isLetterI (c : Char) : Bool := c.isAlpha || c == '\u017f' || c == '\u212a'

/-- The folding of characters with the flags `iu`, as far as ASCII can see it. -/
def foldI (c : Char) : Char := if c = '\u017f' then 's' else if c = '\u212a' then 'k' else c.toLower

/-- A word in lower case, with the flags `iu`. -/
def literalI (s : String) : Regex := literalBy (fun c d => foldI d == c) s.toList

/-- `\w` with the flags `iu`. -/
def isWordI (c : Char) : Bool := c.isDigit || c == '_' || isLetterI c

/-- `\b` with the flags `iu`. -/
def wordBoundaryI : Regex := look fun l r => l.head?.any isWordI != r.head?.any isWordI

/-! ### What is matched -/

inductive Star (M : List Char → List Char → List Char → Prop) : List Char → List Char → List Char → Prop
  | nil {l r : List Char} : Star M l [] r
  | cons {l w w' r : List Char} (hw : w ≠ []) (h : M l w (w' ++ r)) (h' : Star M (w.reverse ++ l) w' r) :
      Star M l (w ++ w') r

def Matches : Regex → List Char → List Char → List Char → Prop
  | nil, _, w, _ => w = []
  | char p, _, w, _ => ∃ c, p c = true ∧ w = [c]
  | seq a b, l, w, r => ∃ w₁ w₂, w = w₁ ++ w₂ ∧ Matches a l w₁ (w₂ ++ r) ∧ Matches b (w₁.reverse ++ l) w₂ r
  | alt a b, l, w, r => Matches a l w r ∨ Matches b l w r
  | rep _ a, l, w, r => Star (Matches a) l w r
  | look p, l, w, r => p l r = true ∧ w = []

/-- The results of `f` are the matches of `M`. -/
def Finds (f : List Char → List Char → List (List Char × List Char))
    (M : List Char → List Char → List Char → Prop) : Prop :=
  ∀ l r q, q ∈ f l r ↔ ∃ w, r = w ++ q.2 ∧ q.1 = w.reverse ++ l ∧ M l w q.2

theorem mem_iterate_succ {greedy : Bool} {f : List Char → List Char → List (List Char × List Char)} {n : Nat}
    {l r : List Char} {q : List Char × List Char} : q ∈ iterate greedy f (n + 1) l r ↔
      (∃ q' ∈ (f l r).filter fun q => decide (q.2.length < r.length), q ∈ iterate greedy f n q'.1 q'.2) ∨ q = (l, r) := by
  cases greedy with
  | true => simp only [iterate, if_true, List.mem_append, List.mem_flatMap, List.mem_singleton]
  | false =>
    simp only [iterate, Bool.false_eq_true, if_false, List.mem_cons, List.mem_flatMap]
    rw [or_comm]

theorem mem_iterate {f : List Char → List Char → List (List Char × List Char)}
    {M : List Char → List Char → List Char → Prop} (hf : Finds f M) (greedy : Bool) (n : Nat) (l r : List Char)
    (hn : r.length ≤ n) (q : List Char × List Char) :
    q ∈ iterate greedy f n l r ↔ ∃ w, r = w ++ q.2 ∧ q.1 = w.reverse ++ l ∧ Star M l w q.2 := by
  induction n generalizing l r with
  | zero =>
    obtain rfl : r = [] := List.length_eq_zero_iff.1 (Nat.le_zero.1 hn)
    rw [iterate, List.mem_singleton]
    constructor
    · rintro rfl
      exact ⟨[], rfl, rfl, .nil⟩
    · rintro ⟨w, hw, hq, -⟩
      obtain ⟨rfl, hq2⟩ := List.append_eq_nil_iff.1 hw.symm
      exact Prod.ext hq hq2
  | succ n ih =>
    rw [mem_iterate_succ]
    simp only [List.mem_filter, decide_eq_true_eq]
    constructor
    · rintro (⟨q', ⟨hq', hlt⟩, hq⟩ | rfl)
      · obtain ⟨w, hr, hl, hM⟩ := (hf l r q').1 hq'
        obtain ⟨w', hr', hl', hS⟩ := (ih q'.1 q'.2 (by omega)).1 hq
        have hw : w ≠ [] := by
          rintro rfl
          rw [hr] at hlt
          simp at hlt
        refine ⟨w ++ w', by rw [hr, hr', List.append_assoc], by rw [hl', hl]; simp, .cons hw (hr' ▸ hM) (hl ▸ hS)⟩
      · exact ⟨[], rfl, rfl, .nil⟩
    · rintro ⟨w, hr, hl, hS⟩
      cases hS with
      | nil => exact .inr (Prod.ext hl hr.symm)
      | @cons _ w₁ w₂ _ hw hM hS =>
        refine .inl ⟨(w₁.reverse ++ l, w₂ ++ q.2), ⟨(hf l r _).2 ⟨w₁, by rw [hr]; simp, rfl, hM⟩, ?_⟩, ?_⟩
        · have := List.length_pos_iff.2 hw
          rw [hr]
          simp only [List.length_append]
          omega
        · refine (ih _ _ ?_).2 ⟨w₂, rfl, by rw [hl]; simp, hS⟩
          have := List.length_pos_iff.2 hw
          rw [hr] at hn
          simp only [List.length_append] at hn ⊢
          omega

theorem mem_run (a : Regex) : Finds (run a) (Matches a) := by
  intro l r q
  induction a generalizing l r q with
  | nil =>
    rw [run, List.mem_singleton]
    constructor
    · rintro rfl
      exact ⟨[], rfl, rfl, rfl⟩
    · rintro ⟨w, hr, hl, rfl⟩
      exact Prod.ext hl hr.symm
  | char p =>
    constructor
    · intro hq
      cases r with
      | nil => cases hq
      | cons c r =>
        rw [run] at hq
        split at hq
        · rename_i hc
          obtain rfl := List.mem_singleton.1 hq
          exact ⟨[c], rfl, rfl, c, hc, rfl⟩
        · cases hq
    · rintro ⟨w, rfl, hl, c, hc, rfl⟩
      rw [List.singleton_append, run, if_pos hc, List.mem_singleton]
      exact Prod.ext hl rfl
  | seq a b iha ihb =>
    rw [run, List.mem_flatMap]
    constructor
    · rintro ⟨q', hq', hq⟩
      obtain ⟨w₁, hr, hl, hM⟩ := (iha l r q').1 hq'
      obtain ⟨w₂, hr', hl', hM'⟩ := (ihb q'.1 q'.2 q).1 hq
      exact ⟨w₁ ++ w₂, by rw [hr, hr', List.append_assoc], by rw [hl', hl]; simp, w₁, w₂, rfl, hr' ▸ hM, hl ▸ hM'⟩
    · rintro ⟨w, hr, hl, w₁, w₂, rfl, hM, hM'⟩
      refine ⟨(w₁.reverse ++ l, w₂ ++ q.2), (iha l r _).2 ⟨w₁, by rw [hr]; simp, rfl, hM⟩, ?_⟩
      exact (ihb _ _ q).2 ⟨w₂, rfl, by rw [hl]; simp, hM'⟩
  | alt a b iha ihb =>
    rw [run, List.mem_append, iha, ihb]
    constructor
    · rintro (⟨w, hr, hl, hM⟩ | ⟨w, hr, hl, hM⟩)
      · exact ⟨w, hr, hl, .inl hM⟩
      · exact ⟨w, hr, hl, .inr hM⟩
    · rintro ⟨w, hr, hl, hM | hM⟩
      · exact .inl ⟨w, hr, hl, hM⟩
      · exact .inr ⟨w, hr, hl, hM⟩
  | rep greedy a ih => exact mem_iterate ih greedy r.length l r (Nat.le_refl _) q
  | look p =>
    rw [run]
    constructor
    · intro hq
      split at hq
      · rename_i hp
        obtain rfl := List.mem_singleton.1 hq
        exact ⟨[], rfl, rfl, hp, rfl⟩
      · cases hq
    · rintro ⟨w, rfl, hl, hp, rfl⟩
      rw [List.nil_append, if_pos hp, List.mem_singleton]
      exact Prod.ext hl rfl

theorem run_ne_nil_iff {a : Regex} {l r : List Char} :
    (!(run a l r).isEmpty) = true ↔ ∃ w r', r = w ++ r' ∧ Matches a l w r' := by
  rw [Bool.not_eq_true', List.isEmpty_eq_false_iff_exists_mem]
  constructor
  · rintro ⟨q, hq⟩
    obtain ⟨w, hr, -, hM⟩ := (mem_run a l r q).1 hq
    exact ⟨w, q.2, hr, hM⟩
  · rintro ⟨w, r', hr, hM⟩
    exact ⟨(w.reverse ++ l, r'), (mem_run a l r _).2 ⟨w, hr, rfl, hM⟩⟩

theorem search_iff {a : Regex} {l r : List Char} :
    search a l r = true ↔ ∃ x w y, r = x ++ w ++ y ∧ Matches a (x.reverse ++ l) w y := by
  induction r generalizing l with
  | nil =>
    rw [search, run_ne_nil_iff]
    constructor
    · rintro ⟨w, y, hr, hM⟩
      exact ⟨[], w, y, hr, hM⟩
    · rintro ⟨x, w, y, hr, hM⟩
      obtain ⟨hxw, rfl⟩ := List.append_eq_nil_iff.1 hr.symm
      obtain ⟨rfl, rfl⟩ := List.append_eq_nil_iff.1 hxw
      exact ⟨[], [], rfl, hM⟩
  | cons c r ih =>
    rw [search, Bool.or_eq_true, run_ne_nil_iff, ih]
    constructor
    · rintro (⟨w, y, hr, hM⟩ | ⟨x, w, y, rfl, hM⟩)
      · exact ⟨[], w, y, hr, hM⟩
      · exact ⟨c :: x, w, y, rfl, by simpa using hM⟩
    · rintro ⟨x, w, y, hr, hM⟩
      cases x with
      | nil => exact .inl ⟨w, y, hr, hM⟩
      | cons d x =>
        obtain ⟨rfl, rfl⟩ := List.cons.inj hr
        exact .inr ⟨x, w, y, rfl, by simpa using hM⟩

theorem test_iff {a : Regex} {s : String} :
    test a s = true ↔ ∃ x w y, s.toList = x ++ w ++ y ∧ Matches a x.reverse w y := by
  rw [test, search_iff]
  simp only [List.append_nil]

section Matches

variable {a b : Regex} {l w r : List Char}

@[simp] theorem matches_nil : Matches nil l w r ↔ w = [] := Iff.rfl

@[simp] theorem matches_char {p : Char → Bool} : Matches (char p) l w r ↔ ∃ c, p c = true ∧ w = [c] := Iff.rfl

theorem matches_seq : Matches (seq a b) l w r ↔
    ∃ w₁ w₂, w = w₁ ++ w₂ ∧ Matches a l w₁ (w₂ ++ r) ∧ Matches b (w₁.reverse ++ l) w₂ r := Iff.rfl

@[simp] theorem matches_alt : Matches (alt a b) l w r ↔ Matches a l w r ∨ Matches b l w r := Iff.rfl

@[simp] theorem matches_look {p : List Char → List Char → Bool} : Matches (look p) l w r ↔ p l r = true ∧ w = [] :=
  Iff.rfl

@[simp] theorem matches_bol : Matches bol l w r ↔ l = [] ∧ w = [] := by simp [bol]

@[simp] theorem matches_eol : Matches eol l w r ↔ r = [] ∧ w = [] := by simp [eol]

@[simp] theorem matches_opt : Matches (opt a) l w r ↔ Matches a l w r ∨ w = [] := Iff.rfl

@[simp] theorem matches_star_char {p : Char → Bool} : Matches (star (char p)) l w r ↔ ∀ c ∈ w, p c = true := by
  constructor
  · intro h
    replace h : Star (Matches (char p)) l w r := h
    induction h with
    | nil => exact List.forall_mem_nil _
    | cons _ h _ ih =>
      obtain ⟨c, hc, rfl⟩ := h
      exact List.forall_mem_cons.2 ⟨hc, ih⟩
  · intro h
    induction w generalizing l with
    | nil => exact Star.nil
    | cons c w ih =>
      obtain ⟨hc, hw⟩ := List.forall_mem_cons.1 h
      exact Star.cons (List.cons_ne_nil c []) ⟨c, hc, rfl⟩ (ih hw)

@[simp] theorem matches_plus_char {p : Char → Bool} :
    Matches (plus (char p)) l w r ↔ w ≠ [] ∧ ∀ c ∈ w, p c = true := by
  rw [plus, matches_seq]
  constructor
  · rintro ⟨w₁, w₂, rfl, ⟨c, hc, rfl⟩, hw⟩
    exact ⟨List.cons_ne_nil c w₂, List.forall_mem_cons.2 ⟨hc, matches_star_char.1 hw⟩⟩
  · rintro ⟨hne, hw⟩
    obtain ⟨c, w, rfl⟩ := List.exists_cons_of_ne_nil hne
    obtain ⟨hc, hw⟩ := List.forall_mem_cons.1 hw
    exact ⟨[c], w, rfl, ⟨c, hc, rfl⟩, matches_star_char.2 hw⟩

@[simp] theorem matches_upto_char {p : Char → Bool} {n : Nat} :
    Matches (upto (char p) n) l w r ↔ w.length ≤ n ∧ ∀ c ∈ w, p c = true := by
  induction n generalizing l w with
  | zero =>
    rw [upto, matches_nil]
    constructor
    · rintro rfl
      exact ⟨Nat.le_refl 0, List.forall_mem_nil _⟩
    · rintro ⟨h, -⟩
      exact List.length_eq_zero_iff.1 (Nat.le_zero.1 h)
  | succ n ih =>
    rw [upto, matches_opt, matches_seq]
    constructor
    · rintro (⟨w₁, w₂, rfl, ⟨c, hc, rfl⟩, hw⟩ | rfl)
      · obtain ⟨hlen, hall⟩ := ih.1 hw
        exact ⟨by simpa using hlen, List.forall_mem_cons.2 ⟨hc, hall⟩⟩
      · exact ⟨Nat.zero_le _, List.forall_mem_nil _⟩
    · rintro ⟨hlen, hall⟩
      cases w with
      | nil => exact .inr rfl
      | cons c w =>
        obtain ⟨hc, hw⟩ := List.forall_mem_cons.1 hall
        exact .inl ⟨[c], w, rfl, ⟨c, hc, rfl⟩, ih.2 ⟨Nat.le_of_succ_le_succ hlen, hw⟩⟩

theorem matches_literalBy {eq : Char → Char → Bool} {cs : List Char} :
    Matches (literalBy eq cs) l w r ↔ List.Forall₂ (fun c d => eq c d = true) cs w := by
  induction cs generalizing l w with
  | nil => rw [literalBy, matches_nil, List.forall₂_nil_left_iff]
  | cons c cs ih =>
    rw [literalBy, matches_seq, List.forall₂_cons_left_iff]
    constructor
    · rintro ⟨w₁, w₂, rfl, ⟨d, hd, rfl⟩, hw⟩
      exact ⟨d, w₂, hd, ih.1 hw, rfl⟩
    · rintro ⟨d, w₂, hd, hw, rfl⟩
      exact ⟨[d], w₂, rfl, ⟨d, hd, rfl⟩, ih.2 hw⟩

@[simp] theorem matches_literal {s : String} : Matches (literal s) l w r ↔ w = s.toList := by
  rw [literal, matches_literalBy]
  simp only [beq_iff_eq]
  constructor
  · intro h
    have heq := h.imp fun _ _ => Eq.symm
    rw [List.forall₂_eq_eq_eq] at heq
    exact heq.symm
  · rintro rfl
    exact List.forall₂_same.2 fun _ _ => rfl

@[simp] theorem matches_alts {as : List Regex} : Matches (alts as) l w r ↔ ∃ a ∈ as, Matches a l w r := by
  induction as with
  | nil => simp [alts, never]
  | cons a as ih => simp [alts, ih]

theorem matches_seq_congr {b' : Regex} (hb : ∀ l w r, Matches b l w r ↔ Matches b' l w r) :
    Matches (seq a b) l w r ↔ Matches (seq a b') l w r := by
  simp only [matches_seq, hb]

theorem matches_seq_assoc {c : Regex} : Matches (seq a (seq b c)) l w r ↔ Matches (seq (seq a b) c) l w r := by
  constructor
  · rintro ⟨w₁, _, rfl, ha, w₂, w₃, rfl, hb, hc⟩
    exact ⟨w₁ ++ w₂, w₃, by simp, ⟨w₁, w₂, rfl, by simpa using ha, hb⟩, by simpa using hc⟩
  · rintro ⟨_, w₃, rfl, ⟨w₁, w₂, rfl, ha, hb⟩, hc⟩
    exact ⟨w₁, w₂ ++ w₃, by simp, by simpa using ha, w₂, w₃, rfl, hb, by simpa using hc⟩

theorem matches_seq_assoc₃ {c d : Regex} :
    Matches (seq a (seq b (seq c d))) l w r ↔ Matches (seq (seq a (seq b c)) d) l w r :=
  (matches_seq_congr fun _ _ _ => matches_seq_assoc).trans matches_seq_assoc

theorem test_alts {as : List Regex} {s : String} : test (alts as) s = true ↔ ∃ a ∈ as, test a s = true := by
  simp only [test_iff, matches_alts]
  constructor
  · rintro ⟨x, w, y, hs, a, ha, hM⟩
    exact ⟨a, ha, x, w, y, hs, hM⟩
  · rintro ⟨a, ha, x, w, y, hs, hM⟩
    exact ⟨x, w, y, hs, a, ha, hM⟩

theorem test_of_seq_left {s : String} (h : test (seq a b) s = true) : test a s = true := by
  obtain ⟨x, w, y, hs, w₁, w₂, rfl, ha, -⟩ := test_iff.1 h
  exact test_iff.2 ⟨x, w₁, w₂ ++ y, by rw [hs]; simp, ha⟩

theorem test_of_seq_right {s : String} (h : test (seq a b) s = true) : test b s = true := by
  obtain ⟨x, w, y, hs, w₁, w₂, rfl, -, hb⟩ := test_iff.1 h
  exact test_iff.2 ⟨x ++ w₁, w₂, y, by rw [hs]; simp, by simpa using hb⟩

/-- Where a word is found, its beginning is. -/
theorem test_literalBy_append {eq : Char → Char → Bool} {u v : List Char} {s : String}
    (h : test (literalBy eq (u ++ v)) s = true) : test (literalBy eq u) s = true := by
  obtain ⟨x, w, y, hs, hw⟩ := test_iff.1 h
  have htake := List.forall₂_take u.length (matches_literalBy.1 hw)
  rw [List.take_left] at htake
  refine test_iff.2 ⟨x, w.take u.length, w.drop u.length ++ y, ?_, matches_literalBy.2 htake⟩
  rw [hs, List.append_assoc, List.append_assoc, ← List.append_assoc (w.take u.length), List.take_append_drop]

theorem test_whole {s : String} : test (seq bol (seq a eol)) s = true ↔ Matches a [] s.toList [] := by
  rw [test_iff]
  constructor
  · rintro ⟨x, w, y, hs, w₁, w₂, rfl, hb, w₃, w₄, rfl, ha, he⟩
    obtain ⟨hx, rfl⟩ := matches_bol.1 hb
    obtain ⟨rfl, rfl⟩ := matches_eol.1 he
    obtain rfl : x = [] := by simpa using hx
    have hw : s.toList = w₃ := by simpa using hs
    rw [hw]
    simpa using ha
  · intro h
    exact ⟨[], s.toList, [], by simp, [], s.toList, rfl, matches_bol.2 ⟨rfl, rfl⟩, s.toList, [], by simp, by simpa using h,
      matches_eol.2 ⟨rfl, rfl⟩⟩

theorem test_start {s : String} : test (seq bol a) s = true ↔ ∃ w r, s.toList = w ++ r ∧ Matches a [] w r := by
  rw [test_iff]
  constructor
  · rintro ⟨x, w, y, hs, w₁, w₂, rfl, hb, ha⟩
    obtain ⟨hx, rfl⟩ := matches_bol.1 hb
    obtain rfl : x = [] := by simpa using hx
    exact ⟨w₂, y, by simpa using hs, by simpa using ha⟩
  · rintro ⟨w, r, hs, ha⟩
    exact ⟨[], w, r, by simpa using hs, [], w, rfl, matches_bol.2 ⟨rfl, rfl⟩, by simpa using ha⟩

end Matches

/-! ### The characters of a match -/

/-- Every character of a match is one of `p`. -/
def Only (p : Char → Prop) (a : Regex) : Prop := ∀ l w r, Matches a l w r → ∀ c ∈ w, p c

/-- Every match has a character of `p`. -/
def Needs (p : Char → Prop) (a : Regex) : Prop := ∀ l w r, Matches a l w r → ∃ c ∈ w, p c

section Characters

variable {p : Char → Prop} {a b : Regex}

theorem only_nil : Only p nil := by
  rintro l w r rfl
  exact List.forall_mem_nil _

theorem only_look (q : List Char → List Char → Bool) : Only p (look q) := by
  rintro l w r ⟨-, rfl⟩
  exact List.forall_mem_nil _

theorem only_char {q : Char → Bool} (h : ∀ c, q c = true → p c) : Only p (char q) := by
  rintro l w r ⟨c, hc, rfl⟩
  simpa using h c hc

theorem Only.seq (ha : Only p a) (hb : Only p b) : Only p (seq a b) := by
  rintro l w r ⟨w₁, w₂, rfl, h₁, h₂⟩ c hc
  rcases List.mem_append.1 hc with hc | hc
  · exact ha _ _ _ h₁ c hc
  · exact hb _ _ _ h₂ c hc

theorem Only.alt (ha : Only p a) (hb : Only p b) : Only p (alt a b) := by
  rintro l w r (h | h)
  · exact ha l w r h
  · exact hb l w r h

theorem Only.rep (ha : Only p a) (greedy : Bool) : Only p (rep greedy a) := by
  intro l w r h
  replace h : Star (Matches a) l w r := h
  induction h with
  | nil => exact List.forall_mem_nil _
  | cons _ h _ ih =>
    intro c hc
    rcases List.mem_append.1 hc with hc | hc
    · exact ha _ _ _ h c hc
    · exact ih c hc

theorem Only.plus (ha : Only p a) : Only p (plus a) := ha.seq (ha.rep true)

theorem Only.opt (ha : Only p a) : Only p (opt a) := ha.alt only_nil

theorem Only.upto (ha : Only p a) (n : Nat) : Only p (upto a n) := by
  induction n with
  | zero => exact only_nil
  | succ n ih => exact (ha.seq ih).alt only_nil

theorem only_literal {s : String} (h : ∀ c ∈ s.toList, p c) : Only p (literal s) := by
  intro l w r hw
  rw [matches_literal.1 hw]
  exact h

theorem needs_char {q : Char → Bool} (h : ∀ c, q c = true → p c) : Needs p (char q) := by
  rintro l w r ⟨c, hc, rfl⟩
  exact ⟨c, List.mem_singleton_self c, h c hc⟩

theorem Needs.seq_left (ha : Needs p a) : Needs p (seq a b) := by
  rintro l w r ⟨w₁, w₂, rfl, h₁, -⟩
  obtain ⟨c, hc, hp⟩ := ha _ _ _ h₁
  exact ⟨c, List.mem_append_left w₂ hc, hp⟩

theorem Needs.seq_right (hb : Needs p b) : Needs p (seq a b) := by
  rintro l w r ⟨w₁, w₂, rfl, -, h₂⟩
  obtain ⟨c, hc, hp⟩ := hb _ _ _ h₂
  exact ⟨c, List.mem_append_right w₁ hc, hp⟩

theorem Needs.alt (ha : Needs p a) (hb : Needs p b) : Needs p (alt a b) := by
  rintro l w r (h | h)
  · exact ha l w r h
  · exact hb l w r h

theorem needs_alts {as : List Regex} (h : ∀ a ∈ as, Needs p a) : Needs p (alts as) := by
  intro l w r hM
  obtain ⟨a, ha, hM⟩ := matches_alts.1 hM
  exact h a ha l w r hM

theorem needs_literal {s : String} {c : Char} (hc : c ∈ s.toList) (h : p c) : Needs p (literal s) := by
  intro l w r hw
  rw [matches_literal.1 hw]
  exact ⟨c, hc, h⟩

theorem needs_literalI_of_mem {s : String} {c : Char} (hc : c ∈ s.toList) (h : ∀ d, foldI d = c → p d) :
    Needs p (literalI s) := by
  rw [literalI]
  generalize s.toList = cs at hc
  induction cs with
  | nil => cases hc
  | cons c' cs ih =>
    rcases List.mem_cons.1 hc with rfl | hc
    · exact Needs.seq_left (needs_char fun d hd => h d (beq_iff_eq.1 hd))
    · exact Needs.seq_right (ih hc)

/-- A text whose characters are all others has no match. -/
theorem Needs.test_eq_false (ha : Needs p a) {s : String} (h : ∀ c ∈ s.toList, ¬ p c) : test a s = false := by
  rw [← Bool.not_eq_true, test_iff]
  rintro ⟨x, w, y, hs, hw⟩
  obtain ⟨c, hc, hp⟩ := ha _ _ _ hw
  refine h c ?_ hp
  rw [hs]
  simp [hc]

/-- A match stands at the start, at the end of the text. -/
def Starts (a : Regex) : Prop := ∀ l w r, Matches a l w r → l = []

def Ends (a : Regex) : Prop := ∀ l w r, Matches a l w r → r = []

theorem starts_bol_seq : Starts (seq bol a) := by
  rintro l w r ⟨w₁, w₂, rfl, h, -⟩
  exact (matches_bol.1 h).1

theorem ends_eol : Ends eol := fun _ _ _ h => (matches_eol.1 h).1

theorem Ends.seq_right (hb : Ends b) : Ends (Regex.seq a b) := by
  rintro l w r ⟨w₁, w₂, rfl, -, h⟩
  exact hb _ _ _ h

/-- The characters of a text that is matched as a whole. -/
theorem Only.of_test (ha : Only p a) (hs : Starts a) (he : Ends a) {s : String} (h : test a s = true) :
    ∀ c ∈ s.toList, p c := by
  obtain ⟨x, w, y, hsplit, hw⟩ := test_iff.1 h
  have hx : x = [] := by simpa using hs _ _ _ hw
  have hy := he _ _ _ hw
  rw [hsplit, hx, hy, List.append_nil, List.nil_append]
  exact ha _ _ _ hw

end Characters

namespace Grouped

variable {g : Grouped}

theorem matches_of_first {l r : List Char} {m : List Char × Nat} (h : g.first l r = some m) :
    ∃ w r', r = w ++ r' ∧ Matches g.regex l w r' := by
  have hmem := List.mem_of_mem_head? h
  obtain ⟨q, hq, hmem⟩ := List.mem_flatMap.1 hmem
  obtain ⟨k, hk, hmem⟩ := List.mem_flatMap.1 hmem
  obtain ⟨e, he, -⟩ := List.mem_map.1 hmem
  obtain ⟨w₁, hr, hl₁, h₁⟩ := (mem_run g.before l r q).1 hq
  obtain ⟨w₂, hr₂, hl₂, h₂⟩ := (mem_run g.key q.1 q.2 k).1 hk
  obtain ⟨w₃, hr₃, hl₃, h₃⟩ := (mem_run g.rest k.1 k.2 e).1 he
  refine ⟨w₁ ++ (w₂ ++ w₃), e.2, ?_, w₁, w₂ ++ w₃, rfl, ?_, w₂, w₃, rfl, ?_, ?_⟩
  · rw [hr, hr₂, hr₃]
    simp
  · rw [hr₂, hr₃] at h₁
    simpa using h₁
  · rw [hr₃, hl₁] at h₂
    exact h₂
  · rw [hl₂, hl₁] at h₃
    exact h₃

theorem replaceAux_of_no_match {f : List Char → List Char → List Char} {l r : List Char}
    (h : ∀ x w y, r = x ++ w ++ y → ¬ Matches g.regex (x.reverse ++ l) w y) : g.replaceAux f 0 l r = r := by
  induction r generalizing l with
  | nil => rfl
  | cons c r ih =>
    have hfirst : g.first l (c :: r) = none := by
      rcases hm : g.first l (c :: r) with _ | m
      · rfl
      · obtain ⟨w, r', hr, hM⟩ := matches_of_first hm
        exact absurd hM (h [] w r' hr)
    rw [replaceAux, hfirst]
    refine congrArg (c :: ·) (ih fun x w y hr => ?_)
    have hnext := h (c :: x) w y (by rw [hr]; rfl)
    simpa using hnext

theorem replace_of_test_eq_false {f : List Char → List Char → List Char} {s : String} (h : test g.regex s = false) :
    g.replace f s = s := by
  rw [replace, replaceAux_of_no_match, String.ofList_toList]
  intro x w y hs hM
  rw [List.append_nil] at hM
  exact absurd (test_iff.2 ⟨x, w, y, hs, hM⟩) (by rw [h]; exact Bool.false_ne_true)

end Grouped

end Regex

end NginxAdmin
