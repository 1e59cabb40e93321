import NginxAdmin.Lib.Greedy
import NginxAdmin.Lib.Text
import NginxAdmin.Web.Redaction
import NginxAdmin.Web.Sanitize

/-!
# Secrets behind a name and a separator

`hidesValues_iff`: the text `name=value` is redacted to the same text whatever the value, exactly when the name ends in
one of the words of the value patterns at a word boundary. The name pattern finds its words anywhere in a name.
-/

namespace NginxAdmin.Web

open Regex

/-- A character of a value: not white space, not a quote, `,` or `;`. -/
def isValueChar (c : Char) : Bool := isBareChar c && c != '"' && c != '\''

def IsValue (v : List Char) : Prop := v ≠ [] ∧ ∀ c ∈ v, isValueChar c = true

/-- A colon or an equals sign, and white space. -/
structure IsSeparator (sep : List Char) : Prop where
  split : ∃ d spaces, sep = d :: spaces ∧ (d = ':' ∨ d = '=') ∧ ∀ c ∈ spaces, isSpace c = true

/-- A word of a value pattern at the end, at a word boundary. -/
def valueKeyPattern : Regex :=
  seq wordBoundaryI (seq (alts [authorizationPattern.key, cookiePattern.key, assignedPattern.key]) eol)

/-- A pattern of words that start and end with a letter, without marks. -/
structure KeyWord (a : Regex) : Prop where
  plain : Plain a
  unmarked : Only (isMark · = false) a
  starts : ∀ l w r, Matches a l w r → w.head?.any isWordI = true
  ends : ∀ l w r, Matches a l w r → w.getLast?.any isWordI = true

def isLowerLetter (c : Char) : Bool := c.isLower && isLetterI c && isLetterI c.toUpper

theorem isLetterI_of_foldI {c d : Char} (hc : isLowerLetter c = true) (h : foldI d = c) : isLetterI d = true := by
  simp only [isLowerLetter, Bool.and_eq_true] at hc
  obtain ⟨⟨hlower, hletter⟩, hupper⟩ := hc
  rw [foldI] at h
  split at h
  · rename_i hd
    rw [hd]
    decide
  · split at h
    · rename_i hd
      rw [hd]
      decide
    · rcases (Text.toLower_eq_iff hlower).1 h with rfl | rfl
      · exact hupper
      · exact hletter

theorem foldI_of_isMark {d : Char} (h : isMark d = true) : foldI d = d := by
  rw [foldI]
  split
  · rename_i hd
    rw [hd] at h
    exact absurd h (by decide)
  · split
    · rename_i hd
      rw [hd] at h
      exact absurd h (by decide)
    · exact toLower_of_isMark h

theorem isMark_of_isLetterI {c : Char} (h : isLetterI c = true) : isMark c = false := by
  rw [isLetterI, Bool.or_eq_true, Bool.or_eq_true, beq_iff_eq, beq_iff_eq] at h
  rcases h with (h | rfl) | rfl
  · exact isMark_of_isAlphanum (by rw [Char.isAlphanum, h, Bool.true_or])
  · decide
  · decide

theorem only_literalI {s : String} (hs : s.toList.all (fun c => !isMark c) = true) : Only (isMark · = false) (literalI s) := by
  intro l w r hM
  have hall := matches_literalBy.1 hM
  clear hM
  generalize s.toList = cs at hs hall
  induction hall with
  | nil => exact List.forall_mem_nil _
  | @cons c d cs w hcd _ ih =>
    rw [List.all_cons, Bool.and_eq_true] at hs
    refine List.forall_mem_cons.2 ⟨?_, ih hs.2⟩
    rw [← Bool.not_eq_true]
    intro hd
    rw [foldI_of_isMark hd, beq_iff_eq] at hcd
    rw [hcd] at hd
    rw [hd] at hs
    exact absurd hs.1 (by decide)

theorem head?_of_forall₂ {cs w : List Char} (h : List.Forall₂ (fun c d => (foldI d == c) = true) cs w)
    (hc : cs.head?.any isLowerLetter = true) : w.head?.any isWordI = true := by
  cases h with
  | nil => cases hc
  | cons hcd _ => exact isWordI_of_isLetterI (isLetterI_of_foldI hc (beq_iff_eq.1 hcd))

theorem keyWord_literalI {s : String} (hs : s.toList.all (fun c => !isMark c) = true)
    (hhead : s.toList.head?.any isLowerLetter = true) (hlast : s.toList.getLast?.any isLowerLetter = true) :
    KeyWord (literalI s) where
  plain := plain_literalBy _ _
  unmarked := only_literalI hs
  starts _ _ _ h := head?_of_forall₂ (matches_literalBy.1 h) hhead
  ends l w r h := by
    have hreverse := List.forall₂_reverse_iff.2 (matches_literalBy.1 h)
    rw [← List.head?_reverse] at hlast ⊢
    exact head?_of_forall₂ hreverse hlast

namespace KeyWord

variable {a b : Regex}

theorem alt (ha : KeyWord a) (hb : KeyWord b) : KeyWord (alt a b) where
  plain := ⟨ha.plain, hb.plain⟩
  unmarked := ha.unmarked.alt hb.unmarked
  starts l w r h := h.elim (ha.starts l w r) (hb.starts l w r)
  ends l w r h := h.elim (ha.ends l w r) (hb.ends l w r)

theorem alts {as : List Regex} (h : ∀ a ∈ as, KeyWord a) : KeyWord (Regex.alts as) where
  plain := plain_alts fun a ha => (h a ha).plain
  unmarked := fun l w r hM => by
    obtain ⟨a, ha, hM⟩ := matches_alts.1 hM
    exact (h a ha).unmarked l w r hM
  starts l w r hM := by
    obtain ⟨a, ha, hM⟩ := matches_alts.1 hM
    exact (h a ha).starts l w r hM
  ends l w r hM := by
    obtain ⟨a, ha, hM⟩ := matches_alts.1 hM
    exact (h a ha).ends l w r hM

theorem head?_append {w w' : List Char} (h : w.head?.any isWordI = true) : (w ++ w').head?.any isWordI = true := by
  cases w with
  | nil => cases h
  | cons c w => exact h

theorem getLast?_append {w w' : List Char} (h : w'.getLast?.any isWordI = true) :
    (w ++ w').getLast?.any isWordI = true := by
  rw [List.getLast?_append]
  cases hw : w'.getLast? with
  | none =>
    rw [hw] at h
    cases h
  | some c =>
    rw [hw] at h
    exact h

/-- Two words with something unmarked between them. -/
theorem seq {m : Regex} (ha : KeyWord a) (hm : Plain m) (hm' : Only (isMark · = false) m) (hb : KeyWord b) :
    KeyWord (Regex.seq a (Regex.seq m b)) where
  plain := ⟨ha.plain, hm, hb.plain⟩
  unmarked := ha.unmarked.seq (hm'.seq hb.unmarked)
  starts l w r h := by
    obtain ⟨w₁, w₂, rfl, h₁, -⟩ := h
    exact head?_append (ha.starts _ _ _ h₁)
  ends l w r h := by
    obtain ⟨w₁, _, rfl, -, w₂, w₃, rfl, -, h₃⟩ := h
    exact getLast?_append (getLast?_append (hb.ends _ _ _ h₃))

theorem seq_opt (ha : KeyWord a) (hb : KeyWord b) : KeyWord (Regex.seq a (opt b)) where
  plain := ⟨ha.plain, hb.plain, trivial⟩
  unmarked := ha.unmarked.seq hb.unmarked.opt
  starts l w r h := by
    obtain ⟨w₁, w₂, rfl, h₁, -⟩ := h
    exact head?_append (ha.starts _ _ _ h₁)
  ends l w r h := by
    obtain ⟨w₁, w₂, rfl, h₁, h₂ | rfl⟩ := h
    · exact getLast?_append (hb.ends _ _ _ h₂)
    · rw [List.append_nil]
      exact ha.ends _ _ _ h₁

end KeyWord

theorem keyWord_authorization : KeyWord authorizationPattern.key :=
  keyWord_literalI (by decide) (by decide) (by decide)

theorem keyWord_cookie : KeyWord cookiePattern.key :=
  (keyWord_literalI (by decide) (by decide) (by decide)).alt (keyWord_literalI (by decide) (by decide) (by decide))

theorem keyWord_assigned : KeyWord assignedPattern.key := by
  have hmark : Only (isMark · = false) (opt (char fun c => c == '-' || c == '_')) := by
    refine (only_char fun c hc => ?_).opt
    rw [Bool.or_eq_true, beq_iff_eq, beq_iff_eq] at hc
    rcases hc with rfl | rfl <;> decide
  have word {s : String} (hs : s.toList.all (fun c => !isMark c) = true)
      (hhead : s.toList.head?.any isLowerLetter = true) (hlast : s.toList.getLast?.any isLowerLetter = true) :=
    keyWord_literalI hs hhead hlast
  refine KeyWord.alts fun a ha => ?_
  simp only [List.mem_cons, List.not_mem_nil, or_false] at ha
  rcases ha with rfl | rfl | rfl | rfl | rfl | rfl | rfl | rfl | rfl | rfl | rfl | rfl
  · exact (word (by decide) (by decide) (by decide)).seq ⟨trivial, trivial⟩ hmark (word (by decide) (by decide) (by decide))
  · exact (word (by decide) (by decide) (by decide)).seq ⟨trivial, trivial⟩ hmark (word (by decide) (by decide) (by decide))
  · exact (word (by decide) (by decide) (by decide)).seq ⟨trivial, trivial⟩ hmark (word (by decide) (by decide) (by decide))
  · exact word (by decide) (by decide) (by decide)
  · exact word (by decide) (by decide) (by decide)
  · exact word (by decide) (by decide) (by decide)
  · exact word (by decide) (by decide) (by decide)
  · exact (word (by decide) (by decide) (by decide)).seq_opt (word (by decide) (by decide) (by decide))
  · exact word (by decide) (by decide) (by decide)
  · exact word (by decide) (by decide) (by decide)
  · exact word (by decide) (by decide) (by decide)
  · exact word (by decide) (by decide) (by decide)

/-! ### Patterns of a key and its value -/

/-- What the first three patterns of `SECRET_VALUE_PATTERNS` have in common. -/
structure Assigning (g : Grouped) : Prop where
  before_eq : g.before = wordBoundaryI
  key : KeyWord g.key
  /-- What follows the key starts with a mark. -/
  stops : ∀ l w r, Matches g.rest l w r → ∃ c w', w = c :: w' ∧ isMark c = true
  /-- After a separator a value is taken as a whole. -/
  takes : ∀ l sep v, l.head?.any isWordI = true → IsSeparator sep → IsValue v →
    (run g.rest l (sep ++ v)).head? = some ((sep ++ v).reverse ++ l, [])

theorem isMark_of_assign {c : Char} (h : (c == ':' || c == '=') = true) : isMark c = true := by
  rw [isMark, h, Bool.true_or]

theorem assign_stops {l w r : List Char} (h : Matches assignPattern l w r) : ∃ c w', w = c :: w' ∧ isMark c = true := by
  obtain ⟨w₁, _, rfl, hspaces, w₂, w₃, rfl, ⟨c, hc, rfl⟩, -⟩ := h
  cases w₁ with
  | nil => exact ⟨c, w₃, rfl, isMark_of_assign hc⟩
  | cons d w₁ =>
    exact ⟨d, _, rfl, isMark_of_isSpace (matches_star_char.1 hspaces d List.mem_cons_self)⟩

theorem stops_append {b : Regex} {l w r : List Char} (h : Matches (seq assignPattern b) l w r) :
    ∃ c w', w = c :: w' ∧ isMark c = true := by
  obtain ⟨w₁, w₂, rfl, h₁, -⟩ := h
  obtain ⟨c, w', rfl, hc⟩ := assign_stops h₁
  exact ⟨c, w' ++ w₂, rfl, hc⟩

theorem not_isSpace_of_isValueChar {c : Char} (h : isValueChar c = true) : isSpace c = false := by
  simp only [isValueChar, isBareChar, Bool.and_eq_true, Bool.not_eq_true'] at h
  exact h.1.1.1.1

/-- The separator is taken as a whole. -/
theorem head_run_assign {l sep v : List Char} (hsep : IsSeparator sep) (hv : IsValue v) :
    (run assignPattern l (sep ++ v)).head? = some (sep.reverse ++ l, v) := by
  obtain ⟨d, spaces, rfl, hd, hspaces⟩ := hsep.split
  have hd' : (d == ':' || d == '=') = true ∧ isSpace d = false := by
    rcases hd with rfl | rfl <;> decide
  have hfirst : (run (star (char isSpace)) l (d :: (spaces ++ v))).head? = some (l, d :: (spaces ++ v)) := by
    have hnot : ¬ isSpace d = true := by
      rw [hd'.2]
      exact Bool.false_ne_true
    rw [head_run_star_char, List.takeWhile_cons_of_neg hnot, List.dropWhile_cons_of_neg hnot]
    rfl
  have hchar : (run (char fun c => c == ':' || c == '=') l (d :: (spaces ++ v))).head? = some (d :: l, spaces ++ v) := by
    rw [run, if_pos hd'.1]
    rfl
  have hlast : (run (star (char isSpace)) (d :: l) (spaces ++ v)).head? = some (spaces.reverse ++ d :: l, v) := by
    obtain ⟨htake, hdrop⟩ := takeWhile_of_all (r := v) hspaces fun c hc =>
      not_isSpace_of_isValueChar (hv.2 c (List.mem_of_mem_head? hc))
    rw [head_run_star_char, htake, hdrop]
  have h := head_run_seq hfirst (head_run_seq hchar hlast)
  rw [assignPattern, List.cons_append, h]
  simp

/-- A value that is not quoted is taken as a whole. -/
theorem head_run_value {p : Char → Bool} (hp : ∀ c, isValueChar c = true → p c = true) {l v r : List Char} (hv : IsValue v)
    (hr : ∀ c, r.head? = some c → p c = false) :
    (run (valuePattern p) l (v ++ r)).head? = some (v.reverse ++ l, r) := by
  obtain ⟨c, v', rfl⟩ := List.exists_cons_of_ne_nil hv.1
  have hc := hv.2 c List.mem_cons_self
  simp only [isValueChar, Bool.and_eq_true, bne_iff_ne] at hc
  -- a quoted value would start with its quote
  have hquote {q : Char} {s : String} (hs : s.toList = [q]) (b : Regex) (hq : c ≠ q) :
      run (seq (literal s) b) l (c :: v' ++ r) = [] := by
    refine run_eq_nil fun w r' hr => ?_
    rintro ⟨w₁, w₂, rfl, h₁, -⟩
    rw [matches_literal.1 h₁, hs] at hr
    exact hq (List.cons.inj hr).1
  obtain ⟨htake, hdrop⟩ := takeWhile_of_all (fun d hd => hp d (hv.2 d hd)) hr
  rw [valuePattern, alts, head_run_alt_right (hquote rfl _ hc.1.2), alts, head_run_alt_right (hquote rfl _ hc.2), alts]
  refine head_run_alt_left ?_
  rw [List.cons_append, head_run_plus_char (hp c (hv.2 c List.mem_cons_self)), ← List.cons_append, htake, hdrop]

theorem head_run_last_value {p : Char → Bool} (hp : ∀ c, isValueChar c = true → p c = true) {l v : List Char}
    (hv : IsValue v) : (run (valuePattern p) l v).head? = some (v.reverse ++ l, []) := by
  have h := head_run_value (l := l) (r := []) hp hv fun c hc => by cases hc
  rwa [List.append_nil] at h

theorem assigning_authorization : Assigning authorizationPattern where
  before_eq := rfl
  key := keyWord_authorization
  stops _ _ _ h := stops_append h
  takes l sep v _ hsep hv := by
    have hbearer : (run (opt (seq (literalI "bearer") (plus (char isSpace)))) (sep.reverse ++ l) v).head? =
        some (sep.reverse ++ l, v) := by
      rw [opt, head_run_alt_right]
      · rfl
      · refine run_eq_nil fun w r' hr => ?_
        rintro ⟨w₁, w₂, rfl, -, h₂⟩
        obtain ⟨hne, hspace⟩ := matches_plus_char.1 h₂
        obtain ⟨c, w₂, rfl⟩ := List.exists_cons_of_ne_nil hne
        have hvalue := not_isSpace_of_isValueChar (hv.2 c (by rw [hr]; simp))
        rw [hspace c List.mem_cons_self] at hvalue
        cases hvalue
    have hbare : ∀ c, isValueChar c = true → isBareChar c = true := by
      intro c hc
      simp only [isValueChar, Bool.and_eq_true] at hc
      exact hc.1.1
    have h := head_run_seq (head_run_assign (l := l) hsep hv) (head_run_seq hbearer (head_run_last_value hbare hv))
    rw [authorizationPattern, h]
    simp

theorem assigning_cookie : Assigning cookiePattern where
  before_eq := rfl
  key := keyWord_cookie
  stops _ _ _ h := stops_append h
  takes l sep v _ hsep hv := by
    have hline : ∀ c, isValueChar c = true → (c != '\r' && c != '\n') = true := by
      intro c hc
      have hspace := not_isSpace_of_isValueChar hc
      rw [Bool.and_eq_true, bne_iff_ne, bne_iff_ne]
      constructor
      · rintro rfl
        exact absurd hspace (by decide)
      · rintro rfl
        exact absurd hspace (by decide)
    have h := head_run_seq (head_run_assign (l := l) hsep hv) (head_run_last_value hline hv)
    rw [cookiePattern, h]
    simp

theorem assigning_assigned : Assigning assignedPattern where
  before_eq := rfl
  key := keyWord_assigned
  stops := by
    rintro l w r ⟨w₁, w₂, rfl, ⟨-, rfl⟩, h₂⟩
    exact stops_append h₂
  takes l sep v hl hsep hv := by
    have hbare : ∀ c, isValueChar c = true → isBareChar c = true := by
      intro c hc
      simp only [isValueChar, Bool.and_eq_true] at hc
      exact hc.1.1
    have hbound : (run wordBoundaryI l (sep ++ v)).head? = some (l, sep ++ v) := by
      obtain ⟨d, spaces, rfl, hd, -⟩ := hsep.split
      have hword : isWordI d = false := by rcases hd with rfl | rfl <;> decide
      rw [wordBoundaryI, run, List.cons_append, List.head?_cons, Option.any_some, hl, hword]
      rfl
    have h := head_run_seq hbound (head_run_seq (head_run_assign hsep hv) (head_run_last_value hbare hv))
    rw [assignedPattern, h]
    simp

/-- `u` ends in a key of `g` at a word boundary; `l` is the text before it. -/
def EndsAt (g : Grouped) (l u : List Char) : Prop :=
  ∃ x w, u = x ++ w ∧ Matches wordBoundaryI (x.reverse ++ l) [] w ∧ Matches g.key (x.reverse ++ l) w []

theorem EndsAt.cons {g : Grouped} {l u : List Char} {c : Char} (h : EndsAt g (c :: l) u) : EndsAt g l (c :: u) := by
  obtain ⟨x, w, rfl, hbound, hkey⟩ := h
  exact ⟨c :: x, w, rfl, by simpa using hbound, by simpa using hkey⟩

theorem IsSeparator.exists_mark {sep : List Char} (h : IsSeparator sep) (v : List Char) :
    ∃ d y, sep ++ v = d :: y ∧ isMark d = true := by
  obtain ⟨d, spaces, rfl, rfl | rfl, -⟩ := h.split
  · exact ⟨':', spaces ++ v, rfl, by decide⟩
  · exact ⟨'=', spaces ++ v, rfl, by decide⟩

theorem IsSeparator.marks {sep : List Char} (h : IsSeparator sep) : ∀ c ∈ sep, isMark c = true := by
  obtain ⟨d, spaces, rfl, hd, hspaces⟩ := h.split
  refine List.forall_mem_cons.2 ⟨?_, fun c hc => isMark_of_isSpace (hspaces c hc)⟩
  rcases hd with rfl | rfl <;> decide

theorem matches_boundary_congr {l r r' : List Char} (h : r.head? = r'.head?) :
    Matches wordBoundaryI l [] r ↔ Matches wordBoundaryI l [] r' := by
  rw [wordBoundaryI, matches_look, matches_look, h]

section Pass

variable {g : Grouped} (hg : Assigning g) {l u sep v : List Char}
include hg

theorem Assigning.ne_nil {w r : List Char} (h : Matches g.key l w r) : w ≠ [] := by
  rintro rfl
  exact absurd (hg.key.starts l [] r h) (by decide)

/-- No match starts with a mark. -/
theorem Assigning.first_mark {c : Char} (hc : isMark c = true) (y : List Char) (key : List Char) (n : Nat) :
    g.first l (c :: y) ≠ some (key, n) := by
  intro hfirst
  obtain ⟨w₁, w₃, r', hr, -, hbefore, hkey, -⟩ := Grouped.first_spec hfirst
  rw [hg.before_eq] at hbefore
  obtain ⟨-, rfl⟩ := hbefore
  obtain ⟨d, ds, rfl⟩ := List.exists_cons_of_ne_nil (hg.ne_nil hkey)
  obtain ⟨rfl, -⟩ := List.cons.inj hr
  rw [hg.key.unmarked _ _ _ hkey c List.mem_cons_self] at hc
  cases hc

/-- A match at the start of `u` has `u` for its key. -/
theorem Assigning.first_of_not_key (hsep : IsSeparator sep) (hu : ∀ c ∈ u, isMark c = false)
    (hwhole : ¬ (Matches wordBoundaryI l [] u ∧ Matches g.key l u [])) (key : List Char) (n : Nat) :
    g.first l (u ++ (sep ++ v)) ≠ some (key, n) := by
  intro hfirst
  obtain ⟨w₁, w₃, r', hr, -, hbefore, hkey, hrest⟩ := Grouped.first_spec hfirst
  rw [hg.before_eq] at hbefore
  obtain ⟨hbound, rfl⟩ := hbefore
  obtain ⟨c, w', rfl, hc⟩ := hg.stops _ _ _ hrest
  obtain ⟨d, y, hsv, hd⟩ := hsep.exists_mark v
  rw [hsv] at hr
  obtain ⟨rfl, -⟩ := append_stop_inj hu (hg.key.unmarked _ _ _ hkey) hd hc hr
  refine hwhole ⟨?_, (hg.key.plain.matches_iff).1 hkey⟩
  obtain ⟨e, es, rfl⟩ := List.exists_cons_of_ne_nil (hg.ne_nil hkey)
  exact (matches_boundary_congr rfl).1 ⟨hbound, rfl⟩

/-- Where the key is all of `u`, the match reaches to the end of the text. -/
theorem Assigning.first_of_key (hsep : IsSeparator sep) (hv : IsValue v) (hu : ∀ c ∈ u, isMark c = false)
    (hbound : Matches wordBoundaryI l [] u) (hkey : Matches g.key l u []) :
    g.first l (u ++ (sep ++ v)) = some (u, (u ++ (sep ++ v)).length) := by
  have hne := hg.ne_nil hkey
  have hbefore : run g.before l (u ++ (sep ++ v)) = [(l, u ++ (sep ++ v))] := by
    have hb : Matches wordBoundaryI l [] (u ++ (sep ++ v)) := by
      refine (matches_boundary_congr ?_).1 hbound
      rw [List.head?_append_of_ne_nil _ hne]
    rw [hg.before_eq, wordBoundaryI, run, if_pos hb.1]
  have htakes := hg.takes (u.reverse ++ l) sep v
    (by rw [List.head?_append_of_ne_nil _ (by simpa using hne), List.head?_reverse]; exact hg.key.ends _ _ _ hkey) hsep hv
  rw [Grouped.first, hbefore, List.flatMap_cons, List.flatMap_nil, List.append_nil]
  refine head?_flatMap_of (fun k hk => ?_) ?_
  · obtain ⟨key, hr, hl, hM⟩ := (mem_run _ _ _ k).1 hk
    by_cases hrest : run g.rest k.1 k.2 = []
    · exact .inl (by rw [hrest, List.map_nil])
    · right
      obtain ⟨e, he⟩ := List.exists_mem_of_ne_nil _ hrest
      obtain ⟨w, hr', -, hM'⟩ := (mem_run _ _ _ e).1 he
      obtain ⟨c, w', rfl, hc⟩ := hg.stops _ _ _ hM'
      obtain ⟨d, y, hsv, hd⟩ := hsep.exists_mark v
      have hsplit : u ++ d :: y = key ++ c :: (w' ++ e.2) := by
        rw [← hsv]
        exact hr.trans (congrArg (key ++ ·) hr')
      obtain ⟨rfl, hk₂⟩ := append_stop_inj hu (hg.key.unmarked _ _ _ hM) hd hc hsplit
      have hk₂' : k.2 = sep ++ v := by
        rw [hr', hsv, hk₂]
        rfl
      rw [hl, hk₂', List.head?_map, htakes]
      simp
  · refine ⟨(u.reverse ++ l, sep ++ v), (mem_run _ _ _ _).2 ⟨u, rfl, rfl, (hg.key.plain.matches_iff).1 hkey⟩, ?_⟩
    intro hnil
    rw [List.map_eq_nil_iff] at hnil
    simp only at hnil
    rw [hnil] at htakes
    cases htakes

/-- The value goes when the name ends in a key. -/
theorem Assigning.pass_hit (hsep : IsSeparator sep) (hv : IsValue v) (hu : ∀ c ∈ u, isMark c = false)
    (hends : EndsAt g l u) : g.replaceAux redactKeyed 0 l (u ++ (sep ++ v)) = u ++ "=[redacted]".toList := by
  induction u generalizing l with
  | nil =>
    obtain ⟨x, w, hxw, -, hkey⟩ := hends
    exact absurd (List.append_eq_nil_iff.1 hxw.symm).2 (hg.ne_nil hkey)
  | cons c u ih =>
    by_cases hwhole : Matches wordBoundaryI l [] (c :: u) ∧ Matches g.key l (c :: u) []
    · have hfirst := hg.first_of_key hsep hv hu hwhole.1 hwhole.2
      have hhit := Grouped.replaceAux_hit (f := redactKeyed) (r := []) (l := l) (w := c :: u ++ (sep ++ v)) (by simp)
        (by rw [List.append_nil]; exact hfirst)
      rw [List.append_nil] at hhit
      rw [hhit]
      exact List.append_nil _
    · obtain ⟨x, w, hxw, hbound, hkey⟩ := hends
      cases x with
      | nil =>
        obtain rfl : c :: u = w := hxw
        exact absurd ⟨hbound, hkey⟩ hwhole
      | cons d x =>
        obtain ⟨rfl, hu'⟩ := List.cons.inj hxw
        have hends : EndsAt g (c :: l) u := ⟨x, w, hu', by simpa using hbound, by simpa using hkey⟩
        have hcopy : ∀ key n, g.first l (c :: (u ++ (sep ++ v))) ≠ some (key, n + 1) := fun key n =>
          hg.first_of_not_key hsep hu hwhole key (n + 1)
        rw [List.cons_append, Grouped.replaceAux_copy hcopy, ih (fun e he => hu e (List.mem_cons_of_mem c he)) hends]
        rfl

/-- The name and the separator stay when the name does not end in a key. -/
theorem Assigning.pass_miss (hsep : IsSeparator sep) (hu : ∀ c ∈ u, isMark c = false) (hends : ¬ EndsAt g l u) :
    g.replaceAux redactKeyed 0 l (u ++ (sep ++ v)) =
      u ++ (sep ++ g.replaceAux redactKeyed 0 (sep.reverse ++ (u.reverse ++ l)) v) := by
  rw [Grouped.replaceAux_append, Grouped.replaceAux_append]
  · intro x c y hxy key n
    exact hg.first_mark (hsep.marks c (by rw [hxy]; simp)) (y ++ v) key (n + 1)
  · intro x c y hxy key n
    have hwhole : ¬ (Matches wordBoundaryI (x.reverse ++ l) [] (c :: y) ∧ Matches g.key (x.reverse ++ l) (c :: y) []) :=
      fun h => hends ⟨x, c :: y, hxy, h.1, h.2⟩
    exact hg.first_of_not_key hsep (fun d hd => hu d (by rw [hxy]; exact List.mem_append_right x hd)) hwhole key (n + 1)

end Pass

/-! ### The passes over a name, a separator and a value -/

theorem forall_mem_replaceAux {g : Grouped} {f : List Char → List Char → List Char} {p : Char → Prop} {l v : List Char}
    (hf : ∀ key l, (∀ c ∈ key, p c) → ∀ c ∈ f key l, p c) (hv : ∀ c ∈ v, p c) : ∀ c ∈ g.replaceAux f 0 l v, p c := by
  refine (Grouped.rewrites_replaceAux f l v).forall_mem (fun key l m hkey hm => ?_) hv
  rw [hm]
  exact hf key l hkey

theorem isValueChar_append {key : List Char} (hkey : ∀ c ∈ key, isValueChar c = true) {s : String}
    (hs : s.toList.all isValueChar = true) : ∀ c ∈ key ++ s.toList, isValueChar c = true :=
  List.forall_mem_append.2 ⟨hkey, List.all_eq_true.1 hs⟩

theorem isMark_of_isSchemeChar {c : Char} (h : isSchemeChar c = true) : isMark c = false := by
  simp only [isSchemeChar, Bool.or_eq_true, beq_iff_eq] at h
  rcases h with (((h | h) | rfl) | rfl) | rfl
  · exact isMark_of_isLetterI h
  · exact isMark_of_isAlphanum (by rw [Char.isAlphanum, h, Bool.or_true])
  · decide
  · decide
  · decide

theorem IsSeparator.eq_colon {sep v y : List Char} (hsep : IsSeparator sep) (h : sep ++ v = ':' :: '/' :: y) :
    sep = [':'] ∧ v = '/' :: y := by
  obtain ⟨d, spaces, rfl, -, hspaces⟩ := hsep.split
  cases spaces with
  | nil =>
    obtain ⟨rfl, hv⟩ := List.cons.inj h
    exact ⟨rfl, hv⟩
  | cons c spaces =>
    obtain ⟨rfl, -⟩ := List.cons.inj (List.cons.inj h).2
    exact absurd (hspaces '/' List.mem_cons_self) (by decide)

/-- A scheme that starts in the name ends with it, and the value is the rest of the URL. -/
theorem url_first {l u sep v key : List Char} {n : Nat} (hsep : IsSeparator sep) (hu : ∀ c ∈ u, isMark c = false)
    (h : urlWithCredentialsPattern.first l (u ++ (sep ++ v)) = some (key, n)) :
    ∃ w₃ r', sep = [':'] ∧ key = u ++ "://".toList ∧ v = "//".toList ++ (w₃ ++ r') ∧ n = (key ++ w₃).length := by
  obtain ⟨w₁, w₃, r', hr, hn, ⟨-, rfl⟩, ⟨_, _, rfl, ⟨d, hd, rfl⟩, w₅, _, rfl, hscheme, hcolon⟩, -⟩ := Grouped.first_spec h
  obtain rfl := matches_literal.1 hcolon
  obtain ⟨e, y, hsv, he⟩ := hsep.exists_mark v
  have hword : ∀ c ∈ d :: w₅, isMark c = false :=
    List.forall_mem_cons.2 ⟨isMark_of_isLetterI hd, fun c hc => isMark_of_isSchemeChar (matches_star_char.1 hscheme c hc)⟩
  have hsplit : u ++ e :: y = (d :: w₅) ++ ':' :: ('/' :: '/' :: (w₃ ++ r')) := by
    rw [← hsv, hr]
    simp
  obtain ⟨rfl, htail⟩ := append_stop_inj hu hword he (by decide) hsplit
  obtain ⟨hcolon, hv⟩ := hsep.eq_colon (hsv.trans htail)
  exact ⟨w₃, r', hcolon, rfl, hv, hn⟩

/-- What the URL pass replaces, if anything, is in the value, even where the name is read as a scheme. -/
theorem urlPass_pair {l u sep v : List Char} (hsep : IsSeparator sep) (hv : IsValue v) (hu : ∀ c ∈ u, isMark c = false) :
    ∃ v', IsValue v' ∧ urlWithCredentialsPattern.replaceAux (fun key _ => key ++ "[redacted]@".toList) 0 l (u ++ (sep ++ v)) =
      u ++ (sep ++ v') := by
  have hvalue : ∀ l w, (∀ c ∈ w, isValueChar c = true) → ∀ c ∈ urlWithCredentialsPattern.replaceAux
      (fun key _ => key ++ "[redacted]@".toList) 0 l w, isValueChar c = true := fun l w hw =>
    forall_mem_replaceAux (fun key _ hkey => isValueChar_append hkey (by decide)) hw
  induction u generalizing l with
  | nil =>
    refine ⟨urlWithCredentialsPattern.replaceAux (fun key _ => key ++ "[redacted]@".toList) 0 (sep.reverse ++ l) v,
      ⟨?_, hvalue _ _ hv.2⟩, ?_⟩
    · exact (Grouped.rewrites_replaceAux _ _ _).ne_nil (fun key l m hm => hm ▸ by simp) hv.1
    rw [List.nil_append, List.nil_append, Grouped.replaceAux_append]
    intro x c y hxy key n hfirst
    -- a scheme does not start with a mark
    obtain ⟨w₁, w₃, r', hr, -, ⟨-, rfl⟩, ⟨_, w₄, rfl, ⟨d, hd, rfl⟩, -⟩, -⟩ := Grouped.first_spec hfirst
    obtain ⟨rfl, -⟩ := List.cons.inj hr
    have hmark := hsep.marks c (by rw [hxy]; simp)
    rw [isMark_of_isLetterI hd] at hmark
    cases hmark
  | cons c u ih =>
    by_cases hfirst : ∃ key n, urlWithCredentialsPattern.first l (c :: u ++ (sep ++ v)) = some (key, n + 1)
    · obtain ⟨key, n, hfirst⟩ := hfirst
      obtain ⟨w₃, r', rfl, rfl, rfl, hn⟩ := url_first hsep hu hfirst
      rw [hn] at hfirst
      have hr' : ∀ c ∈ r', isValueChar c = true := fun c hc => hv.2 c (by simp [hc])
      have htext : c :: u ++ ([':'] ++ ("//".toList ++ (w₃ ++ r'))) = (c :: u ++ "://".toList ++ w₃) ++ r' := by simp
      rw [htext] at hfirst ⊢
      rw [Grouped.replaceAux_hit (by simp) hfirst]
      have hout := hvalue ((c :: u ++ "://".toList ++ w₃).reverse ++ l) r' hr'
      generalize urlWithCredentialsPattern.replaceAux _ 0 _ r' = out at hout ⊢
      exact ⟨"//[redacted]@".toList ++ out, ⟨by simp, List.forall_mem_append.2 ⟨List.all_eq_true.1 (by decide), hout⟩⟩, by simp⟩
    · have hcopy : ∀ key n, urlWithCredentialsPattern.first l (c :: (u ++ (sep ++ v))) ≠ some (key, n + 1) := by
        simpa using hfirst
      obtain ⟨v', hv', hrest⟩ := ih (l := c :: l) fun d hd => hu d (List.mem_cons_of_mem c hd)
      refine ⟨v', hv', ?_⟩
      rw [List.cons_append, Grouped.replaceAux_copy hcopy, hrest]
      rfl

section Redact

variable {key sep v : String} {g : Grouped}

theorem toList_pair (key sep v : String) : (key ++ sep ++ v).toList = key.toList ++ (sep.toList ++ v.toList) := by
  rw [String.toList_append, String.toList_append, List.append_assoc]

theorem Assigning.replace_hit (hg : Assigning g) (hkey : ∀ c ∈ key.toList, isMark c = false) (hsep : IsSeparator sep.toList)
    (hv : IsValue v.toList) (hends : EndsAt g [] key.toList) :
    g.replace redactKeyed (key ++ sep ++ v) = key ++ "=[redacted]" := by
  rw [Grouped.replace, toList_pair, hg.pass_hit hsep hv hkey hends, ← String.toList_append, String.ofList_toList]

theorem Assigning.replace_miss (hg : Assigning g) (hkey : ∀ c ∈ key.toList, isMark c = false) (hsep : IsSeparator sep.toList)
    (hends : ¬ EndsAt g [] key.toList) : g.replace redactKeyed (key ++ sep ++ v) =
      key ++ sep ++ String.ofList (g.replaceAux redactKeyed 0 (sep.toList.reverse ++ key.toList.reverse) v.toList) := by
  rw [Grouped.replace, toList_pair, hg.pass_miss hsep hkey hends, ← String.toList_inj, toList_pair, String.toList_ofList,
    String.toList_ofList, List.append_nil]

theorem isValue_keyed {g : Grouped} {l v : List Char} (hv : IsValue v) : IsValue (g.replaceAux redactKeyed 0 l v) := by
  constructor
  · exact (Grouped.rewrites_replaceAux redactKeyed l v).ne_nil (fun key l m hm => hm ▸ by simp [redactKeyed]) hv.1
  · exact forall_mem_replaceAux (fun key _ hkey => isValueChar_append hkey (by decide)) hv.2

theorem Assigning.replace_keeps (hg : Assigning g) (hkey : ∀ c ∈ key.toList, isMark c = false)
    (hsep : IsSeparator sep.toList) (hv : IsValue v.toList) (hends : ¬ EndsAt g [] key.toList) :
    ∃ v' : String, IsValue v'.toList ∧ g.replace redactKeyed (key ++ sep ++ v) = key ++ sep ++ v' :=
  ⟨_, by rw [String.toList_ofList]; exact isValue_keyed hv, hg.replace_miss hkey hsep hends⟩

theorem urlPass_keeps (hkey : ∀ c ∈ key.toList, isMark c = false) (hsep : IsSeparator sep.toList) (hv : IsValue v.toList) :
    ∃ v' : String, IsValue v'.toList ∧ urlPass (key ++ sep ++ v) = key ++ sep ++ v' := by
  obtain ⟨v', hv', h⟩ := urlPass_pair (l := []) hsep hv hkey
  refine ⟨String.ofList v', by rw [String.toList_ofList]; exact hv', ?_⟩
  rw [urlPass, Grouped.replace, toList_pair, h, ← String.toList_inj, toList_pair, String.toList_ofList,
    String.toList_ofList]

/-- One of the passes takes the value. -/
def TakesValue (key : List Char) : Prop :=
  EndsAt authorizationPattern [] key ∨ EndsAt cookiePattern [] key ∨ EndsAt assignedPattern [] key

/-- Once the value is gone the other passes see the name alone. -/
theorem keyedPasses_of_takes (hkey : ∀ c ∈ key.toList, isMark c = false) (htakes : TakesValue key.toList) :
    ∃ out, ∀ sep v : String, IsSeparator sep.toList → IsValue v.toList → keyedPasses (key ++ sep ++ v) = out := by
  by_cases hauthorization : EndsAt authorizationPattern [] key.toList
  · refine ⟨assignedPass (cookiePass (key ++ "=[redacted]")), fun sep v hsep hv => ?_⟩
    obtain ⟨v₁, hv₁, hurl⟩ := urlPass_keeps hkey hsep hv
    rw [keyedPasses, hurl, authorizationPass, assigning_authorization.replace_hit hkey hsep hv₁ hauthorization]
  · have hpass : ∀ sep v : String, IsSeparator sep.toList → IsValue v.toList → ∃ v₂ : String, IsValue v₂.toList ∧
        authorizationPass (urlPass (key ++ sep ++ v)) = key ++ sep ++ v₂ := by
      intro sep v hsep hv
      obtain ⟨v₁, hv₁, hurl⟩ := urlPass_keeps hkey hsep hv
      rw [hurl]
      exact assigning_authorization.replace_keeps hkey hsep hv₁ hauthorization
    by_cases hcookie : EndsAt cookiePattern [] key.toList
    · refine ⟨assignedPass (key ++ "=[redacted]"), fun sep v hsep hv => ?_⟩
      obtain ⟨v₂, hv₂, hauth⟩ := hpass sep v hsep hv
      rw [keyedPasses, hauth, cookiePass, assigning_cookie.replace_hit hkey hsep hv₂ hcookie]
    · have hassigned := (htakes.resolve_left hauthorization).resolve_left hcookie
      refine ⟨key ++ "=[redacted]", fun sep v hsep hv => ?_⟩
      obtain ⟨v₂, hv₂, hauth⟩ := hpass sep v hsep hv
      obtain ⟨v₃, hv₃, hcook⟩ := assigning_cookie.replace_keeps hkey hsep hv₂ hcookie
      rw [keyedPasses, hauth, cookiePass, hcook, assignedPass, assigning_assigned.replace_hit hkey hsep hv₃ hassigned]

/-- A single character is no match. -/
theorem Assigning.replaceAux_singleton (hg : Assigning g) (l : List Char) (c : Char) :
    g.replaceAux redactKeyed 0 l [c] = [c] := by
  rw [Grouped.replaceAux_copy]
  · rfl
  · intro key n hfirst
    obtain ⟨w₁, w₃, r', hr, -, -, hM, hrest⟩ := Grouped.first_spec hfirst
    obtain ⟨d, w₃, rfl, -⟩ := hg.stops _ _ _ hrest
    have hlen := congrArg List.length hr
    have hpos := List.length_pos_iff.2 (hg.ne_nil hM)
    simp only [List.length_append, List.length_cons, List.length_nil] at hlen
    omega

theorem Assigning.replace_singleton (hg : Assigning g) (hkey : ∀ c ∈ key.toList, isMark c = false)
    (hsep : IsSeparator sep.toList) (hends : ¬ EndsAt g [] key.toList) (c : Char) :
    g.replace redactKeyed (key ++ sep ++ String.ofList [c]) = key ++ sep ++ String.ofList [c] := by
  rw [hg.replace_miss hkey hsep hends, String.toList_ofList, hg.replaceAux_singleton]

end Redact

theorem test_valueKeyPattern {key : String} : test valueKeyPattern key = true ↔ ∃ x w, key.toList = x ++ w ∧
    Matches wordBoundaryI x.reverse [] w ∧
    Matches (alts [authorizationPattern.key, cookiePattern.key, assignedPattern.key]) x.reverse w [] := by
  rw [test_iff]
  constructor
  · rintro ⟨x, _, y, hxw, w₁, _, rfl, ⟨hbound, rfl⟩, w, w₂, rfl, hM, hend, rfl⟩
    obtain rfl : y = [] := List.isEmpty_iff.1 hend
    simp only [List.append_nil, List.nil_append] at hxw hbound hM
    exact ⟨x, w, hxw, ⟨hbound, rfl⟩, hM⟩
  · rintro ⟨x, w, hxw, ⟨hbound, -⟩, hM⟩
    refine ⟨x, w, [], by rw [hxw, List.append_nil], [], w, rfl, ⟨?_, rfl⟩, w, [], (List.append_nil w).symm, hM, rfl, rfl⟩
    rwa [List.append_nil]

theorem takesValue_iff {key : String} : TakesValue key.toList ↔ test valueKeyPattern key = true := by
  rw [test_valueKeyPattern]
  simp only [TakesValue, EndsAt, List.append_nil]
  constructor
  · rintro (⟨x, w, hxw, hbound, hM⟩ | ⟨x, w, hxw, hbound, hM⟩ | ⟨x, w, hxw, hbound, hM⟩)
    · exact ⟨x, w, hxw, hbound, .inl hM⟩
    · exact ⟨x, w, hxw, hbound, .inr (.inl hM)⟩
    · exact ⟨x, w, hxw, hbound, .inr (.inr (.inl hM))⟩
  · rintro ⟨x, w, hxw, hbound, hM⟩
    obtain ⟨a, ha, hM⟩ := matches_alts.1 hM
    simp only [List.mem_cons, List.not_mem_nil, or_false] at ha
    rcases ha with rfl | rfl | rfl
    · exact .inl ⟨x, w, hxw, hbound, hM⟩
    · exact .inr (.inl ⟨x, w, hxw, hbound, hM⟩)
    · exact .inr (.inr ⟨x, w, hxw, hbound, hM⟩)

/-- A pair of a name that ends in no such word and a single character is not changed. -/
theorem redact_of_not_takes {key : String} (hkey : ∀ c ∈ key.toList, isMark c = false) (h : ¬ TakesValue key.toList)
    {c : Char} (hc : isMark c = false) :
    redactPotentialSecrets (key ++ "=" ++ String.ofList [c]) = key ++ "=" ++ String.ofList [c] := by
  have hsep : IsSeparator "=".toList := ⟨'=', [], rfl, .inr rfl, List.forall_mem_nil _⟩
  rw [TakesValue, not_or, not_or] at h
  have hunmarked {p : Char → Prop} (hp : ∀ d, p d → isMark d = true) (heq : ¬ p '=') :
      ∀ d ∈ (key ++ "=" ++ String.ofList [c]).toList, ¬ p d := by
    intro d hd hpd
    rw [toList_pair, List.mem_append, List.mem_append] at hd
    have hmark := hp d hpd
    rcases hd with hd | hd | hd
    · rw [hkey d hd] at hmark
      cases hmark
    · obtain rfl : d = '=' := List.mem_singleton.1 hd
      exact heq hpd
    · rw [String.toList_ofList, List.mem_singleton] at hd
      rw [hd, hc] at hmark
      cases hmark
  have hurl : urlPass (key ++ "=" ++ String.ofList [c]) = key ++ "=" ++ String.ofList [c] := by
    refine Grouped.replace_of_test_eq_false (Needs.test_eq_false (p := (· = ':')) ?_ (hunmarked ?_ (by decide)))
    · have hcolon : Needs (· = ':') (Regex.literal "://") := needs_literal (by decide) rfl
      exact hcolon.seq_right.seq_right.seq_left.seq_right
    · rintro d rfl
      decide
  have hbearer : bearerPass (key ++ "=" ++ String.ofList [c]) = key ++ "=" ++ String.ofList [c] := by
    refine Grouped.replace_of_test_eq_false (Needs.test_eq_false (p := (isSpace · = true)) ?_
      (hunmarked (fun _ => isMark_of_isSpace) (by decide)))
    have hspace : Needs (isSpace · = true) (plus (char isSpace)) := Needs.seq_left (needs_char fun _ hd => hd)
    exact hspace.seq_left.seq_right.seq_right.seq_right.seq_right
  have hprivate : privateKeyPass (key ++ "=" ++ String.ofList [c]) = key ++ "=" ++ String.ofList [c] := by
    refine Grouped.replace_of_test_eq_false (Needs.test_eq_false (p := (· = ' ')) ?_ (hunmarked ?_ (by decide)))
    · have hbegin : Needs (· = ' ') (Regex.literal "-----BEGIN ") := needs_literal (by decide) rfl
      exact hbegin.seq_left.seq_right.seq_right
    · rintro d rfl
      decide
  rw [redactPotentialSecrets_eq, keyedPasses, hurl, authorizationPass, assigning_authorization.replace_singleton hkey hsep h.1,
    cookiePass, assigning_cookie.replace_singleton hkey hsep h.2.1, assignedPass,
    assigning_assigned.replace_singleton hkey hsep h.2.2, hbearer, hprivate]

theorem isSeparator_of_mem {sep : String} (h : sep ∈ ["=", ":", ": "]) : IsSeparator sep.toList := by
  simp only [List.mem_cons, List.not_mem_nil, or_false] at h
  rcases h with rfl | rfl | rfl
  · exact ⟨'=', [], rfl, .inr rfl, List.forall_mem_nil _⟩
  · exact ⟨':', [], rfl, .inl rfl, List.forall_mem_nil _⟩
  · exact ⟨':', [' '], rfl, .inl rfl, List.forall_mem_singleton.2 (by decide)⟩

/-- The redacted text does not depend on the value, exactly for the names that end in a word of a value pattern. -/
theorem hidesValues_iff {key : String} (hkey : ∀ c ∈ key.toList, isMark c = false) :
    (∀ sep ∈ ["=", ":", ": "], ∀ v₁ v₂ : String, IsValue v₁.toList → IsValue v₂.toList →
      redactPotentialSecrets (key ++ sep ++ v₁) = redactPotentialSecrets (key ++ sep ++ v₂)) ↔
    test valueKeyPattern key = true := by
  rw [← takesValue_iff]
  constructor
  · intro h
    by_contra htakes
    have hvalue (c : Char) (hc : isValueChar c = true) : IsValue (String.ofList [c]).toList := by
      rw [String.toList_ofList]
      exact ⟨List.cons_ne_nil c [], List.forall_mem_singleton.2 hc⟩
    have hab := h "=" List.mem_cons_self (String.ofList ['a']) (String.ofList ['b']) (hvalue 'a' (by decide))
      (hvalue 'b' (by decide))
    rw [redact_of_not_takes hkey htakes (by decide), redact_of_not_takes hkey htakes (by decide), ← String.toList_inj,
      toList_pair, toList_pair, String.toList_ofList, String.toList_ofList] at hab
    have hlast := List.append_cancel_left (List.append_cancel_left hab)
    exact absurd hlast (by decide)
  · intro htakes sep hsep v₁ v₂ hv₁ hv₂
    obtain ⟨out, hout⟩ := keyedPasses_of_takes hkey htakes
    rw [redactPotentialSecrets_eq, redactPotentialSecrets_eq, hout sep v₁ (isSeparator_of_mem hsep) hv₁,
      hout sep v₂ (isSeparator_of_mem hsep) hv₂]

theorem hidesValues_db_password :
    (∀ sep ∈ ["=", ":", ": "], ∀ v₁ v₂ : String, IsValue v₁.toList → IsValue v₂.toList →
      redactPotentialSecrets ("db-password" ++ sep ++ v₁) = redactPotentialSecrets ("db-password" ++ sep ++ v₂)) ↔
    test valueKeyPattern "db-password" = true :=
  hidesValues_iff (unmarked_of_all (by decide))

/-- The word stands at no word boundary. -/
theorem mypassword_not_hidden : isSensitiveFieldName "mypassword" = true ∧
    redactPotentialSecrets "mypassword=a" ≠ redactPotentialSecrets "mypassword=b" :=
  ⟨by decide +kernel, by decide +kernel⟩

end NginxAdmin.Web
