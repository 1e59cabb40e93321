import NginxAdmin.Lib.Greedy
import NginxAdmin.Web.AssignedSecrets

/-!
# The pass over URLs

A match of the URL pattern has no white space (`url_first_iff`), so the pass works on the words of a text one by one
(`urlAux_cut`), and what it leaves is in the text after the last `@` as before (`suffix_of_urlAux`).
-/

namespace NginxAdmin.Web

open Regex

def urlAux (l r : List Char) : List Char :=
  urlWithCredentialsPattern.replaceAux (fun key _ => key ++ "[redacted]@".toList) 0 l r

theorem urlPass_eq (value : String) : urlPass value = String.ofList (urlAux [] value.toList) := rfl

/-- A scheme. -/
def IsUrlScheme (x : List Char) : Prop := ∃ c y, x = c :: y ∧ isLetterI c = true ∧ ∀ d ∈ y, isSchemeChar d = true

theorem isMark_of_isUrlScheme {x : List Char} (h : IsUrlScheme x) : ∀ c ∈ x, isMark c = false := by
  obtain ⟨c, y, rfl, hc, hy⟩ := h
  exact List.forall_mem_cons.2 ⟨isMark_of_isLetterI hc, fun d hd => isMark_of_isSchemeChar (hy d hd)⟩

/-- What follows a scheme: `://`, the user information and its `@`. -/
structure IsUrl (l r key : List Char) (n : Nat) : Prop where
  bound : Matches wordBoundaryI l [] r
  split : ∃ x user r', r = x ++ ':' :: '/' :: '/' :: (user ++ '@' :: r') ∧ IsUrlScheme x ∧ user ≠ [] ∧
    (∀ c ∈ user, isUserChar c = true) ∧ key = x ++ "://".toList ∧ n = x.length + user.length + 4

theorem isUrl_of_first {l r key : List Char} {n : Nat} (h : urlWithCredentialsPattern.first l r = some (key, n)) :
    IsUrl l r key n := by
  obtain ⟨w₁, w₃, r', hr, hn, ⟨hbound, rfl⟩, ⟨_, _, rfl, ⟨d, hd, rfl⟩, w₅, _, rfl, hscheme, hcolon⟩, w₆, w₇, rfl, huser, hat⟩ :=
    Grouped.first_spec h
  obtain rfl := matches_literal.1 hcolon
  obtain rfl := matches_literal.1 hat
  obtain ⟨hne, hall⟩ := matches_plus_char.1 huser
  constructor
  · rw [hr]
    exact ⟨hbound, rfl⟩
  · refine ⟨d :: w₅, w₆, r', by rw [hr]; simp, ⟨d, w₅, rfl, hd, matches_star_char.1 hscheme⟩, hne, hall, rfl, ?_⟩
    rw [hn]
    simp
    omega

theorem IsUrl.unique {l r key key' : List Char} {n n' : Nat} (h : IsUrl l r key n) (h' : IsUrl l r key' n') :
    key = key' ∧ n = n' := by
  obtain ⟨x, user, s, hr, hx, -, huser, rfl, rfl⟩ := h.split
  obtain ⟨x', user', s', hr', hx', -, huser', rfl, rfl⟩ := h'.split
  obtain ⟨rfl, htail⟩ := append_stop_inj (isMark_of_isUrlScheme hx) (isMark_of_isUrlScheme hx') (by decide) (by decide)
    (hr.symm.trans hr')
  simp only [List.cons.injEq, true_and] at htail
  have hat {u : List Char} (hu : ∀ c ∈ u, isUserChar c = true) : ∀ c ∈ u, (c == '@') = false := by
    intro c hc
    rw [beq_eq_false_iff_ne]
    rintro rfl
    exact absurd (hu '@' hc) (by decide)
  obtain ⟨rfl, -⟩ := append_stop_inj (hat huser) (hat huser') (by decide) (by decide) htail
  exact ⟨rfl, rfl⟩

theorem url_first_iff {l r key : List Char} {n : Nat} :
    urlWithCredentialsPattern.first l r = some (key, n) ↔ IsUrl l r key n := by
  refine ⟨isUrl_of_first, fun h => ?_⟩
  rcases hfirst : urlWithCredentialsPattern.first l r with _ | ⟨key', n'⟩
  · rw [Grouped.first_eq_none_iff] at hfirst
    obtain ⟨x, user, r', hr, ⟨c, y, rfl, hc, hy⟩, hne, huser, -, -⟩ := h.split
    have hM : Matches urlWithCredentialsPattern.regex l (c :: y ++ ("://".toList ++ (user ++ "@".toList))) r' := by
      refine ⟨[], _, rfl, ?_, c :: y ++ "://".toList, user ++ "@".toList, by simp, ?_, user, "@".toList, rfl,
        matches_plus_char.2 ⟨hne, huser⟩, matches_literal.2 rfl⟩
      · refine (matches_boundary_congr ?_).1 h.bound
        rw [hr]
        rfl
      · exact ⟨[c], y ++ "://".toList, rfl, ⟨c, hc, rfl⟩, y, "://".toList, rfl, matches_star_char.2 hy, matches_literal.2 rfl⟩
    exact absurd hM (hfirst _ r' (by rw [hr]; simp))
  · obtain ⟨rfl, rfl⟩ := h.unique (isUrl_of_first hfirst)
    rfl

theorem local_url : urlWithCredentialsPattern.Local :=
  ⟨local_wordBoundaryI, ⟨trivial, trivial, local_literalBy _ _⟩, ⟨trivial, trivial⟩, local_literalBy _ _⟩

theorem urlAux_congr {l l' : List Char} (h : l.head? = l'.head?) (r : List Char) : urlAux l r = urlAux l' r :=
  Grouped.replaceAux_congr local_url (fun _ _ _ => rfl) h r

theorem not_isSpace_url {x user : List Char} (hx : IsUrlScheme x) (huser : ∀ c ∈ user, isUserChar c = true) :
    ∀ c ∈ x ++ ':' :: '/' :: '/' :: (user ++ ['@']), isSpace c = false := by
  have hscheme : ∀ c ∈ x, isSpace c = false := by
    intro c hc
    have hmark := isMark_of_isUrlScheme hx c hc
    rw [isMark, Bool.or_eq_false_iff] at hmark
    exact hmark.2
  have huser' : ∀ c ∈ user, isSpace c = false := by
    intro c hc
    have h := huser c hc
    simp only [isUserChar, Bool.and_eq_true, Bool.not_eq_true'] at h
    exact h.1.2
  simp only [List.forall_mem_append, List.forall_mem_cons, List.not_mem_nil, false_imp_iff, implies_true, and_true]
  exact ⟨hscheme, by decide, by decide, by decide, huser', by decide⟩

/-- What stands behind white space does not matter for a match before it. -/
theorem isUrl_append {l y v key : List Char} {d : Char} {n : Nat} (hd : isSpace d = true) (hy : y ≠ []) :
    IsUrl l (y ++ d :: v) key n ↔ IsUrl l y key n := by
  have hhead : (y ++ d :: v).head? = y.head? := List.head?_append_of_ne_nil _ hy
  constructor
  · rintro ⟨hbound, x, user, r', hr, hx, hne, huser, hkey, hn⟩
    have hword : (x ++ ':' :: '/' :: '/' :: (user ++ ['@'])) ++ r' = (y ++ [d]) ++ v := by simpa using hr.symm
    obtain ⟨z, hz⟩ := prefix_of_not_mem (q := fun c => isSpace c = false) hword (not_isSpace_url hx huser)
      (List.mem_append_right y List.mem_cons_self) (by rw [hd]; decide)
    rcases List.eq_nil_or_concat z with rfl | ⟨z, e, rfl⟩
    · have hmem : d ∈ x ++ ':' :: '/' :: '/' :: (user ++ ['@']) := by
        rw [List.append_nil] at hz
        rw [← hz]
        simp
      rw [not_isSpace_url hx huser d hmem] at hd
      cases hd
    · rw [List.concat_eq_append, ← List.append_assoc] at hz
      obtain ⟨rfl, -⟩ := List.append_inj' hz rfl
      exact ⟨(matches_boundary_congr hhead).1 hbound, x, user, z, by simp, hx, hne, huser, hkey, hn⟩
  · rintro ⟨hbound, x, user, r', rfl, hx, hne, huser, hkey, hn⟩
    exact ⟨(matches_boundary_congr hhead).2 hbound, x, user, r' ++ d :: v, by simp, hx, hne, huser, hkey, hn⟩

theorem urlAux_cut {l u v : List Char} {d : Char} (hd : isSpace d = true) :
    urlAux l (u ++ d :: v) = urlAux l u ++ d :: urlAux [d] v := by
  have hcut := Grouped.replaceAux_cut (f := fun key _ => key ++ "[redacted]@".toList) (g := urlWithCredentialsPattern)
    (l := l) (u := u) (v := d :: v) fun x y hu hy => Option.ext fun ⟨key, n⟩ => by
      rw [url_first_iff, url_first_iff]
      exact isUrl_append hd hy
  have hcopy : ∀ key n, urlWithCredentialsPattern.first (u.reverse ++ l) (d :: v) ≠ some (key, n + 1) := by
    intro key n h
    obtain ⟨-, x, user, r', hr, hx, hne, huser, -, -⟩ := url_first_iff.1 h
    obtain ⟨c, y, rfl, hc, hy⟩ := hx
    obtain ⟨rfl, -⟩ := List.cons.inj hr
    have hmark := isMark_of_isLetterI hc
    rw [isMark_of_isSpace hd] at hmark
    cases hmark
  have hhead : (d :: (u.reverse ++ l)).head? = [d].head? := rfl
  have hsame : urlAux (d :: (u.reverse ++ l)) v = urlAux [d] v := urlAux_congr hhead v
  rw [urlAux, hcut, Grouped.replaceAux_copy hcopy]
  exact congrArg (fun out => urlAux l u ++ d :: out) hsame

/-- A URL has all of `://`. -/
theorem urlAux_of_not_mem {l u : List Char} {c : Char} (hc : c ∈ "://".toList) (hu : c ∉ u) : urlAux l u = u := by
  refine Grouped.replaceAux_of_no_match fun x w y hxy hM => ?_
  have hsep : Needs (· = c) (Regex.literal "://") := needs_literal hc rfl
  have hneeds : Needs (· = c) urlWithCredentialsPattern.regex := hsep.seq_right.seq_right.seq_left.seq_right
  obtain ⟨d, hd, rfl⟩ := hneeds _ _ _ hM
  exact hu (by rw [hxy]; simp [hd])

/-- A text without `@` at the end is as before. -/
theorem suffix_of_urlAux {l r x w : List Char} (h : urlAux l r = x ++ w) (hw : '@' ∉ w) :
    ∃ x', r = x' ++ w ∧ (x'.reverse ++ l).head? = (x.reverse ++ l).head? := by
  have hrewrites := Grouped.rewrites_replaceAux (g := urlWithCredentialsPattern) (fun key _ => key ++ "[redacted]@".toList) l r
  have hword : ∀ l w r key, w ≠ [] → urlWithCredentialsPattern.first l (w ++ r) = some (key, w.length) →
      ∃ w', w = w' ++ ['@'] := by
    intro l w r key _ hfirst
    obtain ⟨x, user, r', hr, -, -, -, -, hn⟩ := (url_first_iff.1 hfirst).split
    have hsplit : w ++ r = (x ++ ':' :: '/' :: '/' :: user ++ ['@']) ++ r' := by rw [hr]; simp
    refine ⟨x ++ ':' :: '/' :: '/' :: user, (List.append_inj hsplit ?_).1⟩
    rw [hn]
    simp
    omega
  obtain ⟨x', hr, hhead, -⟩ := hrewrites.suffix (d := '@')
    (fun key l m hm => ⟨key ++ "[redacted]".toList, by rw [hm, List.append_assoc]; rfl⟩) hword h hw
  exact ⟨x', hr, hhead⟩

end NginxAdmin.Web
