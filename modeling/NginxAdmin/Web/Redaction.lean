import NginxAdmin.Lib.Replace
import NginxAdmin.Web.Secrets

/-!
# What a redaction puts into a text

The six passes of `redactPotentialSecrets`. `insertsMarkers_iff`: a pass with a group puts a known marker in the place of
every match; a pass without one does so only for a match at the start of the text, since its callback takes the offset of
the match for a key.
-/

namespace NginxAdmin.Web

open Regex

def urlPass (value : String) : String := urlWithCredentialsPattern.replace (fun key _ => key ++ "[redacted]@".toList) value

def authorizationPass (value : String) : String := authorizationPattern.replace redactKeyed value

def cookiePass (value : String) : String := cookiePattern.replace redactKeyed value

def assignedPass (value : String) : String := assignedPattern.replace redactKeyed value

def bearerPass (value : String) : String := bearerPattern.replace redactPlain value

def privateKeyPass (value : String) : String := privateKeyPattern.replace redactPlain value

/-- The passes whose patterns have a group. -/
def keyedPasses (value : String) : String := assignedPass (cookiePass (authorizationPass (urlPass value)))

theorem redactPotentialSecrets_eq (value : String) :
    redactPotentialSecrets value = privateKeyPass (bearerPass (keyedPasses value)) := rfl

/-- What may stand in the place of a match whose group captured `key`; a pattern without a group captures nothing. -/
inductive Marker (key : List Char) : List Char → Prop where
  | plain : Marker key "[redacted]".toList
  | keyed (hkey : key ≠ []) : Marker key (key ++ "=[redacted]".toList)
  | url {scheme : List Char} (hkey : key = scheme ++ "://".toList) : Marker key (key ++ "[redacted]@".toList)

/-- In every match that the pass finds a marker is put, and the rest is copied. -/
def Marks (g : Grouped) (before after : String) : Prop :=
  g.Rewrites (fun key _ marker => Marker key marker) [] before.toList after.toList

structure InsertsMarkers (value : String) : Prop where
  url : Marks urlWithCredentialsPattern value (urlPass value)
  authorization : Marks authorizationPattern (urlPass value) (authorizationPass (urlPass value))
  cookie : Marks cookiePattern (authorizationPass (urlPass value)) (cookiePass (authorizationPass (urlPass value)))
  assigned : Marks assignedPattern (cookiePass (authorizationPass (urlPass value))) (keyedPasses value)
  bearer : Marks bearerPattern (keyedPasses value) (bearerPass (keyedPasses value))
  privateKey : Marks privateKeyPattern (bearerPass (keyedPasses value)) (redactPotentialSecrets value)

theorem marks_replace {g : Grouped} {f : List Char → List Char → List Char}
    (h : ∀ key l w r, g.first l (w ++ r) = some (key, w.length) → Marker key (f key l)) (s : String) :
    Marks g s (g.replace f s) := by
  rw [Marks, Grouped.replace, String.toList_ofList]
  refine (Grouped.rewrites_replaceAux f [] s.toList).mono fun key l m w r hfirst hm => ?_
  rw [hm]
  exact h key l w r hfirst

/-- The callback for a pattern with a group that is never empty. -/
theorem marks_keyed {g : Grouped} (hkey : Needs (fun _ => True) g.key) (s : String) : Marks g s (g.replace redactKeyed s) := by
  refine marks_replace (fun key l w r hfirst => .keyed ?_) s
  obtain ⟨w₁, w₃, r', -, -, -, hM, -⟩ := Grouped.first_spec hfirst
  obtain ⟨c, hc, -⟩ := hkey _ _ _ hM
  exact List.ne_nil_of_mem hc

theorem needs_literalI {s : String} (h : s.toList ≠ []) : Needs (fun _ => True) (literalI s) := by
  obtain ⟨c, cs, hcs⟩ := List.exists_cons_of_ne_nil h
  rw [literalI, hcs]
  exact Needs.seq_left (needs_char fun _ _ => trivial)

theorem needs_assignedKey : Needs (fun _ => True) assignedPattern.key := by
  refine needs_alts fun a ha => ?_
  simp only [List.mem_cons, List.not_mem_nil, or_false] at ha
  rcases ha with rfl | rfl | rfl | rfl | rfl | rfl | rfl | rfl | rfl | rfl | rfl | rfl
  · exact (needs_literalI (by decide)).seq_left
  · exact (needs_literalI (by decide)).seq_left
  · exact (needs_literalI (by decide)).seq_left
  · exact needs_literalI (by decide)
  · exact needs_literalI (by decide)
  · exact needs_literalI (by decide)
  · exact needs_literalI (by decide)
  · exact (needs_literalI (by decide)).seq_left
  · exact needs_literalI (by decide)
  · exact needs_literalI (by decide)
  · exact needs_literalI (by decide)
  · exact needs_literalI (by decide)

/-- The group of the URL pattern ends in `://`. -/
theorem marks_url (s : String) : Marks urlWithCredentialsPattern s (urlPass s) := by
  refine marks_replace (fun key l w r hfirst => ?_) s
  obtain ⟨w₁, w₃, r', -, -, -, ⟨w₄, w₅, rfl, -, w₆, w₇, rfl, -, hsep⟩, -⟩ := Grouped.first_spec hfirst
  obtain rfl := matches_literal.1 hsep
  exact .url (List.append_assoc ..).symm

/-! ### The passes without a group -/

theorem utf16Length_eq_zero {cs : List Char} : utf16Length cs = 0 ↔ cs = [] := by
  cases cs with
  | nil => exact iff_of_true rfl rfl
  | cons c cs =>
    refine iff_of_false ?_ (List.cons_ne_nil c cs)
    rw [utf16Length, List.map_cons, List.sum_cons]
    split <;> omega

/-- An offset starts with a digit, a marker does not. -/
theorem redactPlain_ne {key l x m : List Char} (hl : l ≠ []) : redactPlain key l ++ x ≠ "[redacted]".toList ++ m := by
  intro h
  have hoffset : utf16Length l ≠ 0 := mt utf16Length_eq_zero.1 hl
  rw [redactPlain, if_neg hoffset] at h
  obtain ⟨d, ds, hds⟩ := List.exists_cons_of_ne_nil (Nat.toDigits_ne_nil (n := utf16Length l) (b := 10))
  have hdigit : d.isDigit = true :=
    Nat.isDigit_of_mem_toDigits (by decide) (by decide) (hds ▸ List.mem_cons_self)
  have htext : (toString (utf16Length l)).toList = d :: ds := by
    rw [← hds]
    exact Nat.toList_repr
  rw [htext] at h
  obtain rfl : d = '[' := (List.cons.inj h).1
  exact absurd hdigit (by decide)

theorem marker_nil_iff {m : List Char} : Marker [] m ↔ m = "[redacted]".toList := by
  constructor
  · intro h
    cases h with
    | plain => rfl
    | keyed hkey => exact absurd rfl hkey
    | url hkey => exact absurd (congrArg List.length hkey) (by simp)
  · rintro rfl
    exact .plain

theorem marks_plain_iff {g : Grouped} (hkey : g.key = nil) (s : String) :
    Marks g s (g.replace redactPlain s) ↔ ∀ p ∈ g.found s, p.2 = [] := by
  have hnil {l r key : List Char} {n : Nat} (hfirst : g.first l r = some (key, n)) : key = [] := by
    obtain ⟨w₁, w₃, r', -, -, -, hM, -⟩ := Grouped.first_spec hfirst
    rw [hkey] at hM
    exact hM
  rw [Marks, Grouped.replace, String.toList_ofList, Grouped.rewrites_replaceAux_iff]
  · refine forall_congr' fun p => forall_congr' fun hp => ?_
    obtain ⟨r', n, hfirst⟩ := Grouped.first_of_mem_foundAux hp
    rw [hnil hfirst, marker_nil_iff]
    constructor
    · intro h
      by_contra hne
      exact redactPlain_ne hne (congrArg (· ++ []) h)
    · intro h
      rw [h]
      rfl
  · intro key l m w r x y hfirst hm heq
    obtain rfl := hnil hfirst
    obtain rfl := marker_nil_iff.1 hm
    by_cases hl : l = []
    · subst hl
      rfl
    · exact absurd heq (redactPlain_ne hl)

/-- Only markers are inserted, exactly when the passes without a group find no match behind the start of their texts. -/
theorem insertsMarkers_iff (value : String) : InsertsMarkers value ↔
    (∀ p ∈ bearerPattern.found (keyedPasses value), p.2 = []) ∧
      (∀ p ∈ privateKeyPattern.found (bearerPass (keyedPasses value)), p.2 = []) := by
  have hcookie : Needs (fun _ => True) cookiePattern.key :=
    (needs_literalI (by decide)).alt (needs_literalI (by decide))
  constructor
  · intro h
    exact ⟨(marks_plain_iff rfl _).1 h.bearer, (marks_plain_iff rfl _).1 h.privateKey⟩
  · rintro ⟨hbearer, hprivate⟩
    exact {
      url := marks_url _
      authorization := marks_keyed (needs_literalI (by decide)) _
      cookie := marks_keyed hcookie _
      assigned := marks_keyed needs_assignedKey _
      bearer := (marks_plain_iff rfl _).2 hbearer
      privateKey := (marks_plain_iff rfl _).2 hprivate }

/-- The offset gets into the text. -/
theorem offset_inserted : redactPotentialSecrets "x bearer abc" = "x 2=[redacted]" ∧ ¬ InsertsMarkers "x bearer abc" := by
  refine ⟨by decide +kernel, fun h => ?_⟩
  have hfound : bearerPattern.found (keyedPasses "x bearer abc") = [([], [' ', 'x'])] := by decide +kernel
  have hstart := (marks_plain_iff rfl _).1 h.bearer ([], [' ', 'x']) (hfound ▸ List.mem_singleton_self _)
  cases hstart

end NginxAdmin.Web
