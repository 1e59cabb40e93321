import NginxAdmin.Lib.IsoDate
import NginxAdmin.Web.Secrets

/-!
# The texts of dates under the redaction

A time is written with digits, signs, colons, a point and the letters `T` and `Z`. No secret pattern is found in such a text:
each has a letter of its key, or a slash.
-/

namespace NginxAdmin.Web

open Regex

def isoChars : List Char := "0123456789+-:.TZ".toList

theorem pad_isoChars (w n : Nat) : ∀ c ∈ IsoDate.pad w n, c ∈ isoChars := by
  have hdigit : ∀ d < 10, Char.ofNat (48 + d) ∈ isoChars := by decide
  induction w generalizing n with
  | zero => exact List.forall_mem_nil _
  | succ w ih =>
    intro c hc
    rcases List.mem_append.1 hc with hc | hc
    · exact ih _ c hc
    · rw [List.mem_singleton.1 hc]
      exact hdigit _ (Nat.mod_lt n (by decide))

theorem isoText_isoChars (t : Int) : ∀ c ∈ IsoDate.isoText t, c ∈ isoChars := by
  have hyear : ∀ c ∈ IsoDate.yearText (IsoDate.civil (t / 86400000)).year, c ∈ isoChars := by
    intro c hc
    rw [IsoDate.yearText] at hc
    split at hc
    · exact pad_isoChars _ _ c hc
    · rcases List.mem_cons.1 hc with rfl | hc
      · split <;> decide
      · exact pad_isoChars _ _ c hc
  rw [IsoDate.isoText]
  simp only [List.forall_mem_append, List.forall_mem_cons]
  refine ⟨hyear, ⟨by decide, pad_isoChars _ _⟩, ⟨by decide, pad_isoChars _ _⟩, ⟨by decide, pad_isoChars _ _⟩,
    ⟨by decide, pad_isoChars _ _⟩, ⟨by decide, pad_isoChars _ _⟩, ⟨by decide, pad_isoChars _ _⟩, by decide, by simp⟩

/-- A word with a letter that dates do not have. -/
theorem needs_word {s : String} (c : Char) (hc : c ∈ s.toList) (h : isoChars.all (fun d => foldI d != c) = true) :
    Needs (· ∉ isoChars) (literalI s) := by
  refine needs_literalI_of_mem hc fun d hd hmem => ?_
  have hne := List.all_eq_true.1 h d hmem
  rw [hd, bne_self_eq_false] at hne
  cases hne

theorem needs_assignedKey_word : Needs (· ∉ isoChars) assignedPattern.key := by
  have haccess : Needs (· ∉ isoChars) (literalI "access") := needs_word 'a' (by decide) (by decide)
  have hrefresh : Needs (· ∉ isoChars) (literalI "refresh") := needs_word 'r' (by decide) (by decide)
  have hapi : Needs (· ∉ isoChars) (literalI "api") := needs_word 'a' (by decide) (by decide)
  have hprivate : Needs (· ∉ isoChars) (literalI "private") := needs_word 'p' (by decide) (by decide)
  refine needs_alts fun a ha => ?_
  simp only [List.mem_cons, List.not_mem_nil, or_false] at ha
  rcases ha with rfl | rfl | rfl | rfl | rfl | rfl | rfl | rfl | rfl | rfl | rfl | rfl
  · exact haccess.seq_left
  · exact hrefresh.seq_left
  · exact hapi.seq_left
  · exact needs_word 'o' (by decide) (by decide)
  · exact needs_word 's' (by decide) (by decide)
  · exact needs_word 'p' (by decide) (by decide)
  · exact needs_word 'p' (by decide) (by decide)
  · exact hprivate.seq_left
  · exact needs_word 'a' (by decide) (by decide)
  · exact needs_word 'c' (by decide) (by decide)
  · exact needs_word 'j' (by decide) (by decide)
  · exact needs_word 's' (by decide) (by decide)

theorem redact_of_isoChars {s : String} (h : ∀ c ∈ s.toList, c ∈ isoChars) : redactPotentialSecrets s = s := by
  have hslash : Needs (· ∉ isoChars) (Regex.literal "://") := needs_literal (c := '/') (by decide) (by decide)
  have hauthorization : Needs (· ∉ isoChars) authorizationPattern.key := needs_word 'a' (by decide) (by decide)
  have hcookie : Needs (· ∉ isoChars) cookiePattern.key :=
    Needs.alt (needs_word 'c' (by decide) (by decide)) (needs_word 'c' (by decide) (by decide))
  have hbearer : Needs (· ∉ isoChars) (literalI "bearer") := needs_word 'b' (by decide) (by decide)
  have hbegin : Needs (· ∉ isoChars) (Regex.literal "-----BEGIN ") := needs_literal (c := 'B') (by decide) (by decide)
  exact redact_of_needs hslash.seq_right.seq_right.seq_left.seq_right hauthorization.seq_left.seq_right
    hcookie.seq_left.seq_right needs_assignedKey_word.seq_left.seq_right hbearer.seq_left.seq_right.seq_right.seq_right
    hbegin.seq_left.seq_right.seq_right fun c hc hn => hn (h c hc)

theorem redact_toISOString (t : Int) : redactPotentialSecrets (Js.Dates.iso.toISOString t) = Js.Dates.iso.toISOString t :=
  redact_of_isoChars fun c hc => isoText_isoChars t c (by rwa [Js.Dates.iso, String.toList_ofList] at hc)

theorem toISOString_ne (t : Int) : Js.Dates.iso.toISOString t ≠ "" := by
  intro h
  have hnil : IsoDate.isoText t = [] := String.ofList_eq_empty_iff.1 h
  rw [IsoDate.isoText] at hnil
  simp at hnil

end NginxAdmin.Web
