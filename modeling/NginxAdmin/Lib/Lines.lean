import NginxAdmin.Lib.NginxShape
import NginxAdmin.Lib.Text

/-!
# The lines of a text

A text as the list of its lines. Where runs of newlines are cut to two (`shortenFrom`), the lines that are not empty stay
as they are and in their order (`filled_shortenFrom`).
-/

namespace NginxAdmin.Text

open NginxConf

/-- `s.split("\n")`. -/
def lines (s : String) : List String := (s.toList.splitOn '\n').map String.ofList

/-- The lines that are not empty, in their order. -/
def filledLines (s : String) : List String := (lines s).filter fun line => line ≠ ""

/-- The same for the characters of the text. -/
def filled (cs : List Char) : List (List Char) := (cs.splitOn '\n').filter fun line => line ≠ []

variable {cs ds : List Char} {n : Nat}

theorem filledLines_eq (s : String) : filledLines s = (filled s.toList).map String.ofList := by
  simp [filledLines, lines, filled, List.filter_map, Function.comp_def]

theorem lines_of_toList {s : String} (h : s.toList = cs ++ '\n' :: ds) :
    lines s = lines (String.ofList cs) ++ lines (String.ofList ds) := by
  simp [lines, h, List.splitOn_append_cons_self]

theorem filled_newline (cs : List Char) : filled ('\n' :: cs) = filled cs := by
  simp [filled, List.splitOn_cons_eq_if_modifyHead]

theorem filled_append_newline (cs : List Char) : filled (cs ++ ['\n']) = filled cs := by
  simp [filled, List.splitOn_append_cons_self]

/-- The first line of a text, and the lines after it. -/
theorem exists_splitOn (cs : List Char) : ∃ l ls, cs.splitOn '\n' = l :: ls :=
  List.exists_cons_of_ne_nil (List.splitOn_ne_nil _ _)

theorem splitOn_cons {c : Char} (hc : c ≠ '\n') {l : List Char} {ls : List (List Char)} (h : cs.splitOn '\n' = l :: ls) :
    (c :: cs).splitOn '\n' = (c :: l) :: ls := by
  simp [List.splitOn_cons_eq_if_modifyHead, hc, h]

/-- Unless newlines are being dropped, the first line stays the first line. -/
theorem filled_shortenFrom_and (n : Nat) (cs : List Char) : filled (shortenFrom n cs) = filled cs ∧
    (n < 2 → ((shortenFrom n cs).splitOn '\n').head? = (cs.splitOn '\n').head?) := by
  induction cs generalizing n with
  | nil => simp [shortenFrom]
  | cons c cs ih =>
    by_cases hc : c = '\n'
    · subst hc
      by_cases hn : n < 2
      · have hcut : shortenFrom n ('\n' :: cs) = '\n' :: shortenFrom (n + 1) cs := by simp [shortenFrom, hn]
        rw [hcut, filled_newline, filled_newline]
        exact ⟨(ih (n + 1)).1, fun _ => by simp [List.splitOn_cons_eq_if_modifyHead]⟩
      · have hcut : shortenFrom n ('\n' :: cs) = shortenFrom n cs := by simp [shortenFrom, hn]
        rw [hcut, filled_newline]
        exact ⟨(ih n).1, fun h => absurd h hn⟩
    · obtain ⟨hfilled, hhead⟩ := ih 0
      obtain ⟨l, ls, hl⟩ := exists_splitOn (shortenFrom 0 cs)
      obtain ⟨l', ls', hl'⟩ := exists_splitOn cs
      have hfirst : l = l' := by simpa [hl, hl'] using hhead (by omega)
      subst hfirst
      rw [shortenFrom_cons_of_ne hc]
      refine ⟨?_, fun _ => by simp [splitOn_cons hc hl, splitOn_cons hc hl']⟩
      -- the first lines are the same, so those after them are
      have hrest : ls.filter (fun line => line ≠ []) = ls'.filter fun line => line ≠ [] := by
        unfold filled at hfilled
        rw [hl, hl', List.filter_cons, List.filter_cons] at hfilled
        split at hfilled
        · exact List.tail_eq_of_cons_eq hfilled
        · exact hfilled
      simp only [filled, splitOn_cons hc hl, splitOn_cons hc hl', List.filter_cons, hrest]

theorem filled_shortenFrom (n : Nat) (cs : List Char) : filled (shortenFrom n cs) = filled cs :=
  (filled_shortenFrom_and n cs).1

/-- After `n` newlines there are at most `2 - n` more. -/
theorem not_prefix_shortenFrom (hn : n ≤ 2) (cs : List Char) : ¬ List.replicate (3 - n) '\n' <+: shortenFrom n cs := by
  induction cs generalizing n with
  | nil =>
    have hne : List.replicate (3 - n) '\n' ≠ [] := by simp; omega
    simpa [shortenFrom] using hne
  | cons c cs ih =>
    have hmore : List.replicate (3 - n) '\n' = '\n' :: List.replicate (3 - (n + 1)) '\n' := by
      rw [← List.replicate_succ]
      congr 1
      omega
    rw [shortenFrom]
    split
    next hc =>
      split
      next hlt =>
        rw [hmore, hc, List.cons_prefix_cons]
        exact fun h => ih (by omega) h.2
      next => exact ih hn
    next hc =>
      rw [hmore, List.cons_prefix_cons]
      exact fun h => hc h.1.symm

theorem not_infix_shortenFrom (hn : n ≤ 2) (cs : List Char) : ¬ ['\n', '\n', '\n'] <:+: shortenFrom n cs := by
  induction cs generalizing n with
  | nil => simp [shortenFrom]
  | cons c cs ih =>
    rw [shortenFrom]
    split
    next hc =>
      split
      next hlt =>
        rw [hc, List.infix_cons_iff, List.cons_prefix_cons]
        rintro (⟨-, hprefix⟩ | hinfix)
        · have hshort : List.replicate (3 - (n + 1)) '\n' <+: List.replicate 2 '\n' :=
            ⟨List.replicate n '\n', by rw [List.replicate_append_replicate]; congr 1; omega⟩
          exact not_prefix_shortenFrom (by omega) cs (hshort.trans hprefix)
        · exact ih (by omega) hinfix
      next => exact ih hn
    next hc =>
      rw [List.infix_cons_iff, List.cons_prefix_cons]
      rintro (⟨hhead, -⟩ | hinfix)
      · exact hc hhead.symm
      · exact ih (by omega) hinfix

/-- A text that ends in a newline still does. -/
theorem shortenFrom_append_newline (cs : List Char) (hn : n < 2) : ∃ ds, shortenFrom n (cs ++ ['\n']) = ds ++ ['\n'] := by
  suffices h : ∀ n, (∃ ds, shortenFrom n (cs ++ ['\n']) = ds ++ ['\n']) ∨
      2 ≤ n ∧ shortenFrom n (cs ++ ['\n']) = [] by
    rcases h n with h | ⟨hle, -⟩
    · exact h
    · omega
  induction cs with
  | nil =>
    intro n
    by_cases hn : n < 2
    · exact .inl ⟨[], by simp [shortenFrom, hn]⟩
    · exact .inr ⟨by omega, by simp [shortenFrom, hn]⟩
  | cons c cs ih =>
    intro n
    rw [List.cons_append, shortenFrom]
    split
    · split
      next hlt =>
        rcases ih (n + 1) with ⟨ds, hds⟩ | ⟨-, hnil⟩
        · exact .inl ⟨c :: ds, by rw [hds]; rfl⟩
        · rename_i hc
          exact .inl ⟨[], by rw [hnil, hc]; rfl⟩
      next => exact ih n
    · rcases ih 0 with ⟨ds, hds⟩ | ⟨hle, -⟩
      · exact .inl ⟨c :: ds, by rw [hds]; rfl⟩
      · omega

end NginxAdmin.Text
