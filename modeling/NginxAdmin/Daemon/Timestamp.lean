import Mathlib.Algebra.Ring.Nat
import NginxAdmin.Daemon.Apply

/-!
# Texts of points in time

The dates of the daemon's texts: the names of archives (`snapshotId_inj`: the name gives the second back) and
the RFC 3339 text of a `DateTime` in `state.json`.
-/

namespace NginxAdmin.Daemon

/-- The year of the era, and the day of that year, of a day of a 400-year era. -/
theorem dayOfEra_bounds {doe yoe : Nat} (h : doe < 146097)
    (hy : yoe = (doe - doe / 1460 + doe / 36524 - doe / 146096) / 365) :
    yoe ≤ 399 ∧ 365 * yoe + yoe / 4 - yoe / 100 ≤ doe ∧ doe ≤ 365 + (365 * yoe + yoe / 4 - yoe / 100) := by
  refine ⟨by omega, ?_⟩
  by_cases hlast : doe = 146096
  · subst hlast hy
    decide
  have hnone : doe / 146096 = 0 := by omega
  rw [hnone] at hy
  have hleaps : doe / 1460 = yoe / 4 ∨ doe / 1460 = yoe / 4 + 1 := by omega
  -- one case for each century, whose number is fixed then
  have hcentury : doe / 36524 = 0 ∨ doe / 36524 = 1 ∨ doe / 36524 = 2 ∨ doe / 36524 = 3 ∨ doe / 36524 = 4 := by omega
  rcases hcentury with hb | hb | hb | hb | hb <;> rw [hb] at hy
  · have : yoe / 100 = 0 := by omega
    omega
  · have : yoe / 100 = 1 := by omega
    omega
  · have : yoe / 100 = 2 := by omega
    omega
  · have : yoe / 100 = 3 := by omega
    omega
  · omega

theorem civilFromDays_bounds (days : Nat) : (civilFromDays days).2.1 < 100 ∧ (civilFromDays days).2.2 < 100 := by
  obtain ⟨-, -, hle⟩ := dayOfEra_bounds (Nat.mod_lt (days + 719468) (by decide : 0 < 146097)) rfl
  simp only [civilFromDays]
  constructor
  · split <;> omega
  · omega

theorem civilFromDays_inj {a b : Nat} (h : civilFromDays a = civilFromDays b) : a = b := by
  obtain ⟨hya, hla, hra⟩ := dayOfEra_bounds (Nat.mod_lt (a + 719468) (by decide : 0 < 146097)) rfl
  obtain ⟨hyb, hlb, hrb⟩ := dayOfEra_bounds (Nat.mod_lt (b + 719468) (by decide : 0 < 146097)) rfl
  have hdiva := Nat.div_add_mod (a + 719468) 146097
  have hdivb := Nat.div_add_mod (b + 719468) 146097
  simp only [civilFromDays, Prod.mk.injEq] at h
  generalize (a + 719468) % 146097 = doea at *
  generalize (b + 719468) % 146097 = doeb at *
  generalize (doea - doea / 1460 + doea / 36524 - doea / 146096) / 365 = yoea at *
  generalize (doeb - doeb / 1460 + doeb / 36524 - doeb / 146096) / 365 = yoeb at *
  generalize hdoya : doea - (365 * yoea + yoea / 4 - yoea / 100) = doya at *
  generalize hdoyb : doeb - (365 * yoeb + yoeb / 4 - yoeb / 100) = doyb at *
  obtain ⟨hyear, hmonth, hday⟩ := h
  -- the months from March on, then the day of the year, then the year
  have hmp : (5 * doya + 2) / 153 = (5 * doyb + 2) / 153 := by
    have hma : (5 * doya + 2) / 153 ≤ 11 := by omega
    have hmb : (5 * doyb + 2) / 153 ≤ 11 := by omega
    generalize (5 * doya + 2) / 153 = mpa at *
    generalize (5 * doyb + 2) / 153 = mpb at *
    split at hmonth <;> split at hmonth <;> omega
  have hdoy : doya = doyb := by rw [hmp] at hday; omega
  rw [hmp] at hyear
  have hyoe : yoea = yoeb := by omega
  subst hyoe hdoy
  omega

theorem ofDigitChars_padLeft (width n : Nat) : Nat.ofDigitChars 10 (padLeft width n).toList 0 = n := by
  simp [padLeft, Nat.ofDigitChars_append, Nat.ofDigitChars_replicate_zero]

theorem padLeft_inj {width a b : Nat} (h : padLeft width a = padLeft width b) : a = b := by
  rw [← ofDigitChars_padLeft width a, h, ofDigitChars_padLeft]

theorem length_padLeft {width n : Nat} (hw : 0 < width) (h : n < 10 ^ width) :
    (padLeft width n).toList.length = width := by
  have hdigits : (toString n).length ≤ width := (Nat.length_repr_le_iff hw).2 h
  rw [padLeft, String.toList_append, List.length_append, String.toList_ofList, List.length_replicate,
    String.length_toList]
  omega

/-- A year of more than four digits is told apart from the others by its sign. -/
theorem formatYear_inj {a b : Nat} (h : formatYear a = formatYear b) : a = b := by
  have hsign : ∀ {n m : Nat}, n ≤ 9999 → padLeft 4 n ≠ "+" ++ toString m := by
    intro n m hn he
    have hplus : '+' ∈ (padLeft 4 n).toList := by rw [he]; simp
    rw [padLeft, String.toList_append, String.toList_ofList, List.mem_append, List.mem_replicate] at hplus
    rcases hplus with ⟨-, hc⟩ | hc
    · exact absurd hc (by decide)
    · have hdigit := Nat.isDigit_of_mem_toDigits (b := 10) (n := n) (by decide) (by decide) (by simpa using hc)
      exact absurd hdigit (by decide)
  unfold formatYear at h
  split at h <;> split at h
  · exact padLeft_inj h
  · exact absurd h (hsign ‹_›)
  · exact absurd h.symm (hsign ‹_›)
  · have hdigits : toString a = toString b := by simpa using h
    rw [← Nat.ofDigitChars_ten_toDigits (n := a), ← Nat.toList_repr, ← Nat.toString_eq_repr, hdigits]
    simp

theorem append_padLeft_inj {s s' : String} {a b : Nat} (ha : a < 100) (hb : b < 100)
    (h : s ++ padLeft 2 a = s' ++ padLeft 2 b) : s = s' ∧ a = b := by
  have hlist := congrArg String.toList h
  rw [String.toList_append, String.toList_append] at hlist
  have hlen : (padLeft 2 a).toList.length = (padLeft 2 b).toList.length := by
    rw [length_padLeft (by decide) ha, length_padLeft (by decide) hb]
  obtain ⟨hs, hpad⟩ := List.append_inj' hlist hlen
  exact ⟨String.toList_inj.1 hs, padLeft_inj (String.toList_inj.1 hpad)⟩

theorem snapshotId_eq {now : DateTime} {secs : Nat} (hs : now / 1000000000 = secs) {date : Nat × Nat × Nat}
    (hc : civilFromDays (secs / 86400) = date) :
    snapshotId now = formatYear date.1 ++ padLeft 2 date.2.1 ++ padLeft 2 date.2.2 ++
      padLeft 2 (secs / 3600 % 24) ++ padLeft 2 (secs / 60 % 60) ++ padLeft 2 (secs % 60) := by
  simp only [snapshotId, hs, hc]

theorem snapshotId_fields {y y' m m' d d' h h' i i' s s' : Nat} (hm : m < 100 ∧ m' < 100) (hd : d < 100 ∧ d' < 100)
    (hh : h < 100 ∧ h' < 100) (hi : i < 100 ∧ i' < 100) (hs : s < 100 ∧ s' < 100)
    (he : formatYear y ++ padLeft 2 m ++ padLeft 2 d ++ padLeft 2 h ++ padLeft 2 i ++ padLeft 2 s =
      formatYear y' ++ padLeft 2 m' ++ padLeft 2 d' ++ padLeft 2 h' ++ padLeft 2 i' ++ padLeft 2 s') :
    (y, m, d) = (y', m', d') ∧ h = h' ∧ i = i' ∧ s = s' := by
  have hsec := append_padLeft_inj hs.1 hs.2 he
  have hmin := append_padLeft_inj hi.1 hi.2 hsec.1
  have hhour := append_padLeft_inj hh.1 hh.2 hmin.1
  have hday := append_padLeft_inj hd.1 hd.2 hhour.1
  have hmonth := append_padLeft_inj hm.1 hm.2 hday.1
  exact ⟨by rw [formatYear_inj hmonth.1, hmonth.2, hday.2], hhour.2, hmin.2, hsec.2⟩

theorem secs_eq {a b : Nat} (hday : a / 86400 = b / 86400) (hhour : a / 3600 % 24 = b / 3600 % 24)
    (hmin : a / 60 % 60 = b / 60 % 60) (hsec : a % 60 = b % 60) : a = b := by omega

theorem snapshotId_inj {n m : DateTime} (h : snapshotId n = snapshotId m) :
    n / 1000000000 = m / 1000000000 := by
  generalize ha : n / 1000000000 = a
  generalize hb : m / 1000000000 = b
  have hca := civilFromDays_bounds (a / 86400)
  have hcb := civilFromDays_bounds (b / 86400)
  rw [snapshotId_eq ha rfl, snapshotId_eq hb rfl] at h
  obtain ⟨hdate, hhour, hmin, hsec⟩ := snapshotId_fields ⟨hca.1, hcb.1⟩ ⟨hca.2, hcb.2⟩ (by omega) (by omega)
    (by omega) h
  exact secs_eq (civilFromDays_inj hdate) hhour hmin hsec

/-! ### RFC 3339 -/

/-- The fraction of a second: none, or three, six or nine digits. -/
def formatFraction (nanos : Nat) : String :=
  if nanos = 0 then ""
  else if nanos % 1000000 = 0 then "." ++ padLeft 3 (nanos / 1000000)
  else if nanos % 1000 = 0 then "." ++ padLeft 6 (nanos / 1000)
  else "." ++ padLeft 9 nanos

/-- The text of a `DateTime<Utc>` as `chrono` serialises it. -/
def formatRfc3339 (t : DateTime) : String :=
  let secs := t / 1000000000
  let (year, month, day) := civilFromDays (secs / 86400)
  formatYear year ++ "-" ++ padLeft 2 month ++ "-" ++ padLeft 2 day ++ "T" ++ padLeft 2 (secs / 3600 % 24) ++ ":" ++
    padLeft 2 (secs / 60 % 60) ++ ":" ++ padLeft 2 (secs % 60) ++ formatFraction (t % 1000000000) ++ "Z"

/-- The day of a date, counted from 1970-01-01. -/
def daysFromCivil (year month day : Nat) : Nat :=
  let y := if month ≤ 2 then year - 1 else year
  let mp := if month ≤ 2 then month + 9 else month - 3
  let yoe := y % 400
  let doy := (153 * mp + 2) / 5 + day - 1
  y / 400 * 146097 + (365 * yoe + yoe / 4 - yoe / 100 + doy) - 719468

/-- A number and the text after it. -/
def readNumber (cs : List Char) : Option (Nat × List Char) :=
  let digits := cs.takeWhile Char.isDigit
  if digits = [] then none else some (Nat.ofDigitChars 10 digits 0, cs.dropWhile Char.isDigit)

/-- A number after the character `c`. -/
def readAfter (c : Char) : List Char → Option (Nat × List Char)
  | [] => none
  | d :: cs => if d = c then readNumber cs else none

def readYear : List Char → Option (Nat × List Char)
  | '+' :: cs => readNumber cs
  | cs => readNumber cs

/-- The nanoseconds of the fraction, and the text after it. -/
def readFraction : List Char → Option (Nat × List Char)
  | '.' :: cs =>
    let digits := cs.takeWhile Char.isDigit
    if digits = [] ∨ 9 < digits.length then none
    else some (Nat.ofDigitChars 10 digits 0 * 10 ^ (9 - digits.length), cs.dropWhile Char.isDigit)
  | cs => some (0, cs)

/-- Reads the texts that `formatRfc3339` gives. -/
def parseRfc3339 (s : String) : Option DateTime := do
  let (year, cs) ← readYear s.toList
  let (month, cs) ← readAfter '-' cs
  let (day, cs) ← readAfter '-' cs
  let (hour, cs) ← readAfter 'T' cs
  let (minute, cs) ← readAfter ':' cs
  let (second, cs) ← readAfter ':' cs
  let (nanos, cs) ← readFraction cs
  if cs = ['Z'] then
    some ((daysFromCivil year month day * 86400 + hour * 3600 + minute * 60 + second) * 1000000000 + nanos)
  else none

theorem daysFromCivil_march {yoe era doy mp : Nat} (hyoe : yoe ≤ 399) (hdoy : doy ≤ 365)
    (hm : (5 * doy + 2) / 153 = mp) :
    daysFromCivil (yoe + era * 400 + (if (if mp < 10 then mp + 3 else mp - 9) ≤ 2 then 1 else 0))
      (if mp < 10 then mp + 3 else mp - 9) (doy - (153 * mp + 2) / 5 + 1) =
      era * 146097 + (365 * yoe + yoe / 4 - yoe / 100 + doy) - 719468 := by
  have hyear : (yoe + era * 400) / 400 = era ∧ (yoe + era * 400) % 400 = yoe := by omega
  have hday : (153 * mp + 2) / 5 + (doy - (153 * mp + 2) / 5 + 1) - 1 = doy := by omega
  unfold daysFromCivil
  by_cases h : mp < 10
  · have hmonth : ¬ mp + 3 ≤ 2 := by omega
    simp only [h, hmonth, if_true, if_false, Nat.add_zero, hyear, Nat.add_sub_cancel, hday]
  · have hmonth : mp - 9 ≤ 2 := by omega
    have hmp : mp - 9 + 9 = mp := by omega
    simp only [h, hmonth, hmp, if_true, if_false, Nat.add_sub_cancel, hyear, hday]

theorem daysFromCivil_civilFromDays (days : Nat) :
    daysFromCivil (civilFromDays days).1 (civilFromDays days).2.1 (civilFromDays days).2.2 = days := by
  obtain ⟨hyoe, hle, hlt⟩ := dayOfEra_bounds (Nat.mod_lt (days + 719468) (by decide : 0 < 146097)) (Eq.refl _)
  have hdiv := Nat.div_add_mod (days + 719468) 146097
  simp only [civilFromDays]
  rw [daysFromCivil_march hyoe (by omega) rfl]
  generalize (days + 719468) % 146097 = doe at *
  generalize (days + 719468) / 146097 = era at *
  generalize (doe - doe / 1460 + doe / 36524 - doe / 146096) / 365 = yoe at *
  omega

theorem isDigit_padLeft (width n : Nat) : ∀ c ∈ (padLeft width n).toList, c.isDigit = true := by
  intro c h
  rw [padLeft, String.toList_append, String.toList_ofList, List.mem_append, List.mem_replicate] at h
  rcases h with ⟨-, rfl⟩ | h
  · decide
  · exact Nat.isDigit_of_mem_toDigits (b := 10) (n := n) (by decide) (by decide) (by simpa using h)

theorem padLeft_ne_nil (width n : Nat) : (padLeft width n).toList ≠ [] := by
  simp [padLeft, Nat.toDigits_ne_nil]

theorem takeWhile_digits {ds : List Char} (hds : ∀ c ∈ ds, c.isDigit = true) {c : Char} (hc : c.isDigit = false)
    (cs : List Char) : (ds ++ c :: cs).takeWhile Char.isDigit = ds := by
  rw [List.takeWhile_append_of_pos hds, List.takeWhile_cons_of_neg (by simp [hc]), List.append_nil]

theorem dropWhile_digits {ds : List Char} (hds : ∀ c ∈ ds, c.isDigit = true) {c : Char} (hc : c.isDigit = false)
    (cs : List Char) : (ds ++ c :: cs).dropWhile Char.isDigit = c :: cs := by
  rw [List.dropWhile_append_of_pos hds, List.dropWhile_cons_of_neg (by simp [hc])]

theorem readNumber_padLeft (width n : Nat) {c : Char} (hc : c.isDigit = false) (cs : List Char) :
    readNumber ((padLeft width n).toList ++ c :: cs) = some (n, c :: cs) := by
  have htake := takeWhile_digits (isDigit_padLeft width n) hc cs
  have hdrop := dropWhile_digits (isDigit_padLeft width n) hc cs
  simp only [readNumber, htake, hdrop, if_neg (padLeft_ne_nil width n), ofDigitChars_padLeft]

theorem padLeft_zero (n : Nat) : padLeft 0 n = toString n := by
  simp [padLeft]

theorem readYear_formatYear (year : Nat) (cs : List Char) :
    readYear ((formatYear year).toList ++ '-' :: cs) = some (year, '-' :: cs) := by
  unfold formatYear
  split
  · have hdigit := readNumber_padLeft 4 year (by decide : '-'.isDigit = false) cs
    cases hd : (padLeft 4 year).toList with
    | nil => exact absurd hd (padLeft_ne_nil 4 year)
    | cons d ds =>
      have hplus : d ≠ '+' := by
        rintro rfl
        exact absurd (isDigit_padLeft 4 year '+' (by rw [hd]; exact List.mem_cons_self)) (by decide)
      rw [hd] at hdigit
      unfold readYear
      split
      · simp_all
      · exact hdigit
  · have hplus : ("+" ++ padLeft 0 year).toList = '+' :: (padLeft 0 year).toList := by simp
    rw [← padLeft_zero, hplus, List.cons_append]
    unfold readYear
    exact readNumber_padLeft 0 year (by decide) cs

theorem readFraction_formatFraction {nanos : Nat} (h : nanos < 1000000000) :
    readFraction ((formatFraction nanos).toList ++ ['Z']) = some (nanos, ['Z']) := by
  have hdigits : ∀ {width n : Nat}, 0 < width → width ≤ 9 → n < 10 ^ width → 
      readFraction (("." ++ padLeft width n).toList ++ ['Z']) = some (n * 10 ^ (9 - width), ['Z']) := by
    intro width n hw hw9 hn
    have htake := takeWhile_digits (isDigit_padLeft width n) (by decide : 'Z'.isDigit = false) []
    have hdrop := dropWhile_digits (isDigit_padLeft width n) (by decide : 'Z'.isDigit = false) []
    have hlen := length_padLeft hw hn
    have hlong : ¬ 9 < width := by omega
    have hdot : ("." ++ padLeft width n).toList = '.' :: (padLeft width n).toList := by simp
    rw [hdot, List.cons_append]
    simp only [readFraction, htake, hdrop, hlen, padLeft_ne_nil, hlong, or_self, if_false, ofDigitChars_padLeft]
  unfold formatFraction
  split_ifs with hzero hmilli hmicro
  · subst hzero
    decide
  · rw [hdigits (by decide) (by decide) (by omega)]
    congr 2
    omega
  · rw [hdigits (by decide) (by decide) (by omega)]
    congr 2
    omega
  · rw [hdigits (by decide) (by decide) (by omega)]
    simp

theorem readAfter_padLeft (width n : Nat) (a : Char) {c : Char} (hc : c.isDigit = false) (cs : List Char) :
    readAfter a (a :: ((padLeft width n).toList ++ c :: cs)) = some (n, c :: cs) := by
  rw [readAfter, if_pos rfl, readNumber_padLeft width n hc]

theorem readFraction_head (nanos : Nat) : ∃ c cs, (formatFraction nanos).toList ++ ['Z'] = c :: cs ∧
    c.isDigit = false := by
  unfold formatFraction
  split_ifs
  · exact ⟨'Z', [], rfl, by decide⟩
  all_goals exact ⟨'.', _, by rw [String.toList_append]; rfl, by decide⟩

theorem parseRfc3339_fields (year month day hour minute second : Nat) {nanos : Nat} (hn : nanos < 1000000000) :
    parseRfc3339 (formatYear year ++ "-" ++ padLeft 2 month ++ "-" ++ padLeft 2 day ++ "T" ++ padLeft 2 hour ++ ":" ++
      padLeft 2 minute ++ ":" ++ padLeft 2 second ++ formatFraction nanos ++ "Z") =
    some ((daysFromCivil year month day * 86400 + hour * 3600 + minute * 60 + second) * 1000000000 + nanos) := by
  have hmarks : "-".toList = ['-'] ∧ "T".toList = ['T'] ∧ ":".toList = [':'] ∧ "Z".toList = ['Z'] := by decide
  have hfrac := readFraction_formatFraction hn
  obtain ⟨c, cs, hhead, hc⟩ := readFraction_head nanos
  simp only [parseRfc3339, String.toList_append, List.append_assoc, hmarks, List.cons_append, List.nil_append]
  rw [hhead] at hfrac ⊢
  rw [readYear_formatYear]
  dsimp only [bind, Option.bind]
  rw [readAfter_padLeft 2 month '-' (by decide : '-'.isDigit = false)]
  dsimp only [bind, Option.bind]
  rw [readAfter_padLeft 2 day '-' (by decide : 'T'.isDigit = false)]
  dsimp only [bind, Option.bind]
  rw [readAfter_padLeft 2 hour 'T' (by decide : ':'.isDigit = false)]
  dsimp only [bind, Option.bind]
  rw [readAfter_padLeft 2 minute ':' (by decide : ':'.isDigit = false)]
  dsimp only [bind, Option.bind]
  rw [readAfter_padLeft 2 second ':' hc]
  dsimp only [bind, Option.bind]
  rw [hfrac]
  rfl

theorem secs_sum (a : Nat) : a / 86400 * 86400 + a / 3600 % 24 * 3600 + a / 60 % 60 * 60 + a % 60 = a := by omega

theorem parseRfc3339_formatRfc3339 (t : DateTime) : parseRfc3339 (formatRfc3339 t) = some t := by
  have hnanos : t % 1000000000 < 1000000000 := Nat.mod_lt _ (Nat.succ_pos _)
  have hdate := daysFromCivil_civilFromDays (t / 1000000000 / 86400)
  have hparse := parseRfc3339_fields (civilFromDays (t / 1000000000 / 86400)).1
    (civilFromDays (t / 1000000000 / 86400)).2.1 (civilFromDays (t / 1000000000 / 86400)).2.2
    (t / 1000000000 / 3600 % 24) (t / 1000000000 / 60 % 60) (t / 1000000000 % 60) hnanos
  rw [hdate] at hparse
  rw [secs_sum, Nat.div_add_mod'] at hparse
  exact hparse

end NginxAdmin.Daemon
