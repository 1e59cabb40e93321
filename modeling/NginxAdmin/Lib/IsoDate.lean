import NginxAdmin.Lib.Js

/-!
# The format of `Date.prototype.toISOString`

`isoText` is the text of a time in milliseconds, in the proleptic Gregorian calendar, and `isoTime` reads it; a year
outside of 0 to 9999 has a sign and six digits.
-/

namespace NginxAdmin.IsoDate

/-- The last `w` digits. -/
def pad : Nat → Nat → List Char
  | 0, _ => []
  | w + 1, n => pad w (n / 10) ++ [Char.ofNat (48 + n % 10)]

def number (cs : List Char) : Nat := cs.foldl (fun n c => n * 10 + (c.toNat - 48)) 0

@[simp] theorem length_pad (w n : Nat) : (pad w n).length = w := by
  induction w generalizing n with
  | zero => rfl
  | succ w ih => simp [pad, ih]

theorem drop_pad {w n i : Nat} (h : w ≤ i) : (pad w n).drop i = [] := List.drop_eq_nil_of_le (by simpa using h)

theorem toNat_digit (d : Nat) (h : d < 10) : (Char.ofNat (48 + d)).toNat = 48 + d := by
  have hall : ∀ d < 10, (Char.ofNat (48 + d)).toNat = 48 + d := by decide
  exact hall d h

theorem number_pad {w n : Nat} (h : n < 10 ^ w) : number (pad w n) = n := by
  induction w generalizing n with
  | zero =>
    have hn : n = 0 := by simpa using h
    rw [hn]
    rfl
  | succ w ih =>
    have hdiv : n / 10 < 10 ^ w := by
      rw [Nat.div_lt_iff_lt_mul (by decide)]
      rw [Nat.pow_succ] at h
      exact h
    have hlast := toNat_digit (n % 10) (Nat.mod_lt n (by decide))
    rw [pad, number, List.foldl_append]
    show number (pad w (n / 10)) * 10 + ((Char.ofNat (48 + n % 10)).toNat - 48) = n
    rw [ih hdiv, hlast]
    omega

structure Civil where
  year : Int
  month : Int
  day : Int
deriving DecidableEq

/-- The years of an era, in centuries, fours and single ones, and a day of the year, which starts in March. -/
structure Parts where
  era : Int
  century : Int
  four : Int
  one : Int
  day : Int

/-- A leap day is the last day of its year, of its four years and of its era. -/
def Parts.ofDays (days : Int) : Parts :=
  let doe := (days + 719468) % 146097
  let century := min (doe / 36524) 3
  let four := (doe - 36524 * century) / 1461
  let one := min ((doe - 36524 * century - 1461 * four) / 365) 3
  ⟨(days + 719468) / 146097, century, four, one, doe - 36524 * century - 1461 * four - 365 * one⟩

def Parts.civil (p : Parts) : Civil :=
  let month := (5 * p.day + 2) / 153
  let day := p.day - (153 * month + 2) / 5 + 1
  let year := 400 * p.era + 100 * p.century + 4 * p.four + p.one
  if month < 10 then ⟨year, month + 3, day⟩ else ⟨year + 1, month - 9, day⟩

/-- The date of a day, counted from the epoch. -/
def civil (days : Int) : Civil := (Parts.ofDays days).civil

def days (c : Civil) : Int :=
  let year := if c.month ≤ 2 then c.year - 1 else c.year
  let month := if c.month ≤ 2 then c.month + 9 else c.month - 3
  146097 * (year / 400) + 36524 * (year % 400 / 100) + 1461 * (year % 100 / 4) + 365 * (year % 4) +
    (153 * month + 2) / 5 + c.day - 1 - 719468

structure Parts.Bounded (p : Parts) : Prop where
  century : 0 ≤ p.century ∧ p.century ≤ 3
  four : 0 ≤ p.four ∧ p.four ≤ 24
  one : 0 ≤ p.one ∧ p.one ≤ 3
  day : 0 ≤ p.day ∧ p.day ≤ 365

theorem Parts.bounded_ofDays (days : Int) : (ofDays days).Bounded := by
  have h₀ : 0 ≤ (days + 719468) % 146097 := Int.emod_nonneg _ (by decide)
  have h₁ : (days + 719468) % 146097 < 146097 := Int.emod_lt_of_pos _ (by decide)
  rw [ofDays]
  generalize (days + 719468) % 146097 = doe at *
  generalize hc : min (doe / 36524) 3 = century
  generalize hf : (doe - 36524 * century) / 1461 = four
  generalize ho : min ((doe - 36524 * century - 1461 * four) / 365) 3 = one
  have hrest : 0 ≤ doe - 36524 * century ∧ doe - 36524 * century ≤ 36524 := by omega
  have hrest' : 0 ≤ doe - 36524 * century - 1461 * four ∧ doe - 36524 * century - 1461 * four ≤ 1460 := by omega
  have hcentury : 0 ≤ century ∧ century ≤ 3 := by omega
  have hfour : 0 ≤ four ∧ four ≤ 24 := by omega
  have hone : 0 ≤ one ∧ one ≤ 3 := by omega
  have hday : 0 ≤ doe - 36524 * century - 1461 * four - 365 * one ∧
      doe - 36524 * century - 1461 * four - 365 * one ≤ 365 := by omega
  exact ⟨hcentury, hfour, hone, hday⟩

theorem Parts.sum_ofDays (days : Int) : 146097 * (ofDays days).era + 36524 * (ofDays days).century +
    1461 * (ofDays days).four + 365 * (ofDays days).one + (ofDays days).day = days + 719468 := by
  have h := Int.mul_ediv_add_emod (days + 719468) 146097
  simp only [ofDays]
  omega

theorem Parts.days_civil {p : Parts} (h : p.Bounded) : days p.civil =
    146097 * p.era + 36524 * p.century + 1461 * p.four + 365 * p.one + p.day - 719468 := by
  obtain ⟨hc, hf, ho, hd⟩ := h
  have hmonth : 0 ≤ (5 * p.day + 2) / 153 ∧ (5 * p.day + 2) / 153 ≤ 11 := by omega
  rw [civil]
  generalize (5 * p.day + 2) / 153 = month at *
  by_cases hm : month < 10
  · have hge : ¬ month + 3 ≤ 2 := by omega
    simp only [if_pos hm, days, if_neg hge]
    omega
  · have hle : month - 9 ≤ 2 := by omega
    simp only [if_neg hm, days, if_pos hle]
    omega

theorem days_civil (z : Int) : days (civil z) = z := by
  have hsum := Parts.sum_ofDays z
  rw [civil, Parts.days_civil (Parts.bounded_ofDays z)]
  omega

theorem Parts.month_civil {p : Parts} (h : p.Bounded) : 1 ≤ p.civil.month ∧ p.civil.month ≤ 12 := by
  have hd := h.day
  rw [civil]
  by_cases hm : (5 * p.day + 2) / 153 < 10
  · simp only [if_pos hm]
    omega
  · simp only [if_neg hm]
    omega

theorem Parts.day_civil {p : Parts} (h : p.Bounded) : 1 ≤ p.civil.day ∧ p.civil.day ≤ 31 := by
  have hd := h.day
  rw [civil]
  by_cases hm : (5 * p.day + 2) / 153 < 10
  · simp only [if_pos hm]
    omega
  · simp only [if_neg hm]
    omega

/-! ### The text -/

/-- A year; the sign and six digits where four do not do. -/
def yearText (y : Int) : List Char :=
  if 0 ≤ y ∧ y ≤ 9999 then pad 4 y.toNat else (if 0 ≤ y then '+' else '-') :: pad 6 y.natAbs

def isoText (t : Int) : List Char :=
  let c := civil (t / 86400000)
  let ms := (t % 86400000).toNat
  yearText c.year ++ ('-' :: pad 2 c.month.toNat ++ ('-' :: pad 2 c.day.toNat ++ ('T' :: pad 2 (ms / 3600000) ++
    (':' :: pad 2 (ms / 60000 % 60) ++ (':' :: pad 2 (ms / 1000 % 60) ++ ('.' :: pad 3 (ms % 1000) ++ ['Z']))))))

/-- A year, and what follows it. -/
def readYear (cs : List Char) : Int × List Char :=
  if cs.head? = some '+' then (number (cs.tail.take 6), cs.tail.drop 6)
  else if cs.head? = some '-' then (-(number (cs.tail.take 6)), cs.tail.drop 6)
  else (number (cs.take 4), cs.drop 4)

/-- The time of a text of the format. -/
def readTime (cs : List Char) : Int :=
  let y := readYear cs
  let two i := number ((y.2.drop i).take 2)
  days ⟨y.1, two 1, two 4⟩ * 86400000 +
    (two 7 * 3600000 + two 10 * 60000 + two 13 * 1000 + number ((y.2.drop 16).take 3) : Nat)

theorem head_pad (w n : Nat) : ∃ d < 10, (pad (w + 1) n).head? = some (Char.ofNat (48 + d)) := by
  induction w generalizing n with
  | zero => exact ⟨n % 10, Nat.mod_lt n (by decide), rfl⟩
  | succ w ih =>
    obtain ⟨d, hd, hhead⟩ := ih (n / 10)
    exact ⟨d, hd, by rw [pad, List.head?_append, hhead, Option.some_or]⟩

theorem readYear_yearText {y : Int} (rest : List Char) (h₀ : -1000000 < y) (h₁ : y < 1000000) :
    readYear (yearText y ++ rest) = (y, rest) := by
  rw [yearText]
  by_cases h : 0 ≤ y ∧ y ≤ 9999
  · have hsmall : y.toNat < 10 ^ 4 := by omega
    have hval : ((y.toNat : Nat) : Int) = y := by omega
    obtain ⟨d, hd, hhead⟩ := head_pad 3 y.toNat
    have hsign : ∀ d < 10, Char.ofNat (48 + d) ≠ '+' ∧ Char.ofNat (48 + d) ≠ '-' := by decide
    have hhead' : (pad 4 y.toNat ++ rest).head? = some (Char.ofNat (48 + d)) := by
      rw [List.head?_append, hhead, Option.some_or]
    rw [if_pos h, readYear, hhead', if_neg (by simp [hsign d hd]), if_neg (by simp [hsign d hd])]
    simp [number_pad hsmall, hval]
  · have hsmall : y.natAbs < 10 ^ 6 := by omega
    rw [if_neg h]
    by_cases hs : 0 ≤ y
    · have hval : ((y.natAbs : Nat) : Int) = y := by omega
      simp [readYear, hs, number_pad hsmall, hval]
    · have hval : -((y.natAbs : Nat) : Int) = y := by omega
      generalize y.natAbs = n at hsmall hval ⊢
      simp [readYear, hs, number_pad hsmall, hval]

theorem year_civil {z : Int} (h₀ : -100000000 ≤ z) (h₁ : z ≤ 100000000) :
    -1000000 < (civil z).year ∧ (civil z).year < 1000000 := by
  have hsum := Parts.sum_ofDays z
  obtain ⟨hc, hf, ho, hd⟩ := Parts.bounded_ofDays z
  rw [civil, Parts.civil]
  by_cases hm : (5 * (Parts.ofDays z).day + 2) / 153 < 10
  · simp only [if_pos hm]
    omega
  · simp only [if_neg hm]
    omega

theorem readTime_isoText {t : Int} (h₀ : -8640000000000000 ≤ t) (h₁ : t ≤ 8640000000000000) :
    readTime (isoText t) = t := by
  have hz : -100000000 ≤ t / 86400000 ∧ t / 86400000 ≤ 100000000 := by omega
  obtain ⟨hy₀, hy₁⟩ := year_civil hz.1 hz.2
  have hdays := days_civil (t / 86400000)
  have hmonth : 1 ≤ (civil (t / 86400000)).month ∧ (civil (t / 86400000)).month ≤ 12 :=
    Parts.month_civil (Parts.bounded_ofDays _)
  have hday : 1 ≤ (civil (t / 86400000)).day ∧ (civil (t / 86400000)).day ≤ 31 :=
    Parts.day_civil (Parts.bounded_ofDays _)
  have hms : (t % 86400000).toNat < 86400000 := by omega
  have ht : t = t / 86400000 * 86400000 + ((t % 86400000).toNat : Int) := by omega
  rw [readTime, isoText]
  generalize civil (t / 86400000) = c at *
  generalize (t % 86400000).toNat = ms at *
  rw [readYear_yearText _ hy₀ hy₁]
  have hm' : ((c.month.toNat : Nat) : Int) = c.month := by omega
  have hd' : ((c.day.toNat : Nat) : Int) = c.day := by omega
  have n₁ : number (pad 2 c.month.toNat) = c.month.toNat := number_pad (by omega)
  have n₂ : number (pad 2 c.day.toNat) = c.day.toNat := number_pad (by omega)
  have n₃ : number (pad 2 (ms / 3600000)) = ms / 3600000 := number_pad (by omega)
  have n₄ : number (pad 2 (ms / 60000 % 60)) = ms / 60000 % 60 := number_pad (by omega)
  have n₅ : number (pad 2 (ms / 1000 % 60)) = ms / 1000 % 60 := number_pad (by omega)
  have n₆ : number (pad 3 (ms % 1000)) = ms % 1000 := number_pad (by omega)
  simp [List.drop_append, drop_pad, n₁, n₂, n₃, n₄, n₅, n₆, hm', hd', hdays]
  omega

end NginxAdmin.IsoDate

namespace NginxAdmin

/-- Dates whose texts have the format of `toISOString`; no other text is read. -/
def Js.Dates.iso : Js.Dates where
  toISOString t := String.ofList (IsoDate.isoText t)
  parse s :=
    let t := IsoDate.readTime s.toList
    if IsoDate.isoText t = s.toList then some t else none
  parse_toISOString t h₀ h₁ := by
    simp [IsoDate.readTime_isoText h₀ h₁]

example : Js.Dates.iso.toISOString 951782400123 = "2000-02-29T00:00:00.123Z" := by decide

end NginxAdmin
