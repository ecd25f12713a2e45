import Mathlib.Algebra.BigOperators.Intervals
import Mathlib.Algebra.Order.BigOperators.Group.Finset
import Mathlib.Tactic.IntervalCases

/-!
# The Proleptic Gregorian Calendar

Years, months and days over the integers, with the number of a day counted by the leap-year
rule: whole years, whole months and days. Two facts about the count are what conversions rest
on: it grows with the date, and it can be worked out from years that begin in March, of which
400 always have 146,097 days.
-/

namespace Refix.Foundation.Calendar

/-! ## Lengths -/

/-- Every fourth year, but of the centuries only every fourth. -/
def LeapYear (y : ℤ) : Prop := y % 4 = 0 ∧ (y % 100 ≠ 0 ∨ y % 400 = 0)

instance (y : ℤ) : Decidable (LeapYear y) := by
  unfold LeapYear
  infer_instance

def yearLength (y : ℤ) : ℤ := if LeapYear y then 366 else 365

def monthLength (y : ℤ) (m : ℕ) : ℤ :=
  if m = 2 then (if LeapYear y then 29 else 28)
  else if m = 4 ∨ m = 6 ∨ m = 9 ∨ m = 11 then 30
  else 31

/-! ## Counting days -/

/-- The number of a year's first day, counted from the first day of year 0. -/
def yearStart (y : ℤ) : ℤ := 365 * y + (y + 3) / 4 - (y + 99) / 100 + (y + 399) / 400

/-- The days of a year before a month. -/
def monthStart (y : ℤ) (m : ℕ) : ℤ := ∑ i ∈ Finset.Ico 1 m, monthLength y i

/-- The number of a day, counted from the first day of year 0. -/
def dayNumber (y : ℤ) (m : ℕ) (d : ℤ) : ℤ := yearStart y + monthStart y m + (d - 1)

/-- A day of a calendar month. -/
structure IsDate (y : ℤ) (m : ℕ) (d : ℤ) : Prop where
  month_pos : 1 ≤ m
  month_le : m ≤ 12
  day_pos : 1 ≤ d
  day_le : d ≤ monthLength y m

theorem yearStart_succ (y : ℤ) : yearStart (y + 1) = yearStart y + yearLength y := by
  unfold yearLength
  split_ifs with h <;> unfold LeapYear at h <;> simp only [yearStart] <;> omega

/-- The first day of a year comes after all the years before it. -/
theorem yearStart_eq_sum (y : ℕ) : yearStart y = ∑ i ∈ Finset.range y, yearLength i := by
  induction y with
  | zero => rfl
  | succ y ih =>
    rw [Finset.sum_range_succ, ← ih]
    exact yearStart_succ y

theorem yearStart_mono {y y' : ℤ} (h : y ≤ y') : yearStart y ≤ yearStart y' := by
  simp only [yearStart]
  omega

theorem monthStart_succ (y : ℤ) {m : ℕ} (h : 1 ≤ m) :
    monthStart y (m + 1) = monthStart y m + monthLength y m :=
  Finset.sum_Ico_succ_top h _

theorem monthLength_pos (y : ℤ) (m : ℕ) : 0 < monthLength y m := by
  unfold monthLength
  split_ifs <;> omega

theorem monthStart_mono (y : ℤ) {m m' : ℕ} (h : m ≤ m') : monthStart y m ≤ monthStart y m' := by
  refine Finset.sum_le_sum_of_subset_of_nonneg (Finset.Ico_subset_Ico_right h) ?_
  exact fun i _ _ => (monthLength_pos y i).le

/-- The months from March on fall 153 days to five of them. -/
theorem monthStart_eq (y : ℤ) {m : ℕ} (h1 : 1 ≤ m) (h13 : m ≤ 13) :
    monthStart y m = if m ≤ 2 then 31 * ((m : ℤ) - 1)
      else (if LeapYear y then 60 else 59) + (153 * ((m : ℤ) - 3) + 2) / 5 := by
  induction m, h1 using Nat.le_induction with
  | base => rfl
  | succ m h1 ih =>
    have h12 : m ≤ 12 := by omega
    rw [monthStart_succ y h1, ih (by omega), monthLength]
    interval_cases m <;> split_ifs <;> omega

/-- The months make up the year. -/
theorem monthStart_thirteen (y : ℤ) : monthStart y 13 = yearLength y := by
  rw [monthStart_eq y (by omega) le_rfl, if_neg (by omega), yearLength]
  split <;> rfl

/-! ## The count grows with the date -/

namespace IsDate

variable {y y' d d' : ℤ} {m m' : ℕ}

/-- A day comes before the end of its month. -/
theorem dayNumber_lt_month (h : IsDate y m d) :
    dayNumber y m d < yearStart y + monthStart y (m + 1) := by
  have hle := h.day_le
  rw [dayNumber, monthStart_succ y h.month_pos]
  omega

/-- A day is one of its year. -/
theorem dayNumber_mem (h : IsDate y m d) :
    yearStart y ≤ dayNumber y m d ∧ dayNumber y m d < yearStart (y + 1) := by
  have hd := h.day_pos
  have hlt := h.dayNumber_lt_month
  have hfirst : 0 ≤ monthStart y m := monthStart_mono y (show 1 ≤ m from h.month_pos)
  have hlast := monthStart_mono y (show m + 1 ≤ 13 from Nat.succ_le_succ h.month_le)
  rw [monthStart_thirteen] at hlast
  rw [yearStart_succ]
  refine ⟨?_, by omega⟩
  rw [dayNumber]
  omega

/-- **Of two days, the one with the earlier date comes first.** -/
theorem dayNumber_lt (h : IsDate y m d) (h' : IsDate y' m' d')
    (hlt : y < y' ∨ y = y' ∧ (m < m' ∨ m = m' ∧ d < d')) :
    dayNumber y m d < dayNumber y' m' d' := by
  rcases hlt with hyear | ⟨rfl, hmonth | ⟨rfl, hday⟩⟩
  · have hnext := yearStart_mono (Int.add_one_le_iff.mpr hyear)
    have hmem := h.dayNumber_mem
    have hmem' := h'.dayNumber_mem
    omega
  · have hnext := monthStart_mono y (Nat.succ_le_of_lt hmonth)
    have hbefore := h.dayNumber_lt_month
    have hd := h'.day_pos
    rw [Nat.succ_eq_add_one] at hnext
    refine hbefore.trans_le ?_
    rw [dayNumber]
    omega
  · rw [dayNumber, dayNumber]
    omega

end IsDate

/-! ## Years from March -/

/-- The day of an era of 400 years, for a year of the era and a day of that year, both counted
from March. -/
def dayOfEra (yearOfEra dayOfYear : ℤ) : ℤ :=
  yearOfEra * 365 + yearOfEra / 4 - yearOfEra / 100 + dayOfYear

/-- **The number of a day, worked out from its era.** January and February belong to the year
before. -/
theorem dayNumber_eq {y d : ℤ} {m : ℕ} (h1 : 1 ≤ m) (h12 : m ≤ 12) {year monthFromMarch : ℤ}
    (hyear : year = if m ≤ 2 then y - 1 else y) (hmonth : monthFromMarch = (m + 9) % 12) :
    dayNumber y m d = year / 400 * 146097 +
      dayOfEra (year % 400) ((153 * monthFromMarch + 2) / 5 + d - 1) + 60 := by
  rw [dayNumber, monthStart_eq y h1 (by omega), dayOfEra, yearStart]
  by_cases hm : m ≤ 2
  · rw [if_pos hm] at hyear ⊢
    have hdays : (153 * monthFromMarch + 2) / 5 = 306 + 31 * ((m : ℤ) - 1) := by
      rw [hmonth]
      interval_cases m <;> rfl
    rw [hdays, hyear]
    omega
  · rw [if_neg hm] at hyear ⊢
    have hdays : monthFromMarch = m - 3 := by omega
    rw [hdays, hyear]
    split_ifs with hleap <;> unfold LeapYear at hleap <;> omega

/-- A day of an era is in one of its four centuries, in one of the century's spans of four years,
and in one of their years. Only the last year of a span has a day 365, and only the last century
in its last span. -/
structure EraDay (century span year day : ℤ) : Prop where
  century_nonneg : 0 ≤ century
  century_le : century ≤ 3
  span_nonneg : 0 ≤ span
  span_le : span ≤ 24
  year_nonneg : 0 ≤ year
  year_le : year ≤ 3
  day_nonneg : 0 ≤ day
  day_le : day ≤ 365
  leap : day = 365 → year = 3 ∧ (span = 24 → century = 3)

theorem exists_eraDay {doe : ℤ} (h0 : 0 ≤ doe) (h1 : doe < 146097) :
    ∃ c q z d, EraDay c q z d ∧ doe = 36524 * c + 1461 * q + 365 * z + d := by
  obtain ⟨c, hc⟩ : ∃ c, c = min (doe / 36524) 3 := ⟨_, rfl⟩
  obtain ⟨q, hq⟩ : ∃ q, q = (doe - 36524 * c) / 1461 := ⟨_, rfl⟩
  obtain ⟨z, hz⟩ : ∃ z, z = min ((doe - 36524 * c - 1461 * q) / 365) 3 := ⟨_, rfl⟩
  refine ⟨c, q, z, doe - 36524 * c - 1461 * q - 365 * z, ?_, by omega⟩
  constructor <;> omega

namespace EraDay

variable {c q z d doe : ℤ}

/-- The year of the era, from its days: one day in 1,460, and one in 146,096, is taken out and one
in 36,524 put back, so that every year has 365. -/
theorem yearOfEra_eq (h : EraDay c q z d) (hdoe : doe = 36524 * c + 1461 * q + 365 * z + d) :
    (doe - doe / 1460 + doe / 36524 - doe / 146096) / 365 = 100 * c + 4 * q + z := by
  obtain ⟨hc0, hc, hq0, hq, hz0, hz, hd0, hd, hleap⟩ := h
  -- whether the span's leap day is behind
  obtain ⟨t, ht⟩ : ∃ t, t = (24 * c + q + 365 * z + d) / 1460 := ⟨_, rfl⟩
  have hspans : doe / 1460 = 25 * c + q + t := by omega
  have hcenturies : doe / 36524 - doe / 146096 = c := by
    have hrest : 1461 * q + 365 * z + d ≤ 36523 ∨
        c = 3 ∧ 1461 * q + 365 * z + d = 36524 := by omega
    rcases hrest with hrest | hrest
    · have : doe / 36524 = c := by omega
      have : doe / 146096 = 0 := by omega
      omega
    · have : doe = 146096 := by omega
      omega
  have hday : 0 ≤ d - t ∧ d - t < 365 := by omega
  have hyears : doe - doe / 1460 + doe / 36524 - doe / 146096 =
      365 * (100 * c + 4 * q + z) + (d - t) := by omega
  rw [hyears]
  omega

theorem dayOfEra_eq (h : EraDay c q z d) :
    dayOfEra (100 * c + 4 * q + z) d = 36524 * c + 1461 * q + 365 * z + d := by
  obtain ⟨hc0, hc, hq0, hq, hz0, hz, -, -, -⟩ := h
  have hspans : (100 * c + 4 * q + z) / 4 = 25 * c + q := by omega
  have hcenturies : (100 * c + 4 * q + z) / 100 = c := by omega
  rw [dayOfEra, hspans, hcenturies]
  omega

/-- A day 365 is the 29th of February of the next year. -/
theorem leapYear (h : EraDay c q z d) (hd : d = 365) (era : ℤ) :
    LeapYear (era * 400 + (100 * c + 4 * q + z) + 1) := by
  obtain ⟨hc0, hc, hq0, hq, hz0, hz, -, -, hleap⟩ := h
  obtain ⟨rfl, hspan⟩ := hleap hd
  constructor <;> omega

end EraDay

/-- **A day number, taken apart into a date.** With the month and day worked out from the day of
the year that begins in March, the date exists and has the day's number. -/
theorem isDate_of_marchDay {era yearOfEra dayOfYear monthFromMarch day year : ℤ} {month : ℕ}
    (hy : 0 ≤ yearOfEra ∧ yearOfEra < 400) (hd : 0 ≤ dayOfYear ∧ dayOfYear ≤ 365)
    (hleap : dayOfYear = 365 → LeapYear (era * 400 + yearOfEra + 1))
    (hmonthFromMarch : monthFromMarch = (5 * dayOfYear + 2) / 153)
    (hday : day = dayOfYear - (153 * monthFromMarch + 2) / 5 + 1)
    (hmonth : (month : ℤ) = if monthFromMarch < 10 then monthFromMarch + 3 else monthFromMarch - 9)
    (hyear : year = era * 400 + yearOfEra + (if month ≤ 2 then 1 else 0)) :
    IsDate year month day ∧
      dayNumber year month day = era * 146097 + dayOfEra yearOfEra dayOfYear + 60 := by
  have h0 : 0 ≤ monthFromMarch := by omega
  have h11 : monthFromMarch ≤ 11 := by omega
  have h1 : 1 ≤ month := by omega
  have h12 : month ≤ 12 := by omega
  refine ⟨⟨h1, h12, by omega, ?_⟩, ?_⟩
  -- February ends the year that begins in March, so its leap day is the day 365 of that year.
  · by_cases hfebruary : month = 2
    · subst hfebruary
      rw [monthLength, if_pos rfl]
      split
      · omega
      · next hnot =>
        rw [hyear, if_pos le_rfl] at hnot
        have hne := mt hleap hnot
        omega
    · rw [monthLength, if_neg hfebruary]
      interval_cases month <;> split_ifs <;> omega
  · have hback : monthFromMarch = ((month : ℤ) + 9) % 12 := by
      split_ifs at hmonth <;> omega
    have hmarch : era * 400 + yearOfEra = if month ≤ 2 then year - 1 else year := by
      split_ifs at hyear ⊢ <;> omega
    have hera : (era * 400 + yearOfEra) / 400 = era := by omega
    have hyearOfEra : (era * 400 + yearOfEra) % 400 = yearOfEra := by omega
    have hdayOfYear : (153 * monthFromMarch + 2) / 5 + day - 1 = dayOfYear := by omega
    rw [dayNumber_eq h1 h12 hmarch hback, hera, hyearOfEra, hdayOfYear]

end Refix.Foundation.Calendar
