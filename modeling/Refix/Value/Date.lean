import Refix.Foundation.Calendar
import Refix.Foundation.Signed
import Refix.Message.Framing

/-!
# Dates

A FIX date, as in a UTCDateOnly or LocalMktDate field: how it is read, and how it is converted
to and from a count of days.
-/

namespace Refix.Message

open Refix.Foundation Refix.Foundation.Calendar Refix.Foundation.Arith

/-! ## Numbers -/

/-- The value of `digits`, if they're all ASCII digits, from the value of the digits before. -/
def numberFrom : ℤ → Bytes → Except Panic (Option ℤ)
  | value, [] => .ok (some value)
  | value, byte :: digits =>
    if isAsciiDigit byte then do
      let value ← (val value * 10 + val (digitValue byte) : I64).run
      numberFrom value digits
    else .ok none

/-- The value of `digits`, if they're all ASCII digits. -/
def number (digits : Bytes) : Except Panic (Option ℤ) := numberFrom 0 digits

/-- What a run of digits denotes. -/
def numeral? (digits : Bytes) : Option ℕ :=
  if ∀ b ∈ digits, isAsciiDigit b = true then some (decimalValue digits) else none

/-- The bytes are `n`, written with `width` digits. -/
structure Digits (width : ℕ) (digits : Bytes) (n : ℕ) : Prop where
  length_eq : digits.length = width
  isDigit : ∀ b ∈ digits, isAsciiDigit b = true
  value_eq : decimalValue digits = n

theorem Digits.lt {width : ℕ} {digits : Bytes} {n : ℕ} (h : Digits width digits n) :
    n < 10 ^ width := by
  rw [← h.value_eq, ← h.length_eq]
  exact decimalValue_lt h.isDigit

theorem numeral?_eq_some_iff {digits : Bytes} {n : ℕ} :
    numeral? digits = some n ↔ Digits digits.length digits n := by
  simp only [numeral?, Option.ite_none_right_eq_some, Option.some.injEq]
  exact ⟨fun ⟨hdigits, hvalue⟩ => ⟨rfl, hdigits, hvalue⟩, fun h => ⟨h.isDigit, h.value_eq⟩⟩

theorem numeral?_cons {b : UInt8} {digits : Bytes} (hb : isAsciiDigit b = true) :
    numeral? (b :: digits) =
      (numeral? digits).map (digitValue b * 10 ^ digits.length + ·) := by
  have hvalue : decimalValue (b :: digits) =
      digitValue b * 10 ^ digits.length + decimalValue digits := by
    rw [← List.singleton_append, decimalValue_append, ← List.nil_append [b],
      decimalValue_append_singleton, decimalValue_nil, Nat.zero_mul, Nat.zero_add]
  simp only [numeral?, List.forall_mem_cons, hb, true_and, hvalue]
  split <;> rfl

private theorem numberFrom_eq {acc k : ℕ} {digits : Bytes} (hacc : acc < 10 ^ k)
    (hk : k + digits.length ≤ 18) :
    numberFrom acc digits = .ok
      ((numeral? digits).map fun n => ((acc * 10 ^ digits.length + n : ℕ) : ℤ)) := by
  induction digits generalizing acc k with
  | nil => simp [numberFrom, numeral?]
  | cons b digits ih =>
    rw [List.length_cons] at hk
    by_cases hb : isAsciiDigit b = true
    · have hdigit := digitValue_lt hb
      have hnext : acc * 10 + digitValue b < 10 ^ (k + 1) := by
        rw [pow_succ]
        omega
      have hbound : 10 ^ (k + 1) ≤ 10 ^ 18 := Nat.pow_le_pow_right (by decide) (by omega)
      -- Eighteen digits stay below `10 ^ 18`, so no step overflows.
      have hstep : (val acc * 10 + val (digitValue b) : I64) =
          val ((acc * 10 + digitValue b : ℕ) : ℤ) := by
        rw [ofNat_eq, val_mul (by omega), val_add (by omega)]
        push_cast
        rfl
      simp only [numberFrom, hb, if_true]
      rw [hstep, val_bind, ih hnext (by omega), numeral?_cons hb, Option.map_map]
      congr 2
      funext n
      simp only [Function.comp, List.length_cons, pow_succ]
      push_cast
      ring
    · have hnone : numeral? (b :: digits) = none :=
        if_neg fun hall => hb (hall b List.mem_cons_self)
      rw [numberFrom, if_neg hb, hnone]
      rfl

/-- **Up to 18 digits are read without overflow.** -/
theorem number_eq {digits : Bytes} (h : digits.length ≤ 18) :
    number digits = .ok ((numeral? digits).map Nat.cast) := by
  rw [number, ← Nat.cast_zero, numberFrom_eq (k := 0) (by decide) (by omega)]
  simp

/-! ## Dates -/

def isLeapYear (year : ℕ) : Bool := year % 4 == 0 && (year % 100 != 0 || year % 400 == 0)

/-- The number of days in `month` of `year`. -/
def daysInMonth (year month : ℕ) : ℕ :=
  match month with
  | 2 => if isLeapYear year then 29 else 28
  | 4 | 6 | 9 | 11 => 30
  | _ => 31

/-- A FIX date. Its year fits FIX's four digits, and it exists. -/
structure Date where
  year : ℕ
  month : ℕ
  day : ℕ
  valid : year ≤ 9999 ∧ (1 ≤ month ∧ month ≤ 12) ∧ 1 ≤ day ∧ day ≤ daysInMonth year month
  deriving DecidableEq

namespace Date

/-- The date `year`-`month`-`day`, if it exists and the year fits FIX's four digits. -/
def new (year month day : ℕ) : Option Date :=
  if h : year ≤ 9999 ∧ (1 ≤ month ∧ month ≤ 12) ∧ 1 ≤ day ∧ day ≤ daysInMonth year month then
    some ⟨year, month, day, h⟩
  else none

/-- Dates compare by year, then month, then day. -/
def lt (d d' : Date) : Prop :=
  d.year < d'.year ∨ d.year = d'.year ∧
    (d.month < d'.month ∨ d.month = d'.month ∧ d.day < d'.day)

/-- A number stored in an unsigned type with the largest number `max`, if it fits. -/
def unsigned? (max : ℕ) (n : ℤ) : Option ℕ := if 0 ≤ n ∧ n ≤ max then some n.toNat else none

/-- Reads a FIX date such as `20261030`. -/
def parse (text : Bytes) : Except Panic (Option Date) := do
  if text.length ≠ 8 then return none
  let some year ← number (← Checked.slice text 0 4) | return none
  let some year := unsigned? 65535 year | return none
  let some month ← number (← Checked.slice text 4 6) | return none
  let some month := unsigned? 255 month | return none
  let some day ← number (← Checked.slice text 6 8) | return none
  let some day := unsigned? 255 day | return none
  return new year month day

/-- Days from 1970-01-01, by Howard Hinnant's `days_from_civil`. -/
def daysSinceEpoch (d : Date) : Except Panic ℤ := do
  let month : ℤ := d.month
  let year : ℤ := d.year
  let year ← (if month ≤ 2 then val year - 1 else val year : I64).run
  let era ← (divEuclid (val year) 400 : I64).run
  let yearOfEra ← (remEuclid (val year) 400 : I64).run
  let monthFromMarch ← ((val month + 9) % 12 : I64).run
  let dayOfYear ← ((153 * val monthFromMarch + 2) / 5 + val d.day - 1 : I64).run
  let dayOfEra ←
    (val yearOfEra * 365 + val yearOfEra / 4 - val yearOfEra / 100 + val dayOfYear : I64).run
  -- an era is 146,097 days, and the epoch is day 719,468 from 0000-03-01
  (val era * 146097 + val dayOfEra - 719468 : I64).run

/-- The date `days` after 1970-01-01, by Howard Hinnant's `civil_from_days`. -/
def fromDaysSinceEpoch (days : Int64) : Except Panic (Option Date) := do
  -- counted from 0000-03-01, as in `daysSinceEpoch`
  let some days := checkedAdd64 days 719468 | return none
  let days := days.toInt
  let era ← (divEuclid (val days) 146097 : I64).run
  let dayOfEra ← (remEuclid (val days) 146097 : I64).run
  let yearOfEra ← ((val dayOfEra - val dayOfEra / 1460 + val dayOfEra / 36524
    - val dayOfEra / 146096) / 365 : I64).run
  let dayOfYear ← (val dayOfEra
    - (val yearOfEra * 365 + val yearOfEra / 4 - val yearOfEra / 100) : I64).run
  let monthFromMarch ← ((5 * val dayOfYear + 2) / 153 : I64).run
  let day ← (val dayOfYear - (153 * val monthFromMarch + 2) / 5 + 1 : I64).run
  let month ← (if monthFromMarch < 10 then val monthFromMarch + 3
    else val monthFromMarch - 9 : I64).run
  let year ← (val era * 400 + val yearOfEra + val (if month ≤ 2 then 1 else 0) : I64).run
  let some year := unsigned? 65535 year | return none
  let some month := unsigned? 255 month | return none
  let some day := unsigned? 255 day | return none
  return new year month day

/-! ## The count of days -/

theorem isLeapYear_iff {year : ℕ} : isLeapYear year = true ↔ LeapYear year := by
  simp only [isLeapYear, LeapYear, Bool.and_eq_true, beq_iff_eq, Bool.or_eq_true, bne_iff_ne]
  omega

theorem daysInMonth_eq (year month : ℕ) : (daysInMonth year month : ℤ) = monthLength year month := by
  have hleap := @isLeapYear_iff year
  unfold daysInMonth monthLength
  split <;> simp_all

/-- A date's day, counted from the first day of year 0. -/
def calendarDay (d : Date) : ℤ := dayNumber d.year d.month d.day

theorem isDate (d : Date) : IsDate d.year d.month d.day := by
  obtain ⟨-, ⟨hm1, hm12⟩, hd1, hd⟩ := d.valid
  refine ⟨hm1, hm12, by omega, ?_⟩
  rw [← daysInMonth_eq]
  omega

theorem day_le (d : Date) : d.day ≤ 31 := by
  have hle := d.isDate.day_le
  unfold monthLength at hle
  split_ifs at hle <;> omega

/-- The first day of 1970. -/
theorem dayNumber_epoch : dayNumber 1970 1 1 = 719528 := by
  simp [dayNumber, yearStart, monthStart]

theorem dayNumber_first : dayNumber 0 1 1 = 0 := by
  simp [dayNumber, yearStart, monthStart]

/-- The last day of 9999. -/
theorem dayNumber_last : dayNumber 9999 12 31 = 3652424 := by
  rw [dayNumber, monthStart_eq 9999 (by omega) (by omega)]
  decide

/-- **The epoch day of a date is its day number in the calendar, less the epoch's.** -/
theorem daysSinceEpoch_eq (d : Date) : d.daysSinceEpoch = .ok (d.calendarDay - dayNumber 1970 1 1) := by
  obtain ⟨hyear, ⟨hm1, hm12⟩, hd1, -⟩ := d.valid
  have hd31 := d.day_le
  have hmarch : (if (d.month : ℤ) ≤ 2 then val d.year - 1 else val d.year : I64) =
      val (if d.month ≤ 2 then d.year - 1 else d.year) := by
    split_ifs
    · rw [ofNat_eq]
      exact val_sub (by omega)
    · omega
    · omega
    · rfl
  have hday := dayNumber_eq (d := d.day) hm1 hm12 (y := d.year) rfl rfl
  simp only [daysSinceEpoch]
  rw [hmarch, run_val, Checked.bind_ok, calendarDay, hday, dayNumber_epoch, dayOfEra]
  have hy : -1 ≤ (if d.month ≤ 2 then (d.year : ℤ) - 1 else d.year) ∧
      (if d.month ≤ 2 then (d.year : ℤ) - 1 else d.year) ≤ 9999 := by
    split_ifs <;> omega
  have hm : 1 ≤ (d.month : ℤ) ∧ (d.month : ℤ) ≤ 12 := by omega
  have hd : 1 ≤ (d.day : ℤ) ∧ (d.day : ℤ) ≤ 31 := by omega
  -- from here on it is arithmetic: no step leaves the type
  generalize (if d.month ≤ 2 then (d.year : ℤ) - 1 else d.year) = year at hy ⊢
  generalize (d.month : ℤ) = month at hm ⊢
  generalize (d.day : ℤ) = day at hd ⊢
  clear hday hmarch hd31 hd1 hm12 hm1 hyear
  simp only [ofNat_eq]
  simp (disch := omega) only [val_bind, val_add, val_sub, val_mul, val_div, val_mod,
    divEuclid_val, remEuclid_val]
  rw [run_val, Except.ok.injEq]
  omega

/-! ## Back to a date -/

theorem unsigned?_of_le {max : ℕ} {n : ℕ} (h : n ≤ max) : unsigned? max n = some n := by
  rw [unsigned?, if_pos ⟨by omega, by omega⟩, Int.toNat_natCast]

theorem unsigned?_eq_some {max n : ℕ} {i : ℤ} (h : unsigned? max i = some n) : i = n ∧ n ≤ max := by
  simp only [unsigned?, Option.ite_none_right_eq_some, Option.some.injEq] at h
  omega

/-- A date of the calendar is one FIX can write where its year has four digits. -/
theorem new_eq_some {year month day : ℕ} (h : IsDate year month day) (hyear : year ≤ 9999) :
    ∃ d, new year month day = some d ∧ d.calendarDay = dayNumber year month day := by
  obtain ⟨hm1, hm12, hd1, hd⟩ := h
  rw [← daysInMonth_eq] at hd
  have hvalid : year ≤ 9999 ∧ (1 ≤ month ∧ month ≤ 12) ∧ 1 ≤ day ∧ day ≤ daysInMonth year month :=
    ⟨hyear, ⟨hm1, hm12⟩, by omega, by omega⟩
  exact ⟨_, dif_pos hvalid, rfl⟩

/-- A date of the calendar with a year of four digits. -/
theorem exists_date {year month day : ℕ} (h : year ≤ 9999 ∧ (1 ≤ month ∧ month ≤ 12) ∧
    1 ≤ day ∧ day ≤ monthLength year month) :
    ∃ d : Date, d.year = year ∧ d.month = month ∧ d.day = day := by
  obtain ⟨hyear, hmonth, hd1, hd⟩ := h
  rw [← daysInMonth_eq] at hd
  exact ⟨⟨year, month, day, hyear, hmonth, hd1, by omega⟩, rfl, rfl, rfl⟩

theorem new_eq_none {year month day : ℕ} (h : 9999 < year) : new year month day = none :=
  dif_neg fun hvalid => absurd hvalid.1 (by omega)

/-- The days of the years FIX can write. -/
theorem mem_years_iff {year day : ℤ} {month : ℕ} (h : IsDate year month day) :
    dayNumber 0 1 1 ≤ dayNumber year month day ∧ dayNumber year month day ≤ dayNumber 9999 12 31 ↔
      0 ≤ year ∧ year ≤ 9999 := by
  obtain ⟨hfirst, hlast⟩ := h.dayNumber_mem
  rw [dayNumber_first, dayNumber_last]
  simp only [yearStart] at hfirst hlast
  omega

/-- The last steps: a year, month and day that are put into a date. -/
theorem convert_eq {year : ℤ} {month day : ℕ} (h : IsDate year month day) :
    ∃ result, (do
      let some year := unsigned? 65535 year | return none
      let some month := unsigned? 255 (month : ℤ) | return none
      let some day := unsigned? 255 (day : ℤ) | return none
      return new year month day : Except Panic (Option Date)) = .ok result ∧
      (0 ≤ year ∧ year ≤ 9999 → ∃ d, result = some d ∧
        d.calendarDay = dayNumber year month day) ∧
      (¬ (0 ≤ year ∧ year ≤ 9999) → result = none) := by
  have hmonth := h.month_le
  have hday : (day : ℤ) ≤ 31 := h.day_le.trans (by unfold monthLength; split_ifs <;> omega)
  cases hyear : unsigned? 65535 year with
  | none =>
    refine ⟨none, rfl, fun hrange => ?_, fun _ => rfl⟩
    lift year to ℕ using hrange.1
    rw [unsigned?_of_le (by omega)] at hyear
    cases hyear
  | some n =>
    obtain ⟨rfl, hle⟩ := unsigned?_eq_some hyear
    refine ⟨new n month day, ?_, fun hrange => new_eq_some h (by omega), fun hrange =>
      new_eq_none (by omega)⟩
    simp only [unsigned?_of_le (show month ≤ 255 by omega), unsigned?_of_le (show day ≤ 255 by omega)]
    rfl

/-- **Every day count is converted without overflow: to the date it counts to, where the years
FIX can write have that day, and to none otherwise.** -/
theorem fromDaysSinceEpoch_spec (days : Int64) :
    ∃ result, fromDaysSinceEpoch days = .ok result ∧
      (dayNumber 0 1 1 ≤ days.toInt + dayNumber 1970 1 1 ∧
        days.toInt + dayNumber 1970 1 1 ≤ dayNumber 9999 12 31 →
          ∃ d, result = some d ∧ d.calendarDay = days.toInt + dayNumber 1970 1 1) ∧
      (¬ (dayNumber 0 1 1 ≤ days.toInt + dayNumber 1970 1 1 ∧
        days.toInt + dayNumber 1970 1 1 ≤ dayNumber 9999 12 31) → result = none) := by
  have hlo := Int64.le_toInt days
  have hhi := Int64.toInt_lt days
  have hshift : (719468 : Int64).toInt = 719468 := rfl
  unfold fromDaysSinceEpoch
  cases hadd : checkedAdd64 days 719468 with
  | none =>
    refine ⟨none, rfl, fun hrange => ?_, fun _ => rfl⟩
    -- The sum overflows only far outside the years that can be written.
    rw [dayNumber_epoch, dayNumber_last] at hrange
    obtain ⟨x, hx⟩ := @exists_int64 (days.toInt + 719468) (by omega) (by omega)
    have hsome : checkedAdd64 days 719468 = some x := int64?_eq_some_iff.mpr (by rw [hx, hshift])
    rw [hsome] at hadd
    cases hadd
  | some shifted =>
    rw [checkedAdd64, int64?_eq_some_iff, hshift] at hadd
    have hz := Int64.toInt_lt shifted
    have hz' := Int64.le_toInt shifted
    -- The day of the era splits into whole centuries, cycles of four years, years and days.
    obtain ⟨c, q, r, d, hday, hdoe⟩ := @exists_eraDay (shifted.toInt % 146097) (by omega) (by omega)
    have hyear := hday.yearOfEra_eq hdoe
    have hdayOfEra := hday.dayOfEra_eq
    have hyears : 0 ≤ 100 * c + 4 * q + r ∧ 100 * c + 4 * q + r < 400 := by
      obtain ⟨hc0, hc, hq0, hq, hr0, hr, -, -, -⟩ := hday
      omega
    have hleap := fun hd => hday.leapYear hd (shifted.toInt / 146097)
    have hdays := And.intro hday.day_nonneg hday.day_le
    generalize 100 * c + 4 * q + r = yearOfEra at hyear hdayOfEra hyears hleap
    have hera : shifted.toInt = shifted.toInt / 146097 * 146097 + shifted.toInt % 146097 := by omega
    have hdoe' := And.intro (Int.emod_nonneg shifted.toInt (show (146097 : ℤ) ≠ 0 by decide))
      (Int.emod_lt_of_pos shifted.toInt (show (0 : ℤ) < 146097 by decide))
    rw [← hdayOfEra] at hdoe
    simp only [ofNat_eq]
    simp (disch := omega) only [divEuclid_val, remEuclid_val, val_bind]
    -- The source computes the same year, day of year, month and day, with every step in range.
    have hyearOfEra : ((val (shifted.toInt % 146097) - val (shifted.toInt % 146097) / val 1460 +
        val (shifted.toInt % 146097) / val 36524 - val (shifted.toInt % 146097) / val 146096) /
          val 365 : I64) = val yearOfEra := by
      generalize shifted.toInt % 146097 = doe at hdoe' hyear
      simp (disch := omega) only [val_add, val_sub, val_div]
      rw [hyear]
    have hdayOfYear : (val (shifted.toInt % 146097) - (val yearOfEra * val 365 +
        val yearOfEra / val 4 - val yearOfEra / val 100) : I64) = val d := by
      generalize shifted.toInt % 146097 = doe at hdoe' hdoe
      simp (disch := omega) only [val_add, val_sub, val_mul, val_div]
      rw [dayOfEra] at hdoe
      congr 1
      omega
    rw [hyearOfEra, val_bind, hdayOfYear, val_bind]
    have hera' : -2 ^ 48 ≤ shifted.toInt / 146097 ∧ shifted.toInt / 146097 < 2 ^ 48 := by omega
    generalize shifted.toInt / 146097 = era at hera hera' hleap
    clear hdayOfYear hyearOfEra hdayOfEra hyear
    -- Months are counted from March, so that the leap day is the last of its year.
    obtain ⟨march, hmarch⟩ : ∃ march, march = (5 * d + 2) / 153 := ⟨_, rfl⟩
    have hmarch' : 0 ≤ march ∧ march ≤ 11 := by omega
    obtain ⟨month, hmonth⟩ : ∃ month : ℕ, (month : ℤ) = if march < 10 then march + 3 else march - 9 :=
      ⟨(if march < 10 then march + 3 else march - 9).toNat, Int.toNat_of_nonneg (by split_ifs <;> omega)⟩
    obtain ⟨day, hday⟩ : ∃ day : ℕ, (day : ℤ) = d - (153 * march + 2) / 5 + 1 :=
      ⟨(d - (153 * march + 2) / 5 + 1).toNat, Int.toNat_of_nonneg (by omega)⟩
    obtain ⟨hdate, hnumber⟩ := isDate_of_marchDay hyears hdays hleap hmarch hday hmonth rfl
    have hmonthFromMarch : ((val 5 * val d + val 2) / val 153 : I64) = val march := by
      simp (disch := omega) only [val_add, val_mul, val_div, hmarch]
    have hday' : (val d - (val 153 * val march + val 2) / val 5 + val 1 : I64) = val day := by
      simp (disch := omega) only [val_add, val_sub, val_mul, val_div, hday]
    have hmonth' : (if march < 10 then val march + val 3 else val march - val 9 : I64) = val month := by
      rw [hmonth]
      split_ifs
      · exact val_add (by omega)
      · exact val_sub (by omega)
    rw [hmonthFromMarch, val_bind, hday', val_bind, hmonth', val_bind]
    have hyear' : (val era * val 400 + val yearOfEra + val (if (month : ℤ) ≤ 2 then 1 else 0) : I64) =
        val (era * 400 + yearOfEra + (if month ≤ 2 then 1 else 0)) := by
      have hcast : (month : ℤ) ≤ 2 ↔ month ≤ 2 := by omega
      simp only [hcast]
      split_ifs <;> simp (disch := omega) only [val_add, val_mul]
    rw [hyear', val_bind]
    obtain ⟨result, hresult, hsome, hnone⟩ := convert_eq hdate
    -- What is counted by `dayNumber` is the day that was asked for.
    have hcount : days.toInt + dayNumber 1970 1 1 =
        dayNumber (era * 400 + yearOfEra + (if month ≤ 2 then 1 else 0)) month day := by
      rw [hnumber, dayNumber_epoch]
      omega
    rw [hcount, mem_years_iff hdate]
    exact ⟨result, hresult, hsome, hnone⟩

/-! ## The plain count -/

/-- The days before a date, added up from the whole years from year 0 on, the whole months and the
days, by the leap-year rule. -/
def daysBefore (year month day : ℕ) : ℤ :=
  ∑ y ∈ Finset.range year, yearLength y + ∑ m ∈ Finset.Ico 1 month, monthLength year m + (day - 1)

/-- The days from 1970-01-01 to a date, added up. -/
def countDays (year month day : ℕ) : ℤ := daysBefore year month day - daysBefore 1970 1 1

/-- The days that lie within the years FIX can write. -/
def InYears (days : ℤ) : Prop := countDays 0 1 1 ≤ days ∧ days ≤ countDays 9999 12 31

theorem countDays_eq (year month day : ℕ) :
    countDays year month day = dayNumber year month day - dayNumber 1970 1 1 := by
  have h : ∀ y m d : ℕ, daysBefore y m d = dayNumber y m d := fun y m d => by
    rw [daysBefore, dayNumber, yearStart_eq_sum, monthStart]
  rw [countDays, h, h]
  rfl

theorem inYears_iff {days : ℤ} : InYears days ↔
    dayNumber 0 1 1 ≤ days + dayNumber 1970 1 1 ∧
      days + dayNumber 1970 1 1 ≤ dayNumber 9999 12 31 := by
  rw [InYears, countDays_eq, countDays_eq]
  exact and_congr sub_le_iff_le_add le_sub_iff_add_le

/-! ## Reading a date -/

/-- A text is a year of four digits, and a month and a day of two. -/
def Writes (text : Bytes) (year month day : ℕ) : Prop :=
  ∃ y m d, text = y ++ (m ++ d) ∧ Digits 4 y year ∧ Digits 2 m month ∧ Digits 2 d day

theorem Writes.length_eq {text : Bytes} {year month day : ℕ} (h : Writes text year month day) :
    text.length = 8 := by
  obtain ⟨y, m, d, rfl, hy, hm, hd⟩ := h
  rw [List.length_append, List.length_append, hy.length_eq, hm.length_eq, hd.length_eq]

theorem new_eq_some_iff {year month day : ℕ} {d : Date} :
    new year month day = some d ↔ d.year = year ∧ d.month = month ∧ d.day = day := by
  unfold new
  constructor
  · split
    · intro h
      rw [← Option.some.inj h]
      exact ⟨rfl, rfl, rfl⟩
    · intro h
      cases h
  · rintro ⟨rfl, rfl, rfl⟩
    exact dif_pos d.valid

/-- **A date is read without a panic, and exactly where its text writes it.** -/
theorem parse_spec (text : Bytes) :
    ∃ result, parse text = .ok result ∧
      ∀ d, result = some d ↔ Writes text d.year d.month d.day := by
  by_cases hlength : text.length = 8
  · obtain ⟨y, m, d, rfl, hy, hm, hd⟩ : ∃ y m d : Bytes, text = y ++ (m ++ d) ∧
        y.length = 4 ∧ m.length = 2 ∧ d.length = 2 := by
      refine ⟨text.take 4, (text.drop 4).take 2, (text.drop 4).drop 2, ?_, ?_, ?_, ?_⟩
      · rw [List.take_append_drop, List.take_append_drop]
      · rw [List.length_take, hlength, min_eq_left (by omega)]
      · rw [List.length_take, List.length_drop, hlength, min_eq_left (by omega)]
      · rw [List.length_drop, List.length_drop, hlength]
    -- The three slices are in bounds, so they are `y`, `m` and `d`.
    have hyear : Checked.slice (y ++ (m ++ d)) 0 4 = .ok y := by
      rw [Checked.slice_eq (by omega) (by omega), slice, List.drop_zero, List.take_left' hy]
    have hmonth : Checked.slice (y ++ (m ++ d)) 4 6 = .ok m := by
      have hmiddle := slice_middle y m d
      rw [hy, hm] at hmiddle
      rw [Checked.slice_eq (by omega) (by omega), hmiddle]
    have hday : Checked.slice (y ++ (m ++ d)) 6 8 = .ok d := by
      have hmiddle := slice_middle (y ++ m) d []
      rw [List.length_append, hy, hm, hd, List.append_nil, List.append_assoc] at hmiddle
      rw [Checked.slice_eq (by omega) (by omega), hmiddle]
    refine ⟨(numeral? y).bind fun year => (numeral? m).bind fun month => (numeral? d).bind fun day =>
      new year month day, ?_, ?_⟩
    · unfold parse
      rw [if_neg (not_not.mpr hlength)]
      simp only [hyear, hmonth, hday, Checked.bind_ok, number_eq (show y.length ≤ 18 by omega),
        number_eq (show m.length ≤ 18 by omega), number_eq (show d.length ≤ 18 by omega)]
      -- A number of so few digits fits the type it is cast to, so no cast refuses it.
      cases hynum : numeral? y with
      | none => rfl
      | some year =>
        have hyear := (numeral?_eq_some_iff.mp hynum).lt
        rw [hy] at hyear
        simp only [Option.map_some, unsigned?_of_le (show year ≤ 65535 by omega)]
        cases hmnum : numeral? m with
        | none => rfl
        | some month =>
          have hmonth := (numeral?_eq_some_iff.mp hmnum).lt
          rw [hm] at hmonth
          simp only [Option.map_some, unsigned?_of_le (show month ≤ 255 by omega)]
          cases hdnum : numeral? d with
          | none => rfl
          | some day =>
            have hday := (numeral?_eq_some_iff.mp hdnum).lt
            rw [hd] at hday
            simp only [Option.map_some, unsigned?_of_le (show day ≤ 255 by omega)]
            rfl
    · intro date
      simp only [Option.bind_eq_some_iff, numeral?_eq_some_iff, new_eq_some_iff, hy, hm, hd]
      constructor
      · rintro ⟨year, hyear, month, hmonth, day, hday, rfl, rfl, rfl⟩
        exact ⟨y, m, d, rfl, hyear, hmonth, hday⟩
      · rintro ⟨y', m', d', heq, hy', hm', hd'⟩
        -- The widths are fixed, so a text splits in one way only.
        obtain ⟨rfl, hrest⟩ := List.append_inj heq (hy.trans hy'.length_eq.symm)
        obtain ⟨rfl, rfl⟩ := List.append_inj hrest (hm.trans hm'.length_eq.symm)
        exact ⟨_, hy', _, hm', _, hd', rfl, rfl, rfl⟩
  · refine ⟨none, ?_, fun d => ⟨fun h => absurd h (by simp), ?_⟩⟩
    · unfold parse
      rw [if_pos hlength]
      rfl
    · exact fun h => absurd h.length_eq hlength

end Date

end Refix.Message
