import Refix.Value.Date

/-!
# Months

A FIX MonthYear, such as a contract's maturity, with an optional day or week of the month. A date
and a month are each written in exactly one way, and read from nothing else.
-/

namespace Refix.Message

open Refix.Foundation Refix.Foundation.Calendar

/-! ## Texts of a fixed width -/

theorem digits_iff {width n : ℕ} {digits : Bytes} :
    Digits width digits n ↔ n < 10 ^ width ∧ digits = fixedDigits width n := by
  constructor
  · intro h
    refine ⟨h.lt, ?_⟩
    rw [eq_fixedDigits h.isDigit, h.length_eq, h.value_eq]
  · rintro ⟨hlt, rfl⟩
    exact ⟨length_fixedDigits width n, fun _ => isAsciiDigit_of_mem_fixedDigits,
      decimalValue_fixedDigits hlt⟩

/-- How the date is written. -/
def Date.text (d : Date) : Bytes :=
  fixedDigits 4 d.year ++ (fixedDigits 2 d.month ++ fixedDigits 2 d.day)

theorem Date.writes_iff_text {text : Bytes} {d : Date} :
    Writes text d.year d.month d.day ↔ text = d.text := by
  have hyear := d.valid.1
  have hmonth := d.valid.2.1.2
  have hday := d.day_le
  simp only [Writes, digits_iff]
  constructor
  · rintro ⟨y, m, d', rfl, ⟨-, rfl⟩, ⟨-, rfl⟩, -, rfl⟩
    rfl
  · rintro rfl
    exact ⟨_, _, _, rfl, ⟨by omega, rfl⟩, ⟨by omega, rfl⟩, by omega, rfl⟩

/-! ## Months -/

inductive DayOrWeek where
  | day (day : ℕ)
  | week (week : ℕ)
  deriving DecidableEq, Repr

/-- Whether the month, and the day or week of it, exist. The month exists if its first day
does. -/
def DayOrWeek.valid (year month : ℕ) : Option DayOrWeek → Bool
  | none => (Date.new year month 1).isSome
  | some (.day d) => (Date.new year month d).isSome
  | some (.week w) => (Date.new year month 1).isSome && decide (1 ≤ w ∧ w ≤ 5)

/-- A FIX MonthYear. -/
structure MonthYear where
  year : ℕ
  month : ℕ
  dayOrWeek : Option DayOrWeek
  valid : DayOrWeek.valid year month dayOrWeek = true
  deriving DecidableEq

namespace MonthYear

def checked (year month : ℕ) (dayOrWeek : Option DayOrWeek) : Option MonthYear :=
  if h : DayOrWeek.valid year month dayOrWeek = true then some ⟨year, month, dayOrWeek, h⟩
  else none

/-- The month `month` of `year`, if it exists and the year fits FIX's four digits. -/
def new (year month : ℕ) : Option MonthYear := checked year month none

/-- The day `day` of `month` in `year`, if that date exists. -/
def withDay (year month day : ℕ) : Option MonthYear := checked year month (some (.day day))

/-- The week `week` of `month` in `year`, from `1` to `5`. -/
def withWeek (year month week : ℕ) : Option MonthYear := checked year month (some (.week week))

/-- The day of the month, if one was given. -/
def day (v : MonthYear) : Option ℕ :=
  match v.dayOrWeek with
  | some (.day day) => some day
  | _ => none

/-- The week of the month, from `1` to `5`, if one was given. -/
def week (v : MonthYear) : Option ℕ :=
  match v.dayOrWeek with
  | some (.week week) => some week
  | _ => none

def letterW : UInt8 := 119

/-- Reads what follows the month: nothing, the week behind a `w`, or the day. -/
def parseRest (year month : ℕ) (rest : Bytes) : Except Panic (Option MonthYear) :=
  match rest with
  | [] => .ok (new year month)
  | [first, second] =>
    if first = letterW ∧ isAsciiDigit second = true then
      .ok (withWeek year month (digitValue second))
    else do
      let some day ← number [first, second] | return none
      let some day := Date.unsigned? 255 day | return none
      return withDay year month day
  | _ => .ok none

/-- Reads a FIX MonthYear such as `202612`, `20261218` or `202612w3`. -/
def parse (text : Bytes) : Except Panic (Option MonthYear) := do
  if text.length < 6 then return none
  let yearMonth := text.take 6
  let some year ← number (← Checked.slice yearMonth 0 4) | return none
  let some year := Date.unsigned? 65535 year | return none
  let some month ← number (← Checked.slice yearMonth 4 6) | return none
  let some month := Date.unsigned? 255 month | return none
  parseRest year month (text.drop 6)

/-- How what follows the month is written. -/
def restText : Option DayOrWeek → Bytes
  | none => []
  | some (.day day) => fixedDigits 2 day
  | some (.week week) => [letterW, digitByte week]

/-- How the month is written. -/
def text (v : MonthYear) : Bytes :=
  fixedDigits 4 v.year ++ (fixedDigits 2 v.month ++ restText v.dayOrWeek)

theorem checked_eq_some_iff {year month : ℕ} {dayOrWeek : Option DayOrWeek} {v : MonthYear} :
    checked year month dayOrWeek = some v ↔
      v.year = year ∧ v.month = month ∧ v.dayOrWeek = dayOrWeek := by
  unfold checked
  constructor
  · split
    · intro h
      rw [← Option.some.inj h]
      exact ⟨rfl, rfl, rfl⟩
    · intro h
      cases h
  · rintro ⟨rfl, rfl, rfl⟩
    exact dif_pos v.valid

/-- A month is known by its year, its month, its day and its week. -/
theorem ext_parts {v w : MonthYear} (hyear : v.year = w.year) (hmonth : v.month = w.month)
    (hday : v.day = w.day) (hweek : v.week = w.week) : v = w := by
  obtain ⟨year, month, dayOrWeek, hvalid⟩ := v
  obtain ⟨year', month', dayOrWeek', hvalid'⟩ := w
  obtain rfl : year = year' := hyear
  obtain rfl : month = month' := hmonth
  -- a month has a day or a week or neither, so that the two tell which it is
  have hsame : dayOrWeek = dayOrWeek' := by
    match dayOrWeek, dayOrWeek' with
    | none, none => rfl
    | none, some (.day _) => simp [day] at hday
    | none, some (.week _) => simp [week] at hweek
    | some (.day _), none => simp [day] at hday
    | some (.week _), none => simp [week] at hweek
    | some (.day _), some (.day _) => simpa [day] using hday
    | some (.day _), some (.week _) => simp [day] at hday
    | some (.week _), some (.day _) => simp [day] at hday
    | some (.week _), some (.week _) => simpa [week] using hweek
  subst hsame
  rfl

/-- The numbers of a month fit the digits they are written with. -/
theorem bounds (v : MonthYear) : v.year ≤ 9999 ∧ v.month ≤ 12 ∧
    match v.dayOrWeek with
    | none => True
    | some (.day day) => day ≤ 31
    | some (.week week) => 1 ≤ week ∧ week ≤ 5 := by
  have hdate : ∀ {day}, (Date.new v.year v.month day).isSome = true →
      v.year ≤ 9999 ∧ v.month ≤ 12 ∧ day ≤ 31 := by
    intro day h
    obtain ⟨d, hd⟩ := Option.isSome_iff_exists.mp h
    obtain ⟨hyear, hmonth, rfl⟩ := Date.new_eq_some_iff.mp hd
    rw [← hyear, ← hmonth]
    exact ⟨d.valid.1, d.valid.2.1.2, d.day_le⟩
  have hvalid := v.valid
  cases hcase : v.dayOrWeek with
  | none =>
    rw [hcase] at hvalid
    obtain ⟨hyear, hmonth, -⟩ := hdate hvalid
    exact ⟨hyear, hmonth, trivial⟩
  | some dayOrWeek =>
    rw [hcase] at hvalid
    cases dayOrWeek with
    | day day => exact hdate hvalid
    | week week =>
      simp only [DayOrWeek.valid, Bool.and_eq_true, decide_eq_true_eq] at hvalid
      obtain ⟨hyear, hmonth, -⟩ := hdate hvalid.1
      exact ⟨hyear, hmonth, hvalid.2⟩

/-! ### What follows the month -/

theorem length_restText (dayOrWeek : Option DayOrWeek) :
    (restText dayOrWeek).length = 0 ∨ (restText dayOrWeek).length = 2 := by
  match dayOrWeek with
  | none => exact Or.inl rfl
  | some (.day day) => exact Or.inr (length_fixedDigits 2 day)
  | some (.week week) => exact Or.inr rfl

section Rest

variable {v : MonthYear} {year month : ℕ} {first second : UInt8}

theorem nil_eq_restText_iff : [] = restText v.dayOrWeek ↔ v.dayOrWeek = none := by
  cases hcase : v.dayOrWeek with
  | none => simp [restText]
  | some dayOrWeek =>
    cases dayOrWeek <;> simp [restText, fixedDigits]

/-- A `w` and a digit are the text of a week only: no day begins with a letter. -/
theorem week_eq_restText_iff (hdigit : isAsciiDigit second = true) :
    [letterW, second] = restText v.dayOrWeek ↔
      v.dayOrWeek = some (.week (digitValue second)) := by
  have hbounds := v.bounds.2.2
  cases hcase : v.dayOrWeek with
  | none => simp [restText]
  | some dayOrWeek =>
    rw [hcase] at hbounds
    cases dayOrWeek with
    | day day =>
      have hne : letterW ≠ digitByte (day / 10 % 10) := by
        intro heq
        have htens := isAsciiDigit_digitByte (Nat.mod_lt (day / 10) (show 0 < 10 by decide))
        rw [← heq] at htens
        exact absurd htens (by decide)
      simp [restText, fixedDigits, hne]
    | week week =>
      -- weeks have one digit, which is read back
      have hlt : week < 10 := by omega
      simp only [restText, List.cons.injEq, true_and, and_true, Option.some.injEq,
        DayOrWeek.week.injEq]
      constructor
      · rintro rfl
        exact (digitValue_digitByte hlt).symm
      · rintro rfl
        exact (digitByte_digitValue hdigit).symm

/-- Two bytes that are not a `w` and a digit are the text of a day only. -/
theorem day_eq_restText_iff (hweek : ¬ (first = letterW ∧ isAsciiDigit second = true)) :
    [first, second] = restText v.dayOrWeek ↔
      ∃ day, Digits 2 [first, second] day ∧ v.dayOrWeek = some (.day day) := by
  have hbounds := v.bounds.2.2
  cases hcase : v.dayOrWeek with
  | none => simp [restText]
  | some dayOrWeek =>
    rw [hcase] at hbounds
    cases dayOrWeek with
    | day day =>
      simp only [restText, digits_iff, Option.some.injEq, DayOrWeek.day.injEq, exists_eq_right']
      exact ⟨fun h => ⟨by omega, h⟩, fun h => h.2⟩
    | week week =>
      constructor
      · intro heq
        obtain ⟨rfl, hsecond⟩ := List.cons.inj heq
        obtain ⟨rfl, -⟩ := List.cons.inj hsecond
        -- a week that exists is written with a `w` and a digit
        exact absurd ⟨rfl, isAsciiDigit_digitByte (show week < 10 by omega)⟩ hweek
      · rintro ⟨_, -, h⟩
        cases h

/-- Two bytes that are not a week are read as the number of a day, if they are one. -/
theorem parseRest_day (hweek : ¬ (first = letterW ∧ isAsciiDigit second = true)) :
    parseRest year month [first, second] =
      .ok ((numeral? [first, second]).bind fun day => withDay year month day) := by
  unfold parseRest
  dsimp only
  rw [if_neg hweek, number_eq (show [first, second].length ≤ 18 by simp)]
  cases hnumber : numeral? [first, second] with
  | none => rfl
  | some day =>
    have hlt := (numeral?_eq_some_iff.mp hnumber).lt
    have hle : day ≤ 255 := by
      have htwo : [first, second].length = 2 := rfl
      rw [htwo] at hlt
      omega
    simp only [Option.map_some, Checked.bind_ok, Date.unsigned?_of_le hle]
    rfl

end Rest

/-- **What follows the month is read exactly.** -/
theorem parseRest_spec (year month : ℕ) (rest : Bytes) :
    ∃ result, parseRest year month rest = .ok result ∧ ∀ v, result = some v ↔
      v.year = year ∧ v.month = month ∧ rest = restText v.dayOrWeek := by
  -- no text has another length
  have hother : rest.length ≠ 0 → rest.length ≠ 2 → ∀ v : MonthYear,
      (none : Option MonthYear) = some v ↔
        v.year = year ∧ v.month = month ∧ rest = restText v.dayOrWeek := by
    intro hzero htwo v
    constructor
    · intro h
      cases h
    · rintro ⟨-, -, rfl⟩
      exact absurd (length_restText v.dayOrWeek) (not_or.mpr ⟨hzero, htwo⟩)
  match rest with
  | [] =>
    refine ⟨new year month, rfl, fun v => ?_⟩
    rw [new, checked_eq_some_iff, nil_eq_restText_iff]
  | [first, second] =>
    by_cases hweek : first = letterW ∧ isAsciiDigit second = true
    · obtain ⟨rfl, hdigit⟩ := hweek
      refine ⟨withWeek year month (digitValue second), if_pos ⟨rfl, hdigit⟩, fun v => ?_⟩
      rw [withWeek, checked_eq_some_iff, week_eq_restText_iff hdigit]
    · refine ⟨_, parseRest_day hweek, fun v => ?_⟩
      simp only [Option.bind_eq_some_iff, numeral?_eq_some_iff, withDay, checked_eq_some_iff,
        day_eq_restText_iff hweek]
      constructor
      · rintro ⟨day, hday, hyear, hmonth, hcase⟩
        exact ⟨hyear, hmonth, day, hday, hcase⟩
      · rintro ⟨hyear, hmonth, day, hday, hcase⟩
        exact ⟨day, hday, hyear, hmonth, hcase⟩
  | [first] => exact ⟨none, rfl, hother (by simp) (by simp)⟩
  | first :: second :: third :: rest => exact ⟨none, rfl, hother (by simp) (by simp)⟩

/-! ### The whole text -/

/-- The text is that of a month exactly if its parts are. -/
theorem append_eq_text_iff {y m rest : Bytes} (hy : y.length = 4) (hm : m.length = 2)
    {v : MonthYear} : y ++ (m ++ rest) = v.text ↔
      Digits 4 y v.year ∧ Digits 2 m v.month ∧ rest = restText v.dayOrWeek := by
  obtain ⟨hyearLe, hmonthLe, -⟩ := v.bounds
  rw [MonthYear.text, digits_iff, digits_iff]
  constructor
  · intro heq
    obtain ⟨hyearText, hbehind⟩ := List.append_inj heq (by rw [hy, length_fixedDigits])
    obtain ⟨hmonthText, hrestText⟩ := List.append_inj hbehind (by rw [hm, length_fixedDigits])
    exact ⟨⟨by omega, hyearText⟩, ⟨by omega, hmonthText⟩, hrestText⟩
  · rintro ⟨⟨-, rfl⟩, ⟨-, rfl⟩, rfl⟩
    rfl

/-- **A month is read without a panic, and from its own text only.** -/
theorem parse_spec (text : Bytes) :
    ∃ result, parse text = .ok result ∧ ∀ v, result = some v ↔ text = v.text := by
  by_cases hlength : text.length < 6
  · refine ⟨none, ?_, fun v => ?_⟩
    · unfold parse
      rw [if_pos hlength]
      rfl
    · constructor
      · intro h
        cases h
      · rintro rfl
        rw [MonthYear.text, List.length_append, List.length_append, length_fixedDigits,
          length_fixedDigits] at hlength
        omega
  · obtain ⟨y, m, rest, rfl, hy, hm⟩ : ∃ y m rest : Bytes, text = y ++ (m ++ rest) ∧
        y.length = 4 ∧ m.length = 2 := by
      refine ⟨text.take 4, (text.drop 4).take 2, (text.drop 4).drop 2, ?_, ?_, ?_⟩
      · rw [List.take_append_drop, List.take_append_drop]
      · rw [List.length_take, min_eq_left (by omega)]
      · rw [List.length_take, List.length_drop, min_eq_left (by omega)]
    -- The first six bytes are the year and the month, and `parseRest` reads the others.
    have hyearMonth : (y ++ (m ++ rest)).take 6 = y ++ m := by
      rw [← List.append_assoc, List.take_left' (by rw [List.length_append, hy, hm])]
    have hrest : (y ++ (m ++ rest)).drop 6 = rest := by
      rw [← List.append_assoc, List.drop_left' (by rw [List.length_append, hy, hm])]
    have hyear : Checked.slice (y ++ m) 0 4 = .ok y := by
      rw [Checked.slice_eq (by omega) (by rw [List.length_append]; omega), slice, List.drop_zero,
        List.take_left' hy]
    have hmonth : Checked.slice (y ++ m) 4 6 = .ok m := by
      have hmiddle := slice_middle y m []
      rw [hy, hm, List.append_nil] at hmiddle
      rw [Checked.slice_eq (by omega) (by rw [List.length_append]; omega), hmiddle]
    unfold parse
    rw [if_neg hlength]
    simp only [hyearMonth, hrest, hyear, hmonth, Checked.bind_ok,
      number_eq (show y.length ≤ 18 by omega), number_eq (show m.length ≤ 18 by omega),
      append_eq_text_iff hy hm]
    cases hynum : numeral? y with
    | none =>
      refine ⟨none, rfl, fun v => ⟨fun h => absurd h (by simp), ?_⟩⟩
      rintro ⟨h, -⟩
      rw [← hy] at h
      rw [numeral?_eq_some_iff.mpr h] at hynum
      cases hynum
    | some year =>
      have hyearDigits := numeral?_eq_some_iff.mp hynum
      rw [hy] at hyearDigits
      have hyearLt := hyearDigits.lt
      simp only [Option.map_some, Date.unsigned?_of_le (show year ≤ 65535 by omega)]
      cases hmnum : numeral? m with
      | none =>
        refine ⟨none, rfl, fun v => ⟨fun h => absurd h (by simp), ?_⟩⟩
        rintro ⟨-, h, -⟩
        rw [← hm] at h
        rw [numeral?_eq_some_iff.mpr h] at hmnum
        cases hmnum
      | some month =>
        have hmonthDigits := numeral?_eq_some_iff.mp hmnum
        rw [hm] at hmonthDigits
        have hmonthLt := hmonthDigits.lt
        simp only [Option.map_some, Date.unsigned?_of_le (show month ≤ 255 by omega)]
        obtain ⟨result, hresult, hread⟩ := parseRest_spec year month rest
        refine ⟨result, hresult, fun v => ?_⟩
        rw [hread]
        constructor
        · rintro ⟨rfl, rfl, hrest⟩
          exact ⟨hyearDigits, hmonthDigits, hrest⟩
        · rintro ⟨hyear', hmonth', hrest⟩
          exact ⟨hyear'.value_eq.symm.trans hyearDigits.value_eq,
            hmonth'.value_eq.symm.trans hmonthDigits.value_eq, hrest⟩

end MonthYear

/-- **Dates and months are each read from exactly one text**, and no text makes reading panic. -/
theorem dates_read_from_text (text : Bytes) :
    (∃ result, Date.parse text = .ok result ∧ ∀ d, result = some d ↔ text = d.text) ∧
      ∃ result, MonthYear.parse text = .ok result ∧ ∀ v, result = some v ↔ text = v.text := by
  constructor
  · obtain ⟨result, hresult, hread⟩ := Date.parse_spec text
    refine ⟨result, hresult, fun d => ?_⟩
    rw [hread, Date.writes_iff_text]
  · exact MonthYear.parse_spec text

end Refix.Message
