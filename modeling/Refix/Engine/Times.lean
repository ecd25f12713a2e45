import Refix.Value.Integer
import Refix.Value.Texts

/-!
# Dates and Times in Python

What the Python engine makes of a date, a time of day and a timestamp: Python's own types hold no
year 0, no leap second and nothing finer than a microsecond. Every value that can be read is
converted, but for a date of year 0, and to the microsecond it lies in. A month-year has a type
of its own, and keeps its parts.
-/

namespace Refix.Message

open Refix.Foundation Refix.Foundation.Calendar

/-! ## Reading a field -/

/-- How reading a field may fail. -/
inductive GetFailure where
  /-- A field's value could not be read as its type. -/
  | invalidValue (tag : Tag)
  /-- A part is out of the range of Python's own type. -/
  | valueError
  | panic
  deriving DecidableEq, Repr

/-- A panic is one, wherever it comes up. -/
def panicking {α : Type} : Except Panic α → Except GetFailure α
  | .ok a => .ok a
  | .error _ => .error .panic

namespace Scope

/-- First occurrence of `tag` as `parse` reads it, or nothing when absent. -/
def getParsed {α : Type} (parse : Bytes → Except Panic (Option α)) (scope : Scope) (tag : Tag) :
    Except GetFailure (Option α) := do
  let some value := scope.get tag | return none
  let some value ← panicking (parse value) | throw (.invalidValue tag)
  return some value

/-- First occurrence of `tag` parsed as a UTC timestamp. -/
def getUtcTimestamp : Scope → Tag → Except GetFailure (Option UtcTimestamp) :=
  getParsed UtcTimestamp.parse

/-- First occurrence of `tag` parsed as a date. -/
def getDate : Scope → Tag → Except GetFailure (Option Date) := getParsed Date.parse

/-- First occurrence of `tag` parsed as a time of day. -/
def getTime : Scope → Tag → Except GetFailure (Option Time) := getParsed Time.parse

/-- First occurrence of `tag` parsed as a month. -/
def getMonthYear : Scope → Tag → Except GetFailure (Option MonthYear) := getParsed MonthYear.parse

section Parsed

variable {α : Type} {parse : Bytes → Except Panic (Option α)} {scope : Scope} {tag : Tag}
  {value : Bytes}

theorem getParsed_of_some (h : scope.get tag = some value) {a : α}
    (hparse : parse value = .ok (some a)) : scope.getParsed parse tag = .ok (some a) := by
  simp only [getParsed, h, hparse]
  rfl

theorem getParsed_of_none (h : scope.get tag = some value) (hparse : parse value = .ok none) :
    scope.getParsed parse tag = .error (.invalidValue tag) := by
  simp only [getParsed, h, hparse]
  rfl

end Parsed

end Scope

end Refix.Message

namespace Refix.Engine

open Refix.Foundation Refix.Foundation.Calendar
open Refix.Message (Scope Tag Bytes ascii GetFailure panicking Date Time UtcTimestamp MonthYear)

/-! ## Python's types -/

/-- Python's `datetime.date`, which starts at year 1. -/
structure PyDate where
  year : ℕ
  month : ℕ
  day : ℕ
  valid : (1 ≤ year ∧ year ≤ 9999) ∧ (1 ≤ month ∧ month ≤ 12) ∧ 1 ≤ day ∧
    day ≤ monthLength year month

def PyDate.new (year month day : ℕ) : Except GetFailure PyDate :=
  if h : (1 ≤ year ∧ year ≤ 9999) ∧ (1 ≤ month ∧ month ≤ 12) ∧ 1 ≤ day ∧
      day ≤ monthLength year month then
    .ok ⟨year, month, day, h⟩
  else .error .valueError

/-- Python's `datetime.time`. -/
structure PyTime where
  hour : ℕ
  minute : ℕ
  second : ℕ
  microsecond : ℕ
  valid : hour < 24 ∧ minute < 60 ∧ second < 60 ∧ microsecond < 1000000

def PyTime.new (hour minute second microsecond : ℕ) : Except GetFailure PyTime :=
  if h : hour < 24 ∧ minute < 60 ∧ second < 60 ∧ microsecond < 1000000 then
    .ok ⟨hour, minute, second, microsecond, h⟩
  else .error .valueError

/-- Microseconds since midnight. -/
def PyTime.micros (t : PyTime) : ℤ :=
  ((t.hour * 60 + t.minute) * 60 + t.second) * 1000000 + t.microsecond

/-- Python's `datetime.datetime` in UTC. -/
structure PyDateTime where
  date : PyDate
  time : PyTime

def PyDateTime.new (year month day hour minute second microsecond : ℕ) :
    Except GetFailure PyDateTime := do
  let date ← PyDate.new year month day
  let time ← PyTime.new hour minute second microsecond
  return ⟨date, time⟩

/-- Microseconds since the Unix epoch. -/
def PyDateTime.micros (t : PyDateTime) : ℤ :=
  Date.countDays t.date.year t.date.month t.date.day * 86400000000 + t.time.micros

/-- The engine's `MonthYear` in Python, with an optional day or week. -/
structure PyMonthYear where
  year : ℕ
  month : ℕ
  day : Option ℕ
  week : Option ℕ
  deriving DecidableEq, Repr

/-- The parts are those of the month. -/
structure PyMonthYear.Shows (read : PyMonthYear) (v : MonthYear) : Prop where
  year_eq : read.year = v.year
  month_eq : read.month = v.month
  day_eq : read.day = v.day
  week_eq : read.week = v.week

/-! ## The getters -/

/-- The conversions `as u8` and `as u32`. -/
def wrapping (bits : ℕ) (n : ℤ) : ℕ := (n % 2 ^ bits).toNat

/-- The hour, minute, second and microsecond of a time within a day, truncating nanoseconds. -/
def clock (nanosSinceMidnight : ℤ) : ℕ × ℕ × ℕ × ℕ :=
  let seconds := nanosSinceMidnight.tdiv 1000000000
  let microsecond := (nanosSinceMidnight.tmod 1000000000).tdiv 1000
  (wrapping 8 (seconds.tdiv 3600), wrapping 8 ((seconds.tdiv 60).tmod 60),
    wrapping 8 (seconds.tmod 60), wrapping 32 microsecond)

def getUtcTimestamp (scope : Scope) (tag : Tag) : Except GetFailure (Option PyDateTime) := do
  let some value ← scope.getUtcTimestamp tag | return none
  let date ← panicking value.date
  let time ← panicking value.time
  let (hour, minute, second, microsecond) := clock time.nanosSinceMidnight
  return some (← PyDateTime.new date.year date.month date.day hour minute second microsecond)

def getUtcTimestampNs (scope : Scope) (tag : Tag) : Except GetFailure (Option Int64) := do
  let some value ← scope.getUtcTimestamp tag | return none
  return some value.unixNanos

def getDate (scope : Scope) (tag : Tag) : Except GetFailure (Option PyDate) := do
  let some value ← scope.getDate tag | return none
  -- Python's dates start at year 1
  if value.year = 0 then throw (.invalidValue tag)
  return some (← PyDate.new value.year value.month value.day)

def getTime (scope : Scope) (tag : Tag) : Except GetFailure (Option PyTime) := do
  let some value ← scope.getTime tag | return none
  -- Python's times stop at 23:59:59.999999, so a leap second clamps to it
  let nanos := min value.nanosSinceMidnight 86399999999999
  let (hour, minute, second, microsecond) := clock nanos
  return some (← PyTime.new hour minute second microsecond)

def getTimeNs (scope : Scope) (tag : Tag) : Except GetFailure (Option ℤ) := do
  let some value ← scope.getTime tag | return none
  return some value.nanosSinceMidnight

def getMonthYear (scope : Scope) (tag : Tag) : Except GetFailure (Option PyMonthYear) := do
  let some value ← scope.getMonthYear tag | return none
  return some ⟨value.year, value.month, value.day, value.week⟩

/-! ## What they return -/

theorem wrapping_of_lt {bits m : ℕ} (h : m < 2 ^ bits) : wrapping bits (m : ℤ) = m := by
  have hmod : (m : ℤ) % 2 ^ bits = m := Int.emod_eq_of_lt (by omega) (by exact_mod_cast h)
  rw [wrapping, hmod, Int.toNat_natCast]

/-- Nothing is cut off the parts of a time within a day. -/
theorem clock_eq {n : ℕ} (h : n < 86400000000000) :
    clock n = (n / 1000000000 / 3600, n / 1000000000 / 60 % 60, n / 1000000000 % 60,
      n % 1000000000 / 1000) := by
  have hseconds : (n : ℤ).tdiv 1000000000 = (n / 1000000000 : ℕ) :=
    (Int.ofNat_tdiv n 1000000000).symm
  have hfraction : (n : ℤ).tmod 1000000000 = (n % 1000000000 : ℕ) :=
    (Int.ofNat_tmod n 1000000000).symm
  have hhour : ((n / 1000000000 : ℕ) : ℤ).tdiv 3600 = (n / 1000000000 / 3600 : ℕ) :=
    (Int.ofNat_tdiv _ 3600).symm
  have hminute : (((n / 1000000000 : ℕ) : ℤ).tdiv 60).tmod 60 = (n / 1000000000 / 60 % 60 : ℕ) := by
    have hminutes : ((n / 1000000000 : ℕ) : ℤ).tdiv 60 = (n / 1000000000 / 60 : ℕ) :=
      (Int.ofNat_tdiv _ 60).symm
    rw [hminutes]
    exact (Int.ofNat_tmod _ 60).symm
  have hsecond : ((n / 1000000000 : ℕ) : ℤ).tmod 60 = (n / 1000000000 % 60 : ℕ) :=
    (Int.ofNat_tmod _ 60).symm
  have hmicro : ((n % 1000000000 : ℕ) : ℤ).tdiv 1000 = (n % 1000000000 / 1000 : ℕ) :=
    (Int.ofNat_tdiv _ 1000).symm
  have hbytes : n / 1000000000 / 3600 < 2 ^ 8 ∧ n / 1000000000 / 60 % 60 < 2 ^ 8 ∧
      n / 1000000000 % 60 < 2 ^ 8 ∧ n % 1000000000 / 1000 < 2 ^ 32 := by omega
  simp only [clock, hseconds, hfraction, hhour, hminute, hsecond, hmicro,
    wrapping_of_lt hbytes.1, wrapping_of_lt hbytes.2.1, wrapping_of_lt hbytes.2.2.1,
    wrapping_of_lt hbytes.2.2.2]

/-- The clock of a time within a day is one of Python's, and shows its microsecond. -/
theorem clock_spec {nanos : ℤ} (hlo : 0 ≤ nanos) (hhi : nanos < 86400000000000) :
    ∃ t : PyTime, PyTime.new (clock nanos).1 (clock nanos).2.1 (clock nanos).2.2.1
        (clock nanos).2.2.2 = .ok t ∧ t.micros = nanos / 1000 := by
  obtain ⟨n, rfl⟩ := Int.eq_ofNat_of_zero_le hlo
  have hn : n < 86400000000000 := by omega
  have hvalid : n / 1000000000 / 3600 < 24 ∧ n / 1000000000 / 60 % 60 < 60 ∧
      n / 1000000000 % 60 < 60 ∧ n % 1000000000 / 1000 < 1000000 := by omega
  rw [clock_eq hn]
  refine ⟨⟨_, _, _, _, hvalid⟩, dif_pos hvalid, ?_⟩
  simp only [PyTime.micros]
  omega

/-- A date from year 1 on is one of Python's. -/
theorem PyDate.new_of_date (d : Date) (h : 1 ≤ d.year) :
    ∃ date : PyDate, PyDate.new d.year d.month d.day = .ok date ∧ date.year = d.year ∧
      date.month = d.month ∧ date.day = d.day := by
  have hle := d.isDate.day_le
  obtain ⟨hyear, hmonth, hday, -⟩ := d.valid
  have hvalid : (1 ≤ d.year ∧ d.year ≤ 9999) ∧ (1 ≤ d.month ∧ d.month ≤ 12) ∧ 1 ≤ d.day ∧
      d.day ≤ monthLength d.year d.month := ⟨⟨h, hyear⟩, hmonth, hday, by exact_mod_cast hle⟩
  exact ⟨⟨_, _, _, hvalid⟩, dif_pos hvalid, rfl, rfl, rfl⟩

/-- The instants of a timestamp all lie long after year 0. -/
theorem one_le_year {t : UtcTimestamp} {d : Date}
    (h : Date.countDays d.year d.month d.day = t.unixNanos.toInt / Message.nanosPerDay) :
    1 ≤ d.year := by
  by_contra hzero
  have hyear : d.year = 0 := by omega
  have hlo := Int64.le_toInt t.unixNanos
  have hmem := d.isDate.dayNumber_mem
  rw [Date.countDays_eq, Date.dayNumber_epoch, Message.nanosPerDay] at h
  rw [hyear] at hmem h
  simp only [yearStart] at hmem
  omega

/-- What Python's getters make of a field's value. -/
structure ReadsTimes (scope : Scope) (tag : Tag) (value : Bytes) : Prop where
  /-- A timestamp is read as the microsecond it lies in. -/
  timestamp : ∀ t, UtcTimestamp.parse value = .ok (some t) →
    ∃ read, getUtcTimestamp scope tag = .ok (some read) ∧ read.micros = t.unixNanos.toInt / 1000
  timestamp_ns : ∀ t, UtcTimestamp.parse value = .ok (some t) →
    getUtcTimestampNs scope tag = .ok (some t.unixNanos)
  /-- A time is read as the microsecond it lies in, a leap second as the last one of the day. -/
  time : ∀ t, Time.parse value = .ok (some t) →
    ∃ read, getTime scope tag = .ok (some read) ∧
      read.micros = min (t.nanosSinceMidnight / 1000) 86399999999
  time_ns : ∀ t, Time.parse value = .ok (some t) →
    getTimeNs scope tag = .ok (some t.nanosSinceMidnight)
  /-- A date is read as itself, but for one of year 0. -/
  date : ∀ d, Date.parse value = .ok (some d) → 1 ≤ d.year →
    ∃ read, getDate scope tag = .ok (some read) ∧ read.year = d.year ∧ read.month = d.month ∧
      read.day = d.day
  date_zero : ∀ d, Date.parse value = .ok (some d) → d.year = 0 →
    getDate scope tag = .error (.invalidValue tag)
  /-- A month is read as its parts, which are those of no other month. -/
  month_year : ∀ v, MonthYear.parse value = .ok (some v) →
    ∃ read, getMonthYear scope tag = .ok (some read) ∧ ∀ w, read.Shows w ↔ w = v
  /-- Everything else is refused as an invalid value. -/
  refused : (UtcTimestamp.parse value = .ok none →
      getUtcTimestamp scope tag = .error (.invalidValue tag) ∧
        getUtcTimestampNs scope tag = .error (.invalidValue tag)) ∧
    (Time.parse value = .ok none →
      getTime scope tag = .error (.invalidValue tag) ∧
        getTimeNs scope tag = .error (.invalidValue tag)) ∧
    (Date.parse value = .ok none → getDate scope tag = .error (.invalidValue tag)) ∧
    (MonthYear.parse value = .ok none → getMonthYear scope tag = .error (.invalidValue tag))

/-- **Python reads every date and time that can be read**, but for a date of year 0, and to the
microsecond it lies in. -/
theorem times_read {scope : Scope} {tag : Tag} {value : Bytes} (h : scope.get tag = some value) :
    ReadsTimes scope tag value where
  timestamp := by
    intro t hparse
    obtain ⟨d, time, hdate, htime, -, hdays, hnanos⟩ := t.split_eq
    have hread : scope.getUtcTimestamp tag = .ok (some t) := Scope.getParsed_of_some h hparse
    -- the time of an instant is never a leap second, so that the clock takes it as it is
    have hday : 0 ≤ time.nanosSinceMidnight ∧ time.nanosSinceMidnight < 86400000000000 := by
      rw [hnanos, Message.nanosPerDay]
      omega
    obtain ⟨date, hnew, hyear, hmonth, hdayOf⟩ := PyDate.new_of_date d (one_le_year hdays)
    obtain ⟨clockTime, hclock, hmicros⟩ := clock_spec hday.1 hday.2
    refine ⟨⟨date, clockTime⟩, ?_, ?_⟩
    · simp only [getUtcTimestamp, hread, ok_bind, hdate, htime, panicking, PyDateTime.new, hnew,
        hclock]
      rfl
    · rw [PyDateTime.micros, hyear, hmonth, hdayOf, hmicros, hdays, hnanos, Message.nanosPerDay]
      omega
  timestamp_ns := by
    intro t hparse
    have hread : scope.getUtcTimestamp tag = .ok (some t) := Scope.getParsed_of_some h hparse
    simp only [getUtcTimestampNs, hread]
    rfl
  time := by
    intro t hparse
    have hread : scope.getTime tag = .ok (some t) := Scope.getParsed_of_some h hparse
    have hvalid := t.valid
    -- a leap second lies behind the day's end, and is held at the last nanosecond
    obtain ⟨clockTime, hclock, hmicros⟩ := clock_spec
      (show 0 ≤ min t.nanosSinceMidnight 86399999999999 by omega) (by omega)
    refine ⟨clockTime, ?_, ?_⟩
    · simp only [getTime, hread, ok_bind, hclock]
      rfl
    · rw [hmicros]
      omega
  time_ns := by
    intro t hparse
    have hread : scope.getTime tag = .ok (some t) := Scope.getParsed_of_some h hparse
    simp only [getTimeNs, hread]
    rfl
  date := by
    intro d hparse hyear
    have hread : scope.getDate tag = .ok (some d) := Scope.getParsed_of_some h hparse
    obtain ⟨date, hnew, hparts⟩ := PyDate.new_of_date d hyear
    refine ⟨date, ?_, hparts⟩
    simp only [getDate, hread, ok_bind, if_neg (show d.year ≠ 0 by omega), hnew]
    rfl
  date_zero := by
    intro d hparse hzero
    have hread : scope.getDate tag = .ok (some d) := Scope.getParsed_of_some h hparse
    simp only [getDate, hread, ok_bind, if_pos hzero]
    rfl
  month_year := by
    intro v hparse
    have hread : scope.getMonthYear tag = .ok (some v) := Scope.getParsed_of_some h hparse
    refine ⟨⟨v.year, v.month, v.day, v.week⟩, ?_, fun w => ⟨fun hshows => ?_, ?_⟩⟩
    · simp only [getMonthYear, hread]
      rfl
    · exact MonthYear.ext_parts hshows.year_eq.symm hshows.month_eq.symm hshows.day_eq.symm
        hshows.week_eq.symm
    · rintro rfl
      exact ⟨rfl, rfl, rfl, rfl⟩
  refused := by
    refine ⟨fun hparse => ?_, fun hparse => ?_, fun hparse => ?_, fun hparse => ?_⟩
    · have hread : scope.getUtcTimestamp tag = .error (.invalidValue tag) :=
        Scope.getParsed_of_none h hparse
      simp only [getUtcTimestamp, getUtcTimestampNs, hread]
      exact ⟨rfl, rfl⟩
    · have hread : scope.getTime tag = .error (.invalidValue tag) :=
        Scope.getParsed_of_none h hparse
      simp only [getTime, getTimeNs, hread]
      exact ⟨rfl, rfl⟩
    · have hread : scope.getDate tag = .error (.invalidValue tag) :=
        Scope.getParsed_of_none h hparse
      simp only [getDate, hread]
      rfl
    · have hread : scope.getMonthYear tag = .error (.invalidValue tag) :=
        Scope.getParsed_of_none h hparse
      simp only [getMonthYear, hread]
      rfl

/-- The middle of a leap second. -/
def leapSecond : Time := ⟨86400500000000, ⟨1, by decide⟩, by decide⟩

theorem times_read_leapSecond :
    ∃ read, getTime (Message.oneField 273 (ascii "23:59:60.5")) 273 = .ok (some read) ∧
      read.micros = 86399999999 := by
  have hget : (Message.oneField 273 (ascii "23:59:60.5")).get 273 = some (ascii "23:59:60.5") := by
    decide
  have hparse : Time.parse (ascii "23:59:60.5") = .ok (some leapSecond) :=
    Time.parse_eq_some_iff.mpr ⟨23, 59, 60, 5, by decide, by decide, by decide⟩
  exact (times_read hget).time leapSecond hparse

end Refix.Engine
