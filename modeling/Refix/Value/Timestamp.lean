import Refix.Value.Date

/-!
# Times and Timestamps

A FIX time of day and a FIX UTCTimestamp, with the precision they are written to: how they are
read, and how a timestamp is split into the date and the time of day.
-/

namespace Refix.Message

open Refix.Foundation Refix.Foundation.Calendar Refix.Foundation.Arith

/-! ## Precisions -/

/-- How finely a time is written, as its count of fraction digits. -/
structure TimePrecision where
  digits : ℕ
  le : digits ≤ 9
  deriving DecidableEq

attribute [ext] TimePrecision

namespace TimePrecision

/-- No fraction, as in `14:29:51`. -/
def seconds : TimePrecision := ⟨0, by decide⟩

/-- The precision of a fraction with `count` digits, up to nine. -/
def fromFractionDigits (count : ℕ) : Option TimePrecision :=
  if h : count ≤ 9 then some ⟨count, h⟩ else none

/-- Nanoseconds in one unit. -/
def unitNanos (precision : TimePrecision) : ℤ := 10 ^ (9 - precision.digits)

end TimePrecision

/-! ## Times -/

/-- A FIX time of day, keeping its precision. A day has 86,401 seconds with a leap second. -/
structure Time where
  nanosSinceMidnight : ℤ
  precision : TimePrecision
  valid : 0 ≤ nanosSinceMidnight ∧ nanosSinceMidnight < 86401000000000
  deriving DecidableEq

namespace Time

/-- The time `nanosSinceMidnight` after midnight, unless it is past the end of a day. -/
def new (nanosSinceMidnight : ℤ) (precision : TimePrecision) : Option Time :=
  if h : 0 ≤ nanosSinceMidnight ∧ nanosSinceMidnight < 86401000000000 then
    some ⟨nanosSinceMidnight, precision, h⟩
  else none

def colon : UInt8 := 58

def point : UInt8 := 46

/-- Reads what follows the seconds: nothing, or a point and the digits of a fraction. -/
def parseFraction (rest : Bytes) : Except Panic (Option (TimePrecision × ℤ)) :=
  match rest with
  | [] => .ok (some (.seconds, 0))
  | byte :: digits =>
    if byte = point ∧ digits ≠ [] then do
      let some count := Date.unsigned? 255 digits.length | return none
      let some precision := TimePrecision.fromFractionDigits count | return none
      let some fraction ← number digits | return none
      return some (precision, fraction)
    else .ok none

/-- Reads a FIX time such as `14:29:51.123`. A leap second, `:60`, counts as the first second of
the next minute. -/
def parse (text : Bytes) : Except Panic (Option Time) := do
  if text.length < 8 then return none
  let time := text.take 8
  if (← Checked.index time 2) ≠ colon ∨ (← Checked.index time 5) ≠ colon then return none
  let some hour ← number (← Checked.slice time 0 2) | return none
  let some minute ← number (← Checked.slice time 3 5) | return none
  let some second ← number (← Checked.slice time 6 8) | return none
  if hour > 23 ∨ minute > 59 ∨ second > 60 then return none
  let some (precision, fraction) ← parseFraction (text.drop 8) | return none
  let seconds ← (val hour * 3600 + val minute * 60 + val second : I64).run
  let nanos ← (val seconds * 1000000000 + val fraction * val precision.unitNanos : I64).run
  return new nanos precision

/-- What follows the seconds, for the digits of a fraction. -/
def fractionText (fraction : Bytes) : Bytes := if fraction = [] then [] else point :: fraction

/-- A text is an hour, a minute and a second of two digits each, and up to nine digits of a
fraction. -/
structure Writes (text : Bytes) (hour minute second : ℕ) (fraction : Bytes) : Prop where
  shape : ∃ h m s, text = h ++ colon :: (m ++ colon :: (s ++ fractionText fraction)) ∧
    Digits 2 h hour ∧ Digits 2 m minute ∧ Digits 2 s second
  isDigit : ∀ b ∈ fraction, isAsciiDigit b = true
  length_le : fraction.length ≤ 9

/-- The time of day that is written, in nanoseconds: a second of 60 is the first of the next
minute. -/
def writtenNanos (hour minute second : ℕ) (fraction : Bytes) : ℤ :=
  (hour * 3600 + minute * 60 + second) * 10 ^ 9 +
    decimalValue fraction * 10 ^ (9 - fraction.length)

theorem fractionText_of_ne_nil {fraction : Bytes} (h : fraction ≠ []) :
    fractionText fraction = point :: fraction :=
  if_neg h

theorem fractionText_inj {fraction fraction' : Bytes}
    (h : fractionText fraction = fractionText fraction') : fraction = fraction' := by
  unfold fractionText at h
  split_ifs at h with hnil hnil' hnil'
  · rw [hnil, hnil']
  · exact (List.cons.inj h).2

/-- **What follows the seconds is read exactly:** a fraction of up to nine digits, or none. -/
theorem parseFraction_spec (rest : Bytes) :
    ∃ result, parseFraction rest = .ok result ∧ ∀ precision n, result = some (precision, n) ↔
      ∃ fraction, rest = fractionText fraction ∧ (∀ b ∈ fraction, isAsciiDigit b = true) ∧
        precision.digits = fraction.length ∧ n = decimalValue fraction := by
  cases rest with
  | nil =>
    refine ⟨some (.seconds, 0), rfl, fun precision n => ?_⟩
    simp only [Option.some.injEq, Prod.mk.injEq]
    constructor
    · rintro ⟨rfl, rfl⟩
      exact ⟨[], rfl, List.forall_mem_nil _, rfl, rfl⟩
    · rintro ⟨fraction, hrest, -, hprecision, rfl⟩
      obtain rfl : fraction = [] := by
        by_contra hne
        rw [fractionText_of_ne_nil hne] at hrest
        cases hrest
      exact ⟨TimePrecision.ext hprecision.symm, rfl⟩
  | cons byte digits =>
    simp only [parseFraction]
    split_ifs with hshape
    · obtain ⟨rfl, hne⟩ := hshape
      -- After a point, what is written is the fraction that was read.
      have hrest : ∀ fraction, point :: digits = fractionText fraction ↔ digits = fraction := by
        intro fraction
        constructor
        · intro h
          by_cases hfraction : fraction = []
          · rw [hfraction] at h
            cases h
          · rw [fractionText_of_ne_nil hfraction] at h
            exact (List.cons.inj h).2
        · rintro rfl
          exact (fractionText_of_ne_nil hne).symm
      simp only [hrest, exists_eq_left']
      -- Up to nine digits give a precision; `u8` may also refuse the count, which is then over
      -- nine.
      by_cases hlength : digits.length ≤ 9
      · rw [Date.unsigned?_of_le (show digits.length ≤ 255 by omega)]
        simp only [TimePrecision.fromFractionDigits, dif_pos hlength]
        rw [number_eq (show digits.length ≤ 18 by omega), Checked.bind_ok]
        refine ⟨(numeral? digits).map fun n : ℕ => (⟨digits.length, hlength⟩, (n : ℤ)), ?_,
          fun precision n => ?_⟩
        · cases numeral? digits <;> rfl
        · simp only [Option.map_eq_some_iff, numeral?_eq_some_iff, Prod.mk.injEq,
            TimePrecision.ext_iff]
          constructor
          · rintro ⟨value, hvalue, hprecision, rfl⟩
            exact ⟨hvalue.isDigit, hprecision.symm, by rw [hvalue.value_eq]⟩
          · rintro ⟨hdigits, hprecision, rfl⟩
            exact ⟨_, ⟨rfl, hdigits, rfl⟩, hprecision.symm, rfl⟩
      · refine ⟨none, ?_, fun precision n => ⟨fun h => absurd h (by simp), ?_⟩⟩
        · cases hcount : Date.unsigned? 255 digits.length with
          | none => rfl
          | some count =>
            have hcount' := Date.unsigned?_eq_some hcount
            have hnone : TimePrecision.fromFractionDigits count = none := dif_neg (by omega)
            simp only [hnone]
            rfl
        · rintro ⟨-, hprecision, -⟩
          have := precision.le
          omega
    · refine ⟨none, rfl, fun precision n => ⟨fun h => absurd h (by simp), ?_⟩⟩
      rintro ⟨fraction, hrest, -, -, -⟩
      by_cases hne : fraction = []
      · rw [hne] at hrest
        cases hrest
      · rw [fractionText_of_ne_nil hne] at hrest
        obtain ⟨rfl, rfl⟩ := List.cons.inj hrest
        exact absurd ⟨rfl, hne⟩ hshape

/-- The first eight bytes of a text, one by one. -/
theorem exists_parts {text : Bytes} (h : 8 ≤ text.length) :
    ∃ h₁ h₂ c m₁ m₂ c' s₁ s₂ rest,
      text = h₁ :: h₂ :: c :: m₁ :: m₂ :: c' :: s₁ :: s₂ :: rest := by
  match text, h with
  | h₁ :: h₂ :: c :: m₁ :: m₂ :: c' :: s₁ :: s₂ :: rest, _ =>
    exact ⟨h₁, h₂, c, m₁, m₂, c', s₁, s₂, rest, rfl⟩

theorem new_eq_some_iff {n : ℤ} {precision : TimePrecision} {t : Time} :
    new n precision = some t ↔ t.nanosSinceMidnight = n ∧ t.precision = precision := by
  unfold new
  constructor
  · split
    · intro h
      rw [← Option.some.inj h]
      exact ⟨rfl, rfl⟩
    · intro h
      cases h
  · rintro ⟨rfl, rfl⟩
    exact dif_pos t.valid

section Parts

variable {h₁ h₂ c m₁ m₂ c' s₁ s₂ : UInt8} {rest : Bytes}

theorem writes_iff {hour minute second : ℕ} {fraction : Bytes} :
    Writes (h₁ :: h₂ :: c :: m₁ :: m₂ :: c' :: s₁ :: s₂ :: rest) hour minute second fraction ↔
      (c = colon ∧ c' = colon) ∧ numeral? [h₁, h₂] = some hour ∧ numeral? [m₁, m₂] = some minute ∧
        numeral? [s₁, s₂] = some second ∧ rest = fractionText fraction ∧
        (∀ b ∈ fraction, isAsciiDigit b = true) ∧ fraction.length ≤ 9 := by
  simp only [numeral?_eq_some_iff]
  constructor
  · rintro ⟨⟨h, m, s, heq, hh, hm, hs⟩, hdigits, hlength⟩
    match h, hh, m, hm, s, hs with
    | [a, a'], hh, [b, b'], hm, [d, d'], hs =>
      simp only [List.cons_append, List.nil_append, List.cons.injEq] at heq
      obtain ⟨rfl, rfl, hc, rfl, rfl, hc', rfl, rfl, hrest⟩ := heq
      exact ⟨⟨hc, hc'⟩, hh, hm, hs, hrest, hdigits, hlength⟩
  · rintro ⟨⟨rfl, rfl⟩, hh, hm, hs, rfl, hdigits, hlength⟩
    exact ⟨⟨[h₁, h₂], [m₁, m₂], [s₁, s₂], rfl, hh, hm, hs⟩, hdigits, hlength⟩

end Parts

/-- The fraction of a second is less than a second. -/
theorem fraction_lt {fraction : Bytes} (h : ∀ b ∈ fraction, isAsciiDigit b = true)
    (hlength : fraction.length ≤ 9) :
    (decimalValue fraction : ℤ) * 10 ^ (9 - fraction.length) < 10 ^ 9 := by
  have hlt : (decimalValue fraction : ℤ) < 10 ^ fraction.length := by
    exact_mod_cast decimalValue_lt h
  calc (decimalValue fraction : ℤ) * 10 ^ (9 - fraction.length)
      < 10 ^ fraction.length * 10 ^ (9 - fraction.length) :=
        mul_lt_mul_of_pos_right hlt (by positivity)
    _ = 10 ^ 9 := by rw [← pow_add, Nat.add_sub_cancel' hlength]

/-- The time of day is put together without overflow. -/
theorem nanos_eq {hour minute second : ℕ} {fraction : Bytes}
    (hdigits : ∀ b ∈ fraction, isAsciiDigit b = true) (hlength : fraction.length ≤ 9)
    (hhour : hour ≤ 23) (hminute : minute ≤ 59) (hsecond : second ≤ 60) :
    (do
      let seconds ← (val hour * 3600 + val minute * 60 + val second : I64).run
      (val seconds * 1000000000 +
        val (decimalValue fraction) * val (10 ^ (9 - fraction.length)) : I64).run) =
      .ok (writtenNanos hour minute second fraction) := by
  have hlt := fraction_lt hdigits hlength
  have hnonneg : (0 : ℤ) ≤ decimalValue fraction * 10 ^ (9 - fraction.length) := by positivity
  have hseconds : (val hour * val 3600 + val minute * val 60 + val second : I64) =
      val (hour * 3600 + minute * 60 + second) := by
    simp (disch := omega) only [val_add, val_mul]
  have hpower : (val (decimalValue fraction) * val (10 ^ (9 - fraction.length)) : I64) =
      val (decimalValue fraction * 10 ^ (9 - fraction.length)) := val_mul (by omega)
  rw [writtenNanos]
  simp only [ofNat_eq]
  rw [hseconds, val_bind, hpower]
  generalize (decimalValue fraction : ℤ) * 10 ^ (9 - fraction.length) = nanos at hlt hnonneg
  simp (disch := omega) only [val_add, val_mul]
  rw [run_val]
  norm_num

/-- **A time is read without a panic, and exactly where its text writes one.** -/
theorem parse_spec (text : Bytes) :
    ∃ result, parse text = .ok result ∧ ∀ t, result = some t ↔
      ∃ hour minute second fraction, Writes text hour minute second fraction ∧
        hour ≤ 23 ∧ minute ≤ 59 ∧ second ≤ 60 ∧ t.precision.digits = fraction.length ∧
        t.nanosSinceMidnight = writtenNanos hour minute second fraction := by
  by_cases hlength : text.length < 8
  · refine ⟨none, ?_, fun t => ⟨fun h => absurd h (by simp), ?_⟩⟩
    · unfold parse
      rw [if_pos hlength]
      rfl
    · rintro ⟨hour, minute, second, fraction, ⟨⟨h, m, s, rfl, hh, hm, hs⟩, -, -⟩, -⟩
      simp only [List.length_append, List.length_cons, hh.length_eq, hm.length_eq,
        hs.length_eq] at hlength
      omega
  · obtain ⟨h₁, h₂, c, m₁, m₂, c', s₁, s₂, rest, rfl⟩ := exists_parts (Nat.le_of_not_lt hlength)
    -- On eight bytes every slice and index is in bounds.
    have hhour : Checked.slice [h₁, h₂, c, m₁, m₂, c', s₁, s₂] 0 2 = .ok [h₁, h₂] := rfl
    have hminute : Checked.slice [h₁, h₂, c, m₁, m₂, c', s₁, s₂] 3 5 = .ok [m₁, m₂] := rfl
    have hsecond : Checked.slice [h₁, h₂, c, m₁, m₂, c', s₁, s₂] 6 8 = .ok [s₁, s₂] := rfl
    have hc : Checked.index [h₁, h₂, c, m₁, m₂, c', s₁, s₂] 2 = .ok c := rfl
    have hc' : Checked.index [h₁, h₂, c, m₁, m₂, c', s₁, s₂] 5 = .ok c' := rfl
    have hnumber : ∀ b b' : UInt8, number [b, b'] = .ok ((numeral? [b, b']).map Nat.cast) :=
      fun b b' => number_eq (show 2 ≤ 18 by decide)
    simp only [parse, if_neg hlength, List.take_succ_cons, List.take_zero, List.drop_succ_cons,
      List.drop_zero, hc, hc', hhour, hminute, hsecond, Checked.bind_ok, hnumber, writes_iff]
    split_ifs with hcolon
    · refine ⟨none, rfl, fun t => ⟨fun h => absurd h (by simp), ?_⟩⟩
      rintro ⟨_, _, _, _, ⟨⟨h, h'⟩, -⟩, -⟩
      exact absurd hcolon (not_or.mpr ⟨not_not.mpr h, not_not.mpr h'⟩)
    have hcolons : c = colon ∧ c' = colon := by simpa using hcolon
    obtain ⟨result, hfraction, hfraction'⟩ := parseFraction_spec rest
    -- Each case below is one branch of `parse`: a number that is not digits, a value out of range,
    -- a fraction that is refused, and the time itself.
    cases hh : numeral? [h₁, h₂] with
    | none => exact ⟨none, rfl, by simp⟩
    | some hour =>
      cases hm : numeral? [m₁, m₂] with
      | none => exact ⟨none, rfl, by simp⟩
      | some minute =>
        cases hs : numeral? [s₁, s₂] with
        | none => exact ⟨none, rfl, by simp⟩
        | some second =>
          simp only [Option.map_some, Option.some.injEq, hcolons, true_and]
          split_ifs with hrange
          · refine ⟨none, rfl, fun t => ⟨fun h => absurd h (by simp), ?_⟩⟩
            rintro ⟨_, _, _, _, ⟨rfl, rfl, rfl, -⟩, hhour', hminute', hsecond', -⟩
            omega
          · rw [hfraction, Checked.bind_ok]
            cases result with
            | none =>
              refine ⟨none, rfl, fun t => ⟨fun h => absurd h (by simp), ?_⟩⟩
              rintro ⟨_, _, _, fraction, ⟨-, -, -, hrest, hdigits, -⟩, -, -, -, hprecision, -⟩
              have := (hfraction' t.precision (decimalValue fraction)).mpr
                ⟨fraction, hrest, hdigits, hprecision, rfl⟩
              cases this
            | some read =>
              obtain ⟨precision, n⟩ := read
              obtain ⟨fraction, hrest, hdigits, hprecision, rfl⟩ := (hfraction' precision n).mp rfl
              have hlength' : fraction.length ≤ 9 := hprecision ▸ precision.le
              have hbounds : hour ≤ 23 ∧ minute ≤ 59 ∧ second ≤ 60 := by omega
              have hnanos := nanos_eq hdigits hlength' hbounds.1 hbounds.2.1 hbounds.2.2
              have hunit : precision.unitNanos = 10 ^ (9 - fraction.length) := by
                rw [TimePrecision.unitNanos, hprecision]
              refine ⟨new (writtenNanos hour minute second fraction) precision, ?_, fun t => ?_⟩
              · simp only [hunit]
                rw [← bind_assoc, hnanos]
                rfl
              · rw [new_eq_some_iff]
                constructor
                · rintro ⟨hnanos', hprecision'⟩
                  exact ⟨hour, minute, second, fraction, ⟨rfl, rfl, rfl, hrest, hdigits, hlength'⟩,
                    hbounds.1, hbounds.2.1, hbounds.2.2, hprecision' ▸ hprecision, hnanos'⟩
                · rintro ⟨_, _, _, fraction', ⟨rfl, rfl, rfl, hrest', -⟩, -, -, -, hprecision',
                    hnanos'⟩
                  obtain rfl := fractionText_inj (hrest.symm.trans hrest')
                  exact ⟨hnanos', TimePrecision.ext (hprecision'.trans hprecision.symm)⟩

/-- A time of day that is written is one of a day. -/
theorem exists_time {hour minute second : ℕ} {fraction : Bytes}
    (hdigits : ∀ b ∈ fraction, isAsciiDigit b = true) (hlength : fraction.length ≤ 9)
    (hrange : hour ≤ 23 ∧ minute ≤ 59 ∧ second ≤ 60) :
    ∃ t : Time, t.precision.digits = fraction.length ∧
      t.nanosSinceMidnight = writtenNanos hour minute second fraction := by
  have hlt := fraction_lt hdigits hlength
  have hnonneg : (0 : ℤ) ≤ decimalValue fraction * 10 ^ (9 - fraction.length) := by positivity
  refine ⟨⟨writtenNanos hour minute second fraction, ⟨fraction.length, hlength⟩, ?_⟩, rfl, rfl⟩
  rw [writtenNanos]
  omega

end Time

/-! ## Timestamps -/

/-- Nanoseconds in a day. -/
def nanosPerDay : ℤ := 86400000000000

/-- A FIX UTCTimestamp as nanoseconds since the Unix epoch, keeping its precision. -/
structure UtcTimestamp where
  unixNanos : Int64
  precision : TimePrecision
  deriving DecidableEq

namespace UtcTimestamp

/-- `option.expect(..)`: nothing is found where a value always should be. -/
def expect {α : Type} : Option α → Except Panic α
  | some a => .ok a
  | none => .error .inexact

/-- The date in UTC. -/
def date (timestamp : UtcTimestamp) : Except Panic Date := do
  let days ← (divEuclid (val timestamp.unixNanos.toInt) (val nanosPerDay) : I64).run
  expect (← Date.fromDaysSinceEpoch (Int64.ofInt days))

/-- The time of day in UTC, at the timestamp's precision. -/
def time (timestamp : UtcTimestamp) : Except Panic Time := do
  let nanos ← (remEuclid (val timestamp.unixNanos.toInt) (val nanosPerDay) : I64).run
  expect (Time.new nanos timestamp.precision)

def dash : UInt8 := 45

/-- Reads a FIX timestamp such as `20261030-14:29:51.123`. -/
def parse (text : Bytes) : Except Panic (Option UtcTimestamp) := do
  if text.length < 8 then return none
  let some date ← Date.parse (text.take 8) | return none
  let some rest := stripPrefix [dash] (text.drop 8) | return none
  let some time ← Time.parse rest | return none
  let days ← date.daysSinceEpoch
  let nanos ← (val days * val nanosPerDay + val time.nanosSinceMidnight : I128).run
  let some nanos := int64? nanos | return none
  return some ⟨nanos, time.precision⟩

/-! ### Splitting -/

/-- **Every timestamp is split into a date and a time of day, without a panic.** -/
theorem split_spec (timestamp : UtcTimestamp) :
    ∃ d t days, timestamp.date = .ok d ∧ timestamp.time = .ok t ∧ d.daysSinceEpoch = .ok days ∧
      days * nanosPerDay + t.nanosSinceMidnight = timestamp.unixNanos.toInt := by
  have hlo := Int64.le_toInt timestamp.unixNanos
  have hhi := Int64.toInt_lt timestamp.unixNanos
  simp only [date, time, nanosPerDay]
  generalize timestamp.unixNanos.toInt = n at hlo hhi
  rw [divEuclid_val (by omega), remEuclid_val (by omega), val_bind, val_bind]
  have hdays : (Int64.ofInt (n / 86400000000000)).toInt = n / 86400000000000 :=
    Int64.toInt_ofInt_of_le (by omega) (by omega)
  obtain ⟨result, hresult, hsome, -⟩ := Date.fromDaysSinceEpoch_spec (Int64.ofInt (n / 86400000000000))
  rw [hdays, Date.dayNumber_epoch, Date.dayNumber_last, Date.dayNumber_first] at hsome
  obtain ⟨d, rfl, hd⟩ := hsome (by omega)
  have hvalid : 0 ≤ n % 86400000000000 ∧ n % 86400000000000 < 86401000000000 := by omega
  refine ⟨d, ⟨n % 86400000000000, timestamp.precision, hvalid⟩, n / 86400000000000, ?_, ?_, ?_, ?_⟩
  · rw [hresult]
    rfl
  · rw [Time.new, dif_pos hvalid]
    rfl
  · rw [d.daysSinceEpoch_eq, hd, Date.dayNumber_epoch, Int.add_sub_cancel]
  · exact Int.ediv_mul_add_emod n _

/-- **Civil dates and day counts are inverse, over all 64-bit day counts.** -/
theorem civil_inverse :
    (∀ days : Int64, ∃ result, Date.fromDaysSinceEpoch days = .ok result ∧
      (Date.InYears days.toInt →
        ∃ d, result = some d ∧ d.daysSinceEpoch = .ok days.toInt) ∧
      (¬ Date.InYears days.toInt → result = none)) ∧
    (∀ d : Date, d.daysSinceEpoch = .ok (Date.countDays d.year d.month d.day)) ∧
    (∀ d d' : Date, d.lt d' →
      Date.countDays d.year d.month d.day < Date.countDays d'.year d'.month d'.day) ∧
    ∀ timestamp : UtcTimestamp, ∃ d t days, timestamp.date = .ok d ∧ timestamp.time = .ok t ∧
      d.daysSinceEpoch = .ok days ∧
      days * (86400 * 10 ^ 9) + t.nanosSinceMidnight = timestamp.unixNanos.toInt := by
  have hcount : ∀ d : Date, d.daysSinceEpoch = .ok (Date.countDays d.year d.month d.day) := by
    intro d
    rw [Date.countDays_eq]
    exact d.daysSinceEpoch_eq
  refine ⟨fun days => ?_, hcount, fun d d' hlt => ?_, split_spec⟩
  · obtain ⟨result, hresult, hsome, hnone⟩ := Date.fromDaysSinceEpoch_spec days
    rw [← Date.inYears_iff] at hsome hnone
    refine ⟨result, hresult, fun hdays => ?_, hnone⟩
    obtain ⟨d, hd, hday⟩ := hsome hdays
    refine ⟨d, hd, ?_⟩
    rw [d.daysSinceEpoch_eq, hday, Int.add_sub_cancel]
  · rw [Date.countDays_eq, Date.countDays_eq]
    have hbefore := d.isDate.dayNumber_lt d'.isDate (by exact_mod_cast hlt)
    omega

theorem civil_inverse_epoch :
    ∃ d, Date.fromDaysSinceEpoch 0 = .ok (some d) ∧ d.daysSinceEpoch = .ok 0 := by
  obtain ⟨result, hresult, hsome, -⟩ := civil_inverse.1 0
  have hepoch : Date.InYears 0 := by
    rw [Date.inYears_iff, Date.dayNumber_first, Date.dayNumber_last, Date.dayNumber_epoch]
    decide
  obtain ⟨d, rfl, hd⟩ := hsome hepoch
  exact ⟨d, hresult, hd⟩

/-! ### Reading -/

/-- A text is a date, a dash and a time of day. -/
def Writes (text : Bytes) (year month day hour minute second : ℕ) (fraction : Bytes) : Prop :=
  ∃ date time, text = date ++ dash :: time ∧ Date.Writes date year month day ∧
    Time.Writes time hour minute second fraction

/-- The nanoseconds from the Unix epoch to a date and a time of day. -/
def writtenNanos (year month day hour minute second : ℕ) (fraction : Bytes) : ℤ :=
  Date.countDays year month day * (86400 * 10 ^ 9) + Time.writtenNanos hour minute second fraction

/-- What a text writes, given what its date and its time are read as. -/
theorem writes_iff {text rest : Bytes} {d : Date} {time : Time} {t : UtcTimestamp}
    (hdate : ∀ d', some d = some d' ↔ Date.Writes (text.take 8) d'.year d'.month d'.day)
    (hrest : text.drop 8 = dash :: rest)
    (htime : ∀ t : Time, some time = some t ↔
      ∃ hour minute second fraction, Time.Writes rest hour minute second fraction ∧
        hour ≤ 23 ∧ minute ≤ 59 ∧ second ≤ 60 ∧ t.precision.digits = fraction.length ∧
        t.nanosSinceMidnight = Time.writtenNanos hour minute second fraction) :
    (∃ year month day hour minute second fraction,
      (Date.Writes (text.take 8) year month day ∧ ∃ time, text.drop 8 = dash :: time ∧
        Time.Writes time hour minute second fraction) ∧
      (year ≤ 9999 ∧ (1 ≤ month ∧ month ≤ 12) ∧ 1 ≤ day ∧ day ≤ monthLength year month) ∧
      (hour ≤ 23 ∧ minute ≤ 59 ∧ second ≤ 60) ∧ t.precision.digits = fraction.length ∧
      t.unixNanos.toInt = writtenNanos year month day hour minute second fraction) ↔
      t.precision = time.precision ∧ t.unixNanos.toInt =
        Date.countDays d.year d.month d.day * nanosPerDay + time.nanosSinceMidnight := by
  constructor
  · rintro ⟨year, month, day, hour, minute, second, fraction, ⟨hd, time', hrest', hwrites⟩, hvalid,
      hrange, hprecision, hunix⟩
    -- The parts that are written are a date and a time, and so the ones that were read.
    obtain ⟨d', rfl, rfl, rfl⟩ := Date.exists_date hvalid
    obtain rfl := Option.some.inj ((hdate d').mpr hd)
    obtain rfl := (List.cons.inj (hrest.symm.trans hrest')).2
    obtain ⟨t', hprecision', hnanos⟩ :=
      Time.exists_time hwrites.isDigit hwrites.length_le hrange
    obtain rfl := Option.some.inj ((htime t').mpr ⟨_, _, _, _, hwrites, hrange.1, hrange.2.1,
      hrange.2.2, hprecision', hnanos⟩)
    refine ⟨TimePrecision.ext (hprecision.trans hprecision'.symm), ?_⟩
    rw [hunix, hnanos]
    rfl
  · rintro ⟨hprecision, hunix⟩
    obtain ⟨hour, minute, second, fraction, hwrites, hhour, hminute, hsecond, hprecision', hnanos⟩ :=
      (htime time).mp rfl
    refine ⟨d.year, d.month, d.day, hour, minute, second, fraction,
      ⟨(hdate d).mp rfl, rest, hrest, hwrites⟩, ?_, ⟨hhour, hminute, hsecond⟩, ?_, ?_⟩
    · have hdate := d.isDate
      exact ⟨d.valid.1, ⟨hdate.month_pos, hdate.month_le⟩, d.valid.2.2.1, hdate.day_le⟩
    · rw [hprecision, hprecision']
    · rw [hunix, hnanos]
      rfl

/-- **A timestamp is read without overflow or a panic, and exactly where its text writes one whose
instant fits an `i64`.** -/
theorem timestamp_read_exactly (text : Bytes) :
    ∃ result, parse text = .ok result ∧ ∀ t, result = some t ↔
      ∃ year month day hour minute second fraction,
        Writes text year month day hour minute second fraction ∧
        (year ≤ 9999 ∧ (1 ≤ month ∧ month ≤ 12) ∧ 1 ≤ day ∧ day ≤ monthLength year month) ∧
        (hour ≤ 23 ∧ minute ≤ 59 ∧ second ≤ 60) ∧
        t.precision.digits = fraction.length ∧
        t.unixNanos.toInt = writtenNanos year month day hour minute second fraction := by
  by_cases hlength : text.length < 8
  · refine ⟨none, ?_, fun t => ⟨fun h => absurd h (by simp), ?_⟩⟩
    · unfold parse
      rw [if_pos hlength]
      rfl
    · rintro ⟨_, _, _, _, _, _, _, ⟨date, time, rfl, hdate, -⟩, -⟩
      rw [List.length_append, hdate.length_eq] at hlength
      omega
  · -- a text is a date of eight bytes and a time behind it, or none of this
    have hwrites : ∀ {year month day hour minute second fraction},
        Writes text year month day hour minute second fraction ↔
          Date.Writes (text.take 8) year month day ∧ ∃ time, text.drop 8 = dash :: time ∧
            Time.Writes time hour minute second fraction := by
      intro year month day hour minute second fraction
      constructor
      · rintro ⟨date, time, rfl, hdate, htime⟩
        rw [List.take_left' hdate.length_eq, List.drop_left' hdate.length_eq]
        exact ⟨hdate, time, rfl, htime⟩
      · rintro ⟨hdate, time, hrest, htime⟩
        refine ⟨text.take 8, time, ?_, hdate, htime⟩
        rw [← hrest, List.take_append_drop]
    simp only [hwrites]
    obtain ⟨readDate, hdate, hdate'⟩ := Date.parse_spec (text.take 8)
    simp only [parse, if_neg hlength, hdate, Checked.bind_ok]
    cases readDate with
    | none =>
      refine ⟨none, rfl, fun t => ⟨fun h => absurd h (by simp), ?_⟩⟩
      rintro ⟨year, month, day, _, _, _, _, ⟨hd, -⟩, hvalid, -⟩
      obtain ⟨d, rfl, rfl, rfl⟩ := Date.exists_date hvalid
      cases (hdate' d).mpr hd
    | some d =>
      have hd := (hdate' d).mp rfl
      cases hrest : stripPrefix [dash] (text.drop 8) with
      | none =>
        refine ⟨none, rfl, fun t => ⟨fun h => absurd h (by simp), ?_⟩⟩
        rintro ⟨_, _, _, _, _, _, _, ⟨-, time, htime, -⟩, -⟩
        rw [stripPrefix_eq_some_iff.mpr htime] at hrest
        cases hrest
      | some rest =>
        have hrest' := stripPrefix_eq_some_iff.mp hrest
        obtain ⟨readTime, htime, htime'⟩ := Time.parse_spec rest
        simp only [htime, Checked.bind_ok]
        cases readTime with
        | none =>
          refine ⟨none, rfl, fun t => ⟨fun h => absurd h (by simp), ?_⟩⟩
          rintro ⟨_, _, _, _, _, _, _, ⟨-, time, hdrop, hwrites⟩, -, hrange, -⟩
          obtain rfl := (List.cons.inj (hrest'.symm.trans hdrop)).2
          obtain ⟨time', hprecision, hnanos⟩ :=
            Time.exists_time hwrites.isDigit hwrites.length_le hrange
          cases (htime' time').mpr ⟨_, _, _, _, hwrites, hrange.1, hrange.2.1, hrange.2.2,
            hprecision, hnanos⟩
        | some time =>
          have hdays := (Date.mem_years_iff d.isDate).mpr ⟨by omega, by have := d.valid; omega⟩
          rw [Date.dayNumber_first, Date.dayNumber_last] at hdays
          have hnanos := time.valid
          have hepoch : d.daysSinceEpoch = .ok (Date.countDays d.year d.month d.day) := by
            rw [Date.countDays_eq]
            exact d.daysSinceEpoch_eq
          have hvalue : (val (Date.countDays d.year d.month d.day) * val nanosPerDay +
              val time.nanosSinceMidnight : I128) = val (Date.countDays d.year d.month d.day *
                nanosPerDay + time.nanosSinceMidnight) := by
            have hcount := Date.countDays_eq d.year d.month d.day
            rw [Date.dayNumber_epoch] at hcount
            rw [nanosPerDay]
            generalize Date.countDays d.year d.month d.day = days at hcount
            generalize time.nanosSinceMidnight = nanos at hnanos
            simp (disch := omega) only [val_add, val_mul]
          simp only [writes_iff hdate' hrest' htime', hepoch, Checked.bind_ok]
          rw [hvalue, val_bind]
          generalize Date.countDays d.year d.month d.day * nanosPerDay +
            time.nanosSinceMidnight = nanos
          cases hfits : int64? nanos with
          | none =>
            refine ⟨none, rfl, fun t => ⟨fun h => absurd h (by simp), ?_⟩⟩
            rintro ⟨-, hunix⟩
            rw [int64?_eq_some_iff.mpr hunix] at hfits
            cases hfits
          | some unix =>
            refine ⟨some ⟨unix, time.precision⟩, rfl, fun t => ?_⟩
            rw [Option.some.injEq, ← int64?_eq_some_iff, hfits, Option.some.injEq]
            constructor
            · rintro rfl
              exact ⟨rfl, rfl⟩
            · rintro ⟨hprecision, rfl⟩
              rw [← hprecision]

end UtcTimestamp

end Refix.Message
