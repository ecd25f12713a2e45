import Refix.Value.MonthYear
import Refix.Value.Timestamp

/-!
# Texts of Times

How a time of day and a timestamp are written. Where its precision can write it, a timestamp that
is split into its date and its time of day is written from these two, and from no other text that
does without a leap second.
-/

namespace Refix.Message

open Refix.Foundation Refix.Foundation.Calendar Refix.Foundation.Arith

namespace Time

/-! ## Times of day -/

/-- A time of day as it is written. -/
def clockText (hour minute second : ℕ) (fraction : Bytes) : Bytes :=
  fixedDigits 2 hour ++ colon :: (fixedDigits 2 minute ++ colon ::
    (fixedDigits 2 second ++ fractionText fraction))

/-- How a time within a day is written. -/
def text (t : Time) : Bytes :=
  let nanos := t.nanosSinceMidnight.toNat
  let seconds := nanos / 10 ^ 9
  clockText (seconds / 3600) (seconds / 60 % 60) (seconds % 60)
    (fixedDigits t.precision.digits (nanos % 10 ^ 9 / 10 ^ (9 - t.precision.digits)))

theorem writes_iff_clockText {text : Bytes} {hour minute second : ℕ} {fraction : Bytes} :
    Writes text hour minute second fraction ↔
      text = clockText hour minute second fraction ∧ (hour < 100 ∧ minute < 100 ∧ second < 100) ∧
        (∀ b ∈ fraction, isAsciiDigit b = true) ∧ fraction.length ≤ 9 := by
  constructor
  · rintro ⟨⟨h, m, s, rfl, hh, hm, hs⟩, hdigits, hlength⟩
    rw [digits_iff] at hh hm hs
    obtain ⟨hhour, rfl⟩ := hh
    obtain ⟨hminute, rfl⟩ := hm
    obtain ⟨hsecond, rfl⟩ := hs
    exact ⟨rfl, ⟨hhour, hminute, hsecond⟩, hdigits, hlength⟩
  · rintro ⟨rfl, ⟨hhour, hminute, hsecond⟩, hdigits, hlength⟩
    exact ⟨⟨_, _, _, rfl, digits_iff.mpr ⟨hhour, rfl⟩, digits_iff.mpr ⟨hminute, rfl⟩,
      digits_iff.mpr ⟨hsecond, rfl⟩⟩, hdigits, hlength⟩

/-- **What a time is read from**, its fraction as a number of its units. -/
theorem parse_eq_some_iff {text : Bytes} {t : Time} :
    parse text = .ok (some t) ↔ ∃ hour minute second units : ℕ,
      (hour ≤ 23 ∧ minute ≤ 59 ∧ second ≤ 60 ∧ units < 10 ^ t.precision.digits) ∧
      text = clockText hour minute second (fixedDigits t.precision.digits units) ∧
      t.nanosSinceMidnight = ((hour * 3600 + minute * 60 + second) * 10 ^ 9 +
        units * 10 ^ (9 - t.precision.digits) : ℕ) := by
  obtain ⟨result, hresult, hread⟩ := parse_spec text
  rw [hresult, Except.ok.injEq, hread]
  simp only [writes_iff_clockText]
  constructor
  · rintro ⟨hour, minute, second, fraction, ⟨rfl, -, hdigits, -⟩, hhour, hminute, hsecond,
      hprecision, hnanos⟩
    refine ⟨hour, minute, second, decimalValue fraction, ⟨hhour, hminute, hsecond, ?_⟩, ?_, ?_⟩
    · rw [hprecision]
      exact decimalValue_lt hdigits
    · rw [hprecision, ← eq_fixedDigits hdigits]
    · rw [hnanos, writtenNanos, hprecision]
      push_cast
      rfl
  · rintro ⟨hour, minute, second, units, ⟨hhour, hminute, hsecond, hunits⟩, rfl, hnanos⟩
    refine ⟨hour, minute, second, fixedDigits t.precision.digits units,
      ⟨rfl, by omega, fun _ => isAsciiDigit_of_mem_fixedDigits, ?_⟩, hhour, hminute, hsecond,
      (length_fixedDigits _ _).symm, ?_⟩
    · rw [length_fixedDigits]
      exact t.precision.le
    · rw [hnanos, writtenNanos, decimalValue_fixedDigits hunits, length_fixedDigits]
      push_cast
      rfl

/-- Whether the seconds of a time are written as `60`. -/
def WritesLeapSecond (text : Bytes) : Prop := slice text 6 8 = ascii "60"

theorem writesLeapSecond_iff {hour minute second : ℕ} {fraction : Bytes} (h : second ≤ 60) :
    WritesLeapSecond (clockText hour minute second fraction) ↔ second = 60 := by
  have hslice : slice (clockText hour minute second fraction) 6 8 = fixedDigits 2 second := by
    simp [clockText, fixedDigits, slice]
  rw [WritesLeapSecond, hslice]
  constructor
  · intro heq
    have hvalue := congrArg decimalValue heq
    rw [decimalValue_fixedDigits (by omega)] at hvalue
    exact hvalue
  · rintro rfl
    rfl

/-- The units of a precision, counted in nanoseconds. -/
theorem units_mul (precision : TimePrecision) :
    10 ^ precision.digits * 10 ^ (9 - precision.digits) = 10 ^ 9 := by
  rw [← pow_add, Nat.add_sub_cancel' precision.le]

/-- **A time within a day is read from its own text**, where its precision can write it, and from
no other that does without a leap second. -/
theorem parse_text_iff {text : Bytes} {t : Time} :
    parse text = .ok (some t) ∧ ¬ WritesLeapSecond text ↔
      (t.precision.unitNanos ∣ t.nanosSinceMidnight ∧ t.nanosSinceMidnight < 86400 * 10 ^ 9) ∧
        text = t.text := by
  have hunits := units_mul t.precision
  obtain ⟨n, hn⟩ := Int.eq_ofNat_of_zero_le t.valid.1
  have hunit : t.precision.unitNanos ∣ t.nanosSinceMidnight ↔ 10 ^ (9 - t.precision.digits) ∣ n := by
    rw [hn, TimePrecision.unitNanos]
    exact_mod_cast Int.natCast_dvd_natCast
  rw [parse_eq_some_iff, hunit, hn]
  simp only [Time.text, hn, Int.toNat_natCast]
  generalize t.precision.digits = p at hunits
  have hpos : 0 < 10 ^ (9 - p) := by positivity
  constructor
  · rintro ⟨⟨hour, minute, second, units, ⟨hhour, hminute, hsecond, hlt⟩, rfl, hnanos⟩, hleap⟩
    rw [writesLeapSecond_iff hsecond] at hleap
    have hvalue := Int.ofNat_inj.mp hnanos
    have hfraction : units * 10 ^ (9 - p) < 10 ^ 9 := by
      rw [← hunits]
      exact Nat.mul_lt_mul_of_pos_right hlt hpos
    -- the fraction is shorter than a second, so that the two parts can be told apart
    have hmod : n % 10 ^ 9 = units * 10 ^ (9 - p) := by omega
    have hdiv : n / 10 ^ 9 = hour * 3600 + minute * 60 + second := by omega
    refine ⟨⟨?_, by omega⟩, ?_⟩
    · rw [hvalue, ← hunits]
      exact Dvd.dvd.add (Dvd.dvd.mul_left (Dvd.intro_left _ rfl) _) (Dvd.intro_left _ rfl)
    · rw [hmod, hdiv, Nat.mul_div_cancel _ hpos]
      congr 1 <;> omega
  · rintro ⟨⟨hdvd, hday⟩, rfl⟩
    have hday' : n < 86400 * 10 ^ 9 := by omega
    -- nothing is lost of a fraction that the precision divides
    have hunitDvd : 10 ^ (9 - p) ∣ n % 10 ^ 9 :=
      (Nat.dvd_mod_iff (hunits ▸ Dvd.intro_left _ rfl)).mpr hdvd
    have hfraction : n % 10 ^ 9 / 10 ^ (9 - p) * 10 ^ (9 - p) = n % 10 ^ 9 :=
      Nat.div_mul_cancel hunitDvd
    have hlt : n % 10 ^ 9 / 10 ^ (9 - p) < 10 ^ p := by
      rw [Nat.div_lt_iff_lt_mul hpos, hunits]
      exact Nat.mod_lt _ (by decide)
    refine ⟨⟨_, _, _, _, ⟨by omega, by omega, by omega, hlt⟩, rfl, ?_⟩, ?_⟩
    · rw [hfraction]
      congr 1
      omega
    · rw [writesLeapSecond_iff (by omega)]
      omega

end Time

/-! ## Timestamps -/

namespace UtcTimestamp

/-- The day and the time of day are put together without overflow. -/
theorem instant_eq (d : Date) (time : Time) :
    (do
      let days ← d.daysSinceEpoch
      (val days * val nanosPerDay + val time.nanosSinceMidnight : I128).run) =
      .ok (Date.countDays d.year d.month d.day * nanosPerDay + time.nanosSinceMidnight) := by
  have hdays := (Date.mem_years_iff d.isDate).mpr ⟨by omega, by have := d.valid; omega⟩
  have hcount := Date.countDays_eq d.year d.month d.day
  have hepoch : d.daysSinceEpoch = .ok (Date.countDays d.year d.month d.day) := by
    rw [hcount]
    exact d.daysSinceEpoch_eq
  have hnanos := time.valid
  rw [Date.dayNumber_first, Date.dayNumber_last] at hdays
  rw [Date.dayNumber_epoch] at hcount
  rw [hepoch, Checked.bind_ok, nanosPerDay]
  generalize Date.countDays d.year d.month d.day = days at hcount
  generalize time.nanosSinceMidnight = nanos at hnanos
  simp (disch := omega) only [val_add, val_mul]
  exact run_val _

/-- The text of a date, a dash and what follows it are put together, if that is a time of day. -/
theorem parse_append {rest : Bytes} {readTime : Option Time} (d : Date)
    (htime : Time.parse rest = .ok readTime) :
    parse (d.text ++ dash :: rest) = .ok (readTime.bind fun time =>
      (int64? (Date.countDays d.year d.month d.day * nanosPerDay + time.nanosSinceMidnight)).map
        fun nanos => ⟨nanos, time.precision⟩) := by
  have hlength : d.text.length = 8 := by simp [Date.text]
  have hdate : Date.parse d.text = .ok (some d) := by
    obtain ⟨readDate, hread, hsome⟩ := Date.parse_spec d.text
    rw [hread, (hsome d).mpr (Date.writes_iff_text.mpr rfl)]
  have hstrip : stripPrefix [dash] (dash :: rest) = some rest := stripPrefix_eq_some_iff.mpr rfl
  unfold parse
  rw [if_neg (by rw [List.length_append]; omega), List.take_left' hlength,
    List.drop_left' hlength, hdate]
  simp only [Checked.bind_ok, hstrip, htime]
  cases readTime with
  | none => rfl
  | some time =>
    dsimp only
    -- the sum is taken without overflow, so that only its range decides
    rw [← bind_assoc, instant_eq d time, Checked.bind_ok, Option.bind_some]
    cases int64? (Date.countDays d.year d.month d.day * nanosPerDay + time.nanosSinceMidnight) <;>
      rfl

/-- No other text is read. -/
theorem exists_append_of_parse {text : Bytes} {t : UtcTimestamp}
    (h : parse text = .ok (some t)) : ∃ (d : Date) (rest : Bytes), text = d.text ++ dash :: rest := by
  unfold parse at h
  split at h
  · cases h
  obtain ⟨readDate, hdate, hsome⟩ := Date.parse_spec (text.take 8)
  rw [hdate] at h
  simp only [Checked.bind_ok] at h
  cases readDate with
  | none => cases h
  | some d =>
    have htext : text.take 8 = d.text := Date.writes_iff_text.mp ((hsome d).mp rfl)
    cases hstrip : stripPrefix [dash] (text.drop 8) with
    | none =>
      rw [hstrip] at h
      cases h
    | some rest =>
      have hrest : text.drop 8 = dash :: rest := stripPrefix_eq_some_iff.mp hstrip
      refine ⟨d, rest, ?_⟩
      rw [← htext, ← hrest, List.take_append_drop]

/-- **What a timestamp is read from**: a date, a dash and a time of day, which are put together. -/
theorem parse_eq_some_iff {text : Bytes} {t : UtcTimestamp} :
    parse text = .ok (some t) ↔ ∃ (d : Date) (rest : Bytes) (time : Time),
      text = d.text ++ dash :: rest ∧ Time.parse rest = .ok (some time) ∧
        t.precision = time.precision ∧
        t.unixNanos.toInt = Date.countDays d.year d.month d.day * nanosPerDay +
          time.nanosSinceMidnight := by
  constructor
  · intro h
    obtain ⟨d, rest, rfl⟩ := exists_append_of_parse h
    obtain ⟨readTime, htime, -⟩ := Time.parse_spec rest
    rw [parse_append d htime] at h
    obtain ⟨time, rfl, hfit⟩ := Option.bind_eq_some_iff.mp (Except.ok.inj h)
    obtain ⟨nanos, hnanos, rfl⟩ := Option.map_eq_some_iff.mp hfit
    exact ⟨d, rest, time, rfl, htime, rfl, int64?_eq_some_iff.mp hnanos⟩
  · rintro ⟨d, rest, time, rfl, htime, hprecision, hunix⟩
    rw [parse_append d htime, Option.bind_some, int64?_eq_some_iff.mpr hunix, Option.map_some,
      ← hprecision]

/-- Two dates on the same day are the same. -/
theorem date_eq_of_countDays_eq {d d' : Date}
    (h : Date.countDays d.year d.month d.day = Date.countDays d'.year d'.month d'.day) :
    d = d' := by
  have hlt : ∀ {d d' : Date}, d.lt d' →
      Date.countDays d.year d.month d.day < Date.countDays d'.year d'.month d'.day := by
    intro d d' hlt
    rw [Date.countDays_eq, Date.countDays_eq]
    have hbefore := d.isDate.dayNumber_lt d'.isDate (by exact_mod_cast hlt)
    omega
  by_contra hne
  have hsplit : d.lt d' ∨ d'.lt d := by
    obtain ⟨year, month, day, hd⟩ := d
    obtain ⟨year', month', day', hd'⟩ := d'
    simp only [Date.lt]
    by_contra hnot
    exact hne (by simp only [Date.mk.injEq]; omega)
  rcases hsplit with hbefore | hafter
  · exact absurd h (ne_of_lt (hlt hbefore))
  · exact absurd h (ne_of_gt (hlt hafter))

/-- The date and the time of day that a timestamp is split into. -/
theorem split_eq (t : UtcTimestamp) :
    ∃ d time, t.date = .ok d ∧ t.time = .ok time ∧ time.precision = t.precision ∧
      Date.countDays d.year d.month d.day = t.unixNanos.toInt / nanosPerDay ∧
      time.nanosSinceMidnight = t.unixNanos.toInt % nanosPerDay := by
  obtain ⟨d, time, days, hdate, htime, hdays, hsum⟩ := split_spec t
  have hcount : Date.countDays d.year d.month d.day = days := by
    rw [Date.countDays_eq]
    exact Except.ok.inj (d.daysSinceEpoch_eq.symm.trans hdays)
  have hlo := Int64.le_toInt t.unixNanos
  have hhi := Int64.toInt_lt t.unixNanos
  have hvalid : 0 ≤ t.unixNanos.toInt % nanosPerDay ∧
      t.unixNanos.toInt % nanosPerDay < 86401000000000 := by
    rw [nanosPerDay]
    omega
  have hread := htime
  rw [UtcTimestamp.time, nanosPerDay, remEuclid_val (by omega), val_bind, ← nanosPerDay, Time.new,
    dif_pos hvalid] at hread
  obtain rfl := Except.ok.inj hread
  refine ⟨d, _, hdate, htime, rfl, ?_, rfl⟩
  rw [hcount]
  simp only [nanosPerDay] at hsum ⊢
  omega

/-- Whether the seconds of a timestamp are written as `60`. -/
def WritesLeapSecond (text : Bytes) : Prop := slice text 15 17 = ascii "60"

/-- **A timestamp is read from what its date and its time of day are written as**, where its
precision can write it, and from no other text that does without a leap second. -/
theorem timestamp_read_from_text (t : UtcTimestamp) :
    ∃ d time, t.date = .ok d ∧ t.time = .ok time ∧ ∀ text,
      (parse text = .ok (some t) ∧ ¬ WritesLeapSecond text ↔
        t.precision.unitNanos ∣ t.unixNanos.toInt ∧ text = d.text ++ dash :: time.text) := by
  obtain ⟨d, time, hdate, htime, hprecision, hdays, hnanos⟩ := split_eq t
  refine ⟨d, time, hdate, htime, fun text => ?_⟩
  -- the seconds stand behind the date and the dash
  have hleap : ∀ (d : Date) rest, WritesLeapSecond (d.text ++ dash :: rest) ↔
      Time.WritesLeapSecond rest := by
    intro d rest
    have hslice := slice_append_right (d.text ++ [dash]) rest 6 8
    have hlength : (d.text ++ [dash]).length = 9 := by simp [Date.text]
    rw [hlength, List.append_assoc, List.singleton_append] at hslice
    rw [WritesLeapSecond, hslice, Time.WritesLeapSecond]
  have hunit : t.precision.unitNanos ∣ nanosPerDay := by
    have hunits : (10 : ℤ) ^ t.precision.digits * 10 ^ (9 - t.precision.digits) = 10 ^ 9 := by
      exact_mod_cast Time.units_mul t.precision
    have hday : nanosPerDay = 86400 * 10 ^ 9 := by norm_num [nanosPerDay]
    rw [hday, ← hunits, TimePrecision.unitNanos]
    exact Dvd.dvd.mul_left (Dvd.intro_left _ rfl) _
  have hdvd : t.precision.unitNanos ∣ t.unixNanos.toInt ↔
      t.precision.unitNanos ∣ time.nanosSinceMidnight := by
    rw [hnanos, EuclideanDomain.dvd_mod_iff hunit]
  have hday : time.nanosSinceMidnight < 86400 * 10 ^ 9 := by
    rw [hnanos, nanosPerDay]
    omega
  constructor
  · rintro ⟨hparse, hnot⟩
    obtain ⟨d', rest, time', rfl, hrest, hprecision', hunix⟩ := parse_eq_some_iff.mp hparse
    rw [hleap] at hnot
    obtain ⟨⟨hdvd', hday'⟩, rfl⟩ := Time.parse_text_iff.mp ⟨hrest, hnot⟩
    have hvalid := time'.valid.1
    -- what was put together is what it is split into
    have hdaysEq : Date.countDays d'.year d'.month d'.day =
        Date.countDays d.year d.month d.day := by
      rw [hdays]
      simp only [nanosPerDay] at hunix ⊢
      omega
    obtain rfl := date_eq_of_countDays_eq hdaysEq
    have hnanosEq : time'.nanosSinceMidnight = time.nanosSinceMidnight := by
      rw [hnanos]
      simp only [nanosPerDay] at hunix ⊢
      omega
    have hsame : time' = time := by
      have hprecisionEq := hprecision'.symm.trans hprecision.symm
      obtain ⟨nanos, precision, hvalid⟩ := time
      obtain ⟨nanos', precision', hvalid'⟩ := time'
      obtain rfl : nanos' = nanos := hnanosEq
      obtain rfl : precision' = precision := hprecisionEq
      rfl
    rw [hsame] at hprecision' hdvd' ⊢
    exact ⟨hdvd.mpr (hprecision' ▸ hdvd'), rfl⟩
  · rintro ⟨hunix, rfl⟩
    obtain ⟨hrest, hnot⟩ := Time.parse_text_iff.mpr
      ⟨⟨hprecision ▸ hdvd.mp hunix, hday⟩, (rfl : time.text = time.text)⟩
    refine ⟨parse_eq_some_iff.mpr ⟨d, time.text, time, rfl, hrest, hprecision.symm, ?_⟩, ?_⟩
    · rw [hdays, hnanos]
      exact (Int.ediv_mul_add_emod _ _).symm
    · rwa [hleap]

end UtcTimestamp

end Refix.Message
