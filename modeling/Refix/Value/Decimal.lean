import Refix.Foundation.Checked
import Refix.Foundation.Signed
import Refix.Message.Framing

/-!
# Decimals

A FIX float, such as a price or quantity, as `mantissa * 10 ^ exponent`: how it is read from
the wire and written back, and when two of them are equal.
-/

namespace Refix.Message

open Refix.Foundation

/-- A FIX float: its digits as an integer, and the power of ten they are scaled by. -/
structure Decimal where
  mantissa : Int64
  exponent : Int8
  deriving DecidableEq

namespace Decimal

/-- The number a decimal stands for. -/
def value (d : Decimal) : ℚ := d.mantissa.toInt * 10 ^ d.exponent.toInt

/-! ## Reading -/

/-- The sign of a negative number. -/
def minusSign : UInt8 := 45

/-- The sign between the whole digits and the fraction. -/
def point : UInt8 := 46

/-- One more digit of the mantissa, unless it is none or the mantissa overflows. -/
def readDigit (mantissa : Int64) (byte : UInt8) : Option Int64 :=
  if isAsciiDigit byte then
    (checkedMul64 mantissa 10).bind (checkedAdd64 · (Int64.ofNat (digitValue byte)))
  else none

/-- Whether the text has a minus sign in front, and what follows it. -/
def takeSign (text : Bytes) : Bool × Bytes :=
  match stripPrefix [minusSign] text with
  | some rest => (true, rest)
  | none => (false, text)

/-- What is before the first point, and what follows it, or nothing without one. -/
def splitPoint (unsigned : Bytes) : Bytes × Bytes :=
  (unsigned.takeWhile (· != point), (unsigned.dropWhile (· != point)).drop 1)

/-- Reads a FIX float such as `-101.25`, keeping its scale. -/
def parse (text : Bytes) : Option Decimal :=
  let (negative, unsigned) := takeSign text
  let (whole, fraction) := splitPoint unsigned
  if whole = [] ∧ fraction = [] then none
  else do
    let scale ← int8? fraction.length
    let mantissa ← (whole ++ fraction).foldlM readDigit 0
    return ⟨if negative then -mantissa else mantissa, -scale⟩

/-! ## What a text writes -/

/-- The sign a number is written with. -/
def sign (negative : Bool) : Bytes := if negative then [minusSign] else []

/-- An integer with a sign. -/
def signed (negative : Bool) (n : ℕ) : ℤ := if negative then -n else n

/-- The text is a sign, whole digits, and, behind a point, the digits of a fraction. -/
structure Writes (text : Bytes) (negative : Bool) (whole fraction : Bytes) : Prop where
  shape : text = sign negative ++ (whole ++ point :: fraction) ∨
    text = sign negative ++ whole ∧ fraction = []
  digits : ∀ b ∈ whole ++ fraction, isAsciiDigit b = true
  ne_nil : whole ++ fraction ≠ []

/-- The number that is written. -/
def written (negative : Bool) (whole fraction : Bytes) : ℚ :=
  (if negative then -1 else 1) *
    (decimalValue whole + decimalValue fraction / 10 ^ fraction.length)

/-- The digits of the mantissa are read exactly, where they fit. -/
theorem foldlM_readDigit_eq_some_iff {digits : Bytes} {mantissa : Int64} :
    digits.foldlM readDigit 0 = some mantissa ↔
      (∀ b ∈ digits, isAsciiDigit b = true) ∧ mantissa.toInt = decimalValue digits := by
  induction digits using List.reverseRecOn generalizing mantissa with
  | nil =>
    simp only [List.foldlM_nil, Option.pure_def, Option.some.injEq, List.not_mem_nil, false_implies,
      implies_true, true_and, decimalValue_nil]
    exact ⟨fun h => by rw [← h]; rfl, fun h => (Int64.toInt_inj.mp h).symm⟩
  | append_singleton digits b ih =>
    have hdigit : isAsciiDigit b = true → (Int64.ofNat (digitValue b)).toInt = digitValue b :=
      fun hb => Int64.toInt_ofNat_of_lt (by have := digitValue_lt hb; omega)
    simp only [List.foldlM_append, List.foldlM_cons, List.foldlM_nil, bind_pure,
      Option.bind_eq_bind, Option.bind_eq_some_iff, ih, List.mem_append, List.mem_singleton,
      decimalValue_append_singleton, readDigit, Option.ite_none_right_eq_some, checkedMul64,
      checkedAdd64, int64?_eq_some_iff]
    constructor
    · rintro ⟨before, ⟨hdigits, hbefore⟩, hb, product, hproduct, hmantissa⟩
      refine ⟨?_, ?_⟩
      · rintro c (hc | rfl)
        · exact hdigits c hc
        · exact hb
      · have hten : (10 : Int64).toInt = 10 := rfl
        rw [hmantissa, hproduct, hbefore, hdigit hb, hten]
        push_cast
        ring
    · rintro ⟨hdigits, hmantissa⟩
      have hlt := Int64.toInt_lt mantissa
      have hb := hdigits b (Or.inr rfl)
      -- the digits before the last are no more than all of them, so they fit as well
      obtain ⟨before, hbefore⟩ := @exists_int64 (decimalValue digits) (by omega) (by omega)
      obtain ⟨product, hproduct⟩ :=
        @exists_int64 (decimalValue digits * 10) (by omega) (by omega)
      refine ⟨before, ⟨fun c hc => hdigits c (Or.inl hc), hbefore⟩, hb, product, ?_, ?_⟩
      · rw [hproduct, hbefore]
        rfl
      · rw [hmantissa, hproduct, hdigit hb]
        push_cast
        ring

theorem minusSign_ne_of_digit {b : UInt8} (h : isAsciiDigit b = true) : b ≠ minusSign := by
  rintro rfl
  exact absurd h (by decide)

theorem point_ne_of_digit {b : UInt8} (h : isAsciiDigit b = true) : b ≠ point := by
  rintro rfl
  exact absurd h (by decide)

theorem takeSign_spec (text : Bytes) : text = sign (takeSign text).1 ++ (takeSign text).2 := by
  unfold takeSign
  split
  · next rest h => exact stripPrefix_eq_some_iff.mp h
  · rfl

theorem takeSign_append {negative : Bool} {unsigned : Bytes}
    (h : unsigned.head? ≠ some minusSign) :
    takeSign (sign negative ++ unsigned) = (negative, unsigned) := by
  unfold takeSign
  cases negative with
  | true => rw [show stripPrefix [minusSign] (sign true ++ unsigned) = some unsigned from
      stripPrefix_eq_some_iff.mpr rfl]
  | false =>
    have hnone : stripPrefix [minusSign] (sign false ++ unsigned) = none := by
      rw [Option.eq_none_iff_forall_ne_some]
      intro rest hrest
      have hunsigned : unsigned = minusSign :: rest := stripPrefix_eq_some_iff.mp hrest
      rw [hunsigned] at h
      exact h rfl
    rw [hnone]
    rfl

theorem splitPoint_spec (unsigned : Bytes) :
    unsigned = (splitPoint unsigned).1 ++ point :: (splitPoint unsigned).2 ∨
      unsigned = (splitPoint unsigned).1 ∧ (splitPoint unsigned).2 = [] := by
  by_cases hpoint : point ∈ unsigned
  · obtain ⟨after, hafter⟩ := exists_takeWhile_append_cons hpoint
    have hdrop : unsigned.dropWhile (· != point) = point :: after := by
      have hsplit := List.takeWhile_append_dropWhile (p := (· != point)) (l := unsigned)
      exact List.append_cancel_left (hsplit.trans hafter)
    left
    simpa only [splitPoint, hdrop, List.drop_one, List.tail_cons] using hafter
  · have hall : ∀ b ∈ unsigned, (b != point) = true := by
      intro b hb
      simp only [bne_iff_ne]
      rintro rfl
      exact hpoint hb
    right
    simp [splitPoint, List.takeWhile_eq_self_iff.mpr hall, List.dropWhile_eq_nil_iff.mpr hall]

theorem splitPoint_append {whole fraction : Bytes} (h : point ∉ whole) :
    splitPoint (whole ++ point :: fraction) = (whole, fraction) := by
  have htake : (whole ++ point :: fraction).takeWhile (· != point) = whole :=
    takeWhile_append_cons_self h
  have hsplit := List.takeWhile_append_dropWhile (p := (· != point)) (l := whole ++ point :: fraction)
  rw [htake] at hsplit
  rw [splitPoint, htake, List.append_cancel_left hsplit]
  rfl

theorem splitPoint_of_not_mem {whole : Bytes} (h : point ∉ whole) : splitPoint whole = (whole, []) := by
  rcases splitPoint_spec whole with hsplit | ⟨hwhole, hfraction⟩
  · rw [hsplit] at h
    exact absurd (by simp) h
  · exact Prod.ext hwhole.symm hfraction

namespace Writes

variable {text whole fraction : Bytes} {negative : Bool}

/-- A text that writes a number is taken apart as it was put together. -/
theorem split (h : Writes text negative whole fraction) :
    ∃ unsigned, takeSign text = (negative, unsigned) ∧ splitPoint unsigned = (whole, fraction) := by
  have hwhole : ∀ b ∈ whole, isAsciiDigit b = true := fun b hb =>
    h.digits b (List.mem_append_left fraction hb)
  have hpoint : point ∉ whole := fun hmem => point_ne_of_digit (hwhole point hmem) rfl
  have hhead : ∀ rest, rest.head? ≠ some minusSign → (whole ++ rest).head? ≠ some minusSign := by
    intro rest hrest
    cases whole with
    | nil => exact hrest
    | cons b whole =>
      rw [List.cons_append, List.head?_cons, ne_eq, Option.some.injEq]
      exact minusSign_ne_of_digit (hwhole b List.mem_cons_self)
  have hfront : (point :: fraction).head? ≠ some minusSign := fun heq =>
    absurd (Option.some.inj heq) (by decide)
  rcases h.shape with rfl | ⟨rfl, rfl⟩
  · exact ⟨_, takeSign_append (hhead _ hfront), splitPoint_append hpoint⟩
  · have hself := hhead [] (by decide)
    rw [List.append_nil] at hself
    exact ⟨_, takeSign_append hself, splitPoint_of_not_mem hpoint⟩

/-- A text writes its number in one way. -/
theorem unique (h : Writes text negative whole fraction) {negative' : Bool}
    {whole' fraction' : Bytes} (h' : Writes text negative' whole' fraction') :
    negative = negative' ∧ whole = whole' ∧ fraction = fraction' := by
  obtain ⟨unsigned, hsign, hsplit⟩ := h.split
  obtain ⟨unsigned', hsign', hsplit'⟩ := h'.split
  simp only [hsign, Prod.mk.injEq] at hsign'
  obtain ⟨hnegative, rfl⟩ := hsign'
  simp only [hsplit, Prod.mk.injEq] at hsplit'
  exact ⟨hnegative, hsplit'⟩

end Writes

/-- What is read, for the sign and the digits a text is taken apart into. -/
theorem parse_eq {text unsigned whole fraction : Bytes} {negative : Bool}
    (hsign : takeSign text = (negative, unsigned)) (hsplit : splitPoint unsigned = (whole, fraction)) :
    parse text = if whole = [] ∧ fraction = [] then none
      else (int8? fraction.length).bind fun scale =>
        ((whole ++ fraction).foldlM readDigit 0).bind fun mantissa =>
          some ⟨if negative then -mantissa else mantissa, -scale⟩ := by
  simp only [parse, hsign, hsplit]
  rfl

/-- **A text is read exactly where it writes a number whose digits fit.** -/
theorem parse_eq_some_iff {text : Bytes} {d : Decimal} :
    parse text = some d ↔ ∃ negative whole fraction, Writes text negative whole fraction ∧
      fraction.length ≤ 127 ∧ decimalValue (whole ++ fraction) < 2 ^ 63 ∧
      d.mantissa.toInt = signed negative (decimalValue (whole ++ fraction)) ∧
      d.exponent.toInt = -fraction.length := by
  constructor
  · intro h
    have hshape := splitPoint_spec (takeSign text).2
    have htext := takeSign_spec text
    generalize hsign : takeSign text = taken at hshape htext
    obtain ⟨negative, unsigned⟩ := taken
    generalize hsplit : splitPoint unsigned = parts at hshape
    obtain ⟨whole, fraction⟩ := parts
    rw [parse_eq hsign hsplit] at h
    simp only [Option.ite_none_left_eq_some, Option.bind_eq_some_iff, int8?_eq_some_iff,
      foldlM_readDigit_eq_some_iff, Option.some.injEq] at h
    -- The digits are folded without their sign, so what they count to is below `2 ^ 63`.
    obtain ⟨hne, scale, hscale, mantissa, ⟨hdigits, hmantissa⟩, rfl⟩ := h
    have hbound := Int64.toInt_lt mantissa
    have hwidth := Int8.toInt_lt scale
    refine ⟨negative, whole, fraction, ⟨?_, hdigits, ?_⟩, by omega, by omega, ?_, ?_⟩
    · rcases hshape with hshape | ⟨hshape, hnil⟩
      · exact Or.inl (by rw [htext, hshape])
      · exact Or.inr ⟨by rw [htext, hshape], hnil⟩
    · rwa [ne_eq, List.append_eq_nil_iff]
    · cases negative with
      | true => exact (toInt_neg64 (by omega)).trans (by rw [hmantissa]; rfl)
      | false => exact hmantissa
    · exact (toInt_neg8 (by omega)).trans (by rw [hscale])
  · rintro ⟨negative, whole, fraction, hwrites, hlength, hvalue, hmantissa, hexponent⟩
    -- Conversely, the written parts are those that `parse` takes apart.
    obtain ⟨unsigned, hsign, hsplit⟩ := hwrites.split
    obtain ⟨mantissa, hread⟩ :=
      @exists_int64 (decimalValue (whole ++ fraction)) (by omega) (by omega)
    rw [parse_eq hsign hsplit]
    simp only [Option.ite_none_left_eq_some, Option.bind_eq_some_iff, int8?_eq_some_iff,
      foldlM_readDigit_eq_some_iff, Option.some.injEq]
    have hscale : (Int8.ofInt fraction.length).toInt = fraction.length :=
      Int8.toInt_ofInt_of_le (by omega) (by omega)
    refine ⟨fun hnil => hwrites.ne_nil (List.append_eq_nil_iff.mpr hnil), _, hscale, mantissa,
      ⟨hwrites.digits, hread⟩, ?_⟩
    rw [Decimal.mk.injEq, ← Int64.toInt_inj, ← Int8.toInt_inj, hmantissa, hexponent,
      toInt_neg8 (by omega), hscale]
    refine ⟨?_, rfl⟩
    cases negative with
    | true => exact (toInt_neg64 (by omega)).trans (by rw [hread]; rfl)
    | false => exact hread

/-- The number a text writes is its mantissa, scaled. -/
theorem value_eq_written {whole fraction : Bytes} {negative : Bool} {d : Decimal}
    (hmantissa : d.mantissa.toInt = signed negative (decimalValue (whole ++ fraction)))
    (hexponent : d.exponent.toInt = -fraction.length) :
    d.value = written negative whole fraction := by
  have hten : (10 : ℚ) ^ fraction.length ≠ 0 := by positivity
  rw [value, hmantissa, hexponent, zpow_neg, zpow_natCast, decimalValue_append, written]
  cases negative <;> simp only [signed, if_true, if_false, Bool.false_eq_true] <;> push_cast <;>
    field_simp

/-! ## Writing -/

/-- The digits of the text a decimal is displayed as, without its sign. -/
def displayDigits (d : Decimal) : Bytes :=
  let digits := decimal d.mantissa.toInt.natAbs
  let scale := d.exponent.toInt.natAbs
  if 0 ≤ d.exponent.toInt then digits ++ List.replicate scale (digitByte 0)
  else if scale < digits.length then
    digits.take (digits.length - scale) ++ point :: digits.drop (digits.length - scale)
  else
    digitByte 0 :: point :: (List.replicate (scale - digits.length) (digitByte 0) ++ digits)

/-- The text a decimal is displayed as, without padding. -/
def display (d : Decimal) : Bytes := sign (decide (d.mantissa.toInt < 0)) ++ d.displayDigits

/-- A decimal is displayed with its digits, and a fraction as long as its scale. -/
theorem writes_display {d : Decimal} (h : d.exponent.toInt ≤ 0) :
    ∃ whole fraction, Writes d.display (decide (d.mantissa.toInt < 0)) whole fraction ∧
      d.exponent.toInt = -fraction.length ∧
      decimalValue (whole ++ fraction) = d.mantissa.toInt.natAbs := by
  have hdigits : ∀ b ∈ decimal d.mantissa.toInt.natAbs, isAsciiDigit b = true := fun _ =>
    isAsciiDigit_of_mem_decimal
  have hne := decimal_ne_nil d.mantissa.toInt.natAbs
  have hvalue := decimalValue_decimal d.mantissa.toInt.natAbs
  simp only [display, displayDigits]
  generalize decimal d.mantissa.toInt.natAbs = digits at hdigits hne hvalue
  split
  · next hzero =>
    have hexponent : d.exponent.toInt = 0 := le_antisymm h hzero
    rw [hexponent, Int.natAbs_zero, List.replicate_zero]
    refine ⟨digits, [], ⟨Or.inr ⟨by rw [List.append_nil], rfl⟩, ?_, ?_⟩, rfl, ?_⟩
    · rwa [List.append_nil]
    · rwa [List.append_nil]
    · rw [List.append_nil, hvalue]
  · split
    · next hscale =>
      refine ⟨digits.take (digits.length - d.exponent.toInt.natAbs),
        digits.drop (digits.length - d.exponent.toInt.natAbs), ⟨Or.inl rfl, ?_, ?_⟩, ?_, ?_⟩
      · rwa [List.take_append_drop]
      · rwa [List.take_append_drop]
      · rw [List.length_drop]
        omega
      · rw [List.take_append_drop, hvalue]
    · next hscale =>
      -- the zeros in front of the digits, one of them before the point, count for nothing
      refine ⟨[digitByte 0], List.replicate (d.exponent.toInt.natAbs - digits.length) (digitByte 0)
        ++ digits, ⟨Or.inl rfl, ?_, ?_⟩, ?_, ?_⟩
      · intro b hb
        simp only [List.mem_append, List.mem_singleton, List.mem_replicate] at hb
        rcases hb with rfl | ⟨-, rfl⟩ | hb
        · decide
        · decide
        · exact hdigits b hb
      · simp
      · rw [List.length_append, List.length_replicate]
        omega
      · rw [← List.append_assoc, ← List.replicate_one, List.replicate_append_replicate,
          decimalValue_replicate_zero_append, hvalue]

/-- **A displayed decimal is read back, unless its mantissa is the least `i64`.** -/
theorem parse_display_iff {d : Decimal} (hlo : -127 ≤ d.exponent.toInt) (hhi : d.exponent.toInt ≤ 0) :
    parse d.display = some d ↔ d.mantissa.toInt ≠ -2 ^ 63 := by
  obtain ⟨whole, fraction, hwrites, hexponent, hvalue⟩ := writes_display hhi
  have hmin := Int64.le_toInt d.mantissa
  have hmax := Int64.toInt_lt d.mantissa
  have hmantissa : d.mantissa.toInt =
      signed (decide (d.mantissa.toInt < 0)) (decimalValue (whole ++ fraction)) := by
    rw [hvalue, signed]
    simp only [decide_eq_true_eq]
    split <;> omega
  rw [parse_eq_some_iff]
  constructor
  · rintro ⟨negative, whole', fraction', hwrites', -, hfits, -, -⟩
    obtain ⟨-, rfl, rfl⟩ := hwrites.unique hwrites'
    omega
  · intro hne
    exact ⟨_, whole, fraction, hwrites, by omega, by omega, hmantissa, hexponent⟩

/-! ## Reading is exact -/

/-- A text is read exactly where it writes a number with at most 127 fraction digits whose
digits, with their sign, fit an `i64`; and what is read is the number that is written. -/
structure ParsesExactly (text : Bytes) : Prop where
  accepts : (parse text).isSome ↔ ∃ negative whole fraction,
    Writes text negative whole fraction ∧ fraction.length ≤ 127 ∧
      -2 ^ 63 ≤ signed negative (decimalValue (whole ++ fraction)) ∧
      signed negative (decimalValue (whole ++ fraction)) < 2 ^ 63
  exact : ∀ d negative whole fraction, parse text = some d →
    Writes text negative whole fraction →
      d.exponent.toInt = -fraction.length ∧ d.value = written negative whole fraction

/-- A text writes the least `i64`, scaled. -/
def WritesMin (text : Bytes) : Prop :=
  ∃ whole fraction, Writes text true whole fraction ∧ fraction.length ≤ 127 ∧
    decimalValue (whole ++ fraction) = 2 ^ 63

/-- The least `i64` does not survive the check for overflow, which is made before the sign. -/
theorem parsesExactly_iff {text : Bytes} : ParsesExactly text ↔ ¬ WritesMin text := by
  have hexact : ∀ d negative whole fraction, parse text = some d →
      Writes text negative whole fraction →
        d.exponent.toInt = -fraction.length ∧ d.value = written negative whole fraction := by
    intro d negative whole fraction hparse hwrites
    obtain ⟨_, _, _, hwrites', -, -, hmantissa, hexponent⟩ := parse_eq_some_iff.mp hparse
    obtain ⟨rfl, rfl, rfl⟩ := hwrites.unique hwrites'
    exact ⟨hexponent, value_eq_written hmantissa hexponent⟩
  constructor
  -- A text of the least mantissa would have to be accepted, but its digits overflow before the sign
  -- is applied.
  · rintro hparses ⟨whole, fraction, hwrites, hlength, hvalue⟩
    have hsigned : signed true (decimalValue (whole ++ fraction)) = -2 ^ 63 := by
      rw [hvalue]
      rfl
    have hsome := hparses.accepts.mpr ⟨true, whole, fraction, hwrites, hlength, by omega, by omega⟩
    obtain ⟨d, hd⟩ := Option.isSome_iff_exists.mp hsome
    obtain ⟨_, _, _, hwrites', -, hfits, -, -⟩ := parse_eq_some_iff.mp hd
    obtain ⟨-, rfl, rfl⟩ := hwrites.unique hwrites'
    omega
  · intro hmin
    refine ⟨⟨fun hsome => ?_, ?_⟩, hexact⟩
    · obtain ⟨d, hd⟩ := Option.isSome_iff_exists.mp hsome
      obtain ⟨negative, whole, fraction, hwrites, hlength, -, hmantissa, -⟩ :=
        parse_eq_some_iff.mp hd
      have hlo := Int64.le_toInt d.mantissa
      have hhi := Int64.toInt_lt d.mantissa
      rw [hmantissa] at hlo hhi
      exact ⟨negative, whole, fraction, hwrites, hlength, hlo, hhi⟩
    · rintro ⟨negative, whole, fraction, hwrites, hlength, hlo, hhi⟩
      -- Digits that fit with their sign fit without it, but for the least mantissa.
      have hfits : decimalValue (whole ++ fraction) < 2 ^ 63 := by
        cases negative with
        | false =>
          simp only [signed, Bool.false_eq_true, if_false] at hhi
          omega
        | true =>
          have hne : decimalValue (whole ++ fraction) ≠ 2 ^ 63 := fun heq =>
            hmin ⟨whole, fraction, hwrites, hlength, heq⟩
          simp only [signed, if_true] at hlo
          omega
      obtain ⟨mantissa, hm⟩ := exists_int64 hlo hhi
      have he : (Int8.ofInt (-fraction.length)).toInt = -fraction.length :=
        Int8.toInt_ofInt_of_le (by omega) (by omega)
      exact Option.isSome_iff_exists.mpr ⟨⟨mantissa, Int8.ofInt (-fraction.length)⟩,
        parse_eq_some_iff.mpr ⟨negative, whole, fraction, hwrites, hlength, hfits, hm, he⟩⟩

/-- **Decimal text is read exactly and round-trips, but for the least `i64`:** its digits are
checked for overflow before they have their sign. -/
theorem parse_exact (text : Bytes) (d : Decimal) :
    (ParsesExactly text ↔ ¬ WritesMin text) ∧
      (-127 ≤ d.exponent.toInt → d.exponent.toInt ≤ 0 →
        (parse d.display = some d ↔ d.mantissa.toInt ≠ -2 ^ 63)) :=
  ⟨parsesExactly_iff, parse_display_iff⟩

theorem parse_exact_price :
    parse (display ⟨Int64.ofInt 150, Int8.ofInt (-2)⟩) =
      some ⟨Int64.ofInt 150, Int8.ofInt (-2)⟩ :=
  ((parse_exact [] ⟨Int64.ofInt 150, Int8.ofInt (-2)⟩).2 (by decide) (by decide)).mpr (by decide)

theorem parse_exact_min :
    ¬ ParsesExactly (ascii "-9223372036854775808") ∧
      parse (display ⟨Int64.minValue, 0⟩) ≠ some ⟨Int64.minValue, 0⟩ := by
  constructor
  · rw [parsesExactly_iff, not_not]
    refine ⟨ascii "9223372036854775808", [], ⟨Or.inr ⟨?_, rfl⟩, ?_, ?_⟩, ?_, ?_⟩ <;>
      decide +kernel
  · intro h
    exact (parse_display_iff (by decide) (by decide)).mp h rfl

/-! ## Equality -/

/-- Takes the mantissa's trailing zeros over into the exponent, while it has room. -/
def normalizeFrom : ℕ → Int64 → Int8 → Except Panic (Int64 × Int8)
  | 0, _, _ => .error .outOfFuel
  | fuel + 1, mantissa, exponent =>
    if mantissa % 10 = 0 ∧ exponent < Int8.maxValue then do
      let exponent ← Checked.int8 (exponent.toInt + 1)
      normalizeFrom fuel (mantissa / 10) exponent
    else .ok (mantissa, exponent)

/-- The same value without trailing zeros, to compare across scales. An `i8` takes 256 values,
so the exponent has grown to its limit within as many turns. -/
def normalized (d : Decimal) : Except Panic (Int64 × Int8) :=
  if d.mantissa = 0 then .ok (0, 0) else normalizeFrom 256 d.mantissa d.exponent

/-- `self == other` -/
def eq (d other : Decimal) : Except Panic Bool := do
  return (← d.normalized) == (← other.normalized)

/-- The hash of a decimal, for a hasher that is fed the normal form. -/
def hash {σ : Type} (feed : σ → Int64 × Int8 → σ) (d : Decimal) (state : σ) : Except Panic σ := do
  return feed state (← d.normalized)

/-- A mantissa and an exponent that no representation of the same number comes after. -/
structure Normal (mantissa exponent : ℤ) : Prop where
  ne_zero : mantissa ≠ 0
  le : exponent ≤ 127
  stops : ¬ 10 ∣ mantissa ∨ exponent = 127

/-- Of two representations of a number, the one with the lesser exponent has the trailing
zeros. -/
theorem mantissa_eq {m m' e e' : ℤ} (h : (m : ℚ) * 10 ^ e = m' * 10 ^ e') (hle : e ≤ e') :
    m = m' * 10 ^ (e' - e).toNat := by
  have hten : (10 : ℚ) ^ e ≠ 0 := zpow_ne_zero e (by norm_num)
  have hsplit : (10 : ℚ) ^ e' = 10 ^ (e' - e).toNat * 10 ^ e := by
    rw [← zpow_natCast, ← zpow_add₀ (by norm_num), Int.toNat_of_nonneg (by omega)]
    congr 1
    omega
  rw [hsplit, ← mul_assoc] at h
  exact_mod_cast mul_right_cancel₀ hten h

theorem Normal.value_ne_zero {m e : ℤ} (h : Normal m e) : (m : ℚ) * 10 ^ e ≠ 0 :=
  mul_ne_zero (Int.cast_ne_zero.mpr h.ne_zero) (zpow_ne_zero e (by norm_num))

/-- **A number has one normal form.** -/
theorem Normal.unique {m m' e e' : ℤ} (h : Normal m e) (h' : Normal m' e')
    (hvalue : (m : ℚ) * 10 ^ e = m' * 10 ^ e') : m = m' ∧ e = e' := by
  -- the one with the lesser exponent could have taken over one more zero
  have hle : ∀ {m m' e e' : ℤ}, Normal m e → Normal m' e' → (m : ℚ) * 10 ^ e = m' * 10 ^ e' →
      e' ≤ e := by
    intro m m' e e' h h' hvalue
    by_contra hlt
    have hm := mantissa_eq hvalue (by omega)
    obtain ⟨k, hk⟩ : ∃ k, (e' - e).toNat = k + 1 := ⟨(e' - e).toNat - 1, by omega⟩
    have hdvd : (10 : ℤ) ∣ m := by
      rw [hm, hk, pow_succ]
      exact Dvd.intro_left _ (mul_assoc _ _ _)
    have := h'.le
    rcases h.stops with hstops | hstops
    · exact hstops hdvd
    · omega
  have heq : e = e' := le_antisymm (hle h' h hvalue.symm) (hle h h' hvalue)
  have hm := mantissa_eq hvalue heq.le
  rw [heq, Int.sub_self, Int.toNat_zero, pow_zero, mul_one] at hm
  exact ⟨hm, heq⟩

/-- **The loop ends, without overflow, in the normal form of its number.** -/
theorem normalizeFrom_spec {fuel : ℕ} {mantissa : Int64} {exponent : Int8}
    (hne : mantissa.toInt ≠ 0) (hfuel : 127 - exponent.toInt < fuel) :
    ∃ m e, normalizeFrom fuel mantissa exponent = .ok (m, e) ∧ Normal m.toInt e.toInt ∧
      (m.toInt : ℚ) * 10 ^ e.toInt = mantissa.toInt * 10 ^ exponent.toInt := by
  have hmax := Int8.toInt_lt exponent
  have hmin := Int8.le_toInt exponent
  induction fuel generalizing mantissa exponent with
  | zero => omega
  | succ fuel ih =>
    have hten : (10 : Int64).toInt = 10 := rfl
    have hzero : mantissa % 10 = 0 ↔ 10 ∣ mantissa.toInt := by
      rw [← Int64.toInt_inj, Int64.toInt_mod, hten, Int.dvd_iff_tmod_eq_zero]
      rfl
    have hroom : exponent < Int8.maxValue ↔ exponent.toInt < 127 := Int8.lt_iff_toInt_lt
    simp only [normalizeFrom, hzero, hroom]
    split
    -- A turn divides by ten where the exponent has room, so the number stays the same.
    · next hturn =>
      obtain ⟨⟨k, hk⟩, hlt⟩ := hturn
      have hexponent : (Int8.ofInt (exponent.toInt + 1)).toInt = exponent.toInt + 1 :=
        Int8.toInt_ofInt_of_le (by omega) (by omega)
      have hdiv : (mantissa / 10).toInt = k := by
        rw [Int64.toInt_div_of_ne_right _ _ (by decide), hten, hk, Int.mul_tdiv_cancel_left _ (by omega)]
      rw [Checked.int8_eq (by omega) (by omega), Checked.bind_ok]
      have hpow : (10 : ℚ) ^ (exponent.toInt + 1) = 10 ^ exponent.toInt * 10 :=
        zpow_add_one₀ (by norm_num) _
      obtain ⟨m, e, heq, hnormal, hvalue⟩ := @ih (mantissa / 10) (Int8.ofInt (exponent.toInt + 1))
        (by omega) (by omega) (by omega) (by omega)
      refine ⟨m, e, heq, hnormal, ?_⟩
      rw [hvalue, hdiv, hexponent, hpow, hk]
      push_cast
      ring
    · next hturn =>
      refine ⟨mantissa, exponent, rfl, ⟨hne, by omega, ?_⟩, rfl⟩
      by_cases hdvd : 10 ∣ mantissa.toInt
      · exact Or.inr (by have := mt (And.intro hdvd) hturn; omega)
      · exact Or.inl hdvd

/-- The normal form of a decimal: nothing for zero, and its number otherwise. -/
theorem normalized_spec (d : Decimal) :
    ∃ m e, d.normalized = .ok (m, e) ∧ (m.toInt : ℚ) * 10 ^ e.toInt = d.value ∧
      (m = 0 ∧ e = 0 ∨ Normal m.toInt e.toInt) := by
  unfold normalized
  split
  · next hzero =>
    refine ⟨0, 0, rfl, ?_, Or.inl ⟨rfl, rfl⟩⟩
    rw [value, hzero]
    simp
  · next hne =>
    have hne' : d.mantissa.toInt ≠ 0 := fun h => hne (Int64.toInt_inj.mp h)
    have hmin := Int8.le_toInt d.exponent
    obtain ⟨m, e, heq, hnormal, hvalue⟩ :=
      @normalizeFrom_spec 256 d.mantissa d.exponent hne' (by omega)
    exact ⟨m, e, heq, hvalue, Or.inr hnormal⟩

/-- **Decimals are equal, and hash alike, as the numbers they stand for.** -/
theorem eq_iff_value_eq (a b : Decimal) :
    ∃ x y, a.normalized = .ok x ∧ b.normalized = .ok y ∧
      Decimal.eq a b = .ok (decide (a.value = b.value)) ∧
      (a.value = b.value → x = y ∧
        ∀ (σ : Type) (feed : σ → Int64 × Int8 → σ) (state : σ),
          hash feed a state = hash feed b state) := by
  obtain ⟨m, e, ha, hvalue, hform⟩ := normalized_spec a
  obtain ⟨m', e', hb, hvalue', hform'⟩ := normalized_spec b
  have hzero : (((0 : Int64).toInt : ℚ)) * 10 ^ (0 : Int8).toInt = 0 := by simp
  have hsame : a.value = b.value ↔ (m, e) = (m', e') := by
    constructor
    · intro h
      rw [← hvalue, ← hvalue'] at h
      -- Zero has its own normal form, which no other number shares; any other form is unique.
      rcases hform with ⟨rfl, rfl⟩ | hform <;> rcases hform' with ⟨rfl, rfl⟩ | hform'
      · rfl
      · rw [hzero] at h
        exact absurd h.symm hform'.value_ne_zero
      · rw [hzero] at h
        exact absurd h hform.value_ne_zero
      · obtain ⟨hm, he⟩ := hform.unique hform' h
        rw [Int64.toInt_inj.mp hm, Int8.toInt_inj.mp he]
    · intro h
      obtain ⟨rfl, rfl⟩ := Prod.mk.inj h
      rw [← hvalue, ← hvalue']
  refine ⟨(m, e), (m', e'), ha, hb, ?_, fun h => ⟨hsame.mp h, fun σ feed state => ?_⟩⟩
  · rw [eq, ha, hb]
    have hbeq : ((m, e) == (m', e')) = decide (a.value = b.value) := by
      rw [beq_eq_decide]
      exact decide_eq_decide.mpr hsame.symm
    exact congrArg Except.ok hbeq
  · rw [hash, hash, ha, hb, hsame.mp h]

end Decimal

end Refix.Message
