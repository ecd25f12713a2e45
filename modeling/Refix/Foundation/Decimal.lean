import Refix.Foundation.Search

/-!
# Decimal Numerals over Bytes

Numbers in text protocols are runs of ASCII digits. This file gives the value of such a
run, the numeral written for a number, and the digit-by-digit fold with overflow checks
that parsers use, for an arbitrary bound on the result.
-/

namespace Refix.Foundation

/-! ## Digits -/

/-- Whether a byte is an ASCII digit. -/
def isAsciiDigit (b : UInt8) : Bool := 48 ≤ b && b ≤ 57

/-- The number an ASCII digit stands for. -/
def digitValue (b : UInt8) : ℕ := (b - 48).toNat

/-- The ASCII digit for a number below ten. -/
def digitByte (d : ℕ) : UInt8 := UInt8.ofNat (48 + d)

theorem isAsciiDigit_iff {b : UInt8} : isAsciiDigit b = true ↔ 48 ≤ b.toNat ∧ b.toNat ≤ 57 := by
  simp only [isAsciiDigit, Bool.and_eq_true, decide_eq_true_eq, UInt8.le_iff_toNat_le]
  exact Iff.rfl

theorem toNat_digitByte {d : ℕ} (hd : d < 10) : (digitByte d).toNat = 48 + d := by
  simp only [digitByte, UInt8.toNat_ofNat']
  omega

@[simp] theorem isAsciiDigit_digitByte {d : ℕ} (hd : d < 10) :
    isAsciiDigit (digitByte d) = true := by
  rw [isAsciiDigit_iff, toNat_digitByte hd]
  omega

theorem digitValue_eq {b : UInt8} (hb : isAsciiDigit b = true) : digitValue b = b.toNat - 48 := by
  have hle : (48 : UInt8) ≤ b := UInt8.le_iff_toNat_le.mpr (isAsciiDigit_iff.mp hb).1
  rw [digitValue, UInt8.toNat_sub_of_le _ _ hle]
  rfl

theorem digitValue_lt {b : UInt8} (hb : isAsciiDigit b = true) : digitValue b < 10 := by
  have h := isAsciiDigit_iff.mp hb
  rw [digitValue_eq hb]
  omega

@[simp] theorem digitValue_digitByte {d : ℕ} (hd : d < 10) : digitValue (digitByte d) = d := by
  rw [digitValue_eq (isAsciiDigit_digitByte hd), toNat_digitByte hd]
  omega

/-- A digit is written back as itself. -/
theorem digitByte_digitValue {b : UInt8} (hb : isAsciiDigit b = true) :
    digitByte (digitValue b) = b := by
  apply UInt8.toNat_inj.mp
  have h := isAsciiDigit_iff.mp hb
  rw [toNat_digitByte (digitValue_lt hb), digitValue_eq hb]
  omega

/-! ## The value of a numeral -/

/-- The number a run of digits denotes. -/
def decimalValue (digits : List UInt8) : ℕ :=
  digits.foldl (fun acc b => acc * 10 + digitValue b) 0

@[simp] theorem decimalValue_nil : decimalValue [] = 0 := rfl

@[simp] theorem decimalValue_append_singleton (digits : List UInt8) (b : UInt8) :
    decimalValue (digits ++ [b]) = decimalValue digits * 10 + digitValue b := by
  simp [decimalValue]

/-- The digits of a numeral count by their places. -/
theorem decimalValue_append (digits rest : List UInt8) :
    decimalValue (digits ++ rest) = decimalValue digits * 10 ^ rest.length + decimalValue rest := by
  induction rest using List.reverseRecOn with
  | nil => simp
  | append_singleton rest b ih =>
    rw [← List.append_assoc, decimalValue_append_singleton, ih, decimalValue_append_singleton,
      List.length_append, List.length_singleton, pow_succ]
    ring

/-- Leading zeros count for nothing. -/
theorem decimalValue_replicate_zero_append (k : ℕ) (digits : List UInt8) :
    decimalValue (List.replicate k (digitByte 0) ++ digits) = decimalValue digits := by
  have hzeros : decimalValue (List.replicate k (digitByte 0)) = 0 := by
    induction k with
    | zero => rfl
    | succ k ih =>
      rw [List.replicate_succ', decimalValue_append_singleton, ih, digitValue_digitByte (by omega)]
  rw [decimalValue_append, hzeros, Nat.zero_mul, Nat.zero_add]

/-- A numeral of `k` digits denotes a number below `10 ^ k`. -/
theorem decimalValue_lt {digits : List UInt8} (h : ∀ b ∈ digits, isAsciiDigit b = true) :
    decimalValue digits < 10 ^ digits.length := by
  induction digits using List.reverseRecOn with
  | nil => simp
  | append_singleton digits b ih =>
    have hinit := ih (fun c hc => h c (by simp [hc]))
    have hlast := digitValue_lt (h b (by simp))
    rw [decimalValue_append_singleton, List.length_append, List.length_singleton, pow_succ]
    omega

/-! ## Writing a number -/

/-- The decimal numeral of `n`, without leading zeros. -/
def decimal (n : ℕ) : List UInt8 :=
  if n < 10 then [digitByte n] else decimal (n / 10) ++ [digitByte (n % 10)]
termination_by n

theorem decimal_of_lt {n : ℕ} (h : n < 10) : decimal n = [digitByte n] := by
  rw [decimal, if_pos h]

theorem decimal_of_le {n : ℕ} (h : 10 ≤ n) :
    decimal n = decimal (n / 10) ++ [digitByte (n % 10)] := by
  rw [decimal, if_neg (by omega)]

theorem decimal_ne_nil (n : ℕ) : decimal n ≠ [] := by
  by_cases h : n < 10
  · simp [decimal_of_lt h]
  · simp [decimal_of_le (Nat.le_of_not_lt h)]

/-- Every byte of a numeral is a digit. -/
theorem isAsciiDigit_of_mem_decimal {n : ℕ} {b : UInt8} (hb : b ∈ decimal n) :
    isAsciiDigit b = true := by
  induction n using Nat.strong_induction_on with
  | _ n ih =>
    by_cases h : n < 10
    · rw [decimal_of_lt h, List.mem_singleton] at hb
      rw [hb]
      exact isAsciiDigit_digitByte h
    · rw [decimal_of_le (Nat.le_of_not_lt h), List.mem_append, List.mem_singleton] at hb
      rcases hb with hb | rfl
      · exact ih (n / 10) (by omega) hb
      · exact isAsciiDigit_digitByte (Nat.mod_lt n (by omega))

/-- A numeral denotes the number it was written for. -/
@[simp] theorem decimalValue_decimal (n : ℕ) : decimalValue (decimal n) = n := by
  induction n using Nat.strong_induction_on with
  | _ n ih =>
    by_cases h : n < 10
    · rw [decimal_of_lt h, ← List.nil_append [digitByte n], decimalValue_append_singleton,
        decimalValue_nil, digitValue_digitByte h]
      omega
    · rw [decimal_of_le (Nat.le_of_not_lt h), decimalValue_append_singleton,
        ih (n / 10) (by omega), digitValue_digitByte (Nat.mod_lt n (by omega))]
      omega

/-- A number below `10 ^ k` takes at most `k` digits. -/
theorem length_decimal_le {n k : ℕ} (hk : 0 < k) (h : n < 10 ^ k) : (decimal n).length ≤ k := by
  induction k generalizing n with
  | zero => omega
  | succ k ih =>
    by_cases hn : n < 10
    · simp [decimal_of_lt hn]
    · have hk' : 0 < k := by
        rcases Nat.eq_zero_or_pos k with rfl | hpos
        · simp at h; omega
        · exact hpos
      have hdiv : n / 10 < 10 ^ k := by
        rw [pow_succ] at h
        exact (Nat.div_lt_iff_lt_mul (by omega)).mpr h
      have := ih hk' hdiv
      rw [decimal_of_le (Nat.le_of_not_lt hn), List.length_append, List.length_singleton]
      omega

/-- The three digits of a number below a thousand. -/
def threeDigits (n : ℕ) : List UInt8 :=
  [digitByte (n / 100), digitByte (n / 10 % 10), digitByte (n % 10)]

@[simp] theorem length_threeDigits (n : ℕ) : (threeDigits n).length = 3 := rfl

theorem isAsciiDigit_of_mem_threeDigits {n : ℕ} (hn : n < 1000) {b : UInt8}
    (hb : b ∈ threeDigits n) : isAsciiDigit b = true := by
  simp only [threeDigits, List.mem_cons, List.not_mem_nil, or_false] at hb
  rcases hb with rfl | rfl | rfl <;> exact isAsciiDigit_digitByte (by omega)

theorem decimalValue_threeDigits {n : ℕ} (hn : n < 1000) : decimalValue (threeDigits n) = n := by
  have h₁ := digitValue_digitByte (show n / 100 < 10 by omega)
  have h₂ := digitValue_digitByte (show n / 10 % 10 < 10 by omega)
  have h₃ := digitValue_digitByte (show n % 10 < 10 by omega)
  simp only [decimalValue, threeDigits, List.foldl_cons, List.foldl_nil, h₁, h₂, h₃]
  omega

/-- The last `width` digits of a number, leading zeros included. -/
def fixedDigits : ℕ → ℕ → List UInt8
  | 0, _ => []
  | width + 1, n => fixedDigits width (n / 10) ++ [digitByte (n % 10)]

@[simp] theorem length_fixedDigits (width n : ℕ) : (fixedDigits width n).length = width := by
  induction width generalizing n with
  | zero => rfl
  | succ width ih => rw [fixedDigits, List.length_append, ih, List.length_singleton]

theorem isAsciiDigit_of_mem_fixedDigits {width n : ℕ} {b : UInt8} (hb : b ∈ fixedDigits width n) :
    isAsciiDigit b = true := by
  induction width generalizing n with
  | zero => cases hb
  | succ width ih =>
    rcases List.mem_append.mp hb with hb | hb
    · exact ih hb
    · rw [List.mem_singleton.mp hb]
      exact isAsciiDigit_digitByte (Nat.mod_lt _ (by decide))

theorem decimalValue_fixedDigits {width n : ℕ} (h : n < 10 ^ width) :
    decimalValue (fixedDigits width n) = n := by
  induction width generalizing n with
  | zero =>
    have hzero : n = 0 := by simpa using h
    rw [hzero]
    rfl
  | succ width ih =>
    have hdiv : n / 10 < 10 ^ width := by
      rw [pow_succ] at h
      exact (Nat.div_lt_iff_lt_mul (by decide)).mpr h
    rw [fixedDigits, decimalValue_append_singleton, ih hdiv,
      digitValue_digitByte (Nat.mod_lt _ (by decide)), Nat.mul_comm, Nat.div_add_mod]

/-- A row of digits is given by its length and its number. -/
theorem eq_fixedDigits {digits : List UInt8} (h : ∀ b ∈ digits, isAsciiDigit b = true) :
    digits = fixedDigits digits.length (decimalValue digits) := by
  induction digits using List.reverseRecOn with
  | nil => rfl
  | append_singleton digits b ih =>
    have hinit := ih fun c hc => h c (List.mem_append_left _ hc)
    have hlast : isAsciiDigit b = true := h b (by simp)
    have hlt := digitValue_lt hlast
    have hdiv : (decimalValue digits * 10 + digitValue b) / 10 = decimalValue digits := by omega
    have hmod : (decimalValue digits * 10 + digitValue b) % 10 = digitValue b := by omega
    rw [decimalValue_append_singleton, List.length_append, List.length_singleton, fixedDigits, hdiv,
      hmod, digitByte_digitValue hlast, ← hinit]

/-! ## Reading with overflow checks -/

/-- Addition that fails past `bound`. -/
def checkedAdd (bound a b : ℕ) : Option ℕ := if a + b ≤ bound then some (a + b) else none

/-- Multiplication that fails past `bound`. -/
def checkedMul (bound a b : ℕ) : Option ℕ := if a * b ≤ bound then some (a * b) else none

/-- The digits of a numeral folded from the left, failing when a step passes `bound`. -/
def foldDigits (bound : ℕ) : ℕ → List UInt8 → Option ℕ
  | acc, [] => some acc
  | acc, b :: digits =>
    ((checkedMul bound acc 10).bind (checkedAdd bound · (digitValue b))).bind
      (foldDigits bound · digits)

private theorem foldl_digits_ge (acc : ℕ) (digits : List UInt8) :
    acc ≤ digits.foldl (fun acc b => acc * 10 + digitValue b) acc := by
  induction digits generalizing acc with
  | nil => simp
  | cons b digits ih =>
    have := ih (acc * 10 + digitValue b)
    simp only [List.foldl_cons]
    omega

private theorem foldDigits_from_eq_some_iff {bound acc n : ℕ} {digits : List UInt8}
    (hacc : acc ≤ bound) :
    foldDigits bound acc digits = some n ↔
      digits.foldl (fun acc b => acc * 10 + digitValue b) acc = n ∧ n ≤ bound := by
  induction digits generalizing acc with
  | nil =>
    simp only [foldDigits, List.foldl_nil, Option.some.injEq]
    exact ⟨fun h => ⟨h, h ▸ hacc⟩, And.left⟩
  | cons b digits ih =>
    rw [List.foldl_cons]
    by_cases hstep : acc * 10 + digitValue b ≤ bound
    · have hmul : acc * 10 ≤ bound := by omega
      have hfold : foldDigits bound acc (b :: digits) =
          foldDigits bound (acc * 10 + digitValue b) digits := by
        simp [foldDigits, checkedMul, checkedAdd, hmul, hstep]
      rw [hfold]
      exact ih hstep
    · -- a step past the bound fails, and the value only grows from there
      have hfold : foldDigits bound acc (b :: digits) = none := by
        by_cases hmul : acc * 10 ≤ bound <;>
          simp [foldDigits, checkedMul, checkedAdd, hmul, hstep]
      have hge := foldl_digits_ge (acc * 10 + digitValue b) digits
      rw [hfold]
      constructor
      · intro h
        exact absurd h (by simp)
      · rintro ⟨rfl, hle⟩
        omega

/-- The checked fold succeeds exactly when the numeral's value is within the bound. -/
theorem foldDigits_eq_some_iff {bound n : ℕ} {digits : List UInt8} :
    foldDigits bound 0 digits = some n ↔ decimalValue digits = n ∧ n ≤ bound :=
  foldDigits_from_eq_some_iff (Nat.zero_le bound)

end Refix.Foundation
