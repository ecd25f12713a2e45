import Mathlib.Data.List.Basic

/-!
# Numerals

A row of decimal digits is, without its leading zeros, the numeral of the number it denotes.
-/

namespace Refix.Foundation

/-- A digit character is the numeral of its value. -/
theorem toDigits_digit {c : Char} (h : c.isDigit = true) :
    c.toNat - '0'.toNat < 10 ∧ Nat.toDigits 10 (c.toNat - '0'.toNat) = [c] := by
  simp only [Char.isDigit, ge_iff_le, Bool.and_eq_true, decide_eq_true_eq] at h
  have hlo : 48 ≤ c.toNat := h.1
  have hhi : c.toNat ≤ 57 := h.2
  have hzero : '0'.toNat = 48 := rfl
  have hlt : c.toNat - '0'.toNat < 10 := by omega
  refine ⟨hlt, ?_⟩
  rw [Nat.toDigits_of_lt_base hlt]
  congr 1
  apply Char.toNat_inj.mp
  rw [Nat.toNat_digitChar_of_lt_ten hlt]
  omega

/-- Digits behind a numeral that is not zero continue it. -/
theorem toDigits_append_digits {n : ℕ} (hn : 0 < n) {digits : List Char}
    (hall : ∀ c ∈ digits, c.isDigit = true) :
    Nat.toDigits 10 n ++ digits = Nat.toDigits 10 (Nat.ofDigitChars 10 digits n) := by
  induction digits generalizing n with
  | nil => simp
  | cons c digits ih =>
    obtain ⟨hlt, hdigit⟩ := toDigits_digit (hall c List.mem_cons_self)
    have happend := Nat.toDigits_append_toDigits (b := 10) (n := n) (by decide) hn hlt
    rw [hdigit] at happend
    rw [Nat.ofDigitChars_cons,
      ← ih (by omega) fun d hd => hall d (List.mem_cons_of_mem c hd), ← happend,
      List.append_assoc, List.singleton_append]

theorem le_ofDigitChars (digits : List Char) (n : ℕ) : n ≤ Nat.ofDigitChars 10 digits n := by
  induction digits generalizing n with
  | nil => simp
  | cons c digits ih =>
    rw [Nat.ofDigitChars_cons]
    exact Nat.le_trans (by omega) (ih _)

/-- Leading zeros add nothing. -/
theorem ofDigitChars_dropWhile_zero (digits : List Char) :
    Nat.ofDigitChars 10 (digits.dropWhile (· == '0')) 0 = Nat.ofDigitChars 10 digits 0 := by
  induction digits with
  | nil => rfl
  | cons c digits ih =>
    by_cases hzero : c = '0'
    · subst hzero
      rw [List.dropWhile_cons_of_pos (by rfl), ih, Nat.ofDigitChars_cons]
      rfl
    · rw [List.dropWhile_cons_of_neg (by simpa using hzero)]

/-- **Digits without their leading zeros** are the numeral of their number, none for zero. -/
theorem dropWhile_zero_eq {digits : List Char} (hall : ∀ c ∈ digits, c.isDigit = true) :
    digits.dropWhile (· == '0') =
      if Nat.ofDigitChars 10 digits 0 = 0 then []
      else Nat.toDigits 10 (Nat.ofDigitChars 10 digits 0) := by
  rw [← ofDigitChars_dropWhile_zero digits]
  cases hrest : digits.dropWhile (· == '0') with
  | nil => rfl
  | cons c rest =>
    have hmem : ∀ d ∈ c :: rest, d.isDigit = true := fun d hd =>
      hall d ((List.dropWhile_suffix _).subset (hrest ▸ hd))
    have hne : c ≠ '0' := by
      have hhead := List.head?_dropWhile_not (· == '0') digits
      rw [hrest] at hhead
      simpa using hhead
    obtain ⟨hlt, hdigit⟩ := toDigits_digit (hmem c List.mem_cons_self)
    have hpos : 0 < c.toNat - '0'.toNat := by
      have hle := hmem c List.mem_cons_self
      simp only [Char.isDigit, ge_iff_le, Bool.and_eq_true, decide_eq_true_eq] at hle
      have hlo : 48 ≤ c.toNat := hle.1
      have hnat : c.toNat ≠ 48 := fun h => hne (Char.toNat_inj.mp h)
      have hzero : '0'.toNat = 48 := rfl
      omega
    have happend := toDigits_append_digits hpos fun d hd => hmem d (List.mem_cons_of_mem c hd)
    rw [hdigit, List.singleton_append] at happend
    have hle := le_ofDigitChars rest (c.toNat - '0'.toNat)
    rw [Nat.ofDigitChars_cons, Nat.mul_zero, Nat.zero_add, if_neg (by omega), happend]

end Refix.Foundation
