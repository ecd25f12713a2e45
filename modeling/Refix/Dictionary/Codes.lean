import Refix.Dictionary.Checks
import Refix.Foundation.Numeral

/-!
# Codes

The value of an int-based field denotes a number. Its canonical code is the numeral of this
number, so that two listed values share a code exactly where they denote the same.
-/

namespace Refix.Dict

open Refix.Foundation

/-! ## Numbers -/

/-- A text is an optional `-` and digits, and denotes their number. -/
def DenotesInt (text : String) (n : ℤ) : Prop :=
  ∃ digits : List Char, digits ≠ [] ∧ (∀ c ∈ digits, c.isDigit = true) ∧
    (text.toList = digits ∧ n = Nat.ofDigitChars 10 digits 0 ∨
      text.toList = '-' :: digits ∧ n = -(Nat.ofDigitChars 10 digits 0 : ℤ))

/-- A FIX integer denotes one number of 64 bits. -/
theorem IsInteger.exists_denotes {text : String} (h : IsInteger text) :
    ∃ n : ℤ, DenotesInt text n ∧ -2 ^ 63 ≤ n ∧ n < 2 ^ 63 := by
  obtain ⟨digits, hne, hall, ⟨htext, hlt⟩ | ⟨htext, hle⟩⟩ := h
  · exact ⟨_, ⟨digits, hne, hall, Or.inl ⟨htext, rfl⟩⟩, by omega, by omega⟩
  · exact ⟨_, ⟨digits, hne, hall, Or.inr ⟨htext, rfl⟩⟩, by omega, by omega⟩

theorem DenotesInt.unique {text : String} {n n' : ℤ} (h : DenotesInt text n)
    (h' : DenotesInt text n') : n = n' := by
  obtain ⟨digits, -, hall, ⟨htext, rfl⟩ | ⟨htext, rfl⟩⟩ := h <;>
    obtain ⟨digits', -, hall', ⟨htext', rfl⟩ | ⟨htext', rfl⟩⟩ := h'
  · rw [htext.symm.trans htext']
  · rw [htext.symm.trans htext'] at hall
    exact absurd (hall _ List.mem_cons_self) (by decide)
  · rw [← htext.symm.trans htext'] at hall'
    exact absurd (hall' _ List.mem_cons_self) (by decide)
  · rw [(List.cons.inj (htext.symm.trans htext')).2]

/-- The numeral of a number denotes it. -/
theorem denotesInt_repr (n : ℤ) : DenotesInt (Int.repr n) n := by
  have hdigits : ∀ m : ℕ, ∀ c ∈ Nat.toDigits 10 m, c.isDigit = true := fun m c hc =>
    Nat.isDigit_of_mem_toDigits (by decide) (by decide) hc
  cases n with
  | ofNat m =>
    exact ⟨Nat.toDigits 10 m, Nat.toDigits_ne_nil, hdigits m,
      Or.inl ⟨Nat.toList_repr, by rw [Nat.ofDigitChars_ten_toDigits]; rfl⟩⟩
  | negSucc m =>
    refine ⟨Nat.toDigits 10 (m + 1), Nat.toDigits_ne_nil, hdigits _, Or.inr ⟨?_, ?_⟩⟩
    · rw [Int.repr, String.toList_append, Nat.toList_repr]
      rfl
    · rw [Nat.ofDigitChars_ten_toDigits]
      rfl

theorem DenotesInt.parseI64_eq {text : String} {n : ℤ} (h : DenotesInt text n)
    (hlo : -2 ^ 63 ≤ n) (hhi : n < 2 ^ 63) : parseI64 text = some n := by
  obtain ⟨digits, hne, hall, ⟨htext, rfl⟩ | ⟨htext, rfl⟩⟩ := h
  · rw [parseI64_of_split hne hall (by rw [htext]; exact splitSign_digits hall)]
    exact if_pos ⟨hlo, hhi⟩
  · rw [parseI64_of_split hne hall (by rw [htext]; rfl)]
    exact if_pos ⟨hlo, hhi⟩

/-! ## Canonical codes -/

/-- The canonical code of a FIX integer is the numeral of its number. -/
theorem canonicalCode_eq_repr {dataType : DataType} (hint : dataType.isIntBased = true)
    {text : String} {n : ℤ} (h : DenotesInt text n) (hlo : -2 ^ 63 ≤ n) (hhi : n < 2 ^ 63) :
    dataType.canonicalCode text = Int.repr n := by
  rw [DataType.canonicalCode, h.parseI64_eq hlo hhi]
  exact if_pos hint

/-- The code of any other field is its own canonical code. -/
theorem canonicalCode_of_not_int {dataType : DataType} (hint : dataType.isIntBased = false)
    (text : String) : dataType.canonicalCode text = text := by
  unfold DataType.canonicalCode
  cases parseI64 text with
  | none => rfl
  | some n => exact if_neg (by simp [hint])

end Refix.Dict
