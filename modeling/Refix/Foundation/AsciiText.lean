import Refix.Foundation.Decimal

/-!
# ASCII Texts as Strings and as Bytes

A text of ASCII characters is the same sequence as a string and as its UTF-8 bytes. With this,
what is known of one is carried over to the other: here for the runs of digits that numbers are
written with.
-/

namespace Refix.Foundation

/-- The character of an ASCII byte. -/
def asciiChar (b : UInt8) : Char := Char.ofNat b.toNat

theorem toNat_asciiChar (b : UInt8) : (asciiChar b).toNat = b.toNat := by
  have hlt := b.toNat_lt
  have hvalid : b.toNat.isValidChar := Or.inl (by omega)
  rw [asciiChar, Char.ofNat, dif_pos hvalid]
  rfl

/-- An ASCII character is encoded as its byte. -/
theorem utf8EncodeChar_asciiChar {b : UInt8} (h : b.toNat < 128) :
    String.utf8EncodeChar (asciiChar b) = [b] := by
  have hval : (asciiChar b).val.toNat = b.toNat := toNat_asciiChar b
  simp only [String.utf8EncodeChar, hval]
  rw [if_pos (by omega), UInt8.ofNat_toNat]

/-- The bytes of an ASCII text. -/
theorem utf8Encode_ascii {bytes : List UInt8} (h : ∀ b ∈ bytes, b.toNat < 128) :
    (bytes.map asciiChar).utf8Encode = bytes.toByteArray := by
  rw [List.utf8Encode, List.flatMap_map]
  congr 1
  induction bytes with
  | nil => rfl
  | cons b bytes ih =>
    obtain ⟨hb, hrest⟩ := List.forall_mem_cons.mp h
    rw [List.flatMap_cons, utf8EncodeChar_asciiChar hb, ih hrest, List.singleton_append]

/-- **A string is an ASCII text exactly where its bytes are.** -/
theorem toList_eq_iff {text : String} {bytes ascii : List UInt8}
    (htext : text.toByteArray = bytes.toByteArray) (h : ∀ b ∈ ascii, b.toNat < 128) :
    text.toList = ascii.map asciiChar ↔ bytes = ascii := by
  constructor
  · intro hlist
    rw [← String.utf8Encode_toList, hlist, utf8Encode_ascii h] at htext
    exact (List.toByteArray_inj.mp htext).symm
  · rintro rfl
    have heq : text = String.ofList (bytes.map asciiChar) := by
      rw [← String.toByteArray_inj, htext, String.toByteArray_ofList, utf8Encode_ascii h]
    rw [heq, String.toList_ofList]

/-- Every ASCII text is a string. -/
theorem exists_string {ascii : List UInt8} (h : ∀ b ∈ ascii, b.toNat < 128) :
    ∃ text : String, text.toByteArray = ascii.toByteArray :=
  ⟨String.ofList (ascii.map asciiChar), by rw [String.toByteArray_ofList, utf8Encode_ascii h]⟩

/-! ## Digits -/

theorem lt_of_isAsciiDigit {b : UInt8} (h : isAsciiDigit b = true) : b.toNat < 128 := by
  have hrange := isAsciiDigit_iff.mp h
  omega

theorem isDigit_iff {c : Char} : c.isDigit = true ↔ 48 ≤ c.toNat ∧ c.toNat ≤ 57 := by
  simp only [Char.isDigit, Bool.and_eq_true, decide_eq_true_eq, ge_iff_le, UInt32.le_iff_toNat_le]
  exact Iff.rfl

theorem isDigit_asciiChar {b : UInt8} : (asciiChar b).isDigit = isAsciiDigit b := by
  rw [Bool.eq_iff_iff, isDigit_iff, isAsciiDigit_iff, toNat_asciiChar]

/-- A run of digits, as bytes. -/
theorem exists_digits {digits : List Char} (h : ∀ c ∈ digits, c.isDigit = true) :
    ∃ bytes : List UInt8, digits = bytes.map asciiChar ∧
      ∀ b ∈ bytes, isAsciiDigit b = true := by
  have hchar : ∀ c ∈ digits, asciiChar (UInt8.ofNat c.toNat) = c := by
    intro c hc
    have hrange := isDigit_iff.mp (h c hc)
    apply Char.toNat_inj.mp
    rw [toNat_asciiChar, UInt8.toNat_ofNat']
    omega
  have hmap : digits = (digits.map fun c => UInt8.ofNat c.toNat).map asciiChar := by
    rw [List.map_map]
    calc digits = digits.map id := (List.map_id digits).symm
      _ = digits.map (asciiChar ∘ fun c => UInt8.ofNat c.toNat) :=
        List.map_congr_left fun c hc => (hchar c hc).symm
  refine ⟨digits.map fun c => UInt8.ofNat c.toNat, hmap, ?_⟩
  intro b hb
  obtain ⟨c, hc, rfl⟩ := List.mem_map.mp hb
  rw [← isDigit_asciiChar, hchar c hc]
  exact h c hc

theorem map_asciiChar_digits {digits : List UInt8} (hne : digits ≠ [])
    (h : ∀ b ∈ digits, isAsciiDigit b = true) :
    digits.map asciiChar ≠ [] ∧ ∀ c ∈ digits.map asciiChar, c.isDigit = true := by
  refine ⟨mt List.map_eq_nil_iff.mp hne, fun c hc => ?_⟩
  obtain ⟨b, hb, rfl⟩ := List.mem_map.mp hc
  rw [isDigit_asciiChar]
  exact h b hb

/-- A run of digits denotes one number as a string and as bytes. -/
theorem ofDigitChars_map {bytes : List UInt8} (h : ∀ b ∈ bytes, isAsciiDigit b = true) :
    Nat.ofDigitChars 10 (bytes.map asciiChar) 0 = decimalValue bytes := by
  induction bytes using List.reverseRecOn with
  | nil => rfl
  | append_singleton bytes b ih =>
    have hb := h b (by simp)
    have hzero : '0'.toNat = 48 := rfl
    rw [List.map_append, Nat.ofDigitChars_append, ih fun c hc => h c (by simp [hc]), List.map_singleton,
      Nat.ofDigitChars_cons, Nat.ofDigitChars_nil, decimalValue_append_singleton, toNat_asciiChar,
      digitValue_eq hb, hzero, Nat.mul_comm]

end Refix.Foundation
