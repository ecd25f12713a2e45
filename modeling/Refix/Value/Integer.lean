import Refix.Dictionary.Checks
import Refix.Foundation.AsciiText
import Refix.Group.Walk

/-!
# Integers

What the runtime reads as an integer, in a field and in a NumInGroup field, beside what the
dictionary takes for a FIX integer. The runtime's parsers come with the standard library, and
take a plus sign in front, where the dictionary's check does not.
-/

namespace Refix.Message

open Refix.Foundation Refix.Dict

/-! ## Reading a field -/

namespace Scope

/-- Value of the first occurrence of `tag` in this scope. -/
def get (scope : Scope) (tag : Tag) : Option Bytes :=
  (scope.find tag scope.start).map fun found => found.2

/-- First occurrence of `tag` as UTF-8 text, or nothing when absent. -/
def getStr (scope : Scope) (tag : Tag) : Except InvalidValue (Option String) :=
  match scope.get tag with
  | none => .ok none
  | some value =>
    match String.fromUTF8? value.toByteArray with
    | some text => .ok (some text)
    | none => .error ⟨tag⟩

/-- First occurrence of `tag` parsed as an integer, or nothing when absent. -/
def getInt (scope : Scope) (tag : Tag) : Except InvalidValue (Option ℤ) := do
  let some text ← scope.getStr tag | return none
  match parseI64 text with
  | some number => return some number
  | none => throw ⟨tag⟩

end Scope

/-! ## FIX integers -/

/-- The bytes are an optional `-` and digits, and denote the number. -/
def Denotes (value : Bytes) (n : ℤ) : Prop :=
  ∃ digits, digits ≠ [] ∧ (∀ b ∈ digits, isAsciiDigit b = true) ∧
    (value = digits ∧ n = decimalValue digits ∨ value = 45 :: digits ∧ n = -decimalValue digits)

/-- A FIX integer, as the dictionary's check has it. -/
def FixInteger (value : Bytes) : Prop :=
  ∃ text : String, text.toByteArray = value.toByteArray ∧ isInteger text = true

/-- The bytes are a plus sign and digits that denote a number up to `max`. -/
def WritesPlus (max : ℕ) (value : Bytes) : Prop :=
  ∃ digits, value = 43 :: digits ∧ digits ≠ [] ∧ (∀ b ∈ digits, isAsciiDigit b = true) ∧
    decimalValue digits ≤ max

/-- The bytes are digits that denote a number of the type with the largest number `usizeMax`. -/
def FixCount (value : Bytes) (n : ℕ) : Prop :=
  value ≠ [] ∧ (∀ b ∈ value, isAsciiDigit b = true) ∧ decimalValue value = n ∧ n ≤ usizeMax

/-! ## What is parsed -/

theorem fromUTF8?_eq_some_iff {bytes : ByteArray} {text : String} :
    String.fromUTF8? bytes = some text ↔ text.toByteArray = bytes := by
  unfold String.fromUTF8?
  constructor
  · intro h
    split at h
    · rw [← Option.some.inj h]
      rfl
    · cases h
  · rintro rfl
    rw [dif_pos text.isValidUTF8]
    rfl

theorem splitSign_spec {text digits : List Char} {negative : Bool}
    (h : splitSign text = (negative, digits)) :
    if negative then text = '-' :: digits else text = digits ∨ text = '+' :: digits := by
  unfold splitSign at h
  split at h <;> obtain ⟨rfl, rfl⟩ := Prod.mk.inj h
  · exact if_pos rfl |>.mpr rfl
  · exact Or.inr rfl
  · exact Or.inl rfl

theorem checkedI64_eq_some_iff {number n : ℤ} :
    checkedI64 number = some n ↔ number = n ∧ -2 ^ 63 ≤ n ∧ n < 2 ^ 63 := by
  simp only [checkedI64, Option.ite_none_right_eq_some, Option.some.injEq]
  constructor
  · rintro ⟨hrange, rfl⟩
    exact ⟨rfl, hrange⟩
  · rintro ⟨rfl, hrange⟩
    exact ⟨hrange, rfl⟩

/-- A number is parsed from a sign and digits, where it fits 64 bits. -/
theorem parseI64_eq_some_iff {text : String} {n : ℤ} :
    parseI64 text = some n ↔ (-2 ^ 63 ≤ n ∧ n < 2 ^ 63) ∧
      ∃ digits : List Char, digits ≠ [] ∧ (∀ c ∈ digits, c.isDigit = true) ∧
        ((text.toList = digits ∨ text.toList = '+' :: digits) ∧ n = Nat.ofDigitChars 10 digits 0 ∨
          text.toList = '-' :: digits ∧ n = -Nat.ofDigitChars 10 digits 0) := by
  constructor
  · intro h
    generalize hsplit : splitSign text.toList = split
    obtain ⟨negative, digits⟩ := split
    have hspec := splitSign_spec hsplit
    -- A text that is parsed has passed the guard on its digits.
    have hguard : digits ≠ [] ∧ ∀ c ∈ digits, c.isDigit = true := by
      by_contra hbad
      have hnone : digits = [] ∨ digits.all Char.isDigit = false := by
        by_cases hnil : digits = []
        · exact Or.inl hnil
        · exact Or.inr (Bool.eq_false_iff.mpr fun hall => hbad ⟨hnil, List.all_eq_true.mp hall⟩)
      unfold parseI64 at h
      rw [hsplit] at h
      cases (if_pos hnone).symm.trans h
    rw [parseI64_of_split hguard.1 hguard.2 hsplit, checkedI64_eq_some_iff] at h
    refine ⟨h.2, digits, hguard.1, hguard.2, ?_⟩
    cases negative with
    | true => exact Or.inr ⟨hspec, h.1.symm⟩
    | false => exact Or.inl ⟨hspec, h.1.symm⟩
  · rintro ⟨hrange, digits, hne, hdigits, ⟨htext | htext, rfl⟩ | ⟨htext, rfl⟩⟩
    · rw [parseI64_of_split hne hdigits (by rw [htext, splitSign_digits hdigits])]
      exact checkedI64_eq_some_iff.mpr ⟨rfl, hrange⟩
    · rw [parseI64_of_split hne hdigits (by rw [htext]; rfl)]
      exact checkedI64_eq_some_iff.mpr ⟨rfl, hrange⟩
    · rw [parseI64_of_split hne hdigits (by rw [htext]; rfl)]
      exact checkedI64_eq_some_iff.mpr ⟨rfl, hrange⟩

/-- **What the runtime parses as an integer:** what denotes it, and the same with a plus sign. -/
theorem parseI64_bytes_iff {text : String} {value : Bytes}
    (htext : text.toByteArray = value.toByteArray) {n : ℤ} :
    parseI64 text = some n ↔ (-2 ^ 63 ≤ n ∧ n < 2 ^ 63) ∧ (Denotes value n ∨
      ∃ digits, value = 43 :: digits ∧ digits ≠ [] ∧ (∀ b ∈ digits, isAsciiDigit b = true) ∧
        n = decimalValue digits) := by
  have hascii : ∀ {digits : Bytes}, (∀ b ∈ digits, isAsciiDigit b = true) →
      ∀ b ∈ digits, b.toNat < 128 := fun h b hb => lt_of_isAsciiDigit (h b hb)
  rw [parseI64_eq_some_iff]
  refine and_congr_right fun _ => ?_
  constructor
  · rintro ⟨digits, hne, hdigits, h⟩
    -- Digits are the characters of ASCII bytes, so the text and the bytes show the same ones.
    obtain ⟨bytes, rfl, hbytes⟩ := exists_digits hdigits
    rw [ofDigitChars_map hbytes] at h
    have hne' : bytes ≠ [] := fun hnil => hne (by rw [hnil]; rfl)
    rcases h with ⟨hlist | hlist, rfl⟩ | ⟨hlist, rfl⟩
    · exact Or.inl ⟨bytes, hne', hbytes, Or.inl ⟨(toList_eq_iff htext (hascii hbytes)).mp hlist, rfl⟩⟩
    · have hplus : text.toList = (43 :: bytes).map asciiChar := hlist
      rw [toList_eq_iff htext (List.forall_mem_cons.mpr ⟨by decide, hascii hbytes⟩)] at hplus
      exact Or.inr ⟨bytes, hplus, hne', hbytes, rfl⟩
    · have hminus : text.toList = (45 :: bytes).map asciiChar := hlist
      rw [toList_eq_iff htext (List.forall_mem_cons.mpr ⟨by decide, hascii hbytes⟩)] at hminus
      exact Or.inl ⟨bytes, hne', hbytes, Or.inr ⟨hminus, rfl⟩⟩
  · rintro (⟨digits, hne, hdigits, h⟩ | ⟨digits, hvalue, hne, hdigits, rfl⟩) <;>
      have hchars := map_asciiChar_digits hne hdigits <;>
      refine ⟨digits.map asciiChar, hchars.1, hchars.2, ?_⟩ <;>
      rw [ofDigitChars_map hdigits]
    · rcases h with ⟨hvalue, rfl⟩ | ⟨hvalue, rfl⟩
      · exact Or.inl ⟨Or.inl ((toList_eq_iff htext (hascii hdigits)).mpr hvalue), rfl⟩
      · have hminus := (toList_eq_iff htext
          (List.forall_mem_cons.mpr ⟨by decide, hascii hdigits⟩)).mpr hvalue
        exact Or.inr ⟨hminus, rfl⟩
    · have hplus := (toList_eq_iff htext
        (List.forall_mem_cons.mpr ⟨by decide, hascii hdigits⟩)).mpr hvalue
      exact Or.inl ⟨Or.inr hplus, rfl⟩

/-- **What the dictionary takes for an integer, in bytes.** -/
theorem fixInteger_iff {value : Bytes} :
    FixInteger value ↔ ∃ n, Denotes value n ∧ -2 ^ 63 ≤ n ∧ n < 2 ^ 63 := by
  have hascii : ∀ {digits : Bytes}, (∀ b ∈ digits, isAsciiDigit b = true) →
      ∀ b ∈ digits, b.toNat < 128 := fun h b hb => lt_of_isAsciiDigit (h b hb)
  constructor
  · rintro ⟨text, htext, hinteger⟩
    obtain ⟨digits, hne, hdigits, h⟩ := isInteger_iff.mp hinteger
    obtain ⟨bytes, rfl, hbytes⟩ := exists_digits hdigits
    rw [ofDigitChars_map hbytes] at h
    have hne' : bytes ≠ [] := fun hnil => hne (by rw [hnil]; rfl)
    rcases h with ⟨hlist, hrange⟩ | ⟨hlist, hrange⟩
    · have hvalue := (toList_eq_iff htext (hascii hbytes)).mp hlist
      exact ⟨_, ⟨bytes, hne', hbytes, Or.inl ⟨hvalue, rfl⟩⟩, by omega, by omega⟩
    · have hminus : text.toList = (45 :: bytes).map asciiChar := hlist
      rw [toList_eq_iff htext (List.forall_mem_cons.mpr ⟨by decide, hascii hbytes⟩)] at hminus
      exact ⟨_, ⟨bytes, hne', hbytes, Or.inr ⟨hminus, rfl⟩⟩, by omega, by omega⟩
  · rintro ⟨n, ⟨digits, hne, hdigits, h⟩, hlo, hhi⟩
    have hchars := map_asciiChar_digits hne hdigits
    have hvalue : ∀ b ∈ value, b.toNat < 128 := by
      rcases h with ⟨rfl, -⟩ | ⟨rfl, -⟩
      · exact hascii hdigits
      · exact List.forall_mem_cons.mpr ⟨by decide, hascii hdigits⟩
    obtain ⟨text, htext⟩ := exists_string hvalue
    have hlist : text.toList = value.map asciiChar := (toList_eq_iff htext hvalue).mpr rfl
    refine ⟨text, htext, isInteger_iff.mpr ⟨digits.map asciiChar, hchars.1, hchars.2, ?_⟩⟩
    rw [ofDigitChars_map hdigits, hlist]
    rcases h with ⟨rfl, rfl⟩ | ⟨rfl, rfl⟩
    · exact Or.inl ⟨rfl, by omega⟩
    · exact Or.inr ⟨rfl, by omega⟩

/-- A value with a plus sign in front is no FIX integer. -/
theorem not_denotes_plus {digits : Bytes} {n : ℤ} : ¬ Denotes (43 :: digits) n := by
  rintro ⟨digits', -, hdigits', ⟨rfl, -⟩ | ⟨h, -⟩⟩
  · exact absurd (hdigits' 43 List.mem_cons_self) (by decide)
  · exact absurd (List.cons.inj h).1 (by decide)

/-! ## Two readers of one grammar -/

/-- A field's value is decoded and parsed. -/
theorem getInt_eq {scope : Scope} {tag : Tag} {value : Bytes} (h : scope.get tag = some value) :
    scope.getInt tag =
      match (String.fromUTF8? value.toByteArray).bind parseI64 with
      | some n => .ok (some n)
      | none => .error ⟨tag⟩ := by
  unfold Scope.getInt Scope.getStr
  simp only [h]
  cases String.fromUTF8? value.toByteArray with
  | none => rfl
  | some text =>
    simp only [Option.bind_some]
    cases hnumber : parseI64 text with
    | none =>
      show (match parseI64 text with | some n => pure (some n) | none => throw _) = _
      rw [hnumber]
      rfl
    | some n =>
      show (match parseI64 text with | some n => pure (some n) | none => throw _) = _
      rw [hnumber]
      rfl

theorem getInt_eq_ok_some_iff {scope : Scope} {tag : Tag} {value : Bytes} {n : ℤ}
    (h : scope.get tag = some value) :
    scope.getInt tag = .ok (some n) ↔ (-2 ^ 63 ≤ n ∧ n < 2 ^ 63) ∧ (Denotes value n ∨
      ∃ digits, value = 43 :: digits ∧ digits ≠ [] ∧ (∀ b ∈ digits, isAsciiDigit b = true) ∧
        n = decimalValue digits) := by
  have hparsed : scope.getInt tag = .ok (some n) ↔
      (String.fromUTF8? value.toByteArray).bind parseI64 = some n := by
    rw [getInt_eq h]
    cases (String.fromUTF8? value.toByteArray).bind parseI64 <;> simp
  rw [hparsed, Option.bind_eq_some_iff]
  constructor
  · rintro ⟨text, htext, hnumber⟩
    exact (parseI64_bytes_iff (fromUTF8?_eq_some_iff.mp htext)).mp hnumber
  · rintro ⟨hrange, hn⟩
    have hascii : ∀ b ∈ value, b.toNat < 128 := by
      rcases hn with ⟨digits, -, hdigits, ⟨rfl, -⟩ | ⟨rfl, -⟩⟩ | ⟨digits, rfl, -, hdigits, -⟩
      · exact fun b hb => lt_of_isAsciiDigit (hdigits b hb)
      · exact List.forall_mem_cons.mpr
          ⟨by decide, fun b hb => lt_of_isAsciiDigit (hdigits b hb)⟩
      · exact List.forall_mem_cons.mpr
          ⟨by decide, fun b hb => lt_of_isAsciiDigit (hdigits b hb)⟩
    obtain ⟨text, htext⟩ := exists_string hascii
    exact ⟨text, fromUTF8?_eq_some_iff.mpr htext, (parseI64_bytes_iff htext).mpr ⟨hrange, hn⟩⟩

/-- A field is read as an integer exactly where its value is a FIX integer, and as the number the
value denotes. -/
structure IntExact (scope : Scope) (tag : Tag) (value : Bytes) : Prop where
  succeeds : (∃ n, scope.getInt tag = .ok (some n)) ↔ FixInteger value
  denotes : ∀ n, scope.getInt tag = .ok (some n) → Denotes value n

/-- A NumInGroup value is accepted as a count exactly where it is digits within `usize`, and as
the count they denote. -/
def CountExact (walk : Walk) (value : Bytes) : Prop :=
  ∀ n, walk.declaredCount = some n ↔ FixCount value n

theorem intExact_iff {scope : Scope} {tag : Tag} {value : Bytes}
    (h : scope.get tag = some value) :
    IntExact scope tag value ↔ ¬ WritesPlus (2 ^ 63 - 1) value := by
  constructor
  · rintro hexact ⟨digits, rfl, hne, hdigits, hmax⟩
    have hread := (getInt_eq_ok_some_iff h).mpr
      ⟨⟨by omega, by omega⟩, Or.inr ⟨digits, rfl, hne, hdigits, rfl⟩⟩
    exact not_denotes_plus (hexact.denotes _ hread)
  · intro hplus
    have hdenotes : ∀ n, scope.getInt tag = .ok (some n) → Denotes value n ∧ -2 ^ 63 ≤ n ∧
        n < 2 ^ 63 := by
      intro n hread
      obtain ⟨hrange, hn | ⟨digits, hvalue, hne, hdigits, rfl⟩⟩ := (getInt_eq_ok_some_iff h).mp hread
      · exact ⟨hn, hrange⟩
      · exact absurd ⟨digits, hvalue, hne, hdigits, by omega⟩ hplus
    refine ⟨?_, fun n hread => (hdenotes n hread).1⟩
    rw [fixInteger_iff]
    constructor
    · rintro ⟨n, hread⟩
      exact ⟨n, hdenotes n hread⟩
    · rintro ⟨n, hn, hrange⟩
      exact ⟨n, (getInt_eq_ok_some_iff h).mpr ⟨hrange, Or.inl hn⟩⟩

theorem countExact_iff {L : Type} [Layout L] {scope : Scope} {slot : ℕ} {table : L}
    {known : KnownTags} {value : Bytes} (h : scope.valueAt slot = value) :
    CountExact (walk scope slot table known).1 value ↔ ¬ WritesPlus usizeMax value := by
  have hcount : (walk scope slot table known).1.declaredCount = parseCount value := by
    rw [← h]
    rfl
  unfold CountExact
  simp only [hcount, parseCount_eq_some_iff]
  constructor
  · rintro hexact ⟨digits, rfl, hne, hdigits, hmax⟩
    have hcounts := (hexact _).mp ⟨⟨digits, Or.inr rfl, hne, hdigits, rfl⟩, hmax⟩
    exact absurd (hcounts.2.1 43 List.mem_cons_self) (by decide)
  · intro hplus n
    constructor
    · rintro ⟨⟨digits, rfl | rfl, hne, hdigits, hn⟩, hmax⟩
      · exact ⟨hne, hdigits, hn, hmax⟩
      · exact absurd ⟨digits, rfl, hne, hdigits, hn ▸ hmax⟩ hplus
    · rintro ⟨hne, hdigits, hn, hmax⟩
      exact ⟨⟨value, Or.inl rfl, hne, hdigits, hn⟩, hmax⟩

/-- **Runtime and dictionary agree on FIX integers, but for a plus sign:** the standard library's
parsers take one, the dictionary's check does not. -/
theorem integers_agree (value : Bytes) :
    (∀ scope tag, Scope.get scope tag = some value →
      (IntExact scope tag value ↔ ¬ WritesPlus (2 ^ 63 - 1) value)) ∧
    (∀ (L : Type) [Layout L] scope slot (table : L) known, Scope.valueAt scope slot = value →
      (CountExact (walk scope slot table known).1 value ↔ ¬ WritesPlus usizeMax value)) :=
  ⟨fun _ _ => intExact_iff, fun _ _ _ _ _ _ => countExact_iff⟩

/-- A message of one field, to read from. -/
def oneField (tag : Tag) (value : Bytes) : Scope :=
  RawMessage.scope ⟨value, [⟨tag, 0, value.length⟩]⟩

theorem integers_agree_seqNum : IntExact (oneField 34 (ascii "215")) 34 (ascii "215") := by
  refine ((integers_agree (ascii "215")).1 (oneField 34 (ascii "215")) 34 (by decide)).mpr ?_
  rintro ⟨digits, h, -⟩
  exact absurd (List.cons.inj h).1 (by decide)

theorem integers_agree_plus :
    (oneField 34 (ascii "+5")).get 34 = some (ascii "+5") ∧
      (oneField 34 (ascii "+5")).getInt 34 = .ok (some 5) ∧ ¬ FixInteger (ascii "+5") ∧
      parseCount (ascii "+5") = some 5 ∧ ¬ FixCount (ascii "+5") 5 := by
  have hget : (oneField 34 (ascii "+5")).get 34 = some (ascii "+5") := by decide
  refine ⟨hget, ?_, ?_, by decide, ?_⟩
  · exact (getInt_eq_ok_some_iff hget).mpr
      ⟨by omega, Or.inr ⟨ascii "5", rfl, by decide, by decide +kernel, rfl⟩⟩
  · rw [fixInteger_iff]
    rintro ⟨n, hn, -⟩
    exact not_denotes_plus hn
  · rintro ⟨-, hdigits, -⟩
    exact absurd (hdigits 43 (by decide)) (by decide)

end Refix.Message
