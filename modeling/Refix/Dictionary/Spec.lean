import Mathlib.Data.List.Basic
import Std.Data.String.ToInt
import Refix.Message.RawMessage

/-!
# Specs

The fields, messages, components, header and trailer of one FIX version or venue dialect, as
authored. A spec is plain data and makes no consistency guarantees.
-/

namespace Refix.Dict

open Refix.Message (Tag)

/-! ## Data types -/

/-- The FIX data type of a field, as declared in the dictionary. -/
inductive DataType where
  | string | int | length | numInGroup | seqNum | tagNum | dayOfMonth
  | float | qty | price | priceOffset | amt | percentage
  | char | boolean | multipleCharValue | multipleStringValue
  | currency | exchange | country | language | xid | xidRef
  | utcTimestamp | utcTimeOnly | utcDateOnly | localMktDate | localMktTime | monthYear
  | tzTimestamp | tzTimeOnly
  | data | xmlData
  /-- A type outside the standard, such as a venue's own. -/
  | other (name : String)
  deriving DecidableEq, Repr

/-- Whether the type is `int` or one of its subtypes. -/
def DataType.isIntBased : DataType → Bool
  | .int | .length | .numInGroup | .seqNum | .tagNum | .dayOfMonth => true
  | _ => false

/-- Whether the type is `float` or one of its subtypes. -/
def DataType.isFloatBased : DataType → Bool
  | .float | .qty | .price | .priceOffset | .amt | .percentage => true
  | _ => false

/-- Whether the type holds space-delimited values. -/
def DataType.isMultipleValue : DataType → Bool
  | .multipleCharValue | .multipleStringValue => true
  | _ => false

/-- Whether a field of this type takes its length from another field. -/
def DataType.hasLengthField : DataType → Bool
  | .data | .xmlData => true
  | _ => false

/-! ## Integers as text -/

/-- The sign of a number's text, and its digits. -/
def splitSign : List Char → Bool × List Char
  | '-' :: digits => (true, digits)
  | '+' :: digits => (false, digits)
  | digits => (false, digits)

/-- A number that fits 64 bits. -/
def checkedI64 (number : ℤ) : Option ℤ :=
  if -2 ^ 63 ≤ number ∧ number < 2 ^ 63 then some number else none

/-- Parses a 64-bit integer: an optional sign and digits. -/
def parseI64 (text : String) : Option ℤ :=
  let (negative, digits) := splitSign text.toList
  if digits = [] ∨ digits.all Char.isDigit = false then none
  else
    let magnitude : ℤ := Nat.ofDigitChars 10 digits 0
    checkedI64 (if negative then -magnitude else magnitude)

theorem parseI64_repr {n : ℤ} (hlo : -2 ^ 63 ≤ n) (hhi : n < 2 ^ 63) :
    parseI64 (Int.repr n) = some n := by
  have hdigits : ∀ m : ℕ, (Nat.toDigits 10 m).all Char.isDigit = true := fun m =>
    List.all_eq_true.mpr fun c hc => Nat.isDigit_of_mem_toDigits (by decide) (by decide) hc
  cases n with
  | ofNat m =>
    have hsplit : splitSign (Nat.toDigits 10 m) = (false, Nat.toDigits 10 m) := by
      unfold splitSign
      split
      · next digits h =>
        have := hdigits m
        rw [h] at this
        simp at this
      · next digits h =>
        have := hdigits m
        rw [h] at this
        simp at this
      · rfl
    simp only [parseI64, Int.repr, Nat.toList_repr, hsplit, hdigits, Nat.toDigits_ne_nil,
      Nat.ofDigitChars_ten_toDigits, Bool.true_eq_false, or_self, if_false, Bool.false_eq_true]
    exact if_pos ⟨hlo, hhi⟩
  | negSucc m =>
    have hsplit : splitSign ("-" ++ Nat.repr (m + 1)).toList = (true, Nat.toDigits 10 (m + 1)) := by
      rw [String.toList_append, Nat.toList_repr]
      rfl
    have hneg : -((m + 1 : ℕ) : ℤ) = Int.negSucc m := rfl
    simp only [parseI64, Int.repr, hsplit, hdigits, Nat.toDigits_ne_nil,
      Nat.ofDigitChars_ten_toDigits, Bool.true_eq_false, or_self, if_false, if_true, hneg]
    exact if_pos ⟨hlo, hhi⟩

theorem parseI64_bounds {text : String} {n : ℤ} (h : parseI64 text = some n) :
    -2 ^ 63 ≤ n ∧ n < 2 ^ 63 := by
  simp only [parseI64] at h
  split at h
  · cases h
  · simp only [checkedI64, Option.ite_none_right_eq_some, Option.some.injEq] at h
    obtain ⟨hbounds, heq⟩ := h
    rwa [heq] at hbounds

/-- A code in the form every code for its value shares: an int-based type reads codes as
numbers. -/
def DataType.canonicalCode (dataType : DataType) (code : String) : String :=
  match parseI64 code with
  | some number => if dataType.isIntBased then Int.repr number else code
  | none => code

/-- Two codes of a field of the type stand for one value. -/
def DataType.SameCode (dataType : DataType) (code code' : String) : Prop :=
  code = code' ∨ dataType.isIntBased = true ∧ ∃ number, parseI64 code = some number ∧
    parseI64 code' = some number

/-- **Two codes share their canonical form exactly where they stand for one value.** -/
theorem canonicalCode_eq_iff {dataType : DataType} {code code' : String} :
    dataType.canonicalCode code = dataType.canonicalCode code' ↔ dataType.SameCode code code' := by
  unfold DataType.canonicalCode DataType.SameCode
  cases hint : dataType.isIntBased with
  | false => cases parseI64 code <;> cases parseI64 code' <;> simp
  | true =>
    -- A code that is read as a number is written in its shortest form, which is read as one as
    -- well: it cannot be the canonical form of a code that is not.
    cases hcode : parseI64 code with
    | none =>
      cases hcode' : parseI64 code' with
      | none => simp
      | some number =>
        obtain ⟨hlo, hhi⟩ := parseI64_bounds hcode'
        simp only [if_true, reduceCtorEq, false_and, exists_false, and_false, or_false]
        constructor
        · rintro rfl
          rw [parseI64_repr hlo hhi] at hcode
          cases hcode
        · rintro rfl
          rw [hcode] at hcode'
          cases hcode'
    | some number =>
      obtain ⟨hlo, hhi⟩ := parseI64_bounds hcode
      cases hcode' : parseI64 code' with
      | none =>
        simp only [if_true, reduceCtorEq, and_false, exists_false, or_false]
        constructor
        · rintro rfl
          rw [parseI64_repr hlo hhi] at hcode'
          cases hcode'
        · rintro rfl
          rw [hcode] at hcode'
          cases hcode'
      | some number' =>
        simp only [if_true, Int.repr_inj, Option.some.injEq, true_and, exists_eq_left']
        constructor
        · rintro rfl
          exact Or.inr rfl
        · rintro (rfl | rfl)
          · exact Option.some.inj (hcode.symm.trans hcode')
          · rfl

/-! ## Definitions -/

/-- One of a field's values. -/
structure EnumValue where
  value : String
  description : String
  deriving DecidableEq, Repr

/-- A field definition, as listed in the dictionary's fields section. -/
structure Field where
  name : String
  tag : Tag
  dataType : DataType
  /-- For a data field, the tag of the field that gives its length. -/
  lengthTag : Option Tag
  values : List EnumValue
  deriving DecidableEq, Repr

/-- A field as used by one message or component. -/
structure FieldRef where
  tag : Tag
  isRequired : Bool
  deriving DecidableEq, Repr

/-- A component as used by one message or component. -/
structure ComponentRef where
  name : String
  isRequired : Bool
  deriving DecidableEq, Repr

/-- A member of a message, component or group instance. -/
inductive Member where
  | field (ref : FieldRef)
  | component (ref : ComponentRef)
  /-- A repeating group, with the tag of its count field and the members of each instance. -/
  | group (countTag : Tag) (isRequired : Bool) (members : List Member)

/-- The message, component, group instance, header or trailer a member appears in. -/
inductive MemberContext where
  | message (name : String)
  | component (name : String)
  | header
  | trailer
  /-- A group's instances, named after the group's count field. -/
  | group (name : String) (parent : MemberContext)
  deriving DecidableEq, Repr

/-- A component definition, as listed in the dictionary's components section. -/
structure Component where
  name : String
  members : List Member

/-- Whether a message belongs to the session layer or the application layer. -/
inductive Category where
  | admin
  | app
  deriving DecidableEq, Repr

/-- The definition of a FIX message type. -/
structure Message where
  name : String
  /-- The wire value of `MsgType(35)`, verbatim. -/
  msgType : String
  members : List Member
  category : Category

/-- The protocol family a dictionary belongs to. -/
inductive Protocol where
  | fix
  | fixt
  deriving DecidableEq, Repr

/-- The FIX version a dictionary describes. -/
structure Version where
  protocol : Protocol
  major : ℕ
  minor : ℕ
  servicePack : ℕ
  deriving DecidableEq, Repr

structure Spec where
  version : Version
  /-- The members every message starts with, in source order. -/
  header : List Member
  messages : List Message
  /-- The members every message ends with, in source order. -/
  trailer : List Member
  fields : List Field
  components : List Component

end Refix.Dict
