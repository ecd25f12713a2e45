import Refix.Message.Framing

/-!
# Raw Messages

The bytes of a FIX message and an index of its fields in wire order. A field is a tag and
the range of its value in the bytes; the offsets are stored as `u32`.
-/

namespace Refix.Message

open Refix.Foundation

/-! ## 32-bit numbers -/

/-- The largest `u32`. -/
def u32Max : ℕ := 2 ^ 32 - 1

/-- The conversion `as u32`. -/
def asU32 (n : ℕ) : ℕ := n % 2 ^ 32

theorem asU32_of_le {n len : ℕ} (hn : n ≤ len) (hlen : len ≤ u32Max) : asU32 n = n := by
  simp only [u32Max] at hlen
  exact Nat.mod_eq_of_lt (by omega)

/-! ## Messages -/

/-- A FIX tag number, a `u32` wherever it was read from a message. -/
abbrev Tag := ℕ

/-- Tag recorded for a run of bytes that could not be tokenised into a field. -/
def malformed : Tag := 0

/-- The tag and byte range of a field's value within the message. -/
structure RawField where
  tag : Tag
  valueStart : ℕ
  valueEnd : ℕ
  deriving DecidableEq, Repr

/-- The bytes a field's value takes up. -/
def RawField.value (field : RawField) (bytes : Bytes) : Bytes :=
  slice bytes field.valueStart field.valueEnd

/-- Raw bytes of a FIX message and an index of every field in wire order. -/
structure RawMessage where
  bytes : Bytes
  fields : List RawField
  deriving DecidableEq, Repr

/-- Every field as tag and value, in wire order, duplicates included. -/
def RawMessage.entries (message : RawMessage) : List (Tag × Bytes) :=
  message.fields.map fun field => (field.tag, field.value message.bytes)

end Refix.Message
