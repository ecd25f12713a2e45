import Refix.Message.RawMessage

/-!
# Scopes

A bounded view of a message's fields: the whole frame or one group instance. A scope is
read by slots, the positions in the message's index; `rest` is the same view as the list of
the fields it still has from a slot on.
-/

namespace Refix.Message

open Refix.Foundation

/-- A field of a message with its value. -/
abbrev Field := Tag × Bytes

/-- A bounded view of a message's fields. -/
structure Scope where
  message : RawMessage
  start : ℕ
  stop : ℕ
  deriving DecidableEq, Repr

/-- The whole frame as a scope. -/
def RawMessage.scope (message : RawMessage) : Scope := ⟨message, 0, message.fields.length⟩

/-- The scope over the fields from `start` up to `stop`, unless they do not fit the message. -/
def RawMessage.scopeBetween (message : RawMessage) (start stop : ℕ) : Option Scope :=
  if start ≤ stop ∧ stop ≤ message.fields.length then some ⟨message, start, stop⟩ else none

namespace Scope

/-- A scope lies within its message. -/
structure Fits (scope : Scope) : Prop where
  start_le : scope.start ≤ scope.stop
  stop_le : scope.stop ≤ scope.message.fields.length

/-- The fields `start..stop` of the same message. -/
def narrow (scope : Scope) (start stop : ℕ) : Scope := ⟨scope.message, start, stop⟩

/-- The field at a slot below the end of the message. -/
def fieldAt (scope : Scope) (slot : ℕ) : RawField :=
  scope.message.fields[slot]?.getD ⟨malformed, 0, 0⟩

def tagAt (scope : Scope) (slot : ℕ) : Tag := (scope.fieldAt slot).tag

def valueAt (scope : Scope) (slot : ℕ) : Bytes :=
  (scope.fieldAt slot).value scope.message.bytes

/-- First occurrence of `tag` at or after `start` and before the end of the scope. -/
def find (scope : Scope) (tag : Tag) (start : ℕ) : Option (ℕ × Bytes) :=
  if start ≤ scope.stop ∧ scope.stop ≤ scope.message.fields.length then
    (((scope.message.fields.take scope.stop).drop start).findIdx? (·.tag == tag)).map
      fun offset => (start + offset, scope.valueAt (start + offset))
  else none

/-- The fields of the scope from a slot on. -/
def rest (scope : Scope) (slot : ℕ) : List Field :=
  (scope.message.entries.take scope.stop).drop slot

/-- The fields of the scope. -/
def fields (scope : Scope) : List Field := scope.rest scope.start

variable {scope : Scope} {slot : ℕ}

theorem rest_eq_nil (h : scope.stop ≤ slot) : scope.rest slot = [] := by
  rw [rest, List.drop_eq_nil_iff, List.length_take]
  omega

/-- What a first remaining field says about the scope at its slot. -/
theorem of_rest_eq_cons {field : Field} {tail : List Field}
    (h : scope.rest slot = field :: tail) :
    slot < scope.stop ∧ scope.tagAt slot = field.1 ∧ scope.valueAt slot = field.2 ∧
      scope.rest (slot + 1) = tail := by
  have hget : (scope.message.entries.take scope.stop)[slot]? = some field := by
    rw [rest] at h
    rw [← List.head?_drop, h, List.head?_cons]
  have hlt : slot < scope.stop := by
    by_contra hge
    rw [rest_eq_nil (by omega)] at h
    simp at h
  rw [List.getElem?_take_of_lt hlt, RawMessage.entries, List.getElem?_map,
    Option.map_eq_some_iff] at hget
  obtain ⟨raw, hraw, rfl⟩ := hget
  refine ⟨hlt, ?_, ?_, ?_⟩
  · simp [tagAt, fieldAt, hraw]
  · simp [valueAt, fieldAt, hraw]
  · rw [rest, ← List.drop_drop, ← rest, h, List.drop_one, List.tail_cons]

theorem rest_append {front tail : List Field} (h : scope.rest slot = front ++ tail) :
    scope.rest (slot + front.length) = tail := by
  rw [rest, ← List.drop_drop, ← rest, h, List.drop_left]

/-- Nothing remains exactly at the end of the scope. -/
theorem le_of_rest_eq_nil (hfits : scope.Fits) (h : scope.rest slot = []) : scope.stop ≤ slot := by
  have := hfits.stop_le
  rw [rest, List.drop_eq_nil_iff, List.length_take, RawMessage.entries, List.length_map] at h
  omega

theorem slot_add_length_rest (hfits : scope.Fits) (h : slot ≤ scope.stop) :
    slot + (scope.rest slot).length = scope.stop := by
  have := hfits.stop_le
  rw [rest, List.length_drop, List.length_take, RawMessage.entries, List.length_map]
  omega

/-- The fields of a narrower scope are the first ones from its start. -/
theorem fields_narrow {front tail : List Field} (hstop : slot + front.length ≤ scope.stop)
    (h : scope.rest slot = front ++ tail) :
    (scope.narrow slot (slot + front.length)).fields = front := by
  have htake : (scope.message.entries.take (slot + front.length)).drop slot =
      (scope.rest slot).take front.length := by
    rw [rest, List.take_drop, List.take_take, Nat.min_eq_left hstop]
  exact htake.trans (by rw [h, List.take_left])

theorem find_eq (hfits : scope.Fits) (hslot : slot ≤ scope.stop) (tag : Tag) :
    scope.find tag slot = ((scope.rest slot).findIdx? (·.1 == tag)).map
      fun offset => (slot + offset, scope.valueAt (slot + offset)) := by
  have hmap : scope.rest slot =
      ((scope.message.fields.take scope.stop).drop slot).map
        fun field => (field.tag, field.value scope.message.bytes) := by
    rw [rest, RawMessage.entries, List.map_drop, List.map_take]
  rw [find, if_pos ⟨hslot, hfits.stop_le⟩, hmap, List.findIdx?_map]
  rfl

/-- The first field of a tag after fields of other tags is the one found. -/
theorem find_eq_some {front tail : List Field} {field : Field} (hfits : scope.Fits)
    (hslot : slot ≤ scope.stop) (h : scope.rest slot = front ++ field :: tail)
    (hfront : ∀ other ∈ front, other.1 ≠ field.1) :
    scope.find field.1 slot = some (slot + front.length, field.2) := by
  have hindex : (scope.rest slot).findIdx? (·.1 == field.1) = some front.length := by
    rw [h, List.findIdx?_append, List.findIdx?_eq_none_iff.mpr (by simpa using hfront)]
    simp [List.findIdx?_cons]
  obtain ⟨-, -, hvalue, -⟩ := of_rest_eq_cons (rest_append h)
  rw [find_eq hfits hslot, hindex, Option.map_some, hvalue]

/-- A field that is found lies in the scope, which lies in the message. -/
theorem of_find_eq_some {tag : Tag} {start : ℕ} {value : Bytes}
    (h : scope.find tag start = some (slot, value)) :
    start ≤ slot ∧ slot < scope.stop ∧ scope.stop ≤ scope.message.fields.length ∧
      scope.tagAt slot = tag := by
  rw [find] at h
  split at h
  · next hrange =>
    obtain ⟨offset, hoffset, heq⟩ := Option.map_eq_some_iff.mp h
    cases heq
    obtain ⟨hlt, htag, -⟩ := List.findIdx?_eq_some_iff_getElem.mp hoffset
    rw [List.length_drop, List.length_take] at hlt
    have hget : scope.message.fields[start + offset]? =
        some ((scope.message.fields.take scope.stop).drop start)[offset] := by
      rw [List.getElem_drop, List.getElem_take, List.getElem?_eq_getElem]
    refine ⟨Nat.le_add_right _ _, by omega, hrange.2, ?_⟩
    rw [tagAt, fieldAt, hget]
    exact beq_iff_eq.mp htag
  · cases h

/-- A tag that no field of the scope has is not found. -/
theorem find_eq_none {tag : Tag} (hfits : scope.Fits) (hslot : slot ≤ scope.stop)
    (h : ∀ field ∈ scope.rest slot, field.1 ≠ tag) : scope.find tag slot = none := by
  rw [find_eq hfits hslot, List.findIdx?_eq_none_iff.mpr (by simpa using h), Option.map_none]

end Scope

end Refix.Message
