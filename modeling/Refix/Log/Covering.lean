import Refix.Log.Checked
import Refix.Message.Tiling

/-!
# Covering

A logged message can be cut anywhere. Its entries cover it unless it was cut inside a tag: the
field loop stops where neither `=` nor separator follows, and what it stops at is left out.
-/

namespace Refix.Message

open Refix.Foundation

/-- The entries of a message cover its bytes: the fields stand one behind the other from offset
0, and the last value ends with the message or at the separator that is its last byte. -/
def RawMessage.Covered (message : RawMessage) (separator : UInt8) : Prop :=
  ∃ stop, Tiles message.bytes separator (fun _ _ _ => True) 0 none message.fields stop ∧
    (stop = message.bytes.length ∨ stop = message.bytes.length + 1)

/-- Behind the last separator there are bytes, but no `=`. Where `=` is the separator itself,
this one must end a value, not a tag. -/
def Tokenizer.EndsInTag (tokenizer : Tokenizer) (bytes : Bytes) (separator : UInt8) : Prop :=
  ∃ pos < bytes.length, Plain bytes separator pos bytes.length ∧
    (∀ k, k + 1 = pos → bytes[k]? = some separator) ∧
    (separator = equalsSign →
      ∃ fields, Tiles bytes separator (tokenizer.ends bytes separator) 0 none fields pos)

section Covered

variable {tokenizer : Tokenizer} {bytes : Bytes} {separator : UInt8} {pos stop : ℕ}
  {dataLen : Option ℕ} {fields : List RawField}

theorem nextField_of_plain (h : Plain bytes separator pos bytes.length) :
    nextField bytes pos dataLen separator = none := by
  refine nextField_eq_none_iff.mpr (findTagEnd_eq_none_iff.mpr ?_)
  intro k b hk hb
  exact h k b hk (List.getElem?_eq_some_iff.mp hb).1 hb

/-- A field read before a last separator ends at a separator, unless `=` is one. -/
theorem nextField_valueEnd_lt (hlen : bytes.length ≤ u32Max) (hne : separator ≠ equalsSign)
    {field : RawField} {next : ℕ}
    (hread : nextField bytes pos dataLen separator = some (field, next))
    (hplain : Plain bytes separator stop bytes.length)
    (hbefore : ∀ k, k + 1 = stop → bytes[k]? = some separator) :
    field.valueEnd < bytes.length := by
  obtain ⟨-, ⟨delimiter, hend, -, hstart, hvalue⟩ | ⟨hend, -, -⟩⟩ := (nextField_iff hlen).mp hread
  · obtain ⟨-, heq, -⟩ := findTagEnd_eq_equals_iff.mp hend
    have hdelimiter := (List.getElem?_eq_some_iff.mp heq).1
    -- the `=` stands before the last separator, and so does the value's start
    have hlt : delimiter + 1 < stop := by
      by_contra hge
      rcases Nat.lt_or_ge delimiter stop with hlt | hge'
      · have hsep := hbefore delimiter (by omega)
        exact hne (Option.some.inj (hsep.symm.trans heq))
      · exact (hplain delimiter equalsSign hge' hdelimiter heq).1 rfl
    have hsep := hbefore (stop - 1) (by omega)
    exact hvalue.lt_length (by omega) hsep
  · exact (List.getElem?_eq_some_iff.mp (findTagEnd_eq_separator_iff.mp hend).2.1).1

/-- The field loop stops behind the last separator of bytes that end in a tag. -/
theorem Tokenizer.Reads.le_of_plain (hlen : bytes.length ≤ u32Max) (hne : separator ≠ equalsSign)
    (h : tokenizer.Reads bytes separator fields pos dataLen)
    (hplain : Plain bytes separator stop bytes.length)
    (hbefore : ∀ k, k + 1 = stop → bytes[k]? = some separator) : pos ≤ stop := by
  cases h with
  | start => exact Nat.zero_le _
  | @next fields pos next dataLen field before read =>
    obtain ⟨rfl, -⟩ := nextField_bounds hlen read
    have hlt := nextField_valueEnd_lt hlen hne read hplain hbefore
    have hsep := nextField_getElem? hlen read hlt
    by_contra hgt
    exact (hplain field.valueEnd separator (by omega) hlt hsep).2 rfl

/-- **The index of a message covers it** exactly when the message does not end in a tag. -/
theorem Tokenizer.covered_iff (tokenizer : Tokenizer) (separator : UInt8)
    (hlen : bytes.length ≤ u32Max) :
    RawMessage.Covered ⟨bytes, tokenizer.tokenizeFields bytes separator⟩ separator ↔
      ¬ tokenizer.EndsInTag bytes separator := by
  obtain ⟨stop, htiles, hplain⟩ := tokenizer.exists_tiles separator hlen
  constructor
  · rintro ⟨stop', htiles', hstop'⟩ ⟨pos, hpos, hplainPos, hbefore, hequals⟩
    -- The tilings of an index stop at one offset, and a tag at the end begins there or later.
    obtain rfl : stop' = stop := htiles'.stop_eq.trans htiles.stop_eq.symm
    simp only at hstop'
    have hle : stop' ≤ pos := by
      by_cases hne : separator = equalsSign
      · obtain ⟨fields, hfields⟩ := hequals hne
        obtain ⟨dataLen, hreads⟩ := hfields.reads hlen .start hpos.le
        have hall := hreads.tokenizeFields_of_none (nextField_of_plain hplainPos)
        rw [List.nil_append] at hall
        rw [hall] at htiles
        exact (htiles.stop_eq.trans hfields.stop_eq.symm).le
      · have hstart : tokenizer.Reads bytes separator [] 0 none := .start
        obtain ⟨last, dataLen, hreads, -⟩ := hstart.exists_end
        obtain rfl : last = stop' :=
          (hreads.getLast?_eq hlen).trans htiles.stop_eq.symm
        exact hreads.le_of_plain hlen hne hplainPos hbefore
    omega
  · intro hnot
    refine ⟨stop, htiles.mono (fun _ _ _ _ => trivial), ?_⟩
    by_contra hstop
    have hlt : stop < bytes.length := by
      have := htiles.stop_le (Nat.zero_le _)
      simp only [not_or] at hstop
      omega
    refine hnot ⟨stop, hlt, hplain, ?_, fun _ => ⟨_, htiles⟩⟩
    intro k hk
    exact htiles.getElem?_before_stop (by simp) hlt.le hk

end Covered

end Refix.Message

namespace Refix.Log

open Refix.Foundation Refix.Message

/-- A message read from a log is short enough for its offsets to be stored. -/
theorem length_le_of_takeMessage {reader : LogReader} {atEnd : Bool} {taken : Taken}
    (h : (reader.takeMessage atEnd).1 = some taken) : taken.bytes.length ≤ u32Max := by
  obtain ⟨start, stop, copy, -, hmessage, hlogged, hbytes, -, -⟩ := takeMessage_eq_some h
  rw [hbytes, hlogged]
  exact (Checked.length_le_of_findMessage hmessage).trans (by decide)

/-- **The entries of a record cover its message** exactly when the message does not end in a
tag, wherever it was cut. -/
theorem record_covered_iff (reader : LogReader) (atEnd : Bool) (taken : Taken)
    (h : (reader.takeMessage atEnd).1 = some taken) :
    ∃ record, (reader.read atEnd).1 = some record ∧ record.message.bytes = taken.bytes ∧
      (record.message.Covered taken.separator ↔
        ¬ reader.tokenizer.EndsInTag record.message.bytes taken.separator) := by
  refine ⟨taken.record reader.tokenizer, ?_, rfl, ?_⟩
  · show (reader.takeMessage atEnd).1.map (Taken.record reader.tokenizer) = _
    rw [h, Option.map_some]
  · exact reader.tokenizer.covered_iff taken.separator (length_le_of_takeMessage h)

/-- A message that a line break cuts in its third tag. -/
def cutInTag : Bytes :=
  (ascii "8=FIX.4.2|9=100|35").map fun b => if b = 124 then soh else b

theorem record_covered_iff_cutInTag :
    ∃ record, (((LogReader.new Dialect.standard none).feed (cutInTag ++ [lineFeed])).read
        true).1 = some record ∧
      (record.message.Covered soh ↔
        ¬ (Tokenizer.new Dialect.standard).EndsInTag cutInTag soh) := by
  have htaken : (((LogReader.new Dialect.standard none).feed (cutInTag ++ [lineFeed])).takeMessage
      true).1 = some ⟨[], false, cutInTag, cutInTag, soh, true⟩ := by decide +kernel
  obtain ⟨record, hread, hbytes, hiff⟩ := record_covered_iff _ true _ htaken
  rw [hbytes] at hiff
  exact ⟨record, hread, hiff⟩

/-- Its entries leave out the tag it was cut in. -/
theorem cutInTag_not_covered :
    ∃ record, ((LogReader.new Dialect.standard none).readParts [cutInTag ++ [lineFeed]]) =
        [record] ∧
      record.message.bytes = cutInTag ∧
      record.message.entries = [(8, ascii "FIX.4.2"), (9, ascii "100")] ∧
      ¬ record.message.Covered soh := by
  refine ⟨⟨[], ⟨cutInTag, [⟨8, 2, 9⟩, ⟨9, 12, 15⟩]⟩, [.missingMsgType, .truncated]⟩,
    by decide +kernel, rfl, by decide +kernel, ?_⟩
  rintro ⟨stop, htiles, hstop⟩
  -- the last value ends two bytes before the message does
  have hlast : stop = 16 := htiles.stop_eq
  have hlength : cutInTag.length = 18 := by decide +kernel
  simp only [hlength, hlast] at hstop
  omega

end Refix.Log
