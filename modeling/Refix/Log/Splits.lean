import Refix.Log.Driver

/-!
# Splitting a Log

A log may be fed in any parts: the reader returns the records it returns for the whole log,
unless a cut that it makes while parts are still to be fed is the early one.
-/

namespace Refix.Log

open Refix.Foundation Refix.Message

/-- A reader about to make the early cut: it has found a start with a byte separator, and the
walk over the message there ends at a line feed, a data length pending, with neither `=` nor
separator behind it. -/
def LogReader.EarlyCut (reader : LogReader) : Prop :=
  match findStart reader.buf reader.searched reader.buf.length reader.separator false with
  | .found ⟨offset, .byte separator⟩ =>
    CutsEarly reader.tokenizer (reader.buf.drop offset) separator reader.separator
  | _ => False

instance (reader : LogReader) : Decidable reader.EarlyCut := by
  unfold LogReader.EarlyCut
  split <;> infer_instance

section Splits

variable {reader : LogReader} {tokenizer : Tokenizer} {separatorOverride : Option UInt8}
  {bytes : Bytes}

theorem cutsMessageEarly_of_represents
    (h : reader.Represents tokenizer separatorOverride bytes) :
    CutsMessageEarly tokenizer separatorOverride bytes ↔ reader.EarlyCut := by
  have hsearch := findStart_of_represents h false
  obtain ⟨dropped, rfl, -, -⟩ := h.suffix
  rw [List.length_append, Nat.add_sub_cancel] at hsearch
  unfold CutsMessageEarly LogReader.EarlyCut
  rw [List.length_append, hsearch, ← h.tokenizer_eq, ← h.separator_eq]
  cases findStart reader.buf reader.searched reader.buf.length reader.separator false with
  | pending offset => exact Iff.rfl
  | notFound => exact Iff.rfl
  | found start =>
    obtain ⟨offset, separator⟩ := start
    cases separator with
    | caretA => exact Iff.rfl
    | byte separator => simp only [NextStart.shift, List.drop_length_add_append]

/-- The buffers that are cut when a log is drained are those the reader's calls represent. -/
theorem buffers_of_represents (h : reader.Represents tokenizer separatorOverride bytes)
    (hearly : ∀ reader' ∈ reader.drained, ¬ reader'.EarlyCut) :
    ∀ buffer ∈ (messageCutter tokenizer separatorOverride false).buffers bytes,
      ¬ CutsMessageEarly tokenizer separatorOverride buffer := by
  -- The reader and the cutter take the same message each time, and the buffer gets shorter.
  induction hlen : reader.buf.length using Nat.strong_induction_on generalizing reader bytes with
  | _ len ih =>
    obtain ⟨hrecord, hsome, -⟩ := read_of_represents h false
    rw [LogReader.drained] at hearly
    cases hcut : cutMessage tokenizer separatorOverride false bytes with
    | none =>
      rw [hcut] at hrecord
      rw [Cutter.buffers_of_cut_eq_none (c := messageCutter tokenizer separatorOverride false) hcut]
      split at hearly
      · simp only [List.forall_mem_singleton] at hearly ⊢
        rwa [cutsMessageEarly_of_represents h]
      · next hread =>
        rw [LogReader.nextRecord] at hread
        rw [hread] at hrecord
        cases hrecord
    | some piece =>
      obtain ⟨taken, n⟩ := piece
      rw [hcut] at hrecord
      rw [Cutter.buffers_of_cut_eq_some (c := messageCutter tokenizer separatorOverride false) hcut]
      split at hearly
      · next hread =>
        rw [LogReader.nextRecord] at hread
        rw [hread] at hrecord
        cases hrecord
      · next record reader' hread =>
        rw [LogReader.nextRecord] at hread
        have hrest := hsome taken n hcut
        rw [hread] at hrest
        rw [List.forall_mem_cons] at hearly ⊢
        rw [cutsMessageEarly_of_represents h]
        exact ⟨hearly.1, ih _ (hlen ▸ read_length_lt hread) hrest hearly.2 rfl⟩

theorem openBuffers_of_represents {parts : List Bytes}
    (h : reader.Represents tokenizer separatorOverride bytes)
    (hearly : ∀ reader' ∈ reader.openReaders parts, ¬ reader'.EarlyCut) :
    ∀ buffer ∈ (messageCutter tokenizer separatorOverride false).openBuffers parts bytes,
      ¬ CutsMessageEarly tokenizer separatorOverride buffer := by
  induction parts generalizing reader bytes with
  | nil => simp [Cutter.openBuffers]
  | cons part parts ih =>
    cases parts with
    | nil => simp [Cutter.openBuffers]
    | cons next parts =>
      rw [LogReader.openReaders, List.forall_mem_append] at hearly
      rw [Cutter.openBuffers, List.forall_mem_append]
      have hdrain := drain_of_represents (h.feed part) false
      exact ⟨buffers_of_represents (h.feed part) hearly.1, ih (hdrain.2 rfl) hearly.2⟩

end Splits

/-- **A log may be fed in any parts**, as long as no cut made on the way is the early one. -/
theorem readParts_flatten (dialect : Dialect) (separator : Option UInt8) (parts : List Bytes)
    (hearly : ∀ reader ∈ (LogReader.new dialect separator).openReaders parts,
      ¬ reader.EarlyCut) :
    (LogReader.new dialect separator).readParts parts =
      (LogReader.new dialect separator).readParts [parts.flatten] := by
  have hnew := represents_new dialect separator
  rw [readParts_of_represents hnew, readParts_of_represents hnew]
  congr 1
  by_cases hne : parts = []
  · subst hne
    rw [Cutter.runParts, List.flatten_nil]
    simp [Cutter.runParts, Cutter.drain_of_cut_eq_none Cutter.cut_nil]
  · apply Cutter.runParts_eq hne
    intro buffer hbuffer
    exact messageCutter_stands (openBuffers_of_represents hnew hearly buffer hbuffer)

theorem readParts_flatten_inTrailer :
    (LogReader.new Dialect.standard none).readParts
        [ascii "09:30:01 8=FIX.4.4|9=5|35=0|1", ascii "0=163|\n"] =
      (LogReader.new Dialect.standard none).readParts
        [[ascii "09:30:01 8=FIX.4.4|9=5|35=0|1", ascii "0=163|\n"].flatten] :=
  readParts_flatten _ _ _ (by decide +kernel)

/-- Two parts of a log, split within data whose field has no tag: the first part ends with the
line feed that the data holds. -/
def splitInData : List Bytes :=
  [ascii "8=FIX.4.4|9=x|95=5|junk\n", ascii "|10=000|\n"]

theorem readParts_splitInData :
    (LogReader.new Dialect.standard none).readParts splitInData ≠
      (LogReader.new Dialect.standard none).readParts [splitInData.flatten] := by
  decide +kernel

end Refix.Log
