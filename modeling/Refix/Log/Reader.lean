import Refix.Log.CaretA

/-!
# The Log Reader

Reads the messages in a FIX log from incrementally fed bytes. Between messages a log holds
timestamps and other output; the reader keeps these bytes as the prefix of the next record,
up to a cap.
-/

namespace Refix.Log

open Refix.Foundation Refix.Message

def bodyLengthTag : Tag := 9

def msgTypeTag : Tag := 35

/-- Longest prefix kept, nearest its message. -/
def maxPrefixLen : ℕ := 2 ^ 20

/-- A problem a reader found with a record. -/
inductive LogDiagnostic where
  | missingBodyLength
  | malformedBodyLength
  | bodyLengthMismatch
  | missingMsgType
  | malformedChecksum
  | checksumMismatch
  | truncated
  | prefixTruncated
  deriving DecidableEq, Repr

/-- A message read from a log, with the bytes before it. -/
structure LogRecord where
  /-- The bytes between the previous record and this message. -/
  prefixBytes : Bytes
  /-- The message, split at the separator it was logged with, or at SOH where that was `^A`. -/
  message : RawMessage
  /-- The problems with the record, in the order found. -/
  diagnostics : List LogDiagnostic
  deriving DecidableEq, Repr

/-! ## Diagnostics -/

/-- The checksum of `bytes`, counting each separator as SOH. -/
def calculateChecksum (bytes : Bytes) (separator : UInt8) : UInt8 :=
  byteSum (bytes.map fun b => if b = separator then soh else b)

/-- What could not be verified about the trailer of a message. -/
def diagnoseTrailer (bytes : Bytes) (fields : List RawField) (separator : UInt8)
    (bodyLength : Option RawField) (declaredLength : Option ℕ) : List LogDiagnostic :=
  -- a message that isn't truncated ends with its CheckSum field
  match fields.getLast? with
  | none => []
  | some checksum =>
    let trailerStart := (fields.dropLast.getLast?).elim 0 (·.valueEnd + 1)
    let mismatch := bodyLength.any fun field => declaredLength.any fun declared =>
      field.valueEnd + 1 + declared != trailerStart
    let stated := checksum.value bytes
    (if mismatch then [.bodyLengthMismatch] else []) ++
      if stated.length = 3 ∧ stated.all isAsciiDigit = true then
        let calculated := calculateChecksum (bytes.take trailerStart) separator
        if parseU32 stated ≠ some calculated.toNat then [.checksumMismatch] else []
      else [.malformedChecksum]

/-- What could not be verified about the message in `bytes`. -/
def diagnose (bytes : Bytes) (fields : List RawField) (separator : UInt8) (truncated : Bool) :
    List LogDiagnostic :=
  let bodyLength := fields[1]?.filter (·.tag == bodyLengthTag)
  let declaredLength := bodyLength.bind fun field => parseU32 (field.value bytes)
  let msgTypeIndex := if bodyLength.isSome then 2 else 1
  (if bodyLength.isNone then [.missingBodyLength]
    else if declaredLength.isNone then [.malformedBodyLength] else []) ++
  (if fields[msgTypeIndex]?.map (·.tag) ≠ some msgTypeTag then [.missingMsgType] else []) ++
  if truncated then [.truncated]
  else diagnoseTrailer bytes fields separator bodyLength declaredLength

/-- A trailer can be wrong in three ways. -/
theorem mem_diagnoseTrailer {bytes : Bytes} {fields : List RawField} {separator : UInt8}
    {bodyLength : Option RawField} {declaredLength : Option ℕ} {diagnostic : LogDiagnostic}
    (h : diagnostic ∈ diagnoseTrailer bytes fields separator bodyLength declaredLength) :
    diagnostic = .bodyLengthMismatch ∨ diagnostic = .checksumMismatch ∨
      diagnostic = .malformedChecksum := by
  unfold diagnoseTrailer at h
  split at h
  · cases h
  · simp only [List.mem_append] at h
    rcases h with h | h
    · split at h
      · exact Or.inl (List.mem_singleton.mp h)
      · cases h
    · split at h
      · split at h
        · exact Or.inr (Or.inl (List.mem_singleton.mp h))
        · cases h
      · exact Or.inr (Or.inr (List.mem_singleton.mp h))

/-- Only a message that is cut short is diagnosed as one. -/
theorem truncated_mem_diagnose_iff {bytes : Bytes} {fields : List RawField} {separator : UInt8}
    {truncated : Bool} :
    LogDiagnostic.truncated ∈ diagnose bytes fields separator truncated ↔ truncated = true := by
  unfold diagnose
  cases truncated with
  | true => simp
  | false =>
    simp only [Bool.false_eq_true, if_false, iff_false, List.mem_append, not_or]
    refine ⟨⟨?_, ?_⟩, ?_⟩
    · split_ifs <;> decide
    · split_ifs <;> decide
    · intro hmem
      rcases mem_diagnoseTrailer hmem with h | h | h <;> cases h

/-! ## Reading -/

/-- Reads the messages in a FIX log from incrementally fed bytes. -/
structure LogReader where
  tokenizer : Tokenizer
  separator : Option UInt8
  buf : Bytes
  /-- Where the search for the next message start resumes. -/
  searched : ℕ
  /-- Whether the next record's prefix lost bytes to the cap. -/
  prefixTruncated : Bool

def LogReader.new (dialect : Dialect) (separator : Option UInt8) : LogReader where
  tokenizer := Tokenizer.new dialect
  separator := separator
  buf := []
  searched := 0
  prefixTruncated := false

def LogReader.feed (reader : LogReader) (bytes : Bytes) : LogReader :=
  { reader with buf := reader.buf ++ bytes }

/-- Drops the oldest bytes of a prefix of `len` bytes past the cap, and returns its length
after. -/
def LogReader.capPrefix (reader : LogReader) (len : ℕ) : ℕ × LogReader :=
  if len ≤ maxPrefixLen then (len, reader)
  else
    (maxPrefixLen,
      { reader with buf := reader.buf.drop (len - maxPrefixLen), prefixTruncated := true })

/-- The end of the message at the start of `rest`, its copy if it was logged with `^A`, and
what ends its fields. -/
def findMessage (tokenizer : Tokenizer) (separatorOverride : Option UInt8) (rest : Bytes)
    (separator : Separator) (atEnd : Bool) : Option (End × Option Bytes × UInt8) :=
  match separator with
  | .byte separator =>
    (findEnd tokenizer rest separator separatorOverride atEnd).map fun stop =>
      (stop, none, separator)
  | .caretA =>
    (copyMessage tokenizer rest atEnd).map fun (stop, copy) => (stop, some copy, soh)

/-- What one read takes off the front of the buffer. -/
structure Taken where
  prefixBytes : Bytes
  /-- Whether the prefix lost bytes to the cap. -/
  prefixTruncated : Bool
  /-- The message as it was logged. -/
  logged : Bytes
  /-- The message, a copy if it was logged with `^A`. -/
  bytes : Bytes
  /-- What ends its fields. -/
  separator : UInt8
  /-- Whether it ends before its CheckSum field. -/
  truncated : Bool
  deriving DecidableEq, Repr

/-- The part of a read that finds the next message and consumes its bytes. -/
def LogReader.takeMessage (reader : LogReader) (atEnd : Bool) : Option Taken × LogReader :=
  let next := findStart reader.buf reader.searched reader.buf.length reader.separator atEnd
  let prefixLen := match next with
    | .found start => start.offset
    | .pending offset => offset
    | .notFound => reader.buf.length
  let (prefixLen, reader) := reader.capPrefix prefixLen
  let reader := { reader with searched := prefixLen }
  match next with
  | .found start =>
    let rest := reader.buf.drop prefixLen
    match findMessage reader.tokenizer reader.separator rest start.separator atEnd with
    | none => (none, reader)
    | some (stop, copy, separator) =>
      let logged := rest.take stop.len
      (some
        { prefixBytes := reader.buf.take prefixLen
          prefixTruncated := reader.prefixTruncated
          logged := logged
          bytes := copy.getD logged
          separator := separator
          truncated := stop.truncated },
        { reader with
          buf := rest.drop stop.consumed
          searched := 0
          prefixTruncated := false })
  | _ => (none, reader)

/-- The record of a message that was taken. -/
def Taken.record (tokenizer : Tokenizer) (taken : Taken) : LogRecord :=
  let fields := tokenizer.tokenizeFields taken.bytes taken.separator
  { prefixBytes := taken.prefixBytes
    message := ⟨taken.bytes, fields⟩
    diagnostics := (if taken.prefixTruncated then [.prefixTruncated] else []) ++
      diagnose taken.bytes fields taken.separator taken.truncated }

/-- Consumes and returns the next record, or `none` until more bytes are fed. -/
def LogReader.read (reader : LogReader) (atEnd : Bool) : Option LogRecord × LogReader :=
  let (taken, reader') := reader.takeMessage atEnd
  (taken.map (Taken.record reader.tokenizer), reader')

def LogReader.nextRecord (reader : LogReader) : Option LogRecord × LogReader :=
  reader.read false

end Refix.Log
