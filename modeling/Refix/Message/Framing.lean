import Refix.Foundation.Decimal

/-!
# Framing

The framing scanner: it delimits one checksum-verified FIX message at the front of a
buffer. Each call ends in a frame to consume, in `incomplete`, to wait on, or in a garble
to skip.

Offsets and lengths are natural numbers. A `usize` has 64 bits; the additions the source
writes as saturating or checked are so here, and no other addition of the scanner can
overflow, since a buffer is shorter than `2 ^ 63` bytes.
-/

namespace Refix.Message

open Refix.Foundation

/-! ## Bytes -/

abbrev Bytes := List UInt8

/-- The bytes of an ASCII text. -/
def ascii (text : String) : Bytes := text.toList.map fun c => c.toNat.toUInt8

def soh : UInt8 := 1

/-- The sign between a tag and its value. -/
def equalsSign : UInt8 := 61

/-- The largest `usize`. -/
def usizeMax : ℕ := 2 ^ 64 - 1

def saturatingAdd (a b : ℕ) : ℕ := min (a + b) usizeMax

/-- Longest BeginString field we'll frame: `8=` through the byte before its SOH. -/
def maxBeginStringLen : ℕ := 16

/-- Longest BodyLength value we'll frame, in digits. -/
def maxBodyLengthDigits : ℕ := 10

/-- `10=`, three checksum digits and SOH. -/
def checksumFieldLen : ℕ := 7

/-- What marks the start of any frame. -/
def beginStringPrefix : Bytes := ascii "8=FIX"

/-! ## Outcomes -/

inductive GarbledReason where
  | missingBeginString
  | malformedBeginString
  | missingBodyLength
  | malformedBodyLength
  | bodyLengthMismatch
  | missingMsgType
  | malformedChecksum
  | checksumMismatch
  | frameTooLarge
  deriving DecidableEq, Repr

/-- The value of BeginString(8), with recognised protocol versions decoded. -/
inductive BeginString where
  | fix40
  | fix41
  | fix42
  | fix43
  | fix44
  | fixt11
  | other (value : Bytes)
  deriving DecidableEq, Repr

def BeginString.ofValue (value : Bytes) : BeginString :=
  if value = ascii "FIX.4.0" then .fix40
  else if value = ascii "FIX.4.1" then .fix41
  else if value = ascii "FIX.4.2" then .fix42
  else if value = ascii "FIX.4.3" then .fix43
  else if value = ascii "FIX.4.4" then .fix44
  else if value = ascii "FIXT.1.1" then .fixt11
  else .other value

/-- One well-framed, checksum-verified message. -/
structure Frame where
  /-- The full frame: `8=` through the SOH after CheckSum. -/
  bytes : Bytes
  beginString : BeginString
  bodyLength : ℕ
  msgType : Bytes
  deriving DecidableEq, Repr

/-- A scan that ended without a frame. -/
inductive Halt where
  | incomplete
  | garbled (reason : GarbledReason) (skipped : ℕ)
  deriving DecidableEq, Repr

inductive Outcome where
  | frame (frame : Frame)
  | incomplete
  | garbled (reason : GarbledReason) (skipped : ℕ)
  deriving DecidableEq, Repr

def Halt.toOutcome : Halt → Outcome
  | .incomplete => .incomplete
  | .garbled reason skipped => .garbled reason skipped

/-- The scanner's only state is its frame cap. -/
structure Scanner where
  maxFrameSize : ℕ

/-- The default scanner caps frames at 1 MiB. -/
def Scanner.default : Scanner := ⟨2 ^ 20⟩

/-! ## Resynchronising -/

/-- Bytes to skip to resynchronise onto the next frame start: the next `8=FIX` after
offset 0, else the longest part of one at the tail, else the whole buffer. -/
def findNextBeginString (buf : Bytes) : ℕ :=
  match findPattern beginStringPrefix (buf.drop 1) with
  | some skip => skip + 1
  | none =>
    let maxK := min (beginStringPrefix.length - 1) buf.length
    let isTail (k : ℕ) : Bool := buf.drop (buf.length - k) == beginStringPrefix.take k
    match (List.range' 1 maxK).reverse.find? isTail with
    | some k => buf.length - k
    | none => buf.length

/-- A garble whose extent isn't trustworthy, so the skip resynchronises. -/
def structuralGarble (reason : GarbledReason) (buf : Bytes) : Halt :=
  .garbled reason (findNextBeginString buf)

/-- A garble found after the frame's extent is trusted, so the skip is the whole frame. -/
def postStructuralGarble (reason : GarbledReason) (frame : Bytes) : Halt :=
  .garbled reason frame.length

/-! ## The checks of a scan -/

/-- Parses BeginString(8), the first field of a message, and returns where BodyLength
starts. -/
def parseBeginString (buf : Bytes) : Except Halt (BeginString × ℕ) :=
  let searchEnd := min buf.length (maxBeginStringLen + 1)
  match findFrom (· == soh) (buf.take searchEnd) 2 with
  | some sohAt => .ok (BeginString.ofValue (slice buf 2 sohAt), sohAt + 1)
  | none =>
    if buf.length ≤ maxBeginStringLen then .error .incomplete
    else .error (structuralGarble .malformedBeginString buf)

/-- Parses BodyLength(9), the second field, and returns its value and the offset just past
its SOH. -/
def parseBodyLength (buf : Bytes) (bodyLengthStart : ℕ) : Except Halt (ℕ × ℕ) :=
  let tag := buf.drop bodyLengthStart
  if tag.length < 2 then .error .incomplete
  else if tag.take 2 ≠ ascii "9=" then .error (structuralGarble .missingBodyLength buf)
  else
    let digitsStart := bodyLengthStart + 2
    let searchEnd := min buf.length (digitsStart + maxBodyLengthDigits + 1)
    match findFrom (· == soh) (buf.take searchEnd) digitsStart with
    | none =>
      if buf.length ≤ digitsStart + maxBodyLengthDigits then .error .incomplete
      else .error (structuralGarble .malformedBodyLength buf)
    | some sohAt =>
      let digits := slice buf digitsStart sohAt
      if digits = [] ∨ digits.all isAsciiDigit = false then
        .error (structuralGarble .malformedBodyLength buf)
      else
        match foldDigits usizeMax 0 digits with
        | none => .error (structuralGarble .malformedBodyLength buf)
        | some bodyLength => .ok (bodyLength, sohAt + 1)

/-- The total frame length BodyLength implies, bounded and fully buffered. -/
def validatedFrameLen (buf : Bytes) (bodyStart bodyLength maxFrameSize : ℕ) : Except Halt ℕ :=
  let frameLen := saturatingAdd (saturatingAdd bodyStart bodyLength) checksumFieldLen
  if maxFrameSize < frameLen then .error (structuralGarble .frameTooLarge buf)
  else if buf.length < frameLen then .error .incomplete
  else .ok frameLen

/-- Confirms that BodyLength's jump landed on `10=` at a field boundary. -/
def verifyTrailerStart (buf : Bytes) (checksumStart : ℕ) : Except Halt Unit :=
  if buf[checksumStart - 1]? ≠ some soh ∨
      slice buf checksumStart (checksumStart + 3) ≠ ascii "10=" then
    .error (structuralGarble .bodyLengthMismatch buf)
  else .ok ()

/-- The number three digits state. -/
def statedChecksum (digits : Bytes) : ℕ :=
  digitValue (digits.getD 0 0) * 100 + digitValue (digits.getD 1 0) * 10 +
    digitValue (digits.getD 2 0)

/-- The sum of all bytes, modulo 256. -/
def byteSum (bytes : Bytes) : UInt8 := bytes.foldl (· + ·) 0

/-- Verifies the checksum digits and the SOH after them. -/
def verifyChecksum (frame : Bytes) (checksumStart : ℕ) : Except Halt Unit :=
  let digits := slice frame (checksumStart + 3) (checksumStart + 6)
  if frame[checksumStart + 6]? ≠ some soh ∨ digits.all isAsciiDigit = false then
    .error (postStructuralGarble .malformedChecksum frame)
  else if (byteSum (frame.take checksumStart)).toNat ≠ statedChecksum digits then
    .error (postStructuralGarble .checksumMismatch frame)
  else .ok ()

/-- Parses MsgType(35), the third field of a message. -/
def parseMsgType (frame : Bytes) (bodyStart bodyLength : ℕ) : Except Halt Bytes :=
  let region := slice frame bodyStart (bodyStart + bodyLength)
  match stripPrefix (ascii "35=") region with
  | none => .error (postStructuralGarble .missingMsgType frame)
  | some afterTag =>
    match afterTag.findIdx? (· == soh) with
    | none => .error (postStructuralGarble .missingMsgType frame)
    | some sohAt => .ok (afterTag.take sohAt)

/-! ## The scan -/

def Scanner.tryScan (scanner : Scanner) (buf : Bytes) : Except Halt Frame :=
  if beginStringPrefix <+: buf then do
    let (beginString, bodyLengthStart) ← parseBeginString buf
    let (bodyLength, bodyStart) ← parseBodyLength buf bodyLengthStart
    let frameLen ← validatedFrameLen buf bodyStart bodyLength scanner.maxFrameSize
    let frame := buf.take frameLen
    let checksumStart := bodyStart + bodyLength
    verifyTrailerStart buf checksumStart
    verifyChecksum frame checksumStart
    let msgType ← parseMsgType frame bodyStart bodyLength
    return { bytes := frame, beginString, bodyLength, msgType }
  -- a buffer that may still become `8=FIX` waits
  else if buf <+: beginStringPrefix then .error .incomplete
  else .error (structuralGarble .missingBeginString buf)

/-- Scans one frame from the start of `buf`. -/
def Scanner.scan (scanner : Scanner) (buf : Bytes) : Outcome :=
  match scanner.tryScan buf with
  | .ok frame => .frame frame
  | .error halt => halt.toOutcome

end Refix.Message
