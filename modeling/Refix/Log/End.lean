import Refix.Log.Start

/-!
# Message Ends in a Log

Where the message at the start of `bytes` ends: where BodyLength points, if a CheckSum field
stands there, else where a walk over its fields comes to CheckSum, a line break or the next
message. Either may have to wait for more bytes, unless the log ends or the message is as
long as one may be.
-/

namespace Refix.Log

open Refix.Foundation Refix.Message

def checksumTag : Tag := 10

/-- Longest message read before it's cut. -/
def maxMessageLen : ℕ := 2 ^ 20

/-- Where a message ends in a log. -/
structure End where
  /-- The message's length. -/
  len : ℕ
  /-- The bytes its record takes, with any line break after the message. -/
  consumed : ℕ
  /-- Whether it ends before its CheckSum field. -/
  truncated : Bool
  deriving DecidableEq, Repr

/-! ## Caps and line breaks -/

/-- The bytes of `bytes` the message can hold, and whether no more can join them. -/
def cap (bytes : Bytes) (atEnd : Bool) : Bytes × Bool :=
  -- a `\r` ending the log is a line break cut short
  let bytes := if atEnd = true ∧ bytes.getLast? = some carriageReturn then bytes.dropLast else bytes
  let capped := bytes.take (min bytes.length maxMessageLen)
  (capped, atEnd || capped.length == maxMessageLen)

/-- The end of a message whose CheckSum field ends at `len`, taking one line break after it. -/
def afterMessage (bytes : Bytes) (len : ℕ) (atEnd : Bool) : Option End :=
  let after := bytes.drop len
  if atEnd = false ∧ (after = [] ∨ after = [carriageReturn]) then none
  else
    let consumed :=
      if [lineFeed] <+: after then len + 1
      else if [carriageReturn, lineFeed] <+: after then len + 2
      else len
    some ⟨len, consumed, false⟩

/-- The end of a message at the line break at `offset`, which its record takes. -/
def atLineBreak (bytes : Bytes) (offset : ℕ) (truncated : Bool) : End :=
  let len := if bytes[offset - 1]? = some carriageReturn then offset - 1 else offset
  ⟨len, offset + 1, truncated⟩

/-! ## The end BodyLength gives -/

inductive BodyLengthEnd where
  | found (stop : End)
  | notFound
  | pending
  deriving DecidableEq, Repr

/-- Where the CheckSum field should start that BodyLength points at. -/
inductive DeclaredTrailer where
  | declared (trailerStart : ℕ)
  | notFound
  | undecided
  deriving DecidableEq, Repr

/-- Reads the BodyLength field, if it is the second one. -/
def declaredTrailer (capped : Bytes) (separator : UInt8) : DeclaredTrailer :=
  -- the start check found BeginString's separator and a whole tag after it
  let tagStart := (capped.findIdx? (· == separator)).elim capped.length (· + 1)
  match stripPrefix (ascii "9=") (capped.drop tagStart) with
  | none => .notFound
  | some rest =>
    let digits := runLength isAsciiDigit (maxBodyLengthDigits + 1) rest
    if maxBodyLengthDigits < digits then .notFound
    else
      match rest[digits]? with
      | none => .undecided
      | some b =>
        if b ≠ separator then .notFound
        else
          match parseU32 (rest.take digits) with
          | none => .notFound
          | some bodyLength =>
            let bodyStart := tagStart + 2 + digits + 1
            .declared (bodyStart + bodyLength)

/-- The end BodyLength gives within `capped`, if it points at a CheckSum field there. -/
def byBodyLengthIn (bytes capped : Bytes) (cappedFinal : Bool) (separator : UInt8)
    (atEnd : Bool) : BodyLengthEnd :=
  let undecided := if cappedFinal then BodyLengthEnd.notFound else .pending
  match declaredTrailer capped separator with
  | .notFound => .notFound
  | .undecided => undecided
  | .declared trailerStart =>
    if capped.length < trailerStart + 3 then undecided
    else if slice capped (trailerStart - 1) (trailerStart + 3) ≠ separator :: ascii "10=" then
      .notFound
    else
      let valueStart := trailerStart + 3
      match findFrom (fun b => b == separator || b == lineFeed) capped valueStart with
      | some offset =>
        if capped[offset]? = some separator then
          match afterMessage bytes (offset + 1) atEnd with
          | some stop => .found stop
          | none => .pending
        else .found (atLineBreak capped offset false)
      | none => if cappedFinal then .found ⟨capped.length, capped.length, false⟩ else .pending

/-- The end BodyLength gives, if it points at a CheckSum field. -/
def byBodyLength (bytes : Bytes) (separator : UInt8) (atEnd : Bool) : BodyLengthEnd :=
  let (capped, cappedFinal) := cap bytes atEnd
  byBodyLengthIn bytes capped cappedFinal separator atEnd

/-! ## The field walk -/

/-- What one round of the walk comes to: its result, or the next position with the pending
data length. -/
inductive WalkStep where
  | done (stop : Option End)
  | next (pos : ℕ) (dataLen : Option ℕ)
  deriving DecidableEq, Repr

/-- Whether the value of the field that was read may run past the bytes so far. -/
def waitsForData (capped : Bytes) (cappedFinal : Bool) (dataLen : Option ℕ)
    (next : Option (RawField × ℕ)) : Bool :=
  next.any fun (field, _) => dataLen.any fun len =>
    !cappedFinal && decide (capped.length ≤ field.valueStart + len)

section WaitsForData

variable {capped : Bytes} {cappedFinal : Bool} {dataLen : Option ℕ}

@[simp] theorem waitsForData_none : waitsForData capped cappedFinal dataLen none = false := rfl

@[simp] theorem waitsForData_final (next : Option (RawField × ℕ)) :
    waitsForData capped true dataLen next = false := by
  cases next <;> cases dataLen <;> rfl

theorem waitsForData_eq_false_iff {field : RawField} {after : ℕ} :
    waitsForData capped false dataLen (some (field, after)) = false ↔
      ∀ len, dataLen = some len → field.valueStart + len < capped.length := by
  cases dataLen <;> simp [waitsForData]

end WaitsForData

/-- How far the field that was read is searched: a data value read by its length may hold
anything. -/
def checkedEnd (capped : Bytes) (dataLen : Option ℕ) (next : Option (RawField × ℕ)) : ℕ :=
  next.elim capped.length fun (field, _) =>
    if dataLen = some (field.valueEnd - field.valueStart) then field.valueStart
    else field.valueEnd

/-- One round of the walk: the field at `pos`, searched for a line break and a start. -/
def walkStep (tokenizer : Tokenizer) (bytes capped : Bytes) (cappedFinal : Bool)
    (separator : UInt8) (separatorOverride : Option UInt8) (atEnd : Bool) (pos : ℕ)
    (dataLen : Option ℕ) : WalkStep :=
  let next := nextField capped pos dataLen separator
  if waitsForData capped cappedFinal dataLen next then .done none
  else
    let lo := max pos 1
    let lineBreak := findFrom (· == lineFeed) (capped.take (checkedEnd capped dataLen next)) lo
    let searchEnd := lineBreak.getD (checkedEnd capped dataLen next)
    match findStart bytes lo searchEnd separatorOverride atEnd with
    | .found start => .done (some ⟨start.offset, start.offset, true⟩)
    | .pending _ => .done none
    | .notFound =>
      match lineBreak with
      | some offset =>
        let isChecksum := next.any fun (field, _) => field.tag == checksumTag
        .done (some (atLineBreak capped offset (!isChecksum)))
      | none =>
        match next with
        | none =>
          -- the rest holds no `=` or separator yet
          .done (if cappedFinal then some ⟨capped.length, capped.length, true⟩ else none)
        | some (field, after) =>
          if field.valueEnd = capped.length then
            -- the value runs to the end of the bytes so far
            .done (if cappedFinal then
              some ⟨capped.length, capped.length, field.tag != checksumTag⟩ else none)
          else if field.tag = checksumTag then .done (afterMessage bytes after atEnd)
          else .next after (tokenizer.pendingDataLen capped field)

section Walk

variable {tokenizer : Tokenizer} {bytes capped : Bytes} {cappedFinal : Bool} {separator : UInt8}
  {separatorOverride : Option UInt8} {atEnd : Bool} {pos : ℕ} {dataLen : Option ℕ}

theorem checkedEnd_le {next : Option (RawField × ℕ)} (hlen : capped.length ≤ u32Max)
    (hnext : nextField capped pos dataLen separator = next) :
    checkedEnd capped dataLen next ≤ capped.length := by
  cases next with
  | none => exact le_rfl
  | some read =>
    obtain ⟨field, after⟩ := read
    have hbounds := nextField_bounds hlen hnext
    simp only [checkedEnd, Option.elim_some]
    split <;> omega

/-- A round that goes on has read a field, whose value does not wait and which is not CheckSum. -/
theorem walkStep_eq_next {pos' : ℕ} {dataLen' : Option ℕ}
    (h : walkStep tokenizer bytes capped cappedFinal separator separatorOverride atEnd pos dataLen =
      .next pos' dataLen') :
    ∃ field, nextField capped pos dataLen separator = some (field, pos') ∧
      dataLen' = tokenizer.pendingDataLen capped field ∧
      waitsForData capped cappedFinal dataLen (some (field, pos')) = false ∧
      field.tag ≠ checksumTag := by
  unfold walkStep at h
  simp only at h
  split at h
  · cases h
  next hwait =>
  split at h
  · cases h
  · cases h
  split at h
  · cases h
  split at h
  · cases h
  · next field after hnext =>
    rw [hnext, Bool.not_eq_true] at hwait
    split at h
    · cases h
    split at h
    · cases h
    · next htag =>
      cases h
      exact ⟨field, hnext, rfl, hwait, htag⟩

/-- A round that goes on leaves bytes to walk over, or stands right at their end. -/
theorem le_of_walkStep_eq_next (hlen : capped.length ≤ u32Max) {pos' : ℕ} {dataLen' : Option ℕ}
    (h : walkStep tokenizer bytes capped cappedFinal separator separatorOverride atEnd pos dataLen =
      .next pos' dataLen') : pos' ≤ capped.length := by
  obtain ⟨field, hread, -⟩ := walkStep_eq_next h
  obtain ⟨rfl, -, -, hend⟩ := nextField_bounds hlen hread
  -- a value that runs to the end of the bytes ends the walk
  rcases hend.eq_or_lt with heq | hlt
  · unfold walkStep at h
    simp only [hread, heq, if_true] at h
    split at h
    · cases h
    split at h
    · cases h
    · cases h
    split at h <;> cases h
  · exact hlt

end Walk

/-- The walk from `pos` on. -/
def walkFrom (tokenizer : Tokenizer) (bytes capped : Bytes) (cappedFinal : Bool)
    (separator : UInt8) (separatorOverride : Option UInt8) (atEnd : Bool) (pos : ℕ)
    (dataLen : Option ℕ) : Option End :=
  match _h : walkStep tokenizer bytes capped cappedFinal separator separatorOverride atEnd pos
      dataLen with
  | .done stop => stop
  | .next pos' dataLen' =>
    walkFrom tokenizer bytes capped cappedFinal separator separatorOverride atEnd pos' dataLen'
termination_by capped.length + 1 - pos
decreasing_by
  obtain ⟨field, hread, -⟩ := walkStep_eq_next _h
  have := nextField_lt hread
  omega

section WalkFrom

variable {tokenizer : Tokenizer} {bytes capped : Bytes} {cappedFinal : Bool} {separator : UInt8}
  {separatorOverride : Option UInt8} {atEnd : Bool} {pos : ℕ} {dataLen : Option ℕ}

theorem walkFrom_of_next {pos' : ℕ} {dataLen' : Option ℕ}
    (h : walkStep tokenizer bytes capped cappedFinal separator separatorOverride atEnd pos dataLen =
      .next pos' dataLen') :
    walkFrom tokenizer bytes capped cappedFinal separator separatorOverride atEnd pos dataLen =
      walkFrom tokenizer bytes capped cappedFinal separator separatorOverride atEnd pos'
        dataLen' := by
  rw [walkFrom]
  split
  · next hdone => exact absurd (h.symm.trans hdone) (by simp)
  · next hnext =>
    obtain ⟨rfl, rfl⟩ := WalkStep.next.inj (h.symm.trans hnext)
    rfl

theorem walkFrom_of_done {stop : Option End}
    (h : walkStep tokenizer bytes capped cappedFinal separator separatorOverride atEnd pos dataLen =
      .done stop) :
    walkFrom tokenizer bytes capped cappedFinal separator separatorOverride atEnd pos dataLen =
      stop := by
  rw [walkFrom]
  split
  · next hdone => exact WalkStep.done.inj (hdone.symm.trans h)
  · next hnext => exact absurd (h.symm.trans hnext) (by simp)

end WalkFrom

/-- Walks the fields of the message at the start of `bytes` to its CheckSum field. -/
def walk (tokenizer : Tokenizer) (bytes : Bytes) (separator : UInt8)
    (separatorOverride : Option UInt8) (atEnd : Bool) : Option End :=
  let (capped, cappedFinal) := cap bytes atEnd
  walkFrom tokenizer bytes capped cappedFinal separator separatorOverride atEnd 0 none

/-- Where the message at the start of `bytes` ends, or `none` until more bytes arrive. -/
def findEnd (tokenizer : Tokenizer) (bytes : Bytes) (separator : UInt8)
    (separatorOverride : Option UInt8) (atEnd : Bool) : Option End :=
  match byBodyLength bytes separator atEnd with
  | .found stop => some stop
  | .notFound => walk tokenizer bytes separator separatorOverride atEnd
  | .pending => none

end Refix.Log
