import Refix.Foundation.Checked
import Refix.Log.Progress

/-!
# The Reader with Its Checks

The log reader once more, under the same names, with every slice, index, subtraction and `u32`
conversion checked where the source makes it. Whatever the reader's calls, none of the checks
fails, and the reader does what the one without them does (`Checked.read_eq`).
-/

namespace Refix.Log.Checked

open Refix.Foundation Refix.Foundation.Checked Refix.Message

/-! ## Starts -/

/-- Whether `bytes` opens with a message start, and its separator if so. -/
def check (bytes : Bytes) (separator : Option UInt8) : Except Panic Check := do
  let shared := min bytes.length beginStringPrefix.length
  if (← sliceTo bytes shared) ≠ (← sliceTo beginStringPrefix shared) then return .notStart
  else if shared < beginStringPrefix.length then return .pending
  else
    let value ← sliceFrom bytes beginStringPrefix.length
    let valueEnd := beginStringPrefix.length + runLength isVersionByte maxBeginStringLen value
    if maxBeginStringLen < valueEnd then return .notStart
    else
      match bytes[valueEnd]? with
      | none => return .pending
      | some found =>
        match findSeparatorAt bytes valueEnd found separator with
        | .error result => return result
        | .ok separator => return checkTag (← sliceFrom bytes (valueEnd + separator.length)) separator

/-- Whether a search passes over `offset` without a check. -/
def isCandidate (bytes : Bytes) (offset : ℕ) : Except Panic Bool := do
  if (← index bytes offset) ≠ 56 then return false
  else if 0 < offset then return !isAsciiDigit (← index bytes (← sub offset 1))
  else return true

/-- The first message start at one of `offsets`. -/
def findStartIn (bytes : Bytes) (separator : Option UInt8) (atEnd : Bool) :
    List ℕ → Except Panic NextStart
  | [] => return .notFound
  | offset :: offsets => do
    if (← isCandidate bytes offset) = false then findStartIn bytes separator atEnd offsets
    else
      match ← check (← sliceFrom bytes offset) separator with
      | .start separator => return .found ⟨offset, separator⟩
      | .pending =>
        if atEnd then findStartIn bytes separator atEnd offsets else return .pending offset
      | .notStart => findStartIn bytes separator atEnd offsets

def findStart (bytes : Bytes) (lo hi : ℕ) (separator : Option UInt8) (atEnd : Bool) :
    Except Panic NextStart :=
  findStartIn bytes separator atEnd (List.range' lo (hi - lo))

section Start

variable {bytes : Bytes} {separator : Option UInt8} {atEnd : Bool}

theorem length_le_of_findSeparatorAt_eq_ok {valueEnd : ℕ} {found : UInt8} {result : Separator}
    (hfound : bytes[valueEnd]? = some found)
    (h : findSeparatorAt bytes valueEnd found separator = .ok result) :
    valueEnd + result.length ≤ bytes.length := by
  have hlt := (List.getElem?_eq_some_iff.mp hfound).1
  cases separator with
  | some given =>
    simp only [findSeparatorAt] at h
    split at h
    · cases h
    · cases h
      exact hlt
  | none =>
    simp only [findSeparatorAt] at h
    split at h
    · cases h
    split at h
    · split at h
      · cases h
      · next next hnext =>
        have hlt' := (List.getElem?_eq_some_iff.mp hnext).1
        split at h
        · cases h
          exact hlt'
        · cases h
          exact hlt
    · cases h
      exact hlt

theorem check_eq (bytes : Bytes) (separator : Option UInt8) :
    check bytes separator = .ok (Log.check bytes separator) := by
  have hshared : min bytes.length beginStringPrefix.length ≤ bytes.length := Nat.min_le_left _ _
  have hshared' : min bytes.length beginStringPrefix.length ≤ beginStringPrefix.length :=
    Nat.min_le_right _ _
  unfold check Log.check
  simp only [sliceTo_eq hshared, sliceTo_eq hshared', bind_ok, pure_eq]
  split
  · rfl
  split
  · rfl
  next hlong =>
  rw [sliceFrom_eq (by omega)]
  simp only [bind_ok]
  split
  · rfl
  cases hfound : bytes[beginStringPrefix.length + runLength isVersionByte maxBeginStringLen
      (bytes.drop beginStringPrefix.length)]? with
  | none => rfl
  | some found =>
    simp only
    cases hsep : findSeparatorAt bytes (beginStringPrefix.length + runLength isVersionByte
        maxBeginStringLen (bytes.drop beginStringPrefix.length)) found separator with
    | error result => rfl
    | ok separator =>
      simp only [sliceFrom_eq (length_le_of_findSeparatorAt_eq_ok hfound hsep), bind_ok]

theorem isCandidate_eq {offset : ℕ} (h : offset < bytes.length) :
    isCandidate bytes offset = .ok (!decide (bytes[offset]? ≠ some 56 ∨
      0 < offset ∧ (bytes[offset - 1]?).any isAsciiDigit = true)) := by
  have hget : bytes[offset]? = some bytes[offset] := List.getElem?_eq_getElem h
  unfold isCandidate
  simp only [index_eq hget, bind_ok, pure_eq, hget]
  split
  · next hne => simp [hne]
  next heq =>
  split
  · next hpos =>
    have hbefore : bytes[offset - 1]? = some bytes[offset - 1] :=
      List.getElem?_eq_getElem (by omega)
    simp only [sub_eq hpos, bind_ok, index_eq hbefore, hbefore, Option.any_some]
    simp [not_not.mp heq, hpos]
  · next hzero => simp [not_not.mp heq, hzero]

theorem findStartIn_eq (offsets : List ℕ) (h : ∀ offset ∈ offsets, offset < bytes.length) :
    findStartIn bytes separator atEnd offsets =
      .ok (Log.findStartIn bytes separator atEnd offsets) := by
  induction offsets with
  | nil => rfl
  | cons offset offsets ih =>
    rw [List.forall_mem_cons] at h
    have hrest := ih h.2
    rw [findStartIn, Log.findStartIn, isCandidate_eq h.1, bind_ok, checkAt]
    by_cases hskip : bytes[offset]? ≠ some 56 ∨
        0 < offset ∧ (bytes[offset - 1]?).any isAsciiDigit = true
    · simp only [hskip, decide_true, Bool.not_true, if_true, hrest]
    · simp only [hskip, decide_false, Bool.not_false, Bool.true_eq_false, if_false,
        sliceFrom_eq h.1.le, bind_ok, check_eq, hrest, pure_eq]
      cases Log.check (bytes.drop offset) separator with
      | start found => rfl
      | notStart => rfl
      | pending => cases atEnd <;> rfl

theorem findStart_eq {lo hi : ℕ} (h : hi ≤ bytes.length) :
    findStart bytes lo hi separator atEnd = .ok (Log.findStart bytes lo hi separator atEnd) := by
  apply findStartIn_eq
  intro offset hmem
  obtain ⟨hge, hlt⟩ := List.mem_range'_1.mp hmem
  omega

end Start

/-! ## Ends -/

/-- The end of a message whose CheckSum field ends at `len`, taking one line break after it. -/
def afterMessage (bytes : Bytes) (len : ℕ) (atEnd : Bool) : Except Panic (Option End) := do
  let after ← sliceFrom bytes len
  if atEnd = false ∧ (after = [] ∨ after = [carriageReturn]) then return none
  else
    let consumed :=
      if [lineFeed] <+: after then len + 1
      else if [carriageReturn, lineFeed] <+: after then len + 2
      else len
    return some ⟨len, consumed, false⟩

/-- The end of a message at the line break at `offset`, which its record takes. -/
def atLineBreak (bytes : Bytes) (offset : ℕ) (truncated : Bool) : Except Panic End := do
  let len ←
    if (← index bytes (← sub offset 1)) = carriageReturn then sub offset 1 else pure offset
  return ⟨len, offset + 1, truncated⟩

/-- The bytes of `bytes` the message can hold, and whether no more can join them. -/
def cap (bytes : Bytes) (atEnd : Bool) : Except Panic (Bytes × Bool) := do
  let bytes := if atEnd = true ∧ bytes.getLast? = some carriageReturn then bytes.dropLast else bytes
  let capped ← sliceTo bytes (min bytes.length maxMessageLen)
  return (capped, atEnd || capped.length == maxMessageLen)

/-- Reads the BodyLength field, if it is the second one. -/
def declaredTrailer (capped : Bytes) (separator : UInt8) : Except Panic DeclaredTrailer := do
  let tagStart := (capped.findIdx? (· == separator)).elim capped.length (· + 1)
  match stripPrefix (ascii "9=") (← sliceFrom capped tagStart) with
  | none => return .notFound
  | some rest =>
    let digits := runLength isAsciiDigit (maxBodyLengthDigits + 1) rest
    if maxBodyLengthDigits < digits then return .notFound
    else
      match rest[digits]? with
      | none => return .undecided
      | some b =>
        if b ≠ separator then return .notFound
        else
          match parseU32 (← sliceTo rest digits) with
          | none => return .notFound
          | some bodyLength =>
            let bodyStart := tagStart + 2 + digits + 1
            return .declared (bodyStart + bodyLength)

/-- The end BodyLength gives, if it points at a CheckSum field. -/
def byBodyLength (bytes : Bytes) (separator : UInt8) (atEnd : Bool) :
    Except Panic BodyLengthEnd := do
  let (capped, cappedFinal) ← cap bytes atEnd
  let undecided := if cappedFinal then BodyLengthEnd.notFound else .pending
  match ← declaredTrailer capped separator with
  | .notFound => return .notFound
  | .undecided => return undecided
  | .declared trailerStart =>
    if capped.length < trailerStart + 3 then return undecided
    else if (← slice capped (← sub trailerStart 1) (trailerStart + 3)) ≠
        separator :: ascii "10=" then
      return .notFound
    else
      let valueStart := trailerStart + 3
      let value ← sliceFrom capped valueStart
      match (value.findIdx? fun b => b == separator || b == lineFeed).map (valueStart + ·) with
      | some offset =>
        if (← index capped offset) = separator then
          match ← afterMessage bytes (offset + 1) atEnd with
          | some stop => return .found stop
          | none => return .pending
        else return .found (← atLineBreak capped offset false)
      | none =>
        return if cappedFinal then .found ⟨capped.length, capped.length, false⟩ else .pending

section BodyLength

variable {bytes capped : Bytes} {atEnd : Bool} {separator : UInt8}

theorem afterMessage_eq {len : ℕ} (h : len ≤ bytes.length) :
    afterMessage bytes len atEnd = .ok (Log.afterMessage bytes len atEnd) := by
  unfold afterMessage Log.afterMessage
  simp only [sliceFrom_eq h, bind_ok, pure_eq]
  split <;> rfl

theorem atLineBreak_eq {offset : ℕ} {truncated : Bool} (hpos : 1 ≤ offset)
    (h : offset ≤ bytes.length) :
    atLineBreak bytes offset truncated = .ok (Log.atLineBreak bytes offset truncated) := by
  have hbefore : bytes[offset - 1]? = some bytes[offset - 1] :=
    List.getElem?_eq_getElem (by omega)
  unfold atLineBreak Log.atLineBreak
  simp only [sub_eq hpos, bind_ok, index_eq hbefore, hbefore, Option.some.injEq, pure_eq]
  split <;> rfl

theorem cap_eq (bytes : Bytes) (atEnd : Bool) :
    cap bytes atEnd = .ok (Log.cap bytes atEnd) := by
  unfold cap Log.cap
  simp only [sliceTo_eq (Nat.min_le_left _ _), bind_ok, pure_eq]

theorem declaredTrailer_eq (capped : Bytes) (separator : UInt8) :
    declaredTrailer capped separator = .ok (Log.declaredTrailer capped separator) := by
  have htag : (capped.findIdx? (· == separator)).elim capped.length (· + 1) ≤ capped.length := by
    cases hfind : capped.findIdx? (· == separator) with
    | none => exact le_rfl
    | some i => exact (List.findIdx?_eq_some_iff_getElem.mp hfind).1
  unfold declaredTrailer Log.declaredTrailer
  simp only [sliceFrom_eq htag, bind_ok, pure_eq]
  cases stripPrefix (ascii "9=") (capped.drop
      ((capped.findIdx? (· == separator)).elim capped.length (· + 1))) with
  | none => rfl
  | some rest =>
    have hdigits := (runLength_le isAsciiDigit (maxBodyLengthDigits + 1) rest).2
    simp only [sliceTo_eq hdigits, bind_ok]
    split
    · rfl
    cases rest[runLength isAsciiDigit (maxBodyLengthDigits + 1) rest]? with
    | none => rfl
    | some b =>
      simp only
      split
      · rfl
      cases parseU32 (rest.take (runLength isAsciiDigit (maxBodyLengthDigits + 1) rest)) <;> rfl

theorem le_of_declaredTrailer {trailerStart : ℕ}
    (h : Log.declaredTrailer capped separator = .declared trailerStart) : 1 ≤ trailerStart := by
  unfold Log.declaredTrailer at h
  simp only at h
  split at h
  · cases h
  split at h
  · cases h
  split at h
  · cases h
  split at h
  · cases h
  split at h
  · cases h
  · cases h
    omega

theorem byBodyLength_eq (bytes : Bytes) (separator : UInt8) (atEnd : Bool) :
    byBodyLength bytes separator atEnd = .ok (Log.byBodyLength bytes separator atEnd) := by
  obtain ⟨hcapped, -⟩ := cap_isPrefix bytes atEnd
  have hle := hcapped.length_le
  unfold byBodyLength Log.byBodyLength byBodyLengthIn
  simp only [cap_eq, bind_ok, declaredTrailer_eq]
  generalize hcap : Log.cap bytes atEnd = read at hcapped hle ⊢
  obtain ⟨capped, cappedFinal⟩ := read
  simp only at hcapped hle ⊢
  cases htrailer : Log.declaredTrailer capped separator with
  | notFound => rfl
  | undecided => rfl
  | declared trailerStart =>
    have hpos := le_of_declaredTrailer htrailer
    simp only
    split
    · rfl
    next hlong =>
    have hvalue : trailerStart + 3 ≤ capped.length := Nat.le_of_not_lt hlong
    -- The trailer is declared behind a separator, and its tag lies within the cap.
    rw [sub_eq hpos, bind_ok, slice_eq (by omega) hvalue, bind_ok]
    split
    · rfl
    rw [sliceFrom_eq hvalue, bind_ok, ← findFrom]
    cases hfind : findFrom (fun b => b == separator || b == lineFeed) capped (trailerStart + 3) with
    | none => rfl
    | some offset =>
      obtain ⟨hoffset, hlt⟩ := findFrom_lt hfind
      have hget : capped[offset]? = some capped[offset] := List.getElem?_eq_getElem hlt
      simp only [index_eq hget, bind_ok, hget, Option.some.injEq]
      split
      · rw [afterMessage_eq (by omega), bind_ok]
        cases Log.afterMessage bytes (offset + 1) atEnd <;> rfl
      · rw [atLineBreak_eq (by omega) hlt.le, bind_ok]
        rfl

end BodyLength

/-! ## Fields -/

/-- The field at `pos` and the offset of the one after it. -/
def nextField (bytes : Bytes) (pos : ℕ) (dataLen : Option ℕ) (separator : UInt8) :
    Except Panic (Option (RawField × ℕ)) := do
  match findTagEnd bytes pos separator with
  | none => return none
  | some (.equals delimiter) =>
    let tag := (parseU32 (← slice bytes pos delimiter)).getD malformed
    let valueStart := delimiter + 1
    let valueEnd := fieldValueEnd bytes valueStart dataLen separator
    return some (⟨tag, ← exact u32Max valueStart, ← exact u32Max valueEnd⟩, valueEnd + 1)
  | some (.separator delimiter) =>
    return some (⟨malformed, ← exact u32Max pos, ← exact u32Max delimiter⟩, delimiter + 1)

/-- The bytes a field's value takes up. -/
def fieldValue (bytes : Bytes) (field : RawField) : Except Panic Bytes :=
  slice bytes field.valueStart field.valueEnd

def pendingDataLen (tokenizer : Tokenizer) (bytes : Bytes) (field : RawField) :
    Except Panic (Option ℕ) := do
  if tokenizer.isLengthTag field.tag then return parseU32 (← fieldValue bytes field)
  else return none

/-- The fields from `pos` on, in at most `fuel` rounds. -/
def tokenizeFrom (tokenizer : Tokenizer) (bytes : Bytes) (separator : UInt8) :
    ℕ → ℕ → Option ℕ → Except Panic (List RawField)
  | 0, _, _ => .error .outOfFuel
  | fuel + 1, pos, dataLen => do
    match ← nextField bytes pos dataLen separator with
    | none => return []
    | some (field, next) =>
      let dataLen ← pendingDataLen tokenizer bytes field
      return field :: (← tokenizeFrom tokenizer bytes separator fuel next dataLen)

/-- Splits `bytes` into fields ended by `separator`. -/
def tokenizeFields (tokenizer : Tokenizer) (bytes : Bytes) (separator : UInt8) :
    Except Panic (List RawField) :=
  -- each round reads past at least one byte
  tokenizeFrom tokenizer bytes separator (bytes.length + 2) 0 none

section Fields

variable {tokenizer : Tokenizer} {bytes : Bytes} {separator : UInt8} {pos : ℕ}
  {dataLen : Option ℕ}

theorem nextField_eq (hlen : bytes.length ≤ u32Max) :
    nextField bytes pos dataLen separator =
      .ok (Message.nextField bytes pos dataLen separator) := by
  unfold nextField Message.nextField
  cases hend : findTagEnd bytes pos separator with
  | none => rfl
  | some tagEnd =>
    cases tagEnd with
    | equals delimiter =>
      obtain ⟨hpos, heq, -⟩ := findTagEnd_eq_equals_iff.mp hend
      have hlt := (List.getElem?_eq_some_iff.mp heq).1
      have hvalue : fieldValueEnd bytes (delimiter + 1) dataLen separator ≤ bytes.length :=
        (le_fieldValueEnd dataLen separator hlt).2
      have hstart : delimiter + 1 ≤ u32Max := by omega
      have hstop : fieldValueEnd bytes (delimiter + 1) dataLen separator ≤ u32Max := by omega
      simp only [slice_eq hpos hlt.le, exact_eq hstart, exact_eq hstop, bind_ok, pure_eq,
        asU32_of_le le_rfl hstart, asU32_of_le le_rfl hstop]
    | separator delimiter =>
      obtain ⟨hpos, hsep, -⟩ := findTagEnd_eq_separator_iff.mp hend
      have hlt := (List.getElem?_eq_some_iff.mp hsep).1
      have hstart : pos ≤ u32Max := by omega
      have hstop : delimiter ≤ u32Max := by omega
      simp only [exact_eq hstart, exact_eq hstop, bind_ok, pure_eq, asU32_of_le le_rfl hstart,
        asU32_of_le le_rfl hstop]

theorem fieldValue_eq {field : RawField} (hlo : field.valueStart ≤ field.valueEnd)
    (hhi : field.valueEnd ≤ bytes.length) :
    fieldValue bytes field = .ok (field.value bytes) :=
  slice_eq hlo hhi

theorem pendingDataLen_eq {field : RawField} (hlo : field.valueStart ≤ field.valueEnd)
    (hhi : field.valueEnd ≤ bytes.length) :
    pendingDataLen tokenizer bytes field = .ok (tokenizer.pendingDataLen bytes field) := by
  unfold pendingDataLen Tokenizer.pendingDataLen
  split
  · rw [fieldValue_eq hlo hhi]
    rfl
  · rfl

theorem tokenizeFrom_eq (hlen : bytes.length ≤ u32Max) {fuel : ℕ}
    (hpos : pos ≤ bytes.length + 1) (hfuel : bytes.length + 1 < fuel + pos) :
    tokenizeFrom tokenizer bytes separator fuel pos dataLen =
      .ok (tokenizer.tokenizeFrom bytes separator pos dataLen) := by
  induction fuel generalizing pos dataLen with
  | zero => omega
  | succ fuel ih =>
    rw [tokenizeFrom, nextField_eq hlen, bind_ok, Tokenizer.tokenizeFrom.eq_def]
    cases hread : Message.nextField bytes pos dataLen separator with
    | none => rfl
    | some read =>
      obtain ⟨field, next⟩ := read
      have hlt := (nextField_lt hread).1
      obtain ⟨rfl, -, hlo, hhi⟩ := nextField_bounds hlen hread
      simp only [pendingDataLen_eq hlo hhi, bind_ok]
      rw [ih (by omega) (by omega)]
      rfl

theorem tokenizeFields_eq (hlen : bytes.length ≤ u32Max) :
    tokenizeFields tokenizer bytes separator = .ok (tokenizer.tokenizeFields bytes separator) :=
  tokenizeFrom_eq hlen (Nat.zero_le _) (by omega)

end Fields

/-! ## The field walk -/

/-- How far the field that was read is searched. -/
def checkedEnd (capped : Bytes) (dataLen : Option ℕ) :
    Option (RawField × ℕ) → Except Panic ℕ
  | some (field, _) => do
    if dataLen = some (← sub field.valueEnd field.valueStart) then return field.valueStart
    else return field.valueEnd
  | none => return capped.length

/-- One round of the walk: the field at `pos`, searched for a line break and a start. -/
def walkStep (tokenizer : Tokenizer) (bytes capped : Bytes) (cappedFinal : Bool)
    (separator : UInt8) (separatorOverride : Option UInt8) (atEnd : Bool) (pos : ℕ)
    (dataLen : Option ℕ) : Except Panic WalkStep := do
  let next ← nextField capped pos dataLen separator
  if waitsForData capped cappedFinal dataLen next then return .done none
  else
    let checked ← checkedEnd capped dataLen next
    let lo := max pos 1
    let searched ← slice capped lo checked
    let lineBreak := (searched.findIdx? (· == lineFeed)).map (lo + ·)
    match ← findStart bytes lo (lineBreak.getD checked) separatorOverride atEnd with
    | .found start => return .done (some ⟨start.offset, start.offset, true⟩)
    | .pending _ => return .done none
    | .notFound =>
      match lineBreak with
      | some offset =>
        let isChecksum := next.any fun (field, _) => field.tag == checksumTag
        return .done (some (← atLineBreak capped offset (!isChecksum)))
      | none =>
        match next with
        | none =>
          return .done (if cappedFinal then some ⟨capped.length, capped.length, true⟩ else none)
        | some (field, after) =>
          if field.valueEnd = capped.length then
            return .done (if cappedFinal then
              some ⟨capped.length, capped.length, field.tag != checksumTag⟩ else none)
          else if field.tag = checksumTag then return .done (← afterMessage bytes after atEnd)
          else return .next after (← pendingDataLen tokenizer capped field)

/-- The walk from `pos` on, in at most `fuel` rounds. -/
def walkFrom (tokenizer : Tokenizer) (bytes capped : Bytes) (cappedFinal : Bool)
    (separator : UInt8) (separatorOverride : Option UInt8) (atEnd : Bool) :
    ℕ → ℕ → Option ℕ → Except Panic (Option End)
  | 0, _, _ => .error .outOfFuel
  | fuel + 1, pos, dataLen => do
    match ← walkStep tokenizer bytes capped cappedFinal separator separatorOverride atEnd pos
        dataLen with
    | .done stop => return stop
    | .next pos' dataLen' =>
      walkFrom tokenizer bytes capped cappedFinal separator separatorOverride atEnd fuel pos'
        dataLen'

/-- Walks the fields of the message at the start of `bytes` to its CheckSum field. -/
def walk (tokenizer : Tokenizer) (bytes : Bytes) (separator : UInt8)
    (separatorOverride : Option UInt8) (atEnd : Bool) : Except Panic (Option End) := do
  let (capped, cappedFinal) ← cap bytes atEnd
  walkFrom tokenizer bytes capped cappedFinal separator separatorOverride atEnd
    (capped.length + 1) 0 none

/-- Where the message at the start of `bytes` ends, or `none` until more bytes arrive. -/
def findEnd (tokenizer : Tokenizer) (bytes : Bytes) (separator : UInt8)
    (separatorOverride : Option UInt8) (atEnd : Bool) : Except Panic (Option End) := do
  match ← byBodyLength bytes separator atEnd with
  | .found stop => return some stop
  | .notFound => walk tokenizer bytes separator separatorOverride atEnd
  | .pending => return none

section Walk

variable {tokenizer : Tokenizer} {bytes capped : Bytes} {cappedFinal : Bool} {separator : UInt8}
  {separatorOverride : Option UInt8} {atEnd : Bool} {pos : ℕ} {dataLen : Option ℕ}

theorem checkedEnd_eq (hlen : capped.length ≤ u32Max) {next : Option (RawField × ℕ)}
    (hnext : Message.nextField capped pos dataLen separator = next) :
    checkedEnd capped dataLen next = .ok (Log.checkedEnd capped dataLen next) := by
  cases next with
  | none => rfl
  | some read =>
    obtain ⟨field, after⟩ := read
    obtain ⟨-, -, hle, -⟩ := nextField_bounds hlen hnext
    simp only [checkedEnd, sub_eq hle, bind_ok, pure_eq, Log.checkedEnd, Option.elim_some]
    split <;> rfl

/-- Where a walk stands: at the message's start, which is no separator, or behind a field. -/
structure WalksFrom (capped : Bytes) (separator : UInt8) (pos : ℕ) (dataLen : Option ℕ) :
    Prop where
  pos_le : pos ≤ capped.length
  first : pos = 0 → dataLen = none ∧ ∃ b, capped[0]? = some b ∧ b ≠ separator

/-- The bytes a round searches: at least the first byte is behind it. -/
theorem WalksFrom.le_checkedEnd (h : WalksFrom capped separator pos dataLen)
    (hlen : capped.length ≤ u32Max) {next : Option (RawField × ℕ)}
    (hnext : Message.nextField capped pos dataLen separator = next) :
    max pos 1 ≤ Log.checkedEnd capped dataLen next := by
  have hle := h.pos_le
  have hfirst : pos = 0 → 1 ≤ capped.length := by
    intro hzero
    obtain ⟨-, b, hb, -⟩ := h.first hzero
    exact (List.getElem?_eq_some_iff.mp hb).1
  cases next with
  | none =>
    simp only [Log.checkedEnd, Option.elim_none]
    omega
  | some read =>
    obtain ⟨field, after⟩ := read
    obtain ⟨-, hpos, hvalue, hend⟩ := nextField_bounds hlen hnext
    have hread : pos = 0 → 1 ≤ field.valueEnd ∧ dataLen = none := by
      rintro rfl
      obtain ⟨hdata, b, hb, hne⟩ := h.first rfl
      refine ⟨?_, hdata⟩
      obtain ⟨-, ⟨delimiter, -, -, hstart, -⟩ | ⟨htagEnd, -⟩⟩ := (nextField_iff hlen).mp hnext
      · omega
      · -- a field without `=` ends at a separator, which the first byte is not
        by_contra hzero
        have hsep := (findTagEnd_eq_separator_iff.mp htagEnd).2.1
        rw [show field.valueEnd = 0 by omega, hb] at hsep
        exact hne (Option.some.inj hsep)
    simp only [Log.checkedEnd, Option.elim_some]
    split
    · next hdata =>
      rcases Nat.eq_zero_or_pos pos with hzero | hpos'
      · rw [(hread hzero).2] at hdata
        cases hdata
      · omega
    · rcases Nat.eq_zero_or_pos pos with hzero | hpos'
      · have := (hread hzero).1
        omega
      · omega

theorem walkStep_eq (hcapped : capped <+: bytes) (hlen : capped.length ≤ u32Max)
    (h : WalksFrom capped separator pos dataLen) :
    walkStep tokenizer bytes capped cappedFinal separator separatorOverride atEnd pos dataLen =
      .ok (Log.walkStep tokenizer bytes capped cappedFinal separator separatorOverride atEnd pos
        dataLen) := by
  have hle := hcapped.length_le
  unfold walkStep Log.walkStep
  simp only [nextField_eq hlen, bind_ok, pure_eq]
  generalize hnext : Message.nextField capped pos dataLen separator = next
  split
  · rfl
  have hlo := h.le_checkedEnd hlen hnext
  have hhi : Log.checkedEnd capped dataLen next ≤ capped.length := checkedEnd_le hlen hnext
  rw [checkedEnd_eq hlen hnext, bind_ok]
  generalize Log.checkedEnd capped dataLen next = checked at hlo hhi ⊢
  -- The slice that is searched starts at or before the end that is checked.
  rw [slice_eq hlo hhi, bind_ok]
  have hbreak : ((Foundation.slice capped (max pos 1) checked).findIdx? (· == lineFeed)).map
      (max pos 1 + ·) = findFrom (· == lineFeed) (capped.take checked) (max pos 1) := rfl
  simp only [hbreak]
  -- The search for a start ends within the bytes, with a line feed or without.
  have hsearch : (findFrom (· == lineFeed) (capped.take checked) (max pos 1)).getD checked ≤
      bytes.length := by
    cases hfind : findFrom (· == lineFeed) (capped.take checked) (max pos 1) with
    | none => simpa using hhi.trans hle
    | some offset =>
      have hlt := (findFrom_lt hfind).2
      rw [List.length_take] at hlt
      simp only [Option.getD_some]
      omega
  rw [findStart_eq hsearch, bind_ok]
  -- A start that is found or pending is the answer; the line feed and the field matter only where
  -- there is none.
  cases Log.findStart bytes (max pos 1)
      ((findFrom (· == lineFeed) (capped.take checked) (max pos 1)).getD checked)
      separatorOverride atEnd with
  | found start => rfl
  | pending offset => rfl
  | notFound =>
    simp only
    cases hfind : findFrom (· == lineFeed) (capped.take checked) (max pos 1) with
    | some offset =>
      obtain ⟨hoffset, hlt⟩ := findFrom_lt hfind
      rw [List.length_take] at hlt
      simp only
      rw [atLineBreak_eq (by omega) (by omega), bind_ok]
    | none =>
      cases next with
      | none => rfl
      | some read =>
        obtain ⟨field, after⟩ := read
        obtain ⟨rfl, -, hvalue, hend⟩ := nextField_bounds hlen hnext
        simp only
        split
        · rfl
        next hshort =>
        split
        · rw [afterMessage_eq (by omega), bind_ok]
        · rw [pendingDataLen_eq hvalue hend, bind_ok]

theorem walkFrom_eq (hcapped : capped <+: bytes) (hlen : capped.length ≤ u32Max) {fuel : ℕ}
    (h : WalksFrom capped separator pos dataLen) (hfuel : capped.length < fuel + pos) :
    walkFrom tokenizer bytes capped cappedFinal separator separatorOverride atEnd fuel pos dataLen =
      .ok (Log.walkFrom tokenizer bytes capped cappedFinal separator separatorOverride atEnd pos
        dataLen) := by
  induction fuel generalizing pos dataLen with
  | zero =>
    have := h.pos_le
    omega
  | succ fuel ih =>
    rw [walkFrom, walkStep_eq hcapped hlen h, bind_ok, Log.walkFrom.eq_def]
    cases hstep : Log.walkStep tokenizer bytes capped cappedFinal separator separatorOverride atEnd
        pos dataLen with
    | done stop => rfl
    | next pos' dataLen' =>
      obtain ⟨field, hread, -⟩ := walkStep_eq_next hstep
      have hlt := (nextField_lt hread).1
      exact ih ⟨le_of_walkStep_eq_next hlen hstep, by omega⟩ (by omega)

theorem findEnd_eq (hfirst : ∃ b, bytes[0]? = some b ∧ b ≠ carriageReturn ∧ b ≠ separator) :
    findEnd tokenizer bytes separator separatorOverride atEnd =
      .ok (Log.findEnd tokenizer bytes separator separatorOverride atEnd) := by
  obtain ⟨b, hb, hcr, hsep⟩ := hfirst
  obtain ⟨hcapped, hlen⟩ := cap_isPrefix bytes atEnd
  unfold findEnd Log.findEnd
  rw [byBodyLength_eq, bind_ok]
  cases Log.byBodyLength bytes separator atEnd with
  | found stop => rfl
  | pending => rfl
  | notFound =>
    simp only [walk, cap_eq, bind_ok]
    exact walkFrom_eq hcapped (hlen.trans (by decide))
      ⟨Nat.zero_le _, fun _ => ⟨rfl, b, cap_getElem?_zero hb hcr, hsep⟩⟩ (by omega)

end Walk

/-! ## Messages logged with `^A` -/

/-- A copy of `line` with SOH for each `^A`, made in at most `fuel` rounds. -/
def restoreSoh : ℕ → Bytes → Except Panic Bytes
  | 0, _ => .error .outOfFuel
  | fuel + 1, line => do
    match findPattern caretABytes line with
    | none => return line
    | some offset =>
      let before ← sliceTo line offset
      let rest ← sliceFrom line (offset + 2)
      return before ++ soh :: (← restoreSoh fuel rest)

/-- The offset in `logLine` of the byte at `offset` in its `copy`. -/
def originalOffset (logLine copy : Bytes) (offset : ℕ) : Except Panic ℕ := do
  (← sliceTo copy offset).foldlM (fun pos byte => do
    if byte = soh then
      if (← index logLine pos) = caret then return pos + 2 else return pos + 1
    else return pos + 1) 0

/-- The line at the start of `bytes` and the bytes it takes with its line break, or `none`
until its line break arrives. -/
def findLine (bytes : Bytes) (atEnd : Bool) : Except Panic (Option (Bytes × ℕ)) := do
  let capped ← sliceTo bytes (min bytes.length maxMessageLen)
  match capped.findIdx? (· == lineFeed) with
  | some offset =>
    let line ← sliceTo capped offset
    let line := if line.getLast? = some carriageReturn then line.dropLast else line
    return some (line, offset + 1)
  | none =>
    if atEnd = true ∨ capped.length = maxMessageLen then return some (capped, capped.length)
    else return none

/-- The message at the start of `bytes` with SOH restored, and its end in `bytes`. -/
def copyMessage (tokenizer : Tokenizer) (bytes : Bytes) (atEnd : Bool) :
    Except Panic (Option (End × Bytes)) := do
  match ← findLine bytes atEnd with
  | none => return none
  | some (line, lineConsumed) =>
    let copy ← restoreSoh (line.length + 1) line
    match ← findEnd tokenizer copy soh none true with
    | none => return none
    | some stop =>
      let len ← originalOffset line copy stop.len
      let consumed := if len = line.length then lineConsumed else len
      return some (⟨len, consumed, stop.truncated⟩, copy.take stop.len)

section CaretA

variable {tokenizer : Tokenizer} {bytes logLine : Bytes} {atEnd : Bool}

theorem restoreSoh_eq {fuel : ℕ} (hfuel : logLine.length < fuel) :
    restoreSoh fuel logLine = .ok (Log.restoreSoh logLine) := by
  induction fuel generalizing logLine with
  | zero => omega
  | succ fuel ih =>
    rw [restoreSoh, Log.restoreSoh.eq_def]
    cases hfind : findPattern caretABytes logLine with
    | none => rfl
    | some offset =>
      obtain ⟨hle, hat, -⟩ := findPattern_eq_some hfind
      have hlen := hat.length_le
      rw [List.length_drop, show caretABytes.length = 2 from rfl] at hlen
      have hrest : offset + 2 ≤ logLine.length := by omega
      simp only [sliceTo_eq hle, sliceFrom_eq hrest, bind_ok]
      rw [ih (by rw [List.length_drop]; omega)]
      rfl

/-- Each byte of the copy was copied from a byte of the line. -/
theorem originalOffset_eq {offset : ℕ} (h : offset ≤ (Log.restoreSoh logLine).length) :
    originalOffset logLine (Log.restoreSoh logLine) offset =
      .ok (Log.originalOffset logLine (Log.restoreSoh logLine) offset) := by
  unfold originalOffset
  rw [sliceTo_eq h, bind_ok]
  induction offset with
  | zero => rfl
  | succ offset ih =>
    -- the byte after it is still within the line, so this one is
    have hle := (originalOffset_spec logLine h).2.1
    have hlt : offset < (Log.restoreSoh logLine).length := h
    unfold Log.originalOffset at hle ih ⊢
    rw [List.take_succ_eq_append_getElem hlt] at hle ⊢
    rw [List.foldlM_append, ih hlt.le, bind_ok]
    rw [List.foldl_append, List.foldl_cons, List.foldl_nil] at hle ⊢
    generalize ((Log.restoreSoh logLine).take offset).foldl _ 0 = pos at hle ⊢
    have hpos : pos < logLine.length := by
      split at hle <;> omega
    have hget : logLine[pos]? = some logLine[pos] := List.getElem?_eq_getElem hpos
    simp only [List.foldlM_cons, List.foldlM_nil, index_eq hget, bind_ok, pure_eq, hget,
      Option.some.injEq]
    split
    · next hsoh =>
      by_cases hcaret : logLine[pos] = caret
      · simp [hsoh, hcaret]
      · simp [hsoh, hcaret]
    · next hsoh => simp [hsoh]

theorem findLine_eq (bytes : Bytes) (atEnd : Bool) :
    findLine bytes atEnd = .ok (Log.findLine bytes atEnd) := by
  unfold findLine Log.findLine
  rw [sliceTo_eq (Nat.min_le_left _ _), bind_ok]
  simp only
  cases hfind : (bytes.take (min bytes.length maxMessageLen)).findIdx? (· == lineFeed) with
  | none =>
    simp only
    split <;> rfl
  | some offset =>
    have hlt := (List.findIdx?_eq_some_iff_getElem.mp hfind).1
    simp only [sliceTo_eq hlt.le, bind_ok, pure_eq]

/-- The copy of a line opens with the line's first byte, if that is no `^`. -/
theorem restoreSoh_getElem?_zero {b : UInt8} (hb : logLine[0]? = some b) (hne : b ≠ caret) :
    (Log.restoreSoh logLine)[0]? = some b := by
  cases logLine with
  | nil => simp at hb
  | cons c rest =>
    obtain rfl : c = b := by simpa using hb
    rw [restoreSoh_cons, List.getElem?_cons_zero]
    rintro ⟨after, hafter⟩
    exact hne (List.cons.inj hafter).1.symm

theorem copyMessage_eq
    (hfirst : ∃ b, bytes[0]? = some b ∧ b ≠ carriageReturn ∧ b ≠ lineFeed ∧ b ≠ caret ∧ b ≠ soh) :
    copyMessage tokenizer bytes atEnd = .ok (Log.copyMessage tokenizer bytes atEnd) := by
  obtain ⟨b, hb, hcr, hlf, hcaret, hsoh⟩ := hfirst
  unfold copyMessage Log.copyMessage
  rw [findLine_eq, bind_ok]
  cases hline : Log.findLine bytes atEnd with
  | none => rfl
  | some found =>
    obtain ⟨logLine, lineConsumed⟩ := found
    obtain ⟨htake, hwithin⟩ := findLine_within false ⟨b, hb, hcr, hlf⟩ hline
    have hcopy : (Log.restoreSoh logLine)[0]? = some b := by
      apply restoreSoh_getElem?_zero _ hcaret
      rw [htake, List.getElem?_take_of_lt hwithin.len_pos, hb]
    simp only [restoreSoh_eq (Nat.lt_succ_self _), bind_ok, findEnd_eq ⟨b, hcopy, hcr, hsoh⟩,
      Option.bind_eq_bind, Option.bind_some, pure_eq]
    cases hend : Log.findEnd tokenizer (Log.restoreSoh logLine) soh none true with
    | none => rfl
    | some stop =>
      have hstop := findEnd_within ⟨b, hcopy, hcr⟩ hend
      simp only [originalOffset_eq (hstop.len_le.trans hstop.consumed_le), bind_ok]
      rfl

end CaretA

/-! ## Diagnostics -/

/-- What could not be verified about the trailer of a message. -/
def diagnoseTrailer (bytes : Bytes) (fields : List RawField) (separator : UInt8)
    (bodyLength : Option RawField) (declaredLength : Option ℕ) :
    Except Panic (List LogDiagnostic) := do
  match fields.getLast? with
  | none => return []
  | some checksum =>
    let trailerStart := (fields.dropLast.getLast?).elim 0 (·.valueEnd + 1)
    let mismatch := bodyLength.any fun field => declaredLength.any fun declared =>
      field.valueEnd + 1 + declared != trailerStart
    let stated ← fieldValue bytes checksum
    let checked ←
      if stated.length = 3 ∧ stated.all isAsciiDigit = true then do
        let calculated := calculateChecksum (← sliceTo bytes trailerStart) separator
        pure (if parseU32 stated ≠ some calculated.toNat then [.checksumMismatch] else [])
      else pure [.malformedChecksum]
    return (if mismatch then [.bodyLengthMismatch] else []) ++ checked

/-- What could not be verified about the message in `bytes`. -/
def diagnose (bytes : Bytes) (fields : List RawField) (separator : UInt8) (truncated : Bool) :
    Except Panic (List LogDiagnostic) := do
  let bodyLength := fields[1]?.filter (·.tag == bodyLengthTag)
  let declaredLength ←
    match bodyLength with
    | some field => do pure (parseU32 (← fieldValue bytes field))
    | none => pure none
  let msgTypeIndex := if bodyLength.isSome then 2 else 1
  let trailer ←
    if truncated then pure [.truncated]
    else diagnoseTrailer bytes fields separator bodyLength declaredLength
  return (if bodyLength.isNone then [.missingBodyLength]
      else if declaredLength.isNone then [.malformedBodyLength] else []) ++
    (if fields[msgTypeIndex]?.map (·.tag) ≠ some msgTypeTag then [.missingMsgType] else []) ++
    trailer

section Diagnose

variable {tokenizer : Tokenizer} {bytes : Bytes} {separator : UInt8}

theorem diagnoseTrailer_eq (hlen : bytes.length ≤ u32Max) (bodyLength : Option RawField)
    (declaredLength : Option ℕ) :
    diagnoseTrailer bytes (tokenizer.tokenizeFields bytes separator) separator bodyLength
        declaredLength =
      .ok (Log.diagnoseTrailer bytes (tokenizer.tokenizeFields bytes separator) separator
        bodyLength declaredLength) := by
  have hstart : tokenizer.Reads bytes separator [] 0 none := .start
  obtain ⟨pos, dataLen, hreads, -⟩ := hstart.exists_end
  unfold diagnoseTrailer Log.diagnoseTrailer
  cases hlast : (tokenizer.tokenizeFields bytes separator).getLast? with
  | none => rfl
  | some checksum =>
    have hmem := List.mem_of_getLast? hlast
    obtain ⟨hvalue, hend⟩ := hreads.bounds hlen checksum hmem
    have hsplit := List.dropLast_append_getLast? checksum hlast
    -- the last field was read from where the ones before it end
    rw [← hsplit] at hreads
    obtain ⟨pos', dataLen', hbefore, hread⟩ := hreads.exists_last
    have hstart := hbefore.getLast?_eq hlen
    have hlt := (nextField_lt hread).2
    rw [hstart] at hlt
    simp only [fieldValue_eq hvalue hend, bind_ok, sliceTo_eq hlt.le, pure_eq]
    split <;> rfl

theorem diagnose_eq (hlen : bytes.length ≤ u32Max) (truncated : Bool) :
    diagnose bytes (tokenizer.tokenizeFields bytes separator) separator truncated =
      .ok (Log.diagnose bytes (tokenizer.tokenizeFields bytes separator) separator truncated) := by
  have hstart : tokenizer.Reads bytes separator [] 0 none := .start
  obtain ⟨pos, dataLen, hreads, -⟩ := hstart.exists_end
  unfold diagnose Log.diagnose
  have hbounds : ∀ field, (tokenizer.tokenizeFields bytes separator)[1]?.filter
      (·.tag == bodyLengthTag) = some field → fieldValue bytes field = .ok (field.value bytes) := by
    intro field hfield
    have hmem := List.mem_of_getElem? (Option.filter_eq_some_iff.mp hfield).1
    obtain ⟨hvalue, hend⟩ := hreads.bounds hlen field hmem
    exact fieldValue_eq hvalue hend
  generalize (tokenizer.tokenizeFields bytes separator)[1]?.filter (·.tag == bodyLengthTag) =
    bodyLength at hbounds ⊢
  cases bodyLength with
  | none =>
    simp only [pure_eq, bind_ok, diagnoseTrailer_eq hlen]
    cases truncated <;> rfl
  | some field =>
    simp only [hbounds field rfl, pure_eq, bind_ok, diagnoseTrailer_eq hlen]
    cases truncated <;> rfl

end Diagnose

/-! ## Reading -/

/-- Drops the oldest bytes of a prefix of `len` bytes past the cap, and returns its length
after. -/
def capPrefix (reader : LogReader) (len : ℕ) : Except Panic (ℕ × LogReader) := do
  if len ≤ maxPrefixLen then return (len, reader)
  else
    let buf ← sliceFrom reader.buf (← sub len maxPrefixLen)
    return (maxPrefixLen, { reader with buf := buf, prefixTruncated := true })

/-- The end of the message at the start of `rest`, its copy if it was logged with `^A`, and
what ends its fields. -/
def findMessage (tokenizer : Tokenizer) (separatorOverride : Option UInt8) (rest : Bytes)
    (separator : Separator) (atEnd : Bool) :
    Except Panic (Option (End × Option Bytes × UInt8)) := do
  match separator with
  | .byte separator =>
    return (← findEnd tokenizer rest separator separatorOverride atEnd).map fun stop =>
      (stop, none, separator)
  | .caretA =>
    return (← copyMessage tokenizer rest atEnd).map fun (stop, copy) => (stop, some copy, soh)

/-- Consumes and returns the next record. -/
def read (reader : LogReader) (atEnd : Bool) : Except Panic (Option LogRecord × LogReader) := do
  let next ← findStart reader.buf reader.searched reader.buf.length reader.separator atEnd
  let (prefixLen, reader) ← capPrefix reader (next.reach reader.buf.length)
  let reader := { reader with searched := prefixLen }
  match next with
  | .found start =>
    let rest ← sliceFrom reader.buf prefixLen
    match ← findMessage reader.tokenizer reader.separator rest start.separator atEnd with
    | none => return (none, reader)
    | some (stop, copy, separator) =>
      -- the prefix and the message are split off, then the line break is skipped
      let prefixBytes ← sliceTo reader.buf prefixLen
      let buf ← sliceFrom reader.buf prefixLen
      let logged ← sliceTo buf stop.len
      let buf ← sliceFrom buf stop.len
      let buf ← sliceFrom buf (← sub stop.consumed stop.len)
      let bytes := copy.getD logged
      let fields ← tokenizeFields reader.tokenizer bytes separator
      let diagnostics ← diagnose bytes fields separator stop.truncated
      return (some
        { prefixBytes := prefixBytes
          message := ⟨bytes, fields⟩
          diagnostics :=
            (if reader.prefixTruncated then [.prefixTruncated] else []) ++ diagnostics },
        { reader with buf := buf, searched := 0, prefixTruncated := false })
  | _ => return (none, reader)

section Read

variable {reader : LogReader} {atEnd : Bool}

theorem capPrefix_eq {len : ℕ} (h : len ≤ reader.buf.length) :
    capPrefix reader len = .ok (reader.capPrefix len) := by
  unfold capPrefix LogReader.capPrefix
  split
  · rfl
  · next hlong =>
    have hle : maxPrefixLen ≤ len := Nat.le_of_not_le hlong
    have hexcess : len - maxPrefixLen ≤ reader.buf.length := (Nat.sub_le _ _).trans h
    rw [sub_eq hle, bind_ok, sliceFrom_eq hexcess, bind_ok]
    rfl

theorem findMessage_eq {tokenizer : Tokenizer} {separatorOverride : Option UInt8} {rest : Bytes}
    {separator : Separator} (hstart : Log.check rest separatorOverride = .start separator) :
    findMessage tokenizer separatorOverride rest separator atEnd =
      .ok (Log.findMessage tokenizer separatorOverride rest separator atEnd) := by
  have hfirst := getElem?_zero_of_check hstart
  unfold findMessage Log.findMessage
  cases separator with
  | byte b =>
    -- a separator is no byte of a BeginString value, and so not the `8` the message opens with
    have hne : (56 : UInt8) ≠ b := by
      rintro rfl
      obtain ⟨parts, hvalid, hsep, -⟩ := check_eq_start_iff.mp hstart
      have hallowed := hvalid.separator_allowed
      rw [hsep] at hallowed
      cases hallowed.1
    simp only [findEnd_eq ⟨56, hfirst, by decide, hne⟩, bind_ok, pure_eq]
  | caretA =>
    simp only [copyMessage_eq ⟨56, hfirst, by decide, by decide, by decide, by decide⟩, bind_ok,
      pure_eq]

/-- A message is short enough for its offsets to be stored. -/
theorem length_le_of_findMessage {tokenizer : Tokenizer} {separatorOverride : Option UInt8}
    {rest : Bytes} {separator : Separator} {stop : End} {copy : Option Bytes} {fieldEnd : UInt8}
    (h : Log.findMessage tokenizer separatorOverride rest separator atEnd =
      some (stop, copy, fieldEnd)) : (copy.getD (rest.take stop.len)).length ≤ maxMessageLen := by
  cases separator with
  | byte b =>
    obtain ⟨stop, hend, heq⟩ := Option.map_eq_some_iff.mp h
    cases heq
    have hle := findEnd_len_le hend
    rw [Option.getD_none, List.length_take]
    omega
  | caretA =>
    obtain ⟨⟨stop, copy⟩, hcopy, heq⟩ := Option.map_eq_some_iff.mp h
    cases heq
    simp only [Log.copyMessage, Option.bind_eq_bind, Option.bind_eq_some_iff, Option.pure_def,
      Option.some.injEq, Prod.mk.injEq] at hcopy
    obtain ⟨⟨logLine, consumed⟩, -, stop', hend, -, rfl⟩ := hcopy
    have hle := findEnd_len_le hend
    rw [Option.getD_some, List.length_take]
    omega

/-- **No read panics**, in whatever state the reader is. -/
theorem read_eq (reader : LogReader) (atEnd : Bool) :
    read reader atEnd = .ok (reader.read atEnd) := by
  have hreach := reach_le reader atEnd
  obtain ⟨excess, kept, hsplit, -, -, hcap⟩ := capPrefix_spec reader (reader.reach atEnd)
  unfold read LogReader.read LogReader.takeMessage
  rw [findStart_eq le_rfl, bind_ok]
  have hcap' := capPrefix_eq hreach
  unfold LogReader.reach at hreach hsplit hcap hcap'
  -- Whatever the search answers, the prefix is capped first; only a start that is found reads on.
  cases hnext : Log.findStart reader.buf reader.searched reader.buf.length reader.separator atEnd with
  | pending offset =>
    rw [hnext] at hcap hcap'
    simp only [NextStart.reach] at hcap hcap' ⊢
    rw [hcap', bind_ok]
    rfl
  | notFound =>
    rw [hnext] at hcap hcap'
    simp only [NextStart.reach] at hcap hcap' ⊢
    rw [hcap', bind_ok]
    rfl
  | found start =>
    rw [hnext] at hcap hcap' hreach hsplit
    simp only [NextStart.reach] at hcap hcap' hreach hsplit ⊢
    rw [hcap', bind_ok, hcap]
    have hkept : kept ≤ (reader.buf.drop excess).length := by
      rw [List.length_drop]
      omega
    -- Capping moves the start to the front of what is kept, without changing the bytes after it.
    have hrest : (reader.buf.drop excess).drop kept = reader.buf.drop start.offset := by
      rw [List.drop_drop, hsplit]
    have hcheck := check_of_checkAt (checkAt_of_findStart hnext)
    simp only [sliceFrom_eq hkept, hrest, bind_ok, findMessage_eq hcheck]
    cases hmessage : Log.findMessage reader.tokenizer reader.separator
        (reader.buf.drop start.offset) start.separator atEnd with
    | none => rfl
    | some message =>
      obtain ⟨stop, copy, separator⟩ := message
      -- The message ends within the bytes, so its end and the line break after it can be sliced
      -- off.
      obtain ⟨hwithin, -, -⟩ := findMessage_within hcheck hmessage
      have hlen := (length_le_of_findMessage hmessage).trans
        (show maxMessageLen ≤ u32Max by decide)
      have hle := hwithin.len_le
      have hend := hwithin.consumed_le
      have hbreak : stop.consumed - stop.len ≤
          (reader.buf.drop (start.offset + stop.len)).length := by
        simp only [List.length_drop] at hend ⊢
        omega
      have hskip : start.offset + stop.len + (stop.consumed - stop.len) =
          start.offset + stop.consumed := by omega
      simp only [sliceTo_eq hkept, sliceTo_eq (hle.trans hend), sliceFrom_eq (hle.trans hend),
        sub_eq hle, List.drop_drop, sliceFrom_eq hbreak, bind_ok, tokenizeFields_eq hlen,
        diagnose_eq hlen, pure_eq, hskip]
      rfl

end Read

/-! ## Every run -/

/-- **A reader never panics.** After any calls, whatever bytes were fed and whatever the
separator, the next read passes every check and is the read of the reader without checks, and
the reader has searched no further than its bytes go. -/
theorem reads_checked (dialect : Dialect) (separator : Option UInt8) :
    (∀ reader unread, LogReader.Reached dialect separator reader unread →
      read reader false = .ok reader.nextRecord ∧ reader.searched ≤ reader.buf.length) ∧
    ∀ reader unread, LogReader.Finishing dialect separator reader unread →
      read reader true = .ok (reader.read true) ∧ reader.searched ≤ reader.buf.length :=
  ⟨fun reader _ h => ⟨read_eq reader false, (represents_of_reached h).searched_le⟩,
    fun reader _ h => ⟨read_eq reader true, searched_le_of_finishing h⟩⟩

/-- A message logged with `=` for its separator. -/
theorem reads_checked_equals :
    read ((LogReader.new Dialect.standard (some equalsSign)).feed (ascii "8=FIX.4.4=35=0=10=1="))
      true = .ok (((LogReader.new Dialect.standard (some equalsSign)).feed
        (ascii "8=FIX.4.4=35=0=10=1=")).read true) :=
  ((reads_checked Dialect.standard (some equalsSign)).2 _ _ (.finish (.feed _ .new))).1

end Refix.Log.Checked
