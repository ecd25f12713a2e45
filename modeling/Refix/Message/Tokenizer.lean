import Refix.Message.RawMessage

/-!
# Tokenizer

Splits a framed message into its fields. A field runs to the next separator, unless the
field before it is a length tag: then its value is read by that length, so that it may hold
separators itself.

The loop that reads one field after another is used by the log reader too, which splits
messages at other separators than SOH.
-/

namespace Refix.Message

open Refix.Foundation

/-! ## Length tags -/

/-- Length tags whose value gives the byte count of the immediately following data field. -/
def standardLengthTags : List Tag :=
  [90, 93, 95, 212, 348, 350, 352, 354, 356, 358, 360, 362, 364, 445, 618, 621, 1184, 1277, 1280,
    1282, 1397, 1401, 1403, 1468, 1525, 1578, 1620, 1664, 1678, 1733, 1871, 1874, 2072, 2074, 2111,
    2179, 2287, 2351, 2372, 2481, 2494, 2522, 2637, 2651, 2665, 2715, 2718, 2721, 2797, 2802, 2809,
    2815, 40004, 40008, 40978, 40980, 40982, 40984, 40986, 40988, 41083, 41101, 41107, 41256,
    41320, 41324, 41458, 41476, 41482, 41653, 41710, 41806, 41811, 41873, 41969, 42025, 42171,
    42451, 42652, 42947, 43109, 43110, 43111]

/-- How a counterparty's FIX differs from the standard. -/
structure Dialect where
  extraLengthTags : List Tag
  deriving DecidableEq, Repr

/-- Standard FIX. -/
def Dialect.standard : Dialect := ⟨[]⟩

/-- A tokenizer holds its length tags in increasing order. -/
structure Tokenizer where
  lengthTags : List Tag
  sorted : lengthTags.Pairwise (· < ·)

private theorem isChain_lt_of_le_of_ne {tags : List Tag} (hle : tags.IsChain (· ≤ ·))
    (hne : tags.IsChain (· ≠ ·)) : tags.IsChain (· < ·) := by
  induction tags with
  | nil => exact .nil
  | cons a tags ih =>
    cases tags with
    | nil => exact .singleton a
    | cons b tags =>
      rw [List.isChain_cons_cons] at hle hne ⊢
      exact ⟨lt_of_le_of_ne hle.1 hne.1, ih hle.2 hne.2⟩

/-- Equal elements of a sorted list stand together, so removing repeats leaves a strictly
increasing list. -/
theorem pairwise_lt_destutter (tags : List Tag) :
    ((tags.insertionSort (· ≤ ·)).destutter (· ≠ ·)).Pairwise (· < ·) := by
  have hle : ((tags.insertionSort (· ≤ ·)).destutter (· ≠ ·)).Pairwise (· ≤ ·) :=
    (List.pairwise_insertionSort (· ≤ ·) tags).sublist (List.destutter_sublist _ _)
  have hne : ((tags.insertionSort (· ≤ ·)).destutter (· ≠ ·)).IsChain (· ≠ ·) :=
    List.isChain_destutter _ _
  rw [← List.isChain_iff_pairwise] at hle ⊢
  exact isChain_lt_of_le_of_ne hle hne

def Tokenizer.new (dialect : Dialect) : Tokenizer where
  lengthTags := ((standardLengthTags ++
    dialect.extraLengthTags.filter (· ≠ malformed)).insertionSort (· ≤ ·)).destutter (· ≠ ·)
  sorted := pairwise_lt_destutter _

/-- Whether `tag` is among the length tags; a binary search decides it past the first. -/
def Tokenizer.isLengthTag (tokenizer : Tokenizer) (tag : Tag) : Bool :=
  tokenizer.lengthTags.head?.any (· ≤ tag) && tokenizer.lengthTags.contains tag

/-! ## Reading one field -/

/-- Parses ASCII digits into a `u32`, rejecting empty input, any non-digit and overflow. -/
def parseU32 (digits : Bytes) : Option ℕ :=
  if digits = [] ∨ digits.all isAsciiDigit = false then none else foldDigits u32Max 0 digits

inductive TagEnd where
  | equals (offset : ℕ)
  | separator (offset : ℕ)
  deriving DecidableEq, Repr

/-- Offset of the first `=` or separator at or after `pos`. -/
def findTagEnd (bytes : Bytes) (pos : ℕ) (separator : UInt8) : Option TagEnd :=
  ((bytes.drop pos).zipIdx pos).findSome? fun (byte, offset) =>
    if byte = equalsSign then some (.equals offset)
    else if byte = separator then some (.separator offset)
    else none

/-- Offset of the first separator at or after `pos`. -/
def findSeparator (bytes : Bytes) (pos : ℕ) (separator : UInt8) : Option ℕ :=
  findFrom (· == separator) bytes pos

/-- End of a length-delimited value, unless the byte right after it is no separator. -/
def dataValueEnd (bytes : Bytes) (valueStart len : ℕ) (separator : UInt8) : Option ℕ :=
  (checkedAdd usizeMax valueStart len).bind fun stop =>
    if bytes[stop]? = some separator then some stop else none

/-- End of the value at `valueStart`: by the pending length where it can be trusted, else at
the next separator, else with the bytes. -/
def fieldValueEnd (bytes : Bytes) (valueStart : ℕ) (dataLen : Option ℕ) (separator : UInt8) : ℕ :=
  ((dataLen.bind (dataValueEnd bytes valueStart · separator)).or
    (findSeparator bytes valueStart separator)).getD bytes.length

/-- The field at `pos` and the offset of the one after it. -/
def nextField (bytes : Bytes) (pos : ℕ) (dataLen : Option ℕ) (separator : UInt8) :
    Option (RawField × ℕ) :=
  match findTagEnd bytes pos separator with
  | none => none
  | some (.equals delimiter) =>
    let tag := (parseU32 (slice bytes pos delimiter)).getD malformed
    let valueStart := delimiter + 1
    let valueEnd := fieldValueEnd bytes valueStart dataLen separator
    some (⟨tag, asU32 valueStart, asU32 valueEnd⟩, valueEnd + 1)
  | some (.separator delimiter) =>
    some (⟨malformed, asU32 pos, asU32 delimiter⟩, delimiter + 1)

/-- The value of `field` when it is a well-formed length tag, so that the next field's value
can be read by extent instead of scanned for the separator. -/
def Tokenizer.pendingDataLen (tokenizer : Tokenizer) (bytes : Bytes) (field : RawField) :
    Option ℕ :=
  if tokenizer.isLengthTag field.tag then parseU32 (field.value bytes) else none

/-! ## Length tags of a dialect -/

private theorem mem_destutter' {tags : List Tag} {a tag : Tag} :
    tag ∈ tags.destutter' (· ≠ ·) a ↔ tag = a ∨ tag ∈ tags := by
  induction tags generalizing a with
  | nil => simp
  | cons b tags ih =>
    by_cases hab : a ≠ b
    · rw [List.destutter'_cons_pos _ hab, List.mem_cons, ih, List.mem_cons]
    · rw [List.destutter'_cons_neg _ hab, ih, List.mem_cons, ← not_not.mp hab]
      simp

/-- The length tags of a dialect are the standard ones and its own, the sentinel excepted. -/
theorem isLengthTag_new_iff {dialect : Dialect} {tag : Tag} :
    (Tokenizer.new dialect).isLengthTag tag = true ↔
      tag ∈ standardLengthTags ∨ tag ∈ dialect.extraLengthTags ∧ tag ≠ malformed := by
  have hmem : tag ∈ (Tokenizer.new dialect).lengthTags ↔
      tag ∈ standardLengthTags ∨ tag ∈ dialect.extraLengthTags ∧ tag ≠ malformed := by
    have hsort : ∀ tags : List Tag,
        tag ∈ (tags.insertionSort (· ≤ ·)).destutter (· ≠ ·) ↔ tag ∈ tags := by
      intro tags
      rw [← List.mem_insertionSort (· ≤ ·) (l := tags)]
      cases tags.insertionSort (· ≤ ·) with
      | nil => simp
      | cons a tags => rw [List.destutter_cons', mem_destutter', List.mem_cons]
    simp [Tokenizer.new, hsort]
  rw [← hmem, Tokenizer.isLengthTag, Bool.and_eq_true, List.contains_iff_mem]
  refine ⟨And.right, fun h => ⟨?_, h⟩⟩
  -- the first length tag is the least one
  have hsorted := (Tokenizer.new dialect).sorted
  cases htags : (Tokenizer.new dialect).lengthTags with
  | nil => simp [htags] at h
  | cons a tags =>
    rw [htags, List.pairwise_cons] at hsorted
    rw [htags, List.mem_cons] at h
    simp only [List.head?_cons, Option.any_some, decide_eq_true_eq]
    rcases h with rfl | h
    · exact le_rfl
    · exact (hsorted.1 tag h).le

/-! ## What a read field looks like -/

private theorem findSome?_zipIdx_eq (bytes : Bytes) (k : ℕ) (separator : UInt8) :
    ((bytes.zipIdx k).findSome? fun (byte, offset) =>
      if byte = equalsSign then some (TagEnd.equals offset)
      else if byte = separator then some (TagEnd.separator offset)
      else none) =
    (bytes.findIdx? fun b => b == equalsSign || b == separator).bind fun i =>
      if bytes[i]? = some equalsSign then some (TagEnd.equals (k + i))
      else some (TagEnd.separator (k + i)) := by
  induction bytes generalizing k with
  | nil => rfl
  | cons b bytes ih =>
    rw [List.zipIdx_cons, List.findSome?_cons, List.findIdx?_cons]
    by_cases heq : b = equalsSign
    · simp [heq]
    · by_cases hsep : b = separator
      · subst hsep
        simp [heq]
      · have hstep : ∀ i, k + 1 + i = k + (i + 1) := by omega
        simp only [heq, hsep, if_false, ih, hstep]
        cases bytes.findIdx? fun b => b == equalsSign || b == separator with
        | none => simp [heq, hsep]
        | some i => simp [heq, hsep]

/-- The end of a tag as a search for one of two bytes. -/
theorem findTagEnd_eq (bytes : Bytes) (pos : ℕ) (separator : UInt8) :
    findTagEnd bytes pos separator =
      (findFrom (fun b => b == equalsSign || b == separator) bytes pos).map fun offset =>
        if bytes[offset]? = some equalsSign then .equals offset else .separator offset := by
  rw [findTagEnd, findSome?_zipIdx_eq, findFrom]
  cases (bytes.drop pos).findIdx? fun b => b == equalsSign || b == separator with
  | none => rfl
  | some i =>
    simp only [Option.bind_some, Option.map_some, List.getElem?_drop]
    split <;> rfl

theorem findTagEnd_eq_equals_iff {bytes : Bytes} {pos delimiter : ℕ} {separator : UInt8} :
    findTagEnd bytes pos separator = some (.equals delimiter) ↔
      pos ≤ delimiter ∧ bytes[delimiter]? = some equalsSign ∧
        ∀ k b, pos ≤ k → k < delimiter → bytes[k]? = some b → b ≠ equalsSign ∧ b ≠ separator := by
  simp only [findTagEnd_eq, Option.map_eq_some_iff, findFrom_eq_some_iff]
  constructor
  · rintro ⟨offset, ⟨hpos, _, hbefore⟩, hend⟩
    split at hend
    · next heq =>
      obtain rfl := TagEnd.equals.inj hend
      exact ⟨hpos, heq, fun k b h₁ h₂ hb => by simpa using hbefore k b h₁ h₂ hb⟩
    · exact absurd hend (by simp)
  · rintro ⟨hpos, heq, hbefore⟩
    refine ⟨delimiter, ⟨hpos, ⟨equalsSign, heq, by simp⟩, ?_⟩, by rw [if_pos heq]⟩
    intro k b h₁ h₂ hb
    simpa using hbefore k b h₁ h₂ hb

theorem findTagEnd_eq_separator_iff {bytes : Bytes} {pos delimiter : ℕ} {separator : UInt8} :
    findTagEnd bytes pos separator = some (.separator delimiter) ↔
      pos ≤ delimiter ∧ bytes[delimiter]? = some separator ∧ separator ≠ equalsSign ∧
        ∀ k b, pos ≤ k → k < delimiter → bytes[k]? = some b → b ≠ equalsSign ∧ b ≠ separator := by
  simp only [findTagEnd_eq, Option.map_eq_some_iff, findFrom_eq_some_iff]
  constructor
  · rintro ⟨offset, ⟨hpos, ⟨b, hb, hor⟩, hbefore⟩, hend⟩
    split at hend
    · exact absurd hend (by simp)
    · next hne =>
      obtain rfl := TagEnd.separator.inj hend
      have hb' : b ≠ equalsSign := by
        rintro rfl
        exact hne hb
      obtain rfl : b = separator := by simpa [hb'] using hor
      exact ⟨hpos, hb, hb', fun k b h₁ h₂ hb => by simpa using hbefore k b h₁ h₂ hb⟩
  · rintro ⟨hpos, hsep, hne, hbefore⟩
    refine ⟨delimiter, ⟨hpos, ⟨separator, hsep, by simp⟩, ?_⟩, ?_⟩
    · intro k b h₁ h₂ hb
      simpa using hbefore k b h₁ h₂ hb
    · rw [if_neg]
      rw [hsep]
      simpa using hne

theorem findTagEnd_eq_none_iff {bytes : Bytes} {pos : ℕ} {separator : UInt8} :
    findTagEnd bytes pos separator = none ↔
      ∀ k b, pos ≤ k → bytes[k]? = some b → b ≠ equalsSign ∧ b ≠ separator := by
  simp only [findTagEnd_eq, Option.map_eq_none_iff, findFrom_eq_none_iff]
  constructor <;> intro h k b hk hb <;> simpa using h k b hk hb

/-- A value ends behind its start, and within the bytes. -/
theorem le_fieldValueEnd {bytes : Bytes} {valueStart : ℕ} (dataLen : Option ℕ)
    (separator : UInt8) (h : valueStart ≤ bytes.length) :
    valueStart ≤ fieldValueEnd bytes valueStart dataLen separator ∧
      fieldValueEnd bytes valueStart dataLen separator ≤ bytes.length := by
  unfold fieldValueEnd
  cases hdata : dataLen.bind (dataValueEnd bytes valueStart · separator) with
  | some stop =>
    obtain ⟨len, -, hstop⟩ := Option.bind_eq_some_iff.mp hdata
    obtain ⟨sum, hsum, hstop⟩ := Option.bind_eq_some_iff.mp hstop
    rw [Option.some_or, Option.getD_some]
    simp only [checkedAdd, Option.ite_none_right_eq_some, Option.some.injEq] at hsum hstop
    obtain ⟨hbyte, rfl⟩ := hstop
    have := (List.getElem?_eq_some_iff.mp hbyte).1
    omega
  | none =>
    rw [Option.none_or]
    cases hsep : findSeparator bytes valueStart separator with
    | some stop =>
      have := findFrom_lt hsep
      rw [Option.getD_some]
      omega
    | none =>
      rw [Option.getD_none]
      exact ⟨h, le_rfl⟩

/-- Reading a field moves forward, and there is a field only where there are bytes. -/
theorem nextField_lt {bytes : Bytes} {pos next : ℕ} {dataLen : Option ℕ} {separator : UInt8}
    {field : RawField} (h : nextField bytes pos dataLen separator = some (field, next)) :
    pos < next ∧ pos < bytes.length := by
  unfold nextField at h
  split at h
  · exact absurd h (by simp)
  · next delimiter hend =>
    obtain ⟨hpos, heq, -⟩ := findTagEnd_eq_equals_iff.mp hend
    have hlt := (List.getElem?_eq_some_iff.mp heq).1
    have hstart : delimiter + 1 ≤ bytes.length := by omega
    have hle := (le_fieldValueEnd dataLen separator hstart).1
    obtain ⟨-, rfl⟩ := Prod.mk.inj (Option.some.inj h)
    omega
  · next delimiter hend =>
    obtain ⟨hpos, hsep, -⟩ := findTagEnd_eq_separator_iff.mp hend
    have hlt := (List.getElem?_eq_some_iff.mp hsep).1
    obtain ⟨-, rfl⟩ := Prod.mk.inj (Option.some.inj h)
    omega

/-! ## Tokenizing -/

/-- The fields from `pos` on, the first of them read with the pending length `dataLen`. -/
def Tokenizer.tokenizeFrom (tokenizer : Tokenizer) (bytes : Bytes) (separator : UInt8) (pos : ℕ)
    (dataLen : Option ℕ) : List RawField :=
  match _h : nextField bytes pos dataLen separator with
  | none => []
  | some (field, next) =>
    field :: tokenizer.tokenizeFrom bytes separator next (tokenizer.pendingDataLen bytes field)
termination_by bytes.length + 1 - pos
decreasing_by
  have := nextField_lt _h
  omega

/-- Splits `bytes` into fields ended by `separator`. -/
def Tokenizer.tokenizeFields (tokenizer : Tokenizer) (bytes : Bytes) (separator : UInt8) :
    List RawField :=
  tokenizer.tokenizeFrom bytes separator 0 none

/-- Issues that can arise when the bytes handed to the tokenizer are not a valid message. -/
inductive TokenizeError where
  | garbled (reason : GarbledReason)
  | incomplete
  | trailingBytes (frameLen : ℕ)
  | tooLargeToIndex
  deriving DecidableEq, Repr

def checkFrame (bytes : Bytes) : Except TokenizeError Unit :=
  let scanner : Scanner := ⟨u32Max⟩
  match scanner.scan bytes with
  | .frame frame =>
    if frame.bytes.length ≠ bytes.length then .error (.trailingBytes frame.bytes.length)
    else .ok ()
  | .incomplete => .error .incomplete
  | .garbled .frameTooLarge _ => .error .tooLargeToIndex
  | .garbled reason _ => .error (.garbled reason)

/-- Tokenises exactly one complete FIX message. -/
def Tokenizer.tokenize (tokenizer : Tokenizer) (bytes : Bytes) :
    Except TokenizeError RawMessage := do
  checkFrame bytes
  return ⟨bytes, tokenizer.tokenizeFields bytes soh⟩

end Refix.Message
