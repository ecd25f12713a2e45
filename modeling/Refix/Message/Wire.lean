import Refix.Message.Fields
import Refix.Message.Stream

/-!
# The Wire Format

Writing a message, and reading it back. A field is written as its tag, `=`, its value and a
separator. The value may hold separators where the field before it is a length tag that
counts it, so whether a list of fields can be read back depends on the length each field
leaves pending: `Tokenizer.Delimits` follows that length along the list.

`tokenize_wire` is the round trip for whole messages.
-/

namespace Refix.Message

open Refix.Foundation

/-! ## One field -/

/-- A field on the wire. -/
def wireField (separator : UInt8) (tagBytes value : Bytes) : Bytes :=
  tagBytes ++ equalsSign :: (value ++ [separator])

@[simp] theorem length_wireField (separator : UInt8) (tagBytes value : Bytes) :
    (wireField separator tagBytes value).length = tagBytes.length + value.length + 2 := by
  simp only [wireField, List.length_append, List.length_cons, List.length_nil]
  omega

/-- The index entry of a field written at `pos`. -/
def fieldAt (pos : ℕ) (tagBytes value : Bytes) : RawField where
  tag := (parseU32 tagBytes).getD malformed
  valueStart := pos + tagBytes.length + 1
  valueEnd := pos + tagBytes.length + 1 + value.length

section WireField

variable {before after tagBytes value : Bytes} {separator : UInt8} {dataLen : Option ℕ}

theorem value_fieldAt :
    (fieldAt before.length tagBytes value).value
      (before ++ (wireField separator tagBytes value ++ after)) = value := by
  have h := slice_middle (before ++ tagBytes ++ [equalsSign]) value ([separator] ++ after)
  simp only [List.length_append, List.length_singleton] at h
  simpa [RawField.value, fieldAt, wireField] using h

private theorem getElem?_wireField :
    (before ++ (wireField separator tagBytes value ++ after))[before.length +
      tagBytes.length + 1 + value.length]? = some separator := by
  have hsplit : before ++ (wireField separator tagBytes value ++ after) =
      (before ++ tagBytes ++ equalsSign :: value) ++ separator :: after := by
    simp [wireField]
  have hlen : before.length + tagBytes.length + 1 + value.length =
      (before ++ tagBytes ++ equalsSign :: value).length := by
    simp only [List.length_append, List.length_cons]
    omega
  rw [hsplit, hlen, List.getElem?_append_right le_rfl, Nat.sub_self, List.getElem?_cons_zero]

/-- A value that its pending length counts ends where it was written to end. -/
theorem valueEnd_of_length :
    ValueEnd (before ++ (wireField separator tagBytes value ++ after)) separator
      (before.length + tagBytes.length + 1) (some value.length)
      (before.length + tagBytes.length + 1 + value.length) :=
  .byLength rfl getElem?_wireField

/-- So does a value without separators whose pending length leads to no other one. -/
theorem valueEnd_of_notMem (dataLen : Option ℕ) (hvalue : separator ∉ value)
    (hdata : ∀ len, dataLen = some len → len ≠ value.length →
      (before ++ (wireField separator tagBytes value ++ after))[before.length +
        tagBytes.length + 1 + len]? ≠ some separator) :
    ValueEnd (before ++ (wireField separator tagBytes value ++ after)) separator
      (before.length + tagBytes.length + 1) dataLen
      (before.length + tagBytes.length + 1 + value.length) := by
  by_cases hlen : dataLen = some value.length
  · rw [hlen]
    exact valueEnd_of_length
  · refine .scanned ?_ ?_
    · intro len hdataLen
      apply hdata len hdataLen
      rintro rfl
      exact hlen hdataLen
    · have hrun : ∀ b ∈ value, (b == separator) = false := by
        intro b hb
        rw [beq_eq_false_iff_ne]
        rintro rfl
        exact hvalue hb
      have hfind := findFrom_append_run (before ++ tagBytes ++ [equalsSign]) value after hrun
        (x := separator) (by simp)
      simp only [List.length_append, List.length_singleton, List.append_assoc] at hfind
      simpa [findSeparator, wireField, Nat.add_assoc] using hfind

theorem findTagEnd_wireField (htag : ∀ b ∈ tagBytes, b ≠ equalsSign ∧ b ≠ separator) :
    findTagEnd (before ++ (wireField separator tagBytes value ++ after)) before.length separator =
      some (.equals (before.length + tagBytes.length)) := by
  refine findTagEnd_eq_equals_iff.mpr ⟨Nat.le_add_right _ _, ?_, ?_⟩
  · rw [List.getElem?_append_right (Nat.le_add_right _ _), Nat.add_sub_cancel_left, wireField,
      List.append_assoc, List.getElem?_append_right le_rfl, Nat.sub_self]
    rfl
  · intro k b hk hlt hb
    rw [List.getElem?_append_right hk, wireField, List.append_assoc,
      List.getElem?_append_left (by omega)] at hb
    exact htag b (List.mem_of_getElem? hb)

/-- **A written field is read back.** -/
theorem nextField_wireField
    (hlen : (before ++ (wireField separator tagBytes value ++ after)).length ≤ u32Max)
    (htag : ∀ b ∈ tagBytes, b ≠ equalsSign ∧ b ≠ separator)
    (hvalue : ValueEnd (before ++ (wireField separator tagBytes value ++ after)) separator
      (before.length + tagBytes.length + 1) dataLen
      (before.length + tagBytes.length + 1 + value.length)) :
    nextField (before ++ (wireField separator tagBytes value ++ after)) before.length dataLen
        separator =
      some (fieldAt before.length tagBytes value,
        before.length + (wireField separator tagBytes value).length) := by
  refine (nextField_iff hlen).mpr ⟨?_, Or.inl ⟨before.length + tagBytes.length,
    findTagEnd_wireField htag, ?_, rfl, hvalue⟩⟩
  · simp only [length_wireField, fieldAt]
    omega
  · have hslice := slice_middle before tagBytes (equalsSign :: (value ++ [separator]) ++ after)
    simp only [fieldAt, wireField, List.append_assoc] at hslice ⊢
    rw [hslice]

/-- **A value is read by the length that the field before it gives**, where a separator ends it. -/
theorem tokenizeFields_of_length {tokenizer : Tokenizer} {bytes : Bytes} {read : RawField} {i : ℕ}
    (hlen : bytes.length ≤ u32Max)
    (hread : (tokenizer.tokenizeFields bytes separator)[i]? = some read)
    (hpending : tokenizer.pendingDataLen bytes read = some value.length)
    (hbytes : bytes = before ++ (wireField separator tagBytes value ++ after))
    (hstart : before.length = read.valueEnd + 1)
    (htag : ∀ b ∈ tagBytes, b ≠ equalsSign ∧ b ≠ separator) :
    (tokenizer.tokenizeFields bytes separator)[i + 1]? =
      some (fieldAt before.length tagBytes value) := by
  have hnew : tokenizer.Reads bytes separator [] 0 none := .start
  obtain ⟨pos, dataLen, hall, -⟩ := hnew.exists_end
  obtain ⟨hlt, hget⟩ := List.getElem?_eq_some_iff.mp hread
  -- the loop stands at the field's end, with the length that it gives
  have hsplit : tokenizer.tokenizeFields bytes separator =
      (tokenizer.tokenizeFields bytes separator).take i ++
        read :: (tokenizer.tokenizeFields bytes separator).drop (i + 1) := by
    rw [← hget, ← List.drop_eq_getElem_cons hlt, List.take_append_drop]
  rw [hsplit] at hall
  have hreads := hall.exists_at hlen
  rw [hpending, ← hstart] at hreads
  subst hbytes
  have hnext := hreads.next (nextField_wireField hlen htag valueEnd_of_length)
  rw [hnext.tokenizeFields, List.append_assoc, List.append_assoc,
    List.getElem?_append_right (by simp)]
  have htake : ((tokenizer.tokenizeFields (before ++ (wireField separator tagBytes value ++ after))
      separator).take i).length = i := by
    rw [List.length_take, Nat.min_eq_left hlt.le]
  rw [htake, Nat.add_sub_cancel_left]
  rfl

end WireField

/-! ## A list of fields -/

/-- Fields on the wire, their tags in canonical decimal. -/
def wireFields (separator : UInt8) (fields : List (Tag × Bytes)) : Bytes :=
  fields.flatMap fun field => wireField separator (decimal field.1) field.2

/-- The length a field leaves pending for the value of the next one. -/
def Tokenizer.lengthOf (tokenizer : Tokenizer) (tag : Tag) (value : Bytes) : Option ℕ :=
  if tokenizer.isLengthTag tag then parseU32 value else none

theorem pendingDataLen_eq (tokenizer : Tokenizer) (bytes : Bytes) (field : RawField) :
    tokenizer.pendingDataLen bytes field = tokenizer.lengthOf field.tag (field.value bytes) := rfl

/-- Every value can be told from what follows it: it has the length that the field before it
leaves pending, and is free of separators if that leaves none. No length is left over. -/
def Tokenizer.Delimits (tokenizer : Tokenizer) (separator : UInt8) :
    Option ℕ → List (Tag × Bytes) → Prop
  | dataLen, [] => dataLen = none
  | none, (tag, value) :: fields =>
    separator ∉ value ∧ tokenizer.Delimits separator (tokenizer.lengthOf tag value) fields
  | some len, (tag, value) :: fields =>
    value.length = len ∧ tokenizer.Delimits separator (tokenizer.lengthOf tag value) fields

instance Tokenizer.decidableDelimits (tokenizer : Tokenizer) (separator : UInt8) :
    ∀ dataLen fields, Decidable (tokenizer.Delimits separator dataLen fields)
  | none, [] => .isTrue rfl
  | some _, [] => .isFalse nofun
  | none, (tag, value) :: fields =>
    have := decidableDelimits tokenizer separator (tokenizer.lengthOf tag value) fields
    inferInstanceAs (Decidable (separator ∉ value ∧ _))
  | some len, (tag, value) :: fields =>
    have := decidableDelimits tokenizer separator (tokenizer.lengthOf tag value) fields
    inferInstanceAs (Decidable (value.length = len ∧ _))

/-- A field of a message with its value. -/
def RawField.entry (bytes : Bytes) (field : RawField) : Tag × Bytes :=
  (field.tag, field.value bytes)

theorem ne_of_mem_decimal {separator : UInt8} (hsep : isAsciiDigit separator = false) (n : ℕ) :
    ∀ b ∈ decimal n, b ≠ equalsSign ∧ b ≠ separator := by
  intro b hb
  have hdigit := isAsciiDigit_of_mem_decimal hb
  constructor
  · rintro rfl
    exact absurd hdigit (by decide)
  · rintro rfl
    rw [hsep] at hdigit
    cases hdigit

/-- **The field loop reads written fields back**, from any position it reaches. -/
theorem Tokenizer.Reads.wireFields {tokenizer : Tokenizer} {separator : UInt8}
    (hsep : isAsciiDigit separator = false) {fields : List (Tag × Bytes)}
    (htags : ∀ field ∈ fields, field.1 ≤ u32Max) {before after : Bytes} {acc : List RawField}
    {dataLen : Option ℕ}
    (hlen : (before ++ (Message.wireFields separator fields ++ after)).length ≤ u32Max)
    (hreads : tokenizer.Reads (before ++ (Message.wireFields separator fields ++ after)) separator
      acc before.length dataLen)
    (hdelimits : tokenizer.Delimits separator dataLen fields) :
    ∃ read, tokenizer.Reads (before ++ (Message.wireFields separator fields ++ after)) separator
        (acc ++ read) (before ++ Message.wireFields separator fields).length none ∧
      read.map (RawField.entry (before ++ (Message.wireFields separator fields ++ after))) =
        fields := by
  induction fields generalizing before acc dataLen with
  | nil =>
    obtain rfl : dataLen = none := by
      cases dataLen with
      | none => rfl
      | some len => simp [Tokenizer.Delimits] at hdelimits
    exact ⟨[], by simpa [Message.wireFields] using hreads, rfl⟩
  | cons field fields ih =>
    obtain ⟨tag, value⟩ := field
    have hsplit : before ++ (Message.wireFields separator ((tag, value) :: fields) ++ after) =
        before ++ (wireField separator (decimal tag) value ++
          (Message.wireFields separator fields ++ after)) := by
      simp [Message.wireFields]
    have hsplit' : before ++ (Message.wireFields separator ((tag, value) :: fields) ++ after) =
        (before ++ wireField separator (decimal tag) value) ++
          (Message.wireFields separator fields ++ after) := by
      simp [Message.wireFields]
    have hvalue : ValueEnd (before ++ (wireField separator (decimal tag) value ++
          (Message.wireFields separator fields ++ after))) separator
        (before.length + (decimal tag).length + 1) dataLen
        (before.length + (decimal tag).length + 1 + value.length) := by
      cases dataLen with
      | none => exact valueEnd_of_notMem none hdelimits.1 (fun _ h => by cases h)
      | some len =>
        obtain rfl : value.length = len := hdelimits.1
        exact valueEnd_of_length
    rw [hsplit] at hreads hlen
    have hread := nextField_wireField hlen (ne_of_mem_decimal hsep tag) hvalue
    have hstep := hreads.next hread
    -- the field that was read is the field written
    have hentry : (fieldAt before.length (decimal tag) value).entry (before ++
        (wireField separator (decimal tag) value ++
          (Message.wireFields separator fields ++ after))) = (tag, value) := by
      rw [RawField.entry, value_fieldAt, fieldAt,
        parseU32_decimal (htags (tag, value) (List.mem_cons_self ..)), Option.getD_some]
    have hpending : tokenizer.pendingDataLen (before ++
        (wireField separator (decimal tag) value ++
          (Message.wireFields separator fields ++ after)))
        (fieldAt before.length (decimal tag) value) = tokenizer.lengthOf tag value := by
      rw [pendingDataLen_eq]
      rw [RawField.entry, Prod.mk.injEq] at hentry
      rw [hentry.1, hentry.2]
    have hrest : tokenizer.Delimits separator (tokenizer.lengthOf tag value) fields := by
      cases dataLen <;> exact hdelimits.2
    rw [hpending, ← List.length_append] at hstep
    rw [← hsplit, hsplit'] at hstep hlen
    obtain ⟨read, hreads', hentries⟩ :=
      ih (fun field hmem => htags field (List.mem_cons_of_mem _ hmem)) hlen hstep hrest
    refine ⟨fieldAt before.length (decimal tag) value :: read, ?_, ?_⟩
    · rw [hsplit']
      simpa [Message.wireFields] using hreads'
    · rw [List.map_cons, hsplit', hentries, ← hsplit', hsplit, hentry]

/-! ## Whole messages -/

/-- The parts of a message with the given BeginString and body fields. -/
def wireParts (version : Bytes) (body : List (Tag × Bytes)) : FrameParts :=
  let region := wireFields soh body
  let parts : FrameParts := ⟨version, decimal region.length, region, []⟩
  { parts with checksum := threeDigits ((parts.head.map UInt8.toNat).sum % 256) }

/-- A message on the wire. -/
def wireMessage (version : Bytes) (body : List (Tag × Bytes)) : Bytes :=
  (wireParts version body).bytes

/-- A BeginString value that the scanner accepts. -/
structure ValidVersion (version : Bytes) : Prop where
  fix : ascii "FIX" <+: version
  soh_notMem : soh ∉ version
  length_le : (ascii "8=" ++ version).length ≤ 16

/-- The fields of a message, envelope included. -/
def wireEntries (version : Bytes) (body : List (Tag × Bytes)) : List (Tag × Bytes) :=
  let parts := wireParts version body
  (8, version) :: (9, parts.digits) :: (body ++ [(10, parts.checksum)])

/-! ### The tags of the envelope -/

theorem decimal_eight : decimal 8 = ascii "8" := decimal_of_lt (by decide)

theorem decimal_nine : decimal 9 = ascii "9" := decimal_of_lt (by decide)

theorem decimal_ten : decimal 10 = ascii "10" := by
  rw [decimal_of_le (by decide), decimal_of_lt (by decide)]
  rfl

theorem decimal_thirtyFive : decimal 35 = ascii "35" := by
  rw [decimal_of_le (by decide), decimal_of_lt (by decide)]
  rfl

/-- A frame is the fields of its parts, one after another. -/
theorem FrameParts.bytes_eq (parts : FrameParts) :
    parts.bytes = wireFields soh [(8, parts.version), (9, parts.digits)] ++
      (parts.region ++ wireField soh (decimal 10) parts.checksum) := by
  simp [FrameParts.bytes, FrameParts.head, FrameParts.preamble, wireFields, wireField,
    decimal_eight, decimal_nine, decimal_ten, ascii, equalsSign]

theorem wireFields_append (separator : UInt8) (fields fields' : List (Tag × Bytes)) :
    wireFields separator (fields ++ fields') =
      wireFields separator fields ++ wireFields separator fields' := by
  simp [wireFields]

theorem wireMessage_eq (version : Bytes) (body : List (Tag × Bytes)) :
    wireMessage version body =
      wireFields soh ((8, version) :: (9, (wireParts version body).digits) :: body) ++
        wireField soh (decimal 10) (wireParts version body).checksum := by
  rw [wireMessage, FrameParts.bytes_eq, ← List.append_assoc]
  exact congrArg (· ++ _) (wireFields_append soh [_, _] body).symm

theorem getLast?_wireFields (separator : UInt8) {fields : List (Tag × Bytes)} (h : fields ≠ []) :
    (wireFields separator fields).getLast? = some separator := by
  obtain ⟨before, field, rfl⟩ := List.eq_nil_or_concat fields |>.resolve_left h
  have hsplit : wireFields separator (before.concat field) =
      wireFields separator before ++ (decimal field.1 ++ equalsSign :: field.2) ++
        [separator] := by
    simp [wireFields, wireField]
  rw [hsplit, List.getLast?_concat]

/-- **What is written is a frame.** -/
theorem wireParts_valid {version : Bytes} (hversion : ValidVersion version) {msgType : Bytes}
    {fields : List (Tag × Bytes)}
    (hlen : (wireMessage version ((35, msgType) :: fields)).length ≤ u32Max) :
    (wireParts version ((35, msgType) :: fields)).Valid := by
  have hregion : (wireFields soh ((35, msgType) :: fields)).length < 10 ^ 10 := by
    have hbytes := (wireParts version ((35, msgType) :: fields)).length_bytes
    rw [← wireMessage] at hbytes
    simp only [wireParts] at hbytes
    simp only [u32Max] at hlen
    omega
  have hsum := Nat.mod_lt
    (((wireParts version ((35, msgType) :: fields)).head.map UInt8.toNat).sum) (y := 256)
    (by decide)
  exact
    { version_fix := hversion.fix
      version_soh := hversion.soh_notMem
      version_length := hversion.length_le
      digits_ne_nil := decimal_ne_nil _
      digits_length := length_decimal_le (by decide) hregion
      digits_digit := fun _ => isAsciiDigit_of_mem_decimal
      digits_value := decimalValue_decimal _
      region_msgType := by
        refine ⟨msgType ++ soh :: wireFields soh fields, ?_⟩
        simp [wireParts, wireFields, wireField, decimal_thirtyFive, ascii, equalsSign]
      region_soh := getLast?_wireFields soh (List.cons_ne_nil _ _)
      checksum_length := rfl
      checksum_digit := fun _ => isAsciiDigit_of_mem_threeDigits (by omega)
      checksum_value := decimalValue_threeDigits (by omega) }

/-- A dialect that does not take the first two fields of every message for length tags. -/
structure Dialect.KeepsEnvelope (dialect : Dialect) : Prop where
  beginString : 8 ∉ dialect.extraLengthTags
  bodyLength : 9 ∉ dialect.extraLengthTags

theorem Dialect.KeepsEnvelope.lengthOf {dialect : Dialect} (h : dialect.KeepsEnvelope)
    (value : Bytes) :
    (Tokenizer.new dialect).lengthOf 8 value = none ∧
      (Tokenizer.new dialect).lengthOf 9 value = none := by
  have hnot : ∀ tag, tag ∉ dialect.extraLengthTags → tag ∉ standardLengthTags →
      (Tokenizer.new dialect).isLengthTag tag = false := by
    intro tag hextra hstandard
    rw [Bool.eq_false_iff, ne_eq, isLengthTag_new_iff]
    tauto
  constructor
  · rw [Tokenizer.lengthOf, hnot 8 h.beginString (by decide)]
    rfl
  · rw [Tokenizer.lengthOf, hnot 9 h.bodyLength (by decide)]
    rfl

theorem soh_notMem_of_digits {digits : Bytes} (h : ∀ b ∈ digits, isAsciiDigit b = true) :
    soh ∉ digits := fun hmem => absurd (h soh hmem) (by decide)

/-- **The fields of a written message** are those it was written with. -/
theorem entries_wireMessage {dialect : Dialect} (hdialect : dialect.KeepsEnvelope)
    {version msgType : Bytes} {fields : List (Tag × Bytes)} (hversion : ValidVersion version)
    (htags : ∀ field ∈ fields, field.1 ≤ u32Max)
    (hdelimits : (Tokenizer.new dialect).Delimits soh none ((35, msgType) :: fields))
    (hlen : (wireMessage version ((35, msgType) :: fields)).length ≤ u32Max) :
    ((Tokenizer.new dialect).tokenizeFields (wireMessage version ((35, msgType) :: fields))
        soh).map (RawField.entry (wireMessage version ((35, msgType) :: fields))) =
      wireEntries version ((35, msgType) :: fields) := by
  have hvalid := wireParts_valid hversion hlen
  generalize hparts : wireParts version ((35, msgType) :: fields) = parts at hvalid
  have hbytes : wireMessage version ((35, msgType) :: fields) =
      [] ++ (wireFields soh ((8, version) :: (9, parts.digits) :: (35, msgType) :: fields) ++
        wireField soh (decimal 10) parts.checksum) := by
    rw [wireMessage_eq, hparts, List.nil_append]
  rw [hbytes] at hlen ⊢
  -- the envelope in front leaves no length pending
  have hfront : (Tokenizer.new dialect).Delimits soh none
      ((8, version) :: (9, parts.digits) :: (35, msgType) :: fields) := by
    refine ⟨hversion.soh_notMem, ?_⟩
    rw [(hdialect.lengthOf version).1]
    refine ⟨soh_notMem_of_digits hvalid.digits_digit, ?_⟩
    rw [(hdialect.lengthOf parts.digits).2]
    exact hdelimits
  have hfrontTags : ∀ field ∈ (8, version) :: (9, parts.digits) :: (35, msgType) :: fields,
      field.1 ≤ u32Max := by
    simp only [List.forall_mem_cons]
    exact ⟨by decide, by decide, by decide, htags⟩
  obtain ⟨read, hreads, hentries⟩ :=
    Tokenizer.Reads.wireFields (by decide) hfrontTags hlen .start hfront
  -- and CheckSum ends the message
  simp only [List.nil_append] at hreads hentries ⊢
  generalize wireFields soh ((8, version) :: (9, parts.digits) :: (35, msgType) :: fields) =
    before at hreads hentries hlen ⊢
  rw [List.nil_append, ← List.append_nil (wireField soh (decimal 10) parts.checksum)] at hlen
  rw [← List.append_nil (wireField soh (decimal 10) parts.checksum)] at hreads hentries ⊢
  have hlast := nextField_wireField hlen (ne_of_mem_decimal (by decide) 10)
    (valueEnd_of_notMem none (soh_notMem_of_digits hvalid.checksum_digit) (fun _ h => by cases h))
  have hall := hreads.next hlast
  rw [← List.length_append] at hall
  rw [hall.tokenizeFields_of_none, List.map_append, hentries, List.map_singleton, RawField.entry,
    value_fieldAt, fieldAt, parseU32_decimal (by decide)]
  · simp [wireEntries, hparts]
  · rw [show before ++ (wireField soh (decimal 10) parts.checksum ++ []) =
      before ++ wireField soh (decimal 10) parts.checksum by simp]
    exact nextField_of_length_le le_rfl

/-- Tokenizing exactly one frame. -/
theorem tokenize_frame (tokenizer : Tokenizer) {parts : FrameParts} (hvalid : parts.Valid)
    (hlen : parts.bytes.length ≤ u32Max) :
    tokenizer.tokenize parts.bytes =
      .ok ⟨parts.bytes, tokenizer.tokenizeFields parts.bytes soh⟩ := by
  have hscan : (Scanner.mk u32Max).tryScan (parts.bytes ++ []) = .ok parts.frame :=
    tryScan_bytes_append hvalid hlen []
  rw [List.append_nil] at hscan
  have hframe := scan_eq_frame_iff.mpr hscan
  simp only [Tokenizer.tokenize, checkFrame, hframe, FrameParts.frame, ne_eq, not_true, if_false]
  rfl

/-- A stream whose buffer begins with a frame returns it. -/
theorem nextMessage_frame (stream : MessageStream) {parts : FrameParts} (hvalid : parts.Valid)
    (hlen : parts.bytes.length ≤ stream.scanner.maxFrameSize) (rest : Bytes)
    (hbuf : stream.buf = parts.bytes ++ rest) :
    stream.nextMessage = (.message ⟨parts.bytes, stream.tokenizer.tokenizeFields parts.bytes soh⟩,
      { stream with buf := rest }) := by
  have hframe := scan_eq_frame_iff.mpr (tryScan_bytes_append hvalid hlen rest)
  simp only [MessageStream.nextMessage, hbuf, hframe, FrameParts.frame, List.take_left,
    List.drop_left]

/-! ## The round trip -/

/-- **A message that is written is read back**: the tokenizer accepts exactly its bytes, a
stream returns it whatever follows, and both find the fields it was written with. -/
theorem wire_roundtrip (dialect : Dialect) (hdialect : dialect.KeepsEnvelope)
    (version : Bytes) (hversion : ValidVersion version) (msgType : Bytes)
    (fields : List (Tag × Bytes)) (htags : ∀ field ∈ fields, 1 ≤ field.1 ∧ field.1 ≤ u32Max)
    (hdelimits : (Tokenizer.new dialect).Delimits soh none ((35, msgType) :: fields)) :
    ((wireMessage version ((35, msgType) :: fields)).length ≤ u32Max →
      ∃ message, (Tokenizer.new dialect).tokenize (wireMessage version ((35, msgType) :: fields)) =
          .ok message ∧
        message.entries = wireEntries version ((35, msgType) :: fields)) ∧
    ((wireMessage version ((35, msgType) :: fields)).length ≤ 2 ^ 20 →
      ∀ rest, ∃ message,
        (((MessageStream.new dialect).feed
          (wireMessage version ((35, msgType) :: fields) ++ rest)).nextMessage).1 =
            .message message ∧
        message.entries = wireEntries version ((35, msgType) :: fields)) := by
  have htags' : ∀ field ∈ fields, field.1 ≤ u32Max := fun field hmem => (htags field hmem).2
  constructor
  · intro hlen
    have hvalid := wireParts_valid hversion hlen
    refine ⟨_, tokenize_frame _ hvalid hlen, ?_⟩
    exact entries_wireMessage hdialect hversion htags' hdelimits hlen
  · intro hcap rest
    have hlen : (wireMessage version ((35, msgType) :: fields)).length ≤ u32Max :=
      hcap.trans (by decide)
    have hvalid := wireParts_valid hversion hlen
    have hnext := nextMessage_frame ((MessageStream.new dialect).feed
      (wireMessage version ((35, msgType) :: fields) ++ rest)) hvalid hcap rest (by
        simp [MessageStream.feed, MessageStream.new, wireMessage])
    refine ⟨_, congrArg Prod.fst hnext, ?_⟩
    exact entries_wireMessage hdialect hversion htags' hdelimits hlen

/-- A heartbeat whose data field holds a separator. -/
theorem wire_roundtrip_rawData :
    (∃ message, (Tokenizer.new .standard).tokenize (wireMessage (ascii "FIX.4.4")
        [(35, ascii "0"), (95, ascii "3"), (96, [97, soh, 98])]) = .ok message ∧
      message.entries = wireEntries (ascii "FIX.4.4")
        [(35, ascii "0"), (95, ascii "3"), (96, [97, soh, 98])]) ∧
    ∀ rest, ∃ message, (((MessageStream.new .standard).feed (wireMessage (ascii "FIX.4.4")
        [(35, ascii "0"), (95, ascii "3"), (96, [97, soh, 98])] ++ rest)).nextMessage).1 =
          .message message ∧
      message.entries = wireEntries (ascii "FIX.4.4")
        [(35, ascii "0"), (95, ascii "3"), (96, [97, soh, 98])] := by
  obtain ⟨htokenize, hstream⟩ := wire_roundtrip .standard ⟨by decide, by decide⟩
    (ascii "FIX.4.4") ⟨by decide, by decide, by decide⟩ (ascii "0")
    [(95, ascii "3"), (96, [97, soh, 98])] (by decide) (by decide +kernel)
  exact ⟨htokenize (by decide +kernel), hstream (by decide +kernel)⟩

end Refix.Message
