import Refix.Message.Wire

/-!
# The Envelope

The scanner finds a message's trailer by BodyLength, the tokenizer its fields by separators
and by the data lengths it meets. Both agree on the first three fields, whatever the body
holds. They agree on the last one unless a data length overruns the trailer: a data value is
trusted when a separator stands right behind it, and the separator that ends the message is
one too.
-/

namespace Refix.Message

open Refix.Foundation

/-! ## Overrunning data -/

/-- With `len` pending, the field loop comes to a field with the tag `tagBytes` whose value,
counted from its `=`, ends right before the separator that ends the bytes. -/
def Tokenizer.Overruns (tokenizer : Tokenizer) (bytes : Bytes) (separator : UInt8)
    (tagBytes : Bytes) (len : ℕ) : Prop :=
  ∃ fields pos delimiter, tokenizer.Reads bytes separator fields pos (some len) ∧
    findTagEnd bytes pos separator = some (.equals delimiter) ∧
    tagBytes = slice bytes pos delimiter ∧ delimiter + 1 + len + 1 = bytes.length ∧
    bytes.getLast? = some separator

section Overruns

variable {tokenizer : Tokenizer} {bytes : Bytes} {separator : UInt8} {fields : List RawField}
  {pos : ℕ} {dataLen : Option ℕ}

theorem getElem?_of_getLast? {b : UInt8} (h : bytes.getLast? = some b) {k : ℕ}
    (hk : k + 1 = bytes.length) : bytes[k]? = some b := by
  rw [← h, List.getLast?_eq_getElem?, ← hk, Nat.add_sub_cancel]

/-- A field that overruns is the last one. -/
theorem Tokenizer.Overruns.tokenizeFields {tagBytes : Bytes} {len : ℕ}
    (hlen : bytes.length ≤ u32Max) (h : tokenizer.Overruns bytes separator tagBytes len) :
    ∃ fields field, tokenizer.tokenizeFields bytes separator = fields ++ [field] ∧
      field.tag = (parseU32 tagBytes).getD malformed ∧ (field.value bytes).length = len := by
  obtain ⟨fields, pos, delimiter, hreads, hend, rfl, hcount, hlast⟩ := h
  have hsep : bytes[delimiter + 1 + len]? = some separator := getElem?_of_getLast? hlast hcount
  have hread : nextField bytes pos (some len) separator =
      some (⟨(parseU32 (slice bytes pos delimiter)).getD malformed, delimiter + 1,
        delimiter + 1 + len⟩, bytes.length) :=
    (nextField_iff hlen).mpr
      ⟨hcount.symm, Or.inl ⟨delimiter, hend, rfl, rfl, .byLength rfl hsep⟩⟩
  have hall := hreads.tokenizeFields_of_length_le hread le_rfl
  refine ⟨fields, _, hall, rfl, ?_⟩
  simp only [RawField.value, length_slice]
  omega

/-- The field loop comes to `target`, a field start, or reads a field that starts before it and
ends behind it. -/
theorem Tokenizer.Reads.reaches_or_crosses (hlen : bytes.length ≤ u32Max) {target : ℕ}
    (hbefore : ∀ k, k + 1 = target → bytes[k]? = some separator)
    (h : tokenizer.Reads bytes separator fields pos dataLen) (hle : pos ≤ target) :
    (∃ fields' dataLen', tokenizer.Reads bytes separator fields' target dataLen') ∨
      ∃ fields' pos' dataLen' field, tokenizer.Reads bytes separator fields' pos' dataLen' ∧
        nextField bytes pos' dataLen' separator = some (field, field.valueEnd + 1) ∧
        pos' < target ∧ target ≤ field.valueEnd := by
  induction hdist : target - pos using Nat.strong_induction_on
    generalizing fields pos dataLen with
  | _ dist ih =>
    rcases hle.eq_or_lt with rfl | hlt
    · exact Or.inl ⟨fields, dataLen, h⟩
    -- a separator stands right before the target, so there is a field here
    cases hread : nextField bytes pos dataLen separator with
    | none =>
      obtain ⟨stop, rfl⟩ : ∃ stop, target = stop + 1 := ⟨target - 1, by omega⟩
      have htagEnd := nextField_eq_none_iff.mp hread
      exact absurd rfl (findTagEnd_eq_none_iff.mp htagEnd stop separator (by omega)
        (hbefore stop rfl)).2
    | some read =>
      obtain ⟨field, next⟩ := read
      obtain ⟨rfl, hpos, hstart, -⟩ := nextField_bounds hlen hread
      rcases Nat.lt_or_ge field.valueEnd target with hin | hover
      · exact ih _ (by omega) (h.next hread) hin rfl
      · exact Or.inr ⟨fields, pos, dataLen, field, h, hread, hlt, hover⟩

/-- The value of a field starts at or before the next separator, unless `=` is one. -/
theorem nextField_valueStart_le (hlen : bytes.length ≤ u32Max) {field : RawField} {next k : ℕ}
    (hread : nextField bytes pos dataLen separator = some (field, next)) (hpos : pos ≤ k)
    (hk : bytes[k]? = some separator) :
    field.valueStart ≤ k ∨ separator = equalsSign ∧ field.valueStart = k + 1 := by
  obtain ⟨-, ⟨delimiter, hend, -, hstart, -⟩ | ⟨-, -, hstart⟩⟩ := (nextField_iff hlen).mp hread
  · obtain ⟨-, heq, hnone⟩ := findTagEnd_eq_equals_iff.mp hend
    rcases Nat.lt_trichotomy delimiter k with hlt | rfl | hgt
    · exact Or.inl (by omega)
    · exact Or.inr ⟨Option.some.inj (hk.symm.trans heq), hstart⟩
    · exact absurd rfl (hnone k separator hpos hgt hk).2
  · exact Or.inl (by omega)

/-- Only a data value, read by its length, can run over a separator. -/
theorem nextField_crosses (hlen : bytes.length ≤ u32Max) {field : RawField} {next k : ℕ}
    (hread : nextField bytes pos dataLen separator = some (field, next))
    (hstart : field.valueStart ≤ k) (hk : bytes[k]? = some separator) (hlt : k < field.valueEnd) :
    ∃ delimiter len, findTagEnd bytes pos separator = some (.equals delimiter) ∧
      field.tag = (parseU32 (slice bytes pos delimiter)).getD malformed ∧ dataLen = some len ∧
      field.valueStart = delimiter + 1 ∧ field.valueEnd = delimiter + 1 + len ∧
      bytes[delimiter + 1 + len]? = some separator := by
  obtain ⟨-, ⟨delimiter, hend, htag, heq, hvalue⟩ | ⟨hend, -, heq⟩⟩ := (nextField_iff hlen).mp hread
  · rw [heq] at hvalue hstart
    by_cases hdata : ∃ len, dataLen = some len ∧ bytes[delimiter + 1 + len]? = some separator
    · obtain ⟨len, rfl, hsepLen⟩ := hdata
      exact ⟨delimiter, len, hend, htag, rfl, heq, hvalue.unique (.byLength rfl hsepLen), hsepLen⟩
    · simp only [not_exists, not_and] at hdata
      exact absurd hk (hvalue.ne_of_lt hdata hstart hlt)
  · obtain ⟨-, -, -, hnone⟩ := findTagEnd_eq_separator_iff.mp hend
    exact absurd rfl (hnone k separator (by omega) hlt hk).2

/-- A data value that runs over a separator and ends right before the last one overruns. -/
theorem Tokenizer.Reads.overruns (hlen : bytes.length ≤ u32Max)
    (h : tokenizer.Reads bytes separator fields pos dataLen) {field : RawField} {next k : ℕ}
    (hread : nextField bytes pos dataLen separator = some (field, next))
    (hstart : field.valueStart ≤ k) (hk : bytes[k]? = some separator) (hlt : k < field.valueEnd)
    (hend : field.valueEnd < bytes.length → field.valueEnd + 1 = bytes.length) :
    ∃ tagBytes len, tokenizer.Overruns bytes separator tagBytes len ∧
      field.tag = (parseU32 tagBytes).getD malformed ∧ bytes.length < field.valueStart + len + 2 := by
  obtain ⟨delimiter, len, htagEnd, htag, rfl, hvalueStart, hvalueEnd, hsepLen⟩ :=
    nextField_crosses hlen hread hstart hk hlt
  have hin := (List.getElem?_eq_some_iff.mp hsepLen).1
  have hcount := hend (by omega)
  refine ⟨_, len, ⟨fields, pos, delimiter, h, htagEnd, rfl, by omega, ?_⟩, htag, by omega⟩
  rw [List.getLast?_eq_getElem?, ← hcount, Nat.add_sub_cancel, hvalueEnd, hsepLen]

/-- **The field loop reaches the trailer**, a field start behind which no separator stands but
the one that ends the bytes, or a data value before the trailer overruns it. -/
theorem Tokenizer.Reads.reaches_or_overruns (hlen : bytes.length ≤ u32Max) {trailerStart : ℕ}
    (hbefore : ∀ k, k + 1 = trailerStart → bytes[k]? = some separator)
    (hsep : separator ≠ equalsSign)
    (hafter : ∀ k, trailerStart ≤ k → bytes[k]? = some separator → k + 1 = bytes.length)
    (h : tokenizer.Reads bytes separator fields pos dataLen) (hle : pos ≤ trailerStart) :
    (∃ fields' dataLen', tokenizer.Reads bytes separator fields' trailerStart dataLen') ∨
      ∃ tagBytes len, tokenizer.Overruns bytes separator tagBytes len ∧
        bytes.length < trailerStart + len + 1 := by
  rcases h.reaches_or_crosses hlen hbefore hle with hreach | hcross
  · exact Or.inl hreach
  obtain ⟨fields', pos', dataLen', field, hreads, hread, hlt, hover⟩ := hcross
  obtain ⟨stop, rfl⟩ : ∃ stop, trailerStart = stop + 1 := ⟨trailerStart - 1, by omega⟩
  have hstop := hbefore stop rfl
  have hstart : field.valueStart ≤ stop := by
    rcases nextField_valueStart_le hlen hread (Nat.le_of_lt_succ hlt) hstop with hle | ⟨heq, -⟩
    · exact hle
    · exact absurd heq hsep
  obtain ⟨tagBytes, len, hover, -, hcount⟩ := hreads.overruns hlen hread hstart hstop hover
    (fun hin => hafter _ hover (nextField_getElem? hlen hread hin))
  exact Or.inr ⟨tagBytes, len, hover, by omega⟩

end Overruns

/-! ## The envelope of a frame -/

/-- A message opens with BeginString, BodyLength and the MsgType its scanner reports, and
closes with the three digits of CheckSum. -/
structure Enveloped (frame : Frame) (message : RawMessage) : Prop where
  front : ∃ version digits rest, message.entries =
    (8, version) :: (9, digits) :: (35, frame.msgType) :: rest
  checksum : message.entries.getLast? =
    some (10, slice frame.bytes (frame.bytes.length - 4) (frame.bytes.length - 1))

section Frame

variable {dialect : Dialect} {parts : FrameParts}

theorem FrameParts.Valid.region_eq_wireField (hvalid : parts.Valid) :
    ∃ after, parts.region = wireField soh (decimal 35) parts.msgType ++ after := by
  have h₃₅ : decimal 35 = ascii "35" := by decide +kernel
  obtain ⟨⟨after, hregion⟩, -⟩ := hvalid.region_eq
  exact ⟨after, by simp [hregion, wireField, h₃₅, ascii, equalsSign]⟩

/-- **The first three fields** are read as the scanner reads them. -/
theorem reads_front (hdialect : dialect.KeepsEnvelope) (hvalid : parts.Valid)
    (hlen : parts.bytes.length ≤ u32Max) :
    ∃ fields pos dataLen, (Tokenizer.new dialect).Reads parts.bytes soh fields pos dataLen ∧
      pos ≤ parts.head.length ∧
      fields.map (RawField.entry parts.bytes) =
        [(8, parts.version), (9, parts.digits), (35, parts.msgType)] := by
  obtain ⟨after, hregion⟩ := hvalid.region_eq_wireField
  have hbytes : parts.bytes = [] ++ (wireFields soh [(8, parts.version), (9, parts.digits)] ++
      (wireField soh (decimal 35) parts.msgType ++
        (after ++ wireField soh (decimal 10) parts.checksum))) := by
    rw [parts.bytes_eq, hregion]
    simp
  -- In a dialect that keeps the envelope neither BeginString nor BodyLength is a length tag.
  have hfront : (Tokenizer.new dialect).Delimits soh none
      [(8, parts.version), (9, parts.digits)] := by
    refine ⟨hvalid.version_soh, ?_⟩
    rw [(hdialect.lengthOf parts.version).1]
    exact ⟨soh_notMem_of_digits hvalid.digits_digit, (hdialect.lengthOf parts.digits).2⟩
  have hhead : (wireFields soh [(8, parts.version), (9, parts.digits)]).length +
      (wireField soh (decimal 35) parts.msgType).length ≤ parts.head.length := by
    have hsplit := parts.bytes_eq
    rw [FrameParts.bytes] at hsplit
    have := congrArg List.length hsplit
    simp only [List.length_append, hregion, length_wireField,
      show (ascii "10=").length = 3 by decide,
      show (decimal 10).length = 2 by decide +kernel, List.length_cons, List.length_nil] at this ⊢
    omega
  rw [hbytes] at hlen ⊢
  obtain ⟨read, hreads, hentries⟩ := Tokenizer.Reads.wireFields (by decide)
    (by simp [u32Max]) hlen .start hfront
  simp only [List.nil_append] at hreads hentries hlen ⊢
  have hmsgType := nextField_wireField hlen (ne_of_mem_decimal (by decide) 35)
    (valueEnd_of_notMem none hvalid.region_eq.2 (fun _ h => by cases h))
  refine ⟨_, _, _, hreads.next hmsgType, hhead, ?_⟩
  rw [List.map_append, hentries, List.map_singleton, RawField.entry, value_fieldAt, fieldAt,
    parseU32_decimal (by decide)]
  rfl

/-- Behind the trailer's start, only the last byte is a separator. -/
theorem getElem?_trailer (hchecksum : soh ∉ parts.checksum) {k : ℕ} (hk : parts.head.length ≤ k)
    (hsoh : parts.bytes[k]? = some soh) : k + 1 = parts.bytes.length := by
  have hsplit : parts.bytes = parts.head ++ ((ascii "10=" ++ parts.checksum) ++ [soh]) := by
    simp [FrameParts.bytes]
  have hlength : parts.bytes.length =
      parts.head.length + (ascii "10=" ++ parts.checksum).length + 1 := by
    simp only [hsplit, List.length_append, List.length_singleton]
    omega
  have hlt := (List.getElem?_eq_some_iff.mp hsoh).1
  by_contra hne
  rw [hsplit, List.getElem?_append_right hk, List.getElem?_append_left (by omega)] at hsoh
  rcases List.mem_append.mp (List.mem_of_getElem? hsoh) with hmem | hmem
  · exact absurd hmem (by decide)
  · exact hchecksum hmem

theorem getElem?_head (hregion : parts.region.getLast? = some soh) {k : ℕ} (hk : k + 1 = parts.head.length) :
    parts.bytes[k]? = some soh := by
  have hlast : parts.head.getLast? = some soh := by
    rw [FrameParts.head, List.getLast?_append, hregion, Option.some_or]
  rw [FrameParts.bytes, List.getElem?_append_left (by omega)]
  exact getElem?_of_getLast? hlast hk

theorem FrameParts.bytes_eq_head (parts : FrameParts) :
    parts.bytes = parts.head ++ (wireField soh (decimal 10) parts.checksum ++ []) := by
  have h₁₀ : decimal 10 = ascii "10" := by decide +kernel
  simp [FrameParts.bytes, wireField, h₁₀, ascii, equalsSign]

/-- A loop that reaches the trailer reads CheckSum, and then ends. -/
theorem Tokenizer.Reads.trailer {tokenizer : Tokenizer} {fields : List RawField}
    {dataLen : Option ℕ} (hvalid : parts.Valid) (hlen : parts.bytes.length ≤ u32Max)
    (h : tokenizer.Reads parts.bytes soh fields parts.head.length dataLen) :
    ∃ field, tokenizer.tokenizeFields parts.bytes soh = fields ++ [field] ∧
      field.entry parts.bytes = (10, parts.checksum) := by
  have hbytes := parts.bytes_eq_head
  have hsoh := soh_notMem_of_digits hvalid.checksum_digit
  have htrailer := fun k hk => getElem?_trailer (k := k) hsoh hk
  have hlast : parts.bytes.length =
      parts.head.length + (wireField soh (decimal 10) parts.checksum).length := by
    rw [hbytes]
    simp
  rw [hbytes] at hlen h htrailer hlast ⊢
  have hread := nextField_wireField hlen (ne_of_mem_decimal (by decide) 10)
    (valueEnd_of_notMem dataLen hsoh (by
      intro len _ hne hget
      have := htrailer _ (by omega) hget
      rw [hlast, length_wireField] at this
      omega))
  rw [← hlast] at hread
  refine ⟨_, h.tokenizeFields_of_length_le hread le_rfl, ?_⟩
  rw [RawField.entry, value_fieldAt, fieldAt, parseU32_decimal (by decide)]
  rfl

theorem slice_checksum (hvalid : parts.Valid) :
    slice parts.bytes (parts.bytes.length - 4) (parts.bytes.length - 1) = parts.checksum := by
  have hslice := slice_middle (parts.head ++ ascii "10=") parts.checksum [soh]
  have hlength := parts.length_bytes
  simp only [hvalid.checksum_length, List.length_append,
    show (ascii "10=").length = 3 by decide] at hslice hlength
  have hhead : parts.head.length = parts.preamble.length + parts.region.length := by
    simp [FrameParts.head]
  rw [show parts.bytes.length - 4 = parts.head.length + 3 by omega,
    show parts.bytes.length - 1 = parts.head.length + 3 + 3 by omega]
  simpa [FrameParts.bytes] using hslice

/-- **The envelope of a frame's index** is that of the frame exactly when no data value longer
than a checksum overruns the frame's trailer. The first three fields need no condition. -/
theorem enveloped_iff (hdialect : dialect.KeepsEnvelope) (hvalid : parts.Valid)
    (hlen : parts.bytes.length ≤ u32Max) :
    Enveloped parts.frame
        ⟨parts.bytes, (Tokenizer.new dialect).tokenizeFields parts.bytes soh⟩ ↔
      ¬ ∃ tagBytes len,
        (Tokenizer.new dialect).Overruns parts.bytes soh tagBytes len ∧ 3 < len := by
  have hchecksum : slice parts.frame.bytes (parts.frame.bytes.length - 4)
      (parts.frame.bytes.length - 1) = parts.checksum := slice_checksum hvalid
  constructor
  · rintro ⟨-, hlast⟩ ⟨tagBytes, len, hover, hlong⟩
    -- An overrun leaves a last field that is longer than a checksum.
    obtain ⟨fields, field, htokens, -, hcount⟩ := hover.tokenizeFields hlen
    simp only [RawMessage.entries, htokens, List.map_append, List.map_singleton,
      List.getLast?_concat, hchecksum, Option.some.injEq, Prod.mk.injEq] at hlast
    rw [hlast.2, hvalid.checksum_length] at hcount
    omega
  · intro hnot
    refine ⟨?_, ?_⟩
    · obtain ⟨fields, pos, dataLen, hreads, -, hentries⟩ := reads_front hdialect hvalid hlen
      refine ⟨parts.version, parts.digits, ((Tokenizer.new dialect).tokenizeFrom parts.bytes soh
        pos dataLen).map (RawField.entry parts.bytes), ?_⟩
      have := congrArg (List.map (RawField.entry parts.bytes)) hreads.tokenizeFields
      rw [List.map_append, hentries] at this
      exact this
    -- The tokenizer reaches the trailer, or a data value overruns it: the head holds a separator
    -- before the trailer, which no other field passes.
    · have hlength := parts.length_bytes
      rw [hvalid.checksum_length] at hlength
      have hhead : parts.head.length = parts.preamble.length + parts.region.length := by
        simp [FrameParts.head]
      have hstart : (Tokenizer.new dialect).Reads parts.bytes soh [] 0 none := .start
      have hsoh := soh_notMem_of_digits hvalid.checksum_digit
      rcases hstart.reaches_or_overruns hlen (fun k hk => getElem?_head hvalid.region_soh hk)
        (by decide) (fun k => getElem?_trailer hsoh) (Nat.zero_le _) with
        ⟨fields, dataLen, hreads⟩ | ⟨tagBytes, len, hover, hlong⟩
      · obtain ⟨field, htokens, hentry⟩ := hreads.trailer hvalid hlen
        rw [RawField.entry] at hentry
        simp only [RawMessage.entries, htokens, List.map_append, List.map_singleton,
          List.getLast?_concat, hentry, hchecksum]
      · exact absurd ⟨tagBytes, len, hover, by omega⟩ hnot

end Frame

/-! ## What the tokenizer and the stream return -/

/-- A message the tokenizer returns is one frame and its index. -/
theorem tokenize_eq_ok {tokenizer : Tokenizer} {bytes : Bytes} {message : RawMessage}
    (h : tokenizer.tokenize bytes = .ok message) :
    ∃ parts : FrameParts, parts.Valid ∧ parts.bytes = bytes ∧ bytes.length ≤ u32Max ∧
      message = ⟨bytes, tokenizer.tokenizeFields bytes soh⟩ := by
  simp only [Tokenizer.tokenize, checkFrame] at h
  obtain ⟨_, hcheck, hresult⟩ := except_bind_eq_ok_iff.mp h
  obtain rfl := Except.ok.inj hresult
  split at hcheck
  · next frame hscan =>
    split at hcheck
    · cases hcheck
    · next hwhole =>
      obtain ⟨parts, hvalid, hpre, hcap, rfl⟩ :=
        exists_parts_of_tryScan (scan_eq_frame_iff.mp hscan)
      have hbytes : parts.bytes = bytes := hpre.eq_of_length (not_not.mp hwhole)
      refine ⟨parts, hvalid, hbytes, ?_, rfl⟩
      rw [← hbytes]
      exact hcap
  all_goals cases hcheck

/-- So is a message that a stream returns. -/
theorem nextMessage_eq_message {stream : MessageStream} {message : RawMessage}
    (h : stream.nextMessage.1 = .message message) :
    ∃ parts : FrameParts, parts.Valid ∧ parts.bytes <+: stream.buf ∧
      parts.bytes.length ≤ stream.scanner.maxFrameSize ∧
      stream.scanner.scan stream.buf = .frame parts.frame ∧
      message = ⟨parts.bytes, stream.tokenizer.tokenizeFields parts.bytes soh⟩ := by
  unfold MessageStream.nextMessage at h
  split at h
  · next frame hscan =>
    obtain ⟨parts, hvalid, hpre, hcap, rfl⟩ :=
      exists_parts_of_tryScan (scan_eq_frame_iff.mp hscan)
    have hbytes : stream.buf.take parts.frame.bytes.length = parts.bytes :=
      (List.prefix_iff_eq_take.mp hpre).symm
    simp only [hbytes, StreamOutcome.message.injEq] at h
    exact ⟨parts, hvalid, hpre, hcap, hscan, h.symm⟩
  all_goals cases h

end Refix.Message
