import Refix.Log.Driver
import Refix.Message.Envelope

/-!
# How a Record Closes

A record that is not truncated ends with its CheckSum field: BodyLength points at it, or the
walk over its fields came to it. Its index ends with that field too, unless the loop that
reads the index misreads it (`Misreads`). The walk is that loop, so only a record whose end
BodyLength gave can be misread.
-/

namespace Refix.Log

open Refix.Foundation Refix.Message

/-! ## Closing fields -/

/-- The last field of a message, its text a separator, `10=`, and a value without a separator
but the one that ends the message. -/
structure ClosesAt (bytes : Bytes) (separator : UInt8) (trailerStart : ℕ) : Prop where
  head : slice bytes (trailerStart - 1) (trailerStart + 3) = separator :: ascii "10="
  after : ∀ k, trailerStart + 3 ≤ k → bytes[k]? = some separator → k + 1 = bytes.length

/-- The tag of the last field where one takes the CheckSum field's tag for the end of its
value: that of the field itself, or what stands in the place of CheckSum's value if `=` ends
that too. -/
def swallowedTag (bytes : Bytes) (trailerStart : ℕ) (field : RawField) : Tag :=
  if trailerStart + 3 < bytes.length ∧ bytes.getLast? = some equalsSign then
    (parseU32 (slice bytes (trailerStart + 3) (bytes.length - 1))).getD malformed
  else field.tag

/-- The field loop reads the CheckSum field of a message as another one. -/
inductive Misreads (tokenizer : Tokenizer) (bytes : Bytes) (separator : UInt8) : Prop where
  /-- A data value read by its length ends right before the message's last separator. -/
  | overrun {tagBytes : Bytes} {len : ℕ}
      (hover : tokenizer.Overruns bytes separator tagBytes len)
      (htag : parseU32 tagBytes ≠ some checksumTag)
  /-- The fields are ended by `=` themselves, and a value ends with the `=` of `10=`. -/
  | swallow {trailerStart pos : ℕ} {fields : List RawField} {dataLen : Option ℕ}
      {field : RawField} (hsep : separator = equalsSign)
      (hcloses : ClosesAt bytes separator trailerStart)
      (hreads : tokenizer.Reads bytes separator fields pos dataLen)
      (hread : nextField bytes pos dataLen separator = some (field, trailerStart + 3))
      (htag : swallowedTag bytes trailerStart field ≠ checksumTag)

section Closing

variable {tokenizer : Tokenizer} {bytes : Bytes} {separator : UInt8} {trailerStart : ℕ}
  {fields : List RawField} {dataLen : Option ℕ}

/-- Whether the index of a message ends with CheckSum. -/
def ClosesWithChecksum (tokenizer : Tokenizer) (bytes : Bytes) (separator : UInt8) : Prop :=
  (tokenizer.tokenizeFields bytes separator).getLast?.map (·.tag) = some checksumTag

theorem closesWithChecksum_of_append {field : RawField}
    (h : tokenizer.tokenizeFields bytes separator = fields ++ [field]) :
    ClosesWithChecksum tokenizer bytes separator ↔ field.tag = checksumTag := by
  simp [ClosesWithChecksum, h]

/-- The bytes around the tag of CheckSum. -/
theorem getElem?_of_head
    (h : slice bytes (trailerStart - 1) (trailerStart + 3) = separator :: ascii "10=") :
    0 < trailerStart ∧ bytes[trailerStart - 1]? = some separator ∧
      bytes[trailerStart]? = some 49 ∧ bytes[trailerStart + 1]? = some 48 ∧
      bytes[trailerStart + 2]? = some equalsSign := by
  have hhead : ∀ k b, (separator :: ascii "10=")[k]? = some b →
      bytes[trailerStart - 1 + k]? = some b := by
    intro k b hk
    have hlt := (List.getElem?_eq_some_iff.mp hk).1
    have hlen := congrArg List.length h
    rw [length_slice] at hlen
    rw [← h, getElem?_slice _ (by omega)] at hk
    exact hk
  have hpos : 0 < trailerStart := by
    by_contra hzero
    have hlen := congrArg List.length h
    simp only [length_slice, List.length_cons, show (ascii "10=").length = 3 by decide] at hlen
    omega
  refine ⟨hpos, hhead 0 _ rfl, ?_, ?_, ?_⟩
  · rw [← hhead 1 49 rfl]
    congr 1
    omega
  · rw [← hhead 2 48 rfl]
    congr 1
    omega
  · rw [← hhead 3 equalsSign rfl]
    congr 1
    omega

/-- A loop that reaches the closing field reads CheckSum, and then ends. -/
theorem ClosesAt.reached (h : ClosesAt bytes separator trailerStart)
    (hlen : bytes.length ≤ u32Max) (hdigit : isAsciiDigit separator = false)
    (hreads : tokenizer.Reads bytes separator fields trailerStart dataLen) :
    ClosesWithChecksum tokenizer bytes separator := by
  obtain ⟨-, -, hone, hzero, heq⟩ := getElem?_of_head h.head
  have hend : findTagEnd bytes trailerStart separator = some (.equals (trailerStart + 2)) := by
    refine findTagEnd_eq_equals_iff.mpr ⟨by omega, heq, ?_⟩
    intro k b h₁ h₂ hb
    obtain rfl | rfl : k = trailerStart ∨ k = trailerStart + 1 := by omega
    · obtain rfl := Option.some.inj (hone.symm.trans hb)
      refine ⟨by decide, ?_⟩
      rintro rfl
      exact absurd hdigit (by decide)
    · obtain rfl := Option.some.inj (hzero.symm.trans hb)
      refine ⟨by decide, ?_⟩
      rintro rfl
      exact absurd hdigit (by decide)
  have htag : slice bytes trailerStart (trailerStart + 2) = ascii "10" := by
    apply List.ext_getElem?
    intro k
    rcases Nat.lt_or_ge k 2 with hk | hk
    · rw [getElem?_slice _ (by omega)]
      obtain rfl | rfl : k = 0 ∨ k = 1 := by omega
      · exact hone
      · exact hzero
    · rw [List.getElem?_eq_none (by rw [length_slice]; omega),
        List.getElem?_eq_none (show (ascii "10").length ≤ k from hk)]
  -- the value runs to the message's last separator, or to its end
  have hvalue : ValueEnd bytes separator (trailerStart + 2 + 1) dataLen
      (fieldValueEnd bytes (trailerStart + 2 + 1) dataLen separator) := fieldValueEnd_valueEnd hlen
  generalize fieldValueEnd bytes (trailerStart + 2 + 1) dataLen separator = valueEnd at hvalue
  have hread : nextField bytes trailerStart dataLen separator =
      some (⟨checksumTag, trailerStart + 2 + 1, valueEnd⟩, valueEnd + 1) := by
    refine (nextField_iff hlen).mpr ⟨rfl, Or.inl ⟨_, hend, ?_, rfl, hvalue⟩⟩
    show checksumTag = (parseU32 _).getD malformed
    rw [htag]
    decide +kernel
  have hlast : bytes.length ≤ valueEnd + 1 := by
    rcases Nat.lt_or_ge valueEnd bytes.length with hlt | hge
    · have hbounds := nextField_bounds hlen hread
      exact (h.after valueEnd hbounds.2.2.1 (hvalue.getElem? hlt)).ge
    · omega
  exact (closesWithChecksum_of_append (hreads.tokenizeFields_of_length_le hread hlast)).mpr rfl

/-- Where `=` ends the fields, what stands behind a swallowed tag is one more tag, or no
field. -/
theorem swallowedTag_eq (h : ClosesAt bytes equalsSign trailerStart)
    (hlen : bytes.length ≤ u32Max) {pos : ℕ} {field : RawField}
    (hreads : tokenizer.Reads bytes equalsSign fields pos dataLen)
    (hread : nextField bytes pos dataLen equalsSign = some (field, trailerStart + 3)) :
    ClosesWithChecksum tokenizer bytes equalsSign ↔
      swallowedTag bytes trailerStart field = checksumTag := by
  have hnext := hreads.next hread
  generalize hdata : tokenizer.pendingDataLen bytes field = dataLen' at hnext
  rw [swallowedTag]
  split
  · next hmore =>
    -- The bytes end with `=`, which is the only one left: the last field has an empty value.
    obtain ⟨hlt, hlast⟩ := hmore
    have hget : bytes[bytes.length - 1]? = some equalsSign := by
      rw [← List.getLast?_eq_getElem?, hlast]
    have hend : findTagEnd bytes (trailerStart + 3) equalsSign =
        some (.equals (bytes.length - 1)) := by
      refine findTagEnd_eq_equals_iff.mpr ⟨by omega, hget, ?_⟩
      intro k b h₁ h₂ hb
      have hne : b ≠ equalsSign := by
        rintro rfl
        have := h.after k h₁ hb
        omega
      exact ⟨hne, hne⟩
    have hread' : nextField bytes (trailerStart + 3) dataLen' equalsSign =
        some (⟨(parseU32 (slice bytes (trailerStart + 3) (bytes.length - 1))).getD malformed,
          bytes.length - 1 + 1, fieldValueEnd bytes (bytes.length - 1 + 1) dataLen' equalsSign⟩,
          fieldValueEnd bytes (bytes.length - 1 + 1) dataLen' equalsSign + 1) :=
      (nextField_iff hlen).mpr ⟨rfl, Or.inl ⟨_, hend, rfl, rfl, fieldValueEnd_valueEnd hlen⟩⟩
    have hbounds := nextField_bounds hlen hread'
    have hlastField := hnext.tokenizeFields_of_length_le hread'
      (by have := hbounds.2.2.1; simp only at this; omega)
    exact closesWithChecksum_of_append hlastField
  · next hnone =>
    -- Behind the trailer's tag no `=` is left, so no further field is read and `field` is the last.
    refine closesWithChecksum_of_append (hnext.tokenizeFields_of_none ?_)
    rw [nextField_eq_none_iff, findTagEnd_eq_none_iff]
    intro k b hk hb
    have hne : b ≠ equalsSign := by
      rintro rfl
      apply hnone
      have hcount := h.after k hk hb
      refine ⟨by omega, ?_⟩
      rw [List.getLast?_eq_getElem?, ← hcount, Nat.add_sub_cancel, hb]
    exact ⟨hne, hne⟩

/-- A message that is misread does not close with CheckSum. -/
theorem Misreads.not_closes (h : Misreads tokenizer bytes separator)
    (hlen : bytes.length ≤ u32Max) : ¬ ClosesWithChecksum tokenizer bytes separator := by
  cases h with
  | overrun hover htag =>
    obtain ⟨fields, field, htokens, hfield, -⟩ := hover.tokenizeFields hlen
    rw [closesWithChecksum_of_append htokens, hfield]
    intro heq
    cases hparse : parseU32 _ with
    | none =>
      rw [hparse] at heq
      exact absurd heq (by decide)
    | some tag =>
      rw [hparse, Option.getD_some] at heq
      exact htag (by rw [hparse, heq])
  | swallow hsep hcloses hreads hread htag =>
    subst hsep
    rwa [swallowedTag_eq hcloses hlen hreads hread]

/-- **A message that closes with the text of a CheckSum field** has an index that does, unless
it is misread. -/
theorem ClosesAt.closes_iff (h : ClosesAt bytes separator trailerStart)
    (hlen : bytes.length ≤ u32Max) (hdigit : isAsciiDigit separator = false) :
    ClosesWithChecksum tokenizer bytes separator ↔ ¬ Misreads tokenizer bytes separator := by
  constructor
  · intro hcloses hmisreads
    exact hmisreads.not_closes hlen hcloses
  intro hnot
  obtain ⟨hpos, hbefore, hone, hzero, heq⟩ := getElem?_of_head h.head
  have hseparator : ∀ k, k + 1 = trailerStart → bytes[k]? = some separator := by
    rintro k rfl
    exact hbefore
  have hstart : tokenizer.Reads bytes separator [] 0 none := .start
  rcases hstart.reaches_or_crosses hlen hseparator (Nat.zero_le _) with
    ⟨fields, dataLen, hreads⟩ | ⟨fields, pos, dataLen, field, hreads, hread, hlt, hover⟩
  · exact h.reached hlen hdigit hreads
  by_cases hswallow : field.valueEnd = trailerStart + 2 ∧ separator = equalsSign
  · obtain ⟨hend, rfl⟩ := hswallow
    rw [hend] at hread
    by_contra hcloses
    rw [swallowedTag_eq h hlen hreads hread] at hcloses
    exact hnot (.swallow rfl h hreads hread hcloses)
  -- the field ends behind `10=`, so its value runs over a separator
  have hends : ∀ k, trailerStart ≤ k → bytes[k]? = some separator → k ≠ trailerStart + 2 ∨
      separator ≠ equalsSign → trailerStart + 3 ≤ k := by
    intro k hk hsep hne
    by_contra hlt
    obtain rfl | rfl | rfl : k = trailerStart ∨ k = trailerStart + 1 ∨ k = trailerStart + 2 := by
      omega
    · obtain rfl := Option.some.inj (hone.symm.trans hsep)
      exact absurd hdigit (by decide)
    · obtain rfl := Option.some.inj (hzero.symm.trans hsep)
      exact absurd hdigit (by decide)
    · exact hne.elim (absurd rfl) (absurd (Option.some.inj (heq.symm.trans hsep)).symm)
  have hlast : field.valueEnd < bytes.length → field.valueEnd + 1 = bytes.length := by
    intro hin
    have hsep := nextField_getElem? hlen hread hin
    exact h.after _ (hends _ hover hsep (not_and_or.mp hswallow)) hsep
  have hbounds := nextField_bounds hlen hread
  have hend : trailerStart + 2 < field.valueEnd := by
    have := (List.getElem?_eq_some_iff.mp heq).1
    rcases hbounds.2.2.2.lt_or_eq with hin | hall
    · have := hends _ hover (nextField_getElem? hlen hread hin) (not_and_or.mp hswallow)
      omega
    · omega
  obtain ⟨tagBytes, len, hoverruns, htag, -⟩ : ∃ tagBytes len,
      tokenizer.Overruns bytes separator tagBytes len ∧
        field.tag = (parseU32 tagBytes).getD malformed ∧
        bytes.length < field.valueStart + len + 2 := by
    rcases nextField_valueStart_le hlen hread (Nat.le_sub_one_of_lt hlt) hbefore with hle | ⟨rfl, hle⟩
    · exact hreads.overruns hlen hread hle hbefore (by omega) hlast
    · exact hreads.overruns hlen hread (by omega) heq hend hlast
  have hcloses : field.tag = checksumTag := by
    by_contra hne
    refine hnot (.overrun hoverruns ?_)
    intro hparse
    rw [hparse] at htag
    exact hne htag
  have hcount : bytes.length ≤ field.valueEnd + 1 := by
    rcases hbounds.2.2.2.lt_or_eq with hin | hall
    · exact (hlast hin).ge
    · omega
  exact (closesWithChecksum_of_append (hreads.tokenizeFields_of_length_le hread hcount)).mpr hcloses

end Closing

/-! ## The walk is the field loop -/

section Walk

variable {tokenizer : Tokenizer} {bytes capped : Bytes} {separator : UInt8} {atEnd : Bool}
  {cappedFinal : Bool} {separatorOverride : Option UInt8} {pos : ℕ} {dataLen : Option ℕ}
  {stop : End}

/-- A line break within the value of a CheckSum field cuts that value short. -/
private theorem nextField_take_lineBreak (hlen : capped.length ≤ u32Max) {field : RawField}
    {next offset : ℕ} (hread : nextField capped pos dataLen separator = some (field, next))
    (htag : field.tag = checksumTag) (hpos : pos ≤ offset) (hlf : capped[offset]? = some lineFeed)
    (hchecked : offset < checkedEnd capped dataLen (some (field, next))) :
    let len := (atLineBreak capped offset false).len
    pos ≤ len ∧ len ≤ capped.length ∧
      ∃ field', nextField (capped.take len) pos dataLen separator = some (field', len + 1) ∧
        field'.tag = checksumTag := by
  have hin := (List.getElem?_eq_some_iff.mp hlf).1
  obtain ⟨-, ⟨delimiter, hend, htagBytes, hstart, hvalue⟩ | ⟨-, hmalformed, -⟩⟩ :=
    (nextField_iff hlen).mp hread
  swap
  · rw [hmalformed] at htag
    exact absurd htag (by decide)
  obtain ⟨hle, heq, hnone⟩ := findTagEnd_eq_equals_iff.mp hend
  have hparse : parseU32 (slice capped pos delimiter) = some checksumTag := by
    rw [htagBytes] at htag
    cases hparse : parseU32 (slice capped pos delimiter) with
    | none =>
      rw [hparse] at htag
      exact absurd htag (by decide)
    | some n =>
      rw [hparse, Option.getD_some] at htag
      rw [htag]
  -- the line feed is no digit of the tag, so it stands in the value
  have hvalueStart : delimiter + 1 ≤ offset := by
    by_contra hlt
    rcases Nat.lt_or_ge offset delimiter with hbefore | hafter
    · have hmem : lineFeed ∈ slice capped pos delimiter := by
        apply List.mem_of_getElem? (i := offset - pos)
        rw [getElem?_slice _ (by omega), Nat.add_sub_cancel' hpos, hlf]
      exact absurd ((parseU32_eq_some_iff.mp hparse).2.1 _ hmem) (by decide)
    · obtain rfl : offset = delimiter := by omega
      exact absurd (Option.some.inj (hlf.symm.trans heq)) (by decide)
  -- and the value is not read by a length
  have hscanned : ∀ len, dataLen = some len →
      capped[delimiter + 1 + len]? ≠ some separator := by
    intro len hdata hsep
    have hbyLength := (hstart ▸ hvalue).unique (.byLength hdata hsep)
    simp only [checkedEnd, Option.elim_some, hdata, Option.some.injEq] at hchecked
    rw [if_pos (by omega)] at hchecked
    omega
  have hcheckedLe : checkedEnd capped dataLen (some (field, next)) ≤ field.valueEnd := by
    have := (nextField_bounds hlen hread).2.2.1
    simp only [checkedEnd, Option.elim_some]
    split
    · exact this
    · exact le_rfl
  have hlenBounds : delimiter + 1 ≤ (atLineBreak capped offset false).len ∧
      (atLineBreak capped offset false).len ≤ offset := by
    simp only [atLineBreak]
    split
    · next hcr =>
      constructor
      · by_contra hlt
        obtain rfl : offset - 1 = delimiter := by omega
        exact absurd (Option.some.inj (hcr.symm.trans heq)) (by decide)
      · omega
    · exact ⟨hvalueStart, le_rfl⟩
  generalize (atLineBreak capped offset false).len = len at hlenBounds
  have hpre : capped.take len <+: capped := List.take_prefix _ _
  have hlength : (capped.take len).length = len := by
    rw [List.length_take]
    omega
  refine ⟨by omega, by omega, ⟨field.tag, delimiter + 1, len⟩, ?_, htag⟩
  refine (nextField_iff (by omega)).mpr ⟨rfl, Or.inl ⟨delimiter, ?_, ?_, rfl, ?_⟩⟩
  · exact findTagEnd_of_isPrefix_of_lt hpre hend (by simp only [TagEnd.offset]; omega)
  · rw [← slice_of_isPrefix hpre (show delimiter ≤ (capped.take len).length by omega)]
    exact htagBytes
  · have hunterminated : ValueEnd (capped.take len) separator (delimiter + 1) dataLen
        (capped.take len).length := by
      refine .unterminated ?_ ?_
      · intro m hdata hsep
        exact hscanned m hdata (getElem?_eq_some_of_isPrefix hpre hsep)
      · refine findFrom_eq_none_iff.mpr ?_
        intro k b hk hb
        have hlt := (List.getElem?_eq_some_iff.mp hb).1
        rw [beq_eq_false_iff_ne]
        rintro rfl
        exact (hstart ▸ hvalue).ne_of_lt hscanned hk (by omega) (getElem?_eq_some_of_isPrefix hpre hb)
    rwa [hlength] at hunterminated

/-- A round that ends the walk with a CheckSum field has come to the field that closes the
message. -/
theorem walkStep_closes (hlen : capped.length ≤ u32Max)
    (h : walkStep tokenizer bytes capped cappedFinal separator separatorOverride atEnd pos dataLen =
      .done (some stop)) (hwhole : stop.truncated = false) :
    pos ≤ stop.len ∧ stop.len ≤ capped.length ∧
      ∃ field next, nextField (capped.take stop.len) pos dataLen separator = some (field, next) ∧
        field.tag = checksumTag ∧ stop.len ≤ next := by
  unfold walkStep at h
  simp only at h
  split at h
  · cases h
  split at h
  · -- a start cuts the message
    obtain rfl := Option.some.inj (WalkStep.done.inj h)
    cases hwhole
  · cases h
  split at h
  · next offset hfind =>
    obtain rfl := Option.some.inj (WalkStep.done.inj h)
    simp only [atLineBreak, Bool.not_eq_false', Option.any_eq_true] at hwhole
    obtain ⟨⟨field, next⟩, hread, htag⟩ := hwhole
    rw [hread] at hfind
    obtain ⟨hle, ⟨b, hb, heq⟩, -⟩ := findFrom_eq_some_iff.mp hfind
    have hlt := (List.getElem?_eq_some_iff.mp hb).1
    rw [List.length_take] at hlt
    have hlf : capped[offset]? = some lineFeed := by
      rw [← eq_of_beq heq]
      exact getElem?_eq_some_of_isPrefix (List.take_prefix _ _) hb
    obtain ⟨h₁, h₂, field', hread', htag'⟩ := nextField_take_lineBreak hlen hread
      (eq_of_beq htag) (by omega) hlf (by omega)
    exact ⟨h₁, h₂, field', _, hread', htag', Nat.le_succ _⟩
  split at h
  · -- no field
    split at h
    · obtain rfl := Option.some.inj (WalkStep.done.inj h)
      cases hwhole
    · cases h
  · next field after hread =>
    have hbounds := nextField_bounds hlen hread
    split at h
    · next hend =>
      split at h
      · obtain rfl := Option.some.inj (WalkStep.done.inj h)
        simp only [bne_eq_false_iff_eq] at hwhole
        refine ⟨by simp only; omega, le_rfl, field, after, ?_, hwhole, by simp only; omega⟩
        rw [List.take_length]
        exact hread
      · cases h
    · next hend =>
      split at h
      · next htag =>
        have hafter := WalkStep.done.inj h
        unfold afterMessage at hafter
        simp only at hafter
        split at hafter
        · cases hafter
        obtain rfl := Option.some.inj hafter
        have hlength : (capped.take after).length = after := by
          rw [List.length_take]
          omega
        refine ⟨by simp only; omega, by simp only; omega, field, after, ?_, htag, le_rfl⟩
        exact nextField_of_isPrefix_of_lt (List.take_prefix _ _) hlen hread
          (by simp only [hlength]; omega)
      · cases h

/-- **A walk that comes to CheckSum ends the message with it.** -/
theorem walkFrom_closes (hcapped : capped <+: bytes) (hlen : capped.length ≤ u32Max)
    {fields : List RawField} (hreads : tokenizer.Reads capped separator fields pos dataLen)
    (h : walkFrom tokenizer bytes capped cappedFinal separator separatorOverride atEnd pos dataLen =
      some stop) (hwhole : stop.truncated = false) :
    stop.len ≤ capped.length ∧
      ClosesWithChecksum tokenizer (bytes.take stop.len) separator := by
  induction hdist : capped.length + 1 - pos using Nat.strong_induction_on
    generalizing fields pos dataLen with
  | _ dist ih =>
    rw [walkFrom] at h
    split at h
    · next result hstep =>
      subst h
      obtain ⟨hpos, hle, field, next, hread, htag, hnext⟩ := walkStep_closes hlen hstep hwhole
      have htake : bytes.take stop.len = capped.take stop.len :=
        take_eq_take_of_isPrefix hcapped hle
      have hlength : (capped.take stop.len).length = stop.len := by
        rw [List.length_take]
        omega
      have hreads' := hreads.of_isPrefix (List.take_prefix stop.len _) hlen (by omega)
      rw [htake]
      exact ⟨hle, (closesWithChecksum_of_append
        (hreads'.tokenizeFields_of_length_le hread (by omega))).mpr htag⟩
    · next pos' dataLen' hstep =>
      obtain ⟨field, hread, rfl, -⟩ := walkStep_eq_next hstep
      have hlt := nextField_lt hread
      exact ih _ (by omega) (hreads.next hread) h rfl

end Walk

/-! ## The end BodyLength gives -/

section Ends

variable {tokenizer : Tokenizer} {bytes capped : Bytes} {separator : UInt8} {atEnd : Bool}
  {separatorOverride : Option UInt8} {stop : End}

/-- Where BodyLength points at a CheckSum field, the message closes with the text of one. -/
theorem byBodyLengthIn_closesAt (hcapped : capped <+: bytes) {cappedFinal : Bool}
    (h : byBodyLengthIn bytes capped cappedFinal separator atEnd = .found stop) :
    stop.len ≤ capped.length ∧ ∃ trailerStart,
      ClosesAt (bytes.take stop.len) separator trailerStart := by
  unfold byBodyLengthIn at h
  simp only at h
  split at h
  · cases h
  · split at h <;> cases h
  next trailerStart hdeclared =>
  split at h
  · split at h <;> cases h
  next hroom =>
  split at h
  · cases h
  next hhead =>
  rw [not_not] at hhead
  -- a message that ends behind `10=`, at the first separator there at the latest
  have hcloses : ∀ len, trailerStart + 3 ≤ len → len ≤ capped.length →
      (∀ k, trailerStart + 3 ≤ k → k + 1 < len → capped[k]? ≠ some separator) →
      len ≤ capped.length ∧ ∃ trailerStart, ClosesAt (bytes.take len) separator trailerStart := by
    intro len hlo hhi hbefore
    have htake : bytes.take len = capped.take len := take_eq_take_of_isPrefix hcapped hhi
    have hlength : (capped.take len).length = len := by
      rw [List.length_take]
      omega
    refine ⟨hhi, trailerStart, ?_, ?_⟩
    · rw [htake, ← hhead]
      exact (slice_of_isPrefix (List.take_prefix _ _) (by omega)).symm
    · intro k hk hsep
      rw [htake] at hsep ⊢
      have hlt := (List.getElem?_eq_some_iff.mp hsep).1
      by_contra hne
      exact hbefore k hk (by omega) (getElem?_eq_some_of_isPrefix (List.take_prefix _ _) hsep)
  split at h
  · next offset hfind =>
    obtain ⟨hle, ⟨b, hb, -⟩, hbefore⟩ := findFrom_eq_some_iff.mp hfind
    have hlt := (List.getElem?_eq_some_iff.mp hb).1
    have hnot : ∀ k, trailerStart + 3 ≤ k → k < offset → capped[k]? ≠ some separator := by
      intro k h₁ h₂ hk
      simpa using hbefore k separator h₁ h₂ hk
    split at h
    · split at h
      · next stop' hafter =>
        obtain rfl := BodyLengthEnd.found.inj h
        unfold afterMessage at hafter
        simp only at hafter
        split at hafter
        · cases hafter
        obtain rfl := Option.some.inj hafter
        exact hcloses (offset + 1) (by omega) hlt (fun k h₁ h₂ => hnot k h₁ (by omega))
      · cases h
    · obtain rfl := BodyLengthEnd.found.inj h
      obtain ⟨-, -, -, -, hequals⟩ := getElem?_of_head hhead
      have hlen : trailerStart + 3 ≤ (atLineBreak capped offset false).len ∧
          (atLineBreak capped offset false).len ≤ offset := by
        simp only [atLineBreak]
        split
        · next hcr =>
          refine ⟨?_, Nat.sub_le _ _⟩
          by_contra hshort
          rw [show offset - 1 = trailerStart + 2 by omega, hequals] at hcr
          exact absurd (Option.some.inj hcr) (by decide)
        · exact ⟨hle, le_rfl⟩
      exact hcloses _ hlen.1 (by omega) (fun k h₁ h₂ => hnot k h₁ (by omega))
  · next hfind =>
    split at h
    · obtain rfl := BodyLengthEnd.found.inj h
      refine hcloses capped.length (by omega) le_rfl (fun k h₁ _ hk => ?_)
      simpa using findFrom_eq_none_iff.mp hfind k separator h₁ hk
    · cases h

/-- **A message that is not truncated closes with CheckSum**, unless it is misread. -/
theorem findEnd_closes_iff (hdigit : isAsciiDigit separator = false)
    (h : findEnd tokenizer bytes separator separatorOverride atEnd = some stop)
    (hwhole : stop.truncated = false) :
    stop.len ≤ maxMessageLen ∧
      (ClosesWithChecksum tokenizer (bytes.take stop.len) separator ↔
        ¬ Misreads tokenizer (bytes.take stop.len) separator) := by
  obtain ⟨hcapped, hcap⟩ := cap_isPrefix bytes atEnd
  have hlen : (cap bytes atEnd).1.length ≤ u32Max := hcap.trans (by decide)
  unfold findEnd at h
  split at h
  · next stop' hfound =>
    obtain rfl := Option.some.inj h
    obtain ⟨hle, trailerStart, hcloses⟩ := byBodyLengthIn_closesAt hcapped hfound
    exact ⟨hle.trans hcap, hcloses.closes_iff (by rw [List.length_take]; omega) hdigit⟩
  · obtain ⟨hle, hcloses⟩ := walkFrom_closes hcapped hlen .start h hwhole
    refine ⟨hle.trans hcap, iff_of_true hcloses (fun hmisreads => hmisreads.not_closes ?_ hcloses)⟩
    rw [List.length_take]
    omega
  · cases h

theorem findMessage_closes_iff {given : Option UInt8} {sep : Separator} {copy : Option Bytes}
    (hstart : check bytes given = .start sep)
    (h : findMessage tokenizer separatorOverride bytes sep atEnd = some (stop, copy, separator))
    (hwhole : stop.truncated = false) :
    (copy.getD (bytes.take stop.len)).length ≤ maxMessageLen ∧
      (ClosesWithChecksum tokenizer (copy.getD (bytes.take stop.len)) separator ↔
        ¬ Misreads tokenizer (copy.getD (bytes.take stop.len)) separator) := by
  cases sep with
  | byte b =>
    obtain ⟨stop, hend, heq⟩ := Option.map_eq_some_iff.mp h
    cases heq
    obtain ⟨parts, hvalid, hsep, -⟩ := check_eq_start_iff.mp hstart
    have hallowed := hvalid.separator_allowed
    rw [hsep] at hallowed
    have hdigit : isAsciiDigit separator = false := by
      have hversion := hallowed.1
      simp only [isVersionByte, isAsciiAlphanumeric, Bool.or_eq_false_iff] at hversion
      exact hversion.1.1.1
    obtain ⟨hle, hcloses⟩ := findEnd_closes_iff hdigit hend hwhole
    exact ⟨(List.length_take_le _ _).trans hle, hcloses⟩
  | caretA =>
    obtain ⟨⟨stop, text⟩, hcopy, heq⟩ := Option.map_eq_some_iff.mp h
    cases heq
    simp only [copyMessage, Option.bind_eq_bind, Option.bind_eq_some_iff, Option.pure_def,
      Option.some.injEq, Prod.mk.injEq] at hcopy
    obtain ⟨⟨logLine, consumed⟩, -, stop', hend, rfl, rfl⟩ := hcopy
    obtain ⟨hle, hcloses⟩ := findEnd_closes_iff (by decide) hend hwhole
    exact ⟨(List.length_take_le _ _).trans hle, hcloses⟩

end Ends

/-! ## Records -/

theorem truncated_mem_record {tokenizer : Tokenizer} {taken : Taken}
    (h : taken.truncated = true) :
    LogDiagnostic.truncated ∈ (taken.record tokenizer).diagnostics := by
  simp [Taken.record, diagnose, h]

/-- **A record without the Truncated diagnostic ends with CheckSum**, unless it is misread. -/
theorem record_closes_iff {reader : LogReader} {atEnd : Bool} {taken : Taken}
    (h : (reader.takeMessage atEnd).1 = some taken)
    (hwhole : LogDiagnostic.truncated ∉ (taken.record reader.tokenizer).diagnostics) :
    taken.bytes.length ≤ maxMessageLen ∧
      (ClosesWithChecksum reader.tokenizer taken.bytes taken.separator ↔
        ¬ Misreads reader.tokenizer taken.bytes taken.separator) := by
  obtain ⟨start, stop, copy, hstart, hmessage, hlogged, hbytes, htruncated, -⟩ :=
    takeMessage_eq_some h
  have hstop : stop.truncated = false := by
    rw [← htruncated, Bool.eq_false_iff]
    exact fun htrue => hwhole (truncated_mem_record htrue)
  rw [hbytes, hlogged]
  exact findMessage_closes_iff (check_of_checkAt (checkAt_of_findStart hstart)) hmessage hstop

end Refix.Log
