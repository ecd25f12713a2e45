import Refix.Message.Tokenizer

/-!
# Fields

What reading one field delivers, and which positions the field loop reaches.

`nextField_iff` states a read by the bytes at its offsets. From it follows what carries over
between a buffer and a longer one: a field that ends inside the shorter buffer reads the same
in both (`nextField_of_isPrefix`, `nextField_of_isPrefix_of_lt`). `Tokenizer.Reads` follows
the loop field by field, and `Reads.tokenizeFields` cuts the index of a message at any
position it reaches.
-/

namespace Refix.Message

open Refix.Foundation

/-! ## Numbers in fields -/

theorem parseU32_eq_some_iff {digits : Bytes} {n : ℕ} :
    parseU32 digits = some n ↔
      digits ≠ [] ∧ (∀ b ∈ digits, isAsciiDigit b = true) ∧ decimalValue digits = n ∧
        n ≤ u32Max := by
  unfold parseU32
  rw [← List.all_eq_true]
  split
  · next h =>
    simp only [reduceCtorEq, false_iff, not_and]
    intro hne hall
    simp [hne, hall] at h
  · next h =>
    simp only [not_or, Bool.not_eq_false] at h
    simp [foldDigits_eq_some_iff, h.1, h.2]

/-- A number below `2 ^ 32` is read back from its numeral. -/
theorem parseU32_decimal {n : ℕ} (hn : n ≤ u32Max) : parseU32 (decimal n) = some n :=
  parseU32_eq_some_iff.mpr
    ⟨decimal_ne_nil n, fun _ => isAsciiDigit_of_mem_decimal, decimalValue_decimal n, hn⟩

/-! ## Where a value ends -/

/-- How the end of the value at `valueStart` is found. -/
inductive ValueEnd (bytes : Bytes) (separator : UInt8) (valueStart : ℕ) (dataLen : Option ℕ) :
    ℕ → Prop where
  /-- The pending length leads to a separator. -/
  | byLength {len : ℕ} (hlen : dataLen = some len)
      (hsep : bytes[valueStart + len]? = some separator) :
      ValueEnd bytes separator valueStart dataLen (valueStart + len)
  /-- There is no pending length that does, and a separator follows. -/
  | scanned {stop : ℕ}
      (hnot : ∀ len, dataLen = some len → bytes[valueStart + len]? ≠ some separator)
      (hstop : findSeparator bytes valueStart separator = some stop) :
      ValueEnd bytes separator valueStart dataLen stop
  /-- No separator follows. -/
  | unterminated
      (hnot : ∀ len, dataLen = some len → bytes[valueStart + len]? ≠ some separator)
      (hnone : findSeparator bytes valueStart separator = none) :
      ValueEnd bytes separator valueStart dataLen bytes.length

section ValueEnd

variable {bytes : Bytes} {separator : UInt8} {valueStart : ℕ} {dataLen : Option ℕ} {stop : ℕ}

private theorem dataValueEnd_eq_some_iff (hlen : bytes.length ≤ u32Max) {len : ℕ} :
    dataValueEnd bytes valueStart len separator = some stop ↔
      bytes[valueStart + len]? = some separator ∧ stop = valueStart + len := by
  have husize : u32Max ≤ usizeMax := by decide
  simp only [dataValueEnd, checkedAdd]
  constructor
  · intro h
    split at h
    · simp only [Option.bind_some, Option.ite_none_right_eq_some, Option.some.injEq] at h
      exact ⟨h.1, h.2.symm⟩
    · cases h
  · rintro ⟨hsep, rfl⟩
    have := (List.getElem?_eq_some_iff.mp hsep).1
    rw [if_pos (by omega), Option.bind_some, if_pos hsep]

theorem fieldValueEnd_valueEnd (hlen : bytes.length ≤ u32Max) :
    ValueEnd bytes separator valueStart dataLen
      (fieldValueEnd bytes valueStart dataLen separator) := by
  unfold fieldValueEnd
  cases hdata : dataLen.bind (dataValueEnd bytes valueStart · separator) with
  | some stop =>
    obtain ⟨len, hdataLen, hstop⟩ := Option.bind_eq_some_iff.mp hdata
    obtain ⟨hsep, rfl⟩ := (dataValueEnd_eq_some_iff hlen).mp hstop
    exact .byLength hdataLen hsep
  | none =>
    have hnot : ∀ len, dataLen = some len → bytes[valueStart + len]? ≠ some separator := by
      intro len hdataLen hsep
      rw [hdataLen, Option.bind_some] at hdata
      rw [(dataValueEnd_eq_some_iff hlen).mpr ⟨hsep, rfl⟩] at hdata
      cases hdata
    rw [Option.none_or]
    cases hfind : findSeparator bytes valueStart separator with
    | some stop => exact .scanned hnot hfind
    | none => exact .unterminated hnot hfind

/-- A value has one end. -/
theorem ValueEnd.unique {stop' : ℕ} (h : ValueEnd bytes separator valueStart dataLen stop)
    (h' : ValueEnd bytes separator valueStart dataLen stop') : stop = stop' := by
  cases h with
  | byLength hlen hsep =>
    cases h' with
    | byLength hlen' hsep' =>
      rw [hlen] at hlen'
      rw [Option.some.inj hlen']
    | scanned hnot _ => exact absurd hsep (hnot _ hlen)
    | unterminated hnot _ => exact absurd hsep (hnot _ hlen)
  | scanned hnot hstop =>
    cases h' with
    | byLength hlen' hsep' => exact absurd hsep' (hnot _ hlen')
    | scanned _ hstop' => exact Option.some.inj (hstop.symm.trans hstop')
    | unterminated _ hnone => exact absurd (hstop.symm.trans hnone) (by simp)
  | unterminated hnot hnone =>
    cases h' with
    | byLength hlen' hsep' => exact absurd hsep' (hnot _ hlen')
    | scanned _ hstop' => exact absurd (hstop'.symm.trans hnone) (by simp)
    | unterminated _ _ => rfl

theorem fieldValueEnd_eq_iff (hlen : bytes.length ≤ u32Max) :
    fieldValueEnd bytes valueStart dataLen separator = stop ↔
      ValueEnd bytes separator valueStart dataLen stop := by
  constructor
  · rintro rfl
    exact fieldValueEnd_valueEnd hlen
  · exact (fieldValueEnd_valueEnd hlen).unique

/-- A value that ends inside the bytes ends at a separator. -/
theorem ValueEnd.getElem? (h : ValueEnd bytes separator valueStart dataLen stop)
    (hlt : stop < bytes.length) : bytes[stop]? = some separator := by
  cases h with
  | byLength _ hsep => exact hsep
  | scanned _ hstop =>
    obtain ⟨-, ⟨b, hb, heq⟩, -⟩ := findFrom_eq_some_iff.mp hstop
    rwa [eq_of_beq heq] at hb
  | unterminated => omega

/-- A value that is not read by a length holds no separator. -/
theorem ValueEnd.ne_of_lt (h : ValueEnd bytes separator valueStart dataLen stop)
    (hnot : ∀ len, dataLen = some len → bytes[valueStart + len]? ≠ some separator) {k : ℕ}
    (hle : valueStart ≤ k) (hlt : k < stop) : bytes[k]? ≠ some separator := by
  intro hk
  cases h with
  | byLength hlen hsep => exact hnot _ hlen hsep
  | scanned _ hstop =>
    obtain ⟨-, -, hbefore⟩ := findFrom_eq_some_iff.mp hstop
    simpa using hbefore k separator hle hlt hk
  | unterminated _ hnone => simpa using findFrom_eq_none_iff.mp hnone k separator hle hk

variable {bytes' : Bytes}

/-- A value that ends inside the shorter buffer, its pending length pointing inside too. -/
theorem ValueEnd.of_isPrefix (h : ValueEnd bytes separator valueStart dataLen stop)
    (hpre : bytes <+: bytes') (hlt : stop < bytes.length)
    (hinside : ∀ len, dataLen = some len → valueStart + len < bytes.length) :
    ValueEnd bytes' separator valueStart dataLen stop := by
  cases h with
  | byLength hlen hsep => exact .byLength hlen (getElem?_eq_some_of_isPrefix hpre hsep)
  | scanned hnot hstop =>
    refine .scanned ?_ (findFrom_of_isPrefix hpre hstop)
    intro len hlen
    rw [getElem?_of_isPrefix hpre (hinside len hlen)]
    exact hnot len hlen
  | unterminated => omega

/-- What ends inside the shorter buffer in the longer one does in the shorter one. -/
theorem ValueEnd.of_isPrefix_of_lt (h : ValueEnd bytes' separator valueStart dataLen stop)
    (hpre : bytes <+: bytes') (hlt : stop < bytes.length) :
    ValueEnd bytes separator valueStart dataLen stop := by
  cases h with
  | byLength hlen hsep =>
    rw [getElem?_of_isPrefix hpre hlt] at hsep
    exact .byLength hlen hsep
  | scanned hnot hstop =>
    refine .scanned ?_ (findFrom_of_isPrefix_of_lt hpre hstop hlt)
    intro len hlen hsep
    exact hnot len hlen (getElem?_eq_some_of_isPrefix hpre hsep)
  | unterminated =>
    have := hpre.length_le
    omega

end ValueEnd

/-! ## Reading a field -/

section NextField

variable {bytes : Bytes} {separator : UInt8} {pos next : ℕ} {dataLen : Option ℕ}
  {field : RawField}

/-- A field that is read, by the bytes at its offsets: a tag up to `=` with its value, or a
run up to a separator that holds no `=`. -/
theorem nextField_iff (hlen : bytes.length ≤ u32Max) :
    nextField bytes pos dataLen separator = some (field, next) ↔
      next = field.valueEnd + 1 ∧
      ((∃ delimiter, findTagEnd bytes pos separator = some (.equals delimiter) ∧
          field.tag = (parseU32 (slice bytes pos delimiter)).getD malformed ∧
          field.valueStart = delimiter + 1 ∧
          ValueEnd bytes separator field.valueStart dataLen field.valueEnd) ∨
        (findTagEnd bytes pos separator = some (.separator field.valueEnd) ∧
          field.tag = malformed ∧ field.valueStart = pos)) := by
  obtain ⟨tag, valueStart, valueEnd⟩ := field
  unfold nextField
  cases hend : findTagEnd bytes pos separator with
  | none => simp
  | some tagEnd =>
    -- Every offset is within the bytes, so no cast to `u32` changes it.
    cases tagEnd with
    | equals delimiter =>
      have hlt := (List.getElem?_eq_some_iff.mp (findTagEnd_eq_equals_iff.mp hend).2.1).1
      have hle := le_fieldValueEnd dataLen separator (show delimiter + 1 ≤ bytes.length by omega)
      simp only [asU32_of_le (show delimiter + 1 ≤ bytes.length by omega) hlen,
        asU32_of_le hle.2 hlen, Option.some.injEq, Prod.mk.injEq, RawField.mk.injEq,
        TagEnd.equals.injEq, reduceCtorEq, false_and, or_false]
      constructor
      · rintro ⟨⟨rfl, rfl, rfl⟩, rfl⟩
        exact ⟨rfl, delimiter, rfl, rfl, rfl, fieldValueEnd_valueEnd hlen⟩
      · rintro ⟨rfl, _, rfl, rfl, rfl, hvalue⟩
        have := (fieldValueEnd_eq_iff hlen).mpr hvalue
        exact ⟨⟨rfl, rfl, this⟩, by rw [this]⟩
    | separator delimiter =>
      obtain ⟨hpos, hsep, -⟩ := findTagEnd_eq_separator_iff.mp hend
      have hlt := (List.getElem?_eq_some_iff.mp hsep).1
      simp only [asU32_of_le (show pos ≤ bytes.length by omega) hlen,
        asU32_of_le (show delimiter ≤ bytes.length by omega) hlen, Option.some.injEq,
        Prod.mk.injEq, RawField.mk.injEq, TagEnd.separator.injEq, reduceCtorEq, false_and,
        exists_false, false_or]
      constructor
      · rintro ⟨⟨rfl, rfl, rfl⟩, rfl⟩
        exact ⟨rfl, rfl, rfl, rfl⟩
      · rintro ⟨rfl, rfl, rfl, rfl⟩
        exact ⟨⟨rfl, rfl, rfl⟩, rfl⟩

/-- No field is read where neither `=` nor separator follows. -/
theorem nextField_eq_none_iff :
    nextField bytes pos dataLen separator = none ↔ findTagEnd bytes pos separator = none := by
  unfold nextField
  split
  · next h => simp [h]
  all_goals
    next h => simp [h]

theorem nextField_of_length_le (hle : bytes.length ≤ pos) :
    nextField bytes pos dataLen separator = none := by
  cases h : nextField bytes pos dataLen separator with
  | none => rfl
  | some read =>
    obtain ⟨field, next⟩ := read
    exact absurd (nextField_lt h).2 (Nat.not_lt.mpr hle)

/-- The offsets of a field that was read are in order and within the bytes. -/
theorem nextField_bounds (hlen : bytes.length ≤ u32Max)
    (h : nextField bytes pos dataLen separator = some (field, next)) :
    next = field.valueEnd + 1 ∧ pos ≤ field.valueStart ∧ field.valueStart ≤ field.valueEnd ∧
      field.valueEnd ≤ bytes.length := by
  obtain ⟨hnext, hread⟩ := (nextField_iff hlen).mp h
  refine ⟨hnext, ?_⟩
  rcases hread with ⟨delimiter, hend, -, hstart, hvalue⟩ | ⟨hend, -, hstart⟩
  · obtain ⟨hpos, heq, -⟩ := findTagEnd_eq_equals_iff.mp hend
    have hlt := (List.getElem?_eq_some_iff.mp heq).1
    have hle := le_fieldValueEnd dataLen separator
      (show field.valueStart ≤ bytes.length by omega)
    rw [(fieldValueEnd_eq_iff hlen).mpr hvalue] at hle
    omega
  · obtain ⟨hpos, hsep, -⟩ := findTagEnd_eq_separator_iff.mp hend
    have hlt := (List.getElem?_eq_some_iff.mp hsep).1
    omega

/-- A field that ends inside the bytes ends at a separator. -/
theorem nextField_getElem? (hlen : bytes.length ≤ u32Max)
    (h : nextField bytes pos dataLen separator = some (field, next))
    (hlt : field.valueEnd < bytes.length) : bytes[field.valueEnd]? = some separator := by
  obtain ⟨-, ⟨_, -, -, -, hvalue⟩ | ⟨hend, -⟩⟩ := (nextField_iff hlen).mp h
  · exact hvalue.getElem? hlt
  · exact (findTagEnd_eq_separator_iff.mp hend).2.1

/-! ## Reading a field of a longer buffer -/

variable {bytes' : Bytes}

theorem findTagEnd_of_isPrefix (hpre : bytes <+: bytes') {tagEnd : TagEnd}
    (h : findTagEnd bytes pos separator = some tagEnd) :
    findTagEnd bytes' pos separator = some tagEnd := by
  rw [findTagEnd_eq] at h ⊢
  obtain ⟨offset, hfind, htag⟩ := Option.map_eq_some_iff.mp h
  rw [findFrom_of_isPrefix hpre hfind, Option.map_some,
    getElem?_of_isPrefix hpre (findFrom_lt hfind).2, htag]

def TagEnd.offset : TagEnd → ℕ
  | .equals offset => offset
  | .separator offset => offset

theorem findTagEnd_of_isPrefix_of_lt (hpre : bytes <+: bytes') {tagEnd : TagEnd}
    (h : findTagEnd bytes' pos separator = some tagEnd) (hlt : tagEnd.offset < bytes.length) :
    findTagEnd bytes pos separator = some tagEnd := by
  rw [findTagEnd_eq] at h ⊢
  obtain ⟨offset, hfind, htag⟩ := Option.map_eq_some_iff.mp h
  have hoffset : tagEnd.offset = offset := by
    rw [← htag]
    split <;> rfl
  rw [hoffset] at hlt
  rw [findFrom_of_isPrefix_of_lt hpre hfind hlt, Option.map_some,
    ← getElem?_of_isPrefix hpre hlt, htag]

/-- A field that ends inside the shorter buffer, its pending length pointing inside too, reads
the same in the longer one. -/
theorem nextField_of_isPrefix (hpre : bytes <+: bytes') (hlen : bytes'.length ≤ u32Max)
    (h : nextField bytes pos dataLen separator = some (field, next))
    (hlt : field.valueEnd < bytes.length)
    (hinside : ∀ len, dataLen = some len → field.valueStart + len < bytes.length) :
    nextField bytes' pos dataLen separator = some (field, next) := by
  have hle := hpre.length_le
  obtain ⟨hnext, hread⟩ := (nextField_iff (by omega)).mp h
  refine (nextField_iff hlen).mpr ⟨hnext, ?_⟩
  rcases hread with ⟨delimiter, hend, htag, hstart, hvalue⟩ | ⟨hend, htag, hstart⟩
  · refine Or.inl ⟨delimiter, findTagEnd_of_isPrefix hpre hend, ?_, hstart,
      hvalue.of_isPrefix hpre hlt hinside⟩
    have hdelimiter := (List.getElem?_eq_some_iff.mp (findTagEnd_eq_equals_iff.mp hend).2.1).1
    rw [htag, slice_of_isPrefix hpre hdelimiter.le]
  · exact Or.inr ⟨findTagEnd_of_isPrefix hpre hend, htag, hstart⟩

/-- A field of the longer buffer that ends inside the shorter one reads the same there. -/
theorem nextField_of_isPrefix_of_lt (hpre : bytes <+: bytes') (hlen : bytes'.length ≤ u32Max)
    (h : nextField bytes' pos dataLen separator = some (field, next))
    (hlt : field.valueEnd < bytes.length) :
    nextField bytes pos dataLen separator = some (field, next) := by
  have hle := hpre.length_le
  obtain ⟨-, -, hstartEnd, -⟩ := nextField_bounds hlen h
  obtain ⟨hnext, hread⟩ := (nextField_iff hlen).mp h
  refine (nextField_iff (by omega)).mpr ⟨hnext, ?_⟩
  rcases hread with ⟨delimiter, hend, htag, hstart, hvalue⟩ | ⟨hend, htag, hstart⟩
  · refine Or.inl ⟨delimiter,
      findTagEnd_of_isPrefix_of_lt hpre hend (by simp only [TagEnd.offset]; omega), ?_, hstart,
      hvalue.of_isPrefix_of_lt hpre hlt⟩
    rw [htag, slice_of_isPrefix hpre (by omega)]
  · exact Or.inr ⟨findTagEnd_of_isPrefix_of_lt hpre hend hlt, htag, hstart⟩

/-- A value that runs to the end of the shorter buffer runs at least as far in the longer
one. -/
theorem nextField_unterminated_of_isPrefix (hpre : bytes <+: bytes')
    (hlen : bytes'.length ≤ u32Max)
    (h : nextField bytes pos dataLen separator = some (field, next))
    (hend : field.valueEnd = bytes.length) :
    ∃ field' next', nextField bytes' pos dataLen separator = some (field', next') ∧
      field'.tag = field.tag ∧ field'.valueStart = field.valueStart ∧
      bytes.length ≤ field'.valueEnd := by
  have hle := hpre.length_le
  obtain ⟨-, ⟨delimiter, htagEnd, htag, hstart, hvalue⟩ | ⟨htagEnd, -⟩⟩ :=
    (nextField_iff (by omega)).mp h
  · have hdelimiter := (List.getElem?_eq_some_iff.mp (findTagEnd_eq_equals_iff.mp htagEnd).2.1).1
    refine ⟨⟨field.tag, field.valueStart, fieldValueEnd bytes' field.valueStart dataLen separator⟩,
      fieldValueEnd bytes' field.valueStart dataLen separator + 1, ?_, rfl, rfl, ?_⟩
    · refine (nextField_iff hlen).mpr ⟨rfl, Or.inl ⟨delimiter,
        findTagEnd_of_isPrefix hpre htagEnd, ?_, hstart, fieldValueEnd_valueEnd hlen⟩⟩
      rw [slice_of_isPrefix hpre hdelimiter.le]
      exact htag
    · -- an end inside the shorter buffer would be the end there too
      by_contra hlt
      have hfull : ValueEnd bytes' separator field.valueStart dataLen
          (fieldValueEnd bytes' field.valueStart dataLen separator) := fieldValueEnd_valueEnd hlen
      have := (hfull.of_isPrefix_of_lt hpre (Nat.lt_of_not_le hlt)).unique hvalue
      simp only at hlt
      omega
  · have hlt := (List.getElem?_eq_some_iff.mp (findTagEnd_eq_separator_iff.mp htagEnd).2.1).1
    omega

/-- A field that only the longer buffer has ends behind the shorter one, and a byte of the
shorter one that is no digit is part of its tag. -/
theorem nextField_of_eq_none (hpre : bytes <+: bytes') (hlen : bytes'.length ≤ u32Max)
    (hnone : nextField bytes pos dataLen separator = none)
    (h : nextField bytes' pos dataLen separator = some (field, next)) :
    bytes.length ≤ field.valueEnd ∧
      ∀ k b, pos ≤ k → bytes[k]? = some b → isAsciiDigit b = false → field.tag = malformed := by
  have htagEnd := nextField_eq_none_iff.mp hnone
  -- The shorter buffer holds no end of the tag, so it ends behind that buffer.
  have hoffset : ∀ tagEnd, findTagEnd bytes' pos separator = some tagEnd →
      bytes.length ≤ tagEnd.offset := by
    intro tagEnd h'
    by_contra hlt
    rw [findTagEnd_of_isPrefix_of_lt hpre h' (Nat.lt_of_not_le hlt)] at htagEnd
    cases htagEnd
  obtain ⟨-, ⟨delimiter, htagEnd', htag, hstart, hvalue⟩ | ⟨htagEnd', htag, -⟩⟩ :=
    (nextField_iff hlen).mp h
  · have hbehind := hoffset _ htagEnd'
    have hbounds := nextField_bounds hlen h
    simp only [TagEnd.offset] at hbehind
    refine ⟨by omega, ?_⟩
    intro k b hk hb hdigit
    have hlt := (List.getElem?_eq_some_iff.mp hb).1
    have hmem : b ∈ slice bytes' pos delimiter := by
      apply List.mem_of_getElem? (i := k - pos)
      rw [getElem?_slice _ (by omega), Nat.add_sub_cancel' hk]
      exact getElem?_eq_some_of_isPrefix hpre hb
    have hparse : parseU32 (slice bytes' pos delimiter) = none := by
      cases hparse : parseU32 (slice bytes' pos delimiter) with
      | none => rfl
      | some n =>
        have := (parseU32_eq_some_iff.mp hparse).2.1 b hmem
        rw [hdigit] at this
        cases this
    rw [htag, hparse, Option.getD_none]
  · exact ⟨hoffset _ htagEnd', fun _ _ _ _ _ => htag⟩

/-- The pending length a field leaves is read from its value alone. -/
theorem pendingDataLen_of_isPrefix (tokenizer : Tokenizer) (hpre : bytes <+: bytes')
    (hle : field.valueEnd ≤ bytes.length) :
    tokenizer.pendingDataLen bytes' field = tokenizer.pendingDataLen bytes field := by
  simp only [Tokenizer.pendingDataLen, RawField.value, slice_of_isPrefix hpre hle]

end NextField

/-! ## The field loop -/

/-- The loop that reads fields from the front of `bytes` has read `fields` and stands at a
position with a pending length. -/
inductive Tokenizer.Reads (tokenizer : Tokenizer) (bytes : Bytes) (separator : UInt8) :
    List RawField → ℕ → Option ℕ → Prop where
  | start : tokenizer.Reads bytes separator [] 0 none
  | next {fields : List RawField} {pos next : ℕ} {dataLen : Option ℕ} {field : RawField}
      (before : tokenizer.Reads bytes separator fields pos dataLen)
      (read : nextField bytes pos dataLen separator = some (field, next)) :
      tokenizer.Reads bytes separator (fields ++ [field]) next
        (tokenizer.pendingDataLen bytes field)

namespace Tokenizer.Reads

variable {tokenizer : Tokenizer} {bytes bytes' : Bytes} {separator : UInt8}
  {fields : List RawField} {pos : ℕ} {dataLen : Option ℕ}

/-- The fields of a message are those read so far, and those from there on. -/
theorem tokenizeFields (h : tokenizer.Reads bytes separator fields pos dataLen) :
    tokenizer.tokenizeFields bytes separator =
      fields ++ tokenizer.tokenizeFrom bytes separator pos dataLen := by
  induction h with
  | start => rfl
  | @next fields pos next dataLen field before read ih =>
    rw [ih, Tokenizer.tokenizeFrom]
    split
    · next hnone => exact absurd (read.symm.trans hnone) (by simp)
    · next field' next' hsome =>
      obtain ⟨rfl, rfl⟩ := Prod.mk.inj (Option.some.inj (read.symm.trans hsome))
      rw [List.append_assoc, List.singleton_append]

/-- At the end of the loop the fields are all there. -/
theorem tokenizeFields_of_none (h : tokenizer.Reads bytes separator fields pos dataLen)
    (hend : nextField bytes pos dataLen separator = none) :
    tokenizer.tokenizeFields bytes separator = fields := by
  rw [h.tokenizeFields, Tokenizer.tokenizeFrom]
  split
  · rw [List.append_nil]
  · next hsome => exact absurd (hend.symm.trans hsome) (by simp)

/-- A field that takes the rest of the bytes is the last one. -/
theorem tokenizeFields_of_length_le (h : tokenizer.Reads bytes separator fields pos dataLen)
    {field : RawField} {next : ℕ}
    (hread : nextField bytes pos dataLen separator = some (field, next))
    (hle : bytes.length ≤ next) :
    tokenizer.tokenizeFields bytes separator = fields ++ [field] :=
  (h.next hread).tokenizeFields_of_none (nextField_of_length_le hle)

/-- The loop reads on until nothing is left to read. -/
theorem exists_end (h : tokenizer.Reads bytes separator fields pos dataLen) :
    ∃ pos' dataLen', tokenizer.Reads bytes separator (tokenizer.tokenizeFields bytes separator)
      pos' dataLen' ∧ nextField bytes pos' dataLen' separator = none := by
  induction hdist : bytes.length + 1 - pos using Nat.strong_induction_on
    generalizing fields pos dataLen with
  | _ dist ih =>
    cases hread : nextField bytes pos dataLen separator with
    | none =>
      rw [h.tokenizeFields_of_none hread]
      exact ⟨pos, dataLen, h, hread⟩
    | some read =>
      obtain ⟨field, next⟩ := read
      have hlt := nextField_lt hread
      exact ih _ (by omega) (h.next hread) rfl

/-- The loop stands right behind the last field it read. -/
theorem getLast?_eq (h : tokenizer.Reads bytes separator fields pos dataLen)
    (hlen : bytes.length ≤ u32Max) : pos = fields.getLast?.elim 0 (·.valueEnd + 1) := by
  cases h with
  | start => rfl
  | next before read => simp [(nextField_bounds hlen read).1]

/-- The last field was read where the ones before it end. -/
theorem exists_last {before : List RawField} {last : RawField}
    (h : tokenizer.Reads bytes separator (before ++ [last]) pos dataLen) :
    ∃ pos' dataLen', tokenizer.Reads bytes separator before pos' dataLen' ∧
      nextField bytes pos' dataLen' separator = some (last, pos) := by
  generalize hfields : before ++ [last] = fields at h
  cases h with
  | start => simp at hfields
  | next hbefore read =>
    obtain ⟨rfl, heq⟩ := List.append_inj' hfields rfl
    obtain rfl := List.singleton_inj.mp heq
    exact ⟨_, _, hbefore, read⟩

/-- The loop stood behind each of the fields it read, with what that one left pending. -/
theorem exists_at {before after : List RawField} {field : RawField}
    (h : tokenizer.Reads bytes separator (before ++ field :: after) pos dataLen)
    (hlen : bytes.length ≤ u32Max) :
    tokenizer.Reads bytes separator (before ++ [field]) (field.valueEnd + 1)
      (tokenizer.pendingDataLen bytes field) := by
  induction after using List.reverseRecOn generalizing pos dataLen with
  | nil =>
    obtain ⟨pos', dataLen', hbefore, hread⟩ := exists_last h
    have hnext := hbefore.next hread
    rwa [(nextField_bounds hlen hread).1] at hnext
  | append_singleton after last ih =>
    rw [← List.cons_append, ← List.append_assoc] at h
    obtain ⟨pos', dataLen', hbefore, -⟩ := exists_last h
    exact ih hbefore

/-- The value of every field read lies within the bytes. -/
theorem bounds (h : tokenizer.Reads bytes separator fields pos dataLen)
    (hlen : bytes.length ≤ u32Max) :
    ∀ field ∈ fields, field.valueStart ≤ field.valueEnd ∧ field.valueEnd ≤ bytes.length := by
  induction h with
  | start => simp
  | next before read ih =>
    obtain ⟨-, -, hvalue, hend⟩ := nextField_bounds hlen read
    exact List.forall_mem_append.mpr ⟨ih, by simpa using ⟨hvalue, hend⟩⟩

/-- What the loop reads inside a shorter buffer, it reads there too. -/
theorem of_isPrefix (h : tokenizer.Reads bytes' separator fields pos dataLen)
    (hpre : bytes <+: bytes') (hlen : bytes'.length ≤ u32Max) (hle : pos ≤ bytes.length) :
    tokenizer.Reads bytes separator fields pos dataLen := by
  induction h with
  | start => exact .start
  | next before read ih =>
    have hbounds := nextField_bounds hlen read
    have hread := nextField_of_isPrefix_of_lt hpre hlen read (by omega)
    rw [pendingDataLen_of_isPrefix tokenizer hpre (by omega)]
    exact .next (ih (by omega)) hread

end Tokenizer.Reads

end Refix.Message
