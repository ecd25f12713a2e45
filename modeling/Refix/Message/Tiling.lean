import Refix.Message.Envelope

/-!
# Tilings

The index of a message lays its fields one behind the other: each starts where the one before
it ended. `Tiles` states this about the bytes alone, with a rule for where a value may end, so
that the index of a frame and the index of a logged message are tilings by the same rules
(`Tokenizer.exists_tiles`). Where the last tile of an index ends decides whether it covers the
message.
-/

namespace Refix.Message

open Refix.Foundation

/-! ## Numbers -/

/-- The bytes are the digits of `n`, a `u32`. -/
structure DenotesU32 (digits : Bytes) (n : ℕ) : Prop where
  nonempty : digits ≠ []
  digit : ∀ b ∈ digits, isAsciiDigit b = true
  value : decimalValue digits = n
  fits : n ≤ u32Max

theorem parseU32_eq_some_iff_denotesU32 {digits : Bytes} {n : ℕ} :
    parseU32 digits = some n ↔ DenotesU32 digits n := by
  rw [parseU32_eq_some_iff]
  exact ⟨fun ⟨h₁, h₂, h₃, h₄⟩ => ⟨h₁, h₂, h₃, h₄⟩, fun ⟨h₁, h₂, h₃, h₄⟩ => ⟨h₁, h₂, h₃, h₄⟩⟩

/-- The tag that a field's tag bytes stand for. -/
inductive TagOf (tagBytes : Bytes) : Tag → Prop where
  | number {tag : Tag} (h : DenotesU32 tagBytes tag) : TagOf tagBytes tag
  | malformed (h : ∀ n, ¬ DenotesU32 tagBytes n) : TagOf tagBytes malformed

theorem tagOf_iff {tagBytes : Bytes} {tag : Tag} :
    TagOf tagBytes tag ↔ tag = (parseU32 tagBytes).getD malformed := by
  cases hparse : parseU32 tagBytes with
  | some n =>
    have hdenotes := parseU32_eq_some_iff_denotesU32.mp hparse
    constructor
    · rintro (h | h)
      · exact h.value.symm.trans hdenotes.value
      · exact absurd hdenotes (h n)
    · rintro rfl
      exact .number hdenotes
  | none =>
    have hnot : ∀ n, ¬ DenotesU32 tagBytes n := by
      intro n h
      rw [parseU32_eq_some_iff_denotesU32.mpr h] at hparse
      cases hparse
    constructor
    · rintro (h | h)
      · exact absurd h (hnot tag)
      · rfl
    · rintro rfl
      exact .malformed hnot

/-! ## Fields in their place -/

/-- A value with a separator behind its start ends inside the bytes. -/
theorem ValueEnd.lt_length {bytes : Bytes} {separator : UInt8} {valueStart stop k : ℕ}
    {dataLen : Option ℕ} (h : ValueEnd bytes separator valueStart dataLen stop)
    (hle : valueStart ≤ k) (hk : bytes[k]? = some separator) : stop < bytes.length := by
  cases h with
  | byLength _ hsep => exact (List.getElem?_eq_some_iff.mp hsep).1
  | scanned _ hstop => exact (findFrom_lt hstop).2
  | unterminated _ hnone =>
    exact absurd hk fun hk => by simpa using findFrom_eq_none_iff.mp hnone k separator hle hk

/-- No `=` and no separator stands between the two offsets. -/
def Plain (bytes : Bytes) (separator : UInt8) (pos stop : ℕ) : Prop :=
  ∀ k b, pos ≤ k → k < stop → bytes[k]? = some b → b ≠ equalsSign ∧ b ≠ separator

/-- The field that stands at `pos`, its value ending where `ends` allows. -/
inductive FieldAt (bytes : Bytes) (separator : UInt8) (ends : ℕ → ℕ → Prop) (pos : ℕ) :
    RawField → Prop where
  /-- A tag up to the first `=`, and a value. -/
  | tagged {delimiter valueEnd : ℕ} {tag : Tag} (hle : pos ≤ delimiter)
      (heq : bytes[delimiter]? = some equalsSign) (hplain : Plain bytes separator pos delimiter)
      (htag : TagOf (slice bytes pos delimiter) tag) (hend : ends (delimiter + 1) valueEnd) :
      FieldAt bytes separator ends pos ⟨tag, delimiter + 1, valueEnd⟩
  /-- A run without `=`. -/
  | run {valueEnd : ℕ} (hplain : Plain bytes separator pos valueEnd)
      (hne : bytes[valueEnd]? ≠ some equalsSign) :
      FieldAt bytes separator ends pos ⟨malformed, pos, valueEnd⟩

/-- The fields stand one behind the other, the first at `pos` and behind `previous`. Each starts
inside the bytes and ends at a separator, or with the bytes; behind the last one comes `stop`. -/
inductive Tiles (bytes : Bytes) (separator : UInt8) (ends : Option RawField → ℕ → ℕ → Prop) :
    ℕ → Option RawField → List RawField → ℕ → Prop where
  | nil {pos : ℕ} {previous : Option RawField} : Tiles bytes separator ends pos previous [] pos
  | cons {pos stop : ℕ} {previous : Option RawField} {field : RawField} {fields : List RawField}
      (hpos : pos < bytes.length) (hfield : FieldAt bytes separator (ends previous) pos field)
      (hle : field.valueStart ≤ field.valueEnd)
      (hstop : bytes[field.valueEnd]? = some separator ∨ field.valueEnd = bytes.length)
      (htail : Tiles bytes separator ends (field.valueEnd + 1) (some field) fields stop) :
      Tiles bytes separator ends pos previous (field :: fields) stop

section Tiles

variable {bytes : Bytes} {separator : UInt8} {pos stop : ℕ} {previous : Option RawField}
  {field : RawField} {fields : List RawField} {ends : Option RawField → ℕ → ℕ → Prop}

theorem FieldAt.pos_le {ends : ℕ → ℕ → Prop} (h : FieldAt bytes separator ends pos field) :
    pos ≤ field.valueStart := by
  cases h with
  | tagged hle => exact Nat.le_succ_of_le hle
  | run => exact le_rfl

theorem FieldAt.mono {ends ends' : ℕ → ℕ → Prop} (h : FieldAt bytes separator ends pos field)
    (hends : ∀ valueStart valueEnd, ends valueStart valueEnd → ends' valueStart valueEnd) :
    FieldAt bytes separator ends' pos field := by
  cases h with
  | tagged hle heq hplain htag hend => exact .tagged hle heq hplain htag (hends _ _ hend)
  | run hplain hne => exact .run hplain hne

/-- A stricter rule for the ends of values has fewer tilings. -/
theorem Tiles.mono {ends' : Option RawField → ℕ → ℕ → Prop}
    (h : Tiles bytes separator ends pos previous fields stop)
    (hends : ∀ previous valueStart valueEnd, ends previous valueStart valueEnd →
      ends' previous valueStart valueEnd) :
    Tiles bytes separator ends' pos previous fields stop := by
  induction h with
  | nil => exact .nil
  | cons hpos hfield hle hstop _ ih => exact .cons hpos (hfield.mono (hends _)) hle hstop ih

/-- A tiling ends behind its last field. -/
theorem Tiles.stop_eq (h : Tiles bytes separator ends pos previous fields stop) :
    stop = fields.getLast?.elim pos (·.valueEnd + 1) := by
  induction h with
  | nil => rfl
  | @cons pos stop previous field fields _ _ _ _ _ ih =>
    rw [ih, List.getLast?_cons]
    cases fields.getLast? <;> rfl

theorem Tiles.valueEnd_lt (h : Tiles bytes separator ends pos previous fields stop) :
    pos ≤ stop ∧ ∀ field ∈ fields, field.valueStart ≤ field.valueEnd ∧ field.valueEnd < stop := by
  induction h with
  | nil => exact ⟨le_rfl, by simp⟩
  | cons _ hfield hle _ _ ih =>
    have hpos := hfield.pos_le
    obtain ⟨hstop, hall⟩ := ih
    exact ⟨by omega, List.forall_mem_cons.mpr ⟨⟨hle, by omega⟩, hall⟩⟩

theorem Tiles.stop_le (h : Tiles bytes separator ends pos previous fields stop)
    (hpos : pos ≤ bytes.length + 1) : stop ≤ bytes.length + 1 := by
  induction h with
  | nil => exact hpos
  | @cons _ _ _ field _ _ _ _ hend _ ih =>
    apply ih
    rcases hend with hsep | heq
    · have := (List.getElem?_eq_some_iff.mp hsep).1
      omega
    · exact heq ▸ le_rfl

/-- Every field of a tiling that ends with the bytes ends at a separator. -/
theorem Tiles.getElem?_valueEnd (h : Tiles bytes separator ends pos previous fields stop)
    (hstop : stop ≤ bytes.length) :
    ∀ field ∈ fields, bytes[field.valueEnd]? = some separator := by
  induction h with
  | nil => simp
  | cons _ hfield hle hend htail ih =>
    refine List.forall_mem_cons.mpr ⟨hend.resolve_right ?_, ih hstop⟩
    have := htail.valueEnd_lt.1
    omega

/-- A separator stands right before the end of a tiling. -/
theorem Tiles.getElem?_before_stop (h : Tiles bytes separator ends pos previous fields stop)
    (hpos : ∀ k, k + 1 = pos → bytes[k]? = some separator) (hstop : stop ≤ bytes.length) {k : ℕ}
    (hk : k + 1 = stop) : bytes[k]? = some separator := by
  induction h with
  | nil => exact hpos k hk
  | cons _ hfield hle hend htail ih =>
    refine ih ?_ hstop hk
    intro k' hk'
    obtain rfl := Nat.succ.inj hk'
    have := htail.valueEnd_lt.1
    exact hend.resolve_right (by omega)

end Tiles

/-! ## The index is a tiling -/

section Index

variable {tokenizer : Tokenizer} {bytes : Bytes} {separator : UInt8} {pos next stop : ℕ}
  {dataLen : Option ℕ} {field : RawField} {fields : List RawField}

/-- The tokenizer's own rule for the end of a value, by the field before it. -/
def Tokenizer.ends (tokenizer : Tokenizer) (bytes : Bytes) (separator : UInt8)
    (previous : Option RawField) (valueStart valueEnd : ℕ) : Prop :=
  ValueEnd bytes separator valueStart (previous.bind (tokenizer.pendingDataLen bytes)) valueEnd

/-- A field that is read stands where it was read, and ends where its value does. -/
theorem fieldAt_of_nextField (hlen : bytes.length ≤ u32Max)
    (h : nextField bytes pos dataLen separator = some (field, next)) :
    FieldAt bytes separator (fun valueStart => ValueEnd bytes separator valueStart dataLen) pos
        field ∧
      (bytes[field.valueEnd]? = some separator ∨ field.valueEnd = bytes.length) := by
  have hbounds := nextField_bounds hlen h
  constructor
  · obtain ⟨tag, valueStart, valueEnd⟩ := field
    obtain ⟨-, ⟨delimiter, hend, htag, hstart, hvalue⟩ | ⟨hend, htag, hstart⟩⟩ :=
      (nextField_iff hlen).mp h
    · obtain ⟨hle, heq, hplain⟩ := findTagEnd_eq_equals_iff.mp hend
      cases hstart
      exact .tagged hle heq hplain (tagOf_iff.mpr htag) hvalue
    · obtain ⟨-, hsep, hne, hplain⟩ := findTagEnd_eq_separator_iff.mp hend
      cases hstart
      cases htag
      exact .run hplain (by simpa [hsep] using hne)
  · rcases hbounds.2.2.2.eq_or_lt with heq | hlt
    · exact Or.inr heq
    · exact Or.inl (nextField_getElem? hlen h hlt)

/-- A field that stands there by the tokenizer's rule is the one that is read. -/
theorem nextField_of_fieldAt (hlen : bytes.length ≤ u32Max)
    (h : FieldAt bytes separator (fun valueStart => ValueEnd bytes separator valueStart dataLen)
      pos field)
    (hle : field.valueStart ≤ field.valueEnd) (hsep : bytes[field.valueEnd]? = some separator) :
    nextField bytes pos dataLen separator = some (field, field.valueEnd + 1) := by
  refine (nextField_iff hlen).mpr ⟨rfl, ?_⟩
  cases h with
  | tagged hpos heq hplain htag hend =>
    exact Or.inl ⟨_, findTagEnd_eq_equals_iff.mpr ⟨hpos, heq, hplain⟩, tagOf_iff.mp htag, rfl, hend⟩
  | run hplain hne =>
    refine Or.inr ⟨findTagEnd_eq_separator_iff.mpr ⟨hle, hsep, ?_, hplain⟩, rfl, rfl⟩
    rintro rfl
    exact hne hsep

/-- The fields from a position on tile the bytes from there, up to a place behind which
neither `=` nor separator stands. -/
theorem Tokenizer.exists_tiles_from (tokenizer : Tokenizer) (hlen : bytes.length ≤ u32Max)
    (previous : Option RawField) (pos : ℕ) :
    ∃ stop, Tiles bytes separator (tokenizer.ends bytes separator) pos previous
        (tokenizer.tokenizeFrom bytes separator pos
          (previous.bind (tokenizer.pendingDataLen bytes))) stop ∧
      Plain bytes separator stop bytes.length := by
  induction hdist : bytes.length + 1 - pos using Nat.strong_induction_on
    generalizing pos previous with
  | _ dist ih =>
    rw [Tokenizer.tokenizeFrom]
    split
    · next hnone =>
      refine ⟨pos, .nil, ?_⟩
      intro k b hk _ hb
      exact findTagEnd_eq_none_iff.mp (nextField_eq_none_iff.mp hnone) k b hk hb
    · next field next hread =>
      have hlt := nextField_lt hread
      obtain ⟨rfl, -, hle, -⟩ := nextField_bounds hlen hread
      obtain ⟨hfield, hend⟩ := fieldAt_of_nextField hlen hread
      obtain ⟨stop, htiles, hplain⟩ :=
        ih _ (by omega) (some field) (field.valueEnd + 1) rfl
      exact ⟨stop, .cons hlt.2 hfield hle hend htiles, hplain⟩

/-- **The index of any bytes is a tiling** that leaves out at most a last run without `=`. -/
theorem Tokenizer.exists_tiles (tokenizer : Tokenizer) (separator : UInt8)
    (hlen : bytes.length ≤ u32Max) :
    ∃ stop, Tiles bytes separator (tokenizer.ends bytes separator) 0 none
        (tokenizer.tokenizeFields bytes separator) stop ∧
      Plain bytes separator stop bytes.length :=
  tokenizer.exists_tiles_from hlen none 0

/-- A tiling by the tokenizer's rule, with a separator at every end, is what the loop reads. -/
theorem Tiles.reads (hlen : bytes.length ≤ u32Max) {before : List RawField}
    {previous : Option RawField}
    (h : Tiles bytes separator (tokenizer.ends bytes separator) pos previous fields stop)
    (hreads : tokenizer.Reads bytes separator before pos
      (previous.bind (tokenizer.pendingDataLen bytes)))
    (hstop : stop ≤ bytes.length) :
    ∃ dataLen', tokenizer.Reads bytes separator (before ++ fields) stop dataLen' := by
  induction h generalizing before with
  | nil => exact ⟨_, by simpa using hreads⟩
  | @cons pos stop previous field fields hpos hfield hle hend htail ih =>
    have hsep := (Tiles.cons hpos hfield hle hend htail).getElem?_valueEnd hstop field (by simp)
    have hread := nextField_of_fieldAt hlen hfield hle hsep
    simpa using ih (hreads.next hread) hstop

end Index

/-! ## The index of a frame -/

/-- Only a data value may hold a separator, one whose length the field before it gives under a
length tag of the dialect. -/
def Dialect.EndsValue (dialect : Dialect) (bytes : Bytes) (separator : UInt8)
    (previous : Option RawField) (valueStart valueEnd : ℕ) : Prop :=
  separator ∈ slice bytes valueStart valueEnd →
    ∃ length, previous = some length ∧
      (length.tag ∈ standardLengthTags ∨
        length.tag ∈ dialect.extraLengthTags ∧ length.tag ≠ malformed) ∧
      DenotesU32 (length.value bytes) (valueEnd - valueStart)

theorem Tokenizer.ends.endsValue {dialect : Dialect} {bytes : Bytes} {separator : UInt8}
    {previous : Option RawField} {valueStart valueEnd : ℕ}
    (h : (Tokenizer.new dialect).ends bytes separator previous valueStart valueEnd) :
    dialect.EndsValue bytes separator previous valueStart valueEnd := by
  intro hmem
  obtain ⟨k, hk⟩ := List.mem_iff_getElem?.mp hmem
  have hbound : valueStart + k < valueEnd := by
    have := (List.getElem?_eq_some_iff.mp hk).1
    rw [length_slice] at this
    omega
  rw [getElem?_slice _ hbound] at hk
  -- a value with a separator in it is read by a pending length
  have hdata : ∃ len, previous.bind ((Tokenizer.new dialect).pendingDataLen bytes) = some len ∧
      bytes[valueStart + len]? = some separator := by
    by_contra hnot
    simp only [not_exists, not_and] at hnot
    exact ValueEnd.ne_of_lt h hnot (Nat.le_add_right _ _) hbound hk
  obtain ⟨len, hlen, hsep⟩ := hdata
  have hend : valueEnd = valueStart + len := ValueEnd.unique h (.byLength hlen hsep)
  obtain ⟨length, hprevious, hpending⟩ := Option.bind_eq_some_iff.mp hlen
  simp only [Tokenizer.pendingDataLen, Option.ite_none_right_eq_some] at hpending
  refine ⟨length, hprevious, isLengthTag_new_iff.mp hpending.1, ?_⟩
  rw [hend, Nat.add_sub_cancel_left]
  exact parseU32_eq_some_iff_denotesU32.mp hpending.2

/-- The index of a message partitions its bytes. -/
structure Tiled (dialect : Dialect) (message : RawMessage) : Prop where
  /-- The fields stand in wire order from offset 0 to the end of the bytes. -/
  tiles : Tiles message.bytes soh (dialect.EndsValue message.bytes soh) 0 none message.fields
    message.bytes.length
  terminated : ∀ field ∈ message.fields, message.bytes[field.valueEnd]? = some soh
  fits : ∀ field ∈ message.fields, field.valueStart ≤ field.valueEnd ∧ field.valueEnd ≤ u32Max

/-- Where the last byte is a separator, the tiling ends right behind it. -/
theorem Tiles.stop_eq_length {tokenizer : Tokenizer} {bytes : Bytes} {fields : List RawField}
    {stop pos : ℕ} {previous : Option RawField}
    (h : Tiles bytes soh (tokenizer.ends bytes soh) pos previous fields stop)
    (hlast : bytes.getLast? = some soh) (hplain : Plain bytes soh stop bytes.length)
    (hpos : pos ≤ bytes.length) : stop = bytes.length := by
  have hget : ∀ k, k + 1 = bytes.length → bytes[k]? = some soh := fun k =>
    getElem?_of_getLast? hlast
  have hne : bytes ≠ [] := by
    rintro rfl
    cases hlast
  obtain ⟨last, hlen⟩ : ∃ last, last + 1 = bytes.length :=
    ⟨bytes.length - 1, Nat.succ_pred_eq_of_pos (List.length_pos_of_ne_nil hne)⟩
  induction h with
  | nil =>
    rcases hpos.eq_or_lt with heq | hlt
    · exact heq
    · exact absurd rfl (hplain last soh (by omega) (by omega) (hget last hlen)).2
  | @cons pos stop previous field fields hlt hfield hle hend htail ih =>
    apply ih hplain
    rcases hend with hsep | heq
    · exact (List.getElem?_eq_some_iff.mp hsep).1
    -- a value that ends with the bytes would hold the last byte, and end there
    exfalso
    cases hfield with
    | @tagged delimiter valueEnd tag hposDelimiter hequals hplainTag htag hvalue =>
      simp only at heq
      have hdelimiter := (List.getElem?_eq_some_iff.mp hequals).1
      have hbefore : delimiter ≠ last := by
        rintro rfl
        rw [hget delimiter hlen] at hequals
        cases hequals
      have := ValueEnd.lt_length hvalue (show delimiter + 1 ≤ last by omega) (hget last hlen)
      omega
    | run hplainRun _ =>
      simp only at heq
      exact absurd rfl (hplainRun last soh (by omega) (by omega) (hget last hlen)).2

theorem FrameParts.getLast?_bytes (parts : FrameParts) : parts.bytes.getLast? = some soh := by
  rw [FrameParts.bytes, ← List.append_assoc, ← List.append_assoc, List.getLast?_concat]

/-- **The index of a frame** partitions it, for every dialect. -/
theorem tiled_frame (dialect : Dialect) {parts : FrameParts}
    (hlen : parts.bytes.length ≤ u32Max) :
    Tiled dialect ⟨parts.bytes, (Tokenizer.new dialect).tokenizeFields parts.bytes soh⟩ := by
  obtain ⟨stop, htiles, hplain⟩ := (Tokenizer.new dialect).exists_tiles soh hlen
  obtain rfl := htiles.stop_eq_length parts.getLast?_bytes hplain (Nat.zero_le _)
  refine ⟨htiles.mono (fun _ _ _ => Tokenizer.ends.endsValue), htiles.getElem?_valueEnd le_rfl, ?_⟩
  intro field hmem
  obtain ⟨hle, hlt⟩ := htiles.valueEnd_lt.2 field hmem
  exact ⟨hle, (Nat.le_of_lt hlt).trans hlen⟩

/-- **The index tiles every accepted frame**, of the tokenizer and of a stream. -/
theorem accepted_tiled (dialect : Dialect) :
    (∀ bytes message, (Tokenizer.new dialect).tokenize bytes = .ok message →
      message.bytes = bytes ∧ Tiled dialect message) ∧
    ∀ (stream : MessageStream) (message : RawMessage),
      stream.tokenizer = Tokenizer.new dialect → stream.scanner = Scanner.default →
      stream.nextMessage.1 = .message message →
      message.bytes <+: stream.buf ∧ Tiled dialect message := by
  constructor
  · intro bytes message h
    obtain ⟨parts, -, rfl, hlen, rfl⟩ := tokenize_eq_ok h
    exact ⟨rfl, tiled_frame dialect hlen⟩
  · intro stream message htokenizer hscanner h
    obtain ⟨parts, -, hpre, hcap, -, rfl⟩ := nextMessage_eq_message h
    rw [hscanner] at hcap
    rw [htokenizer]
    exact ⟨hpre, tiled_frame dialect (hcap.trans (by decide))⟩

end Refix.Message
