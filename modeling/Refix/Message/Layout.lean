import Refix.Message.Wire

/-!
# Layout of Written Fields

Where the fields of a written message stand. Their index is laid out in advance, one field right
behind the other, and the field loop reads exactly this index wherever each value can be told
from what follows it.
-/

namespace Refix.Message

open Refix.Foundation

/-- Every value can be told from what follows it: it has the length that the field before it
leaves pending, and is free of separators if that leaves none. The last field may leave one. -/
def Tokenizer.Delimited (tokenizer : Tokenizer) (separator : UInt8) :
    Option ℕ → List (Tag × Bytes) → Prop
  | _, [] => True
  | dataLen, (tag, value) :: fields =>
    dataLen.elim (separator ∉ value) (value.length = ·) ∧
      tokenizer.Delimited separator (tokenizer.lengthOf tag value) fields

instance Tokenizer.decidableDelimited (tokenizer : Tokenizer) (separator : UInt8) :
    ∀ dataLen fields, Decidable (tokenizer.Delimited separator dataLen fields)
  | _, [] => .isTrue trivial
  | none, (tag, value) :: fields =>
    have := decidableDelimited tokenizer separator (tokenizer.lengthOf tag value) fields
    inferInstanceAs (Decidable (separator ∉ value ∧ _))
  | some len, (tag, value) :: fields =>
    have := decidableDelimited tokenizer separator (tokenizer.lengthOf tag value) fields
    inferInstanceAs (Decidable (value.length = len ∧ _))

/-- The length that a list of fields leaves pending. -/
def Tokenizer.lengthAfter (tokenizer : Tokenizer) : Option ℕ → List (Tag × Bytes) → Option ℕ
  | dataLen, [] => dataLen
  | _, (tag, value) :: fields => tokenizer.lengthAfter (tokenizer.lengthOf tag value) fields

/-- The index entry of a field written at `pos` under a canonical tag. -/
def entryAt (pos : ℕ) (tag : Tag) (value : Bytes) : RawField where
  tag := tag
  valueStart := pos + (decimal tag).length + 1
  valueEnd := pos + (decimal tag).length + 1 + value.length

/-- The index of fields written from `pos` on. -/
def indexFrom : ℕ → List (Tag × Bytes) → List RawField
  | _, [] => []
  | pos, (tag, value) :: fields =>
    entryAt pos tag value :: indexFrom ((entryAt pos tag value).valueEnd + 1) fields

section Layout

variable {tokenizer : Tokenizer} {separator : UInt8} {dataLen : Option ℕ} {tag : Tag}
  {value before after : Bytes} {fields : List (Tag × Bytes)}

theorem fieldAt_decimal (htag : tag ≤ u32Max) (pos : ℕ) :
    fieldAt pos (decimal tag) value = entryAt pos tag value := by
  rw [fieldAt, parseU32_decimal htag, Option.getD_some]
  rfl

theorem valueEnd_entryAt (separator : UInt8) (pos : ℕ) (tag : Tag) (value : Bytes) :
    (entryAt pos tag value).valueEnd + 1 =
      pos + (wireField separator (decimal tag) value).length := by
  simp only [entryAt, length_wireField]
  omega

theorem wireFields_cons (separator : UInt8) (tag : Tag) (value : Bytes)
    (fields : List (Tag × Bytes)) :
    wireFields separator ((tag, value) :: fields) =
      wireField separator (decimal tag) value ++ wireFields separator fields := rfl

variable (tokenizer) in
/-- **One written field is read**, and what it leaves pending. -/
theorem nextField_entryAt (hsep : isAsciiDigit separator = false) (htag : tag ≤ u32Max)
    (hlen : (before ++ (wireField separator (decimal tag) value ++ after)).length ≤ u32Max)
    (hvalue : dataLen.elim (separator ∉ value) (value.length = ·)) :
    nextField (before ++ (wireField separator (decimal tag) value ++ after)) before.length dataLen
        separator =
      some (entryAt before.length tag value,
        before.length + (wireField separator (decimal tag) value).length) ∧
    (entryAt before.length tag value).value
        (before ++ (wireField separator (decimal tag) value ++ after)) = value ∧
    tokenizer.pendingDataLen (before ++ (wireField separator (decimal tag) value ++ after))
        (entryAt before.length tag value) = tokenizer.lengthOf tag value := by
  have hend : ValueEnd (before ++ (wireField separator (decimal tag) value ++ after)) separator
      (before.length + (decimal tag).length + 1) dataLen
      (before.length + (decimal tag).length + 1 + value.length) := by
    cases dataLen with
    | none => exact valueEnd_of_notMem none hvalue nofun
    | some len =>
      obtain rfl : value.length = len := hvalue
      exact valueEnd_of_length
  have hread := nextField_wireField hlen (ne_of_mem_decimal hsep tag) hend
  have hstored : (fieldAt before.length (decimal tag) value).value
      (before ++ (wireField separator (decimal tag) value ++ after)) = value := value_fieldAt
  rw [fieldAt_decimal htag] at hread hstored
  refine ⟨hread, hstored, ?_⟩
  rw [pendingDataLen_eq, hstored]
  rfl

variable (before after) in
/-- **The field loop reads the index** of written fields, from any position it reaches. -/
theorem reads_indexFrom (hsep : isAsciiDigit separator = false)
    (htags : ∀ field ∈ fields, field.1 ≤ u32Max) {acc : List RawField}
    (hlen : (before ++ (wireFields separator fields ++ after)).length ≤ u32Max)
    (hreads : tokenizer.Reads (before ++ (wireFields separator fields ++ after)) separator
      acc before.length dataLen)
    (hdelimited : tokenizer.Delimited separator dataLen fields) :
    tokenizer.Reads (before ++ (wireFields separator fields ++ after)) separator
      (acc ++ indexFrom before.length fields)
      (before.length + (wireFields separator fields).length)
      (tokenizer.lengthAfter dataLen fields) := by
  induction fields generalizing before acc dataLen with
  | nil => simpa [wireFields, indexFrom, Tokenizer.lengthAfter] using hreads
  | cons field fields ih =>
    obtain ⟨tag, value⟩ := field
    obtain ⟨hvalue, hrest⟩ := hdelimited
    have htag := htags (tag, value) List.mem_cons_self
    rw [wireFields_cons, List.append_assoc] at hlen hreads ⊢
    obtain ⟨hread, -, hpending⟩ := nextField_entryAt tokenizer hsep htag hlen hvalue
    have hstep := hreads.next hread
    rw [hpending, ← List.length_append] at hstep
    rw [← List.append_assoc] at hstep hlen ⊢
    have hall := ih _ (fun field hmem => htags field (List.mem_cons_of_mem _ hmem)) hlen hstep hrest
    rw [List.append_assoc acc, List.singleton_append, List.length_append] at hall
    rw [indexFrom, valueEnd_entryAt separator, List.length_append, ← Nat.add_assoc]
    exact hall

/-- **Written fields are read as their index.** -/
theorem tokenizeFields_wireFields (hsep : isAsciiDigit separator = false)
    (htags : ∀ field ∈ fields, field.1 ≤ u32Max)
    (hlen : (wireFields separator fields).length ≤ u32Max)
    (hdelimited : tokenizer.Delimited separator none fields) :
    tokenizer.tokenizeFields (wireFields separator fields) separator = indexFrom 0 fields := by
  have hreads := reads_indexFrom [] [] hsep htags (by simpa using hlen) .start hdelimited
  rw [List.nil_append, List.append_nil, List.nil_append, List.length_nil, Nat.zero_add] at hreads
  exact hreads.tokenizeFields_of_none (nextField_of_length_le le_rfl)

/-- The index of written fields holds their tags and values. -/
theorem map_entry_indexFrom (separator : UInt8) (before after : Bytes)
    (fields : List (Tag × Bytes)) :
    (indexFrom before.length fields).map
        (RawField.entry (before ++ (wireFields separator fields ++ after))) = fields := by
  induction fields generalizing before with
  | nil => rfl
  | cons field fields ih =>
    obtain ⟨tag, value⟩ := field
    have hvalue : (fieldAt before.length (decimal tag) value).value
        (before ++ (wireField separator (decimal tag) value ++
          (wireFields separator fields ++ after))) = value := value_fieldAt
    have hrest := ih (before ++ wireField separator (decimal tag) value)
    rw [List.length_append, List.append_assoc] at hrest
    rw [wireFields_cons, List.append_assoc, indexFrom, List.map_cons,
      valueEnd_entryAt separator, hrest, RawField.entry]
    exact congrArg (· :: fields) (Prod.ext rfl hvalue)

theorem Tokenizer.Delimited.of_append {more : List (Tag × Bytes)}
    (h : tokenizer.Delimited separator dataLen (fields ++ more)) :
    tokenizer.Delimited separator dataLen fields ∧
      tokenizer.Delimited separator (tokenizer.lengthAfter dataLen fields) more := by
  induction fields generalizing dataLen with
  | nil => exact ⟨trivial, h⟩
  | cons field fields ih =>
    obtain ⟨hvalue, hrest⟩ := h
    obtain ⟨hfields, hmore⟩ := ih hrest
    exact ⟨⟨hvalue, hfields⟩, hmore⟩

theorem indexFrom_append (separator : UInt8) (pos : ℕ) (fields more : List (Tag × Bytes)) :
    indexFrom pos (fields ++ more) =
      indexFrom pos fields ++ indexFrom (pos + (wireFields separator fields).length) more := by
  induction fields generalizing pos with
  | nil => rfl
  | cons field fields ih =>
    obtain ⟨tag, value⟩ := field
    rw [List.cons_append, indexFrom, indexFrom, ih, valueEnd_entryAt separator,
      wireFields_cons, List.length_append, List.cons_append, Nat.add_assoc]

/-- The last field that is written ends right before the position behind the fields. -/
theorem getLast?_indexFrom (separator : UInt8) (pos : ℕ) {fields : List (Tag × Bytes)}
    (h : fields ≠ []) :
    (indexFrom pos fields).getLast?.elim 0 (·.valueEnd + 1) =
      pos + (wireFields separator fields).length := by
  obtain ⟨front, ⟨tag, value⟩, rfl⟩ := List.eq_nil_or_concat fields |>.resolve_left h
  rw [List.concat_eq_append, indexFrom_append separator, indexFrom, indexFrom,
    List.getLast?_concat, Option.elim_some, valueEnd_entryAt separator,
    wireFields_append, wireFields_cons, List.length_append, List.length_append]
  simp [wireFields, Nat.add_assoc]

end Layout

end Refix.Message
