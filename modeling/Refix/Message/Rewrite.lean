import Refix.Message.Layout
import Refix.Message.Tiling

/-!
# Writing a Message Again

The entries of a message leave out how its tags were written. Written again, with each tag in
canonical decimal, they give back the bytes of the message exactly where each tag was written so.
-/

namespace Refix.Message

open Refix.Foundation

/-- What stands before each value: the bytes of its tag and `=`, or nothing before a run. -/
def tagTexts (bytes : Bytes) : ℕ → List RawField → List Bytes
  | _, [] => []
  | pos, field :: fields =>
    slice bytes pos field.valueStart :: tagTexts bytes (field.valueEnd + 1) fields

/-- Every tag of the message is written in canonical decimal, and followed by `=`. -/
def RawMessage.CanonicalTags (message : RawMessage) : Prop :=
  tagTexts message.bytes 0 message.fields =
    message.fields.map fun field => decimal field.tag ++ [equalsSign]

instance (message : RawMessage) : Decidable message.CanonicalTags :=
  inferInstanceAs (Decidable (_ = _))

/-! ## One field -/

section Field

variable {bytes rest rest' : Bytes} {separator : UInt8} {ends : ℕ → ℕ → Prop} {pos : ℕ}
  {field : RawField}

/-- A field is written as a tag text, or it is a run that holds no `=`. -/
theorem FieldAt.text_cases (h : FieldAt bytes separator ends pos field) :
    (∃ tagBytes, slice bytes pos field.valueStart = tagBytes ++ [equalsSign] ∧
      equalsSign ∉ tagBytes) ∨
    field.tag = malformed ∧ slice bytes pos field.valueStart = [] ∧
      equalsSign ∉ field.value bytes := by
  have hnot {stop : ℕ} (hplain : Plain bytes separator pos stop) :
      equalsSign ∉ slice bytes pos stop := by
    intro hmem
    obtain ⟨k, hk⟩ := List.mem_iff_getElem?.mp hmem
    have hlt : pos + k < stop := by
      have := (List.getElem?_eq_some_iff.mp hk).1
      rw [length_slice] at this
      omega
    rw [getElem?_slice _ hlt] at hk
    exact (hplain _ _ (Nat.le_add_right _ _) hlt hk).1 rfl
  cases h with
  -- The tag ends at the first `=`, and a run ends at a separator before any.
  | @tagged delimiter valueEnd tag hle heq hplain htag hend =>
    refine Or.inl ⟨slice bytes pos delimiter, ?_, hnot hplain⟩
    rw [← slice_append_slice bytes hle (Nat.le_succ delimiter)]
    congr 1
    apply List.ext_getElem?
    intro i
    cases i with
    | zero => rw [getElem?_slice _ (by omega), Nat.add_zero, heq, List.getElem?_cons_zero]
    | succ i =>
      have hlen : (slice bytes delimiter (delimiter + 1)).length ≤ i + 1 := by
        rw [length_slice]
        omega
      rw [List.getElem?_eq_none hlen]
      rfl
  | @run valueEnd hplain hne =>
    refine Or.inr ⟨rfl, ?_, hnot hplain⟩
    apply List.eq_nil_of_length_eq_zero
    simp

/-- The same run before the first separator, and the same behind it. -/
theorem append_cons_inj_of_notMem {tag tag' : Bytes} (h : equalsSign ∉ tag)
    (h' : equalsSign ∉ tag') :
    tag ++ equalsSign :: rest = tag' ++ equalsSign :: rest' ↔ tag = tag' ∧ rest = rest' := by
  constructor
  · intro heq
    have htag : tag = tag' :=
      calc tag = (tag ++ equalsSign :: rest).takeWhile (· != equalsSign) :=
            (takeWhile_append_cons_self h).symm
        _ = tag' := by rw [heq, takeWhile_append_cons_self h']
    subst htag
    exact ⟨rfl, (List.cons.inj (List.append_cancel_left heq)).2⟩
  · rintro ⟨rfl, rfl⟩
    rfl

theorem equalsSign_notMem_decimal (n : ℕ) : equalsSign ∉ decimal n := fun hmem =>
  (ne_of_mem_decimal (show isAsciiDigit equalsSign = false by decide) n _ hmem).1 rfl

/-- **A field written again** stands where it was exactly if its tag was canonical. -/
theorem FieldAt.wireField_append_eq_iff (h : FieldAt bytes soh ends pos field) :
    wireField soh (decimal field.tag) (field.value bytes) ++ rest =
        slice bytes pos field.valueStart ++ (field.value bytes ++ soh :: rest') ↔
      slice bytes pos field.valueStart = decimal field.tag ++ [equalsSign] ∧ rest = rest' := by
  have hwritten : wireField soh (decimal field.tag) (field.value bytes) ++ rest =
      decimal field.tag ++ equalsSign :: (field.value bytes ++ soh :: rest) := by
    simp [wireField]
  have hdecimal := equalsSign_notMem_decimal field.tag
  rw [hwritten]
  rcases h.text_cases with ⟨tagBytes, htext, htag⟩ | ⟨hmalformed, htext, hrun⟩
  · rw [htext, List.append_assoc, List.singleton_append, append_cons_inj_of_notMem hdecimal htag,
      List.append_cancel_left_eq, List.append_cancel_right_eq, List.cons.injEq]
    constructor
    · intro h
      exact ⟨h.1.symm, h.2.2⟩
    · intro h
      exact ⟨h.1.symm, rfl, h.2⟩
  · -- a run starts with no tag, so that the `=` would stand in the run or at its separator
    have hzero : decimal malformed = ascii "0" := decimal_of_lt (by decide)
    rw [htext, hmalformed, hzero, List.nil_append]
    constructor
    · intro heq
      exfalso
      cases hvalue : field.value bytes with
      | nil =>
        rw [hvalue] at heq
        exact absurd (List.cons.inj heq).1 (by decide)
      | cons first more =>
        rw [hvalue] at heq hrun
        have htail := (List.cons.inj heq).2
        cases more with
        | nil => exact absurd (List.cons.inj htail).1 (by decide)
        | cons second more =>
          apply hrun
          rw [(List.cons.inj htail).1]
          simp
    · intro h
      exact absurd h.1 (by simp)

end Field

/-! ## A whole message -/

section Message

variable {bytes : Bytes} {ends : Option RawField → ℕ → ℕ → Prop} {pos stop : ℕ}
  {previous : Option RawField} {field : RawField} {fields : List RawField}

/-- What a terminated field and the fields behind it take up. -/
theorem slice_cons (hpos : pos ≤ field.valueStart) (hle : field.valueStart ≤ field.valueEnd)
    (hsep : bytes[field.valueEnd]? = some soh) (hstop : field.valueEnd + 1 ≤ stop) :
    slice bytes pos stop = slice bytes pos field.valueStart ++
      (field.value bytes ++ soh :: slice bytes (field.valueEnd + 1) stop) := by
  have hsoh : slice bytes field.valueEnd (field.valueEnd + 1) = [soh] := by
    obtain ⟨hlt, hget⟩ := List.getElem?_eq_some_iff.mp hsep
    rw [slice, List.take_add_one, hsep, List.drop_append_of_le_length (by simp; omega)]
    simp
  rw [← slice_append_slice bytes hpos (by omega : field.valueStart ≤ stop),
    ← slice_append_slice bytes hle (by omega : field.valueEnd ≤ stop),
    ← slice_append_slice bytes (Nat.le_succ field.valueEnd) hstop, hsoh, RawField.value]
  rfl

/-- The fields of a tiling, written again, stand where they were exactly if each tag was
canonical. -/
theorem Tiles.wireFields_eq_iff (h : Tiles bytes soh ends pos previous fields stop)
    (hends : ∀ field ∈ fields, bytes[field.valueEnd]? = some soh) :
    wireFields soh (fields.map (RawField.entry bytes)) = slice bytes pos stop ↔
      tagTexts bytes pos fields = fields.map fun field => decimal field.tag ++ [equalsSign] := by
  induction h with
  | nil => simp [wireFields, tagTexts, slice]
  | cons hpos hfield hle hstop htail ih =>
    obtain ⟨hsep, hseps⟩ := List.forall_mem_cons.mp hends
    rw [slice_cons hfield.pos_le hle hsep htail.valueEnd_lt.1, List.map_cons, RawField.entry,
      wireFields_cons, hfield.wireField_append_eq_iff, ih hseps, tagTexts, List.map_cons,
      List.cons.injEq]

theorem Tiled.rewrite_iff {dialect : Dialect} {message : RawMessage}
    (h : Tiled dialect message) :
    wireFields soh message.entries = message.bytes ↔ message.CanonicalTags := by
  have hslice : slice message.bytes 0 message.bytes.length = message.bytes := by simp [slice]
  rw [RawMessage.CanonicalTags, ← h.tiles.wireFields_eq_iff h.terminated, hslice]
  rfl

end Message

/-- **The entries of a message give back its bytes** exactly where its tags are canonical, for
every message of the tokenizer and of a stream. -/
theorem accepted_rewrite_iff (dialect : Dialect) :
    (∀ bytes message, (Tokenizer.new dialect).tokenize bytes = .ok message →
      (wireFields soh message.entries = message.bytes ↔ message.CanonicalTags)) ∧
    ∀ (stream : MessageStream) (message : RawMessage),
      stream.tokenizer = Tokenizer.new dialect → stream.scanner = Scanner.default →
      stream.nextMessage.1 = .message message →
      (wireFields soh message.entries = message.bytes ↔ message.CanonicalTags) := by
  constructor
  · intro bytes message h
    obtain ⟨parts, -, rfl, hlen, rfl⟩ := tokenize_eq_ok h
    exact (tiled_frame dialect hlen).rewrite_iff
  · intro stream message htokenizer hscanner h
    obtain ⟨parts, -, -, hcap, -, rfl⟩ := nextMessage_eq_message h
    rw [hscanner] at hcap
    rw [htokenizer]
    exact (tiled_frame dialect (hcap.trans (by decide))).rewrite_iff

end Refix.Message
