import Refix.Log.ReadBack

/-!
# Walking over Written Fields

A walk over fields as they were written goes from one to the next, as long as it meets no line
feed and no message start outside the data values, and ends the message with CheckSum. So the
end that it finds is the one a right BodyLength points at.
-/

namespace Refix.Log

open Refix.Foundation Refix.Message

/-! ## Data values -/

/-- An offset lies in a data value of fields written from `pos` on: in a value that was read by
its length. -/
def InData (tokenizer : Tokenizer) (k : ℕ) : ℕ → Option ℕ → List (Tag × Bytes) → Prop
  | _, _, [] => False
  | pos, dataLen, (tag, value) :: fields =>
    dataLen.isSome = true ∧ (entryAt pos tag value).valueStart ≤ k ∧
        k < (entryAt pos tag value).valueEnd ∨
      InData tokenizer k ((entryAt pos tag value).valueEnd + 1) (tokenizer.lengthOf tag value)
        fields

instance decidableInData (tokenizer : Tokenizer) (k : ℕ) :
    ∀ pos dataLen fields, Decidable (InData tokenizer k pos dataLen fields)
  | _, _, [] => .isFalse id
  | pos, _, (tag, value) :: fields =>
    have := decidableInData tokenizer k ((entryAt pos tag value).valueEnd + 1)
      (tokenizer.lengthOf tag value) fields
    inferInstanceAs (Decidable (_ ∧ _ ∧ _ ∨ _))

section InData

variable {tokenizer : Tokenizer} {k pos : ℕ} {dataLen : Option ℕ} {tag : Tag} {value : Bytes}
  {fields : List (Tag × Bytes)}

theorem le_valueStart_entryAt (pos : ℕ) (tag : Tag) (value : Bytes) :
    pos ≤ (entryAt pos tag value).valueStart ∧
      (entryAt pos tag value).valueStart ≤ (entryAt pos tag value).valueEnd := by
  simp only [entryAt]
  omega

theorem InData.le (h : InData tokenizer k pos dataLen fields) : pos ≤ k := by
  induction fields generalizing pos dataLen with
  | nil => exact h.elim
  | cons field fields ih =>
    obtain ⟨tag, value⟩ := field
    have hentry := le_valueStart_entryAt pos tag value
    rcases h with ⟨-, hle, -⟩ | h
    · exact hentry.1.trans hle
    · have := ih h
      omega

/-- Where fields are written does not matter. -/
theorem inData_add (n : ℕ) :
    InData tokenizer (n + k) (n + pos) dataLen fields ↔ InData tokenizer k pos dataLen fields := by
  induction fields generalizing pos dataLen with
  | nil => exact Iff.rfl
  | cons field fields ih =>
    obtain ⟨tag, value⟩ := field
    have hend : (entryAt (n + pos) tag value).valueEnd + 1 =
        n + ((entryAt pos tag value).valueEnd + 1) := by
      simp only [entryAt]
      omega
    have hrange : (entryAt (n + pos) tag value).valueStart ≤ n + k ∧
        n + k < (entryAt (n + pos) tag value).valueEnd ↔
        (entryAt pos tag value).valueStart ≤ k ∧ k < (entryAt pos tag value).valueEnd := by
      simp only [entryAt]
      omega
    rw [InData, InData, hend, ih, hrange]

/-- A data value of fields stands inside them. -/
theorem InData.lt (separator : UInt8) (h : InData tokenizer k pos dataLen fields) :
    k < pos + (wireFields separator fields).length := by
  induction fields generalizing pos dataLen with
  | nil => exact h.elim
  | cons field fields ih =>
    obtain ⟨tag, value⟩ := field
    have hend := valueEnd_entryAt separator pos tag value
    rw [wireFields_cons, List.length_append]
    rcases h with ⟨-, -, hlt⟩ | h
    · omega
    · have := ih h
      omega

theorem inData_append (separator : UInt8) {more : List (Tag × Bytes)} :
    InData tokenizer k pos dataLen (fields ++ more) ↔
      InData tokenizer k pos dataLen fields ∨
        InData tokenizer k (pos + (wireFields separator fields).length)
          (tokenizer.lengthAfter dataLen fields) more := by
  induction fields generalizing pos dataLen with
  | nil => exact ⟨Or.inr, fun h => h.resolve_left id⟩
  | cons field fields ih =>
    obtain ⟨tag, value⟩ := field
    rw [List.cons_append, InData, InData, ih, valueEnd_entryAt separator,
      wireFields_cons, List.length_append, Nat.add_assoc, or_assoc]
    rfl

end InData

/-! ## The walk -/

section Walk

variable {tokenizer : Tokenizer} {bytes before more : Bytes} {separator : UInt8}
  {dataLen : Option ℕ} {tag : Tag} {value : Bytes} {fields : List (Tag × Bytes)}

/-- The walk may pass over an offset: no line feed stands there, and no message starts. -/
def Clear (bytes capped : Bytes) (k : ℕ) : Prop :=
  capped[k]? ≠ some lineFeed ∧ Passes bytes none true k

/-- How far a written field is searched. -/
theorem checkedEnd_entryAt (tag : Tag) (hvalue : dataLen.elim (separator ∉ value) (value.length = ·))
    (capped : Bytes) (pos after : ℕ) :
    checkedEnd capped dataLen (some (entryAt pos tag value, after)) =
      if dataLen.isSome = true then (entryAt pos tag value).valueStart
      else (entryAt pos tag value).valueEnd := by
  have hlength : (entryAt pos tag value).valueEnd - (entryAt pos tag value).valueStart =
      value.length := by
    simp only [entryAt]
    omega
  cases dataLen with
  | none => rfl
  | some len =>
    obtain rfl : value.length = len := hvalue
    simp only [checkedEnd, Option.elim_some, hlength, if_true, Option.isSome_some]

variable (tokenizer bytes) in
/-- **One round over a written field** goes on behind it, or ends the message with CheckSum. -/
theorem walkStep_entryAt (hsep : isAsciiDigit separator = false) (htag : tag ≤ u32Max)
    {capped : Bytes} (hcapped : capped = before ++ (wireField separator (decimal tag) value ++ more))
    (hlen : capped.length ≤ u32Max)
    (hvalue : dataLen.elim (separator ∉ value) (value.length = ·))
    (hclear : ∀ k, max before.length 1 ≤ k →
      k < before.length + (wireField separator (decimal tag) value).length →
      ¬ (dataLen.isSome = true ∧ (entryAt before.length tag value).valueStart ≤ k ∧
        k < (entryAt before.length tag value).valueEnd) → Clear bytes capped k) :
    walkStep tokenizer bytes capped true separator none true before.length dataLen =
      if tag = checksumTag then
        .done (afterMessage bytes
          (before.length + (wireField separator (decimal tag) value).length) true)
      else .next (before.length + (wireField separator (decimal tag) value).length)
        (tokenizer.lengthOf tag value) := by
  subst hcapped
  obtain ⟨hread, -, hpending⟩ := nextField_entryAt tokenizer hsep htag hlen hvalue
  have hchecked := checkedEnd_entryAt tag hvalue
    (before ++ (wireField separator (decimal tag) value ++ more)) before.length
    (before.length + (wireField separator (decimal tag) value).length)
  have hend := valueEnd_entryAt separator before.length tag value
  have hentry := le_valueStart_entryAt before.length tag value
  simp only [walkStep, hread, waitsForData_final, Bool.false_eq_true, if_false, hchecked]
  generalize hstop : (if dataLen.isSome = true then (entryAt before.length tag value).valueStart
    else (entryAt before.length tag value).valueEnd) = stop
  have hle : stop ≤ (entryAt before.length tag value).valueEnd := by
    rw [← hstop]
    split <;> omega
  -- every offset that is searched is outside the data value
  have hsearched : ∀ k, max before.length 1 ≤ k → k < stop →
      Clear bytes (before ++ (wireField separator (decimal tag) value ++ more)) k := by
    intro k hlo hhi
    refine hclear k hlo (by omega) ?_
    rintro ⟨hsome, hge, -⟩
    rw [← hstop, if_pos hsome] at hhi
    omega
  have hnoBreak : findFrom (· == lineFeed)
      ((before ++ (wireField separator (decimal tag) value ++ more)).take stop)
      (max before.length 1) = none := by
    refine findFrom_eq_none_iff.mpr fun k b hk hb => ?_
    have hlt := (List.getElem?_eq_some_iff.mp hb).1
    rw [List.length_take] at hlt
    rw [List.getElem?_take_of_lt (by omega)] at hb
    rw [beq_eq_false_iff_ne]
    rintro rfl
    exact (hsearched k hk (by omega)).1 hb
  have hnoStart : findStart bytes (max before.length 1) stop none true = .notFound :=
    findStart_eq_iff.mpr (.notFound fun k hk hlt => (hsearched k hk hlt).2)
  have hinside : (entryAt before.length tag value).valueEnd ≠
      (before ++ (wireField separator (decimal tag) value ++ more)).length := by
    rw [List.length_append, List.length_append]
    omega
  simp only [hnoBreak, Option.getD_none, hnoStart, hinside, if_false, hpending]
  rfl

variable (tokenizer bytes before) in
/-- **A walk over written fields** goes on behind them, as long as none of them is CheckSum. -/
theorem walkFrom_wireFields (hsep : isAsciiDigit separator = false)
    (htags : ∀ field ∈ fields, field.1 ≤ u32Max ∧ field.1 ≠ checksumTag)
    {capped : Bytes} (hcapped : capped = before ++ (wireFields separator fields ++ more))
    (hlen : capped.length ≤ u32Max) (hdelimited : tokenizer.Delimited separator dataLen fields)
    (hclear : ∀ k, max before.length 1 ≤ k →
      k < before.length + (wireFields separator fields).length →
      ¬ InData tokenizer k before.length dataLen fields → Clear bytes capped k) :
    walkFrom tokenizer bytes capped true separator none true before.length dataLen =
      walkFrom tokenizer bytes capped true separator none true
        (before.length + (wireFields separator fields).length)
        (tokenizer.lengthAfter dataLen fields) := by
  induction fields generalizing before dataLen with
  | nil => rfl
  | cons field fields ih =>
    obtain ⟨tag, value⟩ := field
    obtain ⟨hvalue, hrest⟩ := hdelimited
    obtain ⟨htag, hnot⟩ := htags (tag, value) List.mem_cons_self
    have hend := valueEnd_entryAt separator before.length tag value
    rw [wireFields_cons, List.append_assoc] at hcapped
    rw [wireFields_cons, List.length_append] at hclear ⊢
    simp only at htag hnot
    -- What is clear outside all the data is clear outside the data of the first field.
    have hstep := walkStep_entryAt tokenizer bytes hsep htag hcapped hlen
      hvalue (by
        intro k hlo hhi hout
        refine hclear k hlo (by omega) ?_
        rintro (hin | hin)
        · exact hout hin
        · have := hin.le
          omega)
    rw [if_neg hnot] at hstep
    -- The rest is walked from behind that field, which joins the bytes before.
    have hrun := ih (before ++ wireField separator (decimal tag) value)
      (fun field hfield => htags field (List.mem_cons_of_mem _ hfield))
      (by rw [hcapped, List.append_assoc]) hrest
      (by
        intro k hlo hhi hout
        rw [List.length_append] at hlo hhi hout
        refine hclear k (by omega) (by omega) ?_
        rintro (⟨-, -, hlt⟩ | hin)
        · omega
        · rw [hend] at hin
          exact hout hin)
    rw [List.length_append] at hrun
    rw [walkFrom_of_next hstep, hrun, Tokenizer.lengthAfter, Nat.add_assoc]

variable (bytes before) in
/-- **A walk over a written message** ends it with CheckSum. -/
theorem walkFrom_message (hsep : isAsciiDigit separator = false)
    (htags : ∀ field ∈ fields, field.1 ≤ u32Max ∧ field.1 ≠ checksumTag) {checksum : Bytes}
    {capped : Bytes}
    (hcapped : capped =
      before ++ (wireFields separator (fields ++ [(checksumTag, checksum)]) ++ more))
    (hlen : capped.length ≤ u32Max)
    (hdelimited : tokenizer.Delimited separator dataLen (fields ++ [(checksumTag, checksum)]))
    (hclear : ∀ k, max before.length 1 ≤ k →
      k < before.length + (wireFields separator (fields ++ [(checksumTag, checksum)])).length →
      ¬ InData tokenizer k before.length dataLen (fields ++ [(checksumTag, checksum)]) →
        Clear bytes capped k) :
    walkFrom tokenizer bytes capped true separator none true before.length dataLen =
      afterMessage bytes (before.length +
        (wireFields separator (fields ++ [(checksumTag, checksum)])).length) true := by
  obtain ⟨hfields, hlast⟩ := hdelimited.of_append
  have hwire : wireFields separator (fields ++ [(checksumTag, checksum)]) =
      wireFields separator fields ++ wireField separator (decimal checksumTag) checksum := by
    rw [wireFields_append, wireFields_cons]
    exact congrArg _ (List.append_nil _)
  rw [hwire, List.append_assoc] at hcapped
  rw [hwire, List.length_append, ← Nat.add_assoc] at hclear ⊢
  simp only [inData_append separator] at hclear
  -- The walk passes over the fields before the checksum, and the checksum ends it.
  have hwalk := walkFrom_wireFields tokenizer bytes before hsep htags hcapped
    hlen hfields (by
      intro k hlo hhi hout
      refine hclear k hlo (by omega) ?_
      rintro (hin | hin)
      · exact hout hin
      · have := hin.le
        omega)
  rw [← List.append_assoc] at hcapped
  have hstep := walkStep_entryAt tokenizer bytes hsep
    (show checksumTag ≤ u32Max by decide) hcapped hlen hlast.1 (by
      intro k hlo hhi hout
      rw [List.length_append] at hlo hhi hout
      refine hclear k (by omega) hhi ?_
      rintro (hin | hin | hin)
      · have := hin.lt separator
        omega
      · exact hout hin
      · exact hin)
  rw [if_pos rfl, List.length_append] at hstep
  rw [hwalk, walkFrom_of_done hstep]

/-- The front of a written field that holds no whole tag holds no line feed. -/
theorem not_earlyLineFeed {front : Bytes}
    (hfront : front <+: before ++ (wireField separator (decimal tag) value ++ more)) :
    ¬ EarlyLineFeed front separator before.length dataLen := by
  rintro ⟨hnone, -, hmem⟩
  rw [nextField_eq_none_iff, findTagEnd_eq_none_iff] at hnone
  obtain ⟨k, hk⟩ := List.mem_iff_getElem?.mp hmem
  rw [List.getElem?_drop] at hk
  have hlt := (List.getElem?_eq_some_iff.mp hk).1
  have hbytes : ∀ m, (before ++ (wireField separator (decimal tag) value ++ more))[before.length +
      m]? = (decimal tag ++ equalsSign :: (value ++ separator :: more))[m]? := by
    intro m
    rw [List.getElem?_append_right (Nat.le_add_right _ _), Nat.add_sub_cancel_left]
    simp [wireField]
  have hfull := hbytes k
  rw [getElem?_eq_some_of_isPrefix hfront hk] at hfull
  by_cases hin : k < (decimal tag).length
  · -- a tag is made of digits
    rw [List.getElem?_append_left hin] at hfull
    have hdigit := isAsciiDigit_of_mem_decimal (List.mem_of_getElem? hfull.symm)
    exact absurd hdigit (by decide)
  · -- behind the tag there is its `=`
    have hequals := hbytes (decimal tag).length
    rw [getElem?_of_isPrefix hfront (by omega), List.getElem?_append_right le_rfl,
      Nat.sub_self] at hequals
    exact (hnone _ _ (Nat.le_add_right _ _) hequals).1 rfl

/-- A walk over the front of a written field that goes on has read that field. -/
theorem walkStep_front (hsep : isAsciiDigit separator = false) (htag : tag ≤ u32Max)
    {front : Bytes}
    (hfront : front <+: before ++ (wireField separator (decimal tag) value ++ more))
    (hlen : (before ++ (wireField separator (decimal tag) value ++ more)).length ≤ u32Max)
    (hvalue : dataLen.elim (separator ∉ value) (value.length = ·)) {pos' : ℕ}
    {dataLen' : Option ℕ}
    (hstep : walkStep tokenizer bytes front false separator none false before.length dataLen =
      .next pos' dataLen') :
    pos' = before.length + (wireField separator (decimal tag) value).length ∧
      dataLen' = tokenizer.lengthOf tag value ∧ tag ≠ checksumTag := by
  have hshort := hfront.length_le.trans hlen
  obtain ⟨field, hread, rfl, hwait, htag'⟩ := walkStep_eq_next hstep
  have hin := le_of_walkStep_eq_next hshort hstep
  obtain ⟨rfl, -, -, -⟩ := nextField_bounds hshort hread
  obtain ⟨hread', -, hpending⟩ := nextField_entryAt tokenizer hsep htag hlen hvalue
  have hsame := nextField_of_isPrefix hfront hlen hread (by omega)
    (waitsForData_eq_false_iff.mp hwait)
  obtain ⟨rfl, hnext⟩ := Prod.mk.inj (Option.some.inj (hsame.symm.trans hread'))
  refine ⟨hnext, ?_, htag'⟩
  rw [← pendingDataLen_of_isPrefix tokenizer hfront (by omega), hpending]

variable (bytes before) in
/-- **No walk over the front of a written message cuts early.** -/
theorem not_earlyLineFeed_lastRound (hsep : isAsciiDigit separator = false)
    (htags : ∀ field ∈ fields, field.1 ≤ u32Max) {checksum front : Bytes}
    (hfront : front <+:
      before ++ (wireFields separator (fields ++ [(checksumTag, checksum)]) ++ more))
    (hlen : (before ++
      (wireFields separator (fields ++ [(checksumTag, checksum)]) ++ more)).length ≤ u32Max)
    (hdelimited : tokenizer.Delimited separator dataLen (fields ++ [(checksumTag, checksum)])) :
    let round := lastRound tokenizer bytes front false separator none false before.length dataLen
    ¬ EarlyLineFeed front separator round.1 round.2 := by
  induction fields generalizing before dataLen with
  | nil =>
    rw [List.nil_append, wireFields_cons, List.append_assoc] at hfront hlen
    cases hstep : walkStep tokenizer bytes front false separator none false before.length
        dataLen with
    | done stop =>
      simp only [lastRound_of_done hstep]
      exact not_earlyLineFeed hfront
    | next pos' dataLen' =>
      -- CheckSum ends the walk
      exact absurd rfl (walkStep_front hsep (by decide) hfront hlen hdelimited.1 hstep).2.2
  | cons field fields ih =>
    obtain ⟨tag, value⟩ := field
    obtain ⟨hvalue, hrest⟩ := hdelimited
    have htag := htags (tag, value) List.mem_cons_self
    rw [List.cons_append, wireFields_cons, List.append_assoc] at hfront hlen
    cases hstep : walkStep tokenizer bytes front false separator none false before.length
        dataLen with
    | done stop =>
      simp only [lastRound_of_done hstep]
      exact not_earlyLineFeed hfront
    | next pos' dataLen' =>
      obtain ⟨rfl, rfl, -⟩ := walkStep_front hsep htag hfront hlen hvalue hstep
      rw [← List.append_assoc] at hfront hlen
      have hall := ih _ (fun field hfield => htags field (List.mem_cons_of_mem _ hfield)) hfront
        hlen hrest
      rw [List.length_append] at hall
      rw [lastRound_of_next hstep]
      exact hall

end Walk

end Refix.Log
