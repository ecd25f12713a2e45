import Refix.Log.Bounds

/-!
# When a Message's End Waits

What has to wait for more bytes: a start that is not decided yet, a line break after the
CheckSum field, and, while the message is shorter than the cap, its BodyLength, a data value
or its line. Past the cap only the first two are left, and each is decided within a few bytes
(`length_lt_of_findEnd_eq_none`). At the end of the log nothing waits.
-/

namespace Refix.Log

open Refix.Foundation Refix.Message

/-! ## A start -/

private theorem runLength_of_getElem?_eq_none {p : UInt8 → Bool} {n : ℕ} {xs : Bytes}
    (h : xs[runLength p n xs]? = none) : xs.length = runLength p n xs := by
  have hle := (runLength_le p n xs).2
  have hge := List.getElem?_eq_none_iff.mp h
  omega

theorem length_le_of_checkTag_eq_pending {tag : Bytes} {separator : Separator}
    (h : checkTag tag separator = .pending) : tag.length ≤ maxTagDigits := by
  simp only [checkTag] at h
  split at h
  · cases h
  next hshort =>
  split at h
  · next hend =>
    have := runLength_of_getElem?_eq_none hend
    omega
  · split at h <;> cases h

/-- Longest a start can be before it is decided: a BeginString value, a separator and a tag. -/
def maxPendingLen : ℕ := maxBeginStringLen + 2 + maxTagDigits

theorem length_le_of_check_eq_pending {bytes : Bytes} {separator : Option UInt8}
    (h : check bytes separator = .pending) : bytes.length ≤ maxPendingLen := by
  have hfive : beginStringPrefix.length = 5 := by decide
  have hcap : maxPendingLen = 28 := by decide
  have hbegin : maxBeginStringLen = 16 := rfl
  unfold check at h
  simp only at h
  split at h
  · cases h
  split at h
  · omega
  split at h
  · cases h
  next hvalue =>
  split at h
  · next hend =>
    have := List.getElem?_eq_none_iff.mp hend
    omega
  · next found hfound =>
    split at h
    · next hsep =>
      -- a `^` may still open `^A`
      subst h
      cases separator with
      | some given =>
        simp only [findSeparatorAt] at hsep
        split at hsep <;> cases hsep
      | none =>
        simp only [findSeparatorAt] at hsep
        split at hsep
        · cases hsep
        split at hsep
        · split at hsep
          · next hnext =>
            have := List.getElem?_eq_none_iff.mp hnext
            omega
          · split at hsep <;> cases hsep
        · cases hsep
    · next found' _ =>
      have htag := length_le_of_checkTag_eq_pending h
      have hlen : found'.length ≤ 2 := by cases found' <;> simp [Separator.length]
      have hdigits : maxTagDigits = 10 := rfl
      rw [List.length_drop] at htag
      omega

theorem length_le_of_checkAt_eq_pending {bytes : Bytes} {separator : Option UInt8} {offset : ℕ}
    (h : checkAt bytes separator offset = .pending) :
    bytes.length ≤ offset + maxPendingLen := by
  unfold checkAt at h
  split at h
  · cases h
  · have := length_le_of_check_eq_pending h
    rw [List.length_drop] at this
    omega

/-! ## An end -/

section End

variable {bytes capped : Bytes} {atEnd : Bool} {tokenizer : Tokenizer} {separator : UInt8}
  {separatorOverride : Option UInt8}

theorem of_afterMessage_eq_none {len : ℕ} (h : afterMessage bytes len atEnd = none) :
    atEnd = false ∧ bytes.length ≤ len + 1 := by
  unfold afterMessage at h
  simp only at h
  split at h
  · next hwait =>
    refine ⟨hwait.1, ?_⟩
    rcases hwait.2 with hnil | hcr
    · have := congrArg List.length hnil
      simp only [List.length_drop, List.length_nil] at this
      omega
    · have := congrArg List.length hcr
      simp only [List.length_drop, List.length_cons, List.length_nil] at this
      omega
  · cases h

/-- Once no more bytes can join the message, only the line break after it is waited for. -/
theorem of_byBodyLengthIn_eq_pending
    (h : byBodyLengthIn bytes capped true separator atEnd = .pending) :
    atEnd = false ∧ bytes.length ≤ capped.length + 1 := by
  unfold byBodyLengthIn at h
  simp only [if_true] at h
  split at h
  · cases h
  · cases h
  split at h
  · cases h
  split at h
  · cases h
  split at h
  · next offset hfind =>
    have hlt := (findFrom_lt hfind).2
    split at h
    · split at h
      · cases h
      · next hafter =>
        obtain ⟨hopen, hlen⟩ := of_afterMessage_eq_none hafter
        exact ⟨hopen, by omega⟩
    · cases h
  · cases h

/-- Once no more bytes can join the message, the walk waits only for a start or a line break
just behind it. -/
theorem of_walkStep_eq_none (hlen : capped.length ≤ u32Max) {pos : ℕ} {dataLen : Option ℕ}
    (h : walkStep tokenizer bytes capped true separator separatorOverride atEnd pos dataLen =
      .done none) : atEnd = false ∧ bytes.length < capped.length + maxPendingLen := by
  have hpending : 1 < maxPendingLen := by decide
  unfold walkStep at h
  simp only [waitsForData_final, Bool.false_eq_true, if_false, if_true] at h
  generalize hnext : nextField capped pos dataLen separator = next at h
  have hchecked : checkedEnd capped dataLen next ≤ capped.length := checkedEnd_le hlen hnext
  generalize checkedEnd capped dataLen next = checked at h hchecked
  split at h
  · cases h
  · next hstart =>
    -- A pending start stands within the cap and reaches the end of the bytes.
    cases findStart_eq_iff.mp hstart with
    | pending _ hhi hcheck hopen _ =>
      refine ⟨hopen, ?_⟩
      have hle := length_le_of_checkAt_eq_pending hcheck
      cases hfind : findFrom (· == lineFeed) (capped.take checked) (max pos 1) with
      | none =>
        rw [hfind, Option.getD_none] at hhi
        omega
      | some offset =>
        have hlt := (findFrom_lt hfind).2
        rw [List.length_take] at hlt
        rw [hfind, Option.getD_some] at hhi
        omega
  split at h
  · cases h
  split at h
  · cases h
  · next field after =>
    have hbounds := nextField_bounds hlen hnext
    split at h
    · cases h
    split at h
    · obtain ⟨hopen, hle⟩ := of_afterMessage_eq_none (WalkStep.done.inj h)
      exact ⟨hopen, by omega⟩
    · cases h

theorem of_walkFrom_eq_none (hlen : capped.length ≤ u32Max) {pos : ℕ} {dataLen : Option ℕ}
    (h : walkFrom tokenizer bytes capped true separator separatorOverride atEnd pos dataLen =
      none) : atEnd = false ∧ bytes.length < capped.length + maxPendingLen := by
  induction hdist : capped.length + 1 - pos using Nat.strong_induction_on
    generalizing pos dataLen with
  | _ dist ih =>
    rw [walkFrom] at h
    split at h
    · next result hstep =>
      subst h
      exact of_walkStep_eq_none hlen hstep
    · next pos' dataLen' hstep =>
      obtain ⟨field, hread, -⟩ := walkStep_eq_next hstep
      have := nextField_lt hread
      exact ih _ (by omega) h rfl

/-- **A message's end waits only while the log is open, and not long past the cap.** -/
theorem of_findEnd_eq_none
    (h : findEnd tokenizer bytes separator separatorOverride atEnd = none) :
    atEnd = false ∧ bytes.length < maxMessageLen + maxPendingLen := by
  obtain ⟨-, hlen⟩ := cap_isPrefix bytes atEnd
  have hlen' : (cap bytes atEnd).1.length ≤ u32Max := hlen.trans (by decide)
  have hwaits : 0 < maxPendingLen := by decide
  cases hfinal : (cap bytes atEnd).2 with
  | false =>
    -- the bytes are short of the cap
    simp only [cap, Bool.or_eq_false_iff, beq_eq_false_iff_ne, ne_eq] at hfinal
    obtain ⟨rfl, hshort⟩ := hfinal
    refine ⟨rfl, ?_⟩
    simp only [Bool.false_eq_true, false_and, if_false, List.length_take] at hshort
    omega
  | true =>
    have hbound : atEnd = false ∧ bytes.length < (cap bytes atEnd).1.length + maxPendingLen := by
      unfold findEnd byBodyLength walk at h
      simp only [hfinal] at h
      split at h
      · cases h
      · exact of_walkFrom_eq_none hlen' h
      · next hpending =>
        obtain ⟨hopen, hle⟩ := of_byBodyLengthIn_eq_pending hpending
        have : 1 < maxPendingLen := by decide
        exact ⟨hopen, by omega⟩
    exact ⟨hbound.1, by omega⟩

/-- **At the end of the log every message has an end.** -/
theorem findEnd_atEnd_ne_none :
    findEnd tokenizer bytes separator separatorOverride true ≠ none := by
  intro h
  cases (of_findEnd_eq_none h).1

/-- A message logged with `^A` waits for its line alone. -/
theorem of_copyMessage_eq_none (h : copyMessage tokenizer bytes atEnd = none) :
    atEnd = false ∧ bytes.length < maxMessageLen := by
  simp only [copyMessage, Option.bind_eq_bind, Option.bind_eq_none_iff] at h
  cases hline : findLine bytes atEnd with
  | some found =>
    cases hend : findEnd tokenizer (restoreSoh found.1) soh none true with
    | none => exact absurd hend findEnd_atEnd_ne_none
    | some stop => exact absurd (h found hline stop hend) (by simp)
  | none =>
    unfold findLine at hline
    simp only at hline
    split at hline
    · cases hline
    split at hline
    · cases hline
    · next hwait =>
      rw [not_or, List.length_take] at hwait
      exact ⟨Bool.eq_false_iff.mpr hwait.1, by omega⟩

/-- **Where a message is found, its end waits only while the log is open, and not long past the
cap.** -/
theorem of_findMessage_eq_none {found : Separator}
    (h : findMessage tokenizer separatorOverride bytes found atEnd = none) :
    atEnd = false ∧ bytes.length < maxMessageLen + maxPendingLen := by
  cases found with
  | byte b => exact of_findEnd_eq_none (Option.map_eq_none_iff.mp h)
  | caretA =>
    obtain ⟨hopen, hlt⟩ := of_copyMessage_eq_none (Option.map_eq_none_iff.mp h)
    exact ⟨hopen, by omega⟩

end End

end Refix.Log
