import Refix.Message.FrameGrammar

/-!
# Resynchronising and Stable Decisions

Two facts about the scanner that everything fed incrementally rests on.

`findNextBeginString_spec`: the skip of a structural garble ends at the first offset behind
the garble where a frame may start, given some continuation of the buffer.

`scan_extends`: a decision of the scanner stands when more bytes arrive. A frame stays the
same frame and a garble stays a garble for the same reason. Only the skip of a structural
garble may grow, to the place where the longer buffer resynchronises.
-/

namespace Refix.Message

open Refix.Foundation

/-! ## Where a frame may start -/

/-- Whether `8=FIX` stands at the front of `buf`, or may once more bytes arrive. -/
def Viable (buf : Bytes) : Prop := beginStringPrefix <+: buf ∨ buf <+: beginStringPrefix

theorem viable_nil : Viable [] := Or.inr List.nil_prefix

/-- A frame may start wherever it may start in a longer buffer. -/
theorem Viable.of_isPrefix {buf buf' : Bytes} (h : buf <+: buf') (hviable : Viable buf') :
    Viable buf := by
  cases hviable with
  | inl hpre => exact (List.prefix_or_prefix_of_prefix hpre h)
  | inr hpre => exact Or.inr (h.trans hpre)

/-- **The skip of a structural garble** is the first offset behind the front of the buffer
where a frame may start; the end of the buffer is one. -/
theorem findNextBeginString_spec {buf : Bytes} (hbuf : ¬ buf <+: beginStringPrefix) :
    1 ≤ findNextBeginString buf ∧ findNextBeginString buf ≤ buf.length ∧
      Viable (buf.drop (findNextBeginString buf)) ∧
      ∀ k, 1 ≤ k → k < findNextBeginString buf → ¬ Viable (buf.drop k) := by
  have hfive : beginStringPrefix.length = 5 := by decide
  have hpos : 0 < buf.length := by
    rw [List.length_pos_iff]
    rintro rfl
    exact hbuf List.nil_prefix
  simp only [findNextBeginString]
  split
  · next skip hfind =>
    obtain ⟨hle, hat, hbefore⟩ := findPattern_eq_some hfind
    rw [List.length_drop] at hle
    rw [List.drop_drop, Nat.add_comm] at hat
    refine ⟨by omega, by omega, Or.inl hat, ?_⟩
    intro k h₁ hk hviable
    cases hviable with
    | inl hpre =>
      apply hbefore (k - 1) (by omega)
      rw [List.drop_drop, show 1 + (k - 1) = k by omega]
      exact hpre
    | inr hpre =>
      -- the five bytes of `8=FIX` stand behind `k`, so too many bytes do
      have h₂ := hat.length_le
      have h₃ := hpre.length_le
      simp only [List.length_drop] at h₂ h₃
      omega
  next hnone =>
  have hfull : ∀ k, 1 ≤ k → ¬ beginStringPrefix <+: buf.drop k := by
    intro k h₁
    have := findPattern_eq_none hnone (k - 1)
    rwa [List.drop_drop, show 1 + (k - 1) = k by omega] at this
  -- a tail that begins `8=FIX` is one of those the countdown tries
  have htail : ∀ k, 1 ≤ k → k < buf.length → buf.drop k <+: beginStringPrefix →
      buf.length - k ≤ min (beginStringPrefix.length - 1) buf.length ∧
        buf.drop (buf.length - (buf.length - k)) = beginStringPrefix.take (buf.length - k) := by
    intro k h₁ hk hpre
    have heq := List.prefix_iff_eq_take.mp hpre
    rw [List.length_drop] at heq
    refine ⟨?_, by rw [show buf.length - (buf.length - k) = k by omega]; exact heq⟩
    have hle := hpre.length_le
    rw [List.length_drop] at hle
    rcases Nat.lt_or_ge (buf.length - k) 5 with hlt | hge
    · omega
    · rw [List.take_of_length_le (by omega)] at heq
      exact absurd (by rw [heq]) (hfull k h₁)
  split
  · next k hfind =>
    obtain ⟨h₁, hk, hat, hbefore⟩ := find?_reverse_range'_eq_some hfind
    have hat' : buf.drop (buf.length - k) = beginStringPrefix.take k := by simpa using hat
    have hkpre : beginStringPrefix.take k <+: beginStringPrefix := List.take_prefix ..
    refine ⟨?_, by omega, Or.inr (by rw [hat']; exact hkpre), ?_⟩
    · -- the tail is not the whole buffer
      rcases Nat.lt_or_ge k buf.length with hlt | hge
      · omega
      · rw [show buf.length - k = 0 by omega, List.drop_zero] at hat'
        exact absurd (by rw [hat']; exact hkpre) hbuf
    · intro j h₁j hj hviable
      cases hviable with
      | inl hpre => exact hfull j h₁j hpre
      | inr hpre =>
        obtain ⟨hle, heq⟩ := htail j h₁j (by omega) hpre
        have := hbefore (buf.length - j) (by omega) hle
        simp [heq] at this
  · next hfind =>
    refine ⟨hpos, le_rfl, by rw [List.drop_length]; exact viable_nil, ?_⟩
    intro j h₁j hj hviable
    cases hviable with
    | inl hpre => exact hfull j h₁j hpre
    | inr hpre =>
      obtain ⟨hle, heq⟩ := htail j h₁j hj hpre
      have := find?_reverse_range'_eq_none hfind (j := buf.length - j) (by omega) hle
      simp [heq] at this

/-- The skip only grows with the buffer. -/
theorem findNextBeginString_le_of_isPrefix {buf buf' : Bytes} (h : buf <+: buf')
    (hbuf : ¬ buf <+: beginStringPrefix) :
    findNextBeginString buf ≤ findNextBeginString buf' := by
  have hbuf' : ¬ buf' <+: beginStringPrefix := fun hpre => hbuf (h.trans hpre)
  obtain ⟨_, _, _, hbefore⟩ := findNextBeginString_spec hbuf
  obtain ⟨h₁, _, hviable, _⟩ := findNextBeginString_spec hbuf'
  by_contra hlt
  exact hbefore _ h₁ (by omega) (hviable.of_isPrefix (drop_isPrefix_drop h _))

/-! ## Stable decisions -/

/-- How the result of a check on `buf` relates to that on a longer buffer `buf'`. -/
inductive Extends {α : Type} (buf buf' : Bytes) : Except Halt α → Except Halt α → Prop where
  | ok (a : α) : Extends buf buf' (.ok a) (.ok a)
  | incomplete (x : Except Halt α) : Extends buf buf' (.error .incomplete) x
  | structural (reason : GarbledReason) :
      Extends buf buf' (.error (structuralGarble reason buf))
        (.error (structuralGarble reason buf'))
  | post (reason : GarbledReason) (skipped : ℕ) :
      Extends buf buf' (.error (.garbled reason skipped)) (.error (.garbled reason skipped))

namespace Extends

variable {α β : Type} {buf buf' : Bytes}

theorem refl (x : Except Halt α) : Extends buf buf' x x := by
  cases x with
  | ok a => exact .ok a
  | error halt =>
    cases halt with
    | incomplete => exact .incomplete _
    | garbled reason skipped => exact .post reason skipped

/-- A check and what follows it: the rest is only compared where the check succeeded. -/
theorem bind {x x' : Except Halt α} {f f' : α → Except Halt β} (hx : Extends buf buf' x x')
    (hf : ∀ a, x = .ok a → Extends buf buf' (f a) (f' a)) :
    Extends buf buf' (x >>= f) (x' >>= f') := by
  cases hx with
  | ok a => exact hf a rfl
  | incomplete => exact .incomplete _
  | structural reason => exact .structural reason
  | post reason skipped => exact .post reason skipped

end Extends

private theorem take_min_length {α : Type} (xs : List α) (n : ℕ) :
    xs.take (min xs.length n) = xs.take n := by
  rcases Nat.le_total xs.length n with h | h
  · rw [Nat.min_eq_left h, List.take_length, List.take_of_length_le h]
  · rw [Nat.min_eq_right h]

variable {buf buf' : Bytes}

theorem parseBeginString_extends (h : buf <+: buf') :
    Extends buf buf' (parseBeginString buf) (parseBeginString buf') := by
  have htake := take_isPrefix_take h (maxBeginStringLen + 1)
  simp only [parseBeginString, take_min_length]
  cases hfind : findFrom (· == soh) (buf.take (maxBeginStringLen + 1)) 2 with
  | some sohAt =>
    have hlt := (findFrom_lt hfind).2
    rw [List.length_take] at hlt
    simp only [findFrom_of_isPrefix htake hfind,
      slice_of_isPrefix h (show sohAt ≤ buf.length by omega)]
    exact .ok _
  | none =>
    simp only
    split
    · exact .incomplete _
    · next hlong =>
      -- the seventeen bytes searched are buffered, and stay the same
      have hsame : buf'.take (maxBeginStringLen + 1) = buf.take (maxBeginStringLen + 1) :=
        take_eq_take_of_isPrefix h (by omega)
      have hlong' : ¬ buf'.length ≤ maxBeginStringLen := by
        have := h.length_le
        omega
      simp only [hsame, hfind, hlong', if_false]
      exact .structural _

theorem parseBodyLength_extends (h : buf <+: buf') (start : ℕ) :
    Extends buf buf' (parseBodyLength buf start) (parseBodyLength buf' start) := by
  have hlen := h.length_le
  have htake := take_isPrefix_take h (start + 2 + maxBodyLengthDigits + 1)
  simp only [parseBodyLength, take_min_length, List.length_drop]
  split
  · exact .incomplete _
  next htag =>
  have htag' : ¬ buf'.length - start < 2 := by omega
  have hsame : (buf'.drop start).take 2 = (buf.drop start).take 2 :=
    take_eq_take_of_isPrefix (drop_isPrefix_drop h start) (by rw [List.length_drop]; omega)
  simp only [htag', if_false, hsame]
  split
  · exact .structural _
  cases hfind : findFrom (· == soh) (buf.take (start + 2 + maxBodyLengthDigits + 1)) (start + 2) with
  | none =>
    simp only
    split
    · exact .incomplete _
    -- So many bytes without a SOH are refused however the buffer goes on.
    · next hlong =>
      have hsame : buf'.take (start + 2 + maxBodyLengthDigits + 1) =
          buf.take (start + 2 + maxBodyLengthDigits + 1) :=
        take_eq_take_of_isPrefix h (by omega)
      have hlong' : ¬ buf'.length ≤ start + 2 + maxBodyLengthDigits := by omega
      simp only [hsame, hfind, hlong', if_false]
      exact .structural _
  | some sohAt =>
    have hlt := (findFrom_lt hfind).2
    rw [List.length_take] at hlt
    simp only [findFrom_of_isPrefix htake hfind,
      slice_of_isPrefix h (show sohAt ≤ buf.length by omega)]
    split
    · exact .structural _
    split
    · exact .structural _
    · exact .ok _

theorem validatedFrameLen_extends (h : buf <+: buf') (bodyStart bodyLength cap : ℕ) :
    Extends buf buf' (validatedFrameLen buf bodyStart bodyLength cap)
      (validatedFrameLen buf' bodyStart bodyLength cap) := by
  have hlen := h.length_le
  simp only [validatedFrameLen]
  split
  · exact .structural _
  split
  · exact .incomplete _
  · rw [if_neg (by omega)]
    exact .ok _

theorem verifyTrailerStart_extends (h : buf <+: buf') {checksumStart : ℕ}
    (hlen : checksumStart + 3 ≤ buf.length) :
    Extends buf buf' (verifyTrailerStart buf checksumStart)
      (verifyTrailerStart buf' checksumStart) := by
  have hget : buf'[checksumStart - 1]? = buf[checksumStart - 1]? :=
    getElem?_of_isPrefix h (by omega)
  simp only [verifyTrailerStart, hget, slice_of_isPrefix h hlen]
  split
  · exact .structural _
  · exact .ok _

/-- What the first two checks deliver is small, so no length the scan adds up saturates. -/
theorem parsed_small {buf : Bytes} {beginString : BeginString} {start bodyLength bodyStart : ℕ}
    (hfix : beginStringPrefix <+: buf) (hbegin : parseBeginString buf = .ok (beginString, start))
    (hbody : parseBodyLength buf start = .ok (bodyLength, bodyStart)) :
    bodyStart + bodyLength + checksumFieldLen ≤ usizeMax := by
  obtain ⟨version, rest, hbuf, -, hshort, hresult⟩ :=
    (parseBeginString_eq_ok_iff (List.IsPrefix.trans (by decide) hfix)).mp hbegin
  obtain ⟨rfl, rfl⟩ := Prod.mk.inj hresult
  have hstart : version.length + 3 = (ascii "8=" ++ (version ++ [soh])).length := by
    simp [ascii]
  rw [show buf = (ascii "8=" ++ (version ++ [soh])) ++ rest by simp [hbuf], hstart] at hbody
  obtain ⟨digits, after, -, -, hdigitsLen, hdigit, hresult⟩ := parseBodyLength_eq_ok_iff.mp hbody
  obtain ⟨rfl, rfl⟩ := Prod.mk.inj hresult
  have hlt := decimalValue_lt hdigit
  have hpow : (10 : ℕ) ^ digits.length ≤ 10 ^ 10 := Nat.pow_le_pow_right (by decide) hdigitsLen
  simp only [List.length_append, show (ascii "8=").length = 2 from rfl] at hshort
  simp only [← hstart, checksumFieldLen, usizeMax]
  omega

theorem tryScan_extends (scanner : Scanner) (h : buf <+: buf') :
    Extends buf buf' (scanner.tryScan buf) (scanner.tryScan buf') := by
  unfold Scanner.tryScan
  by_cases hfix : beginStringPrefix <+: buf
  · rw [if_pos hfix, if_pos (hfix.trans h)]
    apply (parseBeginString_extends h).bind
    rintro ⟨beginString, start⟩ hbegin
    apply (parseBodyLength_extends h start).bind
    rintro ⟨bodyLength, bodyStart⟩ hbody
    apply (validatedFrameLen_extends h bodyStart bodyLength scanner.maxFrameSize).bind
    intro frameLen hframe
    obtain ⟨rfl, -, hfits⟩ :=
      (validatedFrameLen_eq_ok_iff (parsed_small hfix hbegin hbody)).mp hframe
    -- from here on the frame is buffered, and the checks read nothing behind it
    simp only [take_eq_take_of_isPrefix h hfits]
    apply (verifyTrailerStart_extends h (by omega)).bind
    intro _ _
    exact .refl _
  · rw [if_neg hfix]
    split
    · exact .incomplete _
    · next hbuf =>
      have hfix' : ¬ beginStringPrefix <+: buf' := by
        intro hpre
        rcases List.prefix_or_prefix_of_prefix hpre h with hpre' | hpre'
        · exact hfix hpre'
        · exact hbuf hpre'
      rw [if_neg hfix', if_neg (fun hpre => hbuf (h.trans hpre))]
      exact .structural _

/-! ## Stable outcomes -/

/-- A buffer that is still a part of `8=FIX` waits. -/
theorem scan_of_isPrefix_beginStringPrefix (scanner : Scanner) {buf : Bytes}
    (hbuf : buf <+: beginStringPrefix) : scanner.scan buf = .incomplete := by
  by_cases hfix : beginStringPrefix <+: buf
  · obtain rfl := hbuf.eq_of_length_le hfix.length_le
    have hbegin : parseBeginString beginStringPrefix = .error .incomplete := by decide
    simp only [Scanner.scan, Scanner.tryScan, hfix, if_true, hbegin]
    rfl
  · simp only [Scanner.scan, Scanner.tryScan, hfix, if_false, hbuf, if_true]
    rfl

/-- A buffer where no frame may start is a garble that resynchronises. -/
theorem scan_of_not_viable (scanner : Scanner) {buf : Bytes} (hbuf : ¬ Viable buf) :
    scanner.scan buf = .garbled .missingBeginString (findNextBeginString buf) := by
  simp only [Viable, not_or] at hbuf
  simp only [Scanner.scan, Scanner.tryScan, hbuf.1, hbuf.2, if_false]
  rfl

/-- **Decisions are stable under more bytes.** -/
theorem scan_extends (scanner : Scanner) (h : buf <+: buf') :
    match scanner.scan buf with
    | .frame frame => scanner.scan buf' = .frame frame
    | .incomplete => True
    | .garbled reason skipped =>
      scanner.scan buf' = .garbled reason skipped ∨
        skipped = findNextBeginString buf ∧ ¬ buf <+: beginStringPrefix ∧
          scanner.scan buf' = .garbled reason (findNextBeginString buf') := by
  have hbuf : ∀ reason skipped, scanner.scan buf = .garbled reason skipped →
      ¬ buf <+: beginStringPrefix := by
    intro reason skipped hscan hpre
    rw [scan_of_isPrefix_beginStringPrefix scanner hpre] at hscan
    exact absurd hscan (by simp)
  have hext := tryScan_extends scanner h
  simp only [Scanner.scan] at hbuf ⊢
  generalize scanner.tryScan buf = x at hext hbuf
  generalize scanner.tryScan buf' = x' at hext
  cases hext with
  | ok frame => rfl
  | incomplete => trivial
  | structural reason => exact Or.inr ⟨rfl, hbuf _ _ rfl, rfl⟩
  | post reason skipped => exact Or.inl rfl

end Refix.Message
