import Refix.Foundation.Outcome
import Refix.Message.Stream

/-!
# What a Stream Waits On

A scan ends without a decision on exactly five kinds of bytes: what may still become `8=FIX`, a
BeginString that is not closed, the tag of the field after it, a BodyLength that is not closed, and
a frame whose announced extent is within the cap but not buffered. None of these is as long as the
cap, so a stream never holds that many bytes back.

Bytes that no longer become a frame may still be waited on: a BodyLength is looked at once it is
closed, and a body once it is there.
-/

namespace Refix.Message

open Refix.Foundation

/-! ## The bytes that are waited on -/

/-- The beginning of a frame, as far as the scanner looks at it. -/
inductive Waits (cap : ℕ) : Bytes → Prop where
  | start {buf : Bytes} (h : buf <+: beginStringPrefix) : Waits cap buf
  | beginString {version : Bytes} (hfix : ascii "FIX" <+: version) (hsoh : soh ∉ version)
      (hlen : (ascii "8=" ++ version).length ≤ 16) : Waits cap (ascii "8=" ++ version)
  | tag {version tag : Bytes} (hfix : ascii "FIX" <+: version) (hsoh : soh ∉ version)
      (hlen : (ascii "8=" ++ version).length ≤ 16) (htag : tag.length < 2) :
      Waits cap (ascii "8=" ++ (version ++ soh :: tag))
  | bodyLength {version digits : Bytes} (hfix : ascii "FIX" <+: version) (hsoh : soh ∉ version)
      (hlen : (ascii "8=" ++ version).length ≤ 16) (hopen : soh ∉ digits)
      (hdigits : digits.length ≤ 10) :
      Waits cap (ascii "8=" ++ (version ++ soh :: (ascii "9=" ++ digits)))
  | body {version digits body : Bytes} (hfix : ascii "FIX" <+: version) (hsoh : soh ∉ version)
      (hlen : (ascii "8=" ++ version).length ≤ 16) (hne : digits ≠ [])
      (hdigits : digits.length ≤ 10) (hdigit : ∀ b ∈ digits, isAsciiDigit b = true)
      (htotal : version.length + 3 + digits.length + 3 + decimalValue digits + 7 ≤ cap)
      (hshort : body.length < decimalValue digits + 7) :
      Waits cap (ascii "8=" ++ (version ++ soh :: (ascii "9=" ++ (digits ++ soh :: body))))

/-- What is waited on is shorter than a frame may be. -/
theorem Waits.length_lt {cap : ℕ} {buf : Bytes} (h : Waits cap buf) (hcap : 30 ≤ cap) :
    buf.length < cap := by
  have height : (ascii "8=").length = 2 := by decide
  have hnine : (ascii "9=").length = 2 := by decide
  cases h with
  | start h =>
    have hlen := h.length_le
    have hfive : beginStringPrefix.length = 5 := by decide
    omega
  | beginString hfix hsoh hlen => omega
  | tag hfix hsoh hlen htag =>
    simp only [List.length_append, List.length_cons, height] at hlen ⊢
    omega
  | bodyLength hfix hsoh hlen hopen hdigits =>
    simp only [List.length_append, List.length_cons, height, hnine] at hlen ⊢
    omega
  | body hfix hsoh hlen hne hdigits hdigit htotal hshort =>
    simp only [List.length_append, List.length_cons, height, hnine] at hlen ⊢
    omega

/-! ## Each check -/

section Checks

variable {buf : Bytes}

/-- Nothing is found behind the part that the search starts after. -/
theorem findFrom_append_eq_none_iff (front rest : Bytes) :
    findFrom (· == soh) (front ++ rest) front.length = none ↔ soh ∉ rest := by
  rw [findFrom_append, Option.map_eq_none_iff, List.findIdx?_eq_none_iff]
  constructor
  · intro h hmem
    simpa using h soh hmem
  · intro h b hb
    simp only [beq_eq_false_iff_ne]
    rintro rfl
    exact h hb

@[simp] theorem structuralGarble_ne_incomplete (reason : GarbledReason) (buf : Bytes) :
    structuralGarble reason buf ≠ .incomplete := by
  simp [structuralGarble]

@[simp] theorem postStructuralGarble_ne_incomplete (reason : GarbledReason) (frame : Bytes) :
    postStructuralGarble reason frame ≠ .incomplete := by
  simp [postStructuralGarble]

theorem parseBeginString_eq_incomplete_iff (rest : Bytes) :
    parseBeginString (ascii "8=" ++ rest) = .error .incomplete ↔
      soh ∉ rest ∧ (ascii "8=" ++ rest).length ≤ 16 := by
  have height : (ascii "8=").length = 2 := by decide
  have hsearch := findFrom_append_eq_none_iff (ascii "8=") rest
  rw [height] at hsearch
  have hmax : maxBeginStringLen = 16 := rfl
  simp only [parseBeginString]
  by_cases hlen : (ascii "8=" ++ rest).length ≤ maxBeginStringLen
  · -- a buffer this short is searched whole
    rw [show min (ascii "8=" ++ rest).length (maxBeginStringLen + 1) =
      (ascii "8=" ++ rest).length by omega, List.take_length]
    cases hfind : findFrom (· == soh) (ascii "8=" ++ rest) 2 with
    | none =>
      rw [if_pos hlen]
      exact iff_of_true rfl ⟨hsearch.mp hfind, hmax ▸ hlen⟩
    | some sohAt =>
      refine iff_of_false (by simp) fun h => ?_
      rw [hsearch.mpr h.1] at hfind
      cases hfind
  · refine iff_of_false ?_ fun h => hlen (hmax ▸ h.2)
    split
    · simp
    · rw [if_neg hlen]
      simp

theorem parseBodyLength_eq_incomplete_iff (before rest : Bytes) :
    parseBodyLength (before ++ rest) before.length = .error .incomplete ↔
      rest.length < 2 ∨ ∃ digits, rest = ascii "9=" ++ digits ∧ soh ∉ digits ∧
        digits.length ≤ 10 := by
  have hnine : (ascii "9=").length = 2 := by decide
  have hmax : maxBodyLengthDigits = 10 := rfl
  simp only [parseBodyLength, List.drop_left]
  by_cases hshort : rest.length < 2
  · rw [if_pos hshort]
    exact iff_of_true rfl (Or.inl hshort)
  rw [if_neg hshort]
  by_cases htag : rest.take 2 = ascii "9="
  · obtain ⟨digits, rfl⟩ : ∃ digits, rest = ascii "9=" ++ digits :=
      ⟨rest.drop 2, by rw [← htag, List.take_append_drop]⟩
    have hsearch := findFrom_append_eq_none_iff (before ++ ascii "9=") digits
    rw [List.length_append, hnine, List.append_assoc] at hsearch
    have hlength : (before ++ (ascii "9=" ++ digits)).length =
        before.length + 2 + digits.length := by
      simp only [List.length_append, hnine, Nat.add_assoc]
    rw [if_neg (not_not.mpr htag)]
    -- a buffer that ends within the digits allowed is searched whole
    by_cases hlen : (before ++ (ascii "9=" ++ digits)).length ≤
        before.length + 2 + maxBodyLengthDigits
    · rw [show min (before ++ (ascii "9=" ++ digits)).length
        (before.length + 2 + maxBodyLengthDigits + 1) =
          (before ++ (ascii "9=" ++ digits)).length by omega, List.take_length]
      cases hfind : findFrom (· == soh) (before ++ (ascii "9=" ++ digits)) (before.length + 2) with
      | none =>
        rw [if_pos hlen]
        exact iff_of_true rfl (Or.inr ⟨digits, rfl, hsearch.mp hfind, by omega⟩)
      | some sohAt =>
        refine iff_of_false ?_ ?_
        · simp only
          split
          · simp
          · split <;> simp
        · rintro (h | ⟨digits', heq, hopen, -⟩)
          · exact hshort h
          · rw [← List.append_cancel_left heq] at hopen
            rw [hsearch.mpr hopen] at hfind
            cases hfind
    · -- too many digits are malformed, whether a SOH follows them or not
      refine iff_of_false ?_ ?_
      · split
        · rw [if_neg hlen]
          simp
        · split
          · simp
          · split <;> simp
      · rintro (h | ⟨digits', heq, -, hdigits⟩)
        · exact hshort h
        · rw [← List.append_cancel_left heq] at hdigits
          omega
  · rw [if_pos htag]
    refine iff_of_false (by simp) ?_
    rintro (h | ⟨digits, rfl, -⟩)
    · exact hshort h
    · rw [← hnine, List.take_left] at htag
      exact htag rfl

theorem validatedFrameLen_eq_incomplete_iff {bodyStart bodyLength cap : ℕ}
    (hsmall : bodyStart + bodyLength + checksumFieldLen ≤ usizeMax) :
    validatedFrameLen buf bodyStart bodyLength cap = .error .incomplete ↔
      bodyStart + bodyLength + 7 ≤ cap ∧ buf.length < bodyStart + bodyLength + 7 := by
  have hlen : saturatingAdd (saturatingAdd bodyStart bodyLength) checksumFieldLen =
      bodyStart + bodyLength + 7 := by
    simp only [saturatingAdd, checksumFieldLen] at hsmall ⊢
    omega
  simp only [validatedFrameLen, hlen]
  split
  · next hlarge =>
    simp only [structuralGarble, Except.error.injEq, reduceCtorEq, false_iff]
    omega
  · next hfits =>
    split
    · next hopen => simp [hopen, Nat.le_of_not_lt hfits]
    · next hclosed => simp [hclosed]

/-- Behind the extent of a frame nothing is waited on. -/
theorem verifyTrailerStart_ne_incomplete (buf : Bytes) (checksumStart : ℕ) :
    verifyTrailerStart buf checksumStart ≠ .error .incomplete := by
  unfold verifyTrailerStart
  split <;> simp

theorem verifyChecksum_ne_incomplete (frame : Bytes) (checksumStart : ℕ) :
    verifyChecksum frame checksumStart ≠ .error .incomplete := by
  simp only [verifyChecksum]
  split
  · simp
  · split <;> simp

theorem parseMsgType_ne_incomplete (frame : Bytes) (bodyStart bodyLength : ℕ) :
    parseMsgType frame bodyStart bodyLength ≠ .error .incomplete := by
  simp only [parseMsgType]
  split
  · simp
  · split <;> simp

end Checks

/-! ## The scan -/

section Scan

variable {scanner : Scanner} {buf : Bytes}

theorem isPrefix_fix (version : Bytes) (h : ascii "FIX" <+: version) :
    beginStringPrefix <+: ascii "8=" ++ version := by
  have hsplit : beginStringPrefix = ascii "8=" ++ ascii "FIX" := by decide
  rw [hsplit]
  exact (List.prefix_append_right_inj _).mpr h

/-- BodyLength is read behind BeginString and its SOH. -/
theorem parseBodyLength_behind (version tail : Bytes) :
    parseBodyLength (ascii "8=" ++ (version ++ soh :: tail)) (version.length + 3) =
      parseBodyLength ((ascii "8=" ++ (version ++ [soh])) ++ tail)
        (ascii "8=" ++ (version ++ [soh])).length := by
  have hstart : (ascii "8=" ++ (version ++ [soh])).length = version.length + 3 := by simp [ascii]
  rw [hstart]
  simp

/-- A scan that waits does so at one of its checks. -/
theorem waits_of_tryScan (h : scanner.tryScan buf = .error .incomplete) :
    Waits scanner.maxFrameSize buf := by
  unfold Scanner.tryScan at h
  split at h
  swap
  · split at h
    · next hprefix => exact .start hprefix
    · cases h
  next hfix =>
  have hsplit : beginStringPrefix = ascii "8=" ++ ascii "FIX" := by decide
  obtain ⟨rest, rfl⟩ : ascii "8=" <+: buf := List.IsPrefix.trans (by decide) hfix
  rw [hsplit, List.prefix_append_right_inj] at hfix
  rcases except_bind_eq_error h with hbegin | ⟨⟨beginString, start⟩, hbegin, h⟩
  · obtain ⟨hsoh, hlen⟩ := (parseBeginString_eq_incomplete_iff rest).mp hbegin
    exact .beginString hfix hsoh hlen
  obtain ⟨version, tail, hbuf, hsoh, hlen, hresult⟩ :=
    (parseBeginString_eq_ok_iff (List.prefix_append _ rest)).mp hbegin
  obtain rfl := List.append_cancel_left hbuf
  obtain ⟨rfl, rfl⟩ := Prod.mk.inj hresult
  have hversion : ascii "FIX" <+: version := isPrefix_of_isPrefix_append_cons hfix (by decide)
  have hstart : (ascii "8=" ++ (version ++ [soh])).length = version.length + 3 := by simp [ascii]
  rcases except_bind_eq_error h with hbody | ⟨⟨bodyLength, bodyStart⟩, hbody, h⟩
  · rw [parseBodyLength_behind, parseBodyLength_eq_incomplete_iff] at hbody
    rcases hbody with htag | ⟨digits, rfl, hopen, hdigits⟩
    · exact .tag hversion hsoh hlen htag
    · exact .bodyLength hversion hsoh hlen hopen hdigits
  -- both lengths are small enough that the sums of the frame's extent do not saturate
  have hsmall :=
    parsed_small (isPrefix_fix _ (hversion.trans (List.prefix_append _ _))) hbegin hbody
  rw [parseBodyLength_behind] at hbody
  obtain ⟨digits, body, rfl, hne, hdigits, hdigit, hresult⟩ := parseBodyLength_eq_ok_iff.mp hbody
  obtain ⟨rfl, rfl⟩ := Prod.mk.inj hresult
  rcases except_bind_eq_error h with hframe | ⟨frameLen, -, h⟩
  · obtain ⟨htotal, hshort⟩ := (validatedFrameLen_eq_incomplete_iff hsmall).mp hframe
    rw [hstart] at htotal hshort
    have height : (ascii "8=").length = 2 := by decide
    have hnine : (ascii "9=").length = 2 := by decide
    simp only [List.length_append, List.length_cons, height, hnine] at hshort
    exact .body hversion hsoh hlen hne hdigits hdigit htotal (by omega)
  -- the frame is buffered, and the checks that are left decide
  rcases except_bind_eq_error h with h | ⟨_, -, h⟩
  · exact absurd h (verifyTrailerStart_ne_incomplete _ _)
  rcases except_bind_eq_error h with h | ⟨_, -, h⟩
  · exact absurd h (verifyChecksum_ne_incomplete _ _)
  rcases except_bind_eq_error h with h | ⟨_, -, h⟩
  · exact absurd h (parseMsgType_ne_incomplete _ _ _)
  · cases h

/-- What a scan reads of BeginString, where it is closed. -/
theorem parseBeginString_closed {version : Bytes} (hsoh : soh ∉ version)
    (hlen : (ascii "8=" ++ version).length ≤ 16) (tail : Bytes) :
    parseBeginString (ascii "8=" ++ (version ++ soh :: tail)) =
      .ok (BeginString.ofValue version, version.length + 3) :=
  (parseBeginString_eq_ok_iff (List.prefix_append _ _)).mpr ⟨version, tail, rfl, hsoh, hlen, rfl⟩

theorem tryScan_of_waits (h : Waits scanner.maxFrameSize buf)
    (hfix : beginStringPrefix <+: buf) (hlong : ¬ buf <+: beginStringPrefix) :
    scanner.tryScan buf = .error .incomplete := by
  unfold Scanner.tryScan
  rw [if_pos hfix]
  cases h with
  | start h => exact absurd h hlong
  | beginString hversion hsoh hlen =>
    rw [(parseBeginString_eq_incomplete_iff _).mpr ⟨hsoh, hlen⟩]
    rfl
  | @tag version tag hversion hsoh hlen htag =>
    have hbody := (parseBodyLength_eq_incomplete_iff (ascii "8=" ++ (version ++ [soh])) tag).mpr
      (Or.inl htag)
    rw [← parseBodyLength_behind] at hbody
    simp only [parseBeginString_closed hsoh hlen, ok_bind, hbody]
    rfl
  | @bodyLength version digits hversion hsoh hlen hopen hdigits =>
    have hbody := (parseBodyLength_eq_incomplete_iff (ascii "8=" ++ (version ++ [soh]))
      (ascii "9=" ++ digits)).mpr (Or.inr ⟨digits, rfl, hopen, hdigits⟩)
    rw [← parseBodyLength_behind] at hbody
    simp only [parseBeginString_closed hsoh hlen, ok_bind, hbody]
    rfl
  | @body version digits body hversion hsoh hlen hne hdigits hdigit htotal hshort =>
    have hstart : (ascii "8=" ++ (version ++ [soh])).length = version.length + 3 := by
      simp [ascii]
    have hbegin := parseBeginString_closed hsoh hlen (ascii "9=" ++ (digits ++ soh :: body))
    have hbody : parseBodyLength (ascii "8=" ++ (version ++ soh :: (ascii "9=" ++ (digits ++
        soh :: body)))) (version.length + 3) =
        .ok (decimalValue digits, version.length + 3 + digits.length + 3) := by
      rw [parseBodyLength_behind, ← hstart]
      exact parseBodyLength_eq_ok_iff.mpr ⟨digits, body, rfl, hne, hdigits, hdigit, rfl⟩
    -- the body that is there is shorter than the one that is announced
    have hopen : (ascii "8=" ++ (version ++ soh :: (ascii "9=" ++ (digits ++
        soh :: body)))).length <
        version.length + 3 + digits.length + 3 + decimalValue digits + 7 := by
      have height : (ascii "8=").length = 2 := by decide
      have hnine : (ascii "9=").length = 2 := by decide
      simp only [List.length_append, List.length_cons, height, hnine]
      omega
    have hframe := (validatedFrameLen_eq_incomplete_iff (parsed_small hfix hbegin hbody)).mpr
      ⟨htotal, hopen⟩
    simp only [hbegin, ok_bind, hbody, hframe]
    rfl

/-- **A scan waits exactly on the beginning of a frame.** -/
theorem scan_eq_incomplete_iff :
    scanner.scan buf = .incomplete ↔ Waits scanner.maxFrameSize buf := by
  constructor
  · intro h
    apply waits_of_tryScan
    unfold Scanner.scan at h
    split at h
    · cases h
    · next halt hscan =>
      cases halt with
      | incomplete => exact hscan
      | garbled reason skipped => cases h
  · intro h
    by_cases hlong : buf <+: beginStringPrefix
    · exact scan_of_isPrefix_beginStringPrefix scanner hlong
    · have hfix : beginStringPrefix <+: buf := by
        cases h with
        | start h => exact absurd h hlong
        | beginString hversion => exact isPrefix_fix _ hversion
        | tag hversion => exact isPrefix_fix _ (hversion.trans (List.prefix_append _ _))
        | bodyLength hversion => exact isPrefix_fix _ (hversion.trans (List.prefix_append _ _))
        | body hversion => exact isPrefix_fix _ (hversion.trans (List.prefix_append _ _))
      rw [Scanner.scan, tryScan_of_waits h hfix hlong]
      rfl

end Scan

/-! ## The stream -/

/-- The stream that calls leave behind. -/
def MessageStream.after : List (Cutter.Call UInt8) → MessageStream → MessageStream
  | [], stream => stream
  | .feed bytes :: calls, stream => after calls (stream.feed bytes)
  | .next :: calls, stream => after calls stream.nextMessage.2

section Stream

variable (stream : MessageStream)

theorem nextMessage_scanner : stream.nextMessage.2.scanner = stream.scanner := by
  unfold MessageStream.nextMessage
  split <;> rfl

theorem after_scanner (calls : List (Cutter.Call UInt8)) :
    (stream.after calls).scanner = stream.scanner := by
  induction calls generalizing stream with
  | nil => rfl
  | cons call calls ih =>
    cases call with
    | feed bytes => exact ih (stream.feed bytes)
    | next => exact (ih stream.nextMessage.2).trans (nextMessage_scanner stream)

/-- The next outcome is none exactly where the scan waits, and then nothing changes. -/
theorem nextMessage_eq_incomplete_iff :
    stream.nextMessage.1 = .incomplete ↔ Waits stream.scanner.maxFrameSize stream.buf := by
  rw [← scan_eq_incomplete_iff]
  unfold MessageStream.nextMessage
  split
  · next hscan => exact iff_of_false (by simp) (by rw [hscan]; simp)
  · next hscan => exact iff_of_true rfl hscan
  · next hscan => exact iff_of_false (by simp) (by rw [hscan]; simp)

theorem nextMessage_of_incomplete (h : stream.nextMessage.1 = .incomplete) :
    stream.nextMessage.2 = stream := by
  revert h
  unfold MessageStream.nextMessage
  split
  · simp
  · exact fun _ => rfl
  · simp

/-- A drained stream waits, with the scanner it had. -/
theorem drain_waits : Waits stream.scanner.maxFrameSize stream.drain.2.buf := by
  induction hlen : stream.buf.length using Nat.strong_induction_on generalizing stream with
  | _ len ih =>
    unfold MessageStream.drain
    -- either nothing more is read, or what is left is drained of a shorter buffer
    by_cases h : stream.nextMessage.1 = .incomplete
    · rw [dif_pos h, nextMessage_of_incomplete stream h]
      exact (nextMessage_eq_incomplete_iff stream).mp h
    · rw [dif_neg h]
      have hrest := ih _ (hlen ▸ nextMessage_lt h) stream.nextMessage.2 rfl
      rwa [nextMessage_scanner] at hrest

end Stream

/-- **A stream waits exactly where a frame may have begun**, however it was fed and read before,
and holds back less than a frame may take: to wait, or once it is drained. -/
theorem stream_waits_iff (dialect : Dialect) (calls : List (Cutter.Call UInt8)) :
    let stream := (MessageStream.new dialect).after calls
    (stream.nextMessage.1 = .incomplete ↔ Waits (2 ^ 20) stream.buf) ∧
      (stream.nextMessage.1 = .incomplete → stream.buf.length < 2 ^ 20) ∧
      stream.drain.2.buf.length < 2 ^ 20 := by
  intro stream
  have hscanner : stream.scanner.maxFrameSize = 2 ^ 20 :=
    congrArg Scanner.maxFrameSize (after_scanner (MessageStream.new dialect) calls)
  have hwaits := nextMessage_eq_incomplete_iff stream
  have hdrained := drain_waits stream
  rw [hscanner] at hwaits hdrained
  refine ⟨hwaits, ?_, hdrained.length_lt (by decide)⟩
  intro h
  exact (hwaits.mp h).length_lt (by decide)

end Refix.Message
