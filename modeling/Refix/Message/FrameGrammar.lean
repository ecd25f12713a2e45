import Refix.Message.Framing

/-!
# The Frame Grammar

What the scanner accepts, stated without the scanner: a frame is

    8= v SOH 9= d SOH r 10= c SOH

where `d` counts `r` and `c` is the checksum of everything before `10=`. Each check of the
scan is brought into concatenation form, and `scan_frame_iff` assembles them: a buffer
scans to a frame of `n` bytes exactly when its first `n` bytes are in the grammar.
-/

namespace Refix.Message

open Refix.Foundation

/-! ## Frames as concatenations -/

/-- The variable parts of a frame. -/
structure FrameParts where
  /-- The value of BeginString. -/
  version : Bytes
  /-- The digits of BodyLength. -/
  digits : Bytes
  /-- The region BodyLength measures, up to and including the SOH before `10=`. -/
  region : Bytes
  /-- The digits of CheckSum. -/
  checksum : Bytes

/-- Everything before the region. -/
def FrameParts.preamble (parts : FrameParts) : Bytes :=
  ascii "8=" ++ (parts.version ++ soh :: (ascii "9=" ++ (parts.digits ++ [soh])))

/-- Everything before `10=`. -/
def FrameParts.head (parts : FrameParts) : Bytes := parts.preamble ++ parts.region

/-- The whole frame. -/
def FrameParts.bytes (parts : FrameParts) : Bytes :=
  parts.head ++ (ascii "10=" ++ (parts.checksum ++ [soh]))

/-- The conditions the grammar puts on the parts. -/
structure FrameParts.Valid (parts : FrameParts) : Prop where
  version_fix : ascii "FIX" <+: parts.version
  version_soh : soh ∉ parts.version
  version_length : (ascii "8=" ++ parts.version).length ≤ 16
  digits_ne_nil : parts.digits ≠ []
  digits_length : parts.digits.length ≤ 10
  digits_digit : ∀ b ∈ parts.digits, isAsciiDigit b = true
  digits_value : decimalValue parts.digits = parts.region.length
  region_msgType : ascii "35=" <+: parts.region
  region_soh : parts.region.getLast? = some soh
  checksum_length : parts.checksum.length = 3
  checksum_digit : ∀ b ∈ parts.checksum, isAsciiDigit b = true
  checksum_value : decimalValue parts.checksum = (parts.head.map UInt8.toNat).sum % 256

/-- The value of MsgType: the region between `35=` and the first SOH after it. -/
def FrameParts.msgType (parts : FrameParts) : Bytes :=
  (parts.region.drop 3).takeWhile (· != soh)

theorem FrameParts.length_preamble (parts : FrameParts) :
    parts.preamble.length = parts.version.length + parts.digits.length + 6 := by
  have h₁ : (ascii "8=").length = 2 := by decide
  have h₂ : (ascii "9=").length = 2 := by decide
  simp only [FrameParts.preamble, List.length_append, List.length_cons, List.length_nil, h₁, h₂]
  omega

theorem FrameParts.length_bytes (parts : FrameParts) :
    parts.bytes.length =
      parts.preamble.length + parts.region.length + 3 + parts.checksum.length + 1 := by
  have h : (ascii "10=").length = 3 := by decide
  simp only [FrameParts.bytes, FrameParts.head, List.length_append, List.length_cons,
    List.length_nil, h]
  omega

/-! ## Checksums -/

theorem toNat_byteSum (bytes : Bytes) :
    (byteSum bytes).toNat = (bytes.map UInt8.toNat).sum % 256 := by
  have hfold : ∀ acc : UInt8, (bytes.foldl (· + ·) acc).toNat =
      (acc.toNat + (bytes.map UInt8.toNat).sum) % 256 := by
    induction bytes with
    | nil =>
      intro acc
      simp
    | cons b bytes ih =>
      intro acc
      rw [List.foldl_cons, ih (acc + b), UInt8.toNat_add, List.map_cons, List.sum_cons]
      omega
  simpa [byteSum] using hfold 0

theorem statedChecksum_eq {digits : Bytes} (h : digits.length = 3) :
    statedChecksum digits = decimalValue digits := by
  obtain ⟨a, b, c, rfl⟩ := List.length_eq_three.mp h
  simp only [statedChecksum, decimalValue, List.foldl_cons, List.foldl_nil,
    List.getD_cons_zero, List.getD_cons_succ]
  omega

/-! ## Each check in concatenation form -/

theorem parseBeginString_eq_ok_iff {buf : Bytes} {result : BeginString × ℕ}
    (hbuf : ascii "8=" <+: buf) :
    parseBeginString buf = .ok result ↔
      ∃ version rest, buf = ascii "8=" ++ (version ++ soh :: rest) ∧ soh ∉ version ∧
        (ascii "8=" ++ version).length ≤ 16 ∧
        result = (BeginString.ofValue version, version.length + 3) := by
  have hpre : (ascii "8=").length = 2 := by decide
  constructor
  · intro h
    simp only [parseBeginString] at h
    split at h
    · next sohAt hfind =>
      -- the SOH is found in the whole buffer, at an offset of at most 16
      have hlt := (findFrom_lt hfind).2
      have hfull := findFrom_of_isPrefix (List.take_prefix _ buf) hfind
      have hlen : 2 ≤ buf.length := by
        have := hbuf.length_le
        omega
      obtain ⟨version, x, rest, hdrop, hrun, hx, rfl⟩ :=
        (findFrom_eq_some_iff_append hlen).mp hfull
      obtain ⟨tail, rfl⟩ := hbuf
      rw [List.drop_left' hpre] at hdrop
      obtain rfl : x = soh := by simpa using hx
      subst hdrop
      simp only [List.length_take, maxBeginStringLen, List.length_append, hpre] at hlt
      refine ⟨version, rest, rfl, fun hmem => ?_, ?_, ?_⟩
      · simpa using hrun soh hmem
      · simp only [List.length_append, hpre]
        omega
      · rw [← hpre, slice_middle] at h
        rw [← Except.ok.inj h, hpre]
        congr 1
        omega
    · split at h <;> exact absurd h (by simp)
  · rintro ⟨version, rest, rfl, hsoh, hlen, rfl⟩
    simp only [List.length_append, hpre] at hlen
    have hrun : ∀ y ∈ version, (y == soh) = false := by
      intro y hy
      simp only [beq_eq_false_iff_ne]
      rintro rfl
      exact hsoh hy
    have hfind : findFrom (· == soh) ((ascii "8=" ++ (version ++ soh :: rest)).take
        (min (ascii "8=" ++ (version ++ soh :: rest)).length (maxBeginStringLen + 1))) 2 =
        some (2 + version.length) := by
      have hfull := findFrom_append_run (ascii "8=") version rest hrun (x := soh) (by simp)
      rw [hpre] at hfull
      refine findFrom_of_isPrefix_of_lt (List.take_prefix _ _) hfull ?_
      simp only [List.length_take, List.length_append, List.length_cons, hpre, maxBeginStringLen]
      omega
    have hslice := slice_middle (ascii "8=") version (soh :: rest)
    rw [hpre] at hslice
    simp only [parseBeginString, hfind, hslice]
    congr 2
    omega

theorem parseBodyLength_eq_ok_iff {before rest : Bytes} {result : ℕ × ℕ} :
    parseBodyLength (before ++ rest) before.length = .ok result ↔
      ∃ digits after, rest = ascii "9=" ++ (digits ++ soh :: after) ∧ digits ≠ [] ∧
        digits.length ≤ 10 ∧ (∀ b ∈ digits, isAsciiDigit b = true) ∧
        result = (decimalValue digits, before.length + digits.length + 3) := by
  have hpre : (ascii "9=").length = 2 := by decide
  constructor
  · intro h
    simp only [parseBodyLength, List.drop_left] at h
    split at h
    · exact absurd h (by simp)
    next hlen =>
    split at h
    · exact absurd h (by simp)
    next htag =>
    obtain ⟨tail, rfl⟩ : ∃ tail, rest = ascii "9=" ++ tail :=
      ⟨rest.drop 2, by rw [← not_not.mp htag, List.take_append_drop]⟩
    split at h
    · split at h <;> exact absurd h (by simp)
    next sohAt hfind =>
    have hlt := (findFrom_lt hfind).2
    have hfull := findFrom_of_isPrefix (List.take_prefix _ _) hfind
    rw [← List.append_assoc, show before.length + 2 = (before ++ ascii "9=").length by
      simp [hpre]] at hfull
    obtain ⟨digits, x, after, hdrop, hrun, hx, rfl⟩ :=
      (findFrom_eq_some_iff_append (by simp)).mp hfull
    rw [List.drop_left] at hdrop
    obtain rfl : x = soh := by simpa using hx
    subst hdrop
    have hslice := slice_middle (before ++ ascii "9=") digits (soh :: after)
    simp only [List.length_append, hpre, List.append_assoc] at hslice h
    simp only [hslice] at h
    split at h
    · exact absurd h (by simp)
    next hdigits =>
    simp only [not_or, Bool.not_eq_false, List.all_eq_true] at hdigits
    split at h
    · exact absurd h (by simp)
    next bodyLength hfold =>
    obtain ⟨rfl, hbound⟩ := foldDigits_eq_some_iff.mp hfold
    simp only [List.length_take, List.length_append, hpre, maxBodyLengthDigits] at hlt
    refine ⟨digits, after, rfl, hdigits.1, by omega, hdigits.2, ?_⟩
    rw [← Except.ok.inj h]
    congr 1
    omega
  · rintro ⟨digits, after, rfl, hne, hlen, hdigit, rfl⟩
    have hrun : ∀ y ∈ digits, (y == soh) = false := by
      intro y hy
      simp only [beq_eq_false_iff_ne]
      rintro rfl
      exact absurd (hdigit soh hy) (by decide)
    have hfind : findFrom (· == soh)
        ((before ++ (ascii "9=" ++ (digits ++ soh :: after))).take
          (min (before ++ (ascii "9=" ++ (digits ++ soh :: after))).length
            (before.length + 2 + maxBodyLengthDigits + 1))) (before.length + 2) =
        some (before.length + 2 + digits.length) := by
      have hfull := findFrom_append_run (before ++ ascii "9=") digits after hrun (x := soh)
        (by simp)
      simp only [List.length_append, hpre, List.append_assoc] at hfull
      refine findFrom_of_isPrefix_of_lt (List.take_prefix _ _) hfull ?_
      simp only [List.length_take, List.length_append, List.length_cons, hpre,
        maxBodyLengthDigits]
      omega
    have hslice : slice (before ++ (ascii "9=" ++ (digits ++ soh :: after))) (before.length + 2)
        (before.length + 2 + digits.length) = digits := by
      have := slice_middle (before ++ ascii "9=") digits (soh :: after)
      simpa only [List.length_append, hpre, List.append_assoc] using this
    have hfold : foldDigits usizeMax 0 digits = some (decimalValue digits) := by
      refine foldDigits_eq_some_iff.mpr ⟨rfl, ?_⟩
      -- ten digits are far from the end of a `usize`
      have hlt := decimalValue_lt hdigit
      have hpow : (10 : ℕ) ^ digits.length ≤ 10 ^ 10 := Nat.pow_le_pow_right (by decide) hlen
      have husize : (10 : ℕ) ^ 10 ≤ usizeMax := by decide
      omega
    have htag : ¬ (ascii "9=" ++ (digits ++ soh :: after)).take 2 ≠ ascii "9=" := by
      rw [not_not, ← hpre, List.take_left]
    have hlong : ¬ (ascii "9=" ++ (digits ++ soh :: after)).length < 2 := by
      simp only [List.length_append, hpre]
      omega
    have hall : digits.all isAsciiDigit = true := List.all_eq_true.mpr hdigit
    simp only [parseBodyLength, List.drop_left, hlong, htag, if_false, hfind, hslice, hfold, hne,
      hall, or_self, reduceCtorEq]
    congr 2
    omega

theorem validatedFrameLen_eq_ok_iff {buf : Bytes} {bodyStart bodyLength maxFrameSize n : ℕ}
    (hsmall : bodyStart + bodyLength + checksumFieldLen ≤ usizeMax) :
    validatedFrameLen buf bodyStart bodyLength maxFrameSize = .ok n ↔
      n = bodyStart + bodyLength + 7 ∧ n ≤ maxFrameSize ∧ n ≤ buf.length := by
  have hlen : saturatingAdd (saturatingAdd bodyStart bodyLength) checksumFieldLen =
      bodyStart + bodyLength + 7 := by
    simp only [saturatingAdd, checksumFieldLen] at hsmall ⊢
    omega
  simp only [validatedFrameLen, hlen]
  split
  · simp only [reduceCtorEq, false_iff]
    omega
  · split
    · simp only [reduceCtorEq, false_iff]
      omega
    · rw [Except.ok.injEq]
      omega

theorem verifyTrailerStart_eq_ok_iff {buf : Bytes} {checksumStart : ℕ} :
    verifyTrailerStart buf checksumStart = .ok () ↔
      buf[checksumStart - 1]? = some soh ∧
        slice buf checksumStart (checksumStart + 3) = ascii "10=" := by
  unfold verifyTrailerStart
  split
  · next h =>
    simp only [reduceCtorEq, false_iff]
    rintro ⟨hsoh, htag⟩
    simp [hsoh, htag] at h
  · next h =>
    simp only [not_or, not_not] at h
    exact ⟨fun _ => h, fun _ => rfl⟩

theorem verifyChecksum_eq_ok_iff {frame : Bytes} {checksumStart : ℕ} :
    verifyChecksum frame checksumStart = .ok () ↔
      frame[checksumStart + 6]? = some soh ∧
        (∀ b ∈ slice frame (checksumStart + 3) (checksumStart + 6), isAsciiDigit b = true) ∧
        (byteSum (frame.take checksumStart)).toNat =
          statedChecksum (slice frame (checksumStart + 3) (checksumStart + 6)) := by
  simp only [verifyChecksum, ← List.all_eq_true]
  split
  · next h =>
    simp only [reduceCtorEq, false_iff]
    rintro ⟨hsoh, hdigits, -⟩
    simp [hsoh, hdigits] at h
  · next h =>
    simp only [not_or, not_not, Bool.not_eq_false] at h
    split
    · next hne => simp [hne]
    · next heq => simpa [h] using heq

theorem parseMsgType_eq_ok_iff {frame msgType : Bytes} {bodyStart bodyLength : ℕ} :
    parseMsgType frame bodyStart bodyLength = .ok msgType ↔
      ∃ after, slice frame bodyStart (bodyStart + bodyLength) =
        ascii "35=" ++ (msgType ++ soh :: after) ∧ soh ∉ msgType := by
  simp only [parseMsgType]
  constructor
  · intro h
    split at h
    · exact absurd h (by simp)
    next afterTag hstrip =>
    split at h
    · exact absurd h (by simp)
    next sohAt hfind =>
    obtain rfl := Except.ok.inj h
    rw [stripPrefix_eq_some_iff] at hstrip
    have hfrom : findFrom (· == soh) afterTag 0 = some sohAt := by simp [findFrom, hfind]
    -- The value ends at the first SOH behind the tag.
    obtain ⟨run, x, after, hsplit, hrun, hx, rfl⟩ :=
      (findFrom_eq_some_iff_append (Nat.zero_le _)).mp hfrom
    obtain rfl : x = soh := by simpa using hx
    rw [List.drop_zero] at hsplit
    subst hsplit
    refine ⟨after, ?_, ?_⟩
    · simpa using hstrip
    · simp only [Nat.zero_add, List.take_left]
      intro hmem
      simpa using hrun soh hmem
  · rintro ⟨after, hregion, hsoh⟩
    have hrun : ∀ y ∈ msgType, (y == soh) = false := by
      intro y hy
      simp only [beq_eq_false_iff_ne]
      rintro rfl
      exact hsoh hy
    have hnone : msgType.findIdx? (· == soh) = none := List.findIdx?_eq_none_iff.mpr hrun
    have hfind : (msgType ++ soh :: after).findIdx? (· == soh) = some msgType.length := by
      simp [List.findIdx?_append, hnone, List.findIdx?_cons]
    simp only [hregion, stripPrefix_eq_some_iff.mpr rfl, hfind, List.take_left]

/-! ## The scan -/

/-- The text a decoded BeginString stands for. -/
def BeginString.value : BeginString → Bytes
  | .fix40 => ascii "FIX.4.0"
  | .fix41 => ascii "FIX.4.1"
  | .fix42 => ascii "FIX.4.2"
  | .fix43 => ascii "FIX.4.3"
  | .fix44 => ascii "FIX.4.4"
  | .fixt11 => ascii "FIXT.1.1"
  | .other value => value

@[simp] theorem BeginString.value_ofValue (value : Bytes) :
    (BeginString.ofValue value).value = value := by
  unfold BeginString.ofValue
  split_ifs <;> simp_all [BeginString.value]

/-- The frame the parts make up. -/
def FrameParts.frame (parts : FrameParts) : Frame where
  bytes := parts.bytes
  beginString := BeginString.ofValue parts.version
  bodyLength := parts.region.length
  msgType := parts.msgType

theorem except_bind_eq_ok_iff {ε α β : Type} {x : Except ε α} {f : α → Except ε β} {b : β} :
    (x >>= f) = .ok b ↔ ∃ a, x = .ok a ∧ f a = .ok b := by
  cases x with
  | error e => simp [bind, Except.bind]
  | ok a => simp [bind, Except.bind]

/-- The two trailer checks on a buffer that holds the whole frame. -/
theorem trailer_checks_iff (head after : Bytes) (hhead : head ≠ [])
    (hlen : head.length + 7 ≤ (head ++ after).length) :
    (verifyTrailerStart (head ++ after) head.length = .ok () ∧
      verifyChecksum ((head ++ after).take (head.length + 7)) head.length = .ok ()) ↔
    head.getLast? = some soh ∧ ∃ checksum rest, after = ascii "10=" ++ (checksum ++ soh :: rest) ∧
      checksum.length = 3 ∧ (∀ b ∈ checksum, isAsciiDigit b = true) ∧
      decimalValue checksum = (head.map UInt8.toNat).sum % 256 := by
  have hpre : (ascii "10=").length = 3 := by decide
  have hpos : 0 < head.length := List.length_pos_iff.mpr hhead
  have hlast : (head ++ after)[head.length - 1]? = head.getLast? := by
    rw [List.getElem?_append_left (by omega), List.getLast?_eq_getElem?]
  have htag : slice (head ++ after) head.length (head.length + 3) = after.take 3 :=
    slice_append_right head after 0 3
  rw [verifyTrailerStart_eq_ok_iff, verifyChecksum_eq_ok_iff, hlast, htag]
  have htake : (head ++ after).take (head.length + 7) = head ++ after.take 7 := by
    simp [List.take_append]
  rw [htake, List.take_left]
  constructor
  · rintro ⟨⟨hsoh, htag⟩, hend, hdigit, hsum⟩
    obtain ⟨tail, rfl⟩ : ∃ tail, after = ascii "10=" ++ tail :=
      ⟨after.drop 3, by rw [← htag, List.take_append_drop]⟩
    simp only [List.length_append, hpre] at hlen
    -- The seven bytes of the trailer are in the frame, so four follow its tag.
    obtain ⟨a, b, c, d, rest, rfl⟩ : ∃ a b c d rest, tail = a :: b :: c :: d :: rest := by
      match tail, hlen with
      | a :: b :: c :: d :: rest, _ => exact ⟨a, b, c, d, rest, rfl⟩
      | [_, _, _], h => simp at h
      | [_, _], h => simp at h
      | [_], h => simp at h
      | [], h => simp at h
    have hslice : slice (head ++ (ascii "10=" ++ a :: b :: c :: d :: rest).take 7)
        (head.length + 3) (head.length + 6) = [a, b, c] := by
      rw [slice_append_right]
      rfl
    rw [List.getElem?_append_right (by omega)] at hend
    obtain rfl : d = soh := by
      simpa [List.getElem?_take, List.getElem?_append, hpre] using hend
    rw [hslice] at hdigit hsum
    refine ⟨hsoh, [a, b, c], rest, by simp, rfl, hdigit, ?_⟩
    rw [← statedChecksum_eq rfl, ← hsum, toNat_byteSum]
  -- Conversely, the trailer that is written is what the checks read.
  · rintro ⟨hsoh, checksum, rest, rfl, hthree, hdigit, hsum⟩
    obtain ⟨a, b, c, rfl⟩ := List.length_eq_three.mp hthree
    have hslice : slice (head ++ (ascii "10=" ++ ([a, b, c] ++ soh :: rest)).take 7)
        (head.length + 3) (head.length + 6) = [a, b, c] := by
      rw [slice_append_right]
      rfl
    rw [hslice]
    refine ⟨⟨hsoh, by rw [← hpre, List.take_left]⟩, ?_, hdigit, ?_⟩
    · rw [List.getElem?_append_right (by omega)]
      simp [List.getElem?_append, hpre]
    · rw [toNat_byteSum, ← hsum, statedChecksum_eq hthree]

theorem FrameParts.Valid.fits_usize {parts : FrameParts} (hvalid : parts.Valid) :
    parts.preamble.length + parts.region.length + checksumFieldLen ≤ usizeMax := by
  have hlt := decimalValue_lt hvalid.digits_digit
  have hpow : (10 : ℕ) ^ parts.digits.length ≤ 10 ^ 10 :=
    Nat.pow_le_pow_right (by decide) hvalid.digits_length
  have hlen := hvalid.version_length
  have hdigits := hvalid.digits_length
  rw [hvalid.digits_value] at hlt
  rw [parts.length_preamble]
  simp only [List.length_append, checksumFieldLen, usizeMax] at hlen ⊢
  omega

theorem FrameParts.Valid.region_ne_nil {parts : FrameParts} (hvalid : parts.Valid) :
    parts.region ≠ [] := by
  intro hnil
  have h := hvalid.region_soh
  rw [hnil] at h
  exact absurd h (by simp)

/-- The region opens with the MsgType field. -/
theorem FrameParts.Valid.region_eq {parts : FrameParts} (hvalid : parts.Valid) :
    (∃ after, parts.region = ascii "35=" ++ (parts.msgType ++ soh :: after)) ∧
      soh ∉ parts.msgType := by
  obtain ⟨tail, htail⟩ := hvalid.region_msgType
  have hmsgType : parts.msgType = tail.takeWhile (· != soh) := by
    rw [FrameParts.msgType, ← htail]
    rfl
  have hmem : soh ∈ tail := by
    have hlast := hvalid.region_soh
    rw [← htail, List.getLast?_append] at hlast
    cases hnil : tail.getLast? with
    | none =>
      rw [hnil] at hlast
      exact absurd hlast (by decide)
    | some b =>
      rw [hnil, Option.some_or, Option.some.injEq] at hlast
      rw [← hlast]
      exact List.mem_of_getLast? hnil
  obtain ⟨after, hafter⟩ := exists_takeWhile_append_cons hmem
  refine ⟨⟨after, ?_⟩, ?_⟩
  · rw [hmsgType, ← hafter, htail]
  · rw [hmsgType]
    intro h
    simpa using List.mem_takeWhile_imp h

/-- Every frame of the grammar within the cap is scanned, whatever follows it. -/
theorem tryScan_bytes_append {scanner : Scanner} {parts : FrameParts} (hvalid : parts.Valid)
    (hcap : parts.bytes.length ≤ scanner.maxFrameSize) (rest : Bytes) :
    scanner.tryScan (parts.bytes ++ rest) = .ok parts.frame := by
  have hpre : (ascii "9=").length = 2 := by decide
  -- the buffer, cut behind each of the parts
  have hbuf₁ : parts.bytes ++ rest = ascii "8=" ++ (parts.version ++ soh :: (ascii "9=" ++
      (parts.digits ++ soh :: (parts.region ++ (ascii "10=" ++ (parts.checksum ++
        soh :: rest)))))) := by
    simp [FrameParts.bytes, FrameParts.head, FrameParts.preamble]
  have hbuf₂ : parts.bytes ++ rest = (ascii "8=" ++ (parts.version ++ [soh])) ++ (ascii "9=" ++
      (parts.digits ++ soh :: (parts.region ++ (ascii "10=" ++ (parts.checksum ++
        soh :: rest))))) := by
    simp [hbuf₁]
  have hbuf₃ : parts.bytes ++ rest =
      parts.head ++ (ascii "10=" ++ (parts.checksum ++ soh :: rest)) := by
    simp [FrameParts.bytes]
  have hfix : beginStringPrefix <+: parts.bytes ++ rest := by
    obtain ⟨tail, htail⟩ := hvalid.version_fix
    rw [hbuf₁, ← htail]
    exact ⟨_, by simp [beginStringPrefix, ascii]; rfl⟩
  have hbegin : parseBeginString (parts.bytes ++ rest) =
      .ok (BeginString.ofValue parts.version, parts.version.length + 3) :=
    (parseBeginString_eq_ok_iff ⟨_, hbuf₁.symm⟩).mpr
      ⟨_, _, hbuf₁, hvalid.version_soh, hvalid.version_length, rfl⟩
  have hbody : parseBodyLength (parts.bytes ++ rest) (parts.version.length + 3) =
      .ok (parts.region.length, parts.preamble.length) := by
    have hstart : parts.version.length + 3 = (ascii "8=" ++ (parts.version ++ [soh])).length := by
      have h : (ascii "8=").length = 2 := by decide
      simp only [List.length_append, List.length_cons, List.length_nil, h]
      omega
    rw [hbuf₂, hstart]
    refine parseBodyLength_eq_ok_iff.mpr ⟨_, _, rfl, hvalid.digits_ne_nil, hvalid.digits_length,
      hvalid.digits_digit, ?_⟩
    rw [hvalid.digits_value, ← hstart, parts.length_preamble]
    congr 1
    omega
  have hlen : validatedFrameLen (parts.bytes ++ rest) parts.preamble.length parts.region.length
      scanner.maxFrameSize = .ok parts.bytes.length := by
    refine (validatedFrameLen_eq_ok_iff hvalid.fits_usize).mpr ⟨?_, hcap, by simp⟩
    rw [parts.length_bytes, hvalid.checksum_length]
  have hhead : parts.head.length = parts.preamble.length + parts.region.length := by
    simp [FrameParts.head]
  have htrailer := (trailer_checks_iff parts.head
    (ascii "10=" ++ (parts.checksum ++ soh :: rest))
    (by simp [FrameParts.head, hvalid.region_ne_nil])
    (by simp [hvalid.checksum_length, ascii]; omega)).mpr
      ⟨by rw [FrameParts.head, List.getLast?_append, hvalid.region_soh, Option.some_or],
        _, _, rfl, hvalid.checksum_length, hvalid.checksum_digit, hvalid.checksum_value⟩
  rw [← hbuf₃, hhead] at htrailer
  have htake : (parts.bytes ++ rest).take parts.bytes.length = parts.bytes := List.take_left
  have hlength : parts.preamble.length + parts.region.length + 7 = parts.bytes.length := by
    rw [parts.length_bytes, hvalid.checksum_length]
  rw [hlength, htake] at htrailer
  have hmsgType : parseMsgType parts.bytes parts.preamble.length parts.region.length =
      .ok parts.msgType := by
    have hslice : slice parts.bytes parts.preamble.length
        (parts.preamble.length + parts.region.length) = parts.region := by
      rw [FrameParts.bytes, FrameParts.head, List.append_assoc, slice_middle]
    obtain ⟨⟨after, hregion⟩, hsoh⟩ := hvalid.region_eq
    exact parseMsgType_eq_ok_iff.mpr ⟨after, by rw [hslice, hregion], hsoh⟩
  rw [Scanner.tryScan, if_pos hfix, hbegin]
  simp only [bind, Except.bind, hbody, hlen, htake, htrailer.1, htrailer.2, hmsgType]
  rfl

/-! ### From a scanned frame to its parts -/

/-- The conditions the grammar puts on the parts in front of the region. -/
structure IsPreamble (version digits : Bytes) : Prop where
  version_fix : ascii "FIX" <+: version
  version_soh : soh ∉ version
  version_length : (ascii "8=" ++ version).length ≤ 16
  digits_ne_nil : digits ≠ []
  digits_length : digits.length ≤ 10
  digits_digit : ∀ b ∈ digits, isAsciiDigit b = true

/-- BeginString and BodyLength cut the buffer into a preamble and the rest. -/
theorem exists_preamble {buf : Bytes} {beginString : BeginString}
    {bodyLengthStart bodyLength bodyStart : ℕ} (hfix : beginStringPrefix <+: buf)
    (hbegin : parseBeginString buf = .ok (beginString, bodyLengthStart))
    (hbody : parseBodyLength buf bodyLengthStart = .ok (bodyLength, bodyStart)) :
    ∃ version digits after, IsPreamble version digits ∧
      buf = ascii "8=" ++ (version ++ soh :: (ascii "9=" ++ (digits ++ soh :: after))) ∧
      beginString = BeginString.ofValue version ∧ bodyLength = decimalValue digits ∧
      bodyStart = version.length + digits.length + 6 := by
  have height : ascii "8=" <+: buf := List.IsPrefix.trans (by decide) hfix
  obtain ⟨version, rest, rfl, hsoh, hshort, hresult⟩ :=
    (parseBeginString_eq_ok_iff height).mp hbegin
  obtain ⟨rfl, rfl⟩ := Prod.mk.inj hresult
  -- BodyLength is read where the BeginString field ends
  have hstart : version.length + 3 = (ascii "8=" ++ (version ++ [soh])).length := by
    simp [ascii]
  have hsplit : ascii "8=" ++ (version ++ soh :: rest) =
      (ascii "8=" ++ (version ++ [soh])) ++ rest := by simp
  rw [hsplit, hstart] at hbody
  obtain ⟨digits, after, rfl, hdigits, hdigitsLen, hdigit, hresult⟩ :=
    parseBodyLength_eq_ok_iff.mp hbody
  obtain ⟨rfl, rfl⟩ := Prod.mk.inj hresult
  -- no SOH stands in `8=FIX`, so that the whole of it lies in front of the version's
  have hversion : ascii "FIX" <+: version := by
    have hfull : ascii "8=" ++ ascii "FIX" <+:
        ascii "8=" ++ (version ++ soh :: (ascii "9=" ++ (digits ++ soh :: after))) := hfix
    exact isPrefix_of_isPrefix_append_cons ((List.prefix_append_right_inj _).mp hfull) (by decide)
  refine ⟨version, digits, after, ⟨hversion, hsoh, hshort, hdigits, hdigitsLen, hdigit⟩, rfl, rfl,
    rfl, ?_⟩
  rw [← hstart]
  omega

/-- A frame that is announced and fits has its region and its trailer buffered. -/
theorem IsPreamble.exists_region {version digits after : Bytes} (h : IsPreamble version digits)
    {maxFrameSize frameLen : ℕ}
    (hframe : validatedFrameLen
      (ascii "8=" ++ (version ++ soh :: (ascii "9=" ++ (digits ++ soh :: after))))
      (version.length + digits.length + 6) (decimalValue digits) maxFrameSize = .ok frameLen) :
    ∃ region trailer, after = region ++ trailer ∧ decimalValue digits = region.length ∧
      frameLen = version.length + digits.length + 6 + region.length + 7 ∧
      frameLen ≤ maxFrameSize ∧ 7 ≤ trailer.length := by
  have hlt := decimalValue_lt h.digits_digit
  have hpow : (10 : ℕ) ^ digits.length ≤ 10 ^ 10 :=
    Nat.pow_le_pow_right (by decide) h.digits_length
  have hversion := h.version_length
  have hdigits := h.digits_length
  simp only [List.length_append, show (ascii "8=").length = 2 from rfl] at hversion
  -- ten digits announce nothing that saturates
  have hsmall : version.length + digits.length + 6 + decimalValue digits + checksumFieldLen ≤
      usizeMax := by
    simp only [checksumFieldLen, usizeMax]
    omega
  obtain ⟨rfl, hcap, hfits⟩ := (validatedFrameLen_eq_ok_iff hsmall).mp hframe
  simp only [List.length_append, List.length_cons, show (ascii "8=").length = 2 from rfl,
    show (ascii "9=").length = 2 from rfl] at hfits
  have hregion : (after.take (decimalValue digits)).length = decimalValue digits := by
    rw [List.length_take]
    omega
  refine ⟨after.take (decimalValue digits), after.drop (decimalValue digits),
    (List.take_append_drop ..).symm, hregion.symm, by rw [hregion], hcap, ?_⟩
  rw [List.length_drop]
  omega

/-- Parts whose checks all went well are those of a frame. -/
theorem IsPreamble.valid {parts : FrameParts} (h : IsPreamble parts.version parts.digits)
    (hvalue : decimalValue parts.digits = parts.region.length)
    (hlast : parts.head.getLast? = some soh) {msgType after : Bytes}
    (hregion : parts.region = ascii "35=" ++ (msgType ++ soh :: after))
    (hthree : parts.checksum.length = 3) (hdigit : ∀ b ∈ parts.checksum, isAsciiDigit b = true)
    (hsum : decimalValue parts.checksum = (parts.head.map UInt8.toNat).sum % 256) :
    parts.Valid where
  version_fix := h.version_fix
  version_soh := h.version_soh
  version_length := h.version_length
  digits_ne_nil := h.digits_ne_nil
  digits_length := h.digits_length
  digits_digit := h.digits_digit
  digits_value := hvalue
  region_msgType := ⟨_, hregion.symm⟩
  region_soh := by
    have hne : parts.region ≠ [] := by simp [hregion, ascii]
    rwa [FrameParts.head, List.getLast?_append_of_ne_nil _ hne] at hlast
  checksum_length := hthree
  checksum_digit := hdigit
  checksum_value := hsum

/-- Whatever is scanned as a frame is a frame of the grammar within the cap. -/
theorem exists_parts_of_tryScan {scanner : Scanner} {buf : Bytes} {frame : Frame}
    (h : scanner.tryScan buf = .ok frame) :
    ∃ parts : FrameParts, parts.Valid ∧ parts.bytes <+: buf ∧
      parts.bytes.length ≤ scanner.maxFrameSize ∧ frame = parts.frame := by
  unfold Scanner.tryScan at h
  split at h
  swap
  · split at h <;> exact absurd h (by simp)
  next hfix =>
  -- the checks, in the order the scan makes them
  obtain ⟨⟨beginString, bodyLengthStart⟩, hbegin, h⟩ := except_bind_eq_ok_iff.mp h
  obtain ⟨⟨bodyLength, bodyStart⟩, hbody, h⟩ := except_bind_eq_ok_iff.mp h
  obtain ⟨frameLen, hframe, h⟩ := except_bind_eq_ok_iff.mp h
  obtain ⟨⟨⟩, htrailer, h⟩ := except_bind_eq_ok_iff.mp h
  obtain ⟨⟨⟩, hchecksum, h⟩ := except_bind_eq_ok_iff.mp h
  obtain ⟨msgType, hmsgType, h⟩ := except_bind_eq_ok_iff.mp h
  obtain rfl := Except.ok.inj h
  obtain ⟨version, digits, after, hpreamble, rfl, rfl, rfl, rfl⟩ := exists_preamble hfix hbegin hbody
  obtain ⟨region, trailer, rfl, hvalue, rfl, hcap, hseven⟩ := hpreamble.exists_region hframe
  -- everything before the trailer, whatever checksum it states
  have hhead : ∀ checksum : Bytes,
      ascii "8=" ++ (version ++ soh :: (ascii "9=" ++ (digits ++ soh :: (region ++ trailer)))) =
        (⟨version, digits, region, checksum⟩ : FrameParts).head ++ trailer := by
    simp [FrameParts.head, FrameParts.preamble]
  have hheadLen : version.length + digits.length + 6 + decimalValue digits =
      (⟨version, digits, region, []⟩ : FrameParts).head.length := by
    rw [FrameParts.head, List.length_append, FrameParts.length_preamble, hvalue]
  rw [hhead [], hheadLen] at htrailer
  rw [hhead [], ← hvalue, hheadLen] at hchecksum
  obtain ⟨hlast, checksum, rest, rfl, hthree, hdigit, hsum⟩ :=
    (trailer_checks_iff _ trailer (by simp [FrameParts.head, FrameParts.preamble])
      (by rw [List.length_append]; omega)).mp ⟨htrailer, hchecksum⟩
  let parts : FrameParts := ⟨version, digits, region, checksum⟩
  have hbytes : ascii "8=" ++ (version ++ soh :: (ascii "9=" ++ (digits ++ soh :: (region ++
      (ascii "10=" ++ (checksum ++ soh :: rest)))))) = parts.bytes ++ rest := by
    rw [hhead checksum]
    simp [parts, FrameParts.bytes]
  have hbytesLen : version.length + digits.length + 6 + region.length + 7 =
      parts.bytes.length := by
    simp only [parts.length_bytes, parts.length_preamble, parts, hthree]
  rw [hbytesLen] at hmsgType hcap ⊢
  rw [hbytes, List.take_left] at hmsgType ⊢
  have hslice : slice parts.bytes (version.length + digits.length + 6)
      (version.length + digits.length + 6 + decimalValue digits) = region := by
    have hlen : parts.preamble.length = version.length + digits.length + 6 :=
      parts.length_preamble
    rw [← hlen, hvalue, FrameParts.bytes, FrameParts.head, List.append_assoc, slice_middle]
  -- the MsgType opens the region, which is what the grammar asks of it
  obtain ⟨behind, hregion, hmsgSoh⟩ := parseMsgType_eq_ok_iff.mp hmsgType
  rw [hslice] at hregion
  have hvalid : parts.Valid := IsPreamble.valid hpreamble hvalue hlast hregion hthree hdigit hsum
  have hmsg : parts.msgType = msgType := by
    rw [FrameParts.msgType, show parts.region = _ from hregion]
    exact takeWhile_append_cons_self hmsgSoh
  refine ⟨parts, hvalid, List.prefix_append _ _, hcap, ?_⟩
  rw [FrameParts.frame, hmsg]
  simp only [parts, hvalue]

/-! ## The grammar decides the scan -/

theorem scan_eq_frame_iff {scanner : Scanner} {buf : Bytes} {frame : Frame} :
    scanner.scan buf = .frame frame ↔ scanner.tryScan buf = .ok frame := by
  unfold Scanner.scan
  cases h : scanner.tryScan buf with
  | ok f => simp
  | error halt => cases halt <;> simp [Halt.toOutcome]

/-- **The scanner accepts exactly the frame grammar.** A buffer scans to a frame of `n` bytes
exactly when `n` is within the cap and the first `n` bytes are in the grammar, and the frame
then reports the parts it was read from. -/
theorem scan_frame_iff (scanner : Scanner) (buf : Bytes) (n : ℕ) :
    ((∃ frame, scanner.scan buf = .frame frame ∧ frame.bytes.length = n) ↔
      n ≤ scanner.maxFrameSize ∧ ∃ parts : FrameParts, parts.Valid ∧
        parts.bytes.length = n ∧ parts.bytes <+: buf) ∧
    ∀ frame, scanner.scan buf = .frame frame → frame.bytes <+: buf ∧
      ∀ parts : FrameParts, parts.Valid → parts.bytes = frame.bytes →
        frame.beginString = BeginString.ofValue parts.version ∧
        frame.beginString.value = parts.version ∧
        frame.bodyLength = parts.region.length ∧ frame.msgType = parts.msgType := by
  refine ⟨⟨?_, ?_⟩, ?_⟩
  · rintro ⟨frame, hscan, rfl⟩
    obtain ⟨parts, hvalid, hpre, hcap, rfl⟩ :=
      exists_parts_of_tryScan (scan_eq_frame_iff.mp hscan)
    exact ⟨hcap, parts, hvalid, rfl, hpre⟩
  · rintro ⟨hcap, parts, hvalid, rfl, rest, rfl⟩
    exact ⟨parts.frame, scan_eq_frame_iff.mpr (tryScan_bytes_append hvalid hcap rest), rfl⟩
  · intro frame hscan
    obtain ⟨read, hread, ⟨rest, rfl⟩, hcap, rfl⟩ :=
      exists_parts_of_tryScan (scan_eq_frame_iff.mp hscan)
    refine ⟨⟨rest, rfl⟩, ?_⟩
    intro parts hvalid hbytes
    -- the grammar is unambiguous, since scanning the bytes of either parse gives its frame
    have hframe : read.frame = parts.frame := by
      have h₁ := tryScan_bytes_append hread hcap rest
      have hbytes' : parts.bytes = read.bytes := hbytes
      have hcap' : parts.bytes.length ≤ scanner.maxFrameSize := by
        rw [hbytes']
        exact hcap
      have h₂ := tryScan_bytes_append hvalid hcap' rest
      rw [hbytes', h₁] at h₂
      exact Except.ok.inj h₂
    rw [hframe]
    exact ⟨rfl, BeginString.value_ofValue _, rfl, rfl⟩

end Refix.Message
