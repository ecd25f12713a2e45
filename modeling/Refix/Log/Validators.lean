import Refix.Log.Accounts
import Refix.Log.Closing

/-!
# Diagnostics and the Scanner

Two validators check a message: the scanner its bytes at fixed positions, the log reader's
diagnostics its fields as the tokenizer reads them. On a record with SOH they agree if the
message is laid out as a frame is: the fields may spell a tag or BodyLength with leading zeros,
the positions may not.
-/

namespace Refix.Log

open Refix.Foundation Refix.Message

/-- The layout of a frame: its second, third and last field are written `9=`, `35=` and `10=`,
with at most ten digits in the second. Nothing is said about the values. -/
def LaidOut (bytes : Bytes) : Prop :=
  ∃ parts : FrameParts, parts.bytes = bytes ∧ soh ∉ parts.version ∧ soh ∉ parts.digits ∧
    parts.digits.length ≤ 10 ∧ soh ∉ parts.checksum ∧
    ascii "35=" <+: parts.region ∧ parts.region.getLast? = some soh

theorem laidOut_of_valid {parts : FrameParts} (h : parts.Valid) : LaidOut parts.bytes :=
  ⟨parts, rfl, h.version_soh, soh_notMem_of_digits h.digits_digit, h.digits_length,
    soh_notMem_of_digits h.checksum_digit, h.region_msgType, h.region_soh⟩

/-! ## How a record's message begins -/

theorem restoreSoh_append {bytes rest : Bytes} (h : caret ∉ bytes) :
    restoreSoh (bytes ++ rest) = bytes ++ restoreSoh rest := by
  induction bytes with
  | nil => rfl
  | cons b bytes ih =>
    rw [List.mem_cons, not_or] at h
    have hb : ¬ caretABytes <+: b :: (bytes ++ rest) := by
      intro hpre
      exact h.1 (List.cons_prefix_cons.mp hpre).1
    rw [List.cons_append, restoreSoh_cons hb, ih h.2, List.cons_append]

theorem isVersionByte_ne {b : UInt8} (h : isVersionByte b = true) : b ≠ soh ∧ b ≠ caret := by
  constructor <;>
  · rintro rfl
    exact absurd h (by decide)

/-- A message that was cut behind its first SOH keeps all that stands before it. -/
theorem restore_take {separator : Separator} (hsoh : separator.fieldEnd = soh) {front : Bytes}
    (hfront : ∀ b ∈ front, b ≠ soh ∧ b ≠ caret) (more : Bytes) (len : ℕ)
    (hmem : soh ∈ separator.restore ((front ++ (separator.bytes ++ more)).take len)) :
    ∃ after, separator.restore ((front ++ (separator.bytes ++ more)).take len) =
      front ++ soh :: after := by
  rw [List.take_append] at hmem ⊢
  have hnotMem : ∀ n, soh ∉ front.take n ∧ caret ∉ front.take n := fun n =>
    ⟨fun hb => (hfront _ (List.mem_of_mem_take hb)).1 rfl,
      fun hb => (hfront _ (List.mem_of_mem_take hb)).2 rfl⟩
  have hwhole : ∀ m, len - front.length = m + 1 → front.take len = front := by
    intro m hm
    exact List.take_of_length_le (by omega)
  generalize hm : len - front.length = m at hmem hwhole ⊢
  cases separator with
  | byte b =>
    obtain rfl : b = soh := hsoh
    cases m with
    | zero => exact absurd hmem (by simpa [Separator.restore] using (hnotMem len).1)
    | succ m => exact ⟨more.take m, by rw [hwhole m rfl]; rfl⟩
  | caretA =>
    simp only [Separator.restore] at hmem ⊢
    rw [restoreSoh_append (hnotMem len).2] at hmem ⊢
    rcases m with _ | _ | m
    · exact absurd hmem (by simpa using (hnotMem len).1)
    · -- a lone `^` is no SOH
      have hcaret : ¬ caretABytes <+: [caret] := by decide
      have htake : ((Separator.caretA).bytes ++ more).take 1 = [caret] := rfl
      rw [Nat.zero_add, htake, restoreSoh_cons hcaret, restoreSoh_nil] at hmem
      rcases List.mem_append.mp hmem with hb | hb
      · exact absurd hb (hnotMem len).1
      · exact absurd hb (by decide)
    · refine ⟨restoreSoh (more.take m), ?_⟩
      have htake : ((Separator.caretA).bytes ++ more).take (m + 1 + 1) =
          caret :: 65 :: more.take m := rfl
      rw [hwhole (m + 1) rfl, htake, restoreSoh_caretA]

/-- A record with SOH begins with a BeginString field that a start has. -/
theorem version_of_restore {rest : Bytes} {len : ℕ} {given : Option UInt8} {separator : Separator}
    (hstart : check rest given = .start separator) (hsoh : separator.fieldEnd = soh)
    {version after : Bytes}
    (hbytes : separator.restore (rest.take len) = ascii "8=" ++ (version ++ soh :: after))
    (hversion : soh ∉ version) :
    ascii "FIX" <+: version ∧ (ascii "8=" ++ version).length ≤ 16 := by
  obtain ⟨parts, hvalid, rfl, tail, rfl⟩ := check_eq_start_iff.mp hstart
  have hne : ∀ b ∈ ascii "8=" ++ parts.version, b ≠ soh ∧ b ≠ caret := by
    intro b hb
    rcases List.mem_append.mp hb with hmem | hmem
    · exact (show ∀ b ∈ ascii "8=", b ≠ soh ∧ b ≠ caret by decide +kernel) b hmem
    · exact isVersionByte_ne (hvalid.version_byte b hmem)
  have hsplit : parts.bytes ++ tail = (ascii "8=" ++ parts.version) ++
      (parts.separator.bytes ++ (parts.digits ++ [equalsSign] ++ tail)) := by
    simp [StartParts.bytes]
  have hmem : soh ∈ parts.separator.restore ((parts.bytes ++ tail).take len) := by
    simp [hbytes]
  rw [hsplit] at hmem hbytes
  obtain ⟨after', hfront⟩ := restore_take hsoh hne _ len hmem
  rw [hfront, List.append_assoc, List.append_cancel_left_eq] at hbytes
  have hsame : parts.version = version := by
    have htaken := congrArg (List.takeWhile (· != soh)) hbytes
    rwa [takeWhile_append_cons_self (fun hb => (hne _ (List.mem_append_right _ hb)).1 rfl),
      takeWhile_append_cons_self hversion] at htaken
  rw [← hsame]
  exact ⟨hvalid.version_fix, hvalid.version_length⟩

/-! ## What clean diagnostics say -/

/-- Without a diagnostic, BodyLength counts the bytes up to the last field, and that field's
value is the checksum of the bytes before it. -/
theorem clean_diagnose {bytes : Bytes} {fields : List RawField} {separator : UInt8}
    {truncated : Bool} (h : diagnose bytes fields separator truncated = []) {second : RawField}
    (hsecond : fields[1]? = some second) (htag : second.tag = bodyLengthTag) :
    ∃ declared before last, parseU32 (second.value bytes) = some declared ∧
      fields = before ++ [last] ∧
      second.valueEnd + 1 + declared = before.getLast?.elim 0 (·.valueEnd + 1) ∧
      (last.value bytes).length = 3 ∧ (∀ b ∈ last.value bytes, isAsciiDigit b = true) ∧
      parseU32 (last.value bytes) = some (calculateChecksum
        (bytes.take (second.valueEnd + 1 + declared)) separator).toNat := by
  have hfilter : fields[1]?.filter (·.tag == bodyLengthTag) = some second := by
    simp [hsecond, htag]
  simp only [diagnose, hfilter, Option.bind_some, List.append_eq_nil_iff] at h
  obtain ⟨⟨hlength, -⟩, htrailer⟩ := h
  -- `diagnose` is empty part by part: the length is a number, it counts up to the last field, and
  -- that field holds the sum.
  obtain ⟨declared, hdeclared⟩ : ∃ declared, parseU32 (second.value bytes) = some declared := by
    cases hparse : parseU32 (second.value bytes) with
    | none => simp [hparse] at hlength
    | some declared => exact ⟨declared, rfl⟩
  obtain ⟨before, last, rfl⟩ : ∃ before last, fields = before ++ [last] := by
    rcases List.eq_nil_or_concat fields with rfl | ⟨before, last, rfl⟩
    · simp at hsecond
    · exact ⟨before, last, List.concat_eq_append⟩
  split at htrailer
  · cases htrailer
  simp only [diagnoseTrailer, List.getLast?_concat, List.dropLast_concat, hdeclared,
    Option.any_some, List.append_eq_nil_iff] at htrailer
  obtain ⟨hmismatch, hchecksum⟩ := htrailer
  have hcount : second.valueEnd + 1 + declared = before.getLast?.elim 0 (·.valueEnd + 1) := by
    simpa using hmismatch
  split at hchecksum
  · next hdigits =>
    split at hchecksum
    · cases hchecksum
    · next hsum =>
      rw [← hcount, not_not] at hsum
      exact ⟨declared, before, last, hdeclared, rfl, hcount, hdigits.1,
        fun b hb => List.all_eq_true.mp hdigits.2 b hb, hsum⟩
  · cases hchecksum

section Trailer

variable {tokenizer : Tokenizer} {parts : FrameParts} {before : List RawField} {pos next : ℕ}
  {dataLen : Option ℕ} {last : RawField}

/-- A separator stands before every position the loop reaches, but the first. -/
theorem getElem?_of_reads {bytes : Bytes} {separator : UInt8} (hlen : bytes.length ≤ u32Max)
    (h : tokenizer.Reads bytes separator before pos dataLen) (hpos : 0 < pos)
    (hlt : pos ≤ bytes.length) : bytes[pos - 1]? = some separator := by
  cases h with
  | start => exact absurd hpos (lt_irrefl 0)
  | next _ read =>
    obtain ⟨rfl, -⟩ := nextField_bounds hlen read
    exact nextField_getElem? hlen read hlt

/-- **A last field of three digits is the one that is written `10=`.** -/
theorem last_eq_trailer (hregion : parts.region.getLast? = some soh)
    (hsoh : soh ∉ parts.checksum) (hlen : parts.bytes.length ≤ u32Max)
    (hreads : tokenizer.Reads parts.bytes soh before pos dataLen)
    (hread : nextField parts.bytes pos dataLen soh = some (last, next))
    (hlast : parts.bytes.length ≤ next) (hthree : (last.value parts.bytes).length = 3)
    (hdigit : ∀ b ∈ last.value parts.bytes, isAsciiDigit b = true) :
    pos = parts.head.length ∧ last.value parts.bytes = parts.checksum := by
  have hlength : parts.bytes.length = parts.head.length + 3 + parts.checksum.length + 1 := by
    rw [parts.length_bytes, FrameParts.head, List.length_append]
  have hclosing : parts.bytes[parts.head.length + 3 + parts.checksum.length]? = some soh := by
    apply getElem?_of_getLast? _ (by omega)
    simp [FrameParts.bytes]
  obtain ⟨rfl, hstart, hle, hin⟩ := nextField_bounds hlen hread
  -- the value holds digits only, so it ends before the last byte
  have hnot : ∀ k, last.valueStart ≤ k → k < last.valueEnd → parts.bytes[k]? ≠ some soh := by
    intro k h₁ h₂ hk
    have hmem : soh ∈ last.value parts.bytes := by
      apply List.mem_of_getElem? (i := k - last.valueStart)
      rw [RawField.value, getElem?_slice _ (by omega), Nat.add_sub_cancel' h₁, hk]
    exact absurd (hdigit soh hmem) (by decide)
  rw [RawField.value, length_slice] at hthree
  have hend : last.valueEnd = parts.head.length + 3 + parts.checksum.length := by
    by_contra hne
    exact hnot _ (by omega) (by omega) hclosing
  have hnone : ∀ k, pos ≤ k → k < last.valueEnd → parts.bytes[k]? ≠ some soh := by
    intro k h₁ h₂ hk
    rcases nextField_valueStart_le hlen hread h₁ hk with hvalue | ⟨hsep, -⟩
    · exact hnot k hvalue h₂ hk
    · exact absurd hsep (by decide)
  have hpos : pos = parts.head.length := by
    have hne : 0 < parts.head.length := by
      rw [FrameParts.head, List.length_append]
      cases hparts : parts.region with
      | nil =>
        rw [hparts] at hregion
        cases hregion
      | cons b region => simp
    have hbefore := getElem?_head (k := parts.head.length - 1) hregion (by omega)
    have hge : parts.head.length ≤ pos := by
      by_contra hlt
      exact hnone _ (by omega) (by omega) hbefore
    by_contra hgt
    have hlt := (nextField_lt hread).2
    have := getElem?_trailer hsoh (by omega) (getElem?_of_reads hlen hreads (by omega) hlt.le)
    omega
  refine ⟨hpos, ?_⟩
  have htagEnd : findTagEnd parts.bytes parts.head.length soh =
      some (.equals (parts.head.length + 2)) := by
    rw [parts.bytes_eq_head, findTagEnd_wireField (ne_of_mem_decimal (by decide) 10),
      show (decimal 10).length = 2 by rw [decimal_ten]; rfl]
  have hvalueStart : last.valueStart = parts.head.length + 3 := by
    rw [hpos] at hread
    obtain ⟨-, ⟨delimiter, hequals, -, heq, -⟩ | ⟨hseparator, -⟩⟩ := (nextField_iff hlen).mp hread
    · rw [htagEnd] at hequals
      cases hequals
      exact heq
    · rw [htagEnd] at hseparator
      cases hseparator
  have hmiddle := slice_middle (parts.head ++ ascii "10=") parts.checksum [soh]
  rw [List.append_assoc, List.length_append] at hmiddle
  rw [RawField.value, hvalueStart, hend]
  exact hmiddle

/-- The first two fields of a message that is laid out as a frame. -/
theorem reads_preamble (tokenizer : Tokenizer) (hlen : parts.bytes.length ≤ u32Max)
    (hversion : soh ∉ parts.version) (hfix : ascii "FIX" <+: parts.version)
    (hdigits : soh ∉ parts.digits) :
    ∃ first second dataLen,
      tokenizer.Reads parts.bytes soh [first, second] parts.preamble.length dataLen ∧
      second.tag = bodyLengthTag ∧ second.value parts.bytes = parts.digits ∧
      second.valueEnd + 1 = parts.preamble.length := by
  have hpreamble : parts.preamble = wireField soh (decimal 8) parts.version ++
      wireField soh (decimal 9) parts.digits := by
    simp [FrameParts.preamble, wireField, decimal_eight, decimal_nine, ascii, equalsSign]
  have hbytes₁ : parts.bytes = [] ++ (wireField soh (decimal 8) parts.version ++
      (wireField soh (decimal 9) parts.digits ++
        (parts.region ++ (ascii "10=" ++ (parts.checksum ++ [soh]))))) := by
    simp [FrameParts.bytes, FrameParts.head, hpreamble]
  have hbytes₂ : parts.bytes = wireField soh (decimal 8) parts.version ++
      (wireField soh (decimal 9) parts.digits ++
        (parts.region ++ (ascii "10=" ++ (parts.checksum ++ [soh])))) := hbytes₁
  have hread₁ : nextField parts.bytes 0 none soh = some (fieldAt 0 (decimal 8) parts.version,
      (wireField soh (decimal 8) parts.version).length) := by
    rw [hbytes₁] at hlen ⊢
    have hread := nextField_wireField hlen (ne_of_mem_decimal (by decide) 8)
      (valueEnd_of_notMem none hversion (fun _ h => by cases h))
    rwa [List.length_nil, Nat.zero_add] at hread
  have hvalue₁ : (fieldAt 0 (decimal 8) parts.version).value parts.bytes = parts.version := by
    rw [hbytes₁]
    exact value_fieldAt
  -- a BeginString value is no number, so it is no data length in any dialect
  have hpending : tokenizer.pendingDataLen parts.bytes (fieldAt 0 (decimal 8) parts.version) =
      none := by
    have hparse : parseU32 parts.version = none := by
      cases hparse : parseU32 parts.version with
      | none => rfl
      | some n =>
        have hF : (70 : UInt8) ∈ parts.version := hfix.subset (by decide)
        exact absurd ((parseU32_eq_some_iff.mp hparse).2.1 _ hF) (by decide)
    rw [Tokenizer.pendingDataLen, hvalue₁, hparse, ite_self]
  have hread₂ : nextField parts.bytes (wireField soh (decimal 8) parts.version).length none soh =
      some (fieldAt (wireField soh (decimal 8) parts.version).length (decimal 9) parts.digits,
        parts.preamble.length) := by
    rw [hpreamble, List.length_append]
    rw [hbytes₂] at hlen ⊢
    exact nextField_wireField hlen (ne_of_mem_decimal (by decide) 9)
      (valueEnd_of_notMem none hdigits (fun _ h => by cases h))
  have hstart : tokenizer.Reads parts.bytes soh [] 0 none := .start
  have hfirst := hstart.next hread₁
  rw [hpending] at hfirst
  refine ⟨_, _, _, hfirst.next hread₂, ?_, ?_, ?_⟩
  · rw [fieldAt, parseU32_decimal (by decide)]
    rfl
  · rw [hbytes₂]
    exact value_fieldAt
  · rw [hpreamble, List.length_append, length_wireField _ (decimal 9)]
    simp only [fieldAt]
    omega

/-- **A message laid out as a frame, with clean diagnostics, is one.** -/
theorem valid_of_clean (hlen : parts.bytes.length ≤ u32Max) (hversion : soh ∉ parts.version)
    (hfix : ascii "FIX" <+: parts.version) (hshort : (ascii "8=" ++ parts.version).length ≤ 16)
    (hdigits : soh ∉ parts.digits) (hten : parts.digits.length ≤ 10)
    (hsoh : soh ∉ parts.checksum) (hmsgType : ascii "35=" <+: parts.region)
    (hregion : parts.region.getLast? = some soh) {truncated : Bool}
    (hclean : diagnose parts.bytes (tokenizer.tokenizeFields parts.bytes soh) soh truncated = []) :
    parts.Valid := by
  obtain ⟨first, second, dataLen, hreads, htag, hvalue, hend⟩ :=
    reads_preamble tokenizer hlen hversion hfix hdigits
  have hsecond : (tokenizer.tokenizeFields parts.bytes soh)[1]? = some second := by
    rw [hreads.tokenizeFields]
    rfl
  obtain ⟨declared, before, last, hdeclared, hfields, hcount, hthree, hdigit, hsum⟩ :=
    clean_diagnose hclean hsecond htag
  rw [hvalue] at hdeclared
  rw [hend] at hcount hsum
  obtain ⟨hne, hnumber, hnumeral, -⟩ := parseU32_eq_some_iff.mp hdeclared
  -- the loop ends with the last field, which is the one written `10=`
  obtain ⟨stop, stopLen, hall, hnone⟩ := hreads.exists_end
  rw [hfields] at hall
  obtain ⟨pos, posLen, hbefore, hread⟩ := hall.exists_last
  have hstop : parts.bytes.length ≤ stop := by
    by_contra hlt
    have hclosing : parts.bytes[parts.bytes.length - 1]? = some soh :=
      getElem?_of_getLast? (by simp [FrameParts.bytes]) (by omega)
    exact absurd rfl (findTagEnd_eq_none_iff.mp (nextField_eq_none_iff.mp hnone) _ soh (by omega)
      hclosing).2
  obtain ⟨hpos, hchecksum⟩ := last_eq_trailer hregion hsoh hlen hbefore hread hstop hthree hdigit
  rw [hchecksum] at hthree hdigit hsum
  rw [← hbefore.getLast?_eq hlen, hpos, FrameParts.head, List.length_append] at hcount
  have htake : parts.bytes.take (parts.preamble.length + declared) = parts.head := by
    rw [hcount, ← List.length_append, ← FrameParts.head, FrameParts.bytes, List.take_left]
  have hsame : parts.head.map (fun b => if b = soh then soh else b) = parts.head := by
    nth_rewrite 2 [← List.map_id parts.head]
    apply List.map_congr_left
    intro b _
    split
    · next heq => exact heq.symm
    · rfl
  rw [htake, calculateChecksum, hsame, toNat_byteSum] at hsum
  exact
    { version_fix := hfix
      version_soh := hversion
      version_length := hshort
      digits_ne_nil := hne
      digits_length := hten
      digits_digit := hnumber
      digits_value := by omega
      region_msgType := hmsgType
      region_soh := hregion
      checksum_length := hthree
      checksum_digit := hdigit
      checksum_value := (parseU32_eq_some_iff.mp hsum).2.2.1 }

end Trailer

/-! ## The two validators -/

/-- The scanner finds a frame of exactly these bytes. -/
def Accepted (bytes : Bytes) : Prop :=
  ∃ frame, Scanner.default.scan bytes = .frame frame ∧ frame.bytes = bytes

theorem accepted_iff {bytes : Bytes} :
    Accepted bytes ↔
      ∃ parts : FrameParts, parts.Valid ∧ parts.bytes = bytes ∧ bytes.length ≤ 2 ^ 20 := by
  constructor
  · rintro ⟨frame, hscan, hbytes⟩
    obtain ⟨parts, hvalid, -, hcap, rfl⟩ := exists_parts_of_tryScan (scan_eq_frame_iff.mp hscan)
    have hparts : parts.bytes = bytes := hbytes
    exact ⟨parts, hvalid, hparts, hparts ▸ hcap⟩
  · rintro ⟨parts, hvalid, rfl, hlen⟩
    have hscan : Scanner.default.tryScan (parts.bytes ++ []) = .ok parts.frame :=
      tryScan_bytes_append hvalid hlen []
    rw [List.append_nil] at hscan
    exact ⟨parts.frame, scan_eq_frame_iff.mpr hscan, rfl⟩

/-- **The diagnostics miss no defect but a spelling.** A record that is read with SOH and has
no diagnostic but that of its prefix is accepted by the scanner exactly when it is laid out as
a frame. -/
theorem record_accepted_iff (reader : LogReader) (atEnd : Bool) (taken : Taken)
    (h : (reader.takeMessage atEnd).1 = some taken) (hsoh : taken.separator = soh)
    (hclean : ∀ diagnostic ∈ (taken.record reader.tokenizer).diagnostics,
      diagnostic = .prefixTruncated) :
    (reader.read atEnd).1 = some (taken.record reader.tokenizer) ∧
      (Accepted (taken.record reader.tokenizer).message.bytes ↔
        LaidOut (taken.record reader.tokenizer).message.bytes) := by
  refine ⟨?_, ?_⟩
  · show (reader.takeMessage atEnd).1.map (Taken.record reader.tokenizer) = _
    rw [h, Option.map_some]
  show Accepted taken.bytes ↔ LaidOut taken.bytes
  constructor
  · intro haccepted
    obtain ⟨parts, hvalid, hbytes, -⟩ := accepted_iff.mp haccepted
    exact hbytes ▸ laidOut_of_valid hvalid
  · rintro ⟨parts, hbytes, hversion, hdigits, hten, hchecksum, hmsgType, hregion⟩
    -- The record has no diagnostic but that of a cut prefix, so `diagnose` found nothing.
    have hnone : diagnose taken.bytes (reader.tokenizer.tokenizeFields taken.bytes soh) soh
        taken.truncated = [] := by
      apply List.eq_nil_iff_forall_not_mem.mpr
      intro diagnostic hmem
      have hmem' : diagnostic ∈ (taken.record reader.tokenizer).diagnostics := by
        simp only [Taken.record, hsoh, List.mem_append]
        exact Or.inr hmem
      rw [hclean diagnostic hmem'] at hmem
      exact prefixTruncated_notMem_diagnose _ _ _ _ hmem
    obtain ⟨hlen, -⟩ := record_closes_iff h (fun hmem => by cases hclean _ hmem)
    obtain ⟨start, stop, copy, hstart, hmessage, hlogged, htaken, -, -⟩ := takeMessage_eq_some h
    have hcheck := check_of_checkAt (checkAt_of_findStart hstart)
    obtain ⟨-, hrestore, hfieldEnd⟩ := findMessage_within hcheck hmessage
    rw [hlogged, hrestore] at htaken
    -- The version stands in the record as it was logged, where the search for a start has checked
    -- it.
    have hfront : start.separator.restore ((reader.buf.drop start.offset).take stop.len) =
        ascii "8=" ++ (parts.version ++ soh :: (ascii "9=" ++ (parts.digits ++ soh ::
          (parts.region ++ (ascii "10=" ++ (parts.checksum ++ [soh])))))) := by
      rw [← htaken, ← hbytes]
      simp [FrameParts.bytes, FrameParts.head, FrameParts.preamble]
    obtain ⟨hfix, hshort⟩ :=
      version_of_restore hcheck (hfieldEnd.symm.trans hsoh) hfront hversion
    rw [← hbytes] at hnone hlen
    refine accepted_iff.mpr ⟨parts, ?_, hbytes, hbytes ▸ hlen⟩
    exact valid_of_clean (hlen.trans (by decide)) hversion hfix hshort hdigits hten hchecksum
      hmsgType hregion hnone

/-- A message whose BodyLength tag has a leading zero, in a log. -/
def leadingZero : Bytes :=
  (ascii "8=FIX.4.4|09=5|35=0|10=211|").map fun b => if b = 124 then soh else b

theorem leadingZero_not_laidOut : ¬ LaidOut leadingZero := by
  have htaken : (((LogReader.new Dialect.standard none).feed leadingZero).takeMessage true).1 =
      some ⟨[], false, leadingZero, leadingZero, soh, false⟩ := by decide +kernel
  obtain ⟨-, hiff⟩ := record_accepted_iff _ true _ htaken rfl (by decide +kernel)
  intro hlaidOut
  obtain ⟨frame, hscan, -⟩ := hiff.mpr hlaidOut
  have hgarbled : Scanner.default.scan leadingZero =
      .garbled .missingBodyLength leadingZero.length := by decide
  exact absurd (hgarbled.symm.trans hscan) (by simp)

theorem leadingZero_not_accepted :
    ((LogReader.new Dialect.standard none).readParts [leadingZero]).map
        (fun record => (record.message.bytes, record.diagnostics)) = [(leadingZero, [])] ∧
      Scanner.default.scan leadingZero = .garbled .missingBodyLength leadingZero.length := by
  decide +kernel

end Refix.Log
