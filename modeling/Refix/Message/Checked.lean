import Refix.Foundation.Checked
import Refix.Message.Decisions
import Refix.Message.Stream

/-!
# The Scanner with Its Checks

The framing scanner once more, under the same names, with every slice, index and subtraction
checked where the source makes it. Whatever the buffer and the cap, none of the checks fails,
and the scan is the one without them (`Checked.scan_eq`).

`scan_resync` puts together what is known of resynchronising: where the search stops, how far
the skip of a garble can go, and what it never jumps over.
-/

namespace Refix.Message.Checked

open Refix.Foundation Refix.Foundation.Checked

/-- A check of the scan: it may end the scan, and it may panic. -/
abbrev Checking (α : Type) := ExceptT Halt (Except Panic) α

/-- A check that did not panic, with its result. -/
def settled {α : Type} (result : Except Halt α) : Checking α := ExceptT.mk (.ok result)

/-! ## Resynchronising -/

/-- The longest part of `8=FIX` at the tail, of those with a length in the list. -/
def findTail (buf : Bytes) : List ℕ → Except Panic (Option ℕ)
  | [] => return none
  | k :: ks => do
    if (← sliceFrom buf (← sub buf.length k)) = (← sliceTo beginStringPrefix k) then return some k
    else findTail buf ks

/-- Bytes to skip to resynchronise onto the next frame start. -/
def findNextBeginString (buf : Bytes) : Except Panic ℕ := do
  match findPattern beginStringPrefix (← sliceFrom buf 1) with
  | some skip => return skip + 1
  | none =>
    let maxK := min (← sub beginStringPrefix.length 1) buf.length
    match ← findTail buf (List.range' 1 maxK).reverse with
    | some k => sub buf.length k
    | none => return buf.length

/-- A garble whose extent isn't trustworthy, so the skip resynchronises. -/
def structuralGarble (reason : GarbledReason) (buf : Bytes) : Except Panic Halt :=
  return .garbled reason (← findNextBeginString buf)

/-! ## The checks of a scan -/

/-- Parses BeginString(8), the first field of a message, and returns where BodyLength
starts. -/
def parseBeginString (buf : Bytes) : Checking (BeginString × ℕ) := do
  let searchEnd := min buf.length (maxBeginStringLen + 1)
  match (← slice buf 2 searchEnd).findIdx? (· == soh) with
  | some rel =>
    let sohAt := rel + 2
    return (BeginString.ofValue (← slice buf 2 sohAt), sohAt + 1)
  | none =>
    if buf.length ≤ maxBeginStringLen then throw .incomplete
    else throw (← structuralGarble .malformedBeginString buf)

/-- Parses BodyLength(9), the second field, and returns its value and the offset just past
its SOH. -/
def parseBodyLength (buf : Bytes) (bodyLengthStart : ℕ) : Checking (ℕ × ℕ) := do
  let tag ← sliceFrom buf bodyLengthStart
  if tag.length < 2 then throw .incomplete
  else
    let tag ← sliceTo tag 2
    if tag ≠ ascii "9=" then throw (← structuralGarble .missingBodyLength buf)
    else
      let digitsStart := bodyLengthStart + 2
      let searchEnd := min buf.length (digitsStart + maxBodyLengthDigits + 1)
      match (← slice buf digitsStart searchEnd).findIdx? (· == soh) with
      | none =>
        if buf.length ≤ digitsStart + maxBodyLengthDigits then throw .incomplete
        else throw (← structuralGarble .malformedBodyLength buf)
      | some sohRel =>
        let digits ← slice buf digitsStart (digitsStart + sohRel)
        if digits = [] ∨ digits.all isAsciiDigit = false then
          throw (← structuralGarble .malformedBodyLength buf)
        else
          match foldDigits usizeMax 0 digits with
          | none => throw (← structuralGarble .malformedBodyLength buf)
          | some bodyLength => return (bodyLength, digitsStart + sohRel + 1)

/-- The total frame length BodyLength implies, bounded and fully buffered. -/
def validatedFrameLen (buf : Bytes) (bodyStart bodyLength maxFrameSize : ℕ) : Checking ℕ := do
  let frameLen := saturatingAdd (saturatingAdd bodyStart bodyLength) checksumFieldLen
  if maxFrameSize < frameLen then throw (← structuralGarble .frameTooLarge buf)
  else if buf.length < frameLen then throw .incomplete
  else return frameLen

/-- Confirms that BodyLength's jump landed on `10=` at a field boundary. -/
def verifyTrailerStart (buf : Bytes) (checksumStart : ℕ) : Checking Unit := do
  let before ← (index buf (← sub checksumStart 1) : Except Panic UInt8)
  -- the tag is sliced only where the byte before it is SOH
  if before ≠ soh then throw (← structuralGarble .bodyLengthMismatch buf)
  else
    let tag ← slice buf checksumStart (checksumStart + 3)
    if tag ≠ ascii "10=" then throw (← structuralGarble .bodyLengthMismatch buf)

/-- Verifies the checksum digits and the SOH after them. -/
def verifyChecksum (frame : Bytes) (checksumStart : ℕ) : Checking Unit := do
  let digits ← slice frame (checksumStart + 3) (checksumStart + 6)
  let trailingSoh ← (index frame (checksumStart + 6) : Except Panic UInt8)
  if trailingSoh ≠ soh ∨ digits.all isAsciiDigit = false then
    throw (postStructuralGarble .malformedChecksum frame)
  else
    let hundreds ← (index digits 0 : Except Panic UInt8)
    let tens ← (index digits 1 : Except Panic UInt8)
    let ones ← (index digits 2 : Except Panic UInt8)
    let stated := digitValue hundreds * 100 + digitValue tens * 10 + digitValue ones
    let computed := byteSum (← sliceTo frame checksumStart)
    if computed.toNat ≠ stated then throw (postStructuralGarble .checksumMismatch frame)

/-- Parses MsgType(35), the third field of a message. -/
def parseMsgType (frame : Bytes) (bodyStart bodyLength : ℕ) : Checking Bytes := do
  let region ← slice frame bodyStart (bodyStart + bodyLength)
  match stripPrefix (ascii "35=") region with
  | none => throw (postStructuralGarble .missingMsgType frame)
  | some afterTag =>
    match afterTag.findIdx? (· == soh) with
    | none => throw (postStructuralGarble .missingMsgType frame)
    | some sohAt => sliceTo afterTag sohAt

/-! ## The scan -/

def tryScan (scanner : Scanner) (buf : Bytes) : Checking Frame := do
  if beginStringPrefix <+: buf then
    let (beginString, bodyLengthStart) ← parseBeginString buf
    let (bodyLength, bodyStart) ← parseBodyLength buf bodyLengthStart
    let frameLen ← validatedFrameLen buf bodyStart bodyLength scanner.maxFrameSize
    let frame ← sliceTo buf frameLen
    let checksumStart := bodyStart + bodyLength
    verifyTrailerStart buf checksumStart
    verifyChecksum frame checksumStart
    let msgType ← parseMsgType frame bodyStart bodyLength
    return { bytes := frame, beginString, bodyLength, msgType }
  else if buf <+: beginStringPrefix then throw .incomplete
  else throw (← structuralGarble .missingBeginString buf)

/-- Scans one frame from the start of `buf`. -/
def scan (scanner : Scanner) (buf : Bytes) : Except Panic Outcome := do
  match ← (tryScan scanner buf).run with
  | .ok frame => return .frame frame
  | .error halt => return halt.toOutcome

/-! ## No check fails -/

section Checking

variable {α β : Type}

/-- The rest of a scan behind a check that did not panic. -/
theorem settled_bind (result : Except Halt α) (f : α → Checking β) {g : α → Except Halt β}
    (h : ∀ a, result = .ok a → f a = settled (g a)) :
    settled result >>= f = settled (result >>= g) := by
  cases result with
  | ok a => exact h a rfl
  | error halt => rfl

/-- An operation within its bounds is no step of its own. -/
theorem lift_ok_bind (a : α) (f : α → Checking β) :
    ((liftM (Except.ok a : Except Panic α) : Checking α) >>= f) = f a := rfl

end Checking

variable {buf : Bytes}

theorem findTail_eq (ks : List ℕ) (h : ∀ k ∈ ks, k ≤ buf.length ∧ k ≤ beginStringPrefix.length) :
    findTail buf ks =
      .ok (ks.find? fun k => buf.drop (buf.length - k) == beginStringPrefix.take k) := by
  induction ks with
  | nil => rfl
  | cons k ks ih =>
    rw [List.forall_mem_cons] at h
    obtain ⟨⟨hbuf, hprefix⟩, hrest⟩ := h
    rw [findTail, sub_eq hbuf, bind_ok, sliceFrom_eq (Nat.sub_le _ _), bind_ok,
      sliceTo_eq hprefix, bind_ok, List.find?_cons]
    by_cases htail : buf.drop (buf.length - k) = beginStringPrefix.take k
    · rw [if_pos htail, beq_iff_eq.mpr htail]
      rfl
    · rw [if_neg htail, beq_false_of_ne htail, ih hrest]

/-- The search starts behind the first byte, so there has to be one. -/
theorem findNextBeginString_eq (hbuf : 0 < buf.length) :
    findNextBeginString buf = .ok (Message.findNextBeginString buf) := by
  have hfive : beginStringPrefix.length = 5 := by decide
  rw [findNextBeginString, sliceFrom_eq hbuf, bind_ok, Message.findNextBeginString]
  cases findPattern beginStringPrefix (buf.drop 1) with
  | some skip => rfl
  | none =>
    have hks : ∀ k ∈ (List.range' 1 (min (beginStringPrefix.length - 1) buf.length)).reverse,
        k ≤ buf.length ∧ k ≤ beginStringPrefix.length := by
      intro k hk
      obtain ⟨-, hlt⟩ := List.mem_range'_1.mp (List.mem_reverse.mp hk)
      omega
    simp only [sub_eq (show 1 ≤ beginStringPrefix.length by omega), bind_ok, findTail_eq _ hks]
    cases hfind : (List.range' 1 (min (beginStringPrefix.length - 1) buf.length)).reverse.find?
        fun k => buf.drop (buf.length - k) == beginStringPrefix.take k with
    | none => rfl
    | some k => exact sub_eq (hks k (List.mem_of_find?_eq_some hfind)).1

theorem structuralGarble_eq (reason : GarbledReason) (hbuf : 0 < buf.length) :
    structuralGarble reason buf = .ok (Message.structuralGarble reason buf) := by
  rw [structuralGarble, findNextBeginString_eq hbuf]
  rfl

theorem parseBeginString_eq (hbuf : 2 ≤ buf.length) :
    parseBeginString buf = settled (Message.parseBeginString buf) := by
  have hlo : 2 ≤ min buf.length (maxBeginStringLen + 1) := by
    simp only [maxBeginStringLen]
    omega
  have hgarble := structuralGarble_eq .malformedBeginString (show 0 < buf.length by omega)
  simp only [parseBeginString, slice_eq hlo (Nat.min_le_left _ _), lift_ok_bind,
    Message.parseBeginString, findFrom, hgarble]
  rw [Foundation.slice]
  cases hfind : ((buf.take (min buf.length (maxBeginStringLen + 1))).drop 2).findIdx?
      (· == soh) with
  | none =>
    simp only [Option.map_none]
    split <;> rfl
  | some rel =>
    have hrel := (List.findIdx?_eq_some_iff_getElem.mp hfind).1
    simp only [List.length_drop, List.length_take] at hrel
    simp only [Option.map_some, Nat.add_comm 2 rel,
      slice_eq (show 2 ≤ rel + 2 by omega) (show rel + 2 ≤ buf.length by omega), lift_ok_bind]
    rfl

theorem parseBodyLength_eq {start : ℕ} (hbuf : 0 < buf.length) (hstart : start ≤ buf.length) :
    parseBodyLength buf start = settled (Message.parseBodyLength buf start) := by
  have hgarble : ∀ reason, structuralGarble reason buf =
      .ok (Message.structuralGarble reason buf) := fun reason => structuralGarble_eq reason hbuf
  simp only [parseBodyLength, sliceFrom_eq hstart, lift_ok_bind, Message.parseBodyLength, hgarble]
  split
  · rfl
  next htag =>
  rw [not_lt] at htag
  simp only [sliceTo_eq htag, lift_ok_bind]
  split
  · rfl
  rw [List.length_drop] at htag
  -- the tag is there, so the digits start within the buffer
  have hlo : start + 2 ≤ min buf.length (start + 2 + maxBodyLengthDigits + 1) := by omega
  simp only [slice_eq hlo (Nat.min_le_left _ _), lift_ok_bind, findFrom]
  rw [Foundation.slice]
  cases hfind : ((buf.take (min buf.length (start + 2 + maxBodyLengthDigits + 1))).drop
      (start + 2)).findIdx? (· == soh) with
  | none =>
    simp only [Option.map_none]
    split <;> rfl
  | some rel =>
    have hrel := (List.findIdx?_eq_some_iff_getElem.mp hfind).1
    simp only [List.length_drop, List.length_take] at hrel
    simp only [Option.map_some, slice_eq (show start + 2 ≤ start + 2 + rel by omega)
      (show start + 2 + rel ≤ buf.length by omega), lift_ok_bind]
    split
    · rfl
    cases foldDigits usizeMax 0 (Foundation.slice buf (start + 2) (start + 2 + rel)) <;> rfl

theorem validatedFrameLen_eq {bodyStart bodyLength maxFrameSize : ℕ} (hbuf : 0 < buf.length) :
    validatedFrameLen buf bodyStart bodyLength maxFrameSize =
      settled (Message.validatedFrameLen buf bodyStart bodyLength maxFrameSize) := by
  simp only [validatedFrameLen, Message.validatedFrameLen, structuralGarble_eq _ hbuf,
    lift_ok_bind]
  split
  · rfl
  split <;> rfl

theorem verifyTrailerStart_eq {checksumStart : ℕ} (hpos : 1 ≤ checksumStart)
    (hlen : checksumStart + 3 ≤ buf.length) :
    verifyTrailerStart buf checksumStart =
      settled (Message.verifyTrailerStart buf checksumStart) := by
  have hbefore : buf[checksumStart - 1]? = some buf[checksumStart - 1] :=
    List.getElem?_eq_getElem (by omega)
  have hgarble := structuralGarble_eq .bodyLengthMismatch (show 0 < buf.length by omega)
  simp only [verifyTrailerStart, sub_eq hpos, index_eq hbefore, lift_ok_bind, hgarble,
    slice_eq (Nat.le_add_right checksumStart 3) hlen, Message.verifyTrailerStart, hbefore,
    ne_eq, Option.some.injEq]
  by_cases hsoh : buf[checksumStart - 1] = soh
  · by_cases htag : Foundation.slice buf checksumStart (checksumStart + 3) = ascii "10="
    · simp only [hsoh, htag, not_true, or_self, if_false]
      rfl
    · simp only [hsoh, htag, not_true, not_false_iff, or_true, if_true, if_false]
      rfl
  · simp only [hsoh, not_false_iff, true_or, if_true]
    rfl

theorem verifyChecksum_eq {frame : Bytes} {checksumStart : ℕ}
    (hlen : checksumStart + 7 ≤ frame.length) :
    verifyChecksum frame checksumStart =
      settled (Message.verifyChecksum frame checksumStart) := by
  have hsoh : frame[checksumStart + 6]? = some frame[checksumStart + 6] :=
    List.getElem?_eq_getElem (by omega)
  have hdigits : (Foundation.slice frame (checksumStart + 3) (checksumStart + 6)).length = 3 := by
    rw [length_slice]
    omega
  obtain ⟨a, b, c, habc⟩ := List.length_eq_three.mp hdigits
  have hstated : statedChecksum [a, b, c] =
      digitValue a * 100 + digitValue b * 10 + digitValue c := rfl
  simp only [verifyChecksum, Message.verifyChecksum,
    slice_eq (show checksumStart + 3 ≤ checksumStart + 6 by omega)
      (show checksumStart + 6 ≤ frame.length by omega),
    index_eq hsoh, hsoh, lift_ok_bind, habc, hstated, ne_eq, Option.some.injEq]
  split
  · rfl
  simp only [index_eq (show [a, b, c][0]? = some a from rfl),
    index_eq (show [a, b, c][1]? = some b from rfl),
    index_eq (show [a, b, c][2]? = some c from rfl),
    sliceTo_eq (show checksumStart ≤ frame.length by omega), lift_ok_bind]
  split <;> rfl

theorem parseMsgType_eq {frame : Bytes} {bodyStart bodyLength : ℕ}
    (hlen : bodyStart + bodyLength ≤ frame.length) :
    parseMsgType frame bodyStart bodyLength =
      settled (Message.parseMsgType frame bodyStart bodyLength) := by
  simp only [parseMsgType, Message.parseMsgType, slice_eq (Nat.le_add_right _ _) hlen,
    lift_ok_bind]
  cases stripPrefix (ascii "35=") (Foundation.slice frame bodyStart (bodyStart + bodyLength)) with
  | none => rfl
  | some afterTag =>
    cases hfind : afterTag.findIdx? (· == soh) with
    | none =>
      simp only [hfind]
      rfl
    | some sohAt =>
      have hlt := (List.findIdx?_eq_some_iff_getElem.mp hfind).1
      simp only [hfind, sliceTo_eq hlt.le]
      rfl

theorem le_of_parseBeginString {beginString : BeginString} {start : ℕ}
    (h : Message.parseBeginString buf = .ok (beginString, start)) : start ≤ buf.length := by
  simp only [Message.parseBeginString] at h
  split at h
  · next sohAt hfind =>
    have hlt := (findFrom_lt hfind).2
    rw [List.length_take] at hlt
    obtain ⟨-, rfl⟩ := Prod.mk.inj (Except.ok.inj h)
    omega
  · split at h <;> cases h

theorem pos_of_parseBodyLength {start bodyLength bodyStart : ℕ}
    (h : Message.parseBodyLength buf start = .ok (bodyLength, bodyStart)) : 1 ≤ bodyStart := by
  simp only [Message.parseBodyLength] at h
  split at h
  · cases h
  split at h
  · cases h
  split at h
  · split at h <;> cases h
  split at h
  · cases h
  split at h
  · cases h
  · obtain ⟨-, rfl⟩ := Prod.mk.inj (Except.ok.inj h)
    exact Nat.le_add_left 1 _

theorem tryScan_eq (scanner : Scanner) (buf : Bytes) :
    tryScan scanner buf = settled (scanner.tryScan buf) := by
  unfold tryScan Scanner.tryScan
  by_cases hfix : beginStringPrefix <+: buf
  · have hfive : 5 ≤ buf.length := hfix.length_le
    rw [if_pos hfix, if_pos hfix, parseBeginString_eq (by omega)]
    -- each check is reached through the results of those before it, which bound its slices
    apply settled_bind
    rintro ⟨beginString, start⟩ hbegin
    simp only
    rw [parseBodyLength_eq (by omega) (le_of_parseBeginString hbegin)]
    apply settled_bind
    rintro ⟨bodyLength, bodyStart⟩ hbody
    simp only
    rw [validatedFrameLen_eq (by omega)]
    apply settled_bind
    intro frameLen hframe
    obtain ⟨hframeLen, -, hfits⟩ :=
      (validatedFrameLen_eq_ok_iff (parsed_small hfix hbegin hbody)).mp hframe
    have hpos := pos_of_parseBodyLength hbody
    have hlen : (buf.take frameLen).length = frameLen := by
      rw [List.length_take]
      omega
    rw [sliceTo_eq hfits, lift_ok_bind, verifyTrailerStart_eq (by omega) (by omega)]
    apply settled_bind
    intro _ _
    rw [verifyChecksum_eq (by omega)]
    apply settled_bind
    intro _ _
    rw [parseMsgType_eq (by omega)]
    apply settled_bind
    intro msgType _
    rfl
  · rw [if_neg hfix, if_neg hfix]
    split
    · rfl
    · next hbuf =>
      have hpos : 0 < buf.length := by
        rw [List.length_pos_iff]
        rintro rfl
        exact hbuf List.nil_prefix
      rw [structuralGarble_eq _ hpos]
      rfl

/-- **No slice or index of a scan is out of bounds**, whatever the buffer and the cap. -/
theorem scan_eq (scanner : Scanner) (buf : Bytes) : scan scanner buf = .ok (scanner.scan buf) := by
  rw [scan, tryScan_eq, Scanner.scan]
  cases scanner.tryScan buf <;> rfl

end Refix.Message.Checked

namespace Refix.Message

open Refix.Foundation

/-! ## Exact resynchronising -/

/-- `8=FIX` stands at the front of `buf`, or a part of it that more bytes may complete. -/
def Opens (buf : Bytes) : Prop :=
  beginStringPrefix <+: buf ∨ buf ≠ [] ∧ buf <+: beginStringPrefix ∧ buf ≠ beginStringPrefix

theorem viable_iff {buf : Bytes} : Viable buf ↔ Opens buf ∨ buf = [] := by
  constructor
  · rintro (hpre | hpre)
    · exact Or.inl (Or.inl hpre)
    · by_cases hnil : buf = []
      · exact Or.inr hnil
      · by_cases hfix : buf = beginStringPrefix
        · exact Or.inl (Or.inl (hfix ▸ List.prefix_rfl))
        · exact Or.inl (Or.inr ⟨hnil, hpre, hfix⟩)
  · rintro ((hpre | ⟨-, hpre, -⟩) | rfl)
    · exact Or.inl hpre
    · exact Or.inr hpre
    · exact viable_nil

/-- The search stops at the least offset behind the first byte where `8=FIX` or a part of it
opens, and at the end of the buffer where there is none. -/
theorem findNextBeginString_isLeast {buf : Bytes} (hbuf : ¬ buf <+: beginStringPrefix) :
    IsLeast {r | 1 ≤ r ∧ Opens (buf.drop r)} (findNextBeginString buf) ∨
      (∀ r, 1 ≤ r → ¬ Opens (buf.drop r)) ∧ findNextBeginString buf = buf.length := by
  obtain ⟨hpos, hle, hviable, hbefore⟩ := findNextBeginString_spec hbuf
  have hskipped : ∀ r, 1 ≤ r → r < findNextBeginString buf → ¬ Opens (buf.drop r) :=
    fun r h₁ hlt hopens => hbefore r h₁ hlt (viable_iff.mpr (Or.inl hopens))
  rcases viable_iff.mp hviable with hopens | hend
  · refine Or.inl ⟨⟨hpos, hopens⟩, fun r hr => ?_⟩
    by_contra hlt
    exact hskipped r hr.1 (not_le.mp hlt) hr.2
  · have hlength : findNextBeginString buf = buf.length :=
      le_antisymm hle (List.drop_eq_nil_iff.mp hend)
    refine Or.inr ⟨fun r h₁ hopens => ?_, hlength⟩
    rcases Nat.lt_or_ge r buf.length with hlt | hge
    · exact hskipped r h₁ (hlength ▸ hlt) hopens
    · -- nothing opens at the end of the buffer
      rw [List.drop_eq_nil_of_le hge] at hopens
      rcases hopens with hpre | ⟨hne, -⟩
      · exact absurd hpre (by decide)
      · exact hne rfl

/-- A frame starts only where `8=FIX` does. -/
theorem isPrefix_of_scan_eq_frame {scanner : Scanner} {buf : Bytes} {frame : Frame}
    (h : scanner.scan buf = .frame frame) : beginStringPrefix <+: buf := by
  by_contra hfix
  by_cases hbuf : buf <+: beginStringPrefix
  · rw [scan_of_isPrefix_beginStringPrefix scanner hbuf] at h
    cases h
  · rw [scan_of_not_viable scanner (by simp [Viable, hfix, hbuf])] at h
    cases h

/-- **Resynchronising is exact and always progresses.** The search for the next start stops at the
least offset where one may open. Every garble skips at least one byte and no more than there
are. A structural one resynchronises, and whatever follows the buffer and whatever the cap, no
frame starts at an offset that it skips. No slice or index of the scan is out of bounds. -/
theorem scan_resync (scanner : Scanner) (buf : Bytes) :
    (¬ buf <+: beginStringPrefix →
      IsLeast {r | 1 ≤ r ∧ Opens (buf.drop r)} (findNextBeginString buf) ∨
        (∀ r, 1 ≤ r → ¬ Opens (buf.drop r)) ∧ findNextBeginString buf = buf.length) ∧
    (∀ reason skipped, scanner.scan buf = .garbled reason skipped →
      1 ≤ skipped ∧ skipped ≤ buf.length ∧
        (reason ∉ postStructural →
          ¬ buf <+: beginStringPrefix ∧ skipped = findNextBeginString buf ∧
            ∀ k, 1 ≤ k → k < skipped → ∀ (rest : Bytes) (other : Scanner) (frame : Frame),
              other.scan (buf.drop k ++ rest) ≠ .frame frame)) ∧
    Checked.scan scanner buf = .ok (scanner.scan buf) := by
  refine ⟨findNextBeginString_isLeast, fun reason skipped hscan => ?_,
    Checked.scan_eq scanner buf⟩
  have htry := scan_eq_garbled_iff.mp hscan
  have hbuf := not_isPrefix_of_tryScan htry
  obtain ⟨hpos, hle⟩ := tryScan_within htry
  refine ⟨hpos, hle, fun hreason => ?_⟩
  have hskipped : skipped = findNextBeginString buf := by
    generalize hhalt : Halt.garbled reason skipped = halt at htry
    cases tryScan_made htry with
    | incomplete => cases hhalt
    | structural _ => exact (Halt.garbled.inj hhalt).2
    | post hpost _ _ => exact absurd ((Halt.garbled.inj hhalt).1 ▸ hpost) hreason
  refine ⟨hbuf, hskipped, fun k h₁ hk rest other frame hframe => ?_⟩
  -- a frame that starts at `k` in a longer buffer makes `k` a place where one may start
  obtain ⟨-, -, -, hbefore⟩ := findNextBeginString_spec hbuf
  have hviable : Viable (buf.drop k ++ rest) := Or.inl (isPrefix_of_scan_eq_frame hframe)
  exact hbefore k h₁ (hskipped ▸ hk) (hviable.of_isPrefix (List.prefix_append _ _))

end Refix.Message
