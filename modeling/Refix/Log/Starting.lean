import Refix.Log.Driver
import Refix.Log.Waits

/-!
# Where a Message Starts

The first start of a log with some text before it: it is found where the search of the text and
the message alone finds it, whatever follows. A candidate before it could wait for more bytes
only up to its second `=`, and the message has two of its own.
-/

namespace Refix.Log

open Refix.Foundation Refix.Message

/-! ## What waits has one tag -/

section Pending

variable {bytes : Bytes} {given : Option UInt8}

private theorem ne_equals_of_version {b : UInt8} (h : isVersionByte b = true) :
    b ≠ equalsSign := by
  rintro rfl
  exact absurd h (by decide)

/-- No `=` stands in the rest of a BeginString value. -/
private theorem ne_equals_of_lt {k : ℕ} {b : UInt8} (hlo : 2 ≤ k)
    (hfix : bytes.take beginStringPrefix.length = beginStringPrefix)
    (hhi : k < beginStringPrefix.length +
      runLength isVersionByte maxBeginStringLen (bytes.drop beginStringPrefix.length))
    (hb : bytes[k]? = some b) : b ≠ equalsSign := by
  have hfive : beginStringPrefix.length = 5 := by decide
  by_cases hin : k < 5
  · have hget : beginStringPrefix[k]? = some b := by
      rw [← hfix, List.getElem?_take_of_lt (by omega), hb]
    have hall : ∀ k < 5, 2 ≤ k → beginStringPrefix[k]? ≠ some equalsSign := by decide
    rintro rfl
    exact hall k hin hlo hget
  · have hrun : k - beginStringPrefix.length < runLength isVersionByte maxBeginStringLen
        (bytes.drop beginStringPrefix.length) := by omega
    obtain ⟨b', hb', hversion⟩ := getElem?_of_lt_runLength hrun
    rw [List.getElem?_drop, Nat.add_sub_cancel' (by omega), hb] at hb'
    rw [Option.some.inj hb']
    exact ne_equals_of_version hversion

/-- A tag that waits for more bytes holds digits only. -/
private theorem digit_of_checkTag_eq_pending {tag : Bytes} {separator : Separator}
    (h : checkTag tag separator = .pending) {k : ℕ} {b : UInt8} (hb : tag[k]? = some b) :
    isAsciiDigit b = true := by
  simp only [checkTag] at h
  split at h
  · cases h
  split at h
  · next hend =>
    have hle := List.getElem?_eq_none_iff.mp hend
    have hlt := (List.getElem?_eq_some_iff.mp hb).1
    have hrun : k < runLength isAsciiDigit (maxTagDigits + 1) tag := by omega
    obtain ⟨b', hb', hdigit⟩ := getElem?_of_lt_runLength hrun
    rw [Option.some.inj (hb.symm.trans hb')]
    exact hdigit
  · split at h <;> cases h

/-- What a separator that is found, or waited for, says of the bytes there. -/
private theorem of_findSeparatorAt {valueEnd : ℕ} {found : UInt8} :
    (findSeparatorAt bytes valueEnd found given = .error .pending →
      bytes[valueEnd + 1]? = none) ∧
    (findSeparatorAt bytes valueEnd found given = .ok .caretA → found = caret) := by
  unfold findSeparatorAt
  cases given with
  | some separator =>
    constructor <;> intro h <;> simp only at h <;> split at h <;> cases h
  | none =>
    constructor
    · intro h
      simp only at h
      split at h
      · cases h
      split at h
      · split at h
        · assumption
        · split at h <;> cases h
      · cases h
    · intro h
      simp only at h
      split at h
      · cases h
      split at h
      · assumption
      · cases h

/-- **What a start that waits for more bytes is**: a BeginString value without a second `=`, and
no more than one byte behind it, or a separator and the digits of a tag. -/
theorem of_check_eq_pending (h : check bytes given = .pending) :
    ∃ valueEnd, (∀ k, 2 ≤ k → k < valueEnd → bytes[k]? ≠ some equalsSign) ∧
      (bytes.length ≤ valueEnd + 1 ∨ ∃ separator : Separator,
        (separator = .caretA → bytes[valueEnd]? = some caret) ∧
        ∀ k b, valueEnd + separator.length ≤ k → bytes[k]? = some b → isAsciiDigit b = true) := by
  have hfive : beginStringPrefix.length = 5 := by decide
  unfold check at h
  simp only at h
  split at h
  · cases h
  next hshared =>
  rw [not_not] at hshared
  split at h
  · next hshort =>
    -- the text is no longer than `8=FIX`
    refine ⟨bytes.length, ?_, Or.inl (Nat.le_succ _)⟩
    intro k hlo hlt hb
    have hmin : min bytes.length beginStringPrefix.length = bytes.length := by omega
    rw [hmin, List.take_length] at hshared
    rw [hshared, List.getElem?_take_of_lt hlt] at hb
    have hall : ∀ k < 5, 2 ≤ k → beginStringPrefix[k]? ≠ some equalsSign := by decide
    exact hall k (by omega) hlo hb
  next hlong =>
  have hmin : min bytes.length beginStringPrefix.length = beginStringPrefix.length := by omega
  rw [hmin, List.take_length] at hshared
  have hversion : ∀ k, 2 ≤ k → k < beginStringPrefix.length +
      runLength isVersionByte maxBeginStringLen (bytes.drop beginStringPrefix.length) →
      bytes[k]? ≠ some equalsSign := fun k hlo hhi hb => ne_equals_of_lt hlo hshared hhi hb rfl
  generalize beginStringPrefix.length + runLength isVersionByte maxBeginStringLen
    (bytes.drop beginStringPrefix.length) = valueEnd at h hversion
  refine ⟨valueEnd, hversion, ?_⟩
  split at h
  · cases h
  split at h
  · next hend =>
    have hle := List.getElem?_eq_none_iff.mp hend
    exact Or.inl (by omega)
  next found hfound =>
  split at h
  · next result hsep =>
    subst h
    exact Or.inl (List.getElem?_eq_none_iff.mp (of_findSeparatorAt.1 hsep))
  · next separator hsep =>
    refine Or.inr ⟨separator, ?_, ?_⟩
    · rintro rfl
      rw [hfound, of_findSeparatorAt.2 hsep]
    · intro k b hk hb
      apply digit_of_checkTag_eq_pending h (k := k - (valueEnd + separator.length))
      rw [List.getElem?_drop, Nat.add_sub_cancel' hk, hb]

/-- **A start that waits for more bytes has no two `=` behind its first.** -/
theorem check_ne_pending {i j : ℕ} (hi : 2 ≤ i) (hij : i < j)
    (hbi : bytes[i]? = some equalsSign) (hbj : bytes[j]? = some equalsSign) :
    check bytes given ≠ .pending := by
  intro h
  obtain ⟨valueEnd, hversion, hend⟩ := of_check_eq_pending h
  have hltj := (List.getElem?_eq_some_iff.mp hbj).1
  have hge : valueEnd ≤ i := by
    by_contra hlt
    exact hversion i hi (by omega) hbi
  rcases hend with hshort | ⟨separator, hcaret, hdigit⟩
  · omega
  have hjlt : j < valueEnd + separator.length := by
    by_contra hle
    exact absurd (hdigit j _ (by omega) hbj) (by decide)
  cases separator with
  | byte b =>
    simp only [Separator.length] at hjlt
    omega
  | caretA =>
    simp only [Separator.length] at hjlt
    obtain rfl : i = valueEnd := by omega
    rw [hcaret rfl] at hbi
    exact absurd (Option.some.inj hbi) (by decide)

/-- **A start does not wait where text ends in a byte that is no digit**, if an `=` stands in front
of it, behind that of BeginString. -/
theorem check_ne_pending_of_getLast? {j : ℕ} {b : UInt8} (hj : 2 ≤ j)
    (hbj : bytes[j]? = some equalsSign) (hin : j + 1 < bytes.length)
    (hlast : bytes.getLast? = some b) (hdigit : isAsciiDigit b = false) :
    check bytes given ≠ .pending := by
  intro h
  obtain ⟨valueEnd, hversion, hend⟩ := of_check_eq_pending h
  have hge : valueEnd ≤ j := by
    by_contra hlt
    exact hversion j hj (by omega) hbj
  rcases hend with hshort | ⟨separator, hcaret, hall⟩
  · omega
  have hlt : bytes.length - 1 < valueEnd + separator.length := by
    by_contra hle
    have := hall (bytes.length - 1) b (by omega) (by rw [← List.getLast?_eq_getElem?, hlast])
    rw [hdigit] at this
    cases this
  cases separator with
  | byte b =>
    simp only [Separator.length] at hlt
    omega
  | caretA =>
    simp only [Separator.length] at hlt
    obtain rfl : j = valueEnd := by omega
    rw [hcaret rfl] at hbj
    exact absurd (Option.some.inj hbj) (by decide)

end Pending

/-! ## The first start -/

/-- The first start of some text and a message behind it is that of the message. -/
def StartsAt (before text : Bytes) (separator : Separator) : Prop :=
  findStart (before ++ text) 0 (before ++ text).length none true =
    .found ⟨before.length, separator⟩

instance (before text : Bytes) (separator : Separator) :
    Decidable (StartsAt before text separator) := inferInstanceAs (Decidable (_ = _))

/-- Text that two fields begin in. -/
def HasTwoTags (text : Bytes) : Prop :=
  ∃ i j, 0 < i ∧ i < j ∧ text[i]? = some equalsSign ∧ text[j]? = some equalsSign

section StartsAt

variable {before text : Bytes} {separator : Separator} {tokenizer : Tokenizer}

theorem StartsAt.check (h : StartsAt before text separator) :
    Log.check text none = .start separator := by
  have hcheck := check_of_checkAt (checkAt_of_findStart h)
  rwa [List.drop_left] at hcheck

/-- **What follows a message does not change where it starts.** -/
theorem StartsAt.append (h : StartsAt before text separator) (htags : HasTwoTags text)
    (rest : Bytes) (atEnd : Bool) :
    findStart (before ++ (text ++ rest)) 0 (before ++ (text ++ rest)).length none atEnd =
      .found ⟨before.length, separator⟩ := by
  obtain ⟨i, j, hi, hij, hbi, hbj⟩ := htags
  have hpre : before ++ text <+: before ++ (text ++ rest) := by
    rw [← List.append_assoc]
    exact List.prefix_append ..
  cases findStart_eq_iff.mp h with
  | found hlo hhi hcheck hbefore =>
    refine findStart_eq_iff.mpr (.found hlo (hhi.trans_le hpre.length_le) ?_ ?_)
    · rw [checkAt_of_isPrefix hpre hhi (by rw [hcheck]; nofun), hcheck]
    · intro k hk hlt
      have hnot : checkAt (before ++ text) none k = .notStart := by
        rcases hbefore k hk hlt with hnot | ⟨hpending, -⟩
        · exact hnot
        · -- the two tags of the text decide every candidate before it
          exfalso
          have hget : ∀ {m : ℕ}, text[m]? = some equalsSign →
              ((before ++ text).drop k)[before.length - k + m]? = some equalsSign := by
            intro m hm
            simp only at hlt
            rw [List.getElem?_drop, List.getElem?_append_right (by omega),
              show k + (before.length - k + m) - before.length = m by omega, hm]
          unfold checkAt at hpending
          split at hpending
          · cases hpending
          · simp only at hlt
            exact check_ne_pending (by omega) (by omega) (hget hbi) (hget hbj) hpending
      left
      simp only at hlt
      rw [checkAt_of_isPrefix hpre (by rw [List.length_append]; omega) (by rw [hnot]; nofun), hnot]

/-- One cut of a log that opens with some text and a message. -/
theorem StartsAt.cutMessage_eq (h : StartsAt before text separator) (htags : HasTwoTags text)
    (hlen : before.length ≤ maxPrefixLen) (rest : Bytes) (atEnd : Bool) :
    cutMessage tokenizer none atEnd (before ++ (text ++ rest)) =
      (findMessage tokenizer none (text ++ rest) separator atEnd).map
        fun (stop, copy, fieldEnd) =>
          ({ prefixBytes := before
             prefixTruncated := false
             logged := (text ++ rest).take stop.len
             bytes := copy.getD ((text ++ rest).take stop.len)
             separator := fieldEnd
             truncated := stop.truncated }, before.length + stop.consumed) := by
  have hcap : before.length - maxPrefixLen = 0 := Nat.sub_eq_zero_of_le hlen
  have hkept : decide (maxPrefixLen < before.length) = false :=
    decide_eq_false (Nat.not_lt.mpr hlen)
  rw [cutMessage, h.append htags rest atEnd]
  simp only [List.drop_left, List.take_left, hcap, List.drop_zero, hkept]

/-- A cut that a reader might make too early is made on the message, on a front of what follows
the text before it. -/
theorem StartsAt.of_cutsMessageEarly (h : StartsAt before text separator)
    (htags : HasTwoTags text) {rest front : Bytes} (hpre : front <+: before ++ (text ++ rest))
    (hearly : CutsMessageEarly tokenizer none front) :
    ∃ b front', separator = .byte b ∧ front' <+: text ++ rest ∧
      Log.check front' none = .start (.byte b) ∧ CutsEarly tokenizer front' b none := by
  unfold CutsMessageEarly at hearly
  split at hearly
  · next offset b hfound =>
    have hfound' := findStart_found_of_isPrefix hpre hfound hpre.length_le le_rfl false
    rw [h.append htags rest false] at hfound'
    obtain ⟨rfl, rfl⟩ := Start.mk.inj (NextStart.found.inj hfound')
    refine ⟨b, front.drop before.length, rfl, ?_,
      check_of_checkAt (checkAt_of_findStart hfound), hearly⟩
    have hdrop := drop_isPrefix_drop hpre before.length
    rwa [List.drop_left] at hdrop
  · exact hearly.elim

end StartsAt

/-! ## The first record -/

section Run

variable {dialect : Dialect}

/-- **The first record of a run**, where one cut settles it: then the reader is as a new one. -/
theorem run_cut {calls : List (Cutter.Call UInt8)} {taken : Taken} {n : ℕ}
    (hcut : cutMessage (Tokenizer.new dialect) none true (Cutter.Call.fed calls) =
      some (taken, n))
    (hfront : ∀ front, front <+: Cutter.Call.fed calls → ∀ piece,
      cutMessage (Tokenizer.new dialect) none false front = some piece → piece = (taken, n)) :
    ∃ calls', Cutter.Call.fed calls' = (Cutter.Call.fed calls).drop n ∧
      (LogReader.new dialect none).run calls =
        taken.record (Tokenizer.new dialect) :: (LogReader.new dialect none).run calls' := by
  have hcut' : (messageCutter (Tokenizer.new dialect) none true).cut
      ([] ++ Cutter.Call.fed calls) = some (taken, n) := hcut
  obtain ⟨calls', hfed, hrun⟩ := Cutter.runTo_cut
    (c := messageCutter (Tokenizer.new dialect) none false) hcut' hfront
  refine ⟨calls', hfed, ?_⟩
  have hnew := represents_new dialect none
  rw [run_of_represents hnew, run_of_represents hnew, hrun]
  rfl

/-- What is cut off a front of the log while it is open is what is cut off a longer one that has
ended. -/
theorem cutMessage_of_front {tokenizer : Tokenizer} {log front : Bytes} {piece : Taken × ℕ}
    (hpre : front <+: log) (hearly : ¬ CutsMessageEarly tokenizer none front)
    (h : cutMessage tokenizer none false front = some piece) :
    cutMessage tokenizer none true (log ++ [0]) = some piece := by
  obtain ⟨taken, n⟩ := piece
  refine cutMessage_of_isPrefix (hpre.trans (List.prefix_append ..)) ?_ hearly h
  intro _ hlast
  rw [List.getLast?_concat] at hlast
  exact absurd (Option.some.inj hlast) (by decide)

/-- What a cut takes off a log for a message with an end. -/
def takenAt (before bytes : Bytes) (stop : End) (copy : Option Bytes) (fieldEnd : UInt8) :
    Taken where
  prefixBytes := before
  prefixTruncated := false
  logged := bytes.take stop.len
  bytes := copy.getD (bytes.take stop.len)
  separator := fieldEnd
  truncated := stop.truncated

/-- **The first record of a log that opens with some text and a message**, however it is fed: that
of the end which the message has once the log is there, if no walk over a front of it is cut
early. One more byte behind the log stands for what a line break cut short may be followed by. -/
theorem run_message {before text : Bytes} {separator : Separator}
    (hstart : StartsAt before text separator) (htags : HasTwoTags text)
    (hlen : before.length ≤ maxPrefixLen) {rest : Bytes} {stop : End} {copy : Option Bytes}
    {fieldEnd : UInt8} (hstop : stop.len ≤ (text ++ rest).length)
    (hend : ∀ more : Bytes, more = [] ∨ more = [0] →
      findMessage (Tokenizer.new dialect) none (text ++ (rest ++ more)) separator true =
        some (stop, copy, fieldEnd))
    (hearly : ∀ b front, separator = .byte b → front <+: text ++ rest →
      check front none = .start (.byte b) → ¬ CutsEarly (Tokenizer.new dialect) front b none)
    {calls : List (Cutter.Call UInt8)}
    (hfed : Cutter.Call.fed calls = before ++ (text ++ rest)) :
    ∃ calls', Cutter.Call.fed calls' = (text ++ rest).drop stop.consumed ∧
      (LogReader.new dialect none).run calls =
        (takenAt before (text ++ rest) stop copy fieldEnd).record (Tokenizer.new dialect) ::
          (LogReader.new dialect none).run calls' := by
  -- the cut is the same with one more byte behind the log
  have hcut : ∀ more : Bytes, more = [] ∨ more = [0] →
      cutMessage (Tokenizer.new dialect) none true (before ++ (text ++ (rest ++ more))) =
        some (takenAt before (text ++ rest) stop copy fieldEnd,
          before.length + stop.consumed) := by
    intro more hmore
    have htake : (text ++ (rest ++ more)).take stop.len = (text ++ rest).take stop.len := by
      rw [← List.append_assoc, List.take_append_of_le_length hstop]
    rw [hstart.cutMessage_eq htags hlen, hend more hmore, Option.map_some]
    simp only [htake]
    rfl
  have hcut₀ := hcut [] (Or.inl rfl)
  rw [List.append_nil, ← hfed] at hcut₀
  obtain ⟨calls', hfed', hrun⟩ := run_cut hcut₀ fun front hpre piece hpiece => by
    rw [hfed] at hpre
    have hnot : ¬ CutsMessageEarly (Tokenizer.new dialect) none front := fun hcuts => by
      obtain ⟨b, front', hb, hpre', hcheck, hcuts'⟩ := hstart.of_cutsMessageEarly htags hpre hcuts
      exact hearly b front' hb hpre' hcheck hcuts'
    have hlonger := cutMessage_of_front hpre hnot hpiece
    rw [List.append_assoc, List.append_assoc, hcut [0] (Or.inr rfl)] at hlonger
    exact (Option.some.inj hlonger).symm
  refine ⟨calls', ?_, hrun⟩
  rw [hfed', hfed, ← List.drop_drop, List.drop_left]

end Run

end Refix.Log
