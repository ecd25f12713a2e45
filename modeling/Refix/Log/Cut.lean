import Refix.Foundation.Pieces
import Refix.Log.Bounds
import Refix.Log.Reader
import Refix.Log.Stable

/-!
# Cutting Messages off a Log

The reader with its bookkeeping left out: it keeps every byte since the last record, searches
all of them again, and forgets the bytes of a long prefix only when its message is taken. One
cut is the first message start and the end of the message there. `Log/Driver.lean` shows that
the reader does exactly this.

A cut made while the log is open stands, unless the walk over its message ends with the early
cut (`CutsEarly`).
-/

namespace Refix.Log

open Refix.Foundation Refix.Message

/-! ## The message at a start -/

/-- What a message's bytes are, read from the bytes it was logged as. -/
def Separator.restore : Separator → Bytes → Bytes
  | .byte _, logged => logged
  | .caretA, logged => restoreSoh logged

/-- What ends the fields of a message that was logged with a separator. -/
def Separator.fieldEnd : Separator → UInt8
  | .byte b => b
  | .caretA => soh

section Start

variable {bytes bytes' : Bytes} {given : Option UInt8} {separator : Separator} {atEnd : Bool}

theorem getElem?_of_checkAt {offset : ℕ} (h : checkAt bytes given offset = .start separator) :
    bytes[offset]? = some 56 := by
  unfold checkAt at h
  split at h
  · cases h
  · next hcandidate =>
    rw [not_or, not_not] at hcandidate
    exact hcandidate.1

theorem check_of_checkAt {offset : ℕ} (h : checkAt bytes given offset = .start separator) :
    check (bytes.drop offset) given = .start separator := by
  unfold checkAt at h
  split at h
  · cases h
  · exact h

theorem checkAt_of_findStart {lo hi : ℕ} {start : Start}
    (h : findStart bytes lo hi given atEnd = .found start) :
    checkAt bytes given start.offset = .start start.separator := by
  cases findStart_eq_iff.mp h with
  | found _ _ hcheck _ => exact hcheck

theorem getElem?_zero_of_check (h : check bytes given = .start separator) :
    bytes[0]? = some 56 := by
  obtain ⟨parts, -, -, rest, rfl⟩ := check_eq_start_iff.mp h
  rfl

/-- A start has its separator, and a tag with its `=` behind it, within the cap. -/
theorem hasTag_of_check {b : UInt8} (h : check bytes given = .start (.byte b)) :
    HasTag (bytes.take maxMessageLen) b := by
  obtain ⟨parts, hvalid, hsep, hpre⟩ := check_eq_start_iff.mp h
  have hlen : parts.bytes.length ≤ maxMessageLen := by
    have h₁ := hvalid.version_length
    have h₂ := hvalid.digits_length
    simp only [StartParts.bytes, hsep, Separator.bytes, List.length_append, List.length_cons,
      List.length_nil, maxMessageLen] at h₁ ⊢
    omega
  have hpre' : parts.bytes <+: bytes.take maxMessageLen :=
    List.prefix_take_iff.mpr ⟨hpre, hlen⟩
  -- the separator of the start may not be the first one, but there is one
  have hget : parts.bytes[(ascii "8=" ++ parts.version).length]? = some b := by
    rw [StartParts.bytes, hsep, ← List.append_assoc, List.getElem?_append_right le_rfl,
      Nat.sub_self]
    rfl
  have hdigits := List.length_pos_iff.mpr hvalid.digits_ne_nil
  have hafter : (ascii "8=" ++ parts.version).length + 3 ≤ parts.bytes.length := by
    simp only [StartParts.bytes, hsep, Separator.bytes, List.length_append, List.length_cons,
      List.length_nil]
    omega
  cases hfind : parts.bytes.findIdx? (· == b) with
  | none =>
    rw [List.findIdx?_eq_none_iff] at hfind
    simpa using hfind b (List.mem_of_getElem? hget)
  | some i =>
    refine ⟨i, findIdx?_of_isPrefix hpre' hfind, ?_⟩
    obtain ⟨hlt, -, hfirst⟩ := List.findIdx?_eq_some_iff_getElem.mp hfind
    have hle : i ≤ (ascii "8=" ++ parts.version).length := by
      by_contra hgt
      have hnot := hfirst _ (Nat.lt_of_not_le hgt)
      rw [(List.getElem?_eq_some_iff.mp hget).2] at hnot
      simp at hnot
    have := hpre'.length_le
    omega

/-! ## Its end -/

theorem findLine_of_isPrefix (hpre : bytes <+: bytes') {logLine : Bytes} {consumed : ℕ}
    (h : findLine bytes false = some (logLine, consumed)) :
    findLine bytes' atEnd = some (logLine, consumed) := by
  have htake : ∀ xs : Bytes, xs.take (min xs.length maxMessageLen) = xs.take maxMessageLen := by
    intro xs
    rcases Nat.le_total xs.length maxMessageLen with hle | hle
    · rw [Nat.min_eq_left hle, List.take_length, List.take_of_length_le hle]
    · rw [Nat.min_eq_right hle]
  have hcapped := take_isPrefix_take hpre maxMessageLen
  simp only [findLine, htake] at h ⊢
  -- A line feed within the cap stays the first; a full cap without one is the same bytes.
  cases hfind : (bytes.take maxMessageLen).findIdx? (· == lineFeed) with
  | some offset =>
    have hlt := (List.findIdx?_eq_some_iff_getElem.mp hfind).1
    rw [hfind] at h
    rw [findIdx?_of_isPrefix hcapped hfind]
    simp only [take_eq_take_of_isPrefix hcapped hlt.le] at h ⊢
    exact h
  | none =>
    rw [hfind] at h
    simp only [Bool.false_eq_true, false_or] at h
    split at h
    · next hfull =>
      have hle : maxMessageLen ≤ bytes.length := by
        rw [List.length_take] at hfull
        omega
      rw [take_eq_take_of_isPrefix hpre hle, hfind]
      simp only [hfull, or_true, if_true]
      rw [hfull] at h
      exact h
    · cases h

variable {tokenizer : Tokenizer} {separatorOverride : Option UInt8}

theorem copyMessage_of_isPrefix (hpre : bytes <+: bytes') {stop : End} {copy : Bytes}
    (h : copyMessage tokenizer bytes false = some (stop, copy)) :
    copyMessage tokenizer bytes' atEnd = some (stop, copy) := by
  simp only [copyMessage, Option.bind_eq_bind, Option.bind_eq_some_iff] at h ⊢
  obtain ⟨⟨logLine, consumed⟩, hline, hend⟩ := h
  exact ⟨⟨logLine, consumed⟩, findLine_of_isPrefix hpre hline, hend⟩

variable {stop : End} {copy : Option Bytes} {fieldEnd : UInt8}

/-- What is found of a message lies within its bytes. -/
theorem findMessage_within (hstart : check bytes given = .start separator)
    (h : findMessage tokenizer separatorOverride bytes separator atEnd =
      some (stop, copy, fieldEnd)) :
    stop.Within bytes ∧ copy.getD (bytes.take stop.len) = separator.restore (bytes.take stop.len) ∧
      fieldEnd = separator.fieldEnd := by
  have hfirst := getElem?_zero_of_check hstart
  cases separator with
  | byte b =>
    obtain ⟨stop, hend, heq⟩ := Option.map_eq_some_iff.mp h
    cases heq
    exact ⟨findEnd_within ⟨56, hfirst, by decide⟩ hend, rfl, rfl⟩
  | caretA =>
    obtain ⟨⟨stop, copy⟩, hcopy, heq⟩ := Option.map_eq_some_iff.mp h
    cases heq
    obtain ⟨hwithin, hrestore⟩ :=
      copyMessage_within ⟨56, hfirst, by decide, by decide, by decide⟩ hcopy
    exact ⟨hwithin, hrestore, rfl⟩

/-- **The end of a message, once found, stands.** -/
theorem findMessage_of_isPrefix (hpre : bytes <+: bytes')
    (hbreak : atEnd = true → bytes'.getLast? ≠ some carriageReturn)
    (hstart : check bytes given = .start separator)
    (hearly : ∀ b, separator = .byte b → ¬ CutsEarly tokenizer bytes b separatorOverride)
    (h : findMessage tokenizer separatorOverride bytes separator false =
      some (stop, copy, fieldEnd)) :
    findMessage tokenizer separatorOverride bytes' separator atEnd =
      some (stop, copy, fieldEnd) := by
  cases separator with
  | byte b =>
    obtain ⟨stop, hend, heq⟩ := Option.map_eq_some_iff.mp h
    apply Option.map_eq_some_iff.mpr
    exact ⟨stop, findEnd_of_isPrefix hpre hbreak (hasTag_of_check hstart) (hearly b rfl) hend, heq⟩
  | caretA =>
    obtain ⟨⟨stop, copy⟩, hcopy, heq⟩ := Option.map_eq_some_iff.mp h
    apply Option.map_eq_some_iff.mpr
    exact ⟨(stop, copy), copyMessage_of_isPrefix hpre hcopy, heq⟩

end Start

/-! ## One cut -/

/-- What is taken off the front of the bytes since the last record, and how many bytes that
takes. -/
def cutMessage (tokenizer : Tokenizer) (separatorOverride : Option UInt8) (atEnd : Bool)
    (bytes : Bytes) : Option (Taken × ℕ) :=
  match findStart bytes 0 bytes.length separatorOverride atEnd with
  | .found start =>
    let rest := bytes.drop start.offset
    (findMessage tokenizer separatorOverride rest start.separator atEnd).map
      fun (stop, copy, separator) =>
        ({ prefixBytes := (bytes.take start.offset).drop (start.offset - maxPrefixLen)
           prefixTruncated := decide (maxPrefixLen < start.offset)
           logged := rest.take stop.len
           bytes := copy.getD (rest.take stop.len)
           separator := separator
           truncated := stop.truncated }, start.offset + stop.consumed)
  | _ => none

/-- The early cut, at the message a reader comes to next. -/
def CutsMessageEarly (tokenizer : Tokenizer) (separatorOverride : Option UInt8)
    (bytes : Bytes) : Prop :=
  match findStart bytes 0 bytes.length separatorOverride false with
  | .found ⟨offset, .byte separator⟩ =>
    CutsEarly tokenizer (bytes.drop offset) separator separatorOverride
  | _ => False

section Cut

variable {tokenizer : Tokenizer} {separatorOverride : Option UInt8} {atEnd : Bool}
  {bytes : Bytes} {taken : Taken} {n : ℕ}

theorem cutMessage_eq_some_iff :
    cutMessage tokenizer separatorOverride atEnd bytes = some (taken, n) ↔
      ∃ start stop copy separator,
        findStart bytes 0 bytes.length separatorOverride atEnd = .found start ∧
        findMessage tokenizer separatorOverride (bytes.drop start.offset) start.separator atEnd =
          some (stop, copy, separator) ∧
        taken =
          { prefixBytes := (bytes.take start.offset).drop (start.offset - maxPrefixLen)
            prefixTruncated := decide (maxPrefixLen < start.offset)
            logged := (bytes.drop start.offset).take stop.len
            bytes := copy.getD ((bytes.drop start.offset).take stop.len)
            separator := separator
            truncated := stop.truncated } ∧
        n = start.offset + stop.consumed := by
  unfold cutMessage
  cases hstart : findStart bytes 0 bytes.length separatorOverride atEnd with
  | found start =>
    simp only [Option.map_eq_some_iff, Prod.exists, Prod.mk.injEq, NextStart.found.injEq]
    constructor
    · rintro ⟨stop, copy, separator, hmessage, htaken, hn⟩
      exact ⟨start, stop, copy, separator, rfl, hmessage, htaken.symm, hn.symm⟩
    · rintro ⟨_, stop, copy, separator, rfl, hmessage, htaken, hn⟩
      exact ⟨stop, copy, separator, hmessage, htaken.symm, hn.symm⟩
  | pending _ => simp
  | notFound => simp

/-- A cut takes at least one byte, and none that is not there. -/
theorem cutMessage_bounds
    (h : cutMessage tokenizer separatorOverride atEnd bytes = some (taken, n)) :
    0 < n ∧ n ≤ bytes.length := by
  obtain ⟨start, stop, copy, separator, hstart, hmessage, -, rfl⟩ := cutMessage_eq_some_iff.mp h
  obtain ⟨hwithin, -, -⟩ :=
    findMessage_within (check_of_checkAt (checkAt_of_findStart hstart)) hmessage
  have hpos := hwithin.len_pos
  have hle := hwithin.len_le
  have hend := hwithin.consumed_le
  rw [List.length_drop] at hend
  omega

/-- The reader as a cutter, of an open log or of one that has ended. -/
def messageCutter (tokenizer : Tokenizer) (separatorOverride : Option UInt8) (atEnd : Bool) :
    Cutter UInt8 Taken where
  cut := cutMessage tokenizer separatorOverride atEnd
  pos h := (cutMessage_bounds h).1
  le h := (cutMessage_bounds h).2

/-- **A cut made while the log is open stands**, whether the log goes on or ends, unless it is
the early one or a line break is cut short at the end. -/
theorem cutMessage_of_isPrefix {bytes' : Bytes} (hpre : bytes <+: bytes')
    (hbreak : atEnd = true → bytes'.getLast? ≠ some carriageReturn)
    (hearly : ¬ CutsMessageEarly tokenizer separatorOverride bytes)
    (h : cutMessage tokenizer separatorOverride false bytes = some (taken, n)) :
    cutMessage tokenizer separatorOverride atEnd bytes' = some (taken, n) := by
  obtain ⟨start, stop, copy, separator, hstart, hmessage, rfl, rfl⟩ :=
    cutMessage_eq_some_iff.mp h
  have hcheck := check_of_checkAt (checkAt_of_findStart hstart)
  obtain ⟨hwithin, -, -⟩ := findMessage_within hcheck hmessage
  have hdrop := drop_isPrefix_drop hpre start.offset
  have hoffset : start.offset ≤ bytes.length := by
    cases findStart_eq_iff.mp hstart with
    | found _ hhi _ _ => exact hhi.le
  have hlen : stop.len ≤ (bytes.drop start.offset).length := hwithin.len_le.trans hwithin.consumed_le
  -- The start, the end and the bytes between them stand, each by its own lemma.
  refine cutMessage_eq_some_iff.mpr ⟨start, stop, copy, separator, ?_, ?_, ?_, rfl⟩
  · exact findStart_found_of_isPrefix hpre hstart hpre.length_le le_rfl atEnd
  · refine findMessage_of_isPrefix hdrop ?_ hcheck ?_ hmessage
    · intro hend hlast
      apply hbreak hend
      rw [List.getLast?_drop] at hlast
      split at hlast
      · cases hlast
      · exact hlast
    · rintro b hb hcuts
      apply hearly
      obtain ⟨offset, sep⟩ := start
      simp only at hb
      subst hb
      simpa only [CutsMessageEarly, hstart] using hcuts
  · rw [take_eq_take_of_isPrefix hpre hoffset, take_eq_take_of_isPrefix hdrop hlen]

theorem messageCutter_stands (hearly : ¬ CutsMessageEarly tokenizer separatorOverride bytes) :
    (messageCutter tokenizer separatorOverride false).Stands
      (messageCutter tokenizer separatorOverride false) bytes := by
  intro taken n hcut more
  exact cutMessage_of_isPrefix (List.prefix_append ..) nofun hearly hcut

end Cut

end Refix.Log
