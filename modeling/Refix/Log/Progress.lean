import Refix.Log.Accounts

/-!
# The Reader Does Not Stall

A reader that returns no record keeps no more than a capped prefix and one message at the cap
with the few bytes that decide what follows it, whatever BodyLength, data lengths or line
breaks the message claims. When the log has ended it returns no record only where no message
starts any more.
-/

namespace Refix.Log

open Refix.Foundation Refix.Message

/-! ## Runs -/

/-- A reader after any calls on a log that goes on, with the bytes fed since the end of the
last record. -/
inductive LogReader.Reached (dialect : Dialect) (separator : Option UInt8) :
    LogReader → Bytes → Prop where
  | new : Reached dialect separator (LogReader.new dialect separator) []
  | feed {reader : LogReader} {unread : Bytes} (more : Bytes)
      (h : Reached dialect separator reader unread) :
      Reached dialect separator (reader.feed more) (unread ++ more)
  | wait {reader : LogReader} {unread : Bytes} (h : Reached dialect separator reader unread)
      (hwait : reader.nextRecord.1 = none) :
      Reached dialect separator reader.nextRecord.2 unread
  | record {reader : LogReader} {unread : Bytes} {record : LogRecord}
      (h : Reached dialect separator reader unread) (hrecord : reader.nextRecord.1 = some record) :
      Reached dialect separator reader.nextRecord.2 reader.nextRecord.2.buf

/-- A reader after any calls, the log having ended. -/
inductive LogReader.Finishing (dialect : Dialect) (separator : Option UInt8) :
    LogReader → Bytes → Prop where
  | finish {reader : LogReader} {unread : Bytes} (h : Reached dialect separator reader unread) :
      Finishing dialect separator reader unread
  | record {reader : LogReader} {unread : Bytes} {record : LogRecord}
      (h : Finishing dialect separator reader unread)
      (hrecord : (reader.read true).1 = some record) :
      Finishing dialect separator (reader.read true).2 (reader.read true).2.buf
  | ended {reader : LogReader} {unread : Bytes} (h : Finishing dialect separator reader unread)
      (hnone : (reader.read true).1 = none) :
      Finishing dialect separator (reader.read true).2 unread

/-- How far a search comes: to a start, to a candidate that is not decided, or to the end of
`len` bytes. -/
def NextStart.reach (len : ℕ) : NextStart → ℕ
  | .found start => start.offset
  | .pending offset => offset
  | .notFound => len

/-- How far the reader's search comes. -/
def LogReader.reach (reader : LogReader) (atEnd : Bool) : ℕ :=
  (findStart reader.buf reader.searched reader.buf.length reader.separator atEnd).reach
    reader.buf.length

theorem reach_le (reader : LogReader) (atEnd : Bool) :
    reader.reach atEnd ≤ reader.buf.length := by
  have hfinds := findsStart reader.buf reader.searched reader.buf.length reader.separator atEnd
  unfold LogReader.reach
  generalize findStart reader.buf reader.searched reader.buf.length reader.separator atEnd =
    next at hfinds ⊢
  cases hfinds with
  | found _ hhi _ _ => exact hhi.le
  | pending _ hhi _ _ _ => exact hhi.le
  | notFound _ => exact le_rfl

section Reached

variable {reader : LogReader} {unread : Bytes} {dialect : Dialect} {separator : Option UInt8}
  {atEnd : Bool}

theorem represents_read {record : LogRecord} {tokenizer : Tokenizer}
    (h : reader.Represents tokenizer separator unread)
    (hrecord : (reader.read atEnd).1 = some record) :
    (reader.read atEnd).2.Represents tokenizer separator (reader.read atEnd).2.buf := by
  obtain ⟨hread, hsome, -⟩ := read_of_represents h atEnd
  rw [hrecord, eq_comm, Option.map_eq_some_iff] at hread
  obtain ⟨⟨taken, n⟩, hcut, -⟩ := hread
  have hnext := hsome taken n hcut
  -- nothing of the next prefix is searched or dropped yet
  have hbuf : (reader.read atEnd).2.buf = unread.drop n := by
    obtain ⟨dropped, hsplit, htruncated, -⟩ := hnext.suffix
    have hclear : (reader.read atEnd).2.prefixTruncated = false := by
      revert hrecord
      show (reader.takeMessage atEnd).1.map _ = _ → (reader.takeMessage atEnd).2.prefixTruncated = _
      unfold LogReader.takeMessage
      simp only
      split
      · split
        · nofun
        · intro
          rfl
      · nofun
    rw [hclear] at htruncated
    have hnil : dropped = [] := by simpa using htruncated
    rw [hsplit, hnil, List.nil_append]
  rwa [hbuf]

/-- **A reader represents the bytes fed since the last record**, whatever calls were made. -/
theorem represents_of_reached (h : reader.Reached dialect separator unread) :
    reader.Represents (Tokenizer.new dialect) separator unread := by
  induction h with
  | new => exact represents_new dialect separator
  | feed more _ ih => exact ih.feed more
  | wait _ hwait ih =>
    obtain ⟨hread, -, hnone⟩ := read_of_represents ih false
    refine hnone ?_ rfl
    exact Option.map_eq_none_iff.mp (hread.symm.trans hwait)
  | record _ hrecord ih => exact represents_read ih hrecord

end Reached

/-! ## What a waiting reader keeps -/

section Waits

variable {reader : LogReader}

/-- What is left of the buffer after a read that returns nothing. -/
theorem read_eq_none {atEnd : Bool} (h : (reader.read atEnd).1 = none) :
    ∃ excess kept, excess + kept = reader.reach atEnd ∧ kept ≤ maxPrefixLen ∧
      (reader.read atEnd).2.buf = reader.buf.drop excess ∧ (reader.read atEnd).2.searched = kept := by
  have hnone : (reader.takeMessage atEnd).1 = none := Option.map_eq_none_iff.mp h
  obtain ⟨excess, kept, hsplit, hle, -, hcap⟩ := capPrefix_spec reader (reader.reach atEnd)
  refine ⟨excess, kept, hsplit, hle, ?_⟩
  show (reader.takeMessage atEnd).2.buf = _ ∧ (reader.takeMessage atEnd).2.searched = _
  revert hnone
  unfold LogReader.takeMessage
  unfold LogReader.reach at hcap
  cases hnext : findStart reader.buf reader.searched reader.buf.length reader.separator atEnd with
  | pending offset =>
    rw [hnext] at hcap
    simp only [NextStart.reach] at hcap
    simp [hcap]
  | notFound =>
    rw [hnext] at hcap
    simp only [NextStart.reach] at hcap
    simp [hcap]
  | found start =>
    rw [hnext] at hcap
    simp only [NextStart.reach] at hcap
    simp only [hcap]
    split
    · exact fun _ => ⟨rfl, rfl⟩
    · nofun

/-- Past a start that is found, a message at the cap and the bytes behind it are enough. -/
theorem nextRecord_ne_none {start : Start}
    (hstart : findStart reader.buf reader.searched reader.buf.length reader.separator false =
      .found start)
    (hlong : maxMessageLen + maxPendingLen ≤ (reader.buf.drop start.offset).length) :
    reader.nextRecord.1 ≠ none := by
  intro h
  have hnone : (reader.takeMessage false).1 = none := Option.map_eq_none_iff.mp h
  obtain ⟨excess, kept, hsplit, -, -, hcap⟩ := capPrefix_spec reader start.offset
  unfold LogReader.takeMessage at hnone
  simp only [hstart, hcap, List.drop_drop, hsplit] at hnone
  split at hnone
  · next hmessage =>
    have := (of_findMessage_eq_none hmessage).2
    omega
  · cases hnone

/-- From where the search comes to, fewer bytes are there than would decide the message. -/
theorem length_drop_reach_lt (h : reader.nextRecord.1 = none) :
    (reader.buf.drop (reader.reach false)).length < maxMessageLen + maxPendingLen := by
  have hcap : 0 < maxMessageLen := by decide
  rw [List.length_drop]
  unfold LogReader.reach
  cases hnext : findStart reader.buf reader.searched reader.buf.length reader.separator false with
  | found start =>
    by_contra hlong
    refine nextRecord_ne_none hnext ?_ h
    rw [List.length_drop]
    exact Nat.le_of_not_lt hlong
  | pending offset =>
    cases findStart_eq_iff.mp hnext with
    | pending _ _ hcheck _ _ =>
      have := length_le_of_checkAt_eq_pending hcheck
      simp only [NextStart.reach]
      omega
  | notFound =>
    simp only [NextStart.reach]
    omega

end Waits

/-! ## The end of the log -/

section Finishing

variable {reader : LogReader} {unread : Bytes} {dialect : Dialect} {separator : Option UInt8}

theorem findStart_of_searched (h : reader.searched = reader.buf.length) (atEnd : Bool) :
    findStart reader.buf reader.searched reader.buf.length reader.separator atEnd = .notFound :=
  findStart_eq_iff.mpr (.notFound fun k h₁ h₂ => by omega)

/-- A reader that has searched all it keeps returns nothing. -/
theorem read_of_searched (h : reader.searched = reader.buf.length) (atEnd : Bool) :
    (reader.read atEnd).1 = none := by
  show (reader.takeMessage atEnd).1.map _ = none
  unfold LogReader.takeMessage
  simp only [findStart_of_searched h]
  rfl

/-- A read that finds no start has searched all that is kept. -/
theorem searched_of_notFound {atEnd : Bool}
    (h : findStart reader.buf reader.searched reader.buf.length reader.separator atEnd =
      .notFound) (hnone : (reader.read atEnd).1 = none) :
    (reader.read atEnd).2.searched = (reader.read atEnd).2.buf.length := by
  obtain ⟨excess, kept, hsplit, -, hbuf, hsearched⟩ := read_eq_none hnone
  rw [LogReader.reach, h] at hsplit
  simp only [NextStart.reach] at hsplit
  rw [hbuf, hsearched, List.length_drop]
  omega

/-- No message starts in bytes that a search at the end of the log has passed over. -/
theorem not_start_of_represents {tokenizer : Tokenizer}
    (h : reader.Represents tokenizer separator unread) (hnone : (reader.read true).1 = none)
    (k : ℕ) (found : Separator) : checkAt unread separator k ≠ .start found := by
  obtain ⟨hread, -, -⟩ := read_of_represents h true
  have hcut := Option.map_eq_none_iff.mp (hread.symm.trans hnone)
  cases findStart_eq_iff.mp (cutMessage_atEnd_eq_none hcut) with
  | notFound hall =>
    by_cases hk : k < unread.length
    · exact (hall k (Nat.zero_le k) hk).not_start
    · intro hcheck
      exact hk (List.getElem?_eq_some_iff.mp (getElem?_of_checkAt hcheck)).1

/-- At the end of the log, a read that returns nothing has found no start. -/
theorem findStart_of_read_true {tokenizer : Tokenizer}
    (h : reader.Represents tokenizer separator unread) (hnone : (reader.read true).1 = none) :
    findStart reader.buf reader.searched reader.buf.length reader.separator true = .notFound := by
  cases hnext : findStart reader.buf reader.searched reader.buf.length reader.separator true with
  | notFound => rfl
  | pending offset =>
    cases findStart_eq_iff.mp hnext with
    | pending _ _ _ hopen _ => cases hopen
  | found start =>
    have hstart := checkAt_of_findStart ((findStart_of_represents h true).trans
      (congrArg (NextStart.shift _) hnext))
    exact absurd hstart (not_start_of_represents h hnone _ _)

/-- What a finishing reader is good for: it represents what is left, or that is done with. -/
private theorem finishing_cases (h : reader.Finishing dialect separator unread) :
    reader.Represents (Tokenizer.new dialect) separator unread ∨
      (reader.searched = reader.buf.length ∧
        ∀ k found, checkAt unread separator k ≠ .start found) := by
  induction h with
  | finish h => exact .inl (represents_of_reached h)
  | record _ hrecord ih =>
    rcases ih with hrep | ⟨hall, -⟩
    · exact .inl (represents_read hrep hrecord)
    · rw [read_of_searched hall] at hrecord
      cases hrecord
  | ended _ hnone ih =>
    right
    rcases ih with hrep | ⟨hall, hnot⟩
    · exact ⟨searched_of_notFound (findStart_of_read_true hrep hnone) hnone,
        not_start_of_represents hrep hnone⟩
    · exact ⟨searched_of_notFound (findStart_of_searched hall true) hnone, hnot⟩

/-- A reader has searched no further than its bytes go. -/
theorem searched_le_of_finishing (h : reader.Finishing dialect separator unread) :
    reader.searched ≤ reader.buf.length := by
  rcases finishing_cases h with hrep | ⟨hall, -⟩
  · exact hrep.searched_le
  · exact hall.le

end Finishing

/-! ## The result -/

/-- **A reader never stalls and its buffer stays bounded.** Where it returns nothing it keeps a
capped prefix up to where its search comes to, and fewer bytes from there on than would decide
the message; so a start with that many bytes yields a record. At the end of the log it returns
nothing only where no message starts in what is left. -/
theorem nextRecord_progresses (dialect : Dialect) (separator : Option UInt8) :
    (∀ reader unread, LogReader.Reached dialect separator reader unread →
      (reader.nextRecord.1 = none →
        ∃ kept rest, reader.nextRecord.2.buf = kept ++ rest ∧
          reader.nextRecord.2.searched = kept.length ∧ kept.length ≤ 2 ^ 20 ∧
          rest = reader.buf.drop (reader.reach false) ∧ rest.length < 2 ^ 20 + 32 ∧
          reader.nextRecord.2.buf.length < 2 * 2 ^ 20 + 32) ∧
      ∀ start, findStart reader.buf reader.searched reader.buf.length reader.separator false =
          .found start → 2 ^ 20 + 32 ≤ (reader.buf.drop start.offset).length →
        ∃ record, reader.nextRecord.1 = some record) ∧
    ∀ reader unread, LogReader.Finishing dialect separator reader unread →
      (reader.read true).1 = none → ∀ offset found, checkAt unread separator offset ≠ .start found := by
  have hbound : maxMessageLen + maxPendingLen < 2 ^ 20 + 32 := by decide
  refine ⟨fun reader unread _ => ⟨fun hnone => ?_, fun start hstart hlong => ?_⟩, ?_⟩
  -- Without a record the buffer loses the excess of the prefix and keeps what was searched.
  · obtain ⟨excess, kept, hsplit, hle, hbuf, hsearched⟩ := read_eq_none hnone
    have hrest := length_drop_reach_lt hnone
    have hcap : maxPrefixLen = 2 ^ 20 := rfl
    have hreach := reach_le reader false
    refine ⟨(reader.buf.drop excess).take kept, reader.buf.drop (reader.reach false), ?_, ?_, ?_,
      rfl, by omega, ?_⟩
    · show (reader.read false).2.buf = _
      rw [hbuf, ← hsplit, ← List.drop_drop, List.take_append_drop]
    · show (reader.read false).2.searched = _
      rw [hsearched, List.length_take, List.length_drop]
      omega
    · rw [List.length_take]
      omega
    · show (reader.read false).2.buf.length < _
      rw [List.length_drop] at hrest
      rw [hbuf, List.length_drop]
      omega
  · exact Option.ne_none_iff_exists'.mp (nextRecord_ne_none hstart (by omega))
  · intro reader unread h hnone
    rcases finishing_cases h with hrep | ⟨-, hnot⟩
    · exact not_start_of_represents hrep hnone
    · exact hnot

/-- A log that ends within a BeginString, read while it is open and at its end. -/
theorem nextRecord_progresses_cut :
    (∃ kept rest, ((LogReader.new Dialect.standard none).feed (ascii "INFO 8=FIX.4")).nextRecord.2.buf =
      kept ++ rest ∧ rest.length < 2 ^ 20 + 32) ∧
    checkAt (ascii "INFO 8=FIX.4") none 5 ≠ .start (.byte soh) := by
  have hreached := LogReader.Reached.feed (ascii "INFO 8=FIX.4")
    (.new : LogReader.Reached Dialect.standard none _ _)
  obtain ⟨hopen, hended⟩ := nextRecord_progresses Dialect.standard none
  obtain ⟨kept, rest, hbuf, -, -, -, hlt, -⟩ := (hopen _ _ hreached).1 (by decide +kernel)
  exact ⟨⟨kept, rest, hbuf, hlt⟩, hended _ _ (.finish hreached) (by decide +kernel) 5 _⟩

end Refix.Log
