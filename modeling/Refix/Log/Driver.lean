import Refix.Log.Cut

/-!
# Driving the Log Reader

Feeding a reader, taking its records, and finishing it. The reader keeps only what it needs
of the bytes since the last record: of a long prefix the part nearest the message, and where
to search on (`LogReader.Represents`). That does as well as all these bytes would: each read
is a cut off them, and a drained reader returns the messages that are cut off the log.
-/

namespace Refix.Log

open Refix.Foundation Refix.Message

/-! ## What a reader keeps -/

/-- A reader for `tokenizer` and `separatorOverride` that has taken its last record just before
`bytes`. -/
structure LogReader.Represents (reader : LogReader) (tokenizer : Tokenizer)
    (separatorOverride : Option UInt8) (bytes : Bytes) : Prop where
  tokenizer_eq : reader.tokenizer = tokenizer
  separator_eq : reader.separator = separatorOverride
  /-- The bytes dropped are those past the cap of a prefix that is searched already. -/
  suffix : ∃ dropped, bytes = dropped ++ reader.buf ∧
    (reader.prefixTruncated = true ↔ dropped ≠ []) ∧
    (dropped ≠ [] → reader.searched = maxPrefixLen)
  searched_le : reader.searched ≤ reader.buf.length
  /-- No message starts where the reader has searched. -/
  passed : ∀ k, k + reader.buf.length < bytes.length + reader.searched →
    checkAt bytes separatorOverride k = .notStart

def NextStart.shift (n : ℕ) : NextStart → NextStart
  | .found start => .found ⟨n + start.offset, start.separator⟩
  | .pending offset => .pending (n + offset)
  | .notFound => .notFound

section Represents

variable {reader reader' : LogReader} {tokenizer : Tokenizer} {separatorOverride : Option UInt8}
  {bytes : Bytes} {atEnd : Bool}

theorem represents_new (dialect : Dialect) (separator : Option UInt8) :
    (LogReader.new dialect separator).Represents (Tokenizer.new dialect) separator [] where
  tokenizer_eq := rfl
  separator_eq := rfl
  suffix := ⟨[], rfl, by simp [LogReader.new], by simp⟩
  searched_le := le_rfl
  passed k hk := absurd hk (Nat.not_lt_zero _)

/-- A candidate is checked alike behind bytes that were dropped. -/
private theorem checkAt_append (dropped buf : Bytes) {k : ℕ} (hk : dropped ≠ [] → 0 < k) :
    checkAt (dropped ++ buf) separatorOverride (dropped.length + k) =
      checkAt buf separatorOverride k := by
  have hbefore : (0 < dropped.length + k ∧
      ((dropped ++ buf)[dropped.length + k - 1]?).any isAsciiDigit = true) ↔
      (0 < k ∧ (buf[k - 1]?).any isAsciiDigit = true) := by
    rcases Nat.eq_zero_or_pos k with rfl | hpos
    · have hnil : dropped = [] := by
        by_contra hne
        exact absurd (hk hne) (lt_irrefl 0)
      simp [hnil]
    · rw [List.getElem?_append_right (by omega),
        show dropped.length + k - 1 - dropped.length = k - 1 by omega]
      simp [hpos]
  unfold checkAt
  simp only [hbefore, List.getElem?_append_right (Nat.le_add_right _ _), Nat.add_sub_cancel_left,
    List.drop_append, List.drop_eq_nil_of_le (Nat.le_add_right dropped.length k), List.nil_append]

/-- Bytes fed to the reader are added to those it represents. -/
theorem LogReader.Represents.feed (h : reader.Represents tokenizer separatorOverride bytes)
    (more : Bytes) :
    (reader.feed more).Represents tokenizer separatorOverride (bytes ++ more) := by
  obtain ⟨dropped, rfl, htruncated, hsearched⟩ := h.suffix
  refine ⟨h.tokenizer_eq, h.separator_eq, ⟨dropped, ?_, htruncated, hsearched⟩, ?_, ?_⟩
  · rw [List.append_assoc]
    rfl
  · exact h.searched_le.trans (by simp [LogReader.feed])
  · intro k hk
    have hle := h.searched_le
    have hlt : k + reader.buf.length < (dropped ++ reader.buf).length + reader.searched := by
      simp only [LogReader.feed, List.length_append] at hk ⊢
      omega
    have hpass := h.passed k hlt
    rw [checkAt_of_isPrefix (List.prefix_append _ more)
      (by simp only [List.length_append] at hlt ⊢; omega) (by rw [hpass]; nofun), hpass]

/-- **The reader's search comes to the first start** in the bytes it represents. -/
theorem findStart_of_represents (h : reader.Represents tokenizer separatorOverride bytes)
    (atEnd : Bool) :
    findStart bytes 0 bytes.length separatorOverride atEnd =
      (findStart reader.buf reader.searched reader.buf.length reader.separator atEnd).shift
        (bytes.length - reader.buf.length) := by
  obtain ⟨dropped, rfl, -, hsearched⟩ := h.suffix
  have hcheck : ∀ k, reader.searched ≤ k →
      checkAt (dropped ++ reader.buf) separatorOverride (dropped.length + k) =
        checkAt reader.buf separatorOverride k := by
    intro k hk
    apply checkAt_append
    intro hne
    have hcap : 0 < maxPrefixLen := by decide
    have := hsearched hne
    omega
  -- what is passed over is what was searched before, or is passed over now
  have hpass : ∀ m, (∀ k, reader.searched ≤ k → k < m →
      Passes reader.buf separatorOverride atEnd k) → ∀ k, 0 ≤ k → k < dropped.length + m →
      Passes (dropped ++ reader.buf) separatorOverride atEnd k := by
    intro m hm k _ hk
    by_cases hold : k < dropped.length + reader.searched
    · refine Or.inl (h.passed k ?_)
      rw [List.length_append]
      omega
    · obtain ⟨j, rfl⟩ : ∃ j, k = dropped.length + j := ⟨k - dropped.length, by omega⟩
      have := hm j (by omega) (by omega)
      rwa [Passes, hcheck j (by omega)]
  rw [List.length_append, Nat.add_sub_cancel, h.separator_eq]
  apply findStart_eq_iff.mpr
  have hfirst := findsStart reader.buf reader.searched reader.buf.length separatorOverride atEnd
  generalize findStart reader.buf reader.searched reader.buf.length separatorOverride atEnd = next
    at hfirst ⊢
  cases hfirst with
  | @found start hlo hhi hstart hbefore =>
    refine .found (Nat.zero_le _) (Nat.add_lt_add_left hhi _) ?_ (hpass _ hbefore)
    rw [hcheck _ hlo, hstart]
  | pending hlo hhi hpending hopen hbefore =>
    refine .pending (Nat.zero_le _) (Nat.add_lt_add_left hhi _) ?_ hopen (hpass _ hbefore)
    rw [hcheck _ hlo, hpending]
  | notFound hall => exact .notFound (hpass _ hall)

/-- A prefix of `len` bytes is split: the excess over the cap is dropped, the rest kept. -/
theorem capPrefix_spec (reader : LogReader) (len : ℕ) :
    ∃ excess kept, excess + kept = len ∧ kept ≤ maxPrefixLen ∧
      (0 < excess → kept = maxPrefixLen) ∧
      reader.capPrefix len =
        (kept,
          { reader with
            buf := reader.buf.drop excess
            prefixTruncated := reader.prefixTruncated || decide (0 < excess) }) := by
  unfold LogReader.capPrefix
  split
  · next hle => exact ⟨0, len, by omega, hle, by omega, by simp⟩
  · next hgt =>
    obtain ⟨excess, rfl⟩ := Nat.exists_eq_add_of_le' (Nat.le_of_not_le hgt)
    have hpos : 0 < excess := by omega
    rw [Nat.add_sub_cancel]
    exact ⟨excess, maxPrefixLen, rfl, le_rfl, fun _ => rfl, by simp [hpos]⟩

/-- The reader stays as good as the bytes when it caps a prefix in which no message starts. -/
theorem LogReader.Represents.skip (h : reader.Represents tokenizer separatorOverride bytes)
    {excess kept : ℕ} (hlo : reader.searched ≤ excess + kept)
    (hhi : excess + kept ≤ reader.buf.length) (hle : kept ≤ maxPrefixLen)
    (hcap : 0 < excess → kept = maxPrefixLen)
    (hpass : ∀ k, k + reader.buf.length < bytes.length + (excess + kept) →
      checkAt bytes separatorOverride k = .notStart) :
    LogReader.Represents
      { reader with
        buf := reader.buf.drop excess
        prefixTruncated := reader.prefixTruncated || decide (0 < excess)
        searched := kept } tokenizer separatorOverride bytes := by
  obtain ⟨dropped, rfl, htruncated, hsearched⟩ := h.suffix
  refine ⟨h.tokenizer_eq, h.separator_eq, ⟨dropped ++ reader.buf.take excess, ?_, ?_, ?_⟩, ?_, ?_⟩
  · rw [List.append_assoc, List.take_append_drop]
  -- The prefix was truncated exactly where bytes of it were dropped, before or now.
  · have hlong : reader.buf.take excess ≠ [] ↔ 0 < excess := by
      rw [← List.length_pos_iff, List.length_take]
      omega
    simp only [Bool.or_eq_true, htruncated, decide_eq_true_eq, ← hlong, ne_eq,
      List.append_eq_nil_iff, not_and_or]
  · intro hne
    show kept = maxPrefixLen
    by_cases hdropped : dropped = []
    · have hlong := List.length_pos_iff.mpr hne
      rw [hdropped, List.nil_append, List.length_take] at hlong
      exact hcap (by omega)
    · have := hsearched hdropped
      rcases Nat.eq_zero_or_pos excess with hzero | hpos
      · exact Nat.le_antisymm hle (by omega)
      · exact hcap hpos
  · show kept ≤ (reader.buf.drop excess).length
    rw [List.length_drop]
    omega
  · intro k hk
    apply hpass
    simp only [List.length_drop, List.length_append] at hk ⊢
    omega

/-- Where the search waits, or finds nothing, the reader drops of what it passed over. -/
theorem LogReader.Represents.capped (h : reader.Represents tokenizer separatorOverride bytes)
    {dropped : Bytes} (hbytes : bytes = dropped ++ reader.buf) {len excess kept : ℕ}
    (hlo : reader.searched ≤ len) (hhi : len ≤ reader.buf.length)
    (hpass : ∀ k, 0 ≤ k → k < dropped.length + len → Passes bytes separatorOverride false k)
    (hsplit : excess + kept = len) (hle : kept ≤ maxPrefixLen)
    (hcap : 0 < excess → kept = maxPrefixLen) :
    LogReader.Represents
      { reader with
        buf := reader.buf.drop excess
        prefixTruncated := reader.prefixTruncated || decide (0 < excess)
        searched := kept } tokenizer separatorOverride bytes := by
  subst hsplit
  apply h.skip hlo hhi hle hcap
  intro k hk
  rw [hbytes, List.length_append] at hk
  rcases hpass k (Nat.zero_le k) (by omega) with hnot | ⟨-, hend⟩
  · exact hnot
  · -- only the end of the log would let a candidate pass that may still become a start
    cases hend

/-- Bytes were dropped before only of a prefix at least as long as the cap, so that what is capped
of the buffer is what is over the cap in all. -/
theorem excess_of_capped {before offset excess kept : ℕ} (hsplit : excess + kept = offset)
    (hle : kept ≤ maxPrefixLen) (hcap : 0 < excess → kept = maxPrefixLen)
    (hbefore : 0 < before → maxPrefixLen ≤ offset) :
    before + offset - maxPrefixLen = before + excess ∧
      (maxPrefixLen < before + offset ↔ 0 < before ∨ 0 < excess) := by
  rcases Nat.eq_zero_or_pos excess with hzero | hpos
  · rcases Nat.eq_zero_or_pos before with hzero' | hpos'
    · omega
    · have := hbefore hpos'
      omega
  · have := hcap hpos
    omega

/-- **A read is a cut** off the bytes the reader represents, and the reader represents what is
left of them. -/
theorem takeMessage_of_represents (h : reader.Represents tokenizer separatorOverride bytes)
    (atEnd : Bool) :
    let cut := cutMessage tokenizer separatorOverride atEnd bytes
    (reader.takeMessage atEnd).1 = cut.map (·.1) ∧
      (∀ taken n, cut = some (taken, n) → (reader.takeMessage atEnd).2.Represents tokenizer
        separatorOverride (bytes.drop n)) ∧
      (cut = none → atEnd = false →
        (reader.takeMessage atEnd).2.Represents tokenizer separatorOverride bytes) := by
  have hsearch := findStart_of_represents h atEnd
  obtain ⟨dropped, hbytes, htruncated, hsearched⟩ := h.suffix
  have hlen : bytes.length - reader.buf.length = dropped.length := by
    rw [hbytes, List.length_append, Nat.add_sub_cancel]
  rw [hlen] at hsearch
  have hfirst := findsStart bytes 0 bytes.length separatorOverride atEnd
  rw [hsearch] at hfirst
  unfold cutMessage LogReader.takeMessage
  rw [hsearch]
  cases hnext : findStart reader.buf reader.searched reader.buf.length reader.separator atEnd with
  | pending offset =>
    rw [hnext] at hfirst
    obtain ⟨excess, kept, hsplit, hle, hcap, hskip⟩ := capPrefix_spec reader offset
    simp only [NextStart.shift, hskip]
    refine ⟨rfl, nofun, ?_⟩
    rintro - rfl
    cases findStart_eq_iff.mp hnext with
    | pending hlo hhi _ _ _ =>
      cases hfirst with
      | pending _ _ _ _ hbefore => exact h.capped hbytes hlo hhi.le hbefore hsplit hle hcap
  | notFound =>
    rw [hnext] at hfirst
    obtain ⟨excess, kept, hsplit, hle, hcap, hskip⟩ := capPrefix_spec reader reader.buf.length
    simp only [NextStart.shift, hskip]
    refine ⟨rfl, nofun, ?_⟩
    rintro - rfl
    cases hfirst with
    | notFound hall =>
      refine h.capped hbytes h.searched_le le_rfl ?_ hsplit hle hcap
      intro k h₁ h₂
      refine hall k h₁ ?_
      rwa [hbytes, List.length_append]
  | found start =>
    rw [hnext] at hfirst
    obtain ⟨excess, kept, hsplit, hle, hcap, hskip⟩ := capPrefix_spec reader start.offset
    have hbounds : reader.searched ≤ start.offset ∧ start.offset < reader.buf.length := by
      cases findStart_eq_iff.mp hnext with
      | found hlo hhi _ _ => exact ⟨hlo, hhi⟩
    have hrest : (reader.buf.drop excess).drop kept =
        bytes.drop (dropped.length + start.offset) := by
      rw [List.drop_drop, hbytes, List.drop_length_add_append, hsplit]
    obtain ⟨hexcess, htruncates⟩ := excess_of_capped hsplit hle hcap fun hpos =>
      (hsearched (List.length_pos_iff.mp hpos)).symm.le.trans hbounds.1
    simp only [NextStart.shift, hskip, hrest, h.tokenizer_eq, h.separator_eq, hexcess]
    cases hmessage : findMessage tokenizer separatorOverride
        (bytes.drop (dropped.length + start.offset)) start.separator atEnd with
    | none =>
      refine ⟨rfl, nofun, ?_⟩
      rintro - rfl
      cases hfirst with
      | found _ _ _ hbefore =>
        have hkeeps := h.capped hbytes hbounds.1 hbounds.2.le hbefore hsplit hle hcap
        simpa only [h.tokenizer_eq, h.separator_eq] using hkeeps
    | some message =>
      obtain ⟨stop, copy, separator⟩ := message
      refine ⟨?_, ?_, nofun⟩
      · -- the prefix is what the cap leaves of all that stands before the start
        have hfront : (reader.buf.drop excess).take kept =
            (bytes.take (dropped.length + start.offset)).drop (dropped.length + excess) := by
          rw [hbytes, List.take_length_add_append, List.drop_length_add_append, List.drop_take,
            ← hsplit, Nat.add_sub_cancel_left]
        have hflag : (reader.prefixTruncated || decide (0 < excess)) =
            decide (maxPrefixLen < dropped.length + start.offset) := by
          rw [Bool.eq_iff_iff, Bool.or_eq_true, htruncated, decide_eq_true_eq, decide_eq_true_eq,
            htruncates, ← List.length_pos_iff]
        simp only [hfront, hflag, Option.map_some]
      · intro taken n hcut
        obtain ⟨-, rfl⟩ := Prod.mk.inj (Option.some.inj hcut)
        refine ⟨rfl, rfl, ⟨[], ?_, by simp, by simp⟩, Nat.zero_le _, ?_⟩
        · simp only [List.nil_append, List.drop_drop]
        · intro k hk
          simp only [List.drop_drop] at hk
          omega

end Represents

/-! ## Draining -/

/-- **What a read takes**: the message at the first start, in whatever state the reader is. -/
theorem takeMessage_eq_some {reader : LogReader} {atEnd : Bool} {taken : Taken}
    (h : (reader.takeMessage atEnd).1 = some taken) :
    ∃ start stop copy,
      findStart reader.buf reader.searched reader.buf.length reader.separator atEnd =
        .found start ∧
      findMessage reader.tokenizer reader.separator (reader.buf.drop start.offset) start.separator
        atEnd = some (stop, copy, taken.separator) ∧
      taken.logged = (reader.buf.drop start.offset).take stop.len ∧
      taken.bytes = copy.getD taken.logged ∧ taken.truncated = stop.truncated ∧
      (reader.takeMessage atEnd).2.buf = (reader.buf.drop start.offset).drop stop.consumed := by
  revert h
  unfold LogReader.takeMessage
  cases hnext : findStart reader.buf reader.searched reader.buf.length reader.separator atEnd with
  | pending offset => nofun
  | notFound => nofun
  | found start =>
    obtain ⟨excess, kept, hsplit, -, -, hskip⟩ := capPrefix_spec reader start.offset
    have hrest : (reader.buf.drop excess).drop kept = reader.buf.drop start.offset := by
      rw [List.drop_drop, hsplit]
    simp only [hskip, hrest]
    cases hmessage : findMessage reader.tokenizer reader.separator
        (reader.buf.drop start.offset) start.separator atEnd with
    | none => nofun
    | some message =>
      obtain ⟨stop, copy, separator⟩ := message
      intro h
      obtain rfl := Option.some.inj h
      exact ⟨start, stop, copy, rfl, hmessage, rfl, rfl, rfl, rfl⟩

/-- A record takes bytes off the buffer. -/
theorem read_length_lt {reader : LogReader} {atEnd : Bool} {record : LogRecord}
    {reader' : LogReader} (h : reader.read atEnd = (some record, reader')) :
    reader'.buf.length < reader.buf.length := by
  have hrecord : (reader.takeMessage atEnd).1.map (Taken.record reader.tokenizer) =
      some record := congrArg Prod.fst h
  have hreader : (reader.takeMessage atEnd).2 = reader' := congrArg Prod.snd h
  obtain ⟨taken, htaken, -⟩ := Option.map_eq_some_iff.mp hrecord
  obtain ⟨start, stop, copy, hstart, hmessage, -, -, -, hbuf⟩ := takeMessage_eq_some htaken
  obtain ⟨hwithin, -, -⟩ :=
    findMessage_within (check_of_checkAt (checkAt_of_findStart hstart)) hmessage
  have hpos := hwithin.len_pos
  have hle := hwithin.len_le
  have hend := hwithin.consumed_le
  rw [← hreader, hbuf]
  simp only [List.length_drop] at hend ⊢
  omega

/-- Every record until there is none, and the reader then. -/
def LogReader.drain (reader : LogReader) (atEnd : Bool) : List LogRecord × LogReader :=
  match _h : reader.read atEnd with
  | (none, reader') => ([], reader')
  | (some record, reader') =>
    let rest := reader'.drain atEnd
    (record :: rest.1, rest.2)
termination_by reader.buf.length
decreasing_by exact read_length_lt _h

/-- Ends the input and returns the records still pending. -/
def LogReader.finish (reader : LogReader) : List LogRecord := (reader.drain true).1

/-- The records of a log that is fed in `parts`, with the reader drained after each. -/
def LogReader.readParts : List Bytes → LogReader → List LogRecord
  | [], reader => reader.finish
  | part :: parts, reader =>
    let drained := (reader.feed part).drain false
    drained.1 ++ readParts parts drained.2

/-- The records of calls in any order, with the reader finished after them. -/
def LogReader.run : List (Cutter.Call UInt8) → LogReader → List LogRecord
  | [], reader => reader.finish
  | .feed bytes :: calls, reader => run calls (reader.feed bytes)
  | .next :: calls, reader =>
    let (record, reader') := reader.nextRecord
    record.toList ++ run calls reader'

/-- The readers that `drain` takes a record from, or tries to. -/
def LogReader.drained (reader : LogReader) : List LogReader :=
  match _h : reader.nextRecord with
  | (none, _) => [reader]
  | (some _, reader') => reader :: reader'.drained
termination_by reader.buf.length
decreasing_by exact read_length_lt _h

/-- The readers that are drained while parts of the log are still to be fed. -/
def LogReader.openReaders : List Bytes → LogReader → List LogReader
  | [], _ => []
  | [_], _ => []
  | part :: next :: parts, reader =>
    (reader.feed part).drained ++
      openReaders (next :: parts) ((reader.feed part).drain false).2

section Drain

variable {reader : LogReader} {tokenizer : Tokenizer} {separatorOverride : Option UInt8}
  {bytes : Bytes}

/-- The records of what was cut. -/
def records (tokenizer : Tokenizer) (pieces : List (Taken × ℕ)) : List LogRecord :=
  pieces.map fun piece => piece.1.record tokenizer

theorem read_of_represents (h : reader.Represents tokenizer separatorOverride bytes)
    (atEnd : Bool) :
    let cut := cutMessage tokenizer separatorOverride atEnd bytes
    (reader.read atEnd).1 = cut.map (fun piece => piece.1.record tokenizer) ∧
      (∀ taken n, cut = some (taken, n) →
        (reader.read atEnd).2.Represents tokenizer separatorOverride (bytes.drop n)) ∧
      (cut = none → atEnd = false →
        (reader.read atEnd).2.Represents tokenizer separatorOverride bytes) := by
  obtain ⟨htaken, hsome, hnone⟩ := takeMessage_of_represents h atEnd
  refine ⟨?_, hsome, hnone⟩
  show (reader.takeMessage atEnd).1.map (Taken.record reader.tokenizer) = _
  rw [htaken, Option.map_map, h.tokenizer_eq]
  rfl

/-- **A drained reader returns the messages that are cut off the log.** -/
theorem drain_of_represents (h : reader.Represents tokenizer separatorOverride bytes)
    (atEnd : Bool) :
    let pieces := (messageCutter tokenizer separatorOverride atEnd).drain bytes
    (reader.drain atEnd).1 = records tokenizer pieces.1 ∧
      (atEnd = false →
        (reader.drain atEnd).2.Represents tokenizer separatorOverride pieces.2) := by
  -- Each record shortens the buffer, so the induction is on its length.
  induction hlen : reader.buf.length using Nat.strong_induction_on generalizing reader bytes with
  | _ len ih =>
    obtain ⟨hrecord, hsome, hnone⟩ := read_of_represents h atEnd
    rw [LogReader.drain]
    cases hcut : cutMessage tokenizer separatorOverride atEnd bytes with
    | none =>
      rw [hcut] at hrecord
      rw [Cutter.drain_of_cut_eq_none (c := messageCutter tokenizer separatorOverride atEnd) hcut]
      split
      · next reader' hread =>
        rw [hread] at hnone
        exact ⟨rfl, hnone hcut⟩
      · next hread =>
        rw [hread] at hrecord
        cases hrecord
    | some piece =>
      obtain ⟨taken, n⟩ := piece
      rw [hcut] at hrecord
      rw [Cutter.drain_of_cut_eq_some (c := messageCutter tokenizer separatorOverride atEnd) hcut]
      split
      · next hread =>
        rw [hread] at hrecord
        cases hrecord
      · next record reader' hread =>
        have hrest := hsome taken n hcut
        rw [hread] at hrecord hrest
        obtain rfl := Option.some.inj hrecord
        obtain ⟨hrecords, hleft⟩ := ih _ (hlen ▸ read_length_lt hread) hrest rfl
        exact ⟨congrArg (_ :: ·) hrecords, hleft⟩

theorem finish_of_represents (h : reader.Represents tokenizer separatorOverride bytes) :
    reader.finish =
      records tokenizer ((messageCutter tokenizer separatorOverride true).drain bytes).1 :=
  (drain_of_represents h true).1

theorem readParts_of_represents (h : reader.Represents tokenizer separatorOverride bytes)
    (parts : List Bytes) :
    reader.readParts parts = records tokenizer
      ((messageCutter tokenizer separatorOverride false).runParts
        (messageCutter tokenizer separatorOverride true) parts bytes) := by
  induction parts generalizing reader bytes with
  | nil => exact finish_of_represents h
  | cons part parts ih =>
    obtain ⟨hrecords, hleft⟩ := drain_of_represents (h.feed part) false
    rw [LogReader.readParts, Cutter.runParts, hrecords, ih (hleft rfl)]
    simp only [records, List.map_append]

theorem run_of_represents (h : reader.Represents tokenizer separatorOverride bytes)
    (calls : List (Cutter.Call UInt8)) :
    reader.run calls = records tokenizer
      ((messageCutter tokenizer separatorOverride false).runTo
        (messageCutter tokenizer separatorOverride true) calls bytes).1 := by
  induction calls generalizing reader bytes with
  | nil => exact finish_of_represents h
  | cons call calls ih =>
    cases call with
    | feed more => exact ih (h.feed more)
    | next =>
      obtain ⟨hrecord, hsome, hnone⟩ := read_of_represents h false
      rw [LogReader.run, LogReader.nextRecord, Cutter.runTo]
      cases hcut : cutMessage tokenizer separatorOverride false bytes with
      | none =>
        rw [hcut] at hrecord
        simp only [messageCutter, hcut, hrecord, Option.map_none, Option.toList_none,
          List.nil_append]
        exact ih (hnone hcut rfl)
      | some piece =>
        obtain ⟨taken, n⟩ := piece
        rw [hcut] at hrecord
        simp only [messageCutter, hcut, hrecord, Option.map_some, Option.toList_some]
        rw [ih (hsome taken n hcut)]
        rfl

end Drain

end Refix.Log
