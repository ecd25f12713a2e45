import Refix.Log.ReadBack
import Refix.Message.Delivery

/-!
# A log replayed as a stream

A log that writes its messages with SOH is a stream of the same messages, with text between them.
The log reader looks for starts and ends, the stream for frames that check out, and the two share
no code but the tokenizer. On such a log they read the same messages, as long as the text does not
itself hold `8=FIX`.

## Organization

- **Text**: no frame begins in it, nor across its end.
- **The stream**: the log's bytes carry the frames of its entries.
- **Both readers**: the messages of the records are the messages that the stream delivers.
-/

namespace Refix.Log

open Refix.Foundation Refix.Message

/-! ## Text -/

section Text

variable {text after : Bytes} {k : ℕ}

/-- No frame begins in text without `8=FIX`, not even one that ends behind the text. -/
theorem not_viable_before (htext : ¬ beginStringPrefix <:+: text)
    (hafter : beginStringPrefix <+: after) (hk : k < text.length) :
    ¬ Viable ((text ++ after).drop k) := by
  have hfive : beginStringPrefix.length = 5 := by decide
  have hdrop : (text ++ after).drop k = text.drop k ++ after :=
    List.drop_append_of_le_length hk.le
  have hshort : (text.drop k).length < 5 → ¬ beginStringPrefix <+: text.drop k ++ after := by
    intro hlen hpre
    -- the `8` that opens what follows is at a place where the prefix has another byte
    have hfirst : (text.drop k ++ after)[(text.drop k).length]? = some 56 := by
      rw [List.getElem?_append_right le_rfl, Nat.sub_self]
      exact getElem?_eq_some_of_isPrefix hafter (by decide)
    have hpos : 0 < (text.drop k).length := by
      rw [List.length_drop]
      omega
    have hother : ∀ m < 5, 0 < m → beginStringPrefix[m]? ≠ some 56 := by decide
    apply hother _ hlen hpos
    rw [← hfirst]
    exact (getElem?_of_isPrefix hpre (hlen.trans_le hfive.ge)).symm
  have hlong : beginStringPrefix.length ≤ after.length := hafter.length_le
  rw [hdrop]
  rintro (hpre | hpre)
  · by_cases hlen : (text.drop k).length < 5
    · exact hshort hlen hpre
    · apply htext
      have hin : beginStringPrefix <+: text.drop k :=
        List.prefix_of_prefix_length_le hpre (List.prefix_append _ _) (by omega)
      exact hin.isInfix.trans (List.drop_suffix k text).isInfix
  · have hle := hpre.length_le
    rw [List.length_append, List.length_drop] at hle
    omega

/-- Nor does one begin in text without an `8`. -/
theorem not_viable_of_ne_eight (htext : ∀ b ∈ text, b ≠ 56) (hk : k < text.length) :
    ¬ Viable (text.drop k) := by
  have hget : (text.drop k)[0]? = some text[k] := by
    rw [List.getElem?_drop, Nat.add_zero, List.getElem?_eq_getElem hk]
  have hne : text[k] ≠ 56 := htext _ (List.getElem_mem hk)
  have hhead : beginStringPrefix[0]? = some 56 := by decide
  rintro (hpre | hpre)
  · rw [getElem?_eq_some_of_isPrefix hpre hhead] at hget
    exact hne (Option.some.inj hget).symm
  · rw [getElem?_eq_some_of_isPrefix hpre hget] at hhead
    exact hne (Option.some.inj hhead)

/-- Bytes in front that are no `8` do not add one. -/
theorem not_infix_append {front : Bytes} (hfront : ∀ b ∈ front, b ≠ 56)
    (htext : ¬ beginStringPrefix <:+: text) : ¬ beginStringPrefix <:+: front ++ text := by
  induction front with
  | nil => exact htext
  | cons b front ih =>
    obtain ⟨hb, hfront⟩ := List.forall_mem_cons.mp hfront
    rw [List.cons_append, List.infix_cons_iff]
    rintro (hpre | hin)
    · have hhead := getElem?_eq_some_of_isPrefix (i := 0) (x := 56) hpre (by decide)
      exact hb (Option.some.inj hhead)
    · exact ih hfront hin

end Text

/-! ## The stream -/

section Stream

variable {dialect : Dialect} {entry : LogEntry} {entries : List LogEntry}

/-- An entry that is logged as it was sent, behind text that is not taken for a frame. -/
structure LogEntry.Raw (entry : LogEntry) : Prop where
  separator_eq : entry.message.separator = soh
  before_quiet : ¬ beginStringPrefix <:+: entry.before

theorem LogEntry.Raw.logged_eq (h : entry.Raw) : entry.message.logged = entry.message.frame := by
  rw [LogMessage.logged, h.separator_eq, respell_soh]

theorem LineBreak.ne_eight (lineBreak : LineBreak) : ∀ b ∈ lineBreak.bytes, b ≠ 56 := by
  cases lineBreak <;> simp [LineBreak.bytes, lineFeed, carriageReturn]

/-- Every frame of a log is one that the stream can hold. -/
theorem frame_fits {message : LogMessage} (h : message.Valid dialect) :
    message.parts.bytes.length ≤ Scanner.default.maxFrameSize := by
  have hlen : message.parts.bytes.length ≤ maxMessageLen := h.length_le
  simpa [maxMessageLen, Scanner.default] using hlen

theorem isPrefix_frame (h : entry.message.Valid dialect) :
    beginStringPrefix <+: entry.message.parts.bytes := by
  have hscan := scan_eq_frame_iff.mpr (tryScan_bytes_append h.parts (frame_fits h) [])
  rw [List.append_nil] at hscan
  exact isPrefix_of_scan_eq_frame hscan

/-- **The bytes of a log carry its frames**: the line break behind one message and the text before
the next are noise, and nothing is left of them at the end. -/
theorem carries_log (hvalid : ValidLog dialect entries) (hraw : ∀ entry ∈ entries, entry.Raw)
    (lineBreak : LineBreak) (offset : ℕ) :
    ∃ sent, Scanner.default.Carries offset (lineBreak.bytes ++ logBytes entries) sent [] ∧
      sent.map Prod.snd = entries.map (·.message.parts) := by
  induction entries generalizing lineBreak offset with
  | nil =>
    -- what the stream waits for at the end is any frame at all
    have hnews := newsMessage_valid separates_soh (Or.inl rfl)
    refine ⟨[], ?_, rfl⟩
    rw [logBytes, List.flatMap_nil]
    apply Scanner.Carries.rest hnews.parts (frame_fits hnews) List.nil_prefix
    · exact fun h => absurd (congrArg List.length h) (by decide +kernel)
    · intro k hk hviable
      rw [List.append_nil] at hviable
      exact absurd hviable (not_viable_of_ne_eight lineBreak.ne_eight hk)
  | cons entry entries ih =>
    obtain ⟨hentry, -, hentries⟩ := hvalid
    obtain ⟨hrawEntry, hrawEntries⟩ := List.forall_mem_cons.mp hraw
    -- the noise is the line break behind the entry before and the text before this message
    have hbytes : lineBreak.bytes ++ logBytes (entry :: entries) =
        (lineBreak.bytes ++ entry.before) ++ (entry.message.parts.bytes ++
          (entry.lineBreak.bytes ++ logBytes entries)) := by
      simp [logBytes, LogEntry.bytes, hrawEntry.logged_eq, LogMessage.frame]
    obtain ⟨sent, hcarries, hsent⟩ := ih hentries hrawEntries entry.lineBreak
      (offset + (lineBreak.bytes ++ entry.before).length + entry.message.parts.bytes.length)
    refine ⟨(offset + (lineBreak.bytes ++ entry.before).length, entry.message.parts) :: sent, ?_,
      ?_⟩
    · rw [hbytes]
      apply Scanner.Carries.frame hentry.message.parts (frame_fits hentry.message) ?_ hcarries
      intro k hk hviable
      have hquiet := not_infix_append lineBreak.ne_eight hrawEntry.before_quiet
      exact absurd hviable (not_viable_before hquiet (isPrefix_frame hentry.message) hk)
    · rw [List.map_cons, List.map_cons, hsent]

/-- What the stream delivers of a log's bytes. -/
theorem stream_messages (hdialect : dialect.KeepsEnvelope) (hvalid : ValidLog dialect entries)
    (hraw : ∀ entry ∈ entries, entry.Raw) {calls : List (Cutter.Call UInt8)}
    (hfed : Cutter.Call.fed calls = logBytes entries) :
    (delivered (Cutter.observe StreamOutcome.events 0 (sized StreamOutcome.bytes
        ((MessageStream.new dialect).run calls).1))).map Prod.snd =
        entries.map (·.record.message) ∧
      ((MessageStream.new dialect).run calls).2.buf = [] := by
  obtain ⟨sent, hcarries, hsent⟩ := carries_log hvalid hraw .none 0
  obtain ⟨hobs, hleft⟩ := Cutter.observe_run (cutter_early Scanner.default) calls [] 0
  rw [List.nil_append, hfed] at hobs hleft
  obtain ⟨hdelivered, hcut⟩ := hcarries.drain
  constructor
  · -- the log's bytes of a message are its frame, and so are tokenized alike
    have hfields : ∀ entry ∈ entries, entry.record.message =
        ⟨entry.message.parts.bytes,
          (Tokenizer.new dialect).tokenizeFields entry.message.parts.bytes soh⟩ := by
      intro entry hentry
      have hmessage := (valid_of_mem hvalid hentry).message
      have hindex := (hmessage.tokenizeFields_logged hdialect).2
      rw [LogMessage.frame] at hindex
      rw [LogEntry.record, LogMessage.record, (hraw entry hentry).logged_eq, LogMessage.frame,
        hindex]
    rw [LineBreak.bytes, List.nil_append] at hdelivered
    rw [List.map_congr_left hfields, observe_run_eq, delivered_map_event]
    simp only [MessageStream.new, hobs, hdelivered, List.map_map]
    have hread := congrArg (List.map fun parts : FrameParts => RawMessage.mk parts.bytes
      ((Tokenizer.new dialect).tokenizeFields parts.bytes soh)) hsent
    rw [List.map_map, List.map_map] at hread
    exact hread
  · rw [run_eq_render]
    exact hleft.trans hcut

end Stream

/-- What the log reader reads of them. -/
theorem log_records {dialect : Dialect} {entries : List LogEntry}
    (hdialect : dialect.KeepsEnvelope) (hvalid : ValidLog dialect entries)
    {calls : List (Cutter.Call UInt8)} (hfed : Cutter.Call.fed calls = logBytes entries) :
    (LogReader.new dialect none).run calls = entries.map LogEntry.record := by
  induction entries generalizing calls with
  | nil =>
    rw [run_of_represents (represents_new dialect none), Cutter.runTo_of_fed_eq_nil hfed]
    rfl
  | cons entry entries ih =>
    have hbreak := lineBreakLen_of_validLog hvalid
    obtain ⟨⟨hmessage, hlength, separator, hstart⟩, -, hentries⟩ := hvalid
    have hsplit : Cutter.Call.fed calls = entry.before ++ (entry.message.logged ++
        (entry.lineBreak.bytes ++ logBytes entries)) := by
      rw [hfed]
      simp [logBytes, LogEntry.bytes]
    obtain ⟨calls', hfed', hrun⟩ :=
      hmessage.run_logged hdialect (hmessage.startsAt hstart) hlength hsplit
    rw [hbreak, List.drop_left] at hfed'
    rw [hrun, ih hentries hfed']
    rfl

/-! ## Both readers -/

/-- **A stream and a log reader read the same messages** from a log that is written as it was
sent, with all its text and line breaks in between: as many as there are entries, with the same
bytes and the same fields, in the same order, however the bytes are fed to either. The stream keeps
nothing back. -/
theorem stream_reads_log (dialect : Dialect) (hdialect : dialect.KeepsEnvelope)
    (entries : List LogEntry) (hvalid : ValidLog dialect entries)
    (hraw : ∀ entry ∈ entries, entry.Raw) (calls calls' : List (Cutter.Call UInt8))
    (hfed : Cutter.Call.fed calls = logBytes entries)
    (hfed' : Cutter.Call.fed calls' = logBytes entries) :
    let records := (LogReader.new dialect none).run calls
    let run := (MessageStream.new dialect).run calls'
    records.length = entries.length ∧
      (delivered (Cutter.observe StreamOutcome.events 0
        (sized StreamOutcome.bytes run.1))).map Prod.snd = records.map LogRecord.message ∧
      run.2.buf = [] := by
  intro records run
  have hrecords : records = entries.map LogEntry.record := log_records hdialect hvalid hfed
  obtain ⟨hdelivered, hleft⟩ := stream_messages hdialect hvalid hraw hfed'
  refine ⟨?_, ?_, hleft⟩
  · rw [hrecords, List.length_map]
  · rw [hdelivered, hrecords, List.map_map]
    rfl

/-- The same message twice on one line, its data with a start of its own. -/
def rawLog : List LogEntry :=
  [⟨ascii "09:30:01 ", newsMessage soh, .none⟩, ⟨ascii " sent 8=", newsMessage soh, .crlf⟩]

theorem stream_reads_log_news :
    let records := (LogReader.new .standard none).run [.feed (logBytes rawLog), .next]
    let run := (MessageStream.new .standard).run
      [.feed ((logBytes rawLog).take 20), .next, .feed ((logBytes rawLog).drop 20)]
    records.length = 2 ∧
      (delivered (Cutter.observe StreamOutcome.events 0
        (sized StreamOutcome.bytes run.1))).map Prod.snd = records.map LogRecord.message ∧
      run.2.buf = [] := by
  have hnews := newsMessage_valid separates_soh (Or.inl rfl)
  have hfirst : ¬ beginStringPrefix <:+: ascii "09:30:01 " := by decide +kernel
  have hsecond : ¬ beginStringPrefix <:+: ascii " sent 8=" := by decide +kernel
  apply stream_reads_log .standard ⟨by decide, by decide⟩ rawLog
  · refine ⟨⟨hnews, by decide +kernel, .byte soh, by decide +kernel⟩, by decide +kernel,
      ⟨hnews, by decide +kernel, .byte soh, by decide +kernel⟩, by simp, trivial⟩
  · exact List.forall_mem_cons.mpr ⟨⟨rfl, hfirst⟩, List.forall_mem_singleton.mpr ⟨rfl, hsecond⟩⟩
  · simp [Cutter.Call.fed]
  · simp [Cutter.Call.fed]

end Refix.Log
