import Refix.Log.Separated
import Refix.Log.Starting

/-!
# Reading a Log Back

A log of messages, each behind some text of its own and followed by at most one line break, is
read back message by message, however it is fed.
-/

namespace Refix.Log

open Refix.Foundation Refix.Message

/-! ## One message -/

/-- How many bytes of a line break follow a message. -/
def lineBreakLen (rest : Bytes) : ℕ :=
  if [lineFeed] <+: rest then 1 else if [carriageReturn, lineFeed] <+: rest then 2 else 0

theorem afterMessage_atEnd (text rest : Bytes) :
    afterMessage (text ++ rest) text.length true =
      some ⟨text.length, text.length + lineBreakLen rest, false⟩ := by
  simp only [afterMessage, List.drop_left, lineBreakLen, Bool.true_eq_false, false_and, if_false]
  split
  · rfl
  · split <;> rfl

/-- A byte that opens no line break leaves the one before it as it was. -/
theorem lineBreakLen_concat (rest : Bytes) : lineBreakLen (rest ++ [0]) = lineBreakLen rest := by
  match rest with
  | [] => decide
  | [b] =>
    have hzero : lineFeed ≠ 0 := by decide
    simp [lineBreakLen, hzero]
  | b :: c :: rest => simp [lineBreakLen]

/-! ## A start that is written -/

section Start

variable {separator : UInt8} {version value : Bytes} {tag : Tag} {fields : List (Tag × Bytes)}

private theorem wireFields_front (separator : UInt8) (version : Bytes) (tag : Tag) (value : Bytes)
    (fields : List (Tag × Bytes)) :
    wireFields separator ((8, version) :: (tag, value) :: fields) =
      (ascii "8=" ++ (version ++ separator :: decimal tag)) ++
        equalsSign :: (value ++ separator :: wireFields separator fields) := by
  have height : decimal 8 ++ [equalsSign] = ascii "8=" := by
    rw [decimal_eight]
    rfl
  rw [wireFields_cons, wireFields_cons, ← height]
  simp [wireField]

theorem hasTwoTags_wireFields (separator : UInt8) (version : Bytes) (tag : Tag) (value : Bytes)
    (fields : List (Tag × Bytes)) :
    HasTwoTags (wireFields separator ((8, version) :: (tag, value) :: fields)) := by
  rw [wireFields_front]
  refine ⟨1, (ascii "8=" ++ (version ++ separator :: decimal tag)).length, Nat.one_pos, ?_, rfl,
    by simp⟩
  have height : (ascii "8=").length = 2 := by decide
  rw [List.length_append, height]
  omega

/-- A written BeginString field and a tag behind it are a start. -/
theorem check_wireFields (hsep : Separates separator) (hfix : ascii "FIX" <+: version)
    (hversion : ∀ b ∈ version, isVersionByte b = true)
    (hlength : (ascii "8=" ++ version).length ≤ 16) (htag : tag ≤ u32Max) :
    check (wireFields separator ((8, version) :: (tag, value) :: fields)) none =
      .start (.byte separator) := by
  refine check_eq_start_iff.mpr ⟨⟨version, .byte separator, decimal tag⟩, ?_, rfl, ?_⟩
  · exact ⟨hfix, hversion, hlength, ⟨hsep.version, hsep.lineFeed, hsep.carriageReturn⟩,
      decimal_ne_nil tag, fun _ => isAsciiDigit_of_mem_decimal,
      length_decimal_le (by decide) (lt_of_le_of_lt htag (by decide))⟩
  · rw [wireFields_front]
    refine ⟨value ++ separator :: wireFields separator fields, ?_⟩
    simp [StartParts.bytes, Separator.bytes]

end Start

/-- The record of a message that is read to its end. -/
def wholeRecord (tokenizer : Tokenizer) (before text : Bytes) (separator : UInt8) : LogRecord where
  prefixBytes := before
  message := ⟨text, tokenizer.tokenizeFields text separator⟩
  diagnostics := diagnose text (tokenizer.tokenizeFields text separator) separator false

/-- **The first record of a log that opens with a whole message**, and what is left of the log. -/
theorem run_whole {dialect : Dialect} {before text rest : Bytes} {separator : UInt8}
    (hstart : StartsAt before text (.byte separator)) (htags : HasTwoTags text)
    (hlen : before.length ≤ maxPrefixLen)
    (hend : ∀ more : Bytes, more = [] ∨ more = [0] →
      findEnd (Tokenizer.new dialect) (text ++ (rest ++ more)) separator none true =
        some ⟨text.length, text.length + lineBreakLen (rest ++ more), false⟩)
    (hearly : ∀ front, front <+: text ++ rest → check front none = .start (.byte separator) →
      ¬ CutsEarly (Tokenizer.new dialect) front separator none)
    {calls : List (Cutter.Call UInt8)}
    (hfed : Cutter.Call.fed calls = before ++ (text ++ rest)) :
    ∃ calls', Cutter.Call.fed calls' = rest.drop (lineBreakLen rest) ∧
      (LogReader.new dialect none).run calls =
        wholeRecord (Tokenizer.new dialect) before text separator ::
          (LogReader.new dialect none).run calls' := by
  -- A byte that follows the log does not change the line break behind the message.
  have hend' : ∀ more : Bytes, more = [] ∨ more = [0] →
      findMessage (Tokenizer.new dialect) none (text ++ (rest ++ more)) (.byte separator) true =
        some (⟨text.length, text.length + lineBreakLen rest, false⟩, none, separator) := by
    intro more hmore
    have hbreak : lineBreakLen (rest ++ more) = lineBreakLen rest := by
      rcases hmore with rfl | rfl
      · rw [List.append_nil]
      · exact lineBreakLen_concat rest
    rw [findMessage, hend more hmore, hbreak]
    rfl
  obtain ⟨calls', hfed', hrun⟩ := run_message hstart htags hlen (by simp) hend' (by
    intro b front hb hfront hcheck
    obtain rfl : separator = b := Separator.byte.inj hb
    exact hearly front hfront hcheck) hfed
  refine ⟨calls', ?_, ?_⟩
  · rw [hfed', ← List.drop_drop, List.drop_left]
  · rw [hrun]
    congr 1
    simp only [Taken.record, takenAt, List.take_left, Option.getD_none, Bool.false_eq_true,
      if_false, List.nil_append]
    rfl

namespace LogMessage

variable {message : LogMessage} {dialect : Dialect} {before : Bytes}

theorem Valid.hasTwoTags (h : message.Valid dialect) : HasTwoTags message.logged := by
  rw [h.logged_eq]
  exact hasTwoTags_wireFields ..

/-- A logged message opens with a start, of its own separator. -/
theorem Valid.check_logged (h : message.Valid dialect) :
    check message.logged none = .start (.byte message.separator) := by
  have hversion : respell message.separator message.parts.version = message.parts.version :=
    respell_of_notMem h.parts.version_soh
  rw [h.logged_eq, entries, respellFields, List.map_cons, hversion]
  exact check_wireFields h.separates h.parts.version_fix h.version_byte h.parts.version_length
    (show 9 ≤ u32Max by decide)

theorem Valid.startsAt (h : message.Valid dialect) {separator : Separator}
    (hstart : StartsAt before message.logged separator) :
    StartsAt before message.logged (.byte message.separator) := by
  have hcheck := hstart.check
  rw [h.check_logged] at hcheck
  rwa [Check.start.inj hcheck]

/-- The end of a message, once the log has ended. -/
theorem Valid.findEnd_logged (h : message.Valid dialect) (tokenizer : Tokenizer) (rest : Bytes) :
    findEnd tokenizer (message.logged ++ rest) message.separator none true =
      some ⟨message.logged.length, message.logged.length + lineBreakLen rest, false⟩ := by
  rw [findEnd, h.byBodyLength_logged, afterMessage_atEnd]
  rfl

/-- No walk is left over for a message whose BodyLength is right. -/
theorem Valid.not_cutsEarly_logged (h : message.Valid dialect) {tokenizer : Tokenizer}
    {rest front : Bytes} (hfront : front <+: message.logged ++ rest)
    (hcheck : check front none = .start (.byte message.separator)) :
    ¬ CutsEarly tokenizer front message.separator none := by
  rintro ⟨-, hnot, -⟩
  have hpre : front <+: message.logged ++ (rest ++ [0]) := by
    rw [← List.append_assoc]
    exact hfront.trans (List.prefix_append ..)
  have hlast : (message.logged ++ (rest ++ [0])).getLast? ≠ some carriageReturn := by
    rw [← List.append_assoc, List.getLast?_concat]
    decide
  have hstands : byBodyLength (message.logged ++ (rest ++ [0])) message.separator true = _ :=
    byBodyLength_of_isPrefix hpre (fun _ => hlast) (hasTag_of_check hcheck) (by rw [hnot]; nofun)
  rw [h.byBodyLength_logged, afterMessage_atEnd, hnot] at hstands
  cases hstands

/-- The record of a message. -/
def record (message : LogMessage) (before : Bytes) : LogRecord where
  prefixBytes := before
  message := ⟨message.logged, message.index⟩
  diagnostics := []

/-- **The first record of a log that opens with a message**, however it is fed. -/
theorem Valid.run_logged (h : message.Valid dialect) (hdialect : dialect.KeepsEnvelope)
    (hstart : StartsAt before message.logged (.byte message.separator))
    (hlen : before.length ≤ maxPrefixLen) {rest : Bytes} {calls : List (Cutter.Call UInt8)}
    (hfed : Cutter.Call.fed calls = before ++ (message.logged ++ rest)) :
    ∃ calls', Cutter.Call.fed calls' = rest.drop (lineBreakLen rest) ∧
      (LogReader.new dialect none).run calls =
        message.record before :: (LogReader.new dialect none).run calls' := by
  obtain ⟨calls', hfed', hrun⟩ := run_whole hstart h.hasTwoTags hlen
    (fun more _ => h.findEnd_logged _ (rest ++ more))
    (fun front hfront hcheck => h.not_cutsEarly_logged hfront hcheck) hfed
  refine ⟨calls', hfed', ?_⟩
  rw [hrun, wholeRecord, (h.tokenizeFields_logged hdialect).1, h.diagnose_logged]
  rfl

end LogMessage

/-! ## A log -/

/-- What may follow a message on its line. -/
inductive LineBreak where
  | none
  | lf
  | crlf
  deriving DecidableEq, Repr

def LineBreak.bytes : LineBreak → Bytes
  | .none => []
  | .lf => [lineFeed]
  | .crlf => [carriageReturn, lineFeed]

/-- A message of a log with the text before it and the line break after it. -/
structure LogEntry where
  before : Bytes
  message : LogMessage
  lineBreak : LineBreak

namespace LogEntry

def bytes (entry : LogEntry) : Bytes :=
  entry.before ++ (entry.message.logged ++ entry.lineBreak.bytes)

def record (entry : LogEntry) : LogRecord := entry.message.record entry.before

/-- The text before a message is no longer than a prefix may be, and holds no start. -/
structure Valid (dialect : Dialect) (entry : LogEntry) : Prop where
  message : entry.message.Valid dialect
  before_length : entry.before.length ≤ maxPrefixLen
  starts : ∃ separator, StartsAt entry.before entry.message.logged separator

end LogEntry

/-- A log of messages. Where one has no line break, the text after it does not open with one. -/
def ValidLog (dialect : Dialect) : List LogEntry → Prop
  | [] => True
  | entry :: entries =>
    entry.Valid dialect ∧
      (entry.lineBreak = .none → ∀ next ∈ entries.head?, lineBreakLen next.before = 0) ∧
      ValidLog dialect entries

/-- A log as its bytes. -/
def logBytes (entries : List LogEntry) : Bytes := entries.flatMap LogEntry.bytes

theorem lineBreakLen_append_of_ne {text rest : Bytes} (h : lineBreakLen text = 0)
    (hfirst : rest[0]? ≠ some lineFeed) (hreturn : rest[0]? ≠ some carriageReturn) :
    lineBreakLen (text ++ rest) = 0 := by
  have hne : lineFeed ≠ carriageReturn := by decide
  match text, rest with
  | [], [] => rfl
  | [], b :: rest =>
    have hb : ¬ lineFeed = b := fun heq => hfirst (by simp [heq])
    have hb' : ¬ carriageReturn = b := fun heq => hreturn (by simp [heq])
    simp [lineBreakLen, hb, hb']
  | [b], [] => simpa using h
  | [b], c :: rest =>
    have hc : ¬ lineFeed = c := fun heq => hfirst (by simp [heq])
    by_cases hb : lineFeed = b
    · simp [lineBreakLen, hb] at h
    · simp [lineBreakLen, hb, hc]
  | b :: c :: text, rest => simpa [lineBreakLen] using h

/-- The line break of an entry is the one that is found behind its message. -/
theorem lineBreakLen_of_validLog {dialect : Dialect} {entry : LogEntry} {entries : List LogEntry}
    (h : ValidLog dialect (entry :: entries)) :
    lineBreakLen (entry.lineBreak.bytes ++ logBytes entries) = entry.lineBreak.bytes.length := by
  obtain ⟨-, hnext, hentries⟩ := h
  cases hbreak : entry.lineBreak with
  | lf => simp [lineBreakLen, LineBreak.bytes]
  | crlf =>
    have hne : lineFeed ≠ carriageReturn := by decide
    simp [lineBreakLen, LineBreak.bytes, hne]
  | none =>
    cases entries with
    | nil => rfl
    | cons next entries =>
      have hbytes : logBytes (next :: entries) = next.before ++
          (next.message.logged ++ (next.lineBreak.bytes ++ logBytes entries)) := by
        simp [logBytes, LogEntry.bytes]
      have hfirst : (next.message.logged ++ (next.lineBreak.bytes ++
          logBytes entries))[0]? = some 56 := by
        rw [hentries.1.message.logged_split]
        rfl
      rw [LineBreak.bytes, List.nil_append, hbytes, List.length_nil]
      apply lineBreakLen_append_of_ne (hnext hbreak next rfl)
      · rw [hfirst]
        decide
      · rw [hfirst]
        decide

theorem valid_of_mem {dialect : Dialect} {entry : LogEntry} {entries : List LogEntry}
    (h : ValidLog dialect entries) (hentry : entry ∈ entries) : entry.Valid dialect := by
  induction entries with
  | nil => cases hentry
  | cons first entries ih =>
    rcases List.mem_cons.mp hentry with rfl | hentry
    · exact h.1
    · exact ih h.2.2 hentry

/-- **A log is read back**: each message is one record, with the text before it, its bytes, the
fields that its frame has and nothing to diagnose, in order and however the log is fed. -/
theorem log_readBack (dialect : Dialect) (hdialect : dialect.KeepsEnvelope)
    (entries : List LogEntry) (hvalid : ValidLog dialect entries)
    (calls : List (Cutter.Call UInt8)) (hfed : Cutter.Call.fed calls = logBytes entries) :
    (LogReader.new dialect none).run calls = entries.map LogEntry.record ∧
      ∀ entry ∈ entries, (Tokenizer.new dialect).tokenize entry.message.frame =
        .ok ⟨entry.message.frame, entry.record.message.fields⟩ := by
  constructor
  · induction entries generalizing calls with
    | nil =>
      rw [run_of_represents (represents_new dialect none), Cutter.runTo_of_fed_eq_nil hfed]
      rfl
    | cons entry entries ih =>
      have hsplit : Cutter.Call.fed calls = entry.before ++ (entry.message.logged ++
          (entry.lineBreak.bytes ++ logBytes entries)) := by
        rw [hfed]
        simp [logBytes, LogEntry.bytes]
      obtain ⟨calls', hfed', hrun⟩ := hvalid.1.message.run_logged hdialect
        (hvalid.1.message.startsAt hvalid.1.starts.choose_spec) hvalid.1.before_length hsplit
      rw [lineBreakLen_of_validLog hvalid, List.drop_left] at hfed'
      rw [hrun, ih hvalid.2.2 calls' hfed', List.map_cons]
      rfl
  · intro entry hentry
    have hmessage := (valid_of_mem hvalid hentry).message
    have hlen : entry.message.frame.length ≤ u32Max := hmessage.length_le.trans (by decide)
    have hfields := (hmessage.tokenizeFields_logged hdialect).2
    rw [LogMessage.frame, tokenize_frame _ hmessage.parts hlen]
    exact congrArg (fun fields => Except.ok (RawMessage.mk _ fields)) hfields

/-- The fields of a message with a data value that looks like a message of its own. -/
def newsFields : List (Tag × Bytes) :=
  [(35, ascii "B"), (95, ascii "12"), (96, ascii "8=FIX.4|9=1\n")]

/-- The message, logged with a separator. -/
def newsMessage (separator : UInt8) : LogMessage where
  parts := wireParts (ascii "FIX.4.4") newsFields
  body := newsFields
  separator := separator

theorem newsMessage_valid {separator : UInt8} (hsep : Separates separator)
    (hnew : separator = soh ∨ separator ∉ (newsMessage soh).frame) :
    (newsMessage separator).Valid .standard := by
  have hsoh : (newsMessage soh).Valid .standard :=
    ⟨⟨wireParts_valid ⟨by decide, by decide, by decide⟩ (by decide +kernel),
      by decide +kernel, by decide +kernel, by decide +kernel, by decide +kernel, separates_soh,
      Or.inl rfl⟩, by decide +kernel⟩
  -- the frame is the same with another separator
  exact ⟨⟨hsoh.parts, hsoh.version_byte, hsoh.region_eq, hsoh.tags, hsoh.delimited, hsep, hnew⟩,
    hsoh.length_le⟩

/-- Two messages on one line, the second after some text. -/
def newsLog : List LogEntry :=
  [⟨ascii "09:30:01 ", newsMessage soh, .none⟩, ⟨ascii " sent 8=", newsMessage 35, .crlf⟩]

theorem log_readBack_news :
    (LogReader.new .standard none).run [.next, .feed (logBytes newsLog), .next] =
        newsLog.map LogEntry.record ∧
      ∀ entry ∈ newsLog, (Tokenizer.new .standard).tokenize entry.message.frame =
        .ok ⟨entry.message.frame, entry.record.message.fields⟩ := by
  have hfirst := newsMessage_valid separates_soh (Or.inl rfl)
  have hsecond : (newsMessage 35).Valid .standard :=
    newsMessage_valid ⟨by decide, by decide, by decide, by decide⟩ (by decide +kernel)
  refine log_readBack .standard ⟨by decide, by decide⟩ newsLog ⟨?_, ?_, ?_, ?_, trivial⟩ _ ?_
  · exact ⟨hfirst, by decide +kernel, .byte soh, by decide +kernel⟩
  · rintro - next hnext
    cases hnext
    decide +kernel
  · exact ⟨hsecond, by decide +kernel, .byte 35, by decide +kernel⟩
  · rintro h
    cases h
  · simp [Cutter.Call.fed]

end Refix.Log
