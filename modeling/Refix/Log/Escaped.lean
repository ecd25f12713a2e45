import Refix.Log.ReadBack

/-!
# Messages Read Back from `^A`

A message logged with `^A` for SOH, on a line of its own, reads back as the message itself. The
copy of its line is its frame, whose end is mapped back to the end of the line.
-/

namespace Refix.Log

open Refix.Foundation Refix.Message

/-- A frame with `^A` in the place of each SOH. -/
def escapeSoh (bytes : Bytes) : Bytes :=
  bytes.flatMap fun b => if b = soh then caretABytes else [b]

section Escape

variable {bytes : Bytes}

@[simp] theorem escapeSoh_append (bytes bytes' : Bytes) :
    escapeSoh (bytes ++ bytes') = escapeSoh bytes ++ escapeSoh bytes' :=
  List.flatMap_append

theorem escapeSoh_cons_soh (bytes : Bytes) :
    escapeSoh (soh :: bytes) = caret :: 65 :: escapeSoh bytes := rfl

theorem escapeSoh_cons {b : UInt8} (hb : b ≠ soh) (bytes : Bytes) :
    escapeSoh (b :: bytes) = b :: escapeSoh bytes := by
  rw [escapeSoh, List.flatMap_cons, if_neg hb]
  rfl

theorem escapeSoh_of_notMem (h : soh ∉ bytes) : escapeSoh bytes = bytes := by
  induction bytes with
  | nil => rfl
  | cons b bytes ih =>
    rw [List.mem_cons, not_or] at h
    rw [escapeSoh_cons (Ne.symm h.1), ih h.2]

theorem length_le_escapeSoh (bytes : Bytes) : bytes.length ≤ (escapeSoh bytes).length := by
  induction bytes with
  | nil => exact le_rfl
  | cons b bytes ih =>
    by_cases hb : b = soh
    · subst hb
      rw [escapeSoh_cons_soh]
      simp only [List.length_cons]
      omega
    · rw [escapeSoh_cons hb, List.length_cons, List.length_cons]
      exact Nat.succ_le_succ ih

theorem lineFeed_notMem_escapeSoh (h : lineFeed ∉ bytes) : lineFeed ∉ escapeSoh bytes := by
  intro hmem
  obtain ⟨b, hb, hin⟩ := List.mem_flatMap.mp hmem
  split at hin
  · exact absurd hin (by decide)
  · rw [List.mem_singleton.mp hin] at h
    exact h hb

/-- **Each SOH is restored**, and nothing else is, in bytes without a `^A` of their own. -/
theorem restoreSoh_escapeSoh (h : ¬ caretABytes <:+: bytes) :
    restoreSoh (escapeSoh bytes) = bytes := by
  induction bytes with
  | nil => exact restoreSoh_nil
  | cons b bytes ih =>
    have hrest : restoreSoh (escapeSoh bytes) = bytes :=
      ih fun hin => h (hin.trans (List.suffix_cons b bytes).isInfix)
    by_cases hb : b = soh
    · subst hb
      rw [escapeSoh_cons_soh, restoreSoh_caretA, hrest]
    · rw [escapeSoh_cons hb, restoreSoh_cons, hrest]
      -- an `A` behind a `^` is one of the bytes, as each SOH is shown from its `^` on
      intro hpre
      obtain ⟨hcaret, hafter⟩ := List.cons_prefix_cons.mp hpre
      cases bytes with
      | nil => exact absurd hafter.length_le (by decide)
      | cons c bytes =>
        by_cases hc : c = soh
        · subst hc
          rw [escapeSoh_cons_soh] at hafter
          exact absurd (List.cons_prefix_cons.mp hafter).1 (by decide)
        · rw [escapeSoh_cons hc] at hafter
          obtain ⟨hletter, -⟩ := List.cons_prefix_cons.mp hafter
          refine h (List.IsPrefix.isInfix ?_)
          rw [← hcaret, ← hletter]
          exact ⟨bytes, rfl⟩

end Escape

/-! ## The line of a message -/

/-- The line in front of a line break, and the bytes it takes with it. -/
theorem findLine_lineBreak {logLine : Bytes} {lineBreak : LineBreak} (hbreak : lineBreak ≠ .none)
    (hfeed : lineFeed ∉ logLine) (hlast : logLine.getLast? ≠ some carriageReturn)
    (hlen : logLine.length + lineBreak.bytes.length ≤ maxMessageLen) (rest : Bytes)
    (atEnd : Bool) :
    findLine (logLine ++ (lineBreak.bytes ++ rest)) atEnd =
      some (logLine, logLine.length + lineBreak.bytes.length) := by
  have hsplit : ∃ before : Bytes, lineBreak.bytes = before ++ [lineFeed] ∧
      (before = [] ∨ before = [carriageReturn]) := by
    cases lineBreak with
    | none => exact absurd rfl hbreak
    | lf => exact ⟨[], rfl, Or.inl rfl⟩
    | crlf => exact ⟨[carriageReturn], rfl, Or.inr rfl⟩
  obtain ⟨before, hbytes, hbefore⟩ := hsplit
  have hrun : ∀ b ∈ logLine ++ before, (b == lineFeed) = false := by
    intro b hb
    rw [beq_eq_false_iff_ne]
    rintro rfl
    rcases List.mem_append.mp hb with hb | hb
    · exact hfeed hb
    · rcases hbefore with rfl | rfl
      · cases hb
      · exact absurd hb (by decide)
  rw [hbytes, List.length_append, List.length_singleton] at hlen ⊢
  -- the cap keeps the line feed
  obtain ⟨kept, hkept⟩ : ∃ kept, (logLine ++ (before ++ [lineFeed] ++ rest)).take
      (min (logLine ++ (before ++ [lineFeed] ++ rest)).length maxMessageLen) =
        (logLine ++ before) ++ lineFeed :: kept := by
    have hpre : logLine ++ before ++ [lineFeed] <+: logLine ++ (before ++ [lineFeed] ++ rest) :=
      ⟨rest, by simp⟩
    obtain ⟨kept, hkept⟩ := List.prefix_take_iff.mpr ⟨hpre, Nat.le_min.mpr ⟨hpre.length_le, by
      simp only [List.length_append, List.length_singleton]
      omega⟩⟩
    refine ⟨kept, hkept.symm.trans ?_⟩
    simp
  have hfind : ((logLine ++ before) ++ lineFeed :: kept).findIdx? (· == lineFeed) =
      some (logLine ++ before).length := by
    have := findFrom_append_run [] (logLine ++ before) kept hrun (x := lineFeed) (by simp)
    simpa [findFrom] using this
  simp only [findLine, hkept, hfind, List.take_left]
  rcases hbefore with rfl | rfl
  · rw [List.append_nil, if_neg hlast]
    simp
  · simp [Nat.add_assoc]

namespace LogMessage

variable {message : LogMessage} {dialect : Dialect} {before : Bytes} {lineBreak : LineBreak}

/-- The front of a message on its line, with its first two tags. -/
theorem Written.escapeSoh_frame (h : message.Written dialect) :
    ∃ after, escapeSoh message.frame = ascii "8=" ++ (message.parts.version ++
      (Separator.caretA.bytes ++ (ascii "9" ++ equalsSign :: after))) := by
  have height : ascii "8=" = [56, equalsSign] := by decide
  have hnine : ascii "9=" = [57, equalsSign] := by decide
  have hnine' : ascii "9" = [57] := by decide
  have hfront : soh ∉ ascii "8=" ++ message.parts.version := by
    rw [height, List.mem_append, not_or]
    exact ⟨by decide, h.parts.version_soh⟩
  refine ⟨escapeSoh (message.parts.digits ++ soh :: (message.parts.region ++
    (ascii "10=" ++ (message.parts.checksum ++ [soh])))), ?_⟩
  have hframe : message.frame = (ascii "8=" ++ message.parts.version) ++ soh ::
      57 :: equalsSign :: (message.parts.digits ++ soh :: (message.parts.region ++
        (ascii "10=" ++ (message.parts.checksum ++ [soh])))) := by
    simp only [frame, FrameParts.bytes, FrameParts.head, FrameParts.preamble, hnine,
      List.append_assoc, List.cons_append, List.nil_append]
  rw [hframe, escapeSoh_append, escapeSoh_of_notMem hfront, escapeSoh_cons_soh,
    escapeSoh_cons (by decide), escapeSoh_cons (by decide), hnine', List.append_assoc]
  rfl

/-- A message on its line opens with a start, its fields ended with `^A`. -/
theorem Written.check_escapeSoh (h : message.Written dialect) :
    check (escapeSoh message.frame) none = .start .caretA := by
  obtain ⟨after, hafter⟩ := h.escapeSoh_frame
  have hnine : ascii "9" ≠ [] ∧ (∀ b ∈ ascii "9", isAsciiDigit b = true) ∧
      (ascii "9").length ≤ 10 := by decide +kernel
  refine check_eq_start_iff.mpr ⟨⟨message.parts.version, .caretA, ascii "9"⟩, ?_, rfl, ?_⟩
  · exact ⟨h.parts.version_fix, h.version_byte, h.parts.version_length, rfl, hnine.1,
      hnine.2.1, hnine.2.2⟩
  · rw [hafter]
    exact ⟨after, by simp [StartParts.bytes]⟩

theorem Written.hasTwoTags_escapeSoh (h : message.Written dialect) :
    HasTwoTags (escapeSoh message.frame) := by
  obtain ⟨after, hafter⟩ := h.escapeSoh_frame
  rw [hafter]
  refine ⟨1, (ascii "8=" ++ (message.parts.version ++
    (Separator.caretA.bytes ++ ascii "9"))).length, Nat.one_pos, ?_, rfl, ?_⟩
  · have height : (ascii "8=").length = 2 := by decide
    rw [List.length_append, List.length_append, List.length_append, height]
    have hnine : (ascii "9").length = 1 := by decide
    omega
  · have hassoc : ascii "8=" ++ (message.parts.version ++ (Separator.caretA.bytes ++
        (ascii "9" ++ equalsSign :: after))) = (ascii "8=" ++ (message.parts.version ++
          (Separator.caretA.bytes ++ ascii "9"))) ++ equalsSign :: after := by simp
    rw [hassoc, List.getElem?_append_right le_rfl, Nat.sub_self]
    rfl

theorem getLast?_escapeSoh_frame (message : LogMessage) :
    (escapeSoh message.frame).getLast? = some 65 := by
  obtain ⟨front, hfront⟩ := List.getLast?_eq_some_iff.mp message.parts.getLast?_bytes
  rw [frame, hfront, escapeSoh_append]
  exact List.getLast?_eq_some_iff.mpr ⟨escapeSoh front ++ [caret], by simp [escapeSoh, caretABytes,
    ascii, caret]⟩

/-- **The copy of a message's line is its frame**, and the message takes its whole line. -/
theorem Valid.copyMessage_escapeSoh (h : message.Valid dialect) (hsep : message.separator = soh)
    (hcaret : ¬ caretABytes <:+: message.frame) (hfeed : lineFeed ∉ message.frame)
    (hbreak : lineBreak ≠ .none)
    (hlen : (escapeSoh message.frame).length + lineBreak.bytes.length ≤ maxMessageLen)
    (tokenizer : Tokenizer) (rest : Bytes) (atEnd : Bool) :
    copyMessage tokenizer (escapeSoh message.frame ++ (lineBreak.bytes ++ rest)) atEnd =
      some (⟨(escapeSoh message.frame).length,
        (escapeSoh message.frame).length + lineBreak.bytes.length, false⟩, message.frame) := by
  have hlast : (escapeSoh message.frame).getLast? ≠ some carriageReturn := by
    rw [message.getLast?_escapeSoh_frame]
    decide
  have hline := findLine_lineBreak hbreak (lineFeed_notMem_escapeSoh hfeed) hlast hlen rest atEnd
  have hcopy := restoreSoh_escapeSoh hcaret
  have hstop : findEnd tokenizer message.frame soh none true =
      some ⟨message.frame.length, message.frame.length, false⟩ := by
    have hend := h.findEnd_logged tokenizer []
    rw [LogMessage.logged, hsep, respell_soh, List.append_nil] at hend
    exact hend
  -- the whole copy comes from the whole line
  have hmap : originalOffset (escapeSoh message.frame) message.frame message.frame.length =
      (escapeSoh message.frame).length := by
    have hcomes := comesFrom_originalOffset (escapeSoh message.frame)
      (k := message.frame.length) (by rw [hcopy])
    rw [hcopy] at hcomes
    exact hcomes.eq_length (by rw [hcopy])
  simp only [copyMessage, hline, hcopy, hstop, hmap, List.take_length, Option.bind_eq_bind,
    Option.bind_some, if_true]
  rfl

end LogMessage

namespace LogEntry

/-- An entry as its bytes, its message logged with `^A`. -/
def escaped (entry : LogEntry) : Bytes :=
  entry.before ++ (escapeSoh entry.message.frame ++ entry.lineBreak.bytes)

/-- A message without line feed and `^A`, on a line no longer than a message may be, behind text
no longer than a prefix may be and without a start. -/
structure Escapes (dialect : Dialect) (entry : LogEntry) : Prop where
  written : entry.message.Written dialect
  separator : entry.message.separator = soh
  caretA : ¬ caretABytes <:+: entry.message.frame
  lineFeed : lineFeed ∉ entry.message.frame
  lineBreak : entry.lineBreak ≠ .none
  length_le : (escapeSoh entry.message.frame).length + entry.lineBreak.bytes.length ≤ maxMessageLen
  before_length : entry.before.length ≤ maxPrefixLen
  starts : ∃ separator, StartsAt entry.before (escapeSoh entry.message.frame) separator

variable {entry : LogEntry} {dialect : Dialect}

theorem Escapes.valid (h : entry.Escapes dialect) : entry.message.Valid dialect := by
  have hle := length_le_escapeSoh entry.message.frame
  have hlen := h.length_le
  exact ⟨h.written, by omega⟩

theorem Escapes.startsAt (h : entry.Escapes dialect) :
    StartsAt entry.before (escapeSoh entry.message.frame) .caretA := by
  obtain ⟨separator, hstart⟩ := h.starts
  have hcheck := hstart.check
  rw [h.written.check_escapeSoh] at hcheck
  rwa [Check.start.inj hcheck]

/-- **The first record of a log that opens with a message shown with `^A`** is that of the message
itself, and takes its whole line. -/
theorem Escapes.run_escaped (h : entry.Escapes dialect) (hdialect : dialect.KeepsEnvelope)
    {rest : Bytes} {calls : List (Cutter.Call UInt8)}
    (hfed : Cutter.Call.fed calls = entry.escaped ++ rest) :
    ∃ calls', Cutter.Call.fed calls' = rest ∧
      (LogReader.new dialect none).run calls =
        entry.record :: (LogReader.new dialect none).run calls' := by
  have hsplit : Cutter.Call.fed calls = entry.before ++
      (escapeSoh entry.message.frame ++ (entry.lineBreak.bytes ++ rest)) := by
    rw [hfed, escaped]
    simp
  have hend : ∀ more : Bytes, more = [] ∨ more = [0] →
      findMessage (Tokenizer.new dialect) none
        (escapeSoh entry.message.frame ++ (entry.lineBreak.bytes ++ rest ++ more)) .caretA true =
          some (⟨(escapeSoh entry.message.frame).length,
            (escapeSoh entry.message.frame).length + entry.lineBreak.bytes.length, false⟩,
              some entry.message.frame, soh) := by
    intro more _
    have hcopy := h.valid.copyMessage_escapeSoh h.separator h.caretA h.lineFeed h.lineBreak
      h.length_le (Tokenizer.new dialect) (rest ++ more) true
    rw [findMessage, List.append_assoc, hcopy]
    rfl
  obtain ⟨calls', hfed', hrun⟩ := run_message h.startsAt h.written.hasTwoTags_escapeSoh
    h.before_length (by simp) hend (by simp) hsplit
  refine ⟨calls', ?_, ?_⟩
  · rw [hfed', ← List.drop_drop, List.drop_left, List.drop_left]
  -- The copy is the frame itself, whose index and diagnostics are those of a message logged with
  -- SOH.
  · have hlogged : entry.message.logged = entry.message.frame := by
      rw [LogMessage.logged, h.separator, respell_soh]
    have hindex := (h.valid.tokenizeFields_logged hdialect).2
    have hdiagnose := h.valid.diagnose_logged
    rw [hlogged, h.separator] at hdiagnose
    rw [hrun, record, LogMessage.record, hlogged]
    simp only [Taken.record, takenAt, Option.getD_some, Bool.false_eq_true, if_false,
      List.nil_append, hindex, hdiagnose]

end LogEntry

/-- **The `^A` form reads back as the SOH message.** Behind any text, on a line of its own, a
message shown with `^A` is one record with the text and the message, its fields those of its
frame and nothing to diagnose, and the next record starts after the line break. An offset of a
line's copy is mapped back to the end of the shortest front of the line that it was copied
from. -/
theorem caretA_readBack (dialect : Dialect) (hdialect : dialect.KeepsEnvelope) :
    (∀ entry : LogEntry, entry.Escapes dialect →
      (Tokenizer.new dialect).tokenize entry.message.frame =
          .ok ⟨entry.message.frame, entry.message.index⟩ ∧
        ∀ (rest : Bytes) (calls : List (Cutter.Call UInt8)),
          Cutter.Call.fed calls = entry.escaped ++ rest →
            ∃ calls', Cutter.Call.fed calls' = rest ∧
              (LogReader.new dialect none).run calls =
                { prefixBytes := entry.before
                  message := ⟨entry.message.frame, entry.message.index⟩
                  diagnostics := [] } :: (LogReader.new dialect none).run calls') ∧
    ∀ (logLine : Bytes) (offset : ℕ), offset ≤ (restoreSoh logLine).length →
      let len := originalOffset logLine (restoreSoh logLine) offset
      len ≤ logLine.length ∧
        restoreSoh (logLine.take len) = (restoreSoh logLine).take offset ∧
        ∀ n, restoreSoh (logLine.take n) = (restoreSoh logLine).take offset → len ≤ n := by
  constructor
  · intro entry h
    have hlogged : entry.message.logged = entry.message.frame := by
      rw [LogMessage.logged, h.separator, respell_soh]
    constructor
    · have hlen : entry.message.frame.length ≤ u32Max := h.valid.length_le.trans (by decide)
      have hfields := (h.valid.tokenizeFields_logged hdialect).2
      rw [LogMessage.frame, tokenize_frame _ h.written.parts hlen]
      exact congrArg (fun fields => Except.ok (RawMessage.mk _ fields)) hfields
    · intro rest calls hfed
      obtain ⟨calls', hfed', hrun⟩ := h.run_escaped hdialect hfed
      rw [LogEntry.record, LogMessage.record, hlogged] at hrun
      exact ⟨calls', hfed', hrun⟩
  · intro logLine offset hoffset
    have hcomes := comesFrom_originalOffset logLine hoffset
    exact ⟨hcomes.le.2, hcomes.restoreSoh_take, fun n hn => hcomes.le_of_restoreSoh_take hn⟩

/-- A value that ends in `^`, and a data value that holds SOH. -/
def caretFields : List (Tag × Bytes) :=
  [(35, ascii "B"), (58, ascii "a^"), (95, ascii "4"), (96, ascii "^b\x01A")]

def caretEntry : LogEntry where
  before := ascii "09:30:01 8=^A "
  message :=
    { parts := wireParts (ascii "FIX.4.4") caretFields
      body := caretFields
      separator := soh }
  lineBreak := .crlf

theorem caretEntry_escapes : caretEntry.Escapes .standard where
  written := ⟨wireParts_valid ⟨by decide, by decide, by decide⟩ (by decide +kernel),
    by decide +kernel, by decide +kernel, by decide +kernel, by decide +kernel, separates_soh,
    Or.inl rfl⟩
  separator := rfl
  caretA := by decide +kernel
  lineFeed := by decide +kernel
  lineBreak := by decide
  length_le := by decide +kernel
  before_length := by decide +kernel
  starts := ⟨.caretA, by decide +kernel⟩

theorem caretA_readBack_caretEntry :
    (∃ calls', Cutter.Call.fed calls' = ascii "next" ∧
      (LogReader.new .standard none).run [.next, .feed (caretEntry.escaped ++ ascii "next")] =
        { prefixBytes := caretEntry.before
          message := ⟨caretEntry.message.frame, caretEntry.message.index⟩
          diagnostics := [] } :: (LogReader.new .standard none).run calls') ∧
    ∀ n, restoreSoh ((ascii "^^A\x01b").take n) = (restoreSoh (ascii "^^A\x01b")).take 3 →
      originalOffset (ascii "^^A\x01b") (restoreSoh (ascii "^^A\x01b")) 3 ≤ n := by
  obtain ⟨hread, hoffset⟩ := caretA_readBack .standard ⟨by decide, by decide⟩
  constructor
  · exact (hread caretEntry caretEntry_escapes).2 (ascii "next") _ (by simp [Cutter.Call.fed])
  · have hline : ascii "^^A\x01b" = [caret, caret, 65, soh, 98] := by decide
    have hcopy : restoreSoh (ascii "^^A\x01b") = [caret, soh, soh, 98] := by
      rw [hline, restoreSoh_cons (by decide), restoreSoh_caretA, restoreSoh_cons (by decide),
        restoreSoh_cons (by decide), restoreSoh_nil]
    exact (hoffset (ascii "^^A\x01b") 3 (by rw [hcopy]; decide)).2.2

end Refix.Log
