import Refix.Log.Closing

/-!
# The Envelope Law

Whatever the body of a message holds, its index opens with BeginString, BodyLength and MsgType
and closes with CheckSum, in the tokenizer, the stream and the log reader, unless a data value
overruns the trailer.
-/

namespace Refix.Log

open Refix.Foundation Refix.Message

/-- **The envelope law.** A message that the tokenizer or a stream returns is enveloped exactly
when no data value longer than a checksum overruns its trailer; a record without Truncated
closes with CheckSum exactly when it is not misread. -/
theorem envelope_iff (dialect : Dialect) (hdialect : dialect.KeepsEnvelope) :
    (∀ bytes message, (Tokenizer.new dialect).tokenize bytes = .ok message →
      ∃ frame, Scanner.scan ⟨u32Max⟩ bytes = .frame frame ∧
        (Enveloped frame message ↔ ¬ ∃ tagBytes len,
          (Tokenizer.new dialect).Overruns message.bytes soh tagBytes len ∧ 3 < len)) ∧
    (∀ (stream : MessageStream) (message : RawMessage),
      stream.tokenizer = Tokenizer.new dialect → stream.scanner = Scanner.default →
      stream.nextMessage.1 = .message message →
      ∃ frame, stream.scanner.scan stream.buf = .frame frame ∧
        (Enveloped frame message ↔ ¬ ∃ tagBytes len,
          (Tokenizer.new dialect).Overruns message.bytes soh tagBytes len ∧ 3 < len)) ∧
    ∀ (reader : LogReader) (atEnd : Bool) (taken : Taken),
      reader.tokenizer = Tokenizer.new dialect →
      (reader.takeMessage atEnd).1 = some taken →
      ∃ record, (reader.read atEnd).1 = some record ∧
        (LogDiagnostic.truncated ∉ record.diagnostics →
          (record.message.fields.getLast?.map (·.tag) = some checksumTag ↔
            ¬ Misreads (Tokenizer.new dialect) record.message.bytes taken.separator)) := by
  refine ⟨?_, ?_, ?_⟩
  · intro bytes message h
    obtain ⟨parts, hvalid, rfl, hlen, rfl⟩ := tokenize_eq_ok h
    refine ⟨parts.frame, ?_, enveloped_iff hdialect hvalid hlen⟩
    have hscan : Scanner.tryScan ⟨u32Max⟩ (parts.bytes ++ []) = .ok parts.frame :=
      tryScan_bytes_append hvalid hlen []
    rw [List.append_nil] at hscan
    exact scan_eq_frame_iff.mpr hscan
  · intro stream message htokenizer hscanner h
    obtain ⟨parts, hvalid, -, hcap, hscan, rfl⟩ := nextMessage_eq_message h
    rw [hscanner] at hcap
    rw [htokenizer]
    exact ⟨parts.frame, hscan, enveloped_iff hdialect hvalid (hcap.trans (by decide))⟩
  · intro reader atEnd taken htokenizer h
    refine ⟨taken.record reader.tokenizer, ?_, ?_⟩
    · show (reader.takeMessage atEnd).1.map (Taken.record reader.tokenizer) = _
      rw [h, Option.map_some]
    · intro hwhole
      obtain ⟨-, hcloses⟩ := record_closes_iff h hwhole
      rw [htokenizer] at hcloses ⊢
      exact hcloses

/-- A frame whose last body field is empty, with a data length before it that counts the
trailer's bytes. -/
def overrunFrame : Bytes :=
  (ascii "8=FIX.4.4|9=14|35=0|95=7|96=|10=099|").map fun b => if b = 124 then soh else b

theorem envelope_iff_overrunFrame :
    (∃ tagBytes len, (Tokenizer.new Dialect.standard).Overruns overrunFrame soh tagBytes len ∧
      3 < len) ∧
    Misreads (Tokenizer.new Dialect.standard) overrunFrame soh := by
  obtain ⟨htokenize, -, hread⟩ := envelope_iff Dialect.standard ⟨by decide, by decide⟩
  constructor
  · obtain ⟨frame, -, hiff⟩ := htokenize overrunFrame
      ⟨overrunFrame, (Tokenizer.new Dialect.standard).tokenizeFields overrunFrame soh⟩
      (by decide +kernel)
    by_contra hnot
    have hten : _ = some 10 := congrArg (Option.map Prod.fst) (hiff.mpr hnot).checksum
    exact absurd hten (by decide +kernel)
  · let reader := (LogReader.new Dialect.standard none).feed overrunFrame
    have hmessage : (reader.takeMessage true).1.map (·.separator) = some soh := by decide +kernel
    have hrecord : (reader.read true).1.map (fun record => (record.message.bytes,
        decide (LogDiagnostic.truncated ∈ record.diagnostics),
        record.message.fields.getLast?.map (·.tag))) = some (overrunFrame, false, some 96) := by
      decide +kernel
    obtain ⟨taken, htaken, hsoh⟩ := Option.map_eq_some_iff.mp hmessage
    obtain ⟨record, hsome, hiff⟩ := hread reader true taken rfl htaken
    rw [hsome, Option.map_some, Option.some.injEq, Prod.mk.injEq, Prod.mk.injEq] at hrecord
    obtain ⟨hbytes, hwhole, hlast⟩ := hrecord
    have hclosed := hiff (of_decide_eq_false hwhole)
    rw [hlast, hbytes, hsoh] at hclosed
    by_contra hnot
    exact absurd (hclosed.mpr hnot) (by decide)

theorem overrunFrame_not_enveloped :
    ((Tokenizer.new Dialect.standard).tokenize overrunFrame).toOption.map
        (·.entries.getLast?) = some (some (96, soh :: ascii "10=099")) ∧
      ((LogReader.new Dialect.standard none).readParts [overrunFrame]).map
        (fun record => (record.message.fields.getLast?.map (·.tag),
          decide (LogDiagnostic.truncated ∈ record.diagnostics))) = [(some 96, false)] := by
  decide +kernel

end Refix.Log
