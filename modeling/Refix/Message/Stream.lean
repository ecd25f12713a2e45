import Refix.Foundation.Incremental
import Refix.Message.Decisions
import Refix.Message.Tokenizer

/-!
# Message Streams

A stream keeps the bytes it is fed and takes one message or one garble after another off
their front. What it reads does not depend on how the bytes were cut into pieces, and no
byte is lost.

Structural garbles make this hard: their skip depends on how much has arrived, so two runs
over the same bytes do not take the same steps. They fall into step again, since both skip
to offsets where a frame may start, and what lies between two such offsets is skipped as
bytes without a BeginString.
-/

namespace Refix.Message

open Refix.Foundation

/-! ## Driving a scanner -/

/-- What one scan takes off the front of the buffer. -/
inductive Scanned where
  | frame (frame : Frame)
  | garbled (reason : GarbledReason) (bytes : Bytes)
  deriving DecidableEq, Repr

/-- The bytes consumed. -/
def Scanned.bytes : Scanned → Bytes
  | .frame read => read.bytes
  | .garbled _ skipped => skipped

/-- One scan of a buffer whose caller consumes what was scanned. -/
def Scanner.take (scanner : Scanner) (buf : Bytes) : Option (Scanned × ℕ) :=
  match scanner.scan buf with
  | .frame frame => some (.frame frame, frame.bytes.length)
  | .incomplete => none
  | .garbled reason skipped => some (.garbled reason (buf.take skipped), skipped)

/-! ## A scan consumes bytes that are there -/

/-- The skip of a garble lies within the buffer. -/
def Halt.Within (buf : Bytes) : Halt → Prop
  | .incomplete => True
  | .garbled _ skipped => 0 < skipped ∧ skipped ≤ buf.length

theorem except_bind_eq_error {ε α β : Type} {x : Except ε α} {f : α → Except ε β} {e : ε}
    (h : x >>= f = .error e) : x = .error e ∨ ∃ a, x = .ok a ∧ f a = .error e := by
  cases x with
  | error e' => exact Or.inl (congrArg Except.error (Except.error.inj h))
  | ok a => exact Or.inr ⟨a, rfl, h⟩

section Made

variable {buf : Bytes} {halt : Halt}

/-- How a scan of `buf` may end without a frame: the garbles behind a trusted extent skip a frame
that is buffered, and all others resynchronise. -/
inductive Halt.Made (buf : Bytes) : Halt → Prop where
  | incomplete : Halt.Made buf .incomplete
  | structural {reason : GarbledReason} (hreason : reason ∉ postStructural) :
      Halt.Made buf (structuralGarble reason buf)
  | post {reason : GarbledReason} {frame : Bytes} (hreason : reason ∈ postStructural)
      (hpos : 0 < frame.length) (hle : frame.length ≤ buf.length) :
      Halt.Made buf (postStructuralGarble reason frame)

theorem parseBeginString_made (h : parseBeginString buf = .error halt) : halt.Made buf := by
  unfold parseBeginString at h
  simp only at h
  split at h
  · cases h
  · split at h <;> cases h
    · exact .incomplete
    · exact .structural (by decide)

theorem parseBodyLength_made {start : ℕ} (h : parseBodyLength buf start = .error halt) :
    halt.Made buf := by
  unfold parseBodyLength at h
  simp only at h
  split at h
  · cases h
    exact .incomplete
  split at h
  · cases h
    exact .structural (by decide)
  split at h
  · split at h <;> cases h
    · exact .incomplete
    · exact .structural (by decide)
  · split at h
    · cases h
      exact .structural (by decide)
    · split at h <;> cases h
      exact .structural (by decide)

theorem validatedFrameLen_made {start bodyLength cap : ℕ}
    (h : validatedFrameLen buf start bodyLength cap = .error halt) : halt.Made buf := by
  unfold validatedFrameLen at h
  simp only at h
  split at h
  · cases h
    exact .structural (by decide)
  · split at h <;> cases h
    exact .incomplete

theorem validatedFrameLen_bounds {start bodyLength cap frameLen : ℕ}
    (h : validatedFrameLen buf start bodyLength cap = .ok frameLen) :
    0 < frameLen ∧ frameLen ≤ buf.length := by
  unfold validatedFrameLen at h
  simp only at h
  split at h
  · cases h
  · split at h
    · cases h
    · next hfits =>
      obtain rfl := Except.ok.inj h
      simp only [saturatingAdd, checksumFieldLen, usizeMax] at hfits ⊢
      omega

theorem verifyTrailerStart_made {checksumStart : ℕ}
    (h : verifyTrailerStart buf checksumStart = .error halt) : halt.Made buf := by
  unfold verifyTrailerStart at h
  split at h <;> cases h
  exact .structural (by decide)

theorem verifyChecksum_made {frame : Bytes} {checksumStart : ℕ} (hpos : 0 < frame.length)
    (hle : frame.length ≤ buf.length)
    (h : verifyChecksum frame checksumStart = .error halt) : halt.Made buf := by
  unfold verifyChecksum at h
  simp only at h
  split at h
  · cases h
    exact .post (by decide) hpos hle
  · split at h <;> cases h
    exact .post (by decide) hpos hle

theorem parseMsgType_made {frame : Bytes} {bodyStart bodyLength : ℕ} (hpos : 0 < frame.length)
    (hle : frame.length ≤ buf.length)
    (h : parseMsgType frame bodyStart bodyLength = .error halt) : halt.Made buf := by
  unfold parseMsgType at h
  simp only at h
  split at h
  · cases h
    exact .post (by decide) hpos hle
  · split at h <;> cases h
    exact .post (by decide) hpos hle

theorem tryScan_made {scanner : Scanner} (h : scanner.tryScan buf = .error halt) :
    halt.Made buf := by
  unfold Scanner.tryScan at h
  split at h
  · -- the checks in order, each reached through the results of those before it
    rcases except_bind_eq_error h with h | ⟨⟨beginString, start⟩, -, h⟩
    · exact parseBeginString_made h
    rcases except_bind_eq_error h with h | ⟨⟨bodyLength, bodyStart⟩, -, h⟩
    · exact parseBodyLength_made h
    rcases except_bind_eq_error h with h | ⟨frameLen, hframe, h⟩
    · exact validatedFrameLen_made h
    obtain ⟨hpos, hle⟩ := validatedFrameLen_bounds hframe
    have hlen : (buf.take frameLen).length = frameLen := by
      rw [List.length_take]
      omega
    rcases except_bind_eq_error h with h | ⟨_, -, h⟩
    · exact verifyTrailerStart_made h
    rcases except_bind_eq_error h with h | ⟨_, -, h⟩
    · exact verifyChecksum_made (by omega) (by omega) h
    rcases except_bind_eq_error h with h | ⟨msgType, -, h⟩
    · exact parseMsgType_made (by omega) (by omega) h
    · cases h
  · split at h <;> cases h
    · exact .incomplete
    · exact .structural (by decide)

/-- A garble is none of the bytes that may still become `8=FIX`. -/
theorem not_isPrefix_of_tryScan {scanner : Scanner} {reason : GarbledReason} {skipped : ℕ}
    (h : scanner.tryScan buf = .error (.garbled reason skipped)) :
    ¬ buf <+: beginStringPrefix := by
  intro hbuf
  have hscan := scan_of_isPrefix_beginStringPrefix scanner hbuf
  rw [Scanner.scan, h] at hscan
  cases hscan

/-- A scan that ends without a frame waits, or skips at least one byte it was given. -/
theorem tryScan_within {scanner : Scanner} (h : scanner.tryScan buf = .error halt) :
    halt.Within buf := by
  cases tryScan_made h with
  | incomplete => trivial
  | structural hreason =>
    obtain ⟨hpos, hle, -⟩ := findNextBeginString_spec (not_isPrefix_of_tryScan h)
    exact ⟨hpos, hle⟩
  | post hreason hpos hle => exact ⟨hpos, hle⟩

end Made

/-- What a scan takes is the front of the buffer, and not empty. -/
theorem take_eq_some {scanner : Scanner} {buf : Bytes} {scanned : Scanned} {n : ℕ}
    (h : scanner.take buf = some (scanned, n)) :
    0 < n ∧ n ≤ buf.length ∧ scanned.bytes = buf.take n := by
  unfold Scanner.take at h
  split at h
  · next frame hscan =>
    obtain ⟨rfl, rfl⟩ := Prod.mk.inj (Option.some.inj h)
    obtain ⟨parts, -, ⟨rest, hbytes⟩, -, hframe⟩ :=
      exists_parts_of_tryScan (scan_eq_frame_iff.mp hscan)
    have hread : frame.bytes = parts.bytes := by rw [hframe, FrameParts.frame]
    rw [Scanned.bytes, hread, ← hbytes]
    have := parts.length_bytes
    refine ⟨by omega, ?_, ?_⟩
    · rw [List.length_append]
      omega
    · rw [List.take_left]
  · cases h
  · next reason skipped hscan =>
    obtain ⟨rfl, rfl⟩ := Prod.mk.inj (Option.some.inj h)
    -- A garble skips bytes of the buffer, and at least one.
    have hwithin : (Halt.garbled reason skipped).Within buf := by
      unfold Scanner.scan at hscan
      split at hscan
      · cases hscan
      · next halt htry =>
        cases halt with
        | incomplete => cases hscan
        | garbled reason' skipped' =>
          cases hscan
          exact tryScan_within htry
    exact ⟨hwithin.1, hwithin.2, rfl⟩

/-- A scanner as a reader of pieces. -/
def Scanner.cutter (scanner : Scanner) : Cutter UInt8 Scanned where
  cut := scanner.take
  pos := fun h => (take_eq_some h).1
  le := fun h => (take_eq_some h).2.1

/-! ## Where runs fall into step -/

/-- What a caller sees of a stream, and where: messages, and garbles that are not merely
bytes without a BeginString. -/
inductive Event (Message : Type) where
  | message (message : Message)
  | garbled (reason : GarbledReason)
  deriving DecidableEq, Repr

def garbledEvents {Message : Type} (offset : ℕ) (reason : GarbledReason) :
    List (ℕ × Event Message) :=
  if reason = .missingBeginString then [] else [(offset, .garbled reason)]

def Scanned.events (offset : ℕ) : Scanned → List (ℕ × Event Frame)
  | .frame read => [(offset, .message read)]
  | .garbled reason _ => garbledEvents offset reason

/-- Behind a skip that would have been longer, the next skip makes up for the difference. -/
theorem findNextBeginString_drop {buf : Bytes} (hbuf : ¬ buf <+: beginStringPrefix) {n : ℕ}
    (hpos : 0 < n) (hlt : n < findNextBeginString buf) :
    ¬ Viable (buf.drop n) ∧
      findNextBeginString (buf.drop n) = findNextBeginString buf - n := by
  obtain ⟨-, hle, hviable, hbefore⟩ := findNextBeginString_spec hbuf
  have hnot := hbefore n hpos hlt
  refine ⟨hnot, ?_⟩
  obtain ⟨hpos', -, hviable', hbefore'⟩ :=
    findNextBeginString_spec (fun hpre => hnot (Or.inr hpre))
  rw [List.drop_drop] at hviable'
  rcases Nat.lt_trichotomy (n + findNextBeginString (buf.drop n)) (findNextBeginString buf)
    with hlt' | heq | hgt
  · exact absurd hviable' (hbefore _ (by omega) hlt')
  · omega
  · have hnear := hbefore' (findNextBeginString buf - n) (by omega) (by omega)
    rw [List.drop_drop, show n + (findNextBeginString buf - n) = findNextBeginString buf by
      omega] at hnear
    exact absurd hviable hnear

/-- **A scan made early** changes neither what is read of the rest nor what is left of it. -/
theorem cutter_early (scanner : Scanner) : scanner.cutter.Early Scanned.events := by
  intro buf scanned n hcut offset more
  obtain ⟨hpos, hle, -⟩ := take_eq_some hcut
  have hpre : buf <+: buf ++ more := List.prefix_append buf more
  have hdrop : (buf ++ more).drop n = buf.drop n ++ more := List.drop_append_of_le_length hle
  have hext := scan_extends scanner hpre
  -- a scan that takes the same off the longer buffer
  have hsame : scanner.take (buf ++ more) = some (scanned, n) →
      Cutter.observe Scanned.events offset (scanner.cutter.drain (buf ++ more)).1 =
          scanned.events offset ++ Cutter.observe Scanned.events (offset + n)
            (scanner.cutter.drain (buf.drop n ++ more)).1 ∧
        (scanner.cutter.drain (buf ++ more)).2 =
          (scanner.cutter.drain (buf.drop n ++ more)).2 := by
    intro htake
    rw [Cutter.drain_of_cut_eq_some (c := scanner.cutter) htake, hdrop]
    exact ⟨rfl, rfl⟩
  have htake : scanner.take buf = some (scanned, n) := hcut
  unfold Scanner.take at htake
  cases hscan : scanner.scan buf with
  | incomplete => simp [hscan] at htake
  | frame frame =>
    simp only [hscan] at htake hext
    apply hsame
    simp only [Scanner.take, hext, htake]
  | garbled reason skipped =>
    simp only [hscan, Option.some.injEq, Prod.mk.injEq] at htake hext
    obtain ⟨rfl, rfl⟩ := htake
    have hbytes : (buf ++ more).take skipped = buf.take skipped :=
      take_eq_take_of_isPrefix hpre hle
    rcases hext with hext | ⟨hskip, hbuf, hext⟩
    · apply hsame
      simp only [Scanner.take, hext, hbytes]
    have hgrow := findNextBeginString_le_of_isPrefix hpre hbuf
    rw [← hskip] at hgrow
    rcases hgrow.eq_or_lt with heq | hlt
    · apply hsame
      simp only [Scanner.take, hext, ← heq, hbytes]
    · -- the longer buffer skips further at once, this one with a second, unobserved garble
      have hbuf' : ¬ buf ++ more <+: beginStringPrefix := fun h => hbuf (hpre.trans h)
      obtain ⟨hnot, hmore⟩ := findNextBeginString_drop hbuf' hpos hlt
      have hscan' := scan_of_not_viable scanner hnot
      have hfar : scanner.cutter.cut (buf ++ more) = some (.garbled reason
          ((buf ++ more).take (findNextBeginString (buf ++ more))),
          findNextBeginString (buf ++ more)) := by
        simp only [Scanner.cutter, Scanner.take, hext]
      have hnear : scanner.cutter.cut ((buf ++ more).drop skipped) = some
          (.garbled .missingBeginString (((buf ++ more).drop skipped).take
            (findNextBeginString (buf ++ more) - skipped)),
          findNextBeginString (buf ++ more) - skipped) := by
        simp only [Scanner.cutter, Scanner.take, hscan', hmore]
      rw [← hdrop, Cutter.drain_of_cut_eq_some hfar, Cutter.drain_of_cut_eq_some hnear]
      simp only [List.drop_drop, Cutter.observe, Scanned.events, garbledEvents, if_true,
        List.nil_append, Nat.add_assoc, Nat.add_sub_cancel' hgrow]
      exact ⟨trivial, trivial⟩

/-! ## The stream -/

/-- One step of reading the stream. -/
inductive StreamOutcome where
  | message (message : RawMessage)
  | garbled (reason : GarbledReason) (bytes : Bytes)
  | incomplete
  deriving DecidableEq, Repr

/-- Reads a stream of FIX messages from incrementally fed bytes. -/
structure MessageStream where
  tokenizer : Tokenizer
  scanner : Scanner
  buf : Bytes

def MessageStream.new (dialect : Dialect) : MessageStream :=
  ⟨Tokenizer.new dialect, Scanner.default, []⟩

def MessageStream.feed (stream : MessageStream) (bytes : Bytes) : MessageStream :=
  { stream with buf := stream.buf ++ bytes }

/-- Consumes and returns the next outcome at the front of the buffer. -/
def MessageStream.nextMessage (stream : MessageStream) : StreamOutcome × MessageStream :=
  match stream.scanner.scan stream.buf with
  | .frame frame =>
    let len := frame.bytes.length
    let bytes := stream.buf.take len
    let fields := stream.tokenizer.tokenizeFields bytes soh
    (.message ⟨bytes, fields⟩, { stream with buf := stream.buf.drop len })
  | .incomplete => (.incomplete, stream)
  | .garbled reason skipped =>
    (.garbled reason (stream.buf.take skipped), { stream with buf := stream.buf.drop skipped })

/-- The outcome a stream makes of what its scanner took. -/
def Tokenizer.outcome (tokenizer : Tokenizer) : Scanned → StreamOutcome
  | .frame read => .message ⟨read.bytes, tokenizer.tokenizeFields read.bytes soh⟩
  | .garbled reason bytes => .garbled reason bytes

/-- The next message is what the scanner takes off the buffer, tokenized. -/
theorem nextMessage_eq (stream : MessageStream) :
    stream.nextMessage = match stream.scanner.take stream.buf with
      | none => (.incomplete, stream)
      | some (scanned, n) =>
        (stream.tokenizer.outcome scanned, { stream with buf := stream.buf.drop n }) := by
  cases htake : stream.scanner.take stream.buf with
  | none =>
    unfold Scanner.take at htake
    unfold MessageStream.nextMessage
    split at htake
    · cases htake
    · rfl
    · cases htake
  | some piece =>
    obtain ⟨scanned, n⟩ := piece
    obtain ⟨-, -, hbytes⟩ := take_eq_some htake
    unfold Scanner.take at htake
    unfold MessageStream.nextMessage
    split at htake
    · obtain ⟨rfl, rfl⟩ := Prod.mk.inj (Option.some.inj htake)
      rw [Scanned.bytes] at hbytes
      simp only [Tokenizer.outcome, ← hbytes]
    · cases htake
    · obtain ⟨rfl, rfl⟩ := Prod.mk.inj (Option.some.inj htake)
      rfl

theorem nextMessage_lt {stream : MessageStream} (h : stream.nextMessage.1 ≠ .incomplete) :
    stream.nextMessage.2.buf.length < stream.buf.length := by
  rw [nextMessage_eq] at h ⊢
  cases htake : stream.scanner.take stream.buf with
  | none => simp [htake] at h
  | some piece =>
    obtain ⟨hpos, hle, -⟩ := take_eq_some htake
    simp only [List.length_drop]
    omega

/-- Calls `nextMessage` until it is incomplete. -/
def MessageStream.drain (stream : MessageStream) : List StreamOutcome × MessageStream :=
  if _h : stream.nextMessage.1 = .incomplete then ([], stream.nextMessage.2)
  else
    let rest := stream.nextMessage.2.drain
    (stream.nextMessage.1 :: rest.1, rest.2)
termination_by stream.buf.length
decreasing_by exact nextMessage_lt _h

/-- The outcomes a list of calls returns until the stream is drained at the end. -/
def MessageStream.run : List (Cutter.Call UInt8) → MessageStream →
    List StreamOutcome × MessageStream
  | [], stream => stream.drain
  | .feed bytes :: calls, stream => run calls (stream.feed bytes)
  | .next :: calls, stream =>
    let rest := run calls stream.nextMessage.2
    if stream.nextMessage.1 = .incomplete then rest else (stream.nextMessage.1 :: rest.1, rest.2)

/-- The bytes an outcome consumed. -/
def StreamOutcome.bytes : StreamOutcome → Bytes
  | .message read => read.bytes
  | .garbled _ skipped => skipped
  | .incomplete => []

def StreamOutcome.events (offset : ℕ) : StreamOutcome → List (ℕ × Event RawMessage)
  | .message read => [(offset, .message read)]
  | .garbled reason _ => garbledEvents offset reason
  | .incomplete => []

/-! ## A stream runs its scanner -/

theorem outcome_ne_incomplete (tokenizer : Tokenizer) (scanned : Scanned) :
    tokenizer.outcome scanned ≠ .incomplete := by
  cases scanned <;> simp [Tokenizer.outcome]

@[simp] theorem bytes_outcome (tokenizer : Tokenizer) (scanned : Scanned) :
    (tokenizer.outcome scanned).bytes = scanned.bytes := by
  cases scanned <;> rfl

/-- The outcomes a tokenizer makes of the pieces of a scanner, over what is left. -/
def MessageStream.render (stream : MessageStream) (result : List (Scanned × ℕ) × Bytes) :
    List StreamOutcome × MessageStream :=
  (result.1.map fun piece => stream.tokenizer.outcome piece.1, { stream with buf := result.2 })

theorem drain_eq_render (stream : MessageStream) :
    stream.drain = stream.render (stream.scanner.cutter.drain stream.buf) := by
  induction hlen : stream.buf.length using Nat.strong_induction_on generalizing stream with
  | _ len ih =>
    cases htake : stream.scanner.take stream.buf with
    | none =>
      have hcut : stream.scanner.cutter.cut stream.buf = none := htake
      have hnext : stream.nextMessage = (.incomplete, stream) := by rw [nextMessage_eq, htake]
      rw [MessageStream.drain, Cutter.drain_of_cut_eq_none hcut]
      simp [hnext, MessageStream.render]
    | some piece =>
      obtain ⟨scanned, n⟩ := piece
      have hcut : stream.scanner.cutter.cut stream.buf = some (scanned, n) := htake
      have hnext : stream.nextMessage =
          (stream.tokenizer.outcome scanned, { stream with buf := stream.buf.drop n }) := by
        rw [nextMessage_eq, htake]
      obtain ⟨hpos, hle, -⟩ := take_eq_some htake
      have hrest := ih (stream.buf.drop n).length (by simp only [List.length_drop]; omega)
        { stream with buf := stream.buf.drop n } rfl
      rw [MessageStream.drain, Cutter.drain_of_cut_eq_some hcut]
      simp only [hnext, outcome_ne_incomplete, dite_false, hrest]
      rfl

theorem run_eq_render (calls : List (Cutter.Call UInt8)) (stream : MessageStream) :
    stream.run calls = stream.render (stream.scanner.cutter.run calls stream.buf) := by
  induction calls generalizing stream with
  | nil => exact drain_eq_render stream
  | cons call calls ih =>
    cases call with
    | feed bytes => exact ih (stream.feed bytes)
    | next =>
      simp only [MessageStream.run, Cutter.run, nextMessage_eq]
      cases htake : stream.scanner.take stream.buf with
      | none =>
        have hcut : stream.scanner.cutter.cut stream.buf = none := htake
        simp only [hcut, if_true]
        exact ih stream
      | some piece =>
        obtain ⟨scanned, n⟩ := piece
        have hcut : stream.scanner.cutter.cut stream.buf = some (scanned, n) := htake
        simp only [hcut, outcome_ne_incomplete, if_false, ih]
        rfl

/-! ## Chunk independence -/

theorem scanned_bytes_of_cut (scanner : Scanner) (buf : Bytes) (scanned : Scanned) (n : ℕ)
    (h : scanner.cutter.cut buf = some (scanned, n)) : scanned.bytes = buf.take n :=
  (take_eq_some h).2.2

/-- Outcomes with the number of bytes each consumed. -/
def sized {α : Type} (bytes : α → Bytes) (outcomes : List α) : List (α × ℕ) :=
  outcomes.map fun outcome => (outcome, (bytes outcome).length)

/-- What a tokenizer makes of an event of its scanner. -/
def Tokenizer.event (tokenizer : Tokenizer) : ℕ × Event Frame → ℕ × Event RawMessage
  | (offset, .message read) =>
    (offset, .message ⟨read.bytes, tokenizer.tokenizeFields read.bytes soh⟩)
  | (offset, .garbled reason) => (offset, .garbled reason)

theorem events_outcome (tokenizer : Tokenizer) (offset : ℕ) (scanned : Scanned) :
    (tokenizer.outcome scanned).events offset = (scanned.events offset).map tokenizer.event := by
  cases scanned with
  | frame read => rfl
  | garbled reason skipped =>
    simp only [Tokenizer.outcome, StreamOutcome.events, Scanned.events, garbledEvents]
    split <;> rfl

/-- The events of a stream are those of its scanner, tokenized. -/
theorem observe_outcomes (tokenizer : Tokenizer) {pieces : List (Scanned × ℕ)}
    (hsized : ∀ piece ∈ pieces, piece.2 = piece.1.bytes.length) (offset : ℕ) :
    Cutter.observe StreamOutcome.events offset (sized StreamOutcome.bytes
        (pieces.map fun piece => tokenizer.outcome piece.1)) =
      (Cutter.observe Scanned.events offset pieces).map tokenizer.event := by
  induction pieces generalizing offset with
  | nil => rfl
  | cons piece pieces ih =>
    obtain ⟨hpiece, hpieces⟩ := List.forall_mem_cons.mp hsized
    have hrest := ih hpieces (offset + piece.2)
    simp only [sized, List.map_cons, List.map_map] at hrest ⊢
    simp only [Cutter.observe, List.map_append, events_outcome, bytes_outcome, ← hpiece, hrest]

theorem observe_run_eq (stream : MessageStream) (calls : List (Cutter.Call UInt8)) :
    Cutter.observe StreamOutcome.events 0 (sized StreamOutcome.bytes (stream.run calls).1) =
      (Cutter.observe Scanned.events 0 (stream.scanner.cutter.run calls stream.buf).1).map
        stream.tokenizer.event := by
  rw [run_eq_render]
  apply observe_outcomes
  apply Cutter.forall_mem_run
  intro buf scanned n hcut
  have hle := stream.scanner.cutter.le hcut
  rw [scanned_bytes_of_cut _ _ _ _ hcut, List.length_take, Nat.min_eq_left hle]

/-- A scanner reads the same events and leaves the same bytes however its buffer is fed, and
loses nothing. -/
theorem scanner_run_feed (scanner : Scanner) (calls : List (Cutter.Call UInt8)) :
    let run := scanner.cutter.run calls []
    let whole := scanner.cutter.run [.feed (Cutter.Call.fed calls)] []
    Cutter.observe Scanned.events 0 run.1 = Cutter.observe Scanned.events 0 whole.1 ∧
      run.2 = whole.2 ∧
      (run.1.map (·.1.bytes)).flatten ++ run.2 = Cutter.Call.fed calls := by
  obtain ⟨hobs, hleft⟩ := Cutter.observe_run (cutter_early scanner) calls [] 0
  exact ⟨hobs, hleft, Cutter.flatten_run (scanned_bytes_of_cut scanner) calls []⟩

/-- What a stream has returned and what it keeps are the bytes it was fed. -/
theorem stream_run_bytes (dialect : Dialect) (calls : List (Cutter.Call UInt8)) :
    let run := (MessageStream.new dialect).run calls
    (run.1.map StreamOutcome.bytes).flatten ++ run.2.buf = Cutter.Call.fed calls := by
  obtain ⟨-, -, hbytes⟩ := scanner_run_feed Scanner.default calls
  rw [run_eq_render]
  simpa [MessageStream.render, Function.comp_def, MessageStream.new] using hbytes

/-- **A stream does not depend on chunking and loses no byte**, and neither does a scanner
driven the same way: whatever calls feed the bytes, the messages and the garbles with their
offsets are those of the bytes fed at once, the same bytes are left, and what was consumed
and what is left are the bytes fed. -/
theorem stream_run_feed (dialect : Dialect) (scanner : Scanner)
    (calls : List (Cutter.Call UInt8)) :
    (let run := (MessageStream.new dialect).run calls
     let whole := (MessageStream.new dialect).run [.feed (Cutter.Call.fed calls)]
     Cutter.observe StreamOutcome.events 0 (sized StreamOutcome.bytes run.1) =
         Cutter.observe StreamOutcome.events 0 (sized StreamOutcome.bytes whole.1) ∧
       run.2.buf = whole.2.buf ∧
       (run.1.map StreamOutcome.bytes).flatten ++ run.2.buf = Cutter.Call.fed calls) ∧
    (let run := scanner.cutter.run calls []
     let whole := scanner.cutter.run [.feed (Cutter.Call.fed calls)] []
     Cutter.observe Scanned.events 0 run.1 = Cutter.observe Scanned.events 0 whole.1 ∧
       run.2 = whole.2 ∧
       (run.1.map (·.1.bytes)).flatten ++ run.2 = Cutter.Call.fed calls) := by
  refine ⟨?_, scanner_run_feed scanner calls⟩
  obtain ⟨hobs, hleft, -⟩ := scanner_run_feed Scanner.default calls
  refine ⟨?_, ?_, stream_run_bytes dialect calls⟩
  · rw [observe_run_eq, observe_run_eq]
    exact congrArg _ hobs
  · rw [run_eq_render, run_eq_render]
    exact hleft

end Refix.Message
