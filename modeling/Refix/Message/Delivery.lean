import Refix.Message.Checked
import Refix.Message.Stream
import Refix.Message.Envelope

/-!
# What a Stream Delivers

Frames reach a stream among bytes that are no frames: half a message left over by a lost
connection, an operator's note, a start that turns out malformed. `Carries` says how such a
stream is made up, by the grammar of frames alone and without running the stream. Every frame
it carries is delivered, at its offset and as the tokenizer reads it on its own, however the
bytes arrive, and what lies between the frames is returned as it came.
-/

namespace Refix.Message

open Refix.Foundation

variable {scanner : Scanner} {noise after more bytes cut : Bytes}

/-! ## Noise -/

/-- Bytes in front of `after` that hold no frame and hide none: wherever one may start among
them, the scanner garbles, and what it skips ends before `after`. -/
def Scanner.Discards (scanner : Scanner) (noise after : Bytes) : Prop :=
  ∀ k < noise.length, Viable ((noise ++ after).drop k) →
    ∃ reason skipped, scanner.scan ((noise ++ after).drop k) = .garbled reason skipped ∧
      k + skipped ≤ noise.length

/-- A garble that resynchronises stops where the noise ends, if a frame may start there. -/
theorem findNextBeginString_le {buf : Bytes} {n : ℕ} (hbuf : ¬ buf <+: beginStringPrefix)
    (hpos : 0 < n) (hviable : Viable (buf.drop n)) : findNextBeginString buf ≤ n := by
  obtain ⟨-, -, -, hbefore⟩ := findNextBeginString_spec hbuf
  by_contra hlt
  exact hbefore n hpos (not_le.mp hlt) hviable

/-- Noise is taken off the front garble by garble, whatever follows behind `after`. -/
theorem Scanner.Discards.scan (h : scanner.Discards noise after) (hafter : Viable (after ++ more))
    {k : ℕ} (hk : k < noise.length) :
    ∃ reason skipped, scanner.scan ((noise ++ (after ++ more)).drop k) = .garbled reason skipped ∧
      k + skipped ≤ noise.length := by
  have hlonger : (noise ++ (after ++ more)).drop k = (noise ++ after).drop k ++ more := by
    rw [← List.append_assoc, List.drop_append_of_le_length]
    simp only [List.length_append]
    omega
  have hpre : (noise ++ after).drop k <+: (noise ++ (after ++ more)).drop k := by
    rw [hlonger]
    exact List.prefix_append _ _
  -- behind the noise a frame may start, so no resynchronising skip goes further
  have hnear : ¬ (noise ++ (after ++ more)).drop k <+: beginStringPrefix →
      k + findNextBeginString ((noise ++ (after ++ more)).drop k) ≤ noise.length := by
    intro hbuf
    have hle := findNextBeginString_le (n := noise.length - k) hbuf (by omega) (by
      rw [List.drop_drop, Nat.add_sub_cancel' hk.le, List.drop_left]
      exact hafter)
    omega
  by_cases hviable : Viable ((noise ++ after).drop k)
  · obtain ⟨reason, skipped, hscan, hwithin⟩ := h k hk hviable
    have hext := scan_extends scanner hpre
    rw [hscan] at hext
    rcases hext with hsame | ⟨-, hbuf, hgarbled⟩
    · exact ⟨reason, skipped, hsame, hwithin⟩
    · exact ⟨reason, _, hgarbled, hnear fun hshort => hbuf (hpre.trans hshort)⟩
  · have hnot : ¬ Viable ((noise ++ (after ++ more)).drop k) := fun hv =>
      hviable (hv.of_isPrefix hpre)
    exact ⟨_, _, scan_of_not_viable scanner hnot, hnear fun hshort => hnot (Or.inr hshort)⟩

/-- A proper part of the front of a frame is waited for. -/
theorem scan_part {parts : FrameParts} (hvalid : parts.Valid)
    (hcap : parts.bytes.length ≤ scanner.maxFrameSize) (hpart : cut <+: parts.bytes)
    (hne : cut ≠ parts.bytes) : scanner.scan cut = .incomplete := by
  have hwhole := scan_eq_frame_iff.mpr (tryScan_bytes_append hvalid hcap [])
  rw [List.append_nil] at hwhole
  cases hscan : scanner.scan cut with
  | incomplete => rfl
  | frame short =>
    -- the part would hold the whole frame
    have hlonger := scan_frame_of_isPrefix hpart hscan
    rw [hwhole] at hlonger
    cases hlonger
    obtain ⟨parts', -, hpre, -, hframe⟩ := exists_parts_of_tryScan (scan_eq_frame_iff.mp hscan)
    have hbytes : parts.bytes = parts'.bytes := congrArg Frame.bytes hframe
    rw [← hbytes] at hpre
    exact absurd (hpart.eq_of_length_le hpre.length_le) hne
  | garbled reason skipped =>
    obtain ⟨skipped', hgarbled, -⟩ := scan_garbled_of_isPrefix hpart hscan
    rw [hwhole] at hgarbled
    cases hgarbled

/-! ## Streams of frames -/

/-- How bytes from `offset` on are made up of noise and frames, the frames with their offsets,
up to a message cut short that is still to arrive. -/
inductive Scanner.Carries (scanner : Scanner) :
    ℕ → Bytes → List (ℕ × FrameParts) → Bytes → Prop where
  | rest {offset : ℕ} {noise cut : Bytes} {parts : FrameParts} (valid : parts.Valid)
      (fits : parts.bytes.length ≤ scanner.maxFrameSize) (part : cut <+: parts.bytes)
      (short : cut ≠ parts.bytes) (discards : scanner.Discards noise cut) :
      Carries scanner offset (noise ++ cut) [] cut
  | frame {offset : ℕ} {noise bytes cut : Bytes} {parts : FrameParts}
      {sent : List (ℕ × FrameParts)} (valid : parts.Valid)
      (fits : parts.bytes.length ≤ scanner.maxFrameSize)
      (discards : scanner.Discards noise parts.bytes)
      (carries : Carries scanner (offset + noise.length + parts.bytes.length) bytes sent cut) :
      Carries scanner offset (noise ++ (parts.bytes ++ bytes))
        ((offset + noise.length, parts) :: sent) cut

/-- The messages among events, with their offsets. -/
def delivered {Message : Type} (events : List (ℕ × Event Message)) : List (ℕ × Message) :=
  events.filterMap fun event =>
    match event.2 with
    | .message message => some (event.1, message)
    | .garbled _ => none

/-- A piece that is no frame. -/
def Scanned.IsGarble (scanned : Scanned) : Prop :=
  ∃ reason skipped, scanned = .garbled reason skipped

theorem delivered_append {Message : Type} (events events' : List (ℕ × Event Message)) :
    delivered (events ++ events') = delivered events ++ delivered events' :=
  List.filterMap_append

/-- Garbles deliver nothing. -/
theorem delivered_garbles {pieces : List (Scanned × ℕ)}
    (h : ∀ piece ∈ pieces, piece.1.IsGarble) (offset : ℕ) :
    delivered (Cutter.observe Scanned.events offset pieces) = [] := by
  induction pieces generalizing offset with
  | nil => rfl
  | cons piece pieces ih =>
    obtain ⟨⟨reason, skipped, hpiece⟩, hpieces⟩ := List.forall_mem_cons.mp h
    rw [Cutter.observe, delivered_append, ih hpieces, hpiece, Scanned.events, garbledEvents]
    split <;> rfl

/-- Draining noise and what follows it delivers what follows it. -/
theorem Scanner.Discards.drain (h : scanner.Discards noise after)
    (hafter : Viable (after ++ more)) (offset : ℕ) :
    delivered (Cutter.observe Scanned.events offset
        (scanner.cutter.drain (noise ++ (after ++ more))).1) =
      delivered (Cutter.observe Scanned.events (offset + noise.length)
        (scanner.cutter.drain (after ++ more)).1) ∧
      (scanner.cutter.drain (noise ++ (after ++ more))).2 =
        (scanner.cutter.drain (after ++ more)).2 := by
  have hnoise : ∀ k < noise.length, ∃ scanned n,
      scanner.cutter.cut ((noise ++ (after ++ more)).drop k) = some (scanned, n) ∧
        k + n ≤ noise.length ∧ scanned.IsGarble := by
    intro k hk
    obtain ⟨reason, skipped, hscan, hwithin⟩ := h.scan hafter hk
    refine ⟨.garbled reason (((noise ++ (after ++ more)).drop k).take skipped), skipped, ?_,
      hwithin, reason, _, rfl⟩
    simp only [Scanner.cutter, Scanner.take, hscan]
  obtain ⟨pieces, hdrain, hgarbles, hsum⟩ := Cutter.drain_front hnoise
  rw [hdrain, Cutter.observe_append, delivered_append, delivered_garbles hgarbles, hsum]
  exact ⟨List.nil_append _, rfl⟩

/-- A scanner that drains a stream delivers the frames it carries, and waits for the rest. -/
theorem Scanner.Carries.drain {offset : ℕ} {sent : List (ℕ × FrameParts)}
    (h : scanner.Carries offset bytes sent cut) :
    delivered (Cutter.observe Scanned.events offset (scanner.cutter.drain bytes).1) =
        sent.map (fun piece => (piece.1, piece.2.frame)) ∧
      (scanner.cutter.drain bytes).2 = cut := by
  induction h with
  | @rest offset noise cut parts valid fits part short discards =>
    have hincomplete := scan_part valid fits part short
    have hviable : Viable (cut ++ []) := by
      rw [List.append_nil]
      exact Viable.of_isPrefix part (Or.inl (isPrefix_of_scan_eq_frame
        (scan_eq_frame_iff.mpr (by simpa using tryScan_bytes_append valid fits []))))
    have hstop : scanner.cutter.cut cut = none := by
      simp only [Scanner.cutter, Scanner.take, hincomplete]
    have hdrain := discards.drain hviable offset
    rw [List.append_nil, Cutter.drain_of_cut_eq_none hstop] at hdrain
    exact hdrain
  | @frame offset noise bytes cut parts sent valid fits discards carries ih =>
    have hscan : scanner.scan (parts.bytes ++ bytes) = .frame parts.frame :=
      scan_eq_frame_iff.mpr (tryScan_bytes_append valid fits bytes)
    have hcut : scanner.cutter.cut (parts.bytes ++ bytes) =
        some (.frame parts.frame, parts.bytes.length) := by
      simp only [Scanner.cutter, Scanner.take, hscan, FrameParts.frame]
    obtain ⟨hdelivered, hleft⟩ :=
      discards.drain (Or.inl (isPrefix_of_scan_eq_frame hscan)) offset
    rw [hdelivered, hleft, Cutter.drain_of_cut_eq_some hcut, List.drop_left]
    refine ⟨?_, ih.2⟩
    rw [Cutter.observe, delivered_append, ih.1]
    rfl

theorem Scanner.Carries.sent_valid {offset : ℕ} {sent : List (ℕ × FrameParts)}
    (h : scanner.Carries offset bytes sent cut) :
    ∀ piece ∈ sent, piece.2.Valid ∧ piece.2.bytes.length ≤ scanner.maxFrameSize := by
  induction h with
  | rest => simp
  | frame valid fits _ _ ih => exact List.forall_mem_cons.mpr ⟨⟨valid, fits⟩, ih⟩

/-- Tokenizing a scanner's events does not change which messages are delivered, or where. -/
theorem delivered_map_event (tokenizer : Tokenizer) (events : List (ℕ × Event Frame)) :
    delivered (events.map tokenizer.event) = (delivered events).map fun piece =>
      (piece.1, ⟨piece.2.bytes, tokenizer.tokenizeFields piece.2.bytes soh⟩) := by
  rw [delivered, delivered, List.filterMap_map, List.map_filterMap]
  apply List.filterMap_congr
  rintro ⟨offset, event⟩ -
  cases event <;> rfl

/-- **A stream delivers every frame that its bytes carry**, in order and at its offset, as the
tokenizer reads it on its own: however the bytes are fed, neither noise nor a malformed start
costs a frame, and a message cut short at the end is kept until the rest of it arrives. The noise
is returned too: what was returned and what is kept, one behind the other, are the bytes. -/
theorem stream_delivers (dialect : Dialect) {sent : List (ℕ × FrameParts)}
    (h : Scanner.default.Carries 0 bytes sent cut) (calls : List (Cutter.Call UInt8))
    (hfed : Cutter.Call.fed calls = bytes) :
    let run := (MessageStream.new dialect).run calls
    List.Forall₂ (fun read piece => read.1 = piece.1 ∧
        (Tokenizer.new dialect).tokenize piece.2.bytes = .ok read.2)
      (delivered (Cutter.observe StreamOutcome.events 0 (sized StreamOutcome.bytes run.1))) sent ∧
    (run.1.map StreamOutcome.bytes).flatten ++ cut = bytes ∧ run.2.buf = cut := by
  obtain ⟨hobs, hleft⟩ := Cutter.observe_run (cutter_early Scanner.default) calls [] 0
  rw [List.nil_append, hfed] at hobs hleft
  obtain ⟨hdelivered, hcut⟩ := h.drain
  have hbuf : ((MessageStream.new dialect).run calls).2.buf = cut := by
    rw [run_eq_render]
    exact hleft.trans hcut
  refine ⟨?_, ?_, hbuf⟩
  · rw [observe_run_eq, delivered_map_event]
    simp only [MessageStream.new, hobs, hdelivered, List.map_map, List.forall₂_map_left_iff,
      Function.comp_apply]
    apply List.forall₂_same.mpr
    intro piece hpiece
    obtain ⟨hvalid, hfits⟩ := h.sent_valid piece hpiece
    exact ⟨rfl, tokenize_frame _ hvalid (hfits.trans (by decide))⟩
  · rw [← hbuf, ← hfed]
    exact stream_run_bytes dialect calls

def heartbeat : FrameParts := wireParts (ascii "FIX.4.4") [(35, ascii "0")]

/-- A start that lost its message, a heartbeat, and the front of another one, fed in two
pieces. -/
theorem stream_delivers_lost :
    let run := (MessageStream.new .standard).run
      [.feed (ascii "8=FIX.4.4 lost 8="), .next,
        .feed (heartbeat.bytes.drop 2 ++ heartbeat.bytes.take 12), .next]
    (∃ message, delivered (Cutter.observe StreamOutcome.events 0
        (sized StreamOutcome.bytes run.1)) = [(15, message)] ∧
      (Tokenizer.new .standard).tokenize heartbeat.bytes = .ok message) ∧
    (run.1.map StreamOutcome.bytes).flatten = ascii "8=FIX.4.4 lost " ++ heartbeat.bytes ∧
    run.2.buf = heartbeat.bytes.take 12 := by
  have hvalid : heartbeat.Valid := wireParts_valid ⟨by decide, by decide, by decide⟩
    (by decide +kernel)
  have hfits : heartbeat.bytes.length ≤ Scanner.default.maxFrameSize := by decide +kernel
  have hrest : Scanner.default.Carries (0 + (ascii "8=FIX.4.4 lost ").length +
      heartbeat.bytes.length) ([] ++ heartbeat.bytes.take 12) [] (heartbeat.bytes.take 12) :=
    .rest hvalid hfits (List.take_prefix _ _) (by decide +kernel) (fun k hk => absurd hk (by simp))
  -- Only the lost start could begin a frame here, and it is skipped as a whole.
  have hdiscards : Scanner.default.Discards (ascii "8=FIX.4.4 lost ") heartbeat.bytes := by
    intro k hk hviable
    have hstart : k = 0 := by
      have hlen : (ascii "8=FIX.4.4 lost ").length = 15 := by decide
      have hother : ∀ k < 15, k ≠ 0 → ¬ (beginStringPrefix <+:
          (ascii "8=FIX.4.4 lost " ++ heartbeat.bytes).drop k ∨
          (ascii "8=FIX.4.4 lost " ++ heartbeat.bytes).drop k <+: beginStringPrefix) := by
        decide +kernel
      by_contra hne
      exact hother k (hlen ▸ hk) hne hviable
    subst hstart
    exact ⟨.malformedBeginString, 15, by decide +kernel, by decide⟩
  obtain ⟨hread, hbytes, hleft⟩ := stream_delivers .standard (.frame hvalid hfits hdiscards hrest)
    [.feed (ascii "8=FIX.4.4 lost 8="), .next,
      .feed (heartbeat.bytes.drop 2 ++ heartbeat.bytes.take 12), .next] (by decide +kernel)
  refine ⟨?_, List.append_cancel_right (hbytes.trans (by simp)), hleft⟩
  obtain ⟨read, reads, ⟨hoffset, htokenize⟩, hreads, hdelivered⟩ :=
    List.forall₂_cons_right_iff.mp hread
  rw [List.forall₂_nil_right_iff.mp hreads] at hdelivered
  have hat : read.1 = 15 := hoffset.trans (by decide)
  exact ⟨read.2, by rw [hdelivered, ← hat], htokenize⟩

/-! ## The stream and the tokenizer -/

theorem scan_of_take_frame {buf : Bytes} {frame : Frame} {n : ℕ}
    (h : scanner.take buf = some (.frame frame, n)) : scanner.scan buf = .frame frame := by
  unfold Scanner.take at h
  split at h
  · next read hscan =>
    obtain ⟨hread, -⟩ := Prod.mk.inj (Option.some.inj h)
    rw [hscan, Scanned.frame.inj hread]
  all_goals cases h

theorem run_of_fed_nil {calls : List (Cutter.Call UInt8)} (h : Cutter.Call.fed calls = []) :
    scanner.cutter.run calls [] = ([], []) := by
  have hnone : scanner.cutter.cut [] = none := by
    simp only [Scanner.cutter, Scanner.take,
      scan_of_isPrefix_beginStringPrefix scanner List.nil_prefix]
  induction calls with
  | nil => exact Cutter.drain_of_cut_eq_none hnone
  | cons call calls ih =>
    cases call with
    | feed bytes =>
      obtain ⟨rfl, hrest⟩ := List.append_eq_nil_iff.mp h
      exact ih hrest
    | next =>
      simp only [Cutter.run, hnone]
      exact ih h

/-- One frame, fed in any way, is one piece. -/
theorem run_of_fed_frame {parts : FrameParts} (hvalid : parts.Valid)
    (hfits : parts.bytes.length ≤ scanner.maxFrameSize) {calls : List (Cutter.Call UInt8)}
    {buf : Bytes} (hfed : buf ++ Cutter.Call.fed calls = parts.bytes) :
    scanner.cutter.run calls buf = ([(.frame parts.frame, parts.bytes.length)], []) := by
  have hscan : scanner.scan parts.bytes = .frame parts.frame :=
    scan_eq_frame_iff.mpr (by simpa using tryScan_bytes_append hvalid hfits [])
  have hcut : scanner.cutter.cut parts.bytes = some (.frame parts.frame, parts.bytes.length) := by
    simp only [Scanner.cutter, Scanner.take, hscan, FrameParts.frame]
  induction calls generalizing buf with
  | nil =>
    rw [Cutter.Call.fed, List.append_nil] at hfed
    subst hfed
    have hnil : scanner.cutter.run [] [] = ([], []) := run_of_fed_nil rfl
    rw [Cutter.run] at hnil ⊢
    rw [Cutter.drain_of_cut_eq_some hcut, List.drop_length, hnil]
  | cons call calls ih =>
    cases call with
    | feed bytes =>
      rw [Cutter.Call.fed, ← List.append_assoc] at hfed
      exact ih hfed
    | next =>
      rw [Cutter.Call.fed] at hfed
      rw [Cutter.run]
      by_cases hwhole : buf = parts.bytes
      · -- the frame is taken, and the calls behind it feed nothing
        rw [hwhole] at hfed ⊢
        rw [hcut]
        simp only [List.drop_length, run_of_fed_nil (List.append_right_eq_self.mp hfed)]
      · have hpart : buf <+: parts.bytes := hfed ▸ List.prefix_append _ _
        have hwait : scanner.cutter.cut buf = none := by
          simp only [Scanner.cutter, Scanner.take, scan_part hvalid hfits hpart hwhole]
        rw [hwait]
        exact ih hfed

/-- **The tokenizer accepts the bytes that a stream reads as one message**: of what a frame may
be large at most, the tokenizer returns a message for the bytes exactly when a stream returns that
message, and nothing else, however the bytes are fed. -/
theorem tokenize_iff_stream (dialect : Dialect) (bytes : Bytes) (message : RawMessage) :
    (Tokenizer.new dialect).tokenize bytes = .ok message ∧ bytes.length ≤ 2 ^ 20 ↔
      ∀ calls, Cutter.Call.fed calls = bytes →
        (MessageStream.new dialect).run calls = ([.message message], MessageStream.new dialect) := by
  constructor
  · rintro ⟨htokenize, hlen⟩ calls hfed
    obtain ⟨parts, hvalid, rfl, -, rfl⟩ := tokenize_eq_ok htokenize
    have hfits : parts.bytes.length ≤ Scanner.default.maxFrameSize := hlen
    have hnothing : [] ++ Cutter.Call.fed calls = parts.bytes := hfed
    have hrun := run_of_fed_frame hvalid hfits hnothing
    rw [run_eq_render]
    simp only [MessageStream.new, hrun, MessageStream.render]
    rfl
  · intro h
    have hrun := h [.feed bytes] (List.append_nil _)
    rw [run_eq_render] at hrun
    simp only [MessageStream.new, Cutter.run, List.nil_append, MessageStream.render,
      Prod.mk.injEq] at hrun
    obtain ⟨hpieces, hleft⟩ := hrun
    obtain ⟨⟨scanned, n⟩, hdrained, houtcome⟩ := List.map_eq_singleton_iff.mp hpieces
    -- the one piece is all of the bytes, and a frame
    have hbytes := Cutter.flatten_drain (scanned_bytes_of_cut .default) bytes
    have hempty : (Scanner.default.cutter.drain bytes).2 = [] := congrArg MessageStream.buf hleft
    rw [hdrained, hempty] at hbytes
    simp only [List.map_cons, List.map_nil, List.flatten_singleton, List.append_nil] at hbytes
    cases hcut : Scanner.default.cutter.cut bytes with
    | none =>
      rw [Cutter.drain_of_cut_eq_none hcut] at hdrained
      cases hdrained
    | some piece =>
      rw [Cutter.drain_of_cut_eq_some hcut] at hdrained
      obtain rfl : piece = (scanned, n) := (List.cons.inj hdrained).1
      cases scanned with
      | garbled reason skipped => cases houtcome
      | frame frame =>
        have hscan : Scanner.default.scan bytes = .frame frame := scan_of_take_frame hcut
        obtain ⟨parts, hvalid, -, hfits, rfl⟩ :=
          exists_parts_of_tryScan (scan_eq_frame_iff.mp hscan)
        have hsame : parts.bytes = bytes := hbytes
        have hmessage := StreamOutcome.message.inj houtcome
        rw [← hsame]
        refine ⟨?_, hfits⟩
        rw [tokenize_frame _ hvalid (hfits.trans (by decide)), ← hmessage]
        rfl

end Refix.Message
