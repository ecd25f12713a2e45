import Refix.Message.Resync

/-!
# Decisions of the Scanner

A decision of the scanner stands when more bytes arrive. A frame stays the same frame. A
garble keeps its reason, and its skip as well unless the skip was a guess: the search for the
next `8=FIX` may reach further in a longer buffer. Hence frames are a prefix code, and the
scanner waits on every proper part of one.
-/

namespace Refix.Message

open Refix.Foundation

variable {scanner : Scanner} {buf buf' : Bytes}

/-! ## Garbles behind a trusted extent -/

/-- The reasons found after the frame's extent is trusted. -/
def postStructural : List GarbledReason := [.malformedChecksum, .checksumMismatch, .missingMsgType]

/-- A check that gives other reasons, and what follows it: the garble is found behind it. -/
theorem Extends.bind_postStructural {α β : Type} {x x' : Except Halt α}
    {f f' : α → Except Halt β} {reason : GarbledReason} {skipped : ℕ}
    (hx : Extends buf buf' x x')
    (hother : ∀ reason skipped, x = .error (.garbled reason skipped) → reason ∉ postStructural)
    (hreason : reason ∈ postStructural)
    (hf : ∀ a, x = .ok a → f a = .error (.garbled reason skipped) →
      f' a = .error (.garbled reason skipped))
    (h : (x >>= f) = .error (.garbled reason skipped)) :
    (x' >>= f') = .error (.garbled reason skipped) := by
  cases hx with
  | ok a => exact hf a rfl h
  | incomplete => cases h
  | structural other =>
    cases h
    exact absurd hreason (hother _ _ rfl)
  | post other skipped =>
    cases h
    exact absurd hreason (hother _ _ rfl)

theorem parseBeginString_reason {reason : GarbledReason} {skipped : ℕ}
    (h : parseBeginString buf = .error (.garbled reason skipped)) :
    reason = .malformedBeginString := by
  simp only [parseBeginString] at h
  split at h
  · cases h
  · split at h <;> cases h
    rfl

theorem parseBodyLength_reason {start skipped : ℕ} {reason : GarbledReason}
    (h : parseBodyLength buf start = .error (.garbled reason skipped)) :
    reason = .missingBodyLength ∨ reason = .malformedBodyLength := by
  simp only [parseBodyLength] at h
  split at h
  · cases h
  split at h
  · cases h
    exact Or.inl rfl
  split at h
  · split at h <;> cases h
    exact Or.inr rfl
  · split at h
    · cases h
      exact Or.inr rfl
    split at h <;> cases h
    exact Or.inr rfl

theorem validatedFrameLen_reason {bodyStart bodyLength cap skipped : ℕ} {reason : GarbledReason}
    (h : validatedFrameLen buf bodyStart bodyLength cap = .error (.garbled reason skipped)) :
    reason = .frameTooLarge := by
  simp only [validatedFrameLen] at h
  split at h
  · cases h
    rfl
  · split at h <;> cases h

theorem verifyTrailerStart_reason {checksumStart skipped : ℕ} {reason : GarbledReason}
    (h : verifyTrailerStart buf checksumStart = .error (.garbled reason skipped)) :
    reason = .bodyLengthMismatch := by
  simp only [verifyTrailerStart] at h
  split at h <;> cases h
  rfl

/-- A garble found behind a trusted extent is the same one in every longer buffer. -/
theorem tryScan_postStructural {reason : GarbledReason} {skipped : ℕ} (h : buf <+: buf')
    (hreason : reason ∈ postStructural)
    (hscan : scanner.tryScan buf = .error (.garbled reason skipped)) :
    scanner.tryScan buf' = .error (.garbled reason skipped) := by
  unfold Scanner.tryScan at hscan ⊢
  by_cases hfix : beginStringPrefix <+: buf
  · rw [if_pos hfix] at hscan
    rw [if_pos (hfix.trans h)]
    -- the checks before the checksum give other reasons, so they succeeded
    refine (parseBeginString_extends h).bind_postStructural ?_ hreason ?_ hscan
    · intro other _ hbegin
      rw [parseBeginString_reason hbegin]
      decide
    rintro ⟨beginString, start⟩ hbegin hscan
    refine (parseBodyLength_extends h start).bind_postStructural ?_ hreason ?_ hscan
    · intro other _ hbody
      rcases parseBodyLength_reason hbody with rfl | rfl <;> decide
    rintro ⟨bodyLength, bodyStart⟩ hbody hscan
    refine (validatedFrameLen_extends h bodyStart bodyLength
      scanner.maxFrameSize).bind_postStructural ?_ hreason ?_ hscan
    · intro other _ hframe
      rw [validatedFrameLen_reason hframe]
      decide
    intro frameLen hframe hscan
    obtain ⟨rfl, -, hfits⟩ :=
      (validatedFrameLen_eq_ok_iff (parsed_small hfix hbegin hbody)).mp hframe
    simp only [take_eq_take_of_isPrefix h hfits]
    refine (verifyTrailerStart_extends h (by omega)).bind_postStructural ?_ hreason ?_ hscan
    · intro other _ htrailer
      rw [verifyTrailerStart_reason htrailer]
      decide
    exact fun _ _ hscan => hscan
  · rw [if_neg hfix] at hscan
    split at hscan
    · cases hscan
    · cases hscan
      exact absurd hreason (by decide)

/-- Where `8=FIX` stands complete, the search ends there in every longer buffer. -/
theorem findNextBeginString_eq_of_isPrefix (h : buf <+: buf') (hbuf : ¬ buf <+: beginStringPrefix)
    (hat : beginStringPrefix <+: buf.drop (findNextBeginString buf)) :
    findNextBeginString buf' = findNextBeginString buf := by
  have hbuf' : ¬ buf' <+: beginStringPrefix := fun hpre => hbuf (h.trans hpre)
  obtain ⟨hpos, -, -, -⟩ := findNextBeginString_spec hbuf
  obtain ⟨-, -, -, hbefore⟩ := findNextBeginString_spec hbuf'
  apply Nat.le_antisymm
  · by_contra hgt
    apply hbefore _ hpos (Nat.not_le.mp hgt)
    exact Or.inl (hat.trans (drop_isPrefix_drop h _))
  · exact findNextBeginString_le_of_isPrefix h hbuf

/-! ## Stable outcomes -/

theorem scan_eq_garbled_iff {reason : GarbledReason} {skipped : ℕ} :
    scanner.scan buf = .garbled reason skipped ↔
      scanner.tryScan buf = .error (.garbled reason skipped) := by
  unfold Scanner.scan
  cases h : scanner.tryScan buf with
  | ok frame => simp
  | error halt => cases halt <;> simp [Halt.toOutcome]

/-- A garble keeps its reason in a longer buffer, and its skip does not shrink. The skip is the
same behind a trusted extent and where `8=FIX` stands complete. -/
theorem scan_garbled_of_isPrefix {reason : GarbledReason} {skipped : ℕ} (h : buf <+: buf')
    (hscan : scanner.scan buf = .garbled reason skipped) :
    ∃ skipped', scanner.scan buf' = .garbled reason skipped' ∧ skipped ≤ skipped' ∧
      (reason ∈ postStructural ∨ beginStringPrefix <+: buf.drop skipped →
        skipped' = skipped) := by
  have hextends := scan_extends scanner h
  rw [hscan] at hextends
  rcases hextends with hsame | ⟨rfl, hbuf, hgarbled⟩
  · exact ⟨skipped, hsame, le_rfl, fun _ => rfl⟩
  · refine ⟨_, hgarbled, findNextBeginString_le_of_isPrefix h hbuf, ?_⟩
    rintro (hreason | hat)
    · have hpost := tryScan_postStructural h hreason (scan_eq_garbled_iff.mp hscan)
      rw [scan_eq_garbled_iff.mp hgarbled] at hpost
      exact (Halt.garbled.inj (Except.error.inj hpost)).2
    · exact findNextBeginString_eq_of_isPrefix h hbuf hat

/-- A frame scans as itself, also when it is alone in the buffer. -/
theorem scan_frame_bytes {frame : Frame} (hscan : scanner.scan buf = .frame frame) :
    scanner.scan frame.bytes = .frame frame := by
  obtain ⟨parts, hvalid, -, hcap, rfl⟩ := exists_parts_of_tryScan (scan_eq_frame_iff.mp hscan)
  have halone := tryScan_bytes_append hvalid hcap []
  rw [List.append_nil] at halone
  exact scan_eq_frame_iff.mpr halone

theorem scan_frame_of_isPrefix {frame : Frame} (h : buf <+: buf')
    (hscan : scanner.scan buf = .frame frame) : scanner.scan buf' = .frame frame := by
  have hextends := scan_extends scanner h
  rw [hscan] at hextends
  exact hextends

/-- **Decisions are stable under more bytes**, so no frame is a proper part of the front of
another one, every frame scans as itself, and every proper part of the front of a frame is
incomplete. -/
theorem scan_stable (scanner : Scanner) :
    (∀ buf more frame, scanner.scan buf = .frame frame →
      scanner.scan (buf ++ more) = .frame frame) ∧
    (∀ buf more reason skipped, scanner.scan buf = .garbled reason skipped →
      ∃ skipped', scanner.scan (buf ++ more) = .garbled reason skipped' ∧ skipped ≤ skipped' ∧
        (reason ∈ [.malformedChecksum, .checksumMismatch, .missingMsgType] ∨
          ascii "8=FIX" <+: buf.drop skipped → skipped' = skipped)) ∧
    (∀ buf buf' frame frame', scanner.scan buf = .frame frame → scanner.scan buf' = .frame frame' →
      frame.bytes <+: frame'.bytes → frame = frame') ∧
    (∀ buf frame, scanner.scan buf = .frame frame → scanner.scan frame.bytes = .frame frame) ∧
    (∀ buf frame part, scanner.scan buf = .frame frame → part <+: frame.bytes →
      part ≠ frame.bytes → scanner.scan part = .incomplete) := by
  refine ⟨fun buf more frame => scan_frame_of_isPrefix (List.prefix_append _ _),
    fun buf more reason skipped => scan_garbled_of_isPrefix (List.prefix_append _ _), ?_,
    fun buf frame => scan_frame_bytes, ?_⟩
  · intro buf buf' frame frame' hscan hscan' hpart
    have hlonger := scan_frame_of_isPrefix hpart (scan_frame_bytes hscan)
    rw [scan_frame_bytes hscan'] at hlonger
    cases hlonger
    rfl
  · intro buf frame part hscan hpart hne
    have hwhole := scan_frame_bytes hscan
    cases hscanPart : scanner.scan part with
    | incomplete => rfl
    | frame short =>
      -- a frame at the front of a frame is that frame, which is longer than the part
      have hlonger := scan_frame_of_isPrefix hpart hscanPart
      rw [hwhole] at hlonger
      cases hlonger
      have hshort := ((scan_frame_iff scanner part frame.bytes.length).2 frame hscanPart).1
      exact absurd (hpart.eq_of_length_le hshort.length_le) hne
    | garbled reason skipped =>
      obtain ⟨skipped', hgarbled, -⟩ := scan_garbled_of_isPrefix hpart hscanPart
      rw [hwhole] at hgarbled
      cases hgarbled

end Refix.Message
