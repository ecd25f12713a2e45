import Refix.Log.Reader

/-!
# What a Record Takes

Every read moves forward: the message a reader takes is not empty, its end lies within the
buffer, and what is consumed with it is nothing or one line break. For a message logged with
`^A` the end found in the copy is mapped back, and the copy of the bytes before it is what was
read.
-/

namespace Refix.Log

open Refix.Foundation Refix.Message

/-! ## Ends within the bytes -/

/-- An end behind at least one byte, with at most one line break after the message. -/
structure End.Within (stop : End) (bytes : Bytes) : Prop where
  len_pos : 0 < stop.len
  len_le : stop.len ≤ stop.consumed
  consumed_le : stop.consumed ≤ bytes.length
  lineBreak : slice bytes stop.len stop.consumed = [] ∨
    slice bytes stop.len stop.consumed = [lineFeed] ∨
    slice bytes stop.len stop.consumed = [carriageReturn, lineFeed]

section Within

variable {bytes capped : Bytes} {stop : End} {atEnd : Bool}

theorem slice_self (bytes : Bytes) (n : ℕ) : slice bytes n n = [] := by
  simp [slice]

theorem slice_eq_of_isPrefix_drop {bytes found : Bytes} {n : ℕ} (h : found <+: bytes.drop n) :
    slice bytes n (n + found.length) = found := by
  obtain ⟨rest, hrest⟩ := h
  rw [slice, List.drop_take, Nat.add_sub_cancel_left, ← hrest, List.take_left]

/-- An end without a line break. -/
theorem within_of_le {len : ℕ} {truncated : Bool} (hpos : 0 < len) (hle : len ≤ bytes.length) :
    End.Within ⟨len, len, truncated⟩ bytes :=
  ⟨hpos, le_rfl, hle, Or.inl (slice_self bytes len)⟩

theorem afterMessage_within {len : ℕ} (hpos : 0 < len) (hle : len ≤ bytes.length)
    (h : afterMessage bytes len atEnd = some stop) : stop.Within bytes := by
  have hbreak : ∀ found : Bytes, found <+: bytes.drop len →
      slice bytes len (len + found.length) = found ∧ len + found.length ≤ bytes.length := by
    intro found hpre
    refine ⟨slice_eq_of_isPrefix_drop hpre, ?_⟩
    have := hpre.length_le
    rw [List.length_drop] at this
    omega
  unfold afterMessage at h
  simp only at h
  split at h
  · cases h
  obtain rfl := Option.some.inj h
  split
  · next hlf =>
    obtain ⟨hslice, hend⟩ := hbreak _ hlf
    exact ⟨hpos, by simp, hend, Or.inr (Or.inl hslice)⟩
  split
  · next hcrlf =>
    obtain ⟨hslice, hend⟩ := hbreak _ hcrlf
    exact ⟨hpos, by simp, hend, Or.inr (Or.inr hslice)⟩
  · exact within_of_le hpos hle

/-- A line feed that is not the first byte, nor behind a carriage return that is. -/
theorem atLineBreak_within (truncated : Bool) (hcapped : capped <+: bytes) {offset : ℕ}
    (hlf : capped[offset]? = some lineFeed) (hpos : 0 < offset)
    (hfirst : capped[0]? ≠ some carriageReturn) :
    (atLineBreak capped offset truncated).Within bytes := by
  have hlt := (List.getElem?_eq_some_iff.mp hlf).1
  have hle := hcapped.length_le
  have hdrop := List.drop_eq_getElem?_toList_append (l := bytes) (i := offset)
  rw [getElem?_eq_some_of_isPrefix hcapped hlf] at hdrop
  unfold atLineBreak
  simp only
  split
  · next hcr =>
    have hone : 1 < offset := by
      by_contra hnot
      obtain rfl : offset = 1 := by omega
      exact hfirst hcr
    have hdrop' := List.drop_eq_getElem?_toList_append (l := bytes) (i := offset - 1)
    rw [getElem?_eq_some_of_isPrefix hcapped hcr, Nat.sub_add_cancel hpos, hdrop] at hdrop'
    refine ⟨by simp only; omega, by simp only; omega, by simp only; omega, Or.inr (Or.inr ?_)⟩
    have hpre : [carriageReturn, lineFeed] <+: bytes.drop (offset - 1) := by
      rw [hdrop']
      exact ⟨_, rfl⟩
    have hslice := slice_eq_of_isPrefix_drop hpre
    rwa [show offset - 1 + [carriageReturn, lineFeed].length = offset + 1 by
      simp only [List.length_cons, List.length_nil]; omega] at hslice
  · refine ⟨hpos, by simp only; omega, by simp only; omega, Or.inr (Or.inl ?_)⟩
    have hpre : [lineFeed] <+: bytes.drop offset := by
      rw [hdrop]
      exact ⟨_, rfl⟩
    exact slice_eq_of_isPrefix_drop hpre

theorem byBodyLengthIn_within (hcapped : capped <+: bytes) {cappedFinal : Bool}
    {separator : UInt8} (hfirst : ∃ b, capped[0]? = some b ∧ b ≠ carriageReturn)
    (h : byBodyLengthIn bytes capped cappedFinal separator atEnd = .found stop) :
    stop.Within bytes := by
  obtain ⟨b, hb, hne⟩ := hfirst
  have hpos := (List.getElem?_eq_some_iff.mp hb).1
  have hle := hcapped.length_le
  have hundecided : ∀ final : Bool,
      (if final = true then BodyLengthEnd.notFound else .pending) ≠ .found stop := by
    intro final
    split <;> nofun
  unfold byBodyLengthIn at h
  simp only at h
  split at h
  · cases h
  · exact absurd h (hundecided cappedFinal)
  split at h
  · exact absurd h (hundecided cappedFinal)
  split at h
  · cases h
  split at h
  -- The checksum ends at a separator, after which the message ends, or at a line feed.
  · next offset hvalue =>
    obtain ⟨hstart, ⟨c, hc, heither⟩, -⟩ := findFrom_eq_some_iff.mp hvalue
    have hlt := (findFrom_lt hvalue).2
    split at h
    · split at h
      · next stop' hafter =>
        obtain rfl := BodyLengthEnd.found.inj h
        exact afterMessage_within (by omega) (by omega) hafter
      · cases h
    · next hsep =>
      obtain rfl := BodyLengthEnd.found.inj h
      have hlf : capped[offset]? = some lineFeed := by
        have hcsep : c ≠ separator := fun heq => hsep (by rw [hc, heq])
        simp only [Bool.or_eq_true, beq_iff_eq, hcsep, false_or] at heither
        rw [hc, heither]
      exact atLineBreak_within _ hcapped hlf (by omega) (by rw [hb]; simpa using hne)
  · split at h
    · obtain rfl := BodyLengthEnd.found.inj h
      exact within_of_le hpos hle
    · cases h

theorem walkStep_within (hcapped : capped <+: bytes) (hlen : capped.length ≤ u32Max)
    {tokenizer : Tokenizer} {cappedFinal : Bool} {separator : UInt8}
    {separatorOverride : Option UInt8} {pos : ℕ} {dataLen : Option ℕ}
    (hfirst : ∃ b, capped[0]? = some b ∧ b ≠ carriageReturn)
    (h : walkStep tokenizer bytes capped cappedFinal separator separatorOverride atEnd pos dataLen =
      .done (some stop)) : stop.Within bytes := by
  obtain ⟨b, hb, hne⟩ := hfirst
  have hpos := (List.getElem?_eq_some_iff.mp hb).1
  have hle := hcapped.length_le
  have hlo : 1 ≤ max pos 1 := Nat.le_max_right _ _
  unfold walkStep at h
  simp only at h
  generalize hnext : nextField capped pos dataLen separator = next at h
  split at h
  · cases h
  have hchecked : checkedEnd capped dataLen next ≤ capped.length := checkedEnd_le hlen hnext
  generalize checkedEnd capped dataLen next = checked at h hchecked
  split at h
  -- A start found in the value ends the message: it stands before the line feed, if there is one.
  · next start hstart =>
    obtain rfl := Option.some.inj (WalkStep.done.inj h)
    cases findStart_eq_iff.mp hstart with
    | found hlo' hhi _ _ =>
      apply within_of_le (by omega)
      cases hfind : findFrom (· == lineFeed) (capped.take checked) (max pos 1) with
      | none =>
        rw [hfind, Option.getD_none] at hhi
        omega
      | some offset =>
        have := (findFrom_lt hfind).2
        rw [List.length_take] at this
        rw [hfind, Option.getD_some] at hhi
        omega
  · cases h
  split at h
  -- A line feed ends it; the first byte is no carriage return, so a `\r` before it is not that
  -- byte.
  · next offset hfind =>
    obtain rfl := Option.some.inj (WalkStep.done.inj h)
    obtain ⟨hstart, ⟨c, hc, heq⟩, -⟩ := findFrom_eq_some_iff.mp hfind
    have hlf : capped[offset]? = some lineFeed := by
      rw [← eq_of_beq heq]
      exact getElem?_eq_some_of_isPrefix (List.take_prefix _ _) hc
    exact atLineBreak_within _ hcapped hlf (by omega) (by rw [hb]; simpa using hne)
  -- Otherwise all the capped bytes are the message, or the next field ends it.
  have hall : End.Within ⟨capped.length, capped.length, true⟩ bytes := within_of_le hpos hle
  split at h
  · split at h
    · obtain rfl := Option.some.inj (WalkStep.done.inj h)
      exact hall
    · cases h
  · next field after =>
    have hbounds := nextField_bounds hlen hnext
    split at h
    · split at h
      · obtain rfl := Option.some.inj (WalkStep.done.inj h)
        exact within_of_le hpos hle
      · cases h
    split at h
    · exact afterMessage_within (by omega) (by omega) (WalkStep.done.inj h)
    · cases h

theorem walkFrom_within (hcapped : capped <+: bytes) (hlen : capped.length ≤ u32Max)
    {tokenizer : Tokenizer} {cappedFinal : Bool} {separator : UInt8}
    {separatorOverride : Option UInt8} {pos : ℕ} {dataLen : Option ℕ}
    (hfirst : ∃ b, capped[0]? = some b ∧ b ≠ carriageReturn)
    (h : walkFrom tokenizer bytes capped cappedFinal separator separatorOverride atEnd pos dataLen =
      some stop) : stop.Within bytes := by
  induction hdist : capped.length + 1 - pos using Nat.strong_induction_on
    generalizing pos dataLen with
  | _ dist ih =>
    rw [walkFrom] at h
    split at h
    · next result hstep =>
      subst h
      exact walkStep_within hcapped hlen hfirst hstep
    · next pos' dataLen' hstep =>
      obtain ⟨field, hread, -⟩ := walkStep_eq_next hstep
      have := nextField_lt hread
      exact ih _ (by omega) h rfl

theorem cap_isPrefix (bytes : Bytes) (atEnd : Bool) :
    (cap bytes atEnd).1 <+: bytes ∧ (cap bytes atEnd).1.length ≤ maxMessageLen := by
  simp only [cap]
  constructor
  · split
    · exact (List.take_prefix _ _).trans (List.dropLast_prefix _)
    · exact List.take_prefix _ _
  · rw [List.length_take]
    omega

/-- The cap keeps a first byte that is no carriage return. -/
theorem cap_getElem?_zero {b : UInt8} (hfirst : bytes[0]? = some b) (hb : b ≠ carriageReturn) :
    (cap bytes atEnd).1[0]? = some b := by
  obtain ⟨hpre, -⟩ := cap_isPrefix bytes atEnd
  have hpos : 0 < (cap bytes atEnd).1.length := by
    have hlen := (List.getElem?_eq_some_iff.mp hfirst).1
    simp only [cap, List.length_take]
    split
    · next hbreak =>
      obtain ⟨first, rest, rfl⟩ := List.exists_cons_of_length_pos hlen
      obtain rfl : first = b := by simpa using hfirst
      have hne : rest ≠ [] := by
        rintro rfl
        simp only [List.getLast?_singleton, Option.some.injEq] at hbreak
        exact hb hbreak.2
      have := List.length_pos_iff.mpr hne
      simp only [List.length_dropLast, List.length_cons, maxMessageLen]
      omega
    · simp only [maxMessageLen]
      omega
  rw [← getElem?_of_isPrefix hpre hpos, hfirst]

/-- **The end of a message lies within the bytes.** -/
theorem findEnd_within {tokenizer : Tokenizer} {separator : UInt8}
    {separatorOverride : Option UInt8}
    (hfirst : ∃ b, bytes[0]? = some b ∧ b ≠ carriageReturn)
    (h : findEnd tokenizer bytes separator separatorOverride atEnd = some stop) :
    stop.Within bytes := by
  obtain ⟨hcapped, hlen⟩ := cap_isPrefix bytes atEnd
  obtain ⟨b, hb, hne⟩ := hfirst
  have hfirst' : ∃ b, (cap bytes atEnd).1[0]? = some b ∧ b ≠ carriageReturn :=
    ⟨b, cap_getElem?_zero hb hne, hne⟩
  unfold findEnd at h
  split at h
  · next stop' hfound =>
    obtain rfl := Option.some.inj h
    exact byBodyLengthIn_within hcapped hfirst' hfound
  · exact walkFrom_within hcapped (hlen.trans (by decide)) hfirst' h
  · cases h

/-! ## Ends within the cap -/

section Cap

variable {tokenizer : Tokenizer} {cappedFinal : Bool} {separator : UInt8}
  {separatorOverride : Option UInt8} {pos : ℕ} {dataLen : Option ℕ}

theorem afterMessage_len {len : ℕ} (h : afterMessage bytes len atEnd = some stop) :
    stop.len = len := by
  simp only [afterMessage] at h
  split at h
  · cases h
  · obtain rfl := Option.some.inj h
    rfl

theorem atLineBreak_len_le (offset : ℕ) (truncated : Bool) :
    (atLineBreak bytes offset truncated).len ≤ offset := by
  simp only [atLineBreak]
  split <;> omega

theorem byBodyLengthIn_len_le
    (h : byBodyLengthIn bytes capped cappedFinal separator atEnd = .found stop) :
    stop.len ≤ capped.length := by
  have hundecided : (if cappedFinal = true then BodyLengthEnd.notFound else .pending) ≠
      .found stop := by
    split <;> nofun
  unfold byBodyLengthIn at h
  simp only at h
  split at h
  · cases h
  · exact absurd h hundecided
  split at h
  · exact absurd h hundecided
  split at h
  · cases h
  split at h
  · next offset hfind =>
    have hlt := (findFrom_lt hfind).2
    split at h
    · split at h
      · next hafter =>
        obtain rfl := BodyLengthEnd.found.inj h
        rw [afterMessage_len hafter]
        exact hlt
      · cases h
    · obtain rfl := BodyLengthEnd.found.inj h
      exact (atLineBreak_len_le offset false).trans hlt.le
  · split at h
    · obtain rfl := BodyLengthEnd.found.inj h
      exact le_rfl
    · cases h

theorem walkStep_len_le (hlen : capped.length ≤ u32Max)
    (h : walkStep tokenizer bytes capped cappedFinal separator separatorOverride atEnd pos dataLen =
      .done (some stop)) : stop.len ≤ capped.length := by
  unfold walkStep at h
  simp only at h
  generalize hnext : nextField capped pos dataLen separator = next at h
  split at h
  · cases h
  have hchecked : checkedEnd capped dataLen next ≤ capped.length := checkedEnd_le hlen hnext
  generalize checkedEnd capped dataLen next = checked at h hchecked
  -- The search for a line feed stays within what is checked, and so within the cap.
  have hbreak : ∀ offset, findFrom (· == lineFeed) (capped.take checked) (max pos 1) =
      some offset → offset < checked := by
    intro offset hfind
    have hlt := (findFrom_lt hfind).2
    rw [List.length_take] at hlt
    omega
  split at h
  · next start hstart =>
    obtain rfl := Option.some.inj (WalkStep.done.inj h)
    cases findStart_eq_iff.mp hstart with
    | found _ hhi _ _ =>
      cases hfind : findFrom (· == lineFeed) (capped.take checked) (max pos 1) with
      | none =>
        rw [hfind, Option.getD_none] at hhi
        exact hhi.le.trans hchecked
      | some offset =>
        have := hbreak offset hfind
        rw [hfind, Option.getD_some] at hhi
        exact (by omega : start.offset ≤ capped.length)
  · cases h
  split at h
  · next offset hfind =>
    obtain rfl := Option.some.inj (WalkStep.done.inj h)
    have := hbreak offset hfind
    exact (atLineBreak_len_le offset _).trans (by omega)
  split at h
  · split at h
    · obtain rfl := Option.some.inj (WalkStep.done.inj h)
      exact le_rfl
    · cases h
  · next field after =>
    have hbounds := nextField_bounds hlen hnext
    split at h
    · split at h
      · obtain rfl := Option.some.inj (WalkStep.done.inj h)
        exact le_rfl
      · cases h
    split at h
    · rw [afterMessage_len (WalkStep.done.inj h)]
      omega
    · cases h

theorem walkFrom_len_le (hlen : capped.length ≤ u32Max)
    (h : walkFrom tokenizer bytes capped cappedFinal separator separatorOverride atEnd pos dataLen =
      some stop) : stop.len ≤ capped.length := by
  induction hdist : capped.length + 1 - pos using Nat.strong_induction_on
    generalizing pos dataLen with
  | _ dist ih =>
    rw [walkFrom] at h
    split at h
    · next result hstep =>
      subst h
      exact walkStep_len_le hlen hstep
    · next pos' dataLen' hstep =>
      obtain ⟨field, hread, -⟩ := walkStep_eq_next hstep
      have := nextField_lt hread
      exact ih _ (by omega) h rfl

/-- **A message is no longer than the cap.** -/
theorem findEnd_len_le
    (h : findEnd tokenizer bytes separator separatorOverride atEnd = some stop) :
    stop.len ≤ maxMessageLen := by
  obtain ⟨-, hlen⟩ := cap_isPrefix bytes atEnd
  unfold findEnd at h
  split at h
  · next stop' hfound =>
    obtain rfl := Option.some.inj h
    exact (byBodyLengthIn_len_le hfound).trans hlen
  · exact (walkFrom_len_le (hlen.trans (by decide)) h).trans hlen
  · cases h

end Cap

/-! ## The line of a message logged with `^A` -/

/-- The line is the front of the bytes, and one line break follows it, if any. -/
theorem findLine_within {logLine : Bytes} {consumed : ℕ} (truncated : Bool)
    (hfirst : ∃ b, bytes[0]? = some b ∧ b ≠ carriageReturn ∧ b ≠ lineFeed)
    (h : findLine bytes atEnd = some (logLine, consumed)) :
    logLine = bytes.take logLine.length ∧ End.Within ⟨logLine.length, consumed, truncated⟩ bytes := by
  obtain ⟨b, hb, hcr, hlf⟩ := hfirst
  obtain ⟨rest, rfl⟩ : ∃ rest, bytes = b :: rest := by
    cases bytes with
    | nil => simp at hb
    | cons c rest => exact ⟨rest, by simp at hb; rw [hb]⟩
  have hcapped : (b :: rest).take (min (b :: rest).length maxMessageLen) <+: b :: rest :=
    List.take_prefix _ _
  -- The cap leaves the first byte in place.
  have hfirst' : ((b :: rest).take (min (b :: rest).length maxMessageLen))[0]? = some b := by
    have hmin : min (b :: rest).length maxMessageLen =
        min rest.length (maxMessageLen - 1) + 1 := by
      simp only [List.length_cons, maxMessageLen]
      omega
    rw [hmin, List.take_succ_cons, List.getElem?_cons_zero]
  simp only [findLine] at h
  generalize (b :: rest).take (min (b :: rest).length maxMessageLen) = capped at h hcapped hfirst'
  have hle := hcapped.length_le
  have hpos := (List.getElem?_eq_some_iff.mp hfirst').1
  split at h
  · next offset hfind =>
    obtain ⟨hlt, heq, -⟩ := List.findIdx?_eq_some_iff_getElem.mp hfind
    have hline : capped[offset]? = some lineFeed := by
      rw [List.getElem?_eq_getElem hlt, eq_of_beq heq]
    -- The first byte is no line feed, so the line is not empty.
    have hoffset : 0 < offset := by
      rcases Nat.eq_zero_or_pos offset with rfl | hpos'
      · rw [hfirst'] at hline
        exact absurd (Option.some.inj hline) hlf
      · exact hpos'
    have htake : ∀ n, n ≤ capped.length → capped.take n = (b :: rest).take n := fun n hn =>
      (take_eq_take_of_isPrefix hcapped hn).symm
    have hwithin := atLineBreak_within truncated hcapped hline hoffset
      (by rw [hfirst']; simpa using hcr)
    have hlast : (capped.take offset).getLast? = capped[offset - 1]? := by
      rw [List.getLast?_eq_getElem?, List.length_take, Nat.min_eq_left hlt.le,
        List.getElem?_take_of_lt (by omega)]
    obtain ⟨rfl, rfl⟩ := Prod.mk.inj (Option.some.inj h)
    rw [hlast]
    unfold atLineBreak at hwithin
    split
    -- `\r\n` is one line break, and its carriage return is not part of the line.
    · next hcr' =>
      rw [if_pos hcr'] at hwithin
      have hlen : (capped.take offset).dropLast.length = offset - 1 := by
        rw [List.length_dropLast, List.length_take]
        omega
      refine ⟨?_, by rw [hlen]; exact hwithin⟩
      rw [hlen, ← htake _ (by omega), List.dropLast_eq_take, List.take_take, List.length_take]
      congr 1
      omega
    · next hcr' =>
      rw [if_neg hcr'] at hwithin
      have hlen : (capped.take offset).length = offset := by
        rw [List.length_take]
        omega
      refine ⟨?_, by rw [hlen]; exact hwithin⟩
      rw [hlen]
      exact htake _ hlt.le
  · split at h
    · obtain ⟨rfl, rfl⟩ := Prod.mk.inj (Option.some.inj h)
      exact ⟨List.prefix_iff_eq_take.mp hcapped, within_of_le hpos hle⟩
    · cases h

/-- **The end of a message logged with `^A`** lies within the bytes, and its copy is the copy
of the bytes before it. -/
theorem copyMessage_within {tokenizer : Tokenizer} {copy : Bytes}
    (hfirst : ∃ b, bytes[0]? = some b ∧ b ≠ carriageReturn ∧ b ≠ lineFeed ∧ b ≠ caret)
    (h : copyMessage tokenizer bytes atEnd = some (stop, copy)) :
    stop.Within bytes ∧ copy = restoreSoh (bytes.take stop.len) := by
  obtain ⟨b, hb, hcr, hlf, hcaret⟩ := hfirst
  simp only [copyMessage, Option.bind_eq_bind, Option.bind_eq_some_iff, Option.pure_def,
    Option.some.injEq, Prod.mk.injEq] at h
  obtain ⟨⟨logLine, consumed⟩, hline, stop', hend, rfl, rfl⟩ := h
  obtain ⟨htake, hwithin⟩ := findLine_within stop'.truncated ⟨b, hb, hcr, hlf⟩ hline
  -- the copy opens with the line's first byte
  have hcopy : ∃ c, (restoreSoh logLine)[0]? = some c ∧ c ≠ carriageReturn := by
    have hlineFirst : logLine[0]? = some b := by
      rw [htake, List.getElem?_take_of_lt hwithin.len_pos, hb]
    cases logLine with
    | nil => simp at hlineFirst
    | cons c rest =>
      obtain rfl : c = b := by simpa using hlineFirst
      refine ⟨c, ?_, hcr⟩
      rw [restoreSoh_cons, List.getElem?_cons_zero]
      intro hpre
      have := List.prefix_cons_iff.mp (show caret :: [65] <+: c :: rest from hpre)
      simp only [reduceCtorEq, List.cons.injEq, false_or] at this
      obtain ⟨_, ⟨heq, -⟩, -⟩ := this
      exact hcaret heq.symm
  have hendWithin := findEnd_within hcopy hend
  obtain ⟨hge, hle, hrestore⟩ := originalOffset_spec logLine
    (hendWithin.len_le.trans hendWithin.consumed_le)
  have hpos := hendWithin.len_pos
  have hall := hwithin.len_le.trans hwithin.consumed_le
  simp only at hall ⊢
  rw [← hrestore]
  generalize originalOffset logLine (restoreSoh logLine) stop'.len = len at hge hle ⊢
  refine ⟨?_, ?_⟩
  · split
    · next hfull =>
      rw [hfull]
      exact hwithin
    · exact within_of_le (by omega) (by omega)
  · nth_rewrite 1 [htake]
    rw [List.take_take, Nat.min_eq_left hle]

end Within

end Refix.Log
