import Refix.Log.End

/-!
# Ends Stand

What the search for a message's end decides on the bytes so far, it decides on more bytes
too: a field walk goes on where it went on, and an end stays the end. There is one exception,
`CutsEarly`: with a data length pending, the walk waits for data that may run on only when it
sees a field there, and cuts at a line feed when it sees none.
-/

namespace Refix.Log

open Refix.Foundation Refix.Message

/-- The cap where no line break is cut short. -/
theorem cap_eq {bytes : Bytes} {atEnd : Bool}
    (h : atEnd = true → bytes.getLast? ≠ some carriageReturn) :
    cap bytes atEnd =
      (bytes.take maxMessageLen, atEnd || decide (maxMessageLen ≤ bytes.length)) := by
  have hif : ¬ (atEnd = true ∧ bytes.getLast? = some carriageReturn) := fun ⟨h₁, h₂⟩ => h h₁ h₂
  have htake : bytes.take (min bytes.length maxMessageLen) = bytes.take maxMessageLen := by
    rcases Nat.le_total bytes.length maxMessageLen with hle | hle
    · rw [Nat.min_eq_left hle, List.take_length, List.take_of_length_le hle]
    · rw [Nat.min_eq_right hle]
  have hlen : ((bytes.take maxMessageLen).length == maxMessageLen) =
      decide (maxMessageLen ≤ bytes.length) := by
    rw [List.length_take, Bool.eq_iff_iff]
    simp only [beq_iff_eq, decide_eq_true_eq]
    omega
  simp only [cap, hif, if_false, htake, hlen]

section Stable

variable {bytes bytes' : Bytes} {atEnd : Bool}

/-- What follows a message is decided by at most two bytes. -/
theorem afterMessage_of_isPrefix (hpre : bytes <+: bytes') {len : ℕ} {stop : End}
    (h : afterMessage bytes len false = some stop) : afterMessage bytes' len atEnd = some stop := by
  have hdrop := drop_isPrefix_drop hpre len
  simp only [afterMessage] at h ⊢
  generalize bytes.drop len = after at h hdrop
  generalize bytes'.drop len = after' at hdrop ⊢
  split at h
  · cases h
  next hdecided =>
  simp only [true_and, not_or] at hdecided
  obtain ⟨hne, hcr⟩ := hdecided
  obtain ⟨more, rfl⟩ := hdrop
  obtain ⟨b, after, rfl⟩ := List.exists_cons_of_ne_nil hne
  cases after with
  | nil =>
    have hb : b ≠ carriageReturn := fun hb => hcr (by rw [hb])
    simp only [List.cons_prefix_cons, List.nil_prefix, and_true, hb.symm, false_and,
      List.cons_append, List.nil_append, reduceCtorEq, List.cons.injEq, hb, or_self, and_false,
      if_false] at h ⊢
    exact h
  | cons c after =>
    simp only [List.cons_prefix_cons, List.nil_prefix, and_true, List.cons_append, reduceCtorEq,
      List.cons.injEq, and_false, or_self, if_false] at h ⊢
    exact h

variable {capped capped' : Bytes} {separator : UInt8}

/-- What the start check makes sure of: a separator, and two more bytes. -/
def HasTag (bytes : Bytes) (separator : UInt8) : Prop :=
  ∃ i, bytes.findIdx? (· == separator) = some i ∧ i + 3 ≤ bytes.length

theorem findIdx?_of_isPrefix {p : UInt8 → Bool} (hpre : bytes <+: bytes') {i : ℕ}
    (h : bytes.findIdx? p = some i) : bytes'.findIdx? p = some i := by
  have hfrom : findFrom p bytes 0 = some i := by simp [findFrom, h]
  simpa [findFrom] using findFrom_of_isPrefix hpre hfrom

/-- Where BodyLength points is decided by the bytes up to its separator. -/
theorem declaredTrailer_of_isPrefix (hpre : capped <+: capped') (htag : HasTag capped separator)
    (h : declaredTrailer capped separator ≠ .undecided) :
    declaredTrailer capped' separator = declaredTrailer capped separator := by
  obtain ⟨i, hfind, hlen⟩ := htag
  have hdrop := drop_isPrefix_drop hpre (i + 1)
  have hlong : 2 ≤ (capped.drop (i + 1)).length := by
    rw [List.length_drop]
    omega
  simp only [declaredTrailer, hfind, findIdx?_of_isPrefix hpre hfind, Option.elim_some] at h ⊢
  generalize capped.drop (i + 1) = tag at h hdrop hlong ⊢
  generalize capped'.drop (i + 1) = tag' at hdrop ⊢
  cases hstrip : stripPrefix (ascii "9=") tag with
  | none =>
    -- the tag is another one
    have hstrip' : stripPrefix (ascii "9=") tag' = none := by
      simp only [stripPrefix, ite_eq_right_iff, reduceCtorEq, imp_false] at hstrip ⊢
      intro hnine
      exact hstrip (List.prefix_of_prefix_length_le hnine hdrop hlong)
    rw [hstrip']
  | some rest =>
    obtain rfl := stripPrefix_eq_some_iff.mp hstrip
    obtain ⟨more, rfl⟩ := hdrop
    rw [List.append_assoc, stripPrefix_eq_some_iff.mpr rfl]
    simp only [hstrip] at h
    have hrest : rest <+: rest ++ more := List.prefix_append ..
    have hgrow := runLength_le_of_isPrefix (p := isAsciiDigit) (n := maxBodyLengthDigits + 1) hrest
    by_cases hmany : maxBodyLengthDigits < runLength isAsciiDigit (maxBodyLengthDigits + 1) rest
    · simp only [hmany, hmany.trans_le hgrow, if_true]
    · simp only [hmany, if_false] at h ⊢
      cases hget : rest[runLength isAsciiDigit (maxBodyLengthDigits + 1) rest]? with
      | none => simp [hget] at h
      | some b =>
        have hlt := (List.getElem?_eq_some_iff.mp hget).1
        simp only [runLength_of_isPrefix hrest (Or.inl hlt), hmany, if_false,
          getElem?_eq_some_of_isPrefix hrest hget, take_eq_take_of_isPrefix hrest hlt.le]

/-- **The end BodyLength gives stands** as more bytes arrive, and so does that it gives none. -/
theorem byBodyLengthIn_of_isPrefix (atEnd : Bool) (hpre : bytes <+: bytes') {cappedFinal cappedFinal' : Bool}
    (hcapped : capped <+: capped')
    (hfinal : cappedFinal = true → capped' = capped ∧ cappedFinal' = true)
    (htag : HasTag capped separator)
    (h : byBodyLengthIn bytes capped cappedFinal separator false ≠ .pending) :
    byBodyLengthIn bytes' capped' cappedFinal' separator atEnd =
      byBodyLengthIn bytes capped cappedFinal separator false := by
  have hlen := hcapped.length_le
  -- what waits for more bytes does not once the bytes are final
  have hundecided : ∀ result, (if cappedFinal then BodyLengthEnd.notFound else .pending) = result →
      result ≠ .pending → capped' = capped ∧ cappedFinal = true ∧ cappedFinal' = true := by
    rintro result rfl hne
    cases hcf : cappedFinal with
    | false => simp [hcf] at hne
    | true => exact ⟨(hfinal hcf).1, rfl, (hfinal hcf).2⟩
  unfold byBodyLengthIn at h ⊢
  simp only at h ⊢
  cases hdecl : declaredTrailer capped separator with
  | notFound => rw [declaredTrailer_of_isPrefix hcapped htag (by rw [hdecl]; nofun), hdecl]
  | undecided =>
    rw [hdecl] at h
    obtain ⟨hsame, hcf, hcf'⟩ := hundecided _ rfl h
    rw [hsame, hdecl, hcf, hcf']
  | declared trailerStart =>
    rw [hdecl] at h
    rw [declaredTrailer_of_isPrefix hcapped htag (by rw [hdecl]; nofun), hdecl]
    simp only at h ⊢
    by_cases hshort : capped.length < trailerStart + 3
    · rw [if_pos hshort] at h ⊢
      obtain ⟨hsame, hcf, hcf'⟩ := hundecided _ rfl h
      rw [hsame, if_pos hshort, hcf, hcf']
    rw [if_neg hshort] at h
    rw [if_neg hshort, if_neg (show ¬ capped'.length < trailerStart + 3 by omega),
      slice_of_isPrefix hcapped (by omega)]
    by_cases htrailer : slice capped (trailerStart - 1) (trailerStart + 3) ≠
        separator :: ascii "10="
    · rw [if_pos htrailer, if_pos htrailer]
    rw [if_neg htrailer] at h ⊢
    rw [if_neg htrailer]
    cases hvalue : findFrom (fun b => b == separator || b == lineFeed) capped
        (trailerStart + 3) with
    | some offset =>
      have hlt := (findFrom_lt hvalue).2
      rw [hvalue] at h
      simp only [findFrom_of_isPrefix hcapped hvalue, getElem?_of_isPrefix hcapped hlt] at h ⊢
      split
      · next hsep =>
        rw [if_pos hsep] at h
        cases hafter : afterMessage bytes (offset + 1) false with
        | none => simp [hafter] at h
        | some stop => rw [afterMessage_of_isPrefix hpre hafter]
      · simp only [atLineBreak, getElem?_of_isPrefix hcapped (show offset - 1 < capped.length by
          omega)]
    | none =>
      rw [hvalue] at h
      simp only at h ⊢
      cases hcf : cappedFinal with
      | false => simp [hcf] at h
      | true =>
        obtain ⟨hsame, hcf'⟩ := hfinal hcf
        rw [hsame, hvalue, hcf']

variable {tokenizer : Tokenizer} {separatorOverride : Option UInt8} {pos : ℕ}
  {dataLen : Option ℕ} {cappedFinal cappedFinal' : Bool}

/-- A round that finds no field waits, unless it cuts at a line feed. With a data length
pending this is too early: the data may hold the line feed. -/
def EarlyLineFeed (capped : Bytes) (separator : UInt8) (pos : ℕ) (dataLen : Option ℕ) : Prop :=
  nextField capped pos dataLen separator = none ∧ dataLen ≠ none ∧ lineFeed ∈ capped.drop pos

/-- The search of a round that reaches the end of the bytes so far: what it finds there stays
found when it reaches further. -/
theorem search_of_isPrefix (separatorOverride : Option UInt8) (atEnd : Bool)
    (hpre : bytes <+: bytes') (hcapped : capped <+: capped')
    (hin : capped.length ≤ bytes.length) (lo : ℕ) {stop : ℕ} (hstop : capped.length ≤ stop) :
    match findStart bytes lo ((findFrom (· == lineFeed) capped lo).getD capped.length)
        separatorOverride false, findFrom (· == lineFeed) capped lo with
    | .found start, _ =>
      findStart bytes' lo ((findFrom (· == lineFeed) (capped'.take stop) lo).getD stop)
        separatorOverride atEnd = .found start
    | .pending _, _ => True
    | .notFound, none => True
    | .notFound, some offset =>
      findFrom (· == lineFeed) (capped'.take stop) lo = some offset ∧
        findStart bytes' lo offset separatorOverride atEnd = .notFound := by
  have htake : capped <+: capped'.take stop := by
    rw [List.prefix_take_iff]
    exact ⟨hcapped, hstop⟩
  -- A line feed that is found stays the first; without one the search reaches further and may meet
  -- one, behind what was searched.
  cases hfind : findFrom (· == lineFeed) capped lo with
  | some offset =>
    have hlt := (findFrom_lt hfind).2
    rw [findFrom_of_isPrefix htake hfind, Option.getD_some, Option.getD_some]
    cases hstart : findStart bytes lo offset separatorOverride false with
    | found start => exact findStart_found_of_isPrefix hpre hstart le_rfl (by omega) atEnd
    | pending _ => trivial
    | notFound => exact ⟨rfl, findStart_notFound_of_isPrefix hpre hstart (by omega) atEnd⟩
  | none =>
    rw [Option.getD_none]
    cases hstart : findStart bytes lo capped.length separatorOverride false with
    | found start =>
      refine findStart_found_of_isPrefix hpre hstart ?_ hin atEnd
      cases hfind' : findFrom (· == lineFeed) (capped'.take stop) lo with
      | none => exact hstop
      | some offset => exact le_of_findFrom_eq_none htake hfind hfind'
    | pending _ => trivial
    | notFound => trivial

/-- A round whose field is the same on more bytes: either no more can join the message, or the
field ends inside the bytes so far. -/
private theorem walkStep_of_same (hpre : bytes <+: bytes') (hcapped : capped <+: capped')
    (hin : capped.length ≤ bytes.length) (hlen : capped.length ≤ u32Max)
    {next : Option (RawField × ℕ)} (hnext : nextField capped pos dataLen separator = next)
    (hnext' : nextField capped' pos dataLen separator = next)
    (hwait : waitsForData capped cappedFinal dataLen next = false)
    (hwait' : waitsForData capped' cappedFinal' dataLen next = false)
    (hsame : (capped' = capped ∧ cappedFinal' = cappedFinal) ∨
      ∃ field after, next = some (field, after) ∧ field.valueEnd < capped.length)
    (h : walkStep tokenizer bytes capped cappedFinal separator separatorOverride false pos dataLen ≠
      .done none) :
    walkStep tokenizer bytes' capped' cappedFinal' separator separatorOverride atEnd pos dataLen =
      walkStep tokenizer bytes capped cappedFinal separator separatorOverride false pos
        dataLen := by
  have hchecked := checkedEnd_le hlen hnext
  have hchecked' : checkedEnd capped' dataLen next = checkedEnd capped dataLen next := by
    rcases hsame with ⟨rfl, -⟩ | ⟨field, after, rfl, -⟩ <;> rfl
  simp only [walkStep, hnext, hnext', hwait, hwait', Bool.false_eq_true, if_false, hchecked',
    take_eq_take_of_isPrefix hcapped hchecked] at h ⊢
  generalize checkedEnd capped dataLen next = stop at h hchecked ⊢
  have hbreak : ∀ offset, findFrom (· == lineFeed) (capped.take stop) (max pos 1) = some offset →
      offset < capped.length := by
    intro offset hfind
    have := (findFrom_lt hfind).2
    rw [List.length_take] at this
    omega
  have hsearch : (findFrom (· == lineFeed) (capped.take stop) (max pos 1)).getD stop ≤
      bytes.length := by
    cases hfind : findFrom (· == lineFeed) (capped.take stop) (max pos 1) with
    | none => exact hchecked.trans hin
    | some offset => exact (hbreak offset hfind).le.trans hin
  cases hstart : findStart bytes (max pos 1)
      ((findFrom (· == lineFeed) (capped.take stop) (max pos 1)).getD stop) separatorOverride
      false with
  | found start => rw [findStart_found_of_isPrefix hpre hstart le_rfl hsearch atEnd]
  | pending _ => simp [hstart] at h
  | notFound =>
    rw [findStart_notFound_of_isPrefix hpre hstart hsearch atEnd]
    rw [hstart] at h
    simp only at h ⊢
    cases hfind : findFrom (· == lineFeed) (capped.take stop) (max pos 1) with
    | some offset =>
      have hlt := hbreak offset hfind
      simp only [atLineBreak, getElem?_of_isPrefix hcapped (show offset - 1 < capped.length by
        omega)]
    | none =>
    rw [hfind] at h
    simp only at h ⊢
    cases next with
    | none =>
      obtain ⟨rfl, rfl⟩ : capped' = capped ∧ cappedFinal' = cappedFinal := by simpa using hsame
      rfl
    | some read =>
      obtain ⟨field, after⟩ := read
      have hbounds := nextField_bounds hlen hnext
      have hpending := pendingDataLen_of_isPrefix tokenizer hcapped hbounds.2.2.2
      -- the field ends the bytes in both rounds, or in neither
      have hends : (field.valueEnd = capped'.length ↔ field.valueEnd = capped.length) ∧
          (field.valueEnd = capped.length → capped' = capped ∧ cappedFinal' = cappedFinal) := by
        rcases hsame with ⟨rfl, rfl⟩ | ⟨_, _, heq, hlt⟩
        · exact ⟨Iff.rfl, fun _ => ⟨rfl, rfl⟩⟩
        · obtain ⟨rfl, rfl⟩ := Prod.mk.inj (Option.some.inj heq)
          have := hcapped.length_le
          constructor
          · constructor <;> intro hend <;> omega
          · intro hend
            omega
      simp only [hends.1, hpending] at h ⊢
      split
      · next hend =>
        obtain ⟨rfl, rfl⟩ := hends.2 hend
        rfl
      · next hend =>
        rw [if_neg hend] at h
        split
        · next htag =>
          rw [if_pos htag] at h
          cases hafter : afterMessage bytes after false with
          | none => simp [hafter] at h
          | some stop => rw [afterMessage_of_isPrefix hpre hafter]
        · rfl

/-- Where no field follows, no message starts either. -/
theorem findStart_ne_found (hnone : nextField bytes pos dataLen separator = none) {lo hi : ℕ}
    (hlo : pos ≤ lo) {start : Start} :
    findStart bytes lo hi separatorOverride atEnd ≠ .found start := by
  intro hfound
  have htagEnd := nextField_eq_none_iff.mp hnone
  cases findStart_eq_iff.mp hfound with
  | found hle hhi hcheck hbefore =>
    unfold checkAt at hcheck
    split at hcheck
    · cases hcheck
    · obtain ⟨parts, -, -, rest, hrest⟩ := check_eq_start_iff.mp hcheck
      -- the `=` of `8=` stands behind `pos`
      have hequals : bytes[start.offset + 1]? = some equalsSign := by
        rw [← List.getElem?_drop, ← hrest]
        rfl
      exact absurd rfl (findTagEnd_eq_none_iff.mp htagEnd _ _ (by omega) hequals).1

/-- A round whose field, or the lack of one, reaches the end of the bytes so far: it ends at a
start or a line feed that is there already. -/
private theorem walkStep_of_open (hpre : bytes <+: bytes') (hcapped : capped <+: capped')
    (hin : capped.length ≤ bytes.length) {next next' : Option (RawField × ℕ)}
    (hnext : nextField capped pos dataLen separator = next)
    (hnext' : nextField capped' pos dataLen separator = next')
    (hwait : waitsForData capped false dataLen next = false)
    (hwait' : waitsForData capped' cappedFinal' dataLen next' = false)
    (hstop : checkedEnd capped dataLen next = capped.length)
    (hstop' : capped.length ≤ checkedEnd capped' dataLen next')
    (hends : ∀ field after, next = some (field, after) → field.valueEnd = capped.length)
    (htag : lineFeed ∈ capped.drop pos →
      next'.any (fun read => read.1.tag == checksumTag) =
        next.any fun read => read.1.tag == checksumTag)
    (h : walkStep tokenizer bytes capped false separator separatorOverride false pos dataLen ≠
      .done none) :
    walkStep tokenizer bytes' capped' cappedFinal' separator separatorOverride atEnd pos dataLen =
      walkStep tokenizer bytes capped false separator separatorOverride false pos dataLen := by
  have hsearch := search_of_isPrefix separatorOverride atEnd hpre hcapped hin (max pos 1) hstop'
  simp only [walkStep, hnext, hnext', hwait, hwait', Bool.false_eq_true, if_false, hstop,
    List.take_length] at h ⊢
  cases hstart : findStart bytes (max pos 1)
      ((findFrom (· == lineFeed) capped (max pos 1)).getD capped.length) separatorOverride
      false with
  | found start =>
    rw [hstart] at hsearch
    rw [hsearch]
  | pending _ => simp [hstart] at h
  | notFound =>
    rw [hstart] at h hsearch
    cases hfind : findFrom (· == lineFeed) capped (max pos 1) with
    | some offset =>
      rw [hfind] at hsearch
      obtain ⟨hfind', hstart'⟩ := hsearch
      obtain ⟨hle, ⟨b, hb, heq⟩, -⟩ := findFrom_eq_some_iff.mp hfind
      have hlt := (List.getElem?_eq_some_iff.mp hb).1
      have hmem : lineFeed ∈ capped.drop pos := by
        apply List.mem_of_getElem? (i := offset - pos)
        rw [List.getElem?_drop, Nat.add_sub_cancel' (by omega), hb, eq_of_beq heq]
      simp only [hfind', Option.getD_some, hstart', atLineBreak, htag hmem,
        getElem?_of_isPrefix hcapped (show offset - 1 < capped.length by omega)]
    | none =>
      -- without either, the round waits
      rw [hfind] at h
      cases next with
      | none => simp at h
      | some read => simp [hends read.1 read.2 rfl] at h

/-- **A round that ends the walk, or goes on, does the same on more bytes**, unless it is the
early cut at a line feed. -/
theorem walkStep_of_isPrefix (hpre : bytes <+: bytes') (hcapped : capped <+: capped')
    (hin : capped.length ≤ bytes.length) (hlen : capped'.length ≤ u32Max)
    (hfinal : cappedFinal = true → capped' = capped ∧ cappedFinal' = true)
    (hopen : cappedFinal = false → capped = bytes ∧ ¬ EarlyLineFeed capped separator pos dataLen)
    (h : walkStep tokenizer bytes capped cappedFinal separator separatorOverride false pos dataLen ≠
      .done none) :
    walkStep tokenizer bytes' capped' cappedFinal' separator separatorOverride atEnd pos dataLen =
      walkStep tokenizer bytes capped cappedFinal separator separatorOverride false pos
        dataLen := by
  have hle := hcapped.length_le
  cases hcf : cappedFinal with
  | true =>
    obtain ⟨rfl, rfl⟩ := hfinal hcf
    rw [hcf] at h
    exact walkStep_of_same hpre hcapped hin hlen rfl rfl (waitsForData_final _)
      (waitsForData_final _) (Or.inl ⟨rfl, rfl⟩) h
  | false =>
  obtain ⟨hsame, hearly⟩ := hopen hcf
  rw [hcf] at h
  have hlo : pos ≤ max pos 1 := Nat.le_max_left _ _
  cases hnext : nextField capped pos dataLen separator with
  | none =>
    -- only a line feed, with no length pending, ends the walk here
    have hdata : dataLen = none := by
      by_contra hdata
      have hnoBreak : findFrom (· == lineFeed) capped (max pos 1) = none := by
        refine findFrom_eq_none_iff.mpr ?_
        intro k b hk hb
        rw [beq_eq_false_iff_ne]
        rintro rfl
        apply hearly
        refine ⟨hnext, hdata, List.mem_of_getElem? (i := k - pos) ?_⟩
        rw [List.getElem?_drop, Nat.add_sub_cancel' (hlo.trans hk), hb]
      simp only [walkStep, hnext, waitsForData_none, Bool.false_eq_true, if_false, checkedEnd,
        Option.elim_none, List.take_length, hnoBreak, Option.getD_none] at h
      cases hstart : findStart bytes (max pos 1) capped.length separatorOverride false with
      | found start => exact findStart_ne_found (hsame ▸ hnext) hlo hstart
      | pending _ => simp [hstart] at h
      | notFound => simp [hstart] at h
    subst hdata
    refine walkStep_of_open hpre hcapped hin hnext rfl rfl ?_ rfl ?_ ?_ ?_ h
    · cases nextField capped' pos none separator <;> rfl
    · cases hnext' : nextField capped' pos none separator with
      | none => exact hle
      | some read =>
        obtain ⟨field', after'⟩ := read
        simpa [checkedEnd] using (nextField_of_eq_none hcapped hlen hnext hnext').1
    · intro _ _ heq
      cases heq
    · -- a tag with a line feed is no number
      intro hmem
      cases hnext' : nextField capped' pos none separator with
      | none => rfl
      | some read =>
        obtain ⟨field', after'⟩ := read
        obtain ⟨k, hk⟩ := List.mem_iff_getElem?.mp hmem
        rw [List.getElem?_drop] at hk
        have htag := (nextField_of_eq_none hcapped hlen hnext hnext').2 (pos + k) lineFeed
          (Nat.le_add_right _ _) hk (by decide)
        simp [htag, malformed, checksumTag]
  | some read =>
    obtain ⟨field, after⟩ := read
    cases hwait : waitsForData capped false dataLen (some (field, after)) with
    | true => simp [walkStep, hnext, hwait] at h
    | false =>
      have hinside := waitsForData_eq_false_iff.mp hwait
      have hwait' : ∀ field' : RawField, field'.valueStart = field.valueStart → ∀ after',
          waitsForData capped' cappedFinal' dataLen (some (field', after')) = false := by
        intro field' hstart after'
        cases cappedFinal' with
        | true => exact waitsForData_final _
        | false =>
          refine waitsForData_eq_false_iff.mpr (fun len hlen' => ?_)
          have := hinside len hlen'
          omega
      have hbounds := nextField_bounds (by omega) hnext
      rcases hbounds.2.2.2.lt_or_eq with hlt | hend
      · exact walkStep_of_same hpre hcapped hin (by omega) hnext
          (nextField_of_isPrefix hcapped hlen hnext hlt hinside) hwait (hwait' field rfl after)
          (Or.inr ⟨field, after, rfl, hlt⟩) h
      · -- the value runs on, longer than the pending length
        obtain ⟨field', after', hnext', htag, hstart, hfar⟩ :=
          nextField_unterminated_of_isPrefix hcapped hlen hnext hend
        have hnot : ∀ stop, capped.length ≤ stop →
            dataLen ≠ some (stop - field.valueStart) := by
          intro stop hstop hdata
          have := hinside _ hdata
          omega
        refine walkStep_of_open hpre hcapped hin hnext hnext' hwait (hwait' field' hstart after')
          ?_ ?_ ?_ (fun _ => by simp [htag]) h
        · simp only [checkedEnd, Option.elim_some, hend, if_neg (hnot _ le_rfl)]
        · simp only [checkedEnd, Option.elim_some, hstart, if_neg (hnot _ hfar)]
          exact hfar
        · rintro _ _ ⟨⟩
          exact hend

/-- The round that a walk ends with: its position and pending data length. -/
def lastRound (tokenizer : Tokenizer) (bytes capped : Bytes) (cappedFinal : Bool)
    (separator : UInt8) (separatorOverride : Option UInt8) (atEnd : Bool) (pos : ℕ)
    (dataLen : Option ℕ) : ℕ × Option ℕ :=
  match _h : walkStep tokenizer bytes capped cappedFinal separator separatorOverride atEnd pos
      dataLen with
  | .done _ => (pos, dataLen)
  | .next pos' dataLen' =>
    lastRound tokenizer bytes capped cappedFinal separator separatorOverride atEnd pos' dataLen'
termination_by capped.length + 1 - pos
decreasing_by
  obtain ⟨field, hread, -⟩ := walkStep_eq_next _h
  have := nextField_lt hread
  omega

theorem lastRound_of_done {stop : Option End}
    (h : walkStep tokenizer bytes capped cappedFinal separator separatorOverride atEnd pos dataLen =
      .done stop) :
    lastRound tokenizer bytes capped cappedFinal separator separatorOverride atEnd pos dataLen =
      (pos, dataLen) := by
  rw [lastRound]
  split
  · rfl
  · next hnext => exact absurd (h.symm.trans hnext) (by simp)

theorem lastRound_of_next {pos' : ℕ} {dataLen' : Option ℕ}
    (h : walkStep tokenizer bytes capped cappedFinal separator separatorOverride atEnd pos dataLen =
      .next pos' dataLen') :
    lastRound tokenizer bytes capped cappedFinal separator separatorOverride atEnd pos dataLen =
      lastRound tokenizer bytes capped cappedFinal separator separatorOverride atEnd pos'
        dataLen' := by
  rw [lastRound]
  split
  · next hdone => exact absurd (h.symm.trans hdone) (by simp)
  · next hnext =>
    obtain ⟨rfl, rfl⟩ := WalkStep.next.inj (h.symm.trans hnext)
    rfl

/-- The end of the message at the start of `bytes` is left to a walk, and the walk ends with
the early cut: with a data length pending, it comes to a line feed that has neither `=` nor
separator behind it. -/
def CutsEarly (tokenizer : Tokenizer) (bytes : Bytes) (separator : UInt8)
    (separatorOverride : Option UInt8) : Prop :=
  bytes.length < maxMessageLen ∧ byBodyLength bytes separator false = .notFound ∧
    let round := lastRound tokenizer bytes bytes false separator separatorOverride false 0 none
    EarlyLineFeed bytes separator round.1 round.2

instance : Decidable (EarlyLineFeed capped separator pos dataLen) :=
  inferInstanceAs (Decidable (_ ∧ _ ∧ _))

instance : Decidable (CutsEarly tokenizer bytes separator separatorOverride) :=
  inferInstanceAs (Decidable (_ ∧ _ ∧ _))

/-- **The end a walk comes to stands** as more bytes arrive. -/
theorem walkFrom_of_isPrefix (hpre : bytes <+: bytes') (hcapped : capped <+: capped')
    (hin : capped.length ≤ bytes.length) (hlen : capped'.length ≤ u32Max)
    (hfinal : cappedFinal = true → capped' = capped ∧ cappedFinal' = true)
    (hopen : cappedFinal = false → capped = bytes ∧
      let round := lastRound tokenizer bytes capped cappedFinal separator separatorOverride false
        pos dataLen
      ¬ EarlyLineFeed capped separator round.1 round.2)
    {stop : End}
    (h : walkFrom tokenizer bytes capped cappedFinal separator separatorOverride false pos
      dataLen = some stop) :
    walkFrom tokenizer bytes' capped' cappedFinal' separator separatorOverride atEnd pos dataLen =
      some stop := by
  induction hdist : capped.length + 1 - pos using Nat.strong_induction_on
    generalizing pos dataLen with
  | _ dist ih =>
    cases hstep : walkStep tokenizer bytes capped cappedFinal separator separatorOverride false
        pos dataLen with
    | done result =>
      -- the last round, which is no early cut
      rw [lastRound_of_done hstep] at hopen
      rw [walkFrom_of_done hstep] at h
      subst h
      apply walkFrom_of_done
      rw [walkStep_of_isPrefix hpre hcapped hin hlen hfinal hopen (by rw [hstep]; simp), hstep]
    | next pos' dataLen' =>
      obtain ⟨field, hread, -⟩ := walkStep_eq_next hstep
      have hlt := nextField_lt hread
      have hstays : cappedFinal = false → capped = bytes ∧
          ¬ EarlyLineFeed capped separator pos dataLen := by
        intro hcf
        refine ⟨(hopen hcf).1, ?_⟩
        rintro ⟨hnone, -⟩
        rw [hread] at hnone
        cases hnone
      rw [lastRound_of_next hstep] at hopen
      rw [walkFrom_of_next hstep] at h
      have hsame : walkStep tokenizer bytes' capped' cappedFinal' separator separatorOverride atEnd
          pos dataLen = .next pos' dataLen' := by
        rw [walkStep_of_isPrefix hpre hcapped hin hlen hfinal hstays (by rw [hstep]; nofun), hstep]
      rw [walkFrom_of_next hsame]
      exact ih _ (by omega) hopen h rfl

/-- The cap of a longer log keeps the bytes of a shorter one that was full. -/
theorem take_maxMessageLen_of_full (hpre : bytes <+: bytes')
    (hfull : (false || decide (maxMessageLen ≤ bytes.length)) = true) :
    bytes'.take maxMessageLen = bytes.take maxMessageLen ∧
      (atEnd || decide (maxMessageLen ≤ bytes'.length)) = true := by
  simp only [Bool.false_or, decide_eq_true_eq] at hfull
  refine ⟨take_eq_take_of_isPrefix hpre hfull, ?_⟩
  simp [hfull.trans hpre.length_le]

/-- **What BodyLength gives stands** as more bytes arrive, or as the log ends without a line break
cut short. -/
theorem byBodyLength_of_isPrefix (hpre : bytes <+: bytes')
    (hbreak : atEnd = true → bytes'.getLast? ≠ some carriageReturn)
    (htag : HasTag (bytes.take maxMessageLen) separator)
    (h : byBodyLength bytes separator false ≠ .pending) :
    byBodyLength bytes' separator atEnd = byBodyLength bytes separator false := by
  have hcap : cap bytes false =
      (bytes.take maxMessageLen, false || decide (maxMessageLen ≤ bytes.length)) := cap_eq nofun
  simp only [byBodyLength, hcap, cap_eq hbreak] at h ⊢
  exact byBodyLengthIn_of_isPrefix atEnd hpre (take_isPrefix_take hpre maxMessageLen)
    (take_maxMessageLen_of_full hpre) htag h

/-- **The end of a message stands** as more bytes arrive, or as the log ends without a line
break cut short. -/
theorem findEnd_of_isPrefix (hpre : bytes <+: bytes')
    (hbreak : atEnd = true → bytes'.getLast? ≠ some carriageReturn)
    (htag : HasTag (bytes.take maxMessageLen) separator)
    (hearly : ¬ CutsEarly tokenizer bytes separator separatorOverride) {stop : End}
    (h : findEnd tokenizer bytes separator separatorOverride false = some stop) :
    findEnd tokenizer bytes' separator separatorOverride atEnd = some stop := by
  have hcapped := take_isPrefix_take hpre maxMessageLen
  have hshort : (bytes'.take maxMessageLen).length ≤ u32Max := by
    rw [List.length_take]
    exact (Nat.min_le_left _ _).trans (by decide)
  have hbody := byBodyLength_of_isPrefix hpre hbreak htag
  have hcap : cap bytes false =
      (bytes.take maxMessageLen, false || decide (maxMessageLen ≤ bytes.length)) := cap_eq nofun
  simp only [findEnd] at h ⊢
  -- A BodyLength that decides stands; one that does not leaves the end to the walk.
  cases hresult : byBodyLength bytes separator false with
  | pending =>
    rw [hresult] at h
    cases h
  | found end' =>
    rw [hbody (by rw [hresult]; nofun), hresult]
    rwa [hresult] at h
  | notFound =>
    rw [hbody (by rw [hresult]; nofun), hresult]
    rw [hresult] at h
    simp only [walk, hcap, cap_eq hbreak] at h ⊢
    refine walkFrom_of_isPrefix hpre hcapped ?_ hshort (take_maxMessageLen_of_full hpre) ?_ h
    · rw [List.length_take]
      exact Nat.min_le_right _ _
    · intro hopen
      rw [hopen]
      simp only [Bool.false_or, decide_eq_false_iff_not, Nat.not_le] at hopen
      -- While the cap is open all the bytes are walked, and no line feed cuts them early.
      have hsame : bytes.take maxMessageLen = bytes := List.take_of_length_le hopen.le
      rw [hsame]
      exact ⟨rfl, fun hline => hearly ⟨hopen, hresult, hline⟩⟩

end Stable

end Refix.Log
