import Refix.Message.Fields

/-!
# Message Starts in a Log

A message starts at an `8=FIX` that does not follow a digit, with the rest of a BeginString
value, a separator, and a tag with its `=`. The separator is detected unless it is given.

A candidate is decided as soon as enough bytes are there, and the decision stands whatever
follows (`check_of_isPrefix`). Until then it is pending.
-/

namespace Refix.Log

open Refix.Foundation Refix.Message

/-- Longest tag we'll read after a BeginString, in digits. -/
def maxTagDigits : ℕ := 10

def lineFeed : UInt8 := 10

def carriageReturn : UInt8 := 13

def caret : UInt8 := 94

/-- How a logged message's fields end. -/
inductive Separator where
  | byte (b : UInt8)
  /-- The two characters `cat -v` and `less` show SOH as. -/
  | caretA
  deriving DecidableEq, Repr

/-- Where a message starts in a log. -/
structure Start where
  /-- Offset of its `8=`. -/
  offset : ℕ
  /-- What ends each of its fields. -/
  separator : Separator
  deriving DecidableEq, Repr

inductive NextStart where
  | found (start : Start)
  /-- The candidate at this offset needs more bytes to decide. -/
  | pending (offset : ℕ)
  | notFound
  deriving DecidableEq, Repr

inductive Check where
  | start (separator : Separator)
  | notStart
  | pending
  deriving DecidableEq, Repr

/-! ## One candidate -/

def isAsciiAlphanumeric (b : UInt8) : Bool :=
  isAsciiDigit b || (65 ≤ b && b ≤ 90) || (97 ≤ b && b ≤ 122)

/-- Whether a byte may stand in a BeginString value. -/
def isVersionByte (b : UInt8) : Bool := isAsciiAlphanumeric b || b == 46

/-- The separator that the byte found after the BeginString value begins, or what the check
ends with. -/
def findSeparatorAt (bytes : Bytes) (valueEnd : ℕ) (found : UInt8) :
    Option UInt8 → Except Check Separator
  | some separator => if found ≠ separator then .error .notStart else .ok (.byte separator)
  | none =>
    if found = lineFeed ∨ found = carriageReturn then .error .notStart
    else if found = caret then
      match bytes[valueEnd + 1]? with
      | none => .error .pending
      | some next => if next = 65 then .ok .caretA else .ok (.byte caret)
    else .ok (.byte found)

def Separator.length : Separator → ℕ
  | .byte _ => 1
  | .caretA => 2

/-- Whether `tag` opens with a tag and its `=`. -/
def checkTag (tag : Bytes) (separator : Separator) : Check :=
  let digits := runLength isAsciiDigit (maxTagDigits + 1) tag
  if maxTagDigits < digits then .notStart
  else
    match tag[digits]? with
    | none => .pending
    | some b => if b = equalsSign ∧ 0 < digits then .start separator else .notStart

/-- Whether `bytes` opens with a message start, and its separator if so. -/
def check (bytes : Bytes) (separator : Option UInt8) : Check :=
  let shared := min bytes.length beginStringPrefix.length
  if bytes.take shared ≠ beginStringPrefix.take shared then .notStart
  else if shared < beginStringPrefix.length then .pending
  else
    let valueEnd := beginStringPrefix.length +
      runLength isVersionByte maxBeginStringLen (bytes.drop beginStringPrefix.length)
    if maxBeginStringLen < valueEnd then .notStart
    else
      match bytes[valueEnd]? with
      | none => .pending
      | some found =>
        match findSeparatorAt bytes valueEnd found separator with
        | .error result => result
        | .ok separator => checkTag (bytes.drop (valueEnd + separator.length)) separator

/-- The candidate at `offset`, if it is one at all. -/
def checkAt (bytes : Bytes) (separator : Option UInt8) (offset : ℕ) : Check :=
  if bytes[offset]? ≠ some 56 ∨ 0 < offset ∧ (bytes[offset - 1]?).any isAsciiDigit then .notStart
  else check (bytes.drop offset) separator

/-! ## The first start in a range -/

/-- The first message start at one of `offsets`. -/
def findStartIn (bytes : Bytes) (separator : Option UInt8) (atEnd : Bool) : List ℕ → NextStart
  | [] => .notFound
  | offset :: offsets =>
    match checkAt bytes separator offset with
    | .start separator => .found ⟨offset, separator⟩
    | .pending => if atEnd then findStartIn bytes separator atEnd offsets else .pending offset
    | .notStart => findStartIn bytes separator atEnd offsets

/-- The first message start at an offset from `lo` up to, but not including, `hi`. -/
def findStart (bytes : Bytes) (lo hi : ℕ) (separator : Option UInt8) (atEnd : Bool) : NextStart :=
  findStartIn bytes separator atEnd (List.range' lo (hi - lo))

/-- An offset a search for a start passes over. -/
def Passes (bytes : Bytes) (separator : Option UInt8) (atEnd : Bool) (offset : ℕ) : Prop :=
  checkAt bytes separator offset = .notStart ∨
    checkAt bytes separator offset = .pending ∧ atEnd = true

/-- What a search over the offsets from `lo` up to `hi` may end with. -/
inductive FindsStart (bytes : Bytes) (separator : Option UInt8) (atEnd : Bool) (lo hi : ℕ) :
    NextStart → Prop where
  | found {start : Start} (hlo : lo ≤ start.offset) (hhi : start.offset < hi)
      (hcheck : checkAt bytes separator start.offset = .start start.separator)
      (hbefore : ∀ k, lo ≤ k → k < start.offset → Passes bytes separator atEnd k) :
      FindsStart bytes separator atEnd lo hi (.found start)
  | pending {offset : ℕ} (hlo : lo ≤ offset) (hhi : offset < hi)
      (hcheck : checkAt bytes separator offset = .pending) (hopen : atEnd = false)
      (hbefore : ∀ k, lo ≤ k → k < offset → Passes bytes separator atEnd k) :
      FindsStart bytes separator atEnd lo hi (.pending offset)
  | notFound (hall : ∀ k, lo ≤ k → k < hi → Passes bytes separator atEnd k) :
      FindsStart bytes separator atEnd lo hi .notFound

section FindStart

variable {bytes : Bytes} {separator : Option UInt8} {atEnd : Bool} {lo hi : ℕ}

/-- An offset that is passed over joins those before it. -/
private theorem FindsStart.cons {next : NextStart} (hpass : Passes bytes separator atEnd lo)
    (h : FindsStart bytes separator atEnd (lo + 1) hi next) :
    FindsStart bytes separator atEnd lo hi next := by
  have hstep : ∀ m, (∀ k, lo + 1 ≤ k → k < m → Passes bytes separator atEnd k) →
      ∀ k, lo ≤ k → k < m → Passes bytes separator atEnd k := by
    intro m hm k h₁ h₂
    rcases h₁.eq_or_lt with rfl | hlt
    · exact hpass
    · exact hm k hlt h₂
  cases h with
  | found hlo hhi hcheck hbefore => exact .found (by omega) hhi hcheck (hstep _ hbefore)
  | pending hlo hhi hcheck hopen hbefore =>
    exact .pending (by omega) hhi hcheck hopen (hstep _ hbefore)
  | notFound hall => exact .notFound (hstep _ hall)

private theorem findsStartIn (n : ℕ) :
    FindsStart bytes separator atEnd lo (lo + n)
      (findStartIn bytes separator atEnd (List.range' lo n)) := by
  induction n generalizing lo with
  | zero => exact .notFound (fun k h₁ h₂ => by omega)
  | succ n ih =>
    have hrest : FindsStart bytes separator atEnd (lo + 1) (lo + 1 + n)
        (findStartIn bytes separator atEnd (List.range' (lo + 1) n)) := ih
    rw [show lo + 1 + n = lo + (n + 1) by omega] at hrest
    rw [List.range'_succ, findStartIn]
    cases hcheck : checkAt bytes separator lo with
    | start found =>
      exact .found le_rfl (by simp) hcheck (fun k h₁ h₂ => absurd h₁ (Nat.not_le_of_lt h₂))
    | notStart => exact hrest.cons (Or.inl hcheck)
    | pending =>
      cases hend : atEnd with
      | true =>
        rw [hend] at hrest
        exact hrest.cons (Or.inr ⟨hcheck, rfl⟩)
      | false => exact .pending le_rfl (by omega) hcheck rfl (fun k h₁ h₂ => by omega)

theorem findsStart (bytes : Bytes) (lo hi : ℕ) (separator : Option UInt8) (atEnd : Bool) :
    FindsStart bytes separator atEnd lo hi (findStart bytes lo hi separator atEnd) := by
  have h : FindsStart bytes separator atEnd lo (lo + (hi - lo))
      (findStart bytes lo hi separator atEnd) := findsStartIn (hi - lo)
  rcases Nat.le_total lo hi with hle | hle
  · rwa [Nat.add_sub_cancel' hle] at h
  · -- an empty range
    rw [findStart, Nat.sub_eq_zero_of_le hle]
    exact .notFound (fun k h₁ h₂ => by omega)

theorem Passes.not_start {k : ℕ} (h : Passes bytes separator atEnd k) {found : Separator} :
    checkAt bytes separator k ≠ .start found := by
  rintro heq
  rcases h with h | ⟨h, -⟩ <;> rw [heq] at h <;> cases h

/-- A search ends with one result. -/
theorem FindsStart.unique {next next' : NextStart}
    (h : FindsStart bytes separator atEnd lo hi next)
    (h' : FindsStart bytes separator atEnd lo hi next') : next = next' := by
  have hpending : ∀ {k}, checkAt bytes separator k = .pending → atEnd = false →
      ¬ Passes bytes separator atEnd k := by
    rintro k hcheck hopen (hnot | ⟨-, hend⟩)
    · rw [hcheck] at hnot
      cases hnot
    · rw [hopen] at hend
      cases hend
  -- Two answers at different offsets cannot both be the first: the earlier one is not passed over.
  cases h with
  | @found start hlo hhi hcheck hbefore =>
    cases h' with
    | @found start' hlo' hhi' hcheck' hbefore' =>
      rcases Nat.lt_trichotomy start.offset start'.offset with hlt | heq | hgt
      · exact absurd hcheck (hbefore' _ hlo hlt).not_start
      · obtain ⟨offset, found⟩ := start
        obtain ⟨offset', found'⟩ := start'
        simp only at heq hcheck hcheck'
        subst heq
        rw [hcheck] at hcheck'
        rw [Check.start.inj hcheck']
      · exact absurd hcheck' (hbefore _ hlo' hgt).not_start
    | @pending offset' hlo' hhi' hcheck' hopen hbefore' =>
      rcases Nat.lt_trichotomy start.offset offset' with hlt | heq | hgt
      · exact absurd hcheck (hbefore' _ hlo hlt).not_start
      · rw [← heq, hcheck] at hcheck'
        cases hcheck'
      · exact absurd (hbefore _ hlo' hgt) (hpending hcheck' hopen)
    | notFound hall => exact absurd hcheck (hall _ hlo hhi).not_start
  | @pending offset hlo hhi hcheck hopen hbefore =>
    cases h' with
    | @found start' hlo' hhi' hcheck' hbefore' =>
      rcases Nat.lt_trichotomy start'.offset offset with hlt | heq | hgt
      · exact absurd hcheck' (hbefore _ hlo' hlt).not_start
      · rw [← heq, hcheck'] at hcheck
        cases hcheck
      · exact absurd (hbefore' _ hlo hgt) (hpending hcheck hopen)
    | @pending offset' hlo' hhi' hcheck' hopen' hbefore' =>
      rcases Nat.lt_trichotomy offset offset' with hlt | rfl | hgt
      · exact absurd (hbefore' _ hlo hlt) (hpending hcheck hopen)
      · rfl
      · exact absurd (hbefore _ hlo' hgt) (hpending hcheck' hopen)
    | notFound hall => exact absurd (hall _ hlo hhi) (hpending hcheck hopen)
  | notFound hall =>
    cases h' with
    | found hlo' hhi' hcheck' _ => exact absurd hcheck' (hall _ hlo' hhi').not_start
    | pending hlo' hhi' hcheck' hopen _ =>
      exact absurd (hall _ hlo' hhi') (hpending hcheck' hopen)
    | notFound _ => rfl

theorem findStart_eq_iff {next : NextStart} :
    findStart bytes lo hi separator atEnd = next ↔
      FindsStart bytes separator atEnd lo hi next := by
  constructor
  · rintro rfl
    exact findsStart bytes lo hi separator atEnd
  · exact (findsStart bytes lo hi separator atEnd).unique

end FindStart

/-! ## Decisions stand -/

section Stable

variable {bytes bytes' : Bytes}

theorem checkTag_of_isPrefix (h : bytes <+: bytes') {separator : Separator}
    (hdecided : checkTag bytes separator ≠ .pending) :
    checkTag bytes' separator = checkTag bytes separator := by
  have hgrow := runLength_le_of_isPrefix (p := isAsciiDigit) (n := maxTagDigits + 1) h
  by_cases hlong : maxTagDigits < runLength isAsciiDigit (maxTagDigits + 1) bytes
  · simp only [checkTag, hlong, hlong.trans_le hgrow, if_true]
  · simp only [checkTag, hlong, if_false] at hdecided ⊢
    cases hget : bytes[runLength isAsciiDigit (maxTagDigits + 1) bytes]? with
    | none => simp [hget] at hdecided
    | some b =>
      have hlt := (List.getElem?_eq_some_iff.mp hget).1
      rw [runLength_of_isPrefix h (Or.inl hlt), getElem?_eq_some_of_isPrefix h hget, if_neg hlong]

theorem findSeparatorAt_of_isPrefix (h : bytes <+: bytes') {valueEnd : ℕ} {found : UInt8}
    {separator : Option UInt8}
    (hdecided : findSeparatorAt bytes valueEnd found separator ≠ .error .pending) :
    findSeparatorAt bytes' valueEnd found separator =
      findSeparatorAt bytes valueEnd found separator := by
  cases separator with
  | some separator => rfl
  | none =>
    simp only [findSeparatorAt] at hdecided ⊢
    cases hget : bytes[valueEnd + 1]? with
    | none =>
      split
      · rfl
      split
      · simp_all
      · rfl
    | some next => rw [getElem?_eq_some_of_isPrefix h hget]

/-- **A candidate that is decided stays decided** as more bytes arrive. -/
theorem check_of_isPrefix (h : bytes <+: bytes') {separator : Option UInt8}
    (hdecided : check bytes separator ≠ .pending) :
    check bytes' separator = check bytes separator := by
  have hlen := h.length_le
  have hgrow := runLength_le_of_isPrefix (p := isVersionByte) (n := maxBeginStringLen)
    (drop_isPrefix_drop h beginStringPrefix.length)
  unfold check at hdecided ⊢
  simp only at hdecided ⊢
  -- Each guard that decides on `bytes` decides alike on the longer `bytes'`.
  by_cases hshared : bytes.take (min bytes.length beginStringPrefix.length) =
      beginStringPrefix.take (min bytes.length beginStringPrefix.length)
  · rw [if_neg (not_not.mpr hshared)] at hdecided ⊢
    by_cases hshort : min bytes.length beginStringPrefix.length < beginStringPrefix.length
    · rw [if_pos hshort] at hdecided
      exact absurd rfl hdecided
    have hfull : min bytes.length beginStringPrefix.length = beginStringPrefix.length := by omega
    have hfull' : min bytes'.length beginStringPrefix.length = beginStringPrefix.length := by omega
    rw [hfull] at hshared
    rw [if_neg hshort] at hdecided ⊢
    have hshared' : bytes'.take beginStringPrefix.length =
        beginStringPrefix.take beginStringPrefix.length := by
      rw [take_eq_take_of_isPrefix h (by omega), hshared]
    rw [hfull', if_neg (not_not.mpr hshared'), if_neg (lt_irrefl _)]
    by_cases hlong : maxBeginStringLen < beginStringPrefix.length +
        runLength isVersionByte maxBeginStringLen (bytes.drop beginStringPrefix.length)
    · rw [if_pos hlong, if_pos (by omega)]
    rw [if_neg hlong] at hdecided ⊢
    generalize hrun : runLength isVersionByte maxBeginStringLen
      (bytes.drop beginStringPrefix.length) = run at hdecided hlong ⊢
    cases hget : bytes[beginStringPrefix.length + run]? with
    | none => simp [hget] at hdecided
    | some found =>
      -- The version ends inside `bytes`, so it ends at the same byte of `bytes'`.
      have hlt := (List.getElem?_eq_some_iff.mp hget).1
      have hrun' : runLength isVersionByte maxBeginStringLen
          (bytes'.drop beginStringPrefix.length) = run := by
        rw [← hrun]
        apply runLength_of_isPrefix (drop_isPrefix_drop h _)
        rw [List.length_drop]
        omega
      rw [hget] at hdecided
      rw [hrun', if_neg hlong, getElem?_eq_some_of_isPrefix h hget]
      simp only at hdecided ⊢
      cases hfound : findSeparatorAt bytes (beginStringPrefix.length + run) found separator with
      | error result =>
        rw [hfound] at hdecided
        rw [findSeparatorAt_of_isPrefix h (by rw [hfound]; simpa using hdecided), hfound]
      | ok separator =>
        rw [hfound] at hdecided
        rw [findSeparatorAt_of_isPrefix h (by rw [hfound]; simp), hfound]
        exact checkTag_of_isPrefix (drop_isPrefix_drop h _) hdecided
  · rw [if_pos hshared, if_pos]
    intro hshared'
    apply hshared
    -- A mismatch with `8=FIX` lies within `bytes`, so more bytes do not take it away.
    have hmin : min (min bytes.length beginStringPrefix.length)
        (min bytes'.length beginStringPrefix.length) =
        min bytes.length beginStringPrefix.length := by omega
    have := congrArg (List.take (min bytes.length beginStringPrefix.length)) hshared'
    rw [List.take_take, List.take_take, hmin] at this
    rw [← this]
    exact (take_eq_take_of_isPrefix h (by omega)).symm

theorem checkAt_of_isPrefix (h : bytes <+: bytes') {separator : Option UInt8} {offset : ℕ}
    (hlt : offset < bytes.length) (hdecided : checkAt bytes separator offset ≠ .pending) :
    checkAt bytes' separator offset = checkAt bytes separator offset := by
  unfold checkAt at hdecided ⊢
  rw [getElem?_of_isPrefix h hlt, getElem?_of_isPrefix h (show offset - 1 < bytes.length by omega)]
  split
  · rfl
  · next hcandidate =>
    rw [if_neg hcandidate] at hdecided
    exact check_of_isPrefix (drop_isPrefix_drop h offset) hdecided

variable {separator : Option UInt8} {lo hi : ℕ}

/-- An offset passed over while the log is open is passed over for good. -/
theorem Passes.of_isPrefix (h : bytes <+: bytes') {offset : ℕ} (hlt : offset < bytes.length)
    (hpass : Passes bytes separator false offset) (atEnd : Bool) :
    Passes bytes' separator atEnd offset := by
  rcases hpass with hnot | ⟨-, hend⟩
  · exact Or.inl (by rw [checkAt_of_isPrefix h hlt (by rw [hnot]; nofun), hnot])
  · cases hend

/-- A start found while the log is open stays the first one. -/
theorem findStart_found_of_isPrefix (h : bytes <+: bytes') {start : Start}
    (hfound : findStart bytes lo hi separator false = .found start) {hi' : ℕ} (hle : hi ≤ hi')
    (hin : hi ≤ bytes.length) (atEnd : Bool) :
    findStart bytes' lo hi' separator atEnd = .found start := by
  cases findStart_eq_iff.mp hfound with
  | found hlo hhi hcheck hbefore =>
    refine findStart_eq_iff.mpr (.found hlo (by omega) ?_ ?_)
    · rw [checkAt_of_isPrefix h (by omega) (by rw [hcheck]; nofun), hcheck]
    · intro k h₁ h₂
      exact (hbefore k h₁ h₂).of_isPrefix h (by omega) atEnd

theorem findStart_notFound_of_isPrefix (h : bytes <+: bytes')
    (hnone : findStart bytes lo hi separator false = .notFound) (hin : hi ≤ bytes.length)
    (atEnd : Bool) : findStart bytes' lo hi separator atEnd = .notFound := by
  cases findStart_eq_iff.mp hnone with
  | notFound hall =>
    refine findStart_eq_iff.mpr (.notFound ?_)
    intro k h₁ h₂
    exact (hall k h₁ h₂).of_isPrefix h (by omega) atEnd

end Stable

/-! ## What a start looks like -/

/-- The bytes a separator is logged as. -/
def Separator.bytes : Separator → Bytes
  | .byte b => [b]
  | .caretA => ascii "^A"

@[simp] theorem Separator.length_bytes (separator : Separator) :
    separator.bytes.length = separator.length := by
  cases separator <;> rfl

/-- The separators that a check with a given separator, or with none, can find. -/
def Separator.Allowed (given : Option UInt8) : Separator → Prop
  | .byte b => isVersionByte b = false ∧
    match given with
    | some separator => b = separator
    | none => b ≠ lineFeed ∧ b ≠ carriageReturn
  | .caretA => given = none

/-- The front of a message in a log, up to the `=` of its second field. -/
structure StartParts where
  version : Bytes
  separator : Separator
  digits : Bytes

def StartParts.bytes (parts : StartParts) : Bytes :=
  ascii "8=" ++ (parts.version ++ (parts.separator.bytes ++ (parts.digits ++ [equalsSign])))

structure StartParts.Valid (parts : StartParts) (given : Option UInt8) : Prop where
  version_fix : ascii "FIX" <+: parts.version
  version_byte : ∀ b ∈ parts.version, isVersionByte b = true
  version_length : (ascii "8=" ++ parts.version).length ≤ 16
  separator_allowed : parts.separator.Allowed given
  digits_ne_nil : parts.digits ≠ []
  digits_digit : ∀ b ∈ parts.digits, isAsciiDigit b = true
  digits_length : parts.digits.length ≤ 10

private theorem checkTag_eq_start_iff {tag : Bytes} {separator found : Separator} :
    checkTag tag separator = .start found ↔
      found = separator ∧ ∃ digits rest, tag = digits ++ equalsSign :: rest ∧ digits ≠ [] ∧
        (∀ b ∈ digits, isAsciiDigit b = true) ∧ digits.length ≤ 10 := by
  constructor
  · intro h
    simp only [checkTag] at h
    split at h
    · cases h
    next hshort =>
    split at h
    · cases h
    next b hget =>
    split at h
    · next heq =>
      obtain ⟨rfl, hpos⟩ := heq
      obtain ⟨run, rest, htag, hlen, hrun, -⟩ :=
        exists_run_append (by simp only [maxTagDigits] at hshort ⊢; omega) hget
      refine ⟨(Check.start.inj h).symm, run, rest, htag, ?_, hrun, ?_⟩
      · rw [← List.length_pos_iff, hlen]
        exact hpos
      · simp only [maxTagDigits] at hshort hlen ⊢
        omega
    · cases h
  · rintro ⟨rfl, digits, rest, rfl, hne, hdigit, hlen⟩
    have hrun : runLength isAsciiDigit (maxTagDigits + 1) (digits ++ equalsSign :: rest) =
        digits.length :=
      runLength_append digits rest hdigit (by simp only [maxTagDigits]; omega) (by decide)
    have hpos := List.length_pos_iff.mpr hne
    simp [checkTag, hrun, show ¬ maxTagDigits < digits.length by simpa [maxTagDigits] using hlen,
      hpos]

/-- A separator that is found stands behind the BeginString value. -/
private theorem findSeparatorAt_eq_ok {before rest : Bytes} {found : UInt8}
    (hfound : isVersionByte found = false) {given : Option UInt8} {separator : Separator}
    (h : findSeparatorAt (before ++ found :: rest) before.length found given = .ok separator) :
    separator.Allowed given ∧ ∃ after, found :: rest = separator.bytes ++ after := by
  have hnext : (before ++ found :: rest)[before.length + 1]? = rest.head? := by
    rw [List.getElem?_append_right (by omega), Nat.add_sub_cancel_left, List.getElem?_cons_succ,
      List.head?_eq_getElem?]
  cases given with
  | some given =>
    simp only [findSeparatorAt] at h
    split at h
    · cases h
    · next heq =>
      obtain rfl := Except.ok.inj h
      rw [not_not] at heq
      exact ⟨⟨heq ▸ hfound, rfl⟩, rest, by rw [heq]; rfl⟩
  | none =>
    -- Without a given separator `^` counts as one of its own, unless `A` follows it.
    simp only [findSeparatorAt, hnext] at h
    split at h
    · cases h
    next hbreak =>
    rw [not_or] at hbreak
    split at h
    · next hcaret =>
      subst hcaret
      split at h
      · cases h
      · next next hhead =>
        split at h
        · next hA =>
          obtain rfl := Except.ok.inj h
          subst hA
          obtain ⟨after, rfl⟩ := List.head?_eq_some_iff.mp hhead
          exact ⟨rfl, after, rfl⟩
        · obtain rfl := Except.ok.inj h
          exact ⟨⟨hfound, hbreak⟩, rest, rfl⟩
    · obtain rfl := Except.ok.inj h
      exact ⟨⟨hfound, hbreak⟩, rest, rfl⟩

/-- An allowed separator before a digit is found. -/
private theorem findSeparatorAt_bytes (before rest : Bytes) {digit : UInt8}
    (hdigit : isAsciiDigit digit = true) {given : Option UInt8} {separator : Separator}
    (hallowed : separator.Allowed given) :
    ∃ found after, separator.bytes ++ digit :: rest = found :: after ∧
      isVersionByte found = false ∧
      findSeparatorAt (before ++ found :: after) before.length found given = .ok separator := by
  cases separator with
  | caretA =>
    obtain rfl : given = none := hallowed
    have hbreak : ¬ (caret = lineFeed ∨ caret = carriageReturn) := by decide
    exact ⟨caret, 65 :: digit :: rest, rfl, by decide, by simp [findSeparatorAt, hbreak]⟩
  | byte b =>
    obtain ⟨hversion, hgiven⟩ := hallowed
    refine ⟨b, digit :: rest, rfl, hversion, ?_⟩
    cases given with
    | some given =>
      obtain rfl : b = given := hgiven
      simp [findSeparatorAt]
    | none =>
      have hnext : (before ++ b :: digit :: rest)[before.length + 1]? = some digit := by
        rw [List.getElem?_append_right (by omega), Nat.add_sub_cancel_left]
        rfl
      have hA : digit ≠ 65 := by
        rintro rfl
        exact absurd hdigit (by decide)
      simp only [findSeparatorAt, hnext, hgiven.1, hgiven.2, or_self, if_false, hA]
      split
      · next hcaret => rw [hcaret]
      · rfl

private theorem findSeparatorAt_ne_start {bytes : Bytes} {valueEnd : ℕ} {found : UInt8}
    {given : Option UInt8} {separator : Separator} :
    findSeparatorAt bytes valueEnd found given ≠ .error (.start separator) := by
  intro h
  unfold findSeparatorAt at h
  repeat' split at h
  all_goals cases h

/-- **A start is found exactly** at a BeginString field, a separator that may be found, and a
tag with its `=`. -/
theorem check_eq_start_iff {bytes : Bytes} {given : Option UInt8} {separator : Separator} :
    check bytes given = .start separator ↔
      ∃ parts : StartParts, parts.Valid given ∧ parts.separator = separator ∧
        parts.bytes <+: bytes := by
  have hfive : beginStringPrefix.length = 5 := by decide
  have hprefix : beginStringPrefix = ascii "8=" ++ ascii "FIX" := by decide
  have hfixByte : ∀ b ∈ ascii "FIX", isVersionByte b = true := by decide +kernel
  constructor
  · intro h
    simp only [check] at h
    split at h
    · cases h
    next hshared =>
    split at h
    · cases h
    next hshort =>
    split at h
    · cases h
    next hlong =>
    split at h
    · cases h
    next found hget =>
    have hmin : min bytes.length beginStringPrefix.length = beginStringPrefix.length := by omega
    rw [not_not, hmin, List.take_length] at hshared
    -- Past the four guards the bytes begin with `8=FIX`, and `run` is what stands before the
    -- separator.
    obtain ⟨tail, rfl⟩ : ∃ tail, bytes = beginStringPrefix ++ tail :=
      ⟨bytes.drop beginStringPrefix.length, by
        nth_rewrite 1 [← hshared]
        rw [List.take_append_drop]⟩
    rw [List.drop_left] at h hget hlong
    rw [List.getElem?_append_right (Nat.le_add_right _ _), Nat.add_sub_cancel_left] at hget
    obtain ⟨run, rest, htail, hlen, hrun, hfound⟩ := exists_run_append
      (by simp only [maxBeginStringLen, hfive] at hlong ⊢; omega) hget
    have hsplit : beginStringPrefix ++ tail = (beginStringPrefix ++ run) ++ found :: rest := by
      rw [htail, List.append_assoc]
    rw [← hlen, ← List.length_append] at h
    rw [hsplit] at h
    split at h
    · next hresult =>
      -- A separator that is not found gives its own answer, which is never a start.
      subst h
      exact absurd hresult findSeparatorAt_ne_start
    · next separator' hresult =>
      obtain ⟨rfl, digits, after, htag, hne, hdigit, hshortTag⟩ := checkTag_eq_start_iff.mp h
      obtain ⟨hallowed, after', hafter⟩ := findSeparatorAt_eq_ok hfound hresult
      rw [hafter, ← List.append_assoc, ← Separator.length_bytes, ← List.length_append,
        List.drop_left] at htag
      have hbytes : beginStringPrefix ++ tail = (StartParts.mk (ascii "FIX" ++ run) separator
          digits).bytes ++ after := by
        rw [hsplit, hafter, htag, hprefix]
        simp [StartParts.bytes]
      refine ⟨⟨ascii "FIX" ++ run, separator, digits⟩, ?_, rfl, after, hbytes.symm⟩
      · refine ⟨List.prefix_append .., ?_, ?_, hallowed, hne, hdigit, hshortTag⟩
        · intro b hb
          rcases List.mem_append.mp hb with hb | hb
          · exact hfixByte b hb
          · exact hrun b hb
        · rw [← List.append_assoc, ← hprefix, List.length_append, hlen]
          simpa [maxBeginStringLen] using hlong
  · rintro ⟨⟨version, separator, digits⟩, hvalid, rfl, rest, rfl⟩
    -- Conversely, each guard of `check` is passed on the parts written out.
    obtain ⟨run, hversion⟩ := hvalid.version_fix
    simp only at hversion
    subst hversion
    have hrun : ∀ b ∈ run, isVersionByte b = true := fun b hb =>
      hvalid.version_byte b (List.mem_append_right _ hb)
    have hshort : beginStringPrefix.length + run.length ≤ maxBeginStringLen := by
      have := hvalid.version_length
      rwa [← List.append_assoc, ← hprefix, List.length_append] at this
    obtain ⟨digit, digits', rfl⟩ := List.exists_cons_of_ne_nil hvalid.digits_ne_nil
    obtain ⟨found, after, hbytes, hfound, hresult⟩ := findSeparatorAt_bytes
      (beginStringPrefix ++ run) (digits' ++ equalsSign :: rest)
      (hvalid.digits_digit digit (List.mem_cons_self ..)) hvalid.separator_allowed
    have hsplit : (StartParts.mk (ascii "FIX" ++ run) separator (digit :: digits')).bytes ++ rest =
        beginStringPrefix ++ (run ++ found :: after) := by
      rw [← hbytes, hprefix]
      simp [StartParts.bytes]
    have hlength : runLength isVersionByte maxBeginStringLen (run ++ found :: after) =
        run.length := runLength_append run after hrun (by omega) hfound
    have hget : (beginStringPrefix ++ (run ++ found :: after))[beginStringPrefix.length +
        run.length]? = some found := by
      rw [List.getElem?_append_right (Nat.le_add_right _ _), Nat.add_sub_cancel_left,
        List.getElem?_append_right le_rfl, Nat.sub_self, List.getElem?_cons_zero]
    have hmin : min (beginStringPrefix ++ (run ++ found :: after)).length
        beginStringPrefix.length = beginStringPrefix.length := by
      rw [List.length_append]
      omega
    rw [List.append_assoc, List.length_append] at hresult
    have htag : (beginStringPrefix ++ (run ++ found :: after)).drop (beginStringPrefix.length +
        run.length + separator.length) = digit :: digits' ++ equalsSign :: rest := by
      rw [← hbytes, ← Separator.length_bytes, ← List.append_assoc, ← List.append_assoc,
        ← List.length_append, ← List.length_append, List.drop_left]
      rfl
    rw [hsplit]
    simp only [check, hmin, List.take_left, List.take_length, ne_eq, not_true, if_false,
      lt_irrefl, List.drop_left, hlength, Nat.not_lt.mpr hshort, hget, hresult, htag]
    exact checkTag_eq_start_iff.mpr ⟨rfl, _, rest, rfl, hvalid.digits_ne_nil, hvalid.digits_digit,
      hvalid.digits_length⟩

end Refix.Log
