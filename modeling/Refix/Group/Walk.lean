import Refix.Group.Table
import Refix.Message.Scope

/-!
# Walking a Group

The walker follows a group table from the group's count field on, collects the instances as
scopes, and stops at the first field that is not the group's. A nested group is walked on
its own to find where it ends.

The loop is written with fuel. A field is consumed at every turn, so the fields left are
fuel enough, and the equations of `walkFrom` below do not mention it.
-/

namespace Refix.Message

open Refix.Foundation

/-! ## Counts -/

/-- Parses a NumInGroup value, which must be a non-negative integer: digits after an optional
plus sign. Bytes that are not UTF-8 are no digits either. -/
def parseCount (value : Bytes) : Option ℕ :=
  let digits := if value.head? = some 43 then value.tail else value
  if digits = [] ∨ digits.all isAsciiDigit = false then none else foldDigits usizeMax 0 digits

/-- A text denotes a count: it is digits after an optional plus sign. -/
def Counts (value : Bytes) (n : ℕ) : Prop :=
  ∃ digits, (value = digits ∨ value = 43 :: digits) ∧ digits ≠ [] ∧
    (∀ b ∈ digits, isAsciiDigit b = true) ∧ decimalValue digits = n

theorem Counts.parseCount_eq {value : Bytes} {n : ℕ} (h : Counts value n) (hn : n ≤ usizeMax) :
    parseCount value = some n := by
  obtain ⟨digits, hvalue, hne, hdigits, hdecimal⟩ := h
  have hstrip : (if value.head? = some 43 then value.tail else value) = digits := by
    rcases hvalue with rfl | rfl
    · -- a plus sign is no digit
      refine if_neg fun hplus => ?_
      have hdigit := hdigits 43 (List.mem_of_mem_head? (Option.mem_def.mpr hplus))
      exact absurd hdigit (by decide)
    · rfl
  have hall : digits.all isAsciiDigit = true := List.all_eq_true.mpr hdigits
  simp only [parseCount, hstrip, hne, hall, Bool.true_eq_false, or_self, if_false]
  exact foldDigits_eq_some_iff.mpr ⟨hdecimal, hn⟩

/-- A count is read exactly when the value denotes one that a `usize` holds. -/
theorem parseCount_eq_some_iff {value : Bytes} {n : ℕ} :
    parseCount value = some n ↔ Counts value n ∧ n ≤ usizeMax := by
  constructor
  · intro h
    unfold parseCount at h
    have hstrip : value = (if value.head? = some 43 then value.tail else value) ∨
        value = 43 :: (if value.head? = some 43 then value.tail else value) := by
      split_ifs with hplus
      · exact Or.inr (List.cons_head?_tail hplus).symm
      · exact Or.inl rfl
    generalize (if value.head? = some 43 then value.tail else value) = digits at h hstrip
    simp only [Option.ite_none_left_eq_some, not_or, Bool.not_eq_false, List.all_eq_true,
      foldDigits_eq_some_iff] at h
    obtain ⟨⟨hne, hdigits⟩, hn, hmax⟩ := h
    exact ⟨⟨digits, hstrip, hne, hdigits, hn⟩, hmax⟩
  · rintro ⟨hcounts, hmax⟩
    exact hcounts.parseCount_eq hmax

/-! ## The walk -/

/-- `CheckSum` closes every frame, so it always ends a group. -/
def checkSum : Tag := 10

/-- A way a group on the wire departs from its table. -/
inductive Anomaly where
  | invalidCount
  | missingDelimiter (tag : Tag)
  | countMismatch (declared found : ℕ)
  deriving DecidableEq, Repr

/-- What the walker found for one group, without judging it. -/
structure Walk where
  declaredCount : Option ℕ
  instances : List Scope
  anomalies : List Anomaly
  deriving DecidableEq, Repr

/-- The walker's variables: the instances and anomalies so far, the start of the open
instance, and the member tags seen in it. -/
structure Progress where
  instances : List Scope
  instanceStart : Option ℕ
  seen : List Tag
  anomalies : List Anomaly
  deriving DecidableEq, Repr

/-- No instance yet. -/
def Progress.init (anomalies : List Anomaly) : Progress := ⟨[], none, [], anomalies⟩

/-- The instances once the open one ends at `slot`. -/
def Progress.close (progress : Progress) (scope : Scope) (slot : ℕ) : List Scope :=
  match progress.instanceStart with
  | some start => progress.instances ++ [scope.narrow start slot]
  | none => progress.instances

section Generic

variable {L : Type} [Layout L]

/-- A member tag at `slot` starts an instance when none is open or the open one has it. -/
def Progress.enter (progress : Progress) (scope : Scope) (table : L) (slot : ℕ) (tag : Tag) :
    Progress :=
  if progress.instanceStart = none ∨ tag ∈ progress.seen then
    { instances := progress.close scope slot
      instanceStart := some slot
      seen := [tag]
      anomalies :=
        if tag ≠ Layout.delimiter table then progress.anomalies ++ [.missingDelimiter tag]
        else progress.anomalies }
  else { progress with seen := progress.seen ++ [tag] }

/-- The walk made of the loop's result. -/
def Walk.of (scope : Scope) (declaredCount : Option ℕ) (result : Progress × ℕ) : Walk × ℕ :=
  let instances := result.1.close scope result.2
  let anomalies := match declaredCount with
    | some declared =>
      if declared ≠ instances.length then
        result.1.anomalies ++ [.countMismatch declared instances.length]
      else result.1.anomalies
    | none => result.1.anomalies
  (⟨declaredCount, instances, anomalies⟩, result.2)

/-- The walker's variables before its loop, for the count field at `countSlot`. -/
def Progress.start (scope : Scope) (countSlot : ℕ) : Progress :=
  .init (if parseCount (scope.valueAt countSlot) = none then [.invalidCount] else [])

/-- The walker's loop. -/
def walkFields (scope : Scope) (known : KnownTags) : ℕ → L → ℕ → Progress → Progress × ℕ
  | 0, _, slot, progress => (progress, slot)
  | fuel + 1, table, slot, progress =>
    if slot < scope.stop then
      let tag := scope.tagAt slot
      if tag = checkSum then (progress, slot)
      else if Layout.isMember table tag then
        let next := match Layout.nestedCountedBy table tag with
          | some nested =>
            (Walk.of scope (parseCount (scope.valueAt slot))
              (walkFields scope known fuel nested (slot + 1) (.start scope slot))).2
          | none => slot + 1
        walkFields scope known fuel table next (progress.enter scope table slot tag)
      else if known.contains tag then (progress, slot)
      else walkFields scope known fuel table (slot + 1) progress
    else (progress, slot)

/-- Walks the group whose count field sits at `countSlot`, returning what it found and the
slot where the group ends. -/
def walk (scope : Scope) (countSlot : ℕ) (table : L) (known : KnownTags) : Walk × ℕ :=
  Walk.of scope (parseCount (scope.valueAt countSlot))
    (walkFields scope known (scope.stop - countSlot) table (countSlot + 1)
      (.start scope countSlot))

/-- Walks the group `table` describes, unless its count field is not in this scope. -/
def Scope.walkGroup (scope : Scope) (table : L) (known : KnownTags) : Option Walk :=
  (scope.find (Layout.countTag table) scope.start).map fun found =>
    (walk scope found.1 table known).1

/-- A well-formed repeating group's instances, in wire order. -/
structure Group where
  instances : List Scope
  deriving DecidableEq, Repr

/-- A field's value could not be read as its type. -/
structure InvalidValue where
  tag : Tag
  deriving DecidableEq, Repr

/-- The group `table` describes, or nothing if its count field is absent. A group malformed in
any way is an error on the count tag. -/
def Scope.getGroup (scope : Scope) (table : L) (known : KnownTags) :
    Except InvalidValue (Option Group) :=
  match scope.walkGroup table known with
  | none => .ok none
  | some walk =>
    if walk.anomalies ≠ [] then .error ⟨Layout.countTag table⟩ else .ok (some ⟨walk.instances⟩)

/-! ## The equations of the loop -/

variable {scope : Scope} {known : KnownTags} {table : L} {slot : ℕ} {progress : Progress}

@[simp] theorem Walk.of_slot (declaredCount : Option ℕ) (result : Progress × ℕ) :
    (Walk.of scope declaredCount result).2 = result.2 := rfl

/-- The loop never goes back. -/
theorem le_walkFields (scope : Scope) (known : KnownTags) (fuel : ℕ) (table : L) (slot : ℕ) (progress : Progress) :
    slot ≤ (walkFields scope known fuel table slot progress).2 := by
  induction fuel generalizing table slot progress with
  | zero => exact le_rfl
  | succ fuel ih =>
    rw [walkFields]
    split
    · dsimp only
      split
      · exact le_rfl
      · split
        · -- a member: the walk of a nested group starts past its count field
          cases Layout.nestedCountedBy table (scope.tagAt slot) with
          | none => exact (Nat.le_succ slot).trans (ih _ _ _)
          | some nested =>
            exact (Nat.le_succ slot).trans ((ih nested (slot + 1) _).trans (ih _ _ _))
        · split
          · exact le_rfl
          · exact (Nat.le_succ slot).trans (ih _ _ _)
    · exact le_rfl

theorem walkFields_of_le (fuel : ℕ) (h : scope.stop ≤ slot) :
    walkFields scope known fuel table slot progress = (progress, slot) := by
  cases fuel with
  | zero => rfl
  | succ fuel => rw [walkFields, if_neg (Nat.not_lt.mpr h)]

/-- Fuel for the fields left is enough: more of it changes nothing. -/
theorem walkFields_fuel {fuel fuel' : ℕ} (h : scope.stop - slot ≤ fuel)
    (h' : scope.stop - slot ≤ fuel') :
    walkFields scope known fuel table slot progress =
      walkFields scope known fuel' table slot progress := by
  induction fuel generalizing fuel' table slot progress with
  | zero => rw [walkFields_of_le _ (by omega), walkFields_of_le _ (by omega)]
  | succ fuel ih =>
    rcases Nat.lt_or_ge slot scope.stop with hlt | hge
    · obtain ⟨fuel', rfl⟩ : ∃ n, fuel' = n + 1 := ⟨fuel' - 1, by omega⟩
      have hskip (progress : Progress) : walkFields scope known fuel table (slot + 1) progress =
          walkFields scope known fuel' table (slot + 1) progress := ih (by omega) (by omega)
      rw [walkFields, walkFields]
      dsimp only
      cases Layout.nestedCountedBy table (scope.tagAt slot) with
      | none => simp only [hskip]
      | some nested =>
        have hnested : walkFields scope known fuel nested (slot + 1) (.start scope slot) =
            walkFields scope known fuel' nested (slot + 1) (.start scope slot) :=
          ih (by omega) (by omega)
        have hnext := le_walkFields scope known fuel' nested (slot + 1) (.start scope slot)
        have hcontinue (progress : Progress) :
            walkFields scope known fuel table
                (walkFields scope known fuel' nested (slot + 1) (.start scope slot)).2 progress =
              walkFields scope known fuel' table
                (walkFields scope known fuel' nested (slot + 1) (.start scope slot)).2 progress :=
          ih (by omega) (by omega)
        simp only [Walk.of_slot, hnested, hskip, hcontinue]
    · rw [walkFields_of_le _ hge, walkFields_of_le _ hge]

/-- The loop from a slot on, with the fuel it needs. -/
def walkFrom (scope : Scope) (known : KnownTags) (table : L) (slot : ℕ) (progress : Progress) :
    Progress × ℕ :=
  walkFields scope known (scope.stop - slot) table slot progress

theorem walkFields_eq_walkFrom {fuel : ℕ} (h : scope.stop - slot ≤ fuel) :
    walkFields scope known fuel table slot progress =
      walkFrom scope known table slot progress := walkFields_fuel h le_rfl

theorem walk_eq (scope : Scope) (countSlot : ℕ) (table : L) (known : KnownTags) :
    walk scope countSlot table known =
      Walk.of scope (parseCount (scope.valueAt countSlot))
        (walkFrom scope known table (countSlot + 1) (.start scope countSlot)) := by
  rw [walk, walkFields_eq_walkFrom (by omega)]

theorem walkFrom_of_le (h : scope.stop ≤ slot) :
    walkFrom scope known table slot progress = (progress, slot) := walkFields_of_le _ h

/-- One turn of the loop. -/
theorem walkFrom_of_lt (hlt : slot < scope.stop) :
    walkFrom scope known table slot progress =
      if scope.tagAt slot = checkSum then (progress, slot)
      else if Layout.isMember table (scope.tagAt slot) then
        walkFrom scope known table
          (match Layout.nestedCountedBy table (scope.tagAt slot) with
            | some nested => (walkFrom scope known nested (slot + 1) (.start scope slot)).2
            | none => slot + 1)
          (progress.enter scope table slot (scope.tagAt slot))
      else if known.contains (scope.tagAt slot) then (progress, slot)
      else walkFrom scope known table (slot + 1) progress := by
  have hfuel : scope.stop - slot = (scope.stop - (slot + 1)) + 1 := by omega
  rw [walkFrom, hfuel, walkFields, if_pos hlt]
  dsimp only
  cases Layout.nestedCountedBy table (scope.tagAt slot) with
  | none => rfl
  | some nested =>
    have hnext := le_walkFields scope known (scope.stop - (slot + 1)) nested (slot + 1)
      (.start scope slot)
    have hcontinue (progress : Progress) :
        walkFields scope known (scope.stop - (slot + 1)) table
            (walkFields scope known (scope.stop - (slot + 1)) nested (slot + 1)
              (.start scope slot)).2 progress =
          walkFrom scope known table
            (walkFields scope known (scope.stop - (slot + 1)) nested (slot + 1)
              (.start scope slot)).2 progress := walkFields_eq_walkFrom (by omega)
    simp only [Walk.of_slot, hcontinue]
    rfl

section Step

variable {field : Field} {tail : List Field}

private theorem walkFrom_step (hrest : scope.rest slot = field :: tail) :
    walkFrom scope known table slot progress =
      if field.1 = checkSum then (progress, slot)
      else if Layout.isMember table field.1 then
        walkFrom scope known table
          (match Layout.nestedCountedBy table field.1 with
            | some nested => (walkFrom scope known nested (slot + 1) (.start scope slot)).2
            | none => slot + 1)
          (progress.enter scope table slot field.1)
      else if known.contains field.1 then (progress, slot)
      else walkFrom scope known table (slot + 1) progress := by
  obtain ⟨hlt, htag, -, -⟩ := Scope.of_rest_eq_cons hrest
  rw [walkFrom_of_lt hlt, htag]

/-- `CheckSum` ends the group. -/
theorem walkFrom_checkSum (hrest : scope.rest slot = field :: tail) (htag : field.1 = checkSum) :
    walkFrom scope known table slot progress = (progress, slot) := by
  rw [walkFrom_step hrest, if_pos htag]

/-- A known tag outside the table ends the group. -/
theorem walkFrom_known (hrest : scope.rest slot = field :: tail)
    (hmember : Layout.isMember table field.1 = false) (hknown : field.1 ∈ known.tags) :
    walkFrom scope known table slot progress = (progress, slot) := by
  rw [walkFrom_step hrest]
  split
  · rfl
  · rw [hmember, if_neg Bool.false_ne_true, if_pos (KnownTags.contains_iff.mpr hknown)]

/-- A tag the message does not know is passed over. -/
theorem walkFrom_unknown (hrest : scope.rest slot = field :: tail) (htag : field.1 ≠ checkSum)
    (hmember : Layout.isMember table field.1 = false) (hknown : field.1 ∉ known.tags) :
    walkFrom scope known table slot progress =
      walkFrom scope known table (slot + 1) progress := by
  rw [walkFrom_step hrest, if_neg htag, hmember, if_neg Bool.false_ne_true,
    if_neg fun h => hknown (KnownTags.contains_iff.mp h)]

/-- A member that counts no nested group enters the open instance or starts one. -/
theorem walkFrom_member (hrest : scope.rest slot = field :: tail) (htag : field.1 ≠ checkSum)
    (hmember : Layout.isMember table field.1 = true)
    (hnested : Layout.nestedCountedBy table field.1 = none) :
    walkFrom scope known table slot progress =
      walkFrom scope known table (slot + 1) (progress.enter scope table slot field.1) := by
  rw [walkFrom_step hrest, if_neg htag, if_pos hmember, hnested]

/-- Past the count field of a nested group, the walk goes on where the nested group ends. -/
theorem walkFrom_nested {nested : L} (hrest : scope.rest slot = field :: tail)
    (htag : field.1 ≠ checkSum) (hmember : Layout.isMember table field.1 = true)
    (hnested : Layout.nestedCountedBy table field.1 = some nested) :
    walkFrom scope known table slot progress =
      walkFrom scope known table (walkFrom scope known nested (slot + 1) (.start scope slot)).2
        (progress.enter scope table slot field.1) := by
  rw [walkFrom_step hrest, if_neg htag, if_pos hmember, hnested]

end Step

end Generic

end Refix.Message
