import Refix.Group.Walk

/-!
# Group Instances

The instances of a repeating group as they are written: each is a list of entries, and the
entry of a nested group's count field holds the nested instances that follow it. The fields
on the wire are the tree read from left to right.

A field of a tag the message does not know may stand behind an instance's first field. Behind
a nested group it stands in the last nested instance as well: nothing on the wire tells where
that instance ends, so reading absorbs it there.
-/

namespace Refix.Message

open Refix.Foundation

/-! ## Entries and their fields -/

/-- An entry of an instance. A nested group's count field may be followed by fields of
unknown tags ahead of the first nested instance. -/
inductive Entry where
  | field (own : Field)
  | group (count : Field) (leading : List Field) (instances : List (List Entry))

mutual

/-- The fields of an entry, in wire order. -/
def Entry.fields : Entry → List Field
  | .field own => [own]
  | .group count leading instances => count :: (leading ++ instancesFields instances)

/-- The fields of an instance, in wire order. -/
def instanceFields : List Entry → List Field
  | [] => []
  | entry :: rest => entry.fields ++ instanceFields rest

/-- The fields of a list of instances, in wire order. -/
def instancesFields : List (List Entry) → List Field
  | [] => []
  | entries :: rest => instanceFields entries ++ instancesFields rest

end

/-- The tag an entry starts with. -/
def Entry.tag : Entry → Tag
  | .field own => own.1
  | .group count _ _ => count.1

theorem instanceFields_append (front back : List Entry) :
    instanceFields (front ++ back) = instanceFields front ++ instanceFields back := by
  induction front with
  | nil => rfl
  | cons entry front ih =>
    rw [List.cons_append, instanceFields, instanceFields, ih, List.append_assoc]

theorem instancesFields_eq_flatten (instances : List (List Entry)) :
    instancesFields instances = (instances.map instanceFields).flatten := by
  induction instances with
  | nil => rfl
  | cons entries rest ih => rw [instancesFields, ih, List.map_cons, List.flatten_cons]

theorem instancesFields_eq (instances : List (List Entry)) :
    instancesFields instances = instanceFields instances.flatten := by
  induction instances with
  | nil => rfl
  | cons entries rest ih => rw [instancesFields, ih, List.flatten_cons, instanceFields_append]

theorem mem_instanceFields {entries : List Entry} {field : Field}
    (h : field ∈ instanceFields entries) : ∃ entry ∈ entries, field ∈ entry.fields := by
  induction entries with
  | nil => exact absurd h List.not_mem_nil
  | cons entry rest ih =>
    rw [instanceFields, List.mem_append] at h
    rcases h with h | h
    · exact ⟨entry, List.mem_cons_self, h⟩
    · obtain ⟨other, hother, hmem⟩ := ih h
      exact ⟨other, List.mem_cons_of_mem _ hother, hmem⟩

/-- The first field of an entry has the entry's tag. -/
theorem Entry.fields_eq_cons (entry : Entry) :
    ∃ field tail, entry.fields = field :: tail ∧ field.1 = entry.tag := by
  cases entry with
  | field own => exact ⟨own, [], by rw [Entry.fields], rfl⟩
  | group count leading instances => exact ⟨count, _, by rw [Entry.fields], rfl⟩

/-! ## Well-formed instances -/

/-- A field the message does not know, which ends no group. -/
def Unknown (known : KnownTags) (field : Field) : Prop :=
  field.1 ∉ known.tags ∧ field.1 ≠ checkSum

instance (known : KnownTags) (field : Field) : Decidable (Unknown known field) :=
  inferInstanceAs (Decidable (_ ∧ _))

/-- The tags of an instance's entries that are members of the table. -/
def directTags (table : OwnedGroupTable) (entries : List Entry) : List Tag :=
  (entries.map Entry.tag).filter (· ∈ table.members)

/-- The entry may stand in an instance of the table: a field of a member that counts no nested
group, a field of an unknown tag, or a nested group with as many instances as its count says,
each starting with the nested delimiter and repeating no member. -/
inductive Entry.Fits (known : KnownTags) : OwnedGroupTable → Entry → Prop
  | member {table : OwnedGroupTable} {field : Field} (hmember : field.1 ∈ table.members)
      (hplain : ∀ nested ∈ table.nested, nested.countTag ≠ field.1) :
      Entry.Fits known table (.field field)
  | unknown {table : OwnedGroupTable} {field : Field} (hunknown : Unknown known field) :
      Entry.Fits known table (.field field)
  | group {table nested : OwnedGroupTable} {count : Field} {leading : List Field}
      {instances : List (List Entry)} (hnested : nested ∈ table.nested)
      (htag : nested.countTag = count.1) (hcount : Counts count.2 instances.length)
      (hleading : ∀ field ∈ leading, Unknown known field)
      (hdelimiter : ∀ entries ∈ instances, entries.head?.map Entry.tag = some nested.delimiter)
      (hnodup : ∀ entries ∈ instances, (directTags nested entries).Nodup)
      (hentries : ∀ entries ∈ instances, ∀ entry ∈ entries, Entry.Fits known nested entry) :
      Entry.Fits known table (.group count leading instances)

/-- An instance of the table: it starts with the delimiter, its direct member tags are
pairwise distinct, and its entries fit the table. -/
structure InstanceFits (known : KnownTags) (table : OwnedGroupTable) (entries : List Entry) :
    Prop where
  delimiter : entries.head?.map Entry.tag = some table.delimiter
  nodup : (directTags table entries).Nodup
  entries : ∀ entry ∈ entries, entry.Fits known table

/-- The known tags contain the tags of a table whose tags are distinct, and `CheckSum` is none
of its tags. -/
structure Admits (known : KnownTags) (table : OwnedGroupTable) : Prop where
  distinct : table.Distinct
  known : ∀ tag ∈ table.memberTags, tag ∈ known.tags
  checkSum : checkSum ∉ table.memberTags

namespace Admits

variable {known : KnownTags} {table nested : OwnedGroupTable}

theorem of_nested (h : Admits known table) (hnested : nested ∈ table.nested) :
    Admits known nested where
  distinct := h.distinct.of_nested hnested
  known tag htag := h.known tag (OwnedGroupTable.mem_memberTags_of_nested hnested htag)
  checkSum hmem := h.checkSum (OwnedGroupTable.mem_memberTags_of_nested hnested hmem)

theorem isMember_eq_false (h : Admits known table) {field : Field} (hfield : Unknown known field) :
    Layout.isMember table field.1 = false := by
  rw [Bool.eq_false_iff, Ne, OwnedGroupTable.isMember_iff]
  exact fun hmem => hfield.1 (h.known _ (OwnedGroupTable.mem_memberTags_of_mem hmem))

theorem ne_checkSum (h : Admits known table) {tag : Tag} (htag : tag ∈ table.members) :
    tag ≠ Message.checkSum :=
  fun heq => h.checkSum (heq ▸ OwnedGroupTable.mem_memberTags_of_mem htag)

theorem mem_members_iff (h : Admits known table) {entry : Entry} (hfit : entry.Fits known table) :
    entry.tag ∈ table.members ↔ ¬ ∃ field, entry = .field field ∧ Unknown known field := by
  cases hfit with
  | member hmember hplain =>
    refine iff_of_true hmember ?_
    rintro ⟨field, heq, hunknown⟩
    cases heq
    exact hunknown.1 (h.known _ (OwnedGroupTable.mem_memberTags_of_mem hmember))
  | unknown hunknown =>
    refine iff_of_false ?_ (not_not.mpr ⟨_, rfl, hunknown⟩)
    exact fun hmem => hunknown.1 (h.known _ (OwnedGroupTable.mem_memberTags_of_mem hmem))
  | group hnested htag =>
    have hmember := OwnedGroupTable.countTag_mem hnested
    rw [htag] at hmember
    refine iff_of_true hmember ?_
    rintro ⟨field, heq, -⟩
    cases heq

end Admits

/-! ## Where a group ends -/

/-- The fields of unknown tags ahead of the others. -/
def unknownRun (known : KnownTags) (fields : List Field) : List Field :=
  fields.takeWhile (Unknown known ·)

/-- The fields behind a group end it: past those of unknown tags comes `CheckSum`, a known tag
from outside the table, or nothing. -/
def EndsGroup (known : KnownTags) (table : OwnedGroupTable) (fields : List Field) : Prop :=
  ∀ field ∈ (fields.dropWhile (Unknown known ·)).head?,
    field.1 = checkSum ∨ field.1 ∈ known.tags ∧ field.1 ∉ table.memberTags

theorem unknown_of_mem_unknownRun {known : KnownTags} {fields : List Field} {field : Field}
    (h : field ∈ unknownRun known fields) : Unknown known field :=
  of_decide_eq_true (List.mem_takeWhile_imp (p := (Unknown known ·)) h)

namespace EndsGroup

variable {known : KnownTags} {table nested : OwnedGroupTable} {fields : List Field}

theorem of_nested (h : EndsGroup known table fields) (hnested : nested ∈ table.nested) :
    EndsGroup known nested fields := fun field hfield =>
  (h field hfield).imp_right fun hknown =>
    ⟨hknown.1, fun hmem => hknown.2 (OwnedGroupTable.mem_memberTags_of_nested hnested hmem)⟩

/-- The entries of an instance end the groups nested in it, where what follows them does. -/
theorem instanceFields_append (hadmits : Admits known table) (hnested : nested ∈ table.nested)
    (h : EndsGroup known nested fields) {entries : List Entry}
    (hfit : ∀ entry ∈ entries, entry.Fits known table) :
    EndsGroup known nested (instanceFields entries ++ fields) := by
  induction entries with
  | nil => exact h
  | cons entry rest ih =>
    have hrest := ih fun other hother => hfit other (List.mem_cons_of_mem _ hother)
    have hentry := hfit entry List.mem_cons_self
    rw [instanceFields, List.append_assoc]
    by_cases hmember : entry.tag ∈ table.members
    · -- the first field has a tag of this table, so it is known and not of the nested one
      obtain ⟨first, tail, hfields, htag⟩ := entry.fields_eq_cons
      have hknown := hadmits.known _ (OwnedGroupTable.mem_memberTags_of_mem hmember)
      intro field hfield
      rw [hfields, List.cons_append, List.dropWhile_cons_of_neg
        (by simp [Unknown, htag, hknown]), List.head?_cons, Option.mem_some] at hfield
      subst hfield
      rw [htag]
      exact Or.inr ⟨hknown, hadmits.distinct.notMem_of_mem_members hnested hmember⟩
    · rw [hadmits.mem_members_iff hentry, not_not] at hmember
      obtain ⟨field, rfl, hunknown⟩ := hmember
      intro other hother
      rw [Entry.fields, List.singleton_append,
        List.dropWhile_cons_of_pos (by simpa using hunknown)] at hother
      exact hrest other hother

end EndsGroup

/-! ## The parts of a group -/

/-- The parts with `extra` put behind the last one. -/
def absorb (extra : List Field) : List (List Field) → List (List Field)
  | [] => []
  | [part] => [part ++ extra]
  | part :: next :: rest => part :: absorb extra (next :: rest)

@[simp] theorem absorb_nil_left (parts : List (List Field)) : absorb [] parts = parts := by
  induction parts with
  | nil => rfl
  | cons part rest ih =>
    cases rest with
    | nil => rw [absorb, List.append_nil]
    | cons next rest => rw [absorb, ih]

@[simp] theorem length_absorb (extra : List Field) (parts : List (List Field)) :
    (absorb extra parts).length = parts.length := by
  induction parts with
  | nil => rfl
  | cons part rest ih =>
    cases rest with
    | nil => rfl
    | cons next rest => rw [absorb, List.length_cons, ih, ← List.length_cons]

theorem flatten_absorb {extra : List Field} {parts : List (List Field)} (h : parts ≠ []) :
    (absorb extra parts).flatten = parts.flatten ++ extra := by
  induction parts with
  | nil => exact absurd rfl h
  | cons part rest ih =>
    cases rest with
    | nil => simp [absorb]
    | cons next rest =>
      rw [absorb, List.flatten_cons, ih (List.cons_ne_nil _ _), ← List.append_assoc,
        ← List.flatten_cons]

/-- What the part at `index` of `total` absorbs of the fields behind the last one. -/
def absorbedBy (extra : List Field) (total index : ℕ) : List Field :=
  if index + 1 = total then extra else []

theorem getElem?_absorb (extra : List Field) (parts : List (List Field)) (index : ℕ) :
    (absorb extra parts)[index]? =
      parts[index]?.map (· ++ absorbedBy extra parts.length index) := by
  induction parts generalizing index with
  | nil => rfl
  | cons part rest ih =>
    cases rest with
    | nil => cases index <;> simp [absorb, absorbedBy]
    | cons next rest =>
      cases index with
      | zero => simp [absorb, absorbedBy]
      | succ index => simp [absorb, ih, absorbedBy]

/-- The scopes of consecutive parts, the first starting at a slot. -/
def Scope.cover (scope : Scope) : ℕ → List (List Field) → List Scope
  | _, [] => []
  | start, part :: rest =>
    scope.narrow start (start + part.length) :: scope.cover (start + part.length) rest

@[simp] theorem Scope.length_cover (scope : Scope) (start : ℕ) (parts : List (List Field)) :
    (scope.cover start parts).length = parts.length := by
  induction parts generalizing start with
  | nil => rfl
  | cons part rest ih => rw [cover, List.length_cons, ih, List.length_cons]

end Refix.Message
