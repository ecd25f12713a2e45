import Refix.Message.RawMessage

/-!
# Group Tables

A repeating group is described by a table: the tag that counts its instances, the tag an
instance starts with, the tags an instance contains, and the tables of the groups nested in
it. A table is built from tables that were built already, each checked when it is made.

A table made in a constant and one made at runtime hold the same data and follow the same
rules; the rules broken by the latter are errors.
-/

namespace Refix.Message

/-! ## What the walker asks of a table -/

/-- What the walker asks of a group table. -/
class Layout (L : Type) where
  countTag : L → Tag
  delimiter : L → Tag
  isMember : L → Tag → Bool
  nestedCountedBy : L → Tag → Option L

/-! ## Tag sets -/

/-- Whether `tags` is strictly increasing. -/
def isSortedSet : List Tag → Bool
  | first :: second :: rest => first < second && isSortedSet (second :: rest)
  | _ => true

theorem isSortedSet_iff {tags : List Tag} : isSortedSet tags = true ↔ tags.Pairwise (· < ·) := by
  rw [← List.isChain_iff_pairwise]
  induction tags with
  | nil => simp [isSortedSet]
  | cons first rest ih =>
    cases rest with
    | nil => simp [isSortedSet]
    | cons second rest => simp [isSortedSet, ih]

/-- Every tag the walked scope can contain, at any depth. -/
structure KnownTags where
  tags : List Tag
  sorted : isSortedSet tags = true

/-- Membership, decided by a binary search of the sorted tags. -/
def KnownTags.contains (known : KnownTags) (tag : Tag) : Bool := decide (tag ∈ known.tags)

@[simp] theorem KnownTags.contains_iff {known : KnownTags} {tag : Tag} :
    known.contains tag = true ↔ tag ∈ known.tags := decide_eq_true_iff

/-! ## Tables -/

/-- The data of a group table. -/
inductive TableFields where
  | mk (countTag delimiter : Tag) (members : List Tag) (nested : List TableFields)

namespace TableFields

def countTag : TableFields → Tag
  | mk countTag _ _ _ => countTag

def delimiter : TableFields → Tag
  | mk _ delimiter _ _ => delimiter

def members : TableFields → List Tag
  | mk _ _ members _ => members

def nested : TableFields → List TableFields
  | mk _ _ _ nested => nested

/-- The rules a table follows, as do the tables nested in it. -/
inductive Checked : TableFields → Prop
  | mk {countTag delimiter : Tag} {members : List Tag} {nested : List TableFields}
      (hsorted : isSortedSet members = true) (hdelimiter : delimiter ∈ members)
      (hcounts : ∀ table ∈ nested, table.countTag ∈ members)
      (hnested : ∀ table ∈ nested, Checked table) :
      Checked (TableFields.mk countTag delimiter members nested)

theorem Checked.delimiter_mem {table : TableFields} (h : table.Checked) :
    table.delimiter ∈ table.members := by
  cases h with
  | mk _ hdelimiter _ _ => exact hdelimiter

theorem Checked.countTag_mem {table nested : TableFields} (h : table.Checked)
    (hnested : nested ∈ table.nested) : nested.countTag ∈ table.members := by
  cases h with
  | mk _ _ hcounts _ => exact hcounts nested hnested

theorem Checked.of_nested {table nested : TableFields} (h : table.Checked)
    (hnested : nested ∈ table.nested) : nested.Checked := by
  cases h with
  | mk _ _ _ hall => exact hall nested hnested

end TableFields

/-- A group table built at runtime that breaks one of the table rules. -/
inductive GroupTableError where
  | unsortedMembers
  | delimiterNotMember (delimiter : Tag)
  | nestedCountNotMember (countTag : Tag)
  deriving DecidableEq, Repr

/-- The structure of a repeating group. -/
structure OwnedGroupTable where
  data : TableFields
  checked : data.Checked

namespace OwnedGroupTable

def countTag (table : OwnedGroupTable) : Tag := table.data.countTag

def delimiter (table : OwnedGroupTable) : Tag := table.data.delimiter

def members (table : OwnedGroupTable) : List Tag := table.data.members

def nested (table : OwnedGroupTable) : List OwnedGroupTable :=
  table.data.nested.attach.map fun nested => ⟨nested.1, table.checked.of_nested nested.2⟩

/-- A group counted by `countTag`, whose instances start with `delimiter` and directly contain
`members`. -/
def new (countTag delimiter : Tag) (members : List Tag) (nested : List OwnedGroupTable) :
    Except GroupTableError OwnedGroupTable :=
  if hsorted : isSortedSet members = true then
    if hdelimiter : delimiter ∈ members then
      match hfind : nested.find? fun table => decide (table.countTag ∉ members) with
      | some table => .error (.nestedCountNotMember table.countTag)
      | none =>
        .ok ⟨.mk countTag delimiter members (nested.map data), .mk hsorted hdelimiter
          (by
            intro table htable
            obtain ⟨owned, howned, rfl⟩ := List.mem_map.mp htable
            have hmem := List.find?_eq_none.mp hfind owned howned
            rwa [decide_eq_true_eq, not_not] at hmem)
          (by
            intro table htable
            obtain ⟨owned, -, rfl⟩ := List.mem_map.mp htable
            exact owned.checked)⟩
    else .error (.delimiterNotMember delimiter)
  else .error .unsortedMembers

instance : Layout OwnedGroupTable where
  countTag := countTag
  delimiter := delimiter
  -- the members are sorted, so the binary search of the source finds exactly these
  isMember table tag := decide (tag ∈ table.members)
  nestedCountedBy table tag := table.nested.find? fun nested => nested.countTag == tag

theorem delimiter_mem (table : OwnedGroupTable) : table.delimiter ∈ table.members :=
  table.checked.delimiter_mem

theorem countTag_mem {table nested : OwnedGroupTable} (h : nested ∈ table.nested) :
    nested.countTag ∈ table.members := by
  obtain ⟨data, -, rfl⟩ := List.mem_map.mp h
  exact table.checked.countTag_mem data.2

@[simp] theorem isMember_iff {table : OwnedGroupTable} {tag : Tag} :
    Layout.isMember table tag = true ↔ tag ∈ table.members := decide_eq_true_iff

/-- A nested table is found by its own count tag. -/
theorem mem_of_nestedCountedBy {table nested : OwnedGroupTable} {tag : Tag}
    (h : Layout.nestedCountedBy table tag = some nested) :
    nested ∈ table.nested ∧ nested.countTag = tag := by
  have hfind : table.nested.find? (fun nested => nested.countTag == tag) = some nested := h
  exact ⟨List.mem_of_find?_eq_some hfind, by simpa using List.find?_some hfind⟩

/-- A tag that counts no nested group is an ordinary member. -/
theorem nestedCountedBy_eq_none {table : OwnedGroupTable} {tag : Tag} :
    Layout.nestedCountedBy table tag = none ↔ ∀ nested ∈ table.nested, nested.countTag ≠ tag := by
  change table.nested.find? (fun nested => nested.countTag == tag) = none ↔ _
  simp [List.find?_eq_none]

end OwnedGroupTable

/-! ## The tags of a table at every depth -/

private theorem eq_of_mem_of_pairwise_disjoint {α β : Type} {f : α → List β} {l : List α}
    (h : l.Pairwise fun a b => (f a).Disjoint (f b)) {a b : α} (ha : a ∈ l) (hb : b ∈ l) {x : β}
    (hxa : x ∈ f a) (hxb : x ∈ f b) : a = b := by
  induction l with
  | nil => exact absurd ha List.not_mem_nil
  | cons c l ih =>
    obtain ⟨hhead, htail⟩ := List.pairwise_cons.mp h
    rcases List.mem_cons.mp ha with rfl | ha'
    · rcases List.mem_cons.mp hb with rfl | hb'
      · rfl
      · exact absurd hxb (hhead b hb' hxa)
    · rcases List.mem_cons.mp hb with rfl | hb'
      · exact absurd hxa (hhead a ha' hxb)
      · exact ih htail ha' hb'

mutual

/-- The member tags of a table and of the tables nested in it. -/
def TableFields.memberTags : TableFields → List Tag
  | .mk _ _ members nested => members ++ nestedMemberTags nested

/-- The member tags of a list of tables. -/
def nestedMemberTags : List TableFields → List Tag
  | [] => []
  | table :: rest => table.memberTags ++ nestedMemberTags rest

end

mutual

/-- The count tags of a table and of the tables nested in it. -/
def TableFields.countTags : TableFields → List Tag
  | .mk countTag _ _ nested => countTag :: nestedCountTags nested

/-- The count tags of a list of tables. -/
def nestedCountTags : List TableFields → List Tag
  | [] => []
  | table :: rest => table.countTags ++ nestedCountTags rest

end

theorem nestedMemberTags_eq_flatMap (tables : List TableFields) :
    nestedMemberTags tables = tables.flatMap TableFields.memberTags := by
  induction tables with
  | nil => rfl
  | cons table rest ih => rw [nestedMemberTags, ih, List.flatMap_cons]

theorem nestedCountTags_eq_flatMap (tables : List TableFields) :
    nestedCountTags tables = tables.flatMap TableFields.countTags := by
  induction tables with
  | nil => rfl
  | cons table rest ih => rw [nestedCountTags, ih, List.flatMap_cons]

namespace OwnedGroupTable

/-- The tags an instance can contain, at any depth. -/
def memberTags (table : OwnedGroupTable) : List Tag := table.data.memberTags

/-- The tags that count the group and the groups nested in it. -/
def countTags (table : OwnedGroupTable) : List Tag := table.data.countTags

theorem memberTags_eq (table : OwnedGroupTable) :
    table.memberTags = table.members ++ table.nested.flatMap memberTags := by
  obtain ⟨⟨countTag, delimiter, members, nested⟩, hchecked⟩ := table
  simp only [memberTags, TableFields.memberTags, nestedMemberTags_eq_flatMap]
  congr 1
  simp [OwnedGroupTable.nested, List.flatMap_map, TableFields.nested, memberTags]

theorem countTags_eq (table : OwnedGroupTable) :
    table.countTags = table.countTag :: table.nested.flatMap countTags := by
  obtain ⟨⟨countTag, delimiter, members, nested⟩, hchecked⟩ := table
  simp only [countTags, TableFields.countTags, nestedCountTags_eq_flatMap]
  congr 1
  simp [OwnedGroupTable.nested, List.flatMap_map, TableFields.nested, countTags]

theorem countTag_mem_countTags (table : OwnedGroupTable) : table.countTag ∈ table.countTags := by
  rw [countTags_eq]
  exact List.mem_cons_self

/-- The count tags and the member tags are pairwise distinct over all depths, a nested count
tag being a member of the table it is nested in. -/
structure Distinct (table : OwnedGroupTable) : Prop where
  members_nodup : (table.countTag :: table.memberTags).Nodup
  counts_nodup : table.countTags.Nodup

theorem mem_memberTags_of_mem {table : OwnedGroupTable} {tag : Tag} (h : tag ∈ table.members) :
    tag ∈ table.memberTags := by
  rw [memberTags_eq]
  exact List.mem_append_left _ h

theorem mem_memberTags_of_nested {table nested : OwnedGroupTable} {tag : Tag}
    (hnested : nested ∈ table.nested) (h : tag ∈ nested.memberTags) : tag ∈ table.memberTags := by
  rw [memberTags_eq]
  exact List.mem_append_right _ (List.mem_flatMap_of_mem hnested h)

namespace Distinct

variable {table nested : OwnedGroupTable}

theorem notMem_of_mem_members (h : table.Distinct) (hnested : nested ∈ table.nested) {tag : Tag}
    (htag : tag ∈ table.members) : tag ∉ nested.memberTags := by
  have hnodup := (List.nodup_cons.mp h.members_nodup).2
  rw [memberTags_eq] at hnodup
  intro hmem
  exact List.disjoint_of_nodup_append hnodup htag (List.mem_flatMap_of_mem hnested hmem)

theorem of_nested (h : table.Distinct) (hnested : nested ∈ table.nested) : nested.Distinct := by
  constructor
  · have hnodup := (List.nodup_cons.mp h.members_nodup).2
    rw [memberTags_eq, List.nodup_append'] at hnodup
    rw [List.nodup_cons]
    exact ⟨h.notMem_of_mem_members hnested (countTag_mem hnested),
      (List.nodup_flatMap.mp hnodup.2.1).1 nested hnested⟩
  · have hnodup := h.counts_nodup
    rw [countTags_eq] at hnodup
    exact (List.nodup_flatMap.mp (List.nodup_cons.mp hnodup).2).1 nested hnested

/-- Each nested table is the one its count tag finds. -/
theorem nestedCountedBy_eq (h : table.Distinct) (hnested : nested ∈ table.nested) :
    Layout.nestedCountedBy table nested.countTag = some nested := by
  cases hfind : Layout.nestedCountedBy table nested.countTag with
  | none => exact absurd rfl (nestedCountedBy_eq_none.mp hfind nested hnested)
  | some found =>
    obtain ⟨hfound, htag⟩ := mem_of_nestedCountedBy hfind
    have hnodup := h.counts_nodup
    rw [countTags_eq] at hnodup
    have hpair := (List.nodup_flatMap.mp (List.nodup_cons.mp hnodup).2).2
    -- both tables list the tag they are counted by
    rw [eq_of_mem_of_pairwise_disjoint hpair hfound hnested (found.countTag_mem_countTags)
      (htag ▸ nested.countTag_mem_countTags)]

end Distinct

end OwnedGroupTable

end Refix.Message
