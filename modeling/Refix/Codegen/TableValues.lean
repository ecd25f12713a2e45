import Refix.Codegen.Tables
import Refix.Group.ReadBack

/-!
# What Generated Tables Mean

A generated table names the constants of other groups, which stand elsewhere in the code and
name further ones. Its value is what the constructors build once every name is followed. Here
that value is compared with the dictionary: it is the tree of the group and of the groups
nested in it, whichever constants the code is cut into and in whatever order they stand. So
what a generated accessor reads is what the dictionary says of the message.
-/

namespace Refix.Codegen

open Refix.Foundation
open Refix.Dict
open Refix.Message (Tag TableFields OwnedGroupTable KnownTags Admits isSortedSet checkSum)

/-! ## The tables of the dictionary -/

section Tables

variable (fields : List Field)

mutual

/-- The tables of the groups among members, as the dictionary nests them. -/
def memberTables : List (ResolvedMember fields.length) → List TableFields
  | [] => []
  | member :: members => memberTable member ++ memberTables members

def memberTable : ResolvedMember fields.length → List TableFields
  | .field _ _ => []
  | .group countFieldIndex delimiterIndex isRequired declaredIn component members =>
    let group : Group fields.length :=
      { countFieldIndex, delimiterIndex, isRequired, declaredIn, component, members }
    [.mk (fields.get countFieldIndex).tag (fields.get delimiterIndex).tag
      (memberTags fields group) (memberTables members)]

end

/-- The table of a group. -/
def tableFields (group : Group fields.length) : TableFields :=
  .mk (fields.get group.countFieldIndex).tag (fields.get group.delimiterIndex).tag
    (memberTags fields group) (memberTables fields group.members)

theorem memberTables_group (group : Group fields.length)
    (members : List (ResolvedMember fields.length)) :
    memberTables fields (group.member :: members) =
      tableFields fields group :: memberTables fields members := rfl

/-- What an emitted table is built as: a constructor builds it from its arguments, and a path
is the constant it names. -/
inductive Denotes (output : Output fields.length) : TableExpr fields.length → TableFields → Prop
  | path {group : Group fields.length} {item : GroupItem fields.length} {table : TableFields}
      (hitem : output.At fields group item) (h : Denotes output item.table table) :
      Denotes output (.path group) table
  | new {countTag delimiter : Tag} {members : List Tag} {nested : List (TableExpr fields.length)}
      {tables : List TableFields} (h : List.Forall₂ (Denotes output) nested tables) :
      Denotes output (.new countTag delimiter members nested)
        (.mk countTag delimiter members tables)

end Tables

/-! ## Every path names a constant -/

section Values

variable {dictionary : Dictionary} {shared : List (Group dictionary.spec.fields.length)}
  {group : Group dictionary.spec.fields.length}

/-- All groups that components declare are shared. -/
def SharedAll (dictionary : Dictionary) (shared : List (Group dictionary.spec.fields.length)) :
    Prop :=
  ∀ group ∈ declaredGroups dictionary, inComponent group = true → group ∈ shared

theorem Rust.sharedGroups_all : SharedAll dictionary (Rust.sharedGroups dictionary []).1 := by
  intro group hgroup hcomponent
  rw [Rust.sharedGroups_eq]
  exact List.mem_filter.mpr ⟨hgroup, hcomponent⟩

theorem Python.sharedGroups_all : SharedAll dictionary (Python.sharedGroups dictionary []).1 := by
  intro group hgroup hcomponent
  rw [(Python.sharedGroups_perm dictionary []).mem_iff]
  exact List.mem_filter.mpr ⟨hgroup, hcomponent⟩

/-- A group with types of its own has an item, where it is placed. -/
theorem exists_at (hd : dictionary.Resolved)
    (hmessages : (dictionary.spec.messages.map Message.name).Nodup)
    (hfields : (dictionary.spec.fields.map Field.name).Nodup)
    (hall : SharedAll dictionary shared) (hgroup : dictionary.Reaches group)
    (hgenerated : isGenerated group = true) :
    ∃ item, (emit dictionary shared).At dictionary.spec.fields group item := by
  have hat : ∀ own : Group dictionary.spec.fields.length, group.Same own →
      emitGroup dictionary.spec.fields own ∈ (emit dictionary shared).items →
      ∃ item, (emit dictionary shared).At dictionary.spec.fields group item :=
    fun own hsame hitem => ⟨_, hitem, hsame.instanceContext_eq.symm⟩
  cases placed_of_reaches hd hgroup hgenerated with
  | shared hcomponent =>
    obtain ⟨own, hown, hsame⟩ := exists_declaredGroup hd hmessages hfields hgroup
    have hcomponent' : inComponent own = true := by
      rwa [inComponent, ← hsame.declaredIn_eq]
    apply hat own hsame
    simp only [Output.items, emit, List.mem_append]
    exact Or.inl (Or.inl (List.mem_map_of_mem (hall own hown hcomponent')))
  | part part _ hown hsame =>
    apply hat _ hsame
    simp only [Output.items, emit, List.mem_append]
    -- a section that declares a group has members, and so a view
    have hmem := mem_groupsOf.mp (List.mem_of_mem_filter hown)
    have hsection : part ∈ (Envelope.of dictionary).sections := by
      refine List.mem_filter.mpr ⟨by cases part <;> decide, ?_⟩
      simpa using List.ne_nil_of_mem hmem
    exact Or.inl (Or.inr (List.mem_flatMap.mpr
      ⟨_, List.mem_map_of_mem hsection, List.mem_map_of_mem hown⟩))
  | message hentry _ hown hsame =>
    apply hat _ hsame
    simp only [Output.items, emit, List.mem_append]
    exact Or.inr (List.mem_flatMap.mpr ⟨_, List.mem_map_of_mem hentry, List.mem_map_of_mem hown⟩)

/-- The item a path names is that of the group itself, up to its flag. -/
theorem table_of_at (hd : dictionary.Resolved)
    (hmessages : (dictionary.spec.messages.map Message.name).Nodup)
    (hfields : (dictionary.spec.fields.map Field.name).Nodup)
    (hshared : SharedOk dictionary shared) (hgroup : dictionary.Reaches group)
    {item : GroupItem dictionary.spec.fields.length}
    (hitem : (emit dictionary shared).At dictionary.spec.fields group item) :
    item.table = emitTable dictionary.spec.fields group := by
  obtain ⟨hitems, hcontext⟩ := hitem
  obtain ⟨named, hnamed, _, rfl⟩ := exists_of_mem_items hd hshared hitems
  have hsame := hnamed.same hd hmessages hfields hgroup hcontext
  simp only [emitGroup, emitTable, memberTags, hsame.countFieldIndex_eq, hsame.delimiterIndex_eq,
    hsame.members_eq]

/-! ## The value of a table -/

/-- A written-out table means what its arguments mean. -/
theorem denotes_emitTable {output : Output dictionary.spec.fields.length} {table : TableFields}
    (hnested : ∀ tables, List.Forall₂ (Denotes dictionary.spec.fields output)
        (nestedTables dictionary.spec.fields group.members) tables ↔
      tables = memberTables dictionary.spec.fields group.members) :
    Denotes dictionary.spec.fields output (emitTable dictionary.spec.fields group) table ↔
      table = tableFields dictionary.spec.fields group := by
  constructor
  · intro h
    rw [emitTable] at h
    cases h with
    | new htables => rw [(hnested _).mp htables, tableFields]
  · rintro rfl
    exact .new ((hnested _).mpr rfl)

/-- **The tables nested in a list mean the tables of its groups.** -/
theorem denotes_nestedTables (hd : dictionary.Resolved)
    (hmessages : (dictionary.spec.messages.map Message.name).Nodup)
    (hfields : (dictionary.spec.fields.map Field.name).Nodup)
    (hshared : SharedOk dictionary shared) (hall : SharedAll dictionary shared)
    (members : List (ResolvedMember dictionary.spec.fields.length)) :
    (∀ group, Within members group → dictionary.Reaches group) → ∀ tables,
      List.Forall₂ (Denotes dictionary.spec.fields (emit dictionary shared))
          (nestedTables dictionary.spec.fields members) tables ↔
        tables = memberTables dictionary.spec.fields members := by
  induction members using members_of_groups_induction with
  | nil =>
    intro _ tables
    rw [nestedTables, memberTables, List.forall₂_nil_left_iff]
  | field index isRequired members ih =>
    intro hreaches tables
    rw [nestedTables, tableReference, memberTables, memberTable, List.nil_append, List.nil_append]
    exact ih (fun group hgroup => hreaches group (within_cons hgroup)) tables
  | group group members ihi ihm =>
    intro hreaches tables
    have hgroup := hreaches group (within_group.mpr (Or.inl rfl))
    have hown : ∀ table, Denotes dictionary.spec.fields (emit dictionary shared)
        (emitTable dictionary.spec.fields group) table ↔
          table = tableFields dictionary.spec.fields group := fun table =>
      denotes_emitTable (ihi fun inner hinner =>
        hreaches inner (within_group.mpr (Or.inr (Or.inl hinner))))
    -- named or written out, the group's table means the same
    have hreference : ∀ table, Denotes dictionary.spec.fields (emit dictionary shared)
        (if isGenerated group then .path group else emitTable dictionary.spec.fields group) table ↔
          table = tableFields dictionary.spec.fields group := by
      intro table
      split
      · next hgenerated =>
        rw [← hown table]
        constructor
        · intro h
          cases h with
          | path hitem h => exact table_of_at hd hmessages hfields hshared hgroup hitem ▸ h
        · intro h
          obtain ⟨item, hitem⟩ := exists_at hd hmessages hfields hall hgroup hgenerated
          exact .path hitem (table_of_at hd hmessages hfields hshared hgroup hitem ▸ h)
      · exact hown table
    have hrest := ihm fun inner hinner => hreaches inner (within_cons hinner)
    rw [nestedTables_group, memberTables_group, List.forall₂_cons_left_iff]
    constructor
    · rintro ⟨table, rest, htable, htables, rfl⟩
      rw [(hreference table).mp htable, (hrest rest).mp htables]
    · rintro rfl
      exact ⟨_, _, (hreference _).mpr rfl, (hrest _).mpr rfl, rfl⟩

/-- **A path means the table of its group.** -/
theorem denotes_path (hd : dictionary.Resolved)
    (hmessages : (dictionary.spec.messages.map Message.name).Nodup)
    (hfields : (dictionary.spec.fields.map Field.name).Nodup)
    (hshared : SharedOk dictionary shared) (hall : SharedAll dictionary shared)
    (hgroup : dictionary.Reaches group) (hgenerated : isGenerated group = true)
    (table : TableFields) :
    Denotes dictionary.spec.fields (emit dictionary shared) (.path group) table ↔
      table = tableFields dictionary.spec.fields group := by
  have hown : Denotes dictionary.spec.fields (emit dictionary shared)
      (emitTable dictionary.spec.fields group) table ↔
        table = tableFields dictionary.spec.fields group :=
    denotes_emitTable (denotes_nestedTables hd hmessages hfields hshared hall group.members
      fun _ hinner => reaches_of_within (.inst hgroup) hinner)
  rw [← hown]
  constructor
  · intro h
    cases h with
    | path hitem h => exact table_of_at hd hmessages hfields hshared hgroup hitem ▸ h
  · intro h
    obtain ⟨item, hitem⟩ := exists_at hd hmessages hfields hall hgroup hgenerated
    exact .path hitem (table_of_at hd hmessages hfields hshared hgroup hitem ▸ h)

/-- Every constant means the table of its group, and so does every path that names one. -/
structure TablesDenote (dictionary : Dictionary) (output : Output dictionary.spec.fields.length) :
    Prop where
  items : ∀ item ∈ output.items, ∀ table,
    Denotes dictionary.spec.fields output item.table table ↔
      table = tableFields dictionary.spec.fields item.group
  paths : ∀ group, dictionary.Reaches group → isGenerated group = true → ∀ table,
    Denotes dictionary.spec.fields output (.path group) table ↔
      table = tableFields dictionary.spec.fields group

theorem tablesDenote (hd : dictionary.Resolved)
    (hmessages : (dictionary.spec.messages.map Message.name).Nodup)
    (hfields : (dictionary.spec.fields.map Field.name).Nodup)
    (hshared : SharedOk dictionary shared) (hall : SharedAll dictionary shared) :
    TablesDenote dictionary (emit dictionary shared) where
  items item hitem table := by
    obtain ⟨group, hgroup, _, rfl⟩ := exists_of_mem_items hd hshared hitem
    exact denotes_emitTable (denotes_nestedTables hd hmessages hfields hshared hall group.members
      fun _ hinner => reaches_of_within (.inst hgroup) hinner)
  paths group hgroup hgenerated table :=
    denotes_path hd hmessages hfields hshared hall hgroup hgenerated table

/-! ## The tags of a table -/

variable {fields : List Field}

/-- The tags of a table's instances, at any depth, are those of its members. -/
theorem memberTags_perm (members : List (ResolvedMember fields.length)) :
    ((members.map fun member => (fields.get member.firstField).tag) ++
      Message.nestedMemberTags (memberTables fields members)).Perm (tagsOf fields members) := by
  induction members using members_of_groups_induction with
  | nil => exact .refl _
  | field index isRequired members ih =>
    rw [memberTables, memberTable, List.nil_append, tagsOf, memberTagsOf, List.map_cons]
    exact ih.cons _
  | group group members ihi ihm =>
    have hown : (memberTags fields group).Perm
        (group.members.map fun member => (fields.get member.firstField).tag) :=
      List.perm_insertionSort _ _
    rw [memberTables_group, Message.nestedMemberTags, tableFields, TableFields.memberTags, tagsOf,
      Group.member, memberTagsOf, List.map_cons, List.cons_append, List.cons_append]
    apply List.Perm.cons
    -- the tags of the members behind the group come before those of its instances
    refine List.perm_append_comm_assoc _ _ _ |>.trans ?_
    exact ((hown.append_right _).trans ihi).append ihm

theorem nestedCountTags_sublist (members : List (ResolvedMember fields.length)) :
    (Message.nestedCountTags (memberTables fields members)).Sublist (tagsOf fields members) := by
  induction members using members_of_groups_induction with
  | nil => exact .slnil
  | field index isRequired members ih =>
    rw [memberTables, memberTable, List.nil_append, tagsOf, memberTagsOf]
    exact ih.cons _
  | group group members ihi ihm =>
    rw [memberTables_group, Message.nestedCountTags, tableFields, TableFields.countTags, tagsOf,
      Group.member, memberTagsOf]
    exact (ihi.cons_cons _).append ihm

/-- The tag that counts a group is none of those in its instances. -/
theorem memberTagsOf_nodup (hd : dictionary.Resolved) (hgroup : dictionary.Reaches group) :
    ((dictionary.spec.fields.get group.countFieldIndex).tag ::
      tagsOf dictionary.spec.fields group.members).Nodup := by
  obtain ⟨⟨declared, own, hdeclares, hown, hsame⟩, _⟩ := hgroup.declared hd
  have hsub : ∀ members : List (ResolvedMember dictionary.spec.fields.length),
      own.member ∈ members → (memberTagsOf dictionary.spec.fields own.member).Sublist
        (tagsOf dictionary.spec.fields members) := by
    intro members hmem
    induction members with
    | nil => cases hmem
    | cons first rest ih =>
      rw [tagsOf]
      rcases List.mem_cons.mp hmem with rfl | hrest
      · exact List.sublist_append_left _ _
      · exact (ih hrest).trans (List.sublist_append_right _ _)
  have hnodup := (hdeclares.nodup hd).sublist (hsub declared hown)
  rw [← hsame.memberTagsOf_eq] at hnodup
  exact hnodup

/-- The rules of tables hold of the tables nested in a list. -/
theorem checked_memberTables (hd : dictionary.Resolved)
    (members : List (ResolvedMember dictionary.spec.fields.length)) :
    (∀ group, Within members group → dictionary.Reaches group) →
    ∀ table ∈ memberTables dictionary.spec.fields members, table.Checked ∧
      ∃ member ∈ members, (dictionary.spec.fields.get member.firstField).tag = table.countTag := by
  induction members using members_of_groups_induction with
  | nil => simp [memberTables]
  | field index isRequired members ih =>
    intro hreaches table htable
    rw [memberTables, memberTable, List.nil_append] at htable
    obtain ⟨hchecked, member, hmember, htag⟩ :=
      ih (fun group hgroup => hreaches group (within_cons hgroup)) table htable
    exact ⟨hchecked, member, List.mem_cons_of_mem _ hmember, htag⟩
  | group group members ihi ihm =>
    intro hreaches table htable
    rw [memberTables_group] at htable
    rcases List.mem_cons.mp htable with rfl | htable
    · have hgroup := hreaches group (within_group.mpr (Or.inl rfl))
      have hnested := ihi fun inner hinner =>
        hreaches inner (within_group.mpr (Or.inr (Or.inl hinner)))
      refine ⟨?_, group.member, List.mem_cons_self, rfl⟩
      exact .mk (isSortedSet_memberTags (tagsOf_nodup hd hgroup)) (delimiter_mem hd hgroup)
        (fun table htable => mem_memberTags.mpr (hnested table htable).2)
        fun table htable => (hnested table htable).1
    · obtain ⟨hchecked, member, hmember, htag⟩ :=
        ihm (fun inner hinner => hreaches inner (within_cons hinner)) table htable
      exact ⟨hchecked, member, List.mem_cons_of_mem _ hmember, htag⟩

/-- The table of a group, with the rules it follows. -/
theorem exists_ownedTable (hd : dictionary.Resolved) (hgroup : dictionary.Reaches group) :
    ∃ table : OwnedGroupTable, table.data = tableFields dictionary.spec.fields group := by
  have hnested := checked_memberTables hd group.members fun _ hinner =>
    reaches_of_within (.inst hgroup) hinner
  exact ⟨⟨tableFields dictionary.spec.fields group,
    .mk (isSortedSet_memberTags (tagsOf_nodup hd hgroup)) (delimiter_mem hd hgroup)
      (fun table htable => mem_memberTags.mpr (hnested table htable).2)
      fun table htable => (hnested table htable).1⟩, rfl⟩

/-- **The runtime can walk the table of a group** with any tags that hold those of its instances. -/
theorem admits_of_reaches (hd : dictionary.Resolved) (hgroup : dictionary.Reaches group)
    {table : OwnedGroupTable} (htable : table.data = tableFields dictionary.spec.fields group)
    {known : KnownTags} (hknown : tagsOf dictionary.spec.fields group.members ⊆ known.tags)
    (hchecksum : checkSum ∉ tagsOf dictionary.spec.fields group.members) : Admits known table := by
  have hperm : table.memberTags.Perm (tagsOf dictionary.spec.fields group.members) := by
    rw [OwnedGroupTable.memberTags, htable, tableFields, TableFields.memberTags]
    exact ((List.perm_insertionSort _ _).append_right _).trans (memberTags_perm group.members)
  have hnodup := memberTagsOf_nodup hd hgroup
  have hcount : table.countTag = (dictionary.spec.fields.get group.countFieldIndex).tag := by
    rw [OwnedGroupTable.countTag, htable, tableFields, TableFields.countTag]
  refine ⟨⟨?_, ?_⟩, fun tag htag => hknown (hperm.mem_iff.mp htag), fun htag =>
    hchecksum (hperm.mem_iff.mp htag)⟩
  · rw [hcount]
    exact (hperm.cons _).nodup_iff.mpr hnodup
  · rw [OwnedGroupTable.countTags, htable, tableFields, TableFields.countTags]
    exact hnodup.sublist ((nestedCountTags_sublist group.members).cons_cons _)

end Values

/-- **What a generated table is built as** is the tree of its group in the dictionary, whichever
constants the code is cut into: every path names a constant, and means the table of its group. -/
theorem tables_denote {spec : Spec} {dictionary : Dictionary}
    (hresolve : spec.resolve = .ok dictionary) (hfields : (spec.fields.map Field.name).Nodup) :
    (∀ names warnings, Rust.Names.new dictionary [] = .ok (names, warnings) →
      TablesDenote dictionary (Rust.output dictionary)) ∧
    ∀ names warnings, Python.Names.new dictionary [] = .ok (names, warnings) →
      TablesDenote dictionary (Python.output dictionary) := by
  obtain ⟨rfl, hd⟩ := resolved_of_resolve hresolve
  exact ⟨fun names warnings h => tablesDenote hd (Rust.messages_nodup h) hfields
      (Rust.sharedGroups_ok hd) Rust.sharedGroups_all,
    fun names warnings h => tablesDenote hd (Python.messages_nodup h) hfields
      (Python.sharedGroups_ok hd) Python.sharedGroups_all⟩

theorem tables_denote_orders :
    TablesDenote ordersDictionary (Rust.output ordersDictionary) ∧
      TablesDenote ordersDictionary (Python.output ordersDictionary) := by
  have hresolve : ordersSpec.resolve = .ok ordersDictionary := rfl
  obtain ⟨_, _, hrust, _⟩ := exists_of_renamedBy
    (show renamedBy (Rust.Names.new ordersDictionary []) = some [some "Buy2"] by decide +kernel)
  obtain ⟨_, _, hpython, _⟩ := exists_of_renamedBy
    (show renamedBy (Python.Names.new ordersDictionary []) = some [some "BUY_2"] by decide +kernel)
  obtain ⟨hrustDenote, hpythonDenote⟩ := tables_denote hresolve (by decide)
  exact ⟨hrustDenote _ _ hrust, hpythonDenote _ _ hpython⟩

/-! ## What generated accessors read -/

section Accessors

open Refix.Message (Scope Entry InstanceFits Unknown EndsGroup Counts ReadsBack instanceFields
  instancesFields unknownRun absorbedBy u32Max)

/-- The table that the path of a group means is there, and reading any scope by it gives back the
instances that stand there: as many as the count says, and each with its nested groups. -/
def ReadsGroup (fields : List Field) (output : Output fields.length) (known : KnownTags)
    (group : Group fields.length) : Prop :=
  ∃ table : OwnedGroupTable,
    (∀ data, Denotes fields output (.path group) data ↔ data = table.data) ∧
    ∀ (scope : Scope) (instances : List (List Entry)) (front leading tail : List Message.Field)
      (count : Message.Field), scope.Fits → scope.message.fields.length ≤ u32Max →
      scope.fields = front ++ count :: (leading ++ (instancesFields instances ++ tail)) →
      (∀ entries ∈ instances, InstanceFits known table entries) →
      (∀ field ∈ front, field.1 ≠ table.countTag) → count.1 = table.countTag →
      Counts count.2 instances.length → (∀ field ∈ leading, Unknown known field) →
      EndsGroup known table tail →
      ∃ read : Message.Group, scope.getGroup table known = .ok (some read) ∧
        read.instances.length = instances.length ∧
        ∀ (index : ℕ) (inner : Scope) (entries : List Entry),
          read.instances[index]? = some inner → instances[index]? = some entries →
          ReadsBack known table inner entries
            (absorbedBy (unknownRun known tail) instances.length index)

variable {dictionary : Dictionary} {shared : List (Group dictionary.spec.fields.length)}
  {group : Group dictionary.spec.fields.length}

theorem readsGroup (hd : dictionary.Resolved)
    (hmessages : (dictionary.spec.messages.map Message.name).Nodup)
    (hfields : (dictionary.spec.fields.map Field.name).Nodup)
    (hshared : SharedOk dictionary shared) (hall : SharedAll dictionary shared)
    (hgroup : dictionary.Reaches group) (hgenerated : isGenerated group = true)
    {known : KnownTags} (hknown : tagsOf dictionary.spec.fields group.members ⊆ known.tags)
    (hchecksum : checkSum ∉ tagsOf dictionary.spec.fields group.members) :
    ReadsGroup dictionary.spec.fields (emit dictionary shared) known group := by
  obtain ⟨table, htable⟩ := exists_ownedTable hd hgroup
  have hadmits : Admits known table := admits_of_reaches hd hgroup htable hknown hchecksum
  refine ⟨table, fun data => ?_, ?_⟩
  · rw [htable]
    exact denotes_path hd hmessages hfields hshared hall hgroup hgenerated data
  intro scope instances front leading tail count hfits hlen hsplit hinstances hfront htag hcount
    hleading hends
  have hread := Message.getGroup_eq hadmits hinstances hfits hlen hsplit hfront htag hcount
    hleading hends
  refine ⟨_, hread, by simp, ?_⟩
  intro index inner entries hinner hentries
  obtain ⟨hinnerFits, hmessage, hinnerFields⟩ :=
    Message.fields_of_getElem? hfits hsplit hinner hentries
  have hinstance := hinstances entries (List.mem_of_getElem? hentries)
  apply Message.readsBack_of_nested hadmits hinstance hinnerFits (hmessage ▸ hlen) hinnerFields
  · exact fun _ => Message.unknown_of_mem_absorbedBy
  · exact fun entry hentry => (hinstance.entries entry hentry).nestedReadBack hadmits

/-- The accessors of groups, by the tags that each walks with: a message's, an instance's, and a
view's own or those of the message it is of. `CheckSum` ends every group, so that none holds it. -/
structure GroupsRead (dictionary : Dictionary) (output : Output dictionary.spec.fields.length) :
    Prop where
  messages : ∀ item ∈ output.messages, ∀ group, .group group ∈ item.accessors →
    checkSum ∉ tagsOf dictionary.spec.fields group.members →
    ∀ known : KnownTags, known.tags = item.knownTags →
      ReadsGroup dictionary.spec.fields output known group
  groups : ∀ item ∈ output.items, ∀ group, .group group ∈ item.accessors →
    checkSum ∉ tagsOf dictionary.spec.fields group.members →
    ∀ known : KnownTags, known.tags = item.knownTags →
      ReadsGroup dictionary.spec.fields output known group
  views : ∀ item ∈ output.views, ∀ group, .group group ∈ item.accessors →
    checkSum ∉ tagsOf dictionary.spec.fields group.members →
    ∀ known : KnownTags, (item.knownTags = some known.tags ∨
        ∃ message ∈ output.messages, known.tags = message.knownTags) →
      ReadsGroup dictionary.spec.fields output known group

theorem groupsRead (hd : dictionary.Resolved)
    (hmessages : (dictionary.spec.messages.map Message.name).Nodup)
    (hfields : (dictionary.spec.fields.map Field.name).Nodup)
    (hshared : SharedOk dictionary shared) (hall : SharedAll dictionary shared) :
    GroupsRead dictionary (emit dictionary shared) where
  messages item hitem group haccessor hchecksum known htags := by
    obtain ⟨entry, hentry, rfl⟩ := List.mem_map.mp hitem
    have hlist : dictionary.HasList (.message entry.1.name) entry.2 := .message hentry
    have hmem := member_of_accessor haccessor
    apply readsGroup hd hmessages hfields hshared hall (.root hlist hmem)
      (isGenerated_of_hasList hd hlist hmem) _ hchecksum
    intro tag htag
    rw [htags]
    exact mem_messageKnownTags.mpr (Or.inr (tagsOf_subset hmem htag))
  groups item hitem group haccessor hchecksum known htags := by
    obtain ⟨owner, howner, _, rfl⟩ := exists_of_mem_items hd hshared hitem
    obtain ⟨hmem, hgenerated⟩ := member_of_instanceAccessor haccessor
    apply readsGroup hd hmessages hfields hshared hall (.nested howner hmem) hgenerated _
      hchecksum
    intro tag htag
    rw [htags]
    exact mem_knownTags.mpr (tagsOf_subset hmem htag)
  views item hitem group haccessor hchecksum known htags := by
    obtain ⟨part, _, rfl⟩ := List.mem_map.mp hitem
    have hlist := hasList_section dictionary part
    have hmem := member_of_accessor haccessor
    apply readsGroup hd hmessages hfields hshared hall (.root hlist hmem)
      (isGenerated_of_hasList hd hlist hmem) _ hchecksum
    intro tag htag
    have henvelope : tag ∈ (Envelope.of dictionary).tags :=
      section_tags_subset dictionary part (tagsOf_subset hmem htag)
    rcases htags with htags | ⟨message, hmessage, htags⟩
    · rw [view_knownTags (mem_withGroups.mpr ⟨group, hmem⟩)] at htags
      rwa [← Option.some.inj htags]
    · -- every message's known tags start from the envelope's
      obtain ⟨entry, _, rfl⟩ := List.mem_map.mp hmessage
      rw [htags]
      exact mem_messageKnownTags.mpr (Or.inl henvelope)

end Accessors

/-- **Generated accessors read the groups of the dictionary**: on any scope that holds instances
of a group behind their count, what the accessor reads are these instances, at every depth. -/
theorem generated_groups_read {spec : Spec} {dictionary : Dictionary}
    (hresolve : spec.resolve = .ok dictionary) (hfields : (spec.fields.map Field.name).Nodup) :
    (∀ names warnings, Rust.Names.new dictionary [] = .ok (names, warnings) →
      GroupsRead dictionary (Rust.output dictionary)) ∧
    ∀ names warnings, Python.Names.new dictionary [] = .ok (names, warnings) →
      GroupsRead dictionary (Python.output dictionary) := by
  obtain ⟨rfl, hd⟩ := resolved_of_resolve hresolve
  exact ⟨fun names warnings h => groupsRead hd (Rust.messages_nodup h) hfields
      (Rust.sharedGroups_ok hd) Rust.sharedGroups_all,
    fun names warnings h => groupsRead hd (Python.messages_nodup h) hfields
      (Python.sharedGroups_ok hd) Python.sharedGroups_all⟩

theorem generated_groups_read_orders :
    GroupsRead ordersDictionary (Rust.output ordersDictionary) ∧
      GroupsRead ordersDictionary (Python.output ordersDictionary) := by
  have hresolve : ordersSpec.resolve = .ok ordersDictionary := rfl
  obtain ⟨_, _, hrust, _⟩ := exists_of_renamedBy
    (show renamedBy (Rust.Names.new ordersDictionary []) = some [some "Buy2"] by decide +kernel)
  obtain ⟨_, _, hpython, _⟩ := exists_of_renamedBy
    (show renamedBy (Python.Names.new ordersDictionary []) = some [some "BUY_2"] by decide +kernel)
  obtain ⟨hrustRead, hpythonRead⟩ := generated_groups_read hresolve (by decide)
  exact ⟨hrustRead _ _ hrust, hpythonRead _ _ hpython⟩

end Refix.Codegen
