import Refix.Codegen.Lookups
import Refix.Group.Table

/-!
# Generated Tables

The constructors of the runtime assert that a list of tags is strictly increasing, and that a
table's members contain its delimiter and the tags that count its nested groups. What is written
for a group, nested or not, meets this, and so do the known tags, but for the envelope's own
where no message brings header and trailer together.
-/

namespace Refix.Codegen

open Refix.Foundation
open Refix.Dict
open Refix.Message (Tag isSortedSet isSortedSet_iff)

/-! ## What the constructors assert -/

/-- Everything that is written for groups. -/
def Output.items {n : ℕ} (output : Output n) : List (GroupItem n) :=
  output.groups ++ output.views.flatMap ViewItem.groups ++
    output.messages.flatMap MessageItem.groups

section Asserted

variable (fields : List Field) (output : Output fields.length)

/-- The item whose table a group's path names. -/
def Output.At (group : Group fields.length) (item : GroupItem fields.length) : Prop :=
  item ∈ output.items ∧ item.group.instanceContext fields = group.instanceContext fields

/-- The tag that counts a table's instances. -/
inductive CountTag : TableExpr fields.length → Tag → Prop where
  | path {group : Group fields.length} {item : GroupItem fields.length} {tag : Tag}
      (hitem : output.At fields group item) (h : CountTag item.table tag) :
      CountTag (.path group) tag
  | new {countTag delimiter : Tag} {members : List Tag} {nested : List (TableExpr fields.length)} :
      CountTag (.new countTag delimiter members nested) countTag

/-- A tag of a table, or of a table nested in it at any depth. -/
inductive HasTag : TableExpr fields.length → Tag → Prop where
  | path {group : Group fields.length} {item : GroupItem fields.length} {tag : Tag}
      (hitem : output.At fields group item) (h : HasTag item.table tag) :
      HasTag (.path group) tag
  | member {countTag delimiter tag : Tag} {members : List Tag}
      {nested : List (TableExpr fields.length)} (h : tag ∈ members) :
      HasTag (.new countTag delimiter members nested) tag
  | nested {countTag delimiter tag : Tag} {members : List Tag}
      {nested : List (TableExpr fields.length)} {table : TableExpr fields.length}
      (hmem : table ∈ nested) (h : HasTag table tag) :
      HasTag (.new countTag delimiter members nested) tag

/-- The assertions of a table's constructor, and of those written out in its arguments. -/
inductive TableOk : TableExpr fields.length → Prop where
  | path {group : Group fields.length} : TableOk (.path group)
  | new {countTag delimiter : Tag} {members : List Tag} {nested : List (TableExpr fields.length)}
      (hsorted : isSortedSet members = true) (hdelimiter : delimiter ∈ members)
      (hcounts : ∀ table ∈ nested, ∀ tag, CountTag fields output table tag → tag ∈ members)
      (hnested : ∀ table ∈ nested, TableOk table) :
      TableOk (.new countTag delimiter members nested)

/-- A group's accessor knows every tag of the table it walks by. -/
def WalkOk (known : List Tag) (group : Group fields.length) : Prop :=
  ∀ tag, CountTag fields output (.path group) tag ∨ HasTag fields output (.path group) tag →
    tag ∈ known

/-- No assertion fails in the generated code, and every walk knows the tags of its table. -/
structure TablesOk : Prop where
  messages_sorted : ∀ item ∈ output.messages, isSortedSet item.knownTags = true
  groups_sorted : ∀ item ∈ output.items, isSortedSet item.knownTags = true
  views_sorted : ∀ item ∈ output.views, ∀ tags, item.knownTags = some tags →
    isSortedSet tags = true
  tables : ∀ item ∈ output.items, TableOk fields output item.table
  messages_walk : ∀ item ∈ output.messages, ∀ group, .group group ∈ item.accessors →
    WalkOk fields output item.knownTags group
  groups_walk : ∀ item ∈ output.items, ∀ group, .group group ∈ item.accessors →
    WalkOk fields output item.knownTags group
  views_walk : ∀ item ∈ output.views, ∀ group, .group group ∈ item.accessors →
    ∃ tags, item.knownTags = some tags ∧ WalkOk fields output tags group ∧
      ∀ message ∈ output.messages, WalkOk fields output message.knownTags group

end Asserted

/-! ## Sorted lists of tags -/

/-- A list that is sorted holds each tag once where the list it is of does. -/
theorem isSortedSet_insertionSort {tags : List Tag} :
    isSortedSet (tags.insertionSort (· ≤ ·)) = true ↔ tags.Nodup := by
  rw [isSortedSet_iff, ← (List.perm_insertionSort (· ≤ ·) tags).nodup_iff]
  have hsorted := List.pairwise_insertionSort (· ≤ ·) tags
  constructor
  · exact fun h => h.imp Nat.ne_of_lt
  · intro hnodup
    exact hsorted.imp₂ (fun _ _ => Nat.lt_of_le_of_ne) hnodup

section Tags

variable {fields : List Field}

/-- Collecting tags is adding those of the members. -/
theorem collectTags_eq (members : List (ResolvedMember fields.length)) : ∀ tags,
    collectTags fields members tags = tags ++ tagsOf fields members := by
  induction members using members_of_groups_induction with
  | nil =>
    intro tags
    simp [collectTags, tagsOf]
  | field index isRequired members ih =>
    intro tags
    rw [collectTags, collectMember, ih, tagsOf, memberTagsOf, List.append_assoc]
  | group group members ihi ihm =>
    intro tags
    rw [collectTags, Group.member, collectMember, ihi, ihm, tagsOf, memberTagsOf]
    simp

theorem isSortedSet_knownTags {members : List (ResolvedMember fields.length)} :
    isSortedSet (knownTags fields members) = true ↔ (tagsOf fields members).Nodup := by
  rw [knownTags, isSortedSet_insertionSort, collectTags_eq, List.nil_append]

theorem mem_knownTags {members : List (ResolvedMember fields.length)} {tag : Tag} :
    tag ∈ knownTags fields members ↔ tag ∈ tagsOf fields members := by
  rw [knownTags, List.mem_insertionSort, collectTags_eq, List.nil_append]

theorem mem_messageKnownTags {members : List (ResolvedMember fields.length)} {envelope : List Tag}
    {tag : Tag} : tag ∈ messageKnownTags fields members envelope ↔
      tag ∈ envelope ∨ tag ∈ tagsOf fields members := by
  rw [messageKnownTags, List.mem_insertionSort, collectTags_eq, List.mem_append]

/-- The tags of members themselves are among those at any depth, in order. -/
theorem firstTags_sublist (members : List (ResolvedMember fields.length)) :
    (members.map fun member => (fields.get member.firstField).tag).Sublist
      (tagsOf fields members) := by
  induction members with
  | nil => exact List.Sublist.slnil
  | cons member members ih =>
    rw [List.map_cons, tagsOf]
    exact (List.singleton_sublist.mpr (mem_memberTagsOf_firstField member)).append ih

theorem isSortedSet_memberTags {group : Group fields.length}
    (h : (tagsOf fields group.members).Nodup) :
    isSortedSet (memberTags fields group) = true := by
  rw [memberTags, isSortedSet_insertionSort]
  exact (firstTags_sublist group.members).nodup h

theorem mem_memberTags {group : Group fields.length} {tag : Tag} :
    tag ∈ memberTags fields group ↔
      ∃ member ∈ group.members, (fields.get member.firstField).tag = tag := by
  rw [memberTags, List.mem_insertionSort, List.mem_map]

end Tags

/-! ## Tables and walks -/

section Output

variable {dictionary : Dictionary} {shared : List (Group dictionary.spec.fields.length)}
  {group : Group dictionary.spec.fields.length}

/-- Every item is that of a group which is reached and gets types of its own. -/
theorem exists_of_mem_items (hd : dictionary.Resolved) (hshared : SharedOk dictionary shared)
    {item : GroupItem dictionary.spec.fields.length}
    (hitem : item ∈ (emit dictionary shared).items) :
    ∃ group, dictionary.Reaches group ∧ isGenerated group = true ∧
      item = emitGroup dictionary.spec.fields group := by
  have hown : ∀ {context members} {own : List (Group dictionary.spec.fields.length)},
      dictionary.HasList context members → own ⊆ groupsOf members →
      item ∈ own.map (emitGroup dictionary.spec.fields) → ∃ group, dictionary.Reaches group ∧
        isGenerated group = true ∧ item = emitGroup dictionary.spec.fields group := by
    intro context members own hlist hsub hmem
    obtain ⟨group, hgroup, rfl⟩ := List.mem_map.mp hmem
    have hmember := mem_groupsOf.mp (hsub hgroup)
    exact ⟨group, .root hlist hmember, isGenerated_of_hasList hd hlist hmember, rfl⟩
  simp only [Output.items, emit, List.mem_append, or_assoc] at hitem
  rcases hitem with hgroup | hview | hmessage
  · obtain ⟨group, hmem, rfl⟩ := List.mem_map.mp hgroup
    obtain ⟨hreaches, hcomponent⟩ := hshared group hmem
    exact ⟨group, hreaches, isGenerated_of_inComponent hcomponent, rfl⟩
  · obtain ⟨view, hview, hitem⟩ := List.mem_flatMap.mp hview
    obtain ⟨part, _, rfl⟩ := List.mem_map.mp hview
    exact hown (hasList_section dictionary part) (List.filter_subset_self _) hitem
  · obtain ⟨message, hmessage, hitem⟩ := List.mem_flatMap.mp hmessage
    obtain ⟨entry, hentry, rfl⟩ := List.mem_map.mp hmessage
    exact hown (.message hentry) (List.filter_subset_self _) hitem

/-- The tags of a group's instances are all different. -/
theorem tagsOf_nodup (hd : dictionary.Resolved) (hgroup : dictionary.Reaches group) :
    (tagsOf dictionary.spec.fields group.members).Nodup := by
  obtain ⟨⟨declared, own, hdeclares, hown, hsame⟩, _⟩ := hgroup.declared hd
  rw [hsame.members_eq]
  exact nodup_of_member (hdeclares.nodup hd) hown

theorem delimiter_mem (hd : dictionary.Resolved) (hgroup : dictionary.Reaches group) :
    (dictionary.spec.fields.get group.delimiterIndex).tag ∈
      memberTags dictionary.spec.fields group := by
  obtain ⟨_, inst, first, others, _, hmembers, hdelimiter⟩ := hgroup.declared hd
  rw [mem_memberTags]
  refine ⟨first.require, by simp [hmembers], ?_⟩
  have hfirst : first.require.firstField = first.firstField := by cases first <;> rfl
  simp only [hfirst, hdelimiter]

theorem not_group_of_isGenerated (h : isGenerated group = true) (name : String)
    (parent : MemberContext) : group.declaredIn ≠ .group name parent := by
  intro hdeclared
  rw [isGenerated, hdeclared] at h
  cases h

/-- A list that names a group's table holds the group of that table. -/
theorem exists_member_of_at (hd : dictionary.Resolved)
    (hmessages : (dictionary.spec.messages.map Message.name).Nodup)
    (hshared : SharedOk dictionary shared) {context : MemberContext}
    {members : List (ResolvedMember dictionary.spec.fields.length)}
    (hlist : dictionary.ReachesList context members) (hmem : group.member ∈ members)
    (hgenerated : isGenerated group = true) {item : GroupItem dictionary.spec.fields.length}
    (hitem : (emit dictionary shared).At dictionary.spec.fields group item) :
    ∃ own named : Group dictionary.spec.fields.length, dictionary.Reaches named ∧
      item = emitGroup dictionary.spec.fields named ∧ own.member ∈ members ∧ named.Same own := by
  obtain ⟨hitems, hcontext⟩ := hitem
  obtain ⟨named, hnamed, _, rfl⟩ := exists_of_mem_items hd hshared hitems
  injection hcontext with _ hdeclared
  obtain ⟨own, hown, hsame⟩ := hlist.holds hd hmessages hmem
    (not_group_of_isGenerated hgenerated) hnamed hdeclared.symm
  exact ⟨own, named, hnamed, rfl, hown, hsame⟩

/-- A table that stands in a list of members: named there, or written out. -/
inductive Stands (dictionary : Dictionary) :
    List (ResolvedMember dictionary.spec.fields.length) →
      TableExpr dictionary.spec.fields.length → Prop where
  | path {context : MemberContext} {members : List (ResolvedMember dictionary.spec.fields.length)}
      {group : Group dictionary.spec.fields.length}
      (hlist : dictionary.ReachesList context members) (hmem : group.member ∈ members)
      (hgenerated : isGenerated group = true) : Stands dictionary members (.path group)
  | new {context : MemberContext} {members : List (ResolvedMember dictionary.spec.fields.length)}
      {group : Group dictionary.spec.fields.length}
      (hlist : dictionary.ReachesList context members) (hmem : group.member ∈ members) :
      Stands dictionary members (emitTable dictionary.spec.fields group)

/-- The nested tables of a list stand in it. -/
theorem stands_of_mem {context : MemberContext}
    {members : List (ResolvedMember dictionary.spec.fields.length)}
    (hlist : dictionary.ReachesList context members)
    {table : TableExpr dictionary.spec.fields.length}
    (htable : table ∈ nestedTables dictionary.spec.fields members) :
    Stands dictionary members table := by
  -- By induction on the members still to be emitted, all of them in the list.
  have hfrom : ∀ rest : List (ResolvedMember dictionary.spec.fields.length), rest ⊆ members →
      table ∈ nestedTables dictionary.spec.fields rest → Stands dictionary members table := by
    intro rest
    induction rest with
    | nil =>
      intro _ h
      cases h
    | cons member rest ih =>
      intro hsub h
      obtain ⟨hmember, hrest⟩ := List.cons_subset.mp hsub
      cases member with
      | field index isRequired =>
        rw [nestedTables, tableReference, List.nil_append] at h
        exact ih hrest h
      | group countFieldIndex delimiterIndex isRequired declaredIn component inst =>
        generalize hgroup : (⟨countFieldIndex, delimiterIndex, isRequired, declaredIn, component,
          inst⟩ : Group dictionary.spec.fields.length) = group
        have hmember' : group.member ∈ members := hgroup ▸ hmember
        have heq : ResolvedMember.group countFieldIndex delimiterIndex isRequired declaredIn
          component inst = group.member := by rw [← hgroup, Group.member]
        rw [heq, nestedTables_group, List.mem_cons] at h
        rcases h with rfl | h
        · split
          · next hgenerated => exact .path hlist hmember' hgenerated
          · exact .new hlist hmember'
        · exact ih hrest h
  exact hfrom members (List.Subset.refl _) htable

variable {members : List (ResolvedMember dictionary.spec.fields.length)}
  {table : TableExpr dictionary.spec.fields.length} {tag : Tag}

/-- The count tag of a table that stands in a list is that of one of the list's groups. -/
theorem countTag_mem (hd : dictionary.Resolved)
    (hmessages : (dictionary.spec.messages.map Message.name).Nodup)
    (hshared : SharedOk dictionary shared) (h : Stands dictionary members table)
    (hcount : CountTag dictionary.spec.fields (emit dictionary shared) table tag) :
    ∃ own : Group dictionary.spec.fields.length, own.member ∈ members ∧
      (dictionary.spec.fields.get own.countFieldIndex).tag = tag := by
  cases h with
  | path hlist hmem hgenerated =>
    cases hcount with
    | path hitem hcount =>
      obtain ⟨own, named, _, rfl, hown, hsame⟩ :=
        exists_member_of_at hd hmessages hshared hlist hmem hgenerated hitem
      cases hcount with
      | new =>
        refine ⟨own, hown, ?_⟩
        simp only [hsame.countFieldIndex_eq]
  | new hlist hmem =>
    cases hcount with
    | new => exact ⟨_, hmem, rfl⟩

theorem tagsOf_subset (hmem : group.member ∈ members) :
    tagsOf dictionary.spec.fields group.members ⊆ tagsOf dictionary.spec.fields members := by
  have hsub : memberTagsOf dictionary.spec.fields group.member ⊆ _ := memberTagsOf_subset hmem
  rw [Group.member, memberTagsOf] at hsub
  exact fun tag htag => hsub (List.mem_cons_of_mem _ htag)

/-- **The tags of a table that stands in a list are tags of the list**, and those of a group's own
table tags of its instances. -/
theorem hasTag_mem (hd : dictionary.Resolved)
    (hmessages : (dictionary.spec.messages.map Message.name).Nodup)
    (hshared : SharedOk dictionary shared)
    (htag : HasTag dictionary.spec.fields (emit dictionary shared) table tag) :
    (∀ members, Stands dictionary members table → tag ∈ tagsOf dictionary.spec.fields members) ∧
      ∀ group, dictionary.Reaches group → table = emitTable dictionary.spec.fields group →
        tag ∈ tagsOf dictionary.spec.fields group.members := by
  -- a table that is written out in a list is that of one of the list's groups
  have hstands : ∀ {table : TableExpr dictionary.spec.fields.length} {tag : Tag},
      (∀ group, table ≠ .path group) →
      (∀ group, dictionary.Reaches group → table = emitTable dictionary.spec.fields group →
        tag ∈ tagsOf dictionary.spec.fields group.members) →
      ∀ members, Stands dictionary members table →
        tag ∈ tagsOf dictionary.spec.fields members := by
    intro table tag hnot hown members h
    cases h with
    | path _ _ _ => exact absurd rfl (hnot _)
    | new hlist hmem => exact tagsOf_subset hmem (hown _ (hlist.reaches hmem) rfl)
  induction htag with
  | @path group item tag hitem h ih =>
    refine ⟨fun members hstanding => ?_, fun _ _ heq => by cases heq⟩
    cases hstanding with
    | path hlist hmem hgenerated =>
      obtain ⟨own, named, hnamed, rfl, hown, hsame⟩ :=
        exists_member_of_at hd hmessages hshared hlist hmem hgenerated hitem
      have htag := ih.2 named hnamed rfl
      rw [hsame.members_eq] at htag
      exact tagsOf_subset hown htag
  | @member countTag delimiter tag memberTags nested h =>
    have hown : ∀ group, dictionary.Reaches group →
        TableExpr.new countTag delimiter memberTags nested =
          emitTable dictionary.spec.fields group →
        tag ∈ tagsOf dictionary.spec.fields group.members := by
      intro group _ heq
      rw [emitTable] at heq
      injection heq with _ _ hmembers _
      rw [hmembers, mem_memberTags] at h
      obtain ⟨member, hmember, rfl⟩ := h
      exact memberTagsOf_subset hmember (mem_memberTagsOf_firstField member)
    exact ⟨hstands (by intro _ heq; cases heq) hown, hown⟩
  | @nested countTag delimiter tag memberTags nested table hmem h ih =>
    have hown : ∀ group, dictionary.Reaches group →
        TableExpr.new countTag delimiter memberTags nested =
          emitTable dictionary.spec.fields group →
        tag ∈ tagsOf dictionary.spec.fields group.members := by
      intro group hgroup heq
      rw [emitTable] at heq
      injection heq with _ _ _ hnested
      rw [hnested] at hmem
      exact ih.1 group.members (stands_of_mem (.inst hgroup) hmem)
    exact ⟨hstands (by intro _ heq; cases heq) hown, hown⟩

/-- The assertions of a group's table, those of the tables written out in it given. -/
theorem tableOk_of_nested (hd : dictionary.Resolved)
    (hmessages : (dictionary.spec.messages.map Message.name).Nodup)
    (hshared : SharedOk dictionary shared) (hgroup : dictionary.Reaches group)
    (hnested : ∀ table ∈ nestedTables dictionary.spec.fields group.members,
      TableOk dictionary.spec.fields (emit dictionary shared) table) :
    TableOk dictionary.spec.fields (emit dictionary shared)
      (emitTable dictionary.spec.fields group) := by
  refine .new (isSortedSet_memberTags (tagsOf_nodup hd hgroup)) (delimiter_mem hd hgroup) ?_ hnested
  intro table htable tag hcount
  obtain ⟨own, hown, htag⟩ :=
    countTag_mem hd hmessages hshared (stands_of_mem (.inst hgroup) htable) hcount
  exact mem_memberTags.mpr ⟨own.member, hown, htag⟩

theorem tableOk_nestedTables (hd : dictionary.Resolved)
    (hmessages : (dictionary.spec.messages.map Message.name).Nodup)
    (hshared : SharedOk dictionary shared)
    (members : List (ResolvedMember dictionary.spec.fields.length)) :
    (∀ group, Within members group → dictionary.Reaches group) →
    ∀ table ∈ nestedTables dictionary.spec.fields members,
      TableOk dictionary.spec.fields (emit dictionary shared) table := by
  induction members using members_of_groups_induction with
  | nil =>
    intro _
    simp [nestedTables]
  | field index isRequired members ih =>
    intro hreaches
    rw [nestedTables, tableReference, List.nil_append]
    exact ih fun group hgroup => hreaches group (within_cons hgroup)
  | group group members ihi ihm =>
    intro hreaches
    rw [nestedTables_group]
    refine List.forall_mem_cons.mpr ⟨?_, ihm fun inner hinner => hreaches inner
      (within_cons hinner)⟩
    split
    · exact .path
    · have hgroup := hreaches group (within_group.mpr (Or.inl rfl))
      exact tableOk_of_nested hd hmessages hshared hgroup
        (ihi fun inner hinner => hreaches inner (within_group.mpr (Or.inr (Or.inl hinner))))

/-- **The assertions of a group's table hold**, and those of the tables written out in it. -/
theorem tableOk_emitTable (hd : dictionary.Resolved)
    (hmessages : (dictionary.spec.messages.map Message.name).Nodup)
    (hshared : SharedOk dictionary shared) (hgroup : dictionary.Reaches group) :
    TableOk dictionary.spec.fields (emit dictionary shared)
      (emitTable dictionary.spec.fields group) :=
  tableOk_of_nested hd hmessages hshared hgroup
    (tableOk_nestedTables hd hmessages hshared group.members
      fun _ hinner => reaches_of_within (.inst hgroup) hinner)

/-- A walk for a group of a list knows its tags where it knows those of the list. -/
theorem walkOk_of_mem (hd : dictionary.Resolved)
    (hmessages : (dictionary.spec.messages.map Message.name).Nodup)
    (hshared : SharedOk dictionary shared) {context : MemberContext}
    (hlist : dictionary.ReachesList context members) (hmem : group.member ∈ members)
    (hgenerated : isGenerated group = true) {known : List Tag}
    (hknown : tagsOf dictionary.spec.fields members ⊆ known) :
    WalkOk dictionary.spec.fields (emit dictionary shared) known group := by
  intro tag htag
  apply hknown
  have hstands : Stands dictionary members (.path group) := .path hlist hmem hgenerated
  rcases htag with hcount | htag
  · obtain ⟨own, hown, rfl⟩ := countTag_mem hd hmessages hshared hstands hcount
    exact memberTagsOf_subset hown (mem_memberTagsOf_firstField own.member)
  · exact (hasTag_mem hd hmessages hshared htag).1 members hstands

/-! ## The envelope -/

/-- The envelope's own tags can be known tags: a message brings them together, or no view keeps
them, or header and trailer share none. -/
def EnvelopeOk (dictionary : Dictionary) : Prop :=
  dictionary.spec.messages ≠ [] ∨
    (∀ group : Group dictionary.spec.fields.length, group.member ∉ dictionary.header ∧
      group.member ∉ dictionary.trailer) ∨
    (tagsOf dictionary.spec.fields dictionary.header).Disjoint
      (tagsOf dictionary.spec.fields dictionary.trailer)

/-- Header, message and trailer hold each tag once. -/
theorem message_nodup (hd : dictionary.Resolved)
    {entry : Message × List (ResolvedMember dictionary.spec.fields.length)}
    (hentry : entry ∈ dictionary.messageMembers) :
    (tagsOf dictionary.spec.fields dictionary.header ++
      tagsOf dictionary.spec.fields entry.2 ++
      tagsOf dictionary.spec.fields dictionary.trailer).Nodup := by
  have hinlines := (List.forall₂_iff_zip.mp hd.messages).2 hentry
  exact hd.consistent.messages_unique entry.1 (List.of_mem_zip hentry).1 _
    ((hd.header.expandsTo.append hinlines.expandsTo).append hd.trailer.expandsTo)

theorem envelope_tags (dictionary : Dictionary) :
    (Envelope.of dictionary).tags =
      knownTags dictionary.spec.fields (dictionary.header ++ dictionary.trailer) := rfl

/-- A section has a view with known tags exactly where it holds a group. -/
theorem mem_withGroups {part : Section} :
    part ∈ (Envelope.of dictionary).withGroups ↔
      ∃ group : Group dictionary.spec.fields.length, group.member ∈ part.members dictionary := by
  have hpart : part ∈ [Section.header, Section.trailer] := by cases part <;> decide
  simp only [Envelope.of, List.mem_filter, hpart, true_and, List.any_eq_true]
  constructor
  · rintro ⟨_, member, hmember, hgroup⟩
    cases member with
    | field _ _ => cases hgroup
    | group countFieldIndex delimiterIndex isRequired declaredIn component members =>
      exact ⟨⟨countFieldIndex, delimiterIndex, isRequired, declaredIn, component, members⟩, hmember⟩
  · rintro ⟨group, hgroup⟩
    refine ⟨?_, group.member, hgroup, rfl⟩
    simpa using List.ne_nil_of_mem hgroup

/-- The envelope's tags are all different where they can be known tags. -/
theorem envelope_nodup (hd : dictionary.Resolved) (h : EnvelopeOk dictionary) {part : Section}
    (hpart : part ∈ (Envelope.of dictionary).withGroups) :
    isSortedSet (Envelope.of dictionary).tags = true := by
  rw [envelope_tags, isSortedSet_knownTags, tagsOf_append]
  rcases h with hmessages | hnone | hdisjoint
  · obtain ⟨message, hmessage⟩ := List.exists_mem_of_ne_nil _ hmessages
    obtain ⟨members, hentry⟩ : ∃ members, (message, members) ∈ dictionary.messageMembers := by
      obtain ⟨index, hindex, rfl⟩ := List.mem_iff_getElem.mp hmessage
      have hlength : index < dictionary.messages.length := hd.messages.length_eq ▸ hindex
      refine ⟨dictionary.messages[index], List.mem_iff_getElem.mpr ⟨index, ?_, ?_⟩⟩
      · rw [Dictionary.messageMembers, List.length_zip]
        exact lt_min hindex hlength
      · simp [Dictionary.messageMembers]
    have hnodup := message_nodup hd hentry
    exact hnodup.sublist ((List.sublist_append_left _ _).append (List.Sublist.refl _))
  · obtain ⟨group, hgroup⟩ := mem_withGroups.mp hpart
    cases part with
    | header => exact absurd hgroup (hnone group).1
    | trailer => exact absurd hgroup (hnone group).2
  · have hheader := (Dictionary.Declares.list .header).nodup hd
    have htrailer := (Dictionary.Declares.list .trailer).nodup hd
    exact hheader.append htrailer hdisjoint

/-- The view of a section that holds a group keeps the envelope's tags. -/
theorem view_knownTags {part : Section} (hpart : part ∈ (Envelope.of dictionary).withGroups) :
    (emitView dictionary (Envelope.of dictionary) part).knownTags =
      some (Envelope.of dictionary).tags := if_pos hpart

/-- The accessors of a list's groups. -/
theorem member_of_accessor {n : ℕ} {members : List (ResolvedMember n)} {group : Group n}
    (h : .group group ∈ members.map emitAccessor) : group.member ∈ members := by
  obtain ⟨member, hmember, hemit⟩ := List.mem_map.mp h
  cases member with
  | field _ _ => cases hemit
  | group countFieldIndex delimiterIndex isRequired declaredIn component inst =>
    cases hemit
    exact hmember

/-- The accessors of an instance's groups. -/
theorem member_of_instanceAccessor {n : ℕ} {members : List (ResolvedMember n)} {group : Group n}
    (h : .group group ∈ members.filterMap emitInstanceAccessor) :
    group.member ∈ members ∧ isGenerated group = true := by
  obtain ⟨member, hmember, hemit⟩ := List.mem_filterMap.mp h
  cases member with
  | field _ _ => cases hemit
  | group countFieldIndex delimiterIndex isRequired declaredIn component inst =>
    rw [emitInstanceAccessor, emitAccessor] at hemit
    simp only at hemit
    split at hemit
    · next hgenerated =>
      cases hemit
      exact ⟨hmember, hgenerated⟩
    · cases hemit

/-- A section's tags are the envelope's. -/
theorem section_tags_subset (dictionary : Dictionary) (part : Section) :
    tagsOf dictionary.spec.fields (part.members dictionary) ⊆ (Envelope.of dictionary).tags := by
  intro tag htag
  rw [envelope_tags, mem_knownTags, tagsOf_append, List.mem_append]
  cases part with
  | header => exact Or.inl htag
  | trailer => exact Or.inr htag

/-- **Every assertion holds exactly where the envelope's tags can be known tags.** -/
theorem tablesOk_iff (hd : dictionary.Resolved)
    (hmessages : (dictionary.spec.messages.map Message.name).Nodup)
    (hshared : SharedOk dictionary shared) :
    TablesOk dictionary.spec.fields (emit dictionary shared) ↔ EnvelopeOk dictionary := by
  constructor
  · intro h
    by_cases hempty : dictionary.spec.messages ≠ []
    · exact Or.inl hempty
    right
    by_cases hgroups : ∃ part, part ∈ (Envelope.of dictionary).withGroups
    · right
      obtain ⟨part, hpart⟩ := hgroups
      have hview : emitView dictionary (Envelope.of dictionary) part ∈
          (emit dictionary shared).views := List.mem_map_of_mem (List.mem_of_mem_filter hpart)
      have hsorted := h.views_sorted _ hview _ (view_knownTags hpart)
      rw [envelope_tags, isSortedSet_knownTags, tagsOf_append] at hsorted
      exact List.disjoint_of_nodup_append hsorted
    · left
      exact fun group => ⟨fun hgroup => hgroups ⟨.header, mem_withGroups.mpr ⟨group, hgroup⟩⟩,
        fun hgroup => hgroups ⟨.trailer, mem_withGroups.mpr ⟨group, hgroup⟩⟩⟩
  · intro h
    refine ⟨?_, ?_, ?_, ?_, ?_, ?_, ?_⟩
    · intro item hitem
      obtain ⟨entry, hentry, rfl⟩ := List.mem_map.mp hitem
      rw [emitMessage, messageKnownTags, isSortedSet_insertionSort, collectTags_eq, envelope_tags]
      -- the envelope's tags and the message's, in another order
      have hperm : (knownTags dictionary.spec.fields (dictionary.header ++ dictionary.trailer) ++
          tagsOf dictionary.spec.fields entry.2).Perm
          (tagsOf dictionary.spec.fields dictionary.header ++
            tagsOf dictionary.spec.fields entry.2 ++
            tagsOf dictionary.spec.fields dictionary.trailer) := by
        rw [knownTags, collectTags_eq, List.nil_append, tagsOf_append, List.append_assoc]
        refine ((List.perm_insertionSort _ _).append_right _).trans ?_
        rw [List.append_assoc]
        exact List.perm_append_comm.append_left _
      exact hperm.nodup_iff.mpr (message_nodup hd hentry)
    · intro item hitem
      obtain ⟨group, hgroup, _, rfl⟩ := exists_of_mem_items hd hshared hitem
      exact isSortedSet_knownTags.mpr (tagsOf_nodup hd hgroup)
    · intro item hitem tags htags
      obtain ⟨part, _, rfl⟩ := List.mem_map.mp hitem
      simp only [emitView] at htags
      split at htags
      · next hpart =>
        cases htags
        exact envelope_nodup hd h hpart
      · cases htags
    · intro item hitem
      obtain ⟨group, hgroup, _, rfl⟩ := exists_of_mem_items hd hshared hitem
      exact tableOk_emitTable hd hmessages hshared hgroup
    · intro item hitem group haccessor
      obtain ⟨entry, hentry, rfl⟩ := List.mem_map.mp hitem
      have hlist : dictionary.HasList (.message entry.1.name) entry.2 := .message hentry
      have hmem := member_of_accessor haccessor
      refine walkOk_of_mem hd hmessages hshared (.root hlist) hmem
        (isGenerated_of_hasList hd hlist hmem) fun tag htag => ?_
      exact mem_messageKnownTags.mpr (Or.inr htag)
    · intro item hitem group haccessor
      obtain ⟨owner, howner, _, rfl⟩ := exists_of_mem_items hd hshared hitem
      obtain ⟨hmem, hgenerated⟩ := member_of_instanceAccessor haccessor
      exact walkOk_of_mem hd hmessages hshared (.inst howner) hmem hgenerated
        fun tag htag => mem_knownTags.mpr htag
    · intro item hitem group haccessor
      obtain ⟨part, _, rfl⟩ := List.mem_map.mp hitem
      have hlist := hasList_section dictionary part
      have hmem := member_of_accessor haccessor
      have hgenerated := isGenerated_of_hasList hd hlist hmem
      have hpart : part ∈ (Envelope.of dictionary).withGroups := mem_withGroups.mpr ⟨group, hmem⟩
      refine ⟨_, view_knownTags hpart, ?_, fun message hmessage => ?_⟩
      · exact walkOk_of_mem hd hmessages hshared (.root hlist) hmem hgenerated
          (section_tags_subset dictionary part)
      · -- a message passes its own known tags, the envelope's among them
        obtain ⟨entry, _, rfl⟩ := List.mem_map.mp hmessage
        refine walkOk_of_mem hd hmessages hshared (.root hlist) hmem hgenerated fun tag htag => ?_
        exact mem_messageKnownTags.mpr (Or.inl (section_tags_subset dictionary part htag))

end Output

/-! ## Both languages -/

section Languages

variable {dictionary : Dictionary}

theorem Rust.messages_nodup {warnings warnings' : List Warning} {names : Rust.Names}
    (h : Rust.Names.new dictionary warnings = .ok (names, warnings')) :
    (dictionary.spec.messages.map Message.name).Nodup := by
  rw [Rust.Names.new] at h
  obtain ⟨state, hclaim, _⟩ := bind_eq_ok.mp h
  have hfills := (Rust.claimMessages_outcome False _).of_eq_ok hclaim
  exact Rust.names_nodup hfills.2.distinct

theorem Python.messages_nodup {warnings warnings' : List Warning} {names : Python.Names}
    (h : Python.Names.new dictionary warnings = .ok (names, warnings')) :
    (dictionary.spec.messages.map Message.name).Nodup := by
  rw [Python.Names.new] at h
  obtain ⟨space, hclaim, _⟩ := bind_eq_ok.mp h
  have hfills := (Python.claimMessages_outcome False _).of_eq_ok hclaim
  have hdistinct := hfills.distinct
  rw [← List.append_nil (dictionary.spec.messages.map Python.messageKey)] at hdistinct
  exact Python.names_nodup hdistinct

end Languages

/-- **The assertions of the runtime hold in generated code** exactly where a message brings header
and trailer together, or none of these two holds a group, or they share no tag. Naming fails, and
no code is generated, where two messages have one name. -/
theorem tables_ok_iff {spec : Spec} {dictionary : Dictionary}
    (hresolve : spec.resolve = .ok dictionary) :
    (∀ names warnings, Rust.Names.new dictionary [] = .ok (names, warnings) →
      (TablesOk dictionary.spec.fields (Rust.output dictionary) ↔ EnvelopeOk dictionary)) ∧
    ∀ names warnings, Python.Names.new dictionary [] = .ok (names, warnings) →
      (TablesOk dictionary.spec.fields (Python.output dictionary) ↔ EnvelopeOk dictionary) := by
  obtain ⟨rfl, hd⟩ := resolved_of_resolve hresolve
  exact ⟨fun names warnings h =>
      tablesOk_iff hd (Rust.messages_nodup h) (Rust.sharedGroups_ok hd),
    fun names warnings h =>
      tablesOk_iff hd (Python.messages_nodup h) (Python.sharedGroups_ok hd)⟩

theorem tables_ok_iff_orders :
    TablesOk ordersDictionary.spec.fields (Rust.output ordersDictionary) ∧
      TablesOk ordersDictionary.spec.fields (Python.output ordersDictionary) := by
  have hresolve : ordersSpec.resolve = .ok ordersDictionary := rfl
  have hmessages : EnvelopeOk ordersDictionary := Or.inl (by simp [ordersDictionary, ordersSpec])
  obtain ⟨_, _, hrust, _⟩ := exists_of_renamedBy
    (show renamedBy (Rust.Names.new ordersDictionary []) = some [some "Buy2"] by decide +kernel)
  obtain ⟨_, _, hpython, _⟩ := exists_of_renamedBy
    (show renamedBy (Python.Names.new ordersDictionary []) = some [some "BUY_2"] by decide +kernel)
  obtain ⟨hrustOk, hpythonOk⟩ := tables_ok_iff hresolve
  exact ⟨(hrustOk _ _ hrust).mpr hmessages, (hpythonOk _ _ hpython).mpr hmessages⟩

/-- A header and a trailer that share a field, and no message. -/
def hopsSpec : Spec where
  version := { protocol := .fix, major := 4, minor := 4, servicePack := 0 }
  header := [.group 627 false [.field { tag := 628, isRequired := true }]]
  messages := []
  trailer := [.field { tag := 628, isRequired := false }]
  fields :=
    [{ name := "NoHops", tag := 627, dataType := .numInGroup, lengthTag := none, values := [] },
     { name := "HopCompID", tag := 628, dataType := .string, lengthTag := none, values := [] }]
  components := []

def hopsDictionary : Dictionary where
  spec := hopsSpec
  header := [.group ⟨0, by decide⟩ ⟨1, by decide⟩ false .header none [.field ⟨1, by decide⟩ true]]
  messages := []
  trailer := [.field ⟨1, by decide⟩ false]

/-- The view of the header keeps the tags 627, 628 and 628. -/
theorem hops_not_ok :
    hopsSpec.resolve = .ok hopsDictionary ∧
      (∃ result, Rust.Names.new hopsDictionary [] = .ok result) ∧
      ¬ TablesOk hopsDictionary.spec.fields (Rust.output hopsDictionary) ∧
      (∃ result, Python.Names.new hopsDictionary [] = .ok result) ∧
      ¬ TablesOk hopsDictionary.spec.fields (Python.output hopsDictionary) := by
  obtain ⟨_, _, hrust, _⟩ := exists_of_renamedBy
    (show renamedBy (Rust.Names.new hopsDictionary []) = some [] by decide +kernel)
  obtain ⟨_, _, hpython, _⟩ := exists_of_renamedBy
    (show renamedBy (Python.Names.new hopsDictionary []) = some [] by decide +kernel)
  have hpart : Section.header ∈ (Envelope.of hopsDictionary).withGroups := by decide
  have hsection : Section.header ∈ (Envelope.of hopsDictionary).sections := by decide
  have hunsorted : isSortedSet (Envelope.of hopsDictionary).tags ≠ true := by decide +kernel
  have hview : ∀ shared, emitView hopsDictionary (Envelope.of hopsDictionary) .header ∈
      (emit hopsDictionary shared).views :=
    fun shared => List.mem_map_of_mem hsection
  refine ⟨rfl, ⟨_, hrust⟩, fun h => ?_, ⟨_, hpython⟩, fun h => ?_⟩
  · exact hunsorted (h.views_sorted _ (hview _) _ (view_knownTags hpart))
  · exact hunsorted (h.views_sorted _ (hview _) _ (view_knownTags hpart))

end Refix.Codegen
