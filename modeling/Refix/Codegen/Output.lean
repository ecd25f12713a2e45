import Refix.Codegen.Emission
import Refix.Codegen.Enums

/-!
# The Generated Code

What the generators write, but for the layout of the text: the constants of tables and known
tags with the arguments they are built from, and the accessors, each under what its names are
looked up by. Rust and Python write the same, their shared groups in different orders.
-/

namespace Refix.Codegen

open Refix.Foundation
open Refix.Dict
open Refix.Message (Tag)

/-! ## Tables -/

/-- A group's table: the constant of a group that has one, or a constructor with its arguments. -/
inductive TableExpr (n : ℕ) where
  | path (group : Group n)
  | new (countTag delimiter : Tag) (members : List Tag) (nested : List (TableExpr n))

section Tables

variable (fields : List Field)

mutual

/-- The tables of the groups among members, in order. -/
def nestedTables : List (ResolvedMember fields.length) → List (TableExpr fields.length)
  | [] => []
  | member :: members => tableReference member ++ nestedTables members

/-- A nested group's table, written out in place for a group without one of its own. -/
def tableReference : ResolvedMember fields.length → List (TableExpr fields.length)
  | .field _ _ => []
  | .group countFieldIndex delimiterIndex isRequired declaredIn component members =>
    let group : Group fields.length :=
      { countFieldIndex, delimiterIndex, isRequired, declaredIn, component, members }
    if isGenerated group then [.path group]
    else [.new (fields.get countFieldIndex).tag (fields.get delimiterIndex).tag
      (memberTags fields group)
      (nestedTables members)]

end

/-- The constant of a group's table. -/
def emitTable (group : Group fields.length) : TableExpr fields.length :=
  .new (fields.get group.countFieldIndex).tag (fields.get group.delimiterIndex).tag
    (memberTags fields group)
    (nestedTables fields group.members)

theorem nestedTables_group (group : Group fields.length)
    (members : List (ResolvedMember fields.length)) :
    nestedTables fields (group.member :: members) =
      (if isGenerated group then .path group else emitTable fields group) ::
        nestedTables fields members := by
  rw [nestedTables, Group.member, tableReference]
  split <;> rfl

end Tables

/-! ## Accessors -/

/-- What reads a field, or a group's instances. -/
inductive Accessor (n : ℕ) where
  | field (index : Fin n)
  | group (group : Group n)

/-- The accessor of a member of a message or section. -/
def emitAccessor {n : ℕ} : ResolvedMember n → Accessor n
  | .field index _ => .field index
  | .group countFieldIndex delimiterIndex isRequired declaredIn component members =>
    .group { countFieldIndex, delimiterIndex, isRequired, declaredIn, component, members }

/-- The accessor of a member of an instance. A group without types of its own has none. -/
def emitInstanceAccessor {n : ℕ} (member : ResolvedMember n) : Option (Accessor n) :=
  match emitAccessor member with
  | .field index => some (.field index)
  | .group group => if isGenerated group then some (.group group) else none

/-! ## Groups, messages and views -/

/-- The module of a group, in Python its class. The accessors of its instances walk with its known
tags. -/
structure GroupItem (n : ℕ) where
  group : Group n
  table : TableExpr n
  knownTags : List Tag
  accessors : List (Accessor n)

/-- A message. Its accessors walk with its known tags. -/
structure MessageItem (n : ℕ) where
  message : Message
  knownTags : List Tag
  accessors : List (Accessor n)
  groups : List (GroupItem n)

/-- The view of a section. Its accessors walk with its own known tags, or with those of the
message that the view is of. -/
structure ViewItem (n : ℕ) where
  part : Section
  knownTags : Option (List Tag)
  accessors : List (Accessor n)
  groups : List (GroupItem n)

structure Output (n : ℕ) where
  enums : List Field
  groups : List (GroupItem n)
  views : List (ViewItem n)
  messages : List (MessageItem n)

def emitGroup (fields : List Field) (group : Group fields.length) : GroupItem fields.length where
  group
  table := emitTable fields group
  knownTags := knownTags fields group.members
  accessors := group.members.filterMap emitInstanceAccessor

def emitMessage (fields : List Field) (envelope : Envelope)
    (entry : Message × List (ResolvedMember fields.length)) : MessageItem fields.length where
  message := entry.1
  knownTags := messageKnownTags fields entry.2 envelope.tags
  accessors := entry.2.map emitAccessor
  groups := (ownGroups entry.2).map (emitGroup fields)

def emitView (dictionary : Dictionary) (envelope : Envelope) (part : Section) :
    ViewItem dictionary.spec.fields.length where
  part
  knownTags := if part ∈ envelope.withGroups then some envelope.tags else none
  accessors := (part.members dictionary).map emitAccessor
  groups := (sectionGroups dictionary part).map (emitGroup dictionary.spec.fields)

/-- The generated code, `shared` being the groups that components declare. -/
def emit (dictionary : Dictionary) (shared : List (Group dictionary.spec.fields.length)) :
    Output dictionary.spec.fields.length :=
  let envelope := Envelope.of dictionary
  { enums := enumFields dictionary.spec.fields
    groups := shared.map (emitGroup dictionary.spec.fields)
    views := envelope.sections.map (emitView dictionary envelope)
    messages := dictionary.messageMembers.map (emitMessage dictionary.spec.fields envelope) }

def Rust.output (dictionary : Dictionary) : Output dictionary.spec.fields.length :=
  emit dictionary (Rust.sharedGroups dictionary []).1

def Python.output (dictionary : Dictionary) : Output dictionary.spec.fields.length :=
  emit dictionary (Python.sharedGroups dictionary []).1

/-! ## What is looked up -/

/-- What emitting looks up. -/
inductive Lookup (n : ℕ) where
  /-- The accessor of a field, and the type it reads the field through. -/
  | field (index : Fin n)
  /-- The module and accessor of a group. -/
  | group (group : Group n)
  | path (group : Group n)
  | messageModule (message : Message)
  /-- The type and values of a field's enum. -/
  | enum (field : Field)

section Lookups

variable {n : ℕ}

mutual

def tablesLookups : List (TableExpr n) → List (Lookup n)
  | [] => []
  | table :: tables => tableLookups table ++ tablesLookups tables

def tableLookups : TableExpr n → List (Lookup n)
  | .path group => [.path group]
  | .new _ _ _ nested => tablesLookups nested

end

def accessorLookups : Accessor n → List (Lookup n)
  | .field index => [.field index]
  | .group group => [.group group, .path group]

def groupLookups (item : GroupItem n) : List (Lookup n) :=
  .path item.group :: .group item.group :: tableLookups item.table ++
    item.accessors.flatMap accessorLookups

/-- A message's module is looked up where it holds groups. -/
def messageLookups (item : MessageItem n) : List (Lookup n) :=
  item.accessors.flatMap accessorLookups ++ item.groups.flatMap groupLookups ++
    if item.groups.isEmpty then [] else [.messageModule item.message]

def viewLookups (item : ViewItem n) : List (Lookup n) :=
  item.accessors.flatMap accessorLookups ++ item.groups.flatMap groupLookups

def lookups (output : Output n) : List (Lookup n) :=
  output.enums.map .enum ++ output.groups.flatMap groupLookups ++
    output.views.flatMap viewLookups ++ output.messages.flatMap messageLookups

end Lookups

/-! ## What is looked up is generated -/

section Valid

variable {dictionary : Dictionary}

/-- A list whose members get accessors. -/
inductive Emitted (dictionary : Dictionary) :
    List (ResolvedMember dictionary.spec.fields.length) → Prop where
  | list {context : MemberContext} {members : List (ResolvedMember dictionary.spec.fields.length)}
      (h : dictionary.HasList context members) : Emitted dictionary members
  | inst {group : Group dictionary.spec.fields.length} (hgroup : dictionary.Reaches group)
      (hgenerated : isGenerated group = true) : Emitted dictionary group.members

/-- What is looked up belongs to the dictionary, and is of a kind that has names. -/
inductive Lookup.Valid (dictionary : Dictionary) : Lookup dictionary.spec.fields.length → Prop where
  | field {members : List (ResolvedMember dictionary.spec.fields.length)}
      {index : Fin dictionary.spec.fields.length} {isRequired : Bool}
      (hmembers : Emitted dictionary members) (h : .field index isRequired ∈ members) :
      Valid dictionary (.field index)
  | group {group : Group dictionary.spec.fields.length} (hgroup : dictionary.Reaches group)
      (hgenerated : isGenerated group = true) : Valid dictionary (.group group)
  | path {group : Group dictionary.spec.fields.length} (hgroup : dictionary.Reaches group)
      (hgenerated : isGenerated group = true) : Valid dictionary (.path group)
  | messageModule {entry : Message × List (ResolvedMember dictionary.spec.fields.length)}
      {group : Group dictionary.spec.fields.length} (hentry : entry ∈ dictionary.messageMembers)
      (h : group ∈ ownGroups entry.2) : Valid dictionary (.messageModule entry.1)
  | enum {field : Field} (h : field ∈ enumFields dictionary.spec.fields) :
      Valid dictionary (.enum field)

/-- Every table that a table names is that of a group with one. -/
theorem tablesLookups_valid (members : List (ResolvedMember dictionary.spec.fields.length)) :
    (∀ group, Within members group → dictionary.Reaches group) →
    ∀ lookup ∈ tablesLookups (nestedTables dictionary.spec.fields members),
      lookup.Valid dictionary := by
  induction members using members_of_groups_induction with
  | nil =>
    intro _
    simp [nestedTables, tablesLookups]
  | field index isRequired members ih =>
    intro hreaches
    rw [nestedTables, tableReference, List.nil_append]
    exact ih fun group hgroup => hreaches group (within_cons hgroup)
  | group group members ihi ihm =>
    intro hreaches
    rw [nestedTables_group, tablesLookups]
    have hgroup := hreaches group (within_group.mpr (Or.inl rfl))
    refine List.forall_mem_append.mpr ⟨?_, ihm fun inner hinner => hreaches inner
      (within_cons hinner)⟩
    split
    · next hgenerated =>
      intro lookup hlookup
      rw [tableLookups, List.mem_singleton] at hlookup
      subst hlookup
      exact .path hgroup hgenerated
    · rw [emitTable, tableLookups]
      exact ihi fun inner hinner => hreaches inner (within_group.mpr (Or.inr (Or.inl hinner)))

/-- The lookups for an accessor of a member. -/
theorem accessorLookups_valid (hd : dictionary.Resolved) {context : MemberContext}
    {members : List (ResolvedMember dictionary.spec.fields.length)}
    (hlist : dictionary.HasList context members) :
    ∀ lookup ∈ (members.map emitAccessor).flatMap accessorLookups, lookup.Valid dictionary := by
  intro lookup hlookup
  obtain ⟨accessor, haccessor, hlookup⟩ := List.mem_flatMap.mp hlookup
  obtain ⟨member, hmember, rfl⟩ := List.mem_map.mp haccessor
  cases member with
  | field index isRequired =>
    rw [emitAccessor, accessorLookups, List.mem_singleton] at hlookup
    subst hlookup
    exact .field (.list hlist) hmember
  | group countFieldIndex delimiterIndex isRequired declaredIn component inst =>
    rw [emitAccessor, accessorLookups] at hlookup
    generalize hgroup : (⟨countFieldIndex, delimiterIndex, isRequired, declaredIn, component,
      inst⟩ : Group dictionary.spec.fields.length) = group at hlookup
    have hmem : group.member ∈ members := hgroup ▸ hmember
    have hgenerated := isGenerated_of_hasList hd hlist hmem
    simp only [List.mem_cons, List.not_mem_nil, or_false] at hlookup
    rcases hlookup with rfl | rfl
    · exact .group (.root hlist hmem) hgenerated
    · exact .path (.root hlist hmem) hgenerated

theorem groupLookups_valid {group : Group dictionary.spec.fields.length}
    (hgroup : dictionary.Reaches group) (hgenerated : isGenerated group = true) :
    ∀ lookup ∈ groupLookups (emitGroup dictionary.spec.fields group), lookup.Valid dictionary := by
  intro lookup hlookup
  simp only [groupLookups, emitGroup, emitTable, tableLookups, List.cons_append, List.mem_cons,
    List.mem_append] at hlookup
  rcases hlookup with rfl | rfl | htable | haccessor
  · exact .path hgroup hgenerated
  · exact .group hgroup hgenerated
  · exact tablesLookups_valid group.members (fun _ hinner => reaches_of_within (.inst hgroup) hinner)
      lookup htable
  · obtain ⟨accessor, haccessor, hlookup⟩ := List.mem_flatMap.mp haccessor
    obtain ⟨member, hmember, hemit⟩ := List.mem_filterMap.mp haccessor
    -- A field of an instance has an accessor; a group in it has one only where it has types of its
    -- own.
    cases member with
    | field index isRequired =>
      cases hemit
      rw [accessorLookups, List.mem_singleton] at hlookup
      subst hlookup
      exact .field (.inst hgroup hgenerated) hmember
    | group countFieldIndex delimiterIndex isRequired declaredIn component inst =>
      rw [emitInstanceAccessor, emitAccessor] at hemit
      generalize hinner : (⟨countFieldIndex, delimiterIndex, isRequired, declaredIn, component,
        inst⟩ : Group dictionary.spec.fields.length) = inner at hemit
      have hmem : inner.member ∈ group.members := hinner ▸ hmember
      simp only at hemit
      split at hemit
      · next hgenerated' =>
        cases hemit
        simp only [accessorLookups, List.mem_cons, List.not_mem_nil, or_false] at hlookup
        rcases hlookup with rfl | rfl
        · exact .group (.nested hgroup hmem) hgenerated'
        · exact .path (.nested hgroup hmem) hgenerated'
      · cases hemit

/-- The lookups for groups that a top-level list declares. -/
theorem ownLookups_valid (hd : dictionary.Resolved) {context : MemberContext}
    {members : List (ResolvedMember dictionary.spec.fields.length)}
    (hlist : dictionary.HasList context members)
    {own : List (Group dictionary.spec.fields.length)} (hown : own ⊆ groupsOf members) :
    ∀ lookup ∈ (own.map (emitGroup dictionary.spec.fields)).flatMap groupLookups,
      lookup.Valid dictionary := by
  intro lookup hlookup
  obtain ⟨item, hitem, hlookup⟩ := List.mem_flatMap.mp hlookup
  obtain ⟨group, hgroup, rfl⟩ := List.mem_map.mp hitem
  have hmem := mem_groupsOf.mp (hown hgroup)
  exact groupLookups_valid (.root hlist hmem) (isGenerated_of_hasList hd hlist hmem) lookup hlookup

/-- **Every lookup is valid**, where the shared groups are some that components declare. -/
theorem lookups_valid (hd : dictionary.Resolved)
    {shared : List (Group dictionary.spec.fields.length)}
    (hshared : SharedOk dictionary shared) :
    ∀ lookup ∈ lookups (emit dictionary shared), lookup.Valid dictionary := by
  intro lookup hlookup
  simp only [lookups, emit, List.mem_append, or_assoc] at hlookup
  -- The items are emitted for enums, shared groups, the two views and the messages.
  rcases hlookup with henum | hgroup | hview | hmessage
  · obtain ⟨field, hfield, rfl⟩ := List.mem_map.mp henum
    exact .enum hfield
  · obtain ⟨item, hitem, hlookup⟩ := List.mem_flatMap.mp hgroup
    obtain ⟨group, hmem, rfl⟩ := List.mem_map.mp hitem
    obtain ⟨hreaches, hcomponent⟩ := hshared group hmem
    exact groupLookups_valid hreaches (isGenerated_of_inComponent hcomponent) lookup hlookup
  · obtain ⟨item, hitem, hlookup⟩ := List.mem_flatMap.mp hview
    obtain ⟨part, _, rfl⟩ := List.mem_map.mp hitem
    have hlist := hasList_section dictionary part
    rcases List.mem_append.mp hlookup with haccessor | hgroup
    · exact accessorLookups_valid hd hlist lookup haccessor
    · exact ownLookups_valid hd hlist (List.filter_subset_self _) lookup hgroup
  · obtain ⟨item, hitem, hlookup⟩ := List.mem_flatMap.mp hmessage
    obtain ⟨entry, hentry, rfl⟩ := List.mem_map.mp hitem
    have hlist : dictionary.HasList (.message entry.1.name) entry.2 := .message hentry
    simp only [messageLookups, List.mem_append, or_assoc] at hlookup
    rcases hlookup with haccessor | hgroup | hmodule
    · exact accessorLookups_valid hd hlist lookup haccessor
    · exact ownLookups_valid hd hlist (List.filter_subset_self _) lookup hgroup
    · split at hmodule
      · cases hmodule
      · next hown =>
        rw [List.mem_singleton] at hmodule
        subst hmodule
        obtain ⟨group, hgroup⟩ : ∃ group, group ∈ ownGroups entry.2 := by
          apply List.exists_mem_of_ne_nil
          simpa [emitMessage] using hown
        exact .messageModule hentry hgroup

end Valid

section Languages

variable (dictionary : Dictionary)

theorem Rust.lookups_valid (hd : dictionary.Resolved) :
    ∀ lookup ∈ lookups (Rust.output dictionary), lookup.Valid dictionary :=
  Codegen.lookups_valid hd (Rust.sharedGroups_ok hd)

theorem Python.lookups_valid (hd : dictionary.Resolved) :
    ∀ lookup ∈ lookups (Python.output dictionary), lookup.Valid dictionary :=
  Codegen.lookups_valid hd (Python.sharedGroups_ok hd)

end Languages

end Refix.Codegen
