import Refix.Codegen.PythonNames

/-!
# Scopes of the Generated Python

As in the generated Rust, the names of every scope differ from each other and from those the
scope reserves, and every name that emitting looks up is there.
-/

namespace Refix.Codegen.Python

open Refix.Foundation
open Refix.Dict
open Refix.Message (Tag)

section Dictionary

variable {dictionary : Dictionary}

/-! ## What is recorded -/

/-- What is recorded is the name that its key's owner has. -/
structure Sound (dictionary : Dictionary) (names : Names) : Prop where
  properties : ∀ tag name, names.properties tag = some name →
    ∃ index : Fin dictionary.spec.fields.length, (dictionary.spec.fields.get index).tag = tag ∧
      propertyName (dictionary.spec.fields.get index) = name
  nanosProperties : ∀ tag name, names.nanosProperties tag = some name →
    ∃ index : Fin dictionary.spec.fields.length, (dictionary.spec.fields.get index).tag = tag ∧
      nanosPropertyName (dictionary.spec.fields.get index) = name
  groups : ∀ context groupNames, names.groups context = some groupNames →
    ∃ group, dictionary.Reaches group ∧ group.instanceContext dictionary.spec.fields = context ∧
      groupSourceName dictionary.spec.fields group = groupNames.className ∧
      groupPropertyName dictionary.spec.fields group = groupNames.property

/-- Names that grow, and stay sound. -/
abbrev Grows (dictionary : Dictionary) : Names → Names → Prop :=
  Codegen.Grows Names.get Names.enums (Sound dictionary)

variable {names : Names}

theorem grows_property (hd : dictionary.Resolved) (hsound : Sound dictionary names)
    (index : Fin dictionary.spec.fields.length) :
    Grows dictionary names { names with
      properties := Function.update names.properties (dictionary.spec.fields.get index).tag
        (some (propertyName (dictionary.spec.fields.get index))) } := by
  refine ⟨⟨fun tag name h => ?_, hsound.nanosProperties, hsound.groups⟩, fun key name h => ?_, rfl⟩
  · by_cases htag : tag = (dictionary.spec.fields.get index).tag
    · subst htag
      simp only [Function.update_self, Option.some.injEq] at h
      exact ⟨index, rfl, h⟩
    · simp only [Function.update_of_ne htag] at h
      exact hsound.properties tag name h
  · cases key with
    | property tag =>
      by_cases htag : tag = (dictionary.spec.fields.get index).tag
      · subst htag
        obtain ⟨index', htag', rfl⟩ := hsound.properties _ name h
        rw [field_eq_of_tag_eq hd htag']
        simp [Names.get]
      · simpa only [Names.get, Function.update_of_ne htag] using h
    | message _ => exact h
    | groupClass _ => exact h
    | groupProperty _ => exact h
    | nanosProperty _ => exact h
    | enumClass _ => exact h

theorem grows_nanosProperty (hd : dictionary.Resolved) (hsound : Sound dictionary names)
    (index : Fin dictionary.spec.fields.length) :
    Grows dictionary names { names with
      nanosProperties :=
        Function.update names.nanosProperties (dictionary.spec.fields.get index).tag
        (some (nanosPropertyName (dictionary.spec.fields.get index))) } := by
  refine ⟨⟨hsound.properties, fun tag name h => ?_, hsound.groups⟩, fun key name h => ?_, rfl⟩
  · by_cases htag : tag = (dictionary.spec.fields.get index).tag
    · subst htag
      simp only [Function.update_self, Option.some.injEq] at h
      exact ⟨index, rfl, h⟩
    · simp only [Function.update_of_ne htag] at h
      exact hsound.nanosProperties tag name h
  · cases key with
    | nanosProperty tag =>
      by_cases htag : tag = (dictionary.spec.fields.get index).tag
      · subst htag
        obtain ⟨index', htag', rfl⟩ := hsound.nanosProperties _ name h
        rw [field_eq_of_tag_eq hd htag']
        simp [Names.get]
      · simpa only [Names.get, Function.update_of_ne htag] using h
    | message _ => exact h
    | groupClass _ => exact h
    | groupProperty _ => exact h
    | property _ => exact h
    | enumClass _ => exact h

/-- The names of a group. -/
theorem nameGroup_eq (fields : List Field) (names : Names) (group : Group fields.length) :
    nameGroup fields names group = ({ names with
      groups := Function.update names.groups (group.instanceContext fields)
        (some ⟨groupSourceName fields group, groupPropertyName fields group⟩) },
      groupSourceName fields group) := rfl

theorem grows_group (hd : dictionary.Resolved)
    (hsound : Sound dictionary names)
    {group : Group dictionary.spec.fields.length} (hgroup : dictionary.Reaches group) :
    Grows dictionary names (nameGroup dictionary.spec.fields names group).1 := by
  rw [nameGroup_eq]
  -- what is recorded under the context is what is recorded again
  have hsame : ∀ groupNames, names.groups (group.instanceContext dictionary.spec.fields) =
      some groupNames → groupSourceName dictionary.spec.fields group = groupNames.className ∧
        groupPropertyName dictionary.spec.fields group = groupNames.property := by
    intro groupNames h
    obtain ⟨group', hgroup', hcontext, hclass, hproperty⟩ := hsound.groups _ _ h
    rw [groupPropertyName, groupBaseName] at hproperty ⊢
    rw [groupSourceName_eq hd hgroup hgroup' hcontext.symm]
    exact ⟨hclass, hproperty⟩
  refine ⟨⟨hsound.properties, hsound.nanosProperties, fun context groupNames h => ?_⟩,
    fun key name h => ?_, rfl⟩
  · by_cases hcontext : context = group.instanceContext dictionary.spec.fields
    · subst hcontext
      simp only [Function.update_self, Option.some.injEq] at h
      subst h
      exact ⟨group, hgroup, rfl, rfl, rfl⟩
    · simp only [Function.update_of_ne hcontext] at h
      exact hsound.groups context groupNames h
  · cases key with
    | groupClass context =>
      by_cases hcontext : context = group.instanceContext dictionary.spec.fields
      · subst hcontext
        obtain ⟨groupNames, hgroupNames, rfl⟩ := Option.map_eq_some_iff.mp h
        simp [Names.get, (hsame groupNames hgroupNames).1]
      · simpa only [Names.get, Function.update_of_ne hcontext] using h
    | groupProperty context =>
      by_cases hcontext : context = group.instanceContext dictionary.spec.fields
      · subst hcontext
        obtain ⟨groupNames, hgroupNames, rfl⟩ := Option.map_eq_some_iff.mp h
        simp [Names.get, (hsame groupNames hgroupNames).2]
      · simpa only [Names.get, Function.update_of_ne hcontext] using h
    | message _ => exact h
    | property _ => exact h
    | nanosProperty _ => exact h
    | enumClass _ => exact h

/-! ## One scope after another -/

section Scopes

variable {crowded : Prop} {reserved : List String} {keys : List Key} {space : Namespace}

/-- The keys that the properties of a member are looked up by. -/
def memberKeys (fields : List Field) : ResolvedMember fields.length → List Key
  | .field index _ =>
    .property (fields.get index).tag ::
      if hasNanos (fields.get index) then [.nanosProperty (fields.get index).tag] else []
  | .group countFieldIndex delimiterIndex isRequired declaredIn component members =>
    let group : Group fields.length :=
      { countFieldIndex, delimiterIndex, isRequired, declaredIn, component, members }
    if isGenerated group then [.groupProperty (group.instanceContext fields)] else []

/-- The key of a group's class. -/
def classKey (fields : List Field) (group : Group fields.length) : Key :=
  .groupClass (group.instanceContext fields)

/-- A scope that is filled with names that have grown. -/
abbrev Fills' (dictionary : Dictionary) : Names → List String → List Key → Names × Namespace → Prop :=
  GrowsFilling Names.get Names.enums (Sound dictionary)

/-- Every group that gets types of its own is named. -/
def GroupsNamed (dictionary : Dictionary) (names : Names) : Prop :=
  ∀ group, dictionary.Reaches group → isGenerated group = true →
    (names.groups (group.instanceContext dictionary.spec.fields)).isSome = true

theorem GroupsNamed.mono {names' : Names} (h : GroupsNamed dictionary names)
    (hextends : Extends names.get names'.get) : GroupsNamed dictionary names' := by
  intro group hgroup hgenerated
  obtain ⟨groupNames, hgroupNames⟩ := Option.isSome_iff_exists.mp (h group hgroup hgenerated)
  have hclass : names.get (.groupClass (group.instanceContext dictionary.spec.fields)) =
      some groupNames.className := by simp [Names.get, hgroupNames]
  have hclass' := hextends _ _ hclass
  obtain ⟨groupNames', hgroupNames', _⟩ := Option.map_eq_some_iff.mp hclass'
  rw [hgroupNames']
  rfl

theorem nameProperties_outcome (hd : dictionary.Resolved) (hsound : Sound dictionary names)
    (hgroups : GroupsNamed dictionary names) (hfills : Fills reserved keys names.get space)
    {members : List (ResolvedMember dictionary.spec.fields.length)}
    (hmembers : ∀ group : Group dictionary.spec.fields.length, group.member ∈ members →
      dictionary.Reaches group) :
    Outcome (Fails crowded) (fun names' => Grows dictionary names names' ∧
      Distinct reserved (keys ++ members.flatMap (memberKeys dictionary.spec.fields)) names'.get)
      (nameProperties dictionary.spec.fields names members space) := by
  refine (Outcome.foldlM (fun done => Fills' dictionary names reserved
    (keys ++ done.flatMap (memberKeys dictionary.spec.fields))) ?_
    ⟨.refl hsound, by simpa using hfills⟩).bind
    fun state _ hstate => ⟨hstate.1, hstate.2.distinct⟩
  rintro done member rest hsplit ⟨names', space'⟩ ⟨hgrows, hfills'⟩
  rw [List.flatMap_append, List.flatMap_singleton, ← List.append_assoc]
  cases member with
  | field index isRequired =>
    rw [nameProperty, memberKeys]
    refine (raise_outcome (Namespace.claim_outcome _ _)).bind fun space₁ _ htake => ?_
    have hgrows' := grows_property hd hgrows.sound index
    have hname : Names.get { names' with
          properties := Function.update names'.properties (dictionary.spec.fields.get index).tag
            (some (propertyName (dictionary.spec.fields.get index))) }
        (.property (dictionary.spec.fields.get index).tag) =
        some (propertyName (dictionary.spec.fields.get index)) := Function.update_self ..
    have hproperty := (hfills'.mono hgrows'.extends_).take htake hname
    split
    · -- the name of the nanoseconds comes after that of the value
      refine (raise_outcome (Namespace.claim_outcome _ _)).bind fun space₂ _ htake' => ?_
      have hgrows'' := grows_nanosProperty hd hgrows'.sound index
      refine ⟨(hgrows.trans hgrows').trans hgrows'', ?_⟩
      rw [List.append_cons]
      exact (hproperty.mono hgrows''.extends_).take htake' (by simp [Names.get])
    · exact ⟨hgrows.trans hgrows', hproperty⟩
  | group countFieldIndex delimiterIndex isRequired declaredIn component inst =>
    rw [nameProperty, memberKeys]
    generalize hgroup : (⟨countFieldIndex, delimiterIndex, isRequired, declaredIn, component,
      inst⟩ : Group dictionary.spec.fields.length) = group
    have hmem : group.member ∈ members := by
      rw [hsplit, ← hgroup]
      exact List.mem_append_right _ List.mem_cons_self
    simp only
    split
    · next hgenerated =>
      obtain ⟨groupNames, hgroupNames⟩ := Option.isSome_iff_exists.mp
        (hgroups.mono hgrows.extends_ group (hmembers group hmem) hgenerated)
      rw [hgroupNames]
      refine (raise_outcome (Namespace.claim_outcome _ _)).bind fun space₁ _ htake => ?_
      have hname : names'.get (.groupProperty (group.instanceContext dictionary.spec.fields)) =
          some groupNames.property := by
        simp only at hgroupNames
        simp [Names.get, hgroupNames]
      exact ⟨hgrows, hfills'.take htake hname⟩
    · rw [List.append_nil]
      exact ⟨hgrows, hfills'⟩

theorem claimClasses_outcome (hgroups : GroupsNamed dictionary names)
    (hfills : Fills reserved [] names.get space)
    {groups : List (Group dictionary.spec.fields.length)}
    (hreaches : ∀ group ∈ groups, dictionary.Reaches group ∧ isGenerated group = true) :
    Outcome (Fails crowded)
      (Fills reserved (groups.map (classKey dictionary.spec.fields)) names.get)
      (groups.foldlM (claimClass dictionary.spec.fields names) space) := by
  refine Outcome.foldlM (fun done =>
    Fills reserved (done.map (classKey dictionary.spec.fields)) names.get) ?_ hfills
  intro done group rest hsplit space' hdone
  obtain ⟨hgroup, hgenerated⟩ := hreaches group (by simp [hsplit])
  obtain ⟨groupNames, hgroupNames⟩ := Option.isSome_iff_exists.mp
    (hgroups group hgroup hgenerated)
  rw [claimClass, List.map_append, List.map_singleton]
  simp only [hgroupNames]
  refine (raise_outcome (Namespace.claim_outcome _ _)).mono fun space'' htake => ?_
  exact hdone.take htake (by simp [classKey, Names.get, hgroupNames])

/-- The keys of the class of a message or section: the classes of the groups it declares itself,
and the properties of its members. -/
def nestingKeys (fields : List Field) (own : List (Group fields.length))
    (members : List (ResolvedMember fields.length)) : List Key :=
  own.map (classKey fields) ++ members.flatMap (memberKeys fields)

/-- Classes nested in a class, and then its properties. -/
theorem nameNesting_outcome (hd : dictionary.Resolved) (hsound : Sound dictionary names)
    (hgroups : GroupsNamed dictionary names) (hreserved : reserved.Nodup)
    {context : MemberContext} {members : List (ResolvedMember dictionary.spec.fields.length)}
    (hlist : dictionary.HasList context members)
    {own : List (Group dictionary.spec.fields.length)} (hown : own ⊆ groupsOf members) :
    Outcome (Fails crowded) (fun names' => Grows dictionary names names' ∧
      Distinct reserved (nestingKeys dictionary.spec.fields own members) names'.get)
      (own.foldlM (claimClass dictionary.spec.fields names) (.withGenerated reserved) >>= fun space =>
        nameProperties dictionary.spec.fields names members space) := by
  have hreaches : ∀ group ∈ own, dictionary.Reaches group ∧ isGenerated group = true := by
    intro group hgroup
    have hmem := mem_groupsOf.mp (hown hgroup)
    exact ⟨.root hlist hmem, isGenerated_of_hasList hd hlist hmem⟩
  refine (claimClasses_outcome hgroups (fills_withGenerated hreserved names.get) hreaches).bind
    fun space _ hfills => ?_
  exact nameProperties_outcome hd hsound hgroups hfills fun group hmem => .root hlist hmem

theorem nameMessage_outcome (hd : dictionary.Resolved) (hsound : Sound dictionary names)
    (hgroups : GroupsNamed dictionary names)
    {entry : Message × List (ResolvedMember dictionary.spec.fields.length)}
    (hentry : entry ∈ dictionary.messageMembers) :
    Outcome (Fails crowded) (fun names' => Grows dictionary names names' ∧
      Distinct message (nestingKeys dictionary.spec.fields (ownGroups entry.2) entry.2) names'.get)
      (nameMessage dictionary.spec.fields names entry.2) :=
  nameNesting_outcome hd hsound hgroups message_nodup (.message hentry)
    (List.filter_subset_self _)

theorem nameSection_outcome (hd : dictionary.Resolved) (hsound : Sound dictionary names)
    (hgroups : GroupsNamed dictionary names) (part : Section) :
    Outcome (Fails crowded) (fun names' => Grows dictionary names names' ∧
      Distinct view (nestingKeys dictionary.spec.fields (sectionGroups dictionary part)
        (part.members dictionary)) names'.get)
      (nameSection dictionary names part) :=
  nameNesting_outcome hd hsound hgroups view_nodup (hasList_section dictionary part)
    (List.filter_subset_self _)

end Scopes

/-! ## Everything -/

section Everything

variable {crowded : Prop}

/-- The key of a message's class. -/
def messageKey (message : Message) : Key := .message message.name

/-- The key of the class of a field's enum. -/
def enumKey (field : Field) : Key := .enumClass field.tag

/-- The keys of a group in the module: its class, if the group is shared. -/
def sharedKeys (fields : List Field) (group : Group fields.length) : List Key :=
  if inComponent group then [classKey fields group] else []

/-- The keys of the classes in the module: those of messages, shared groups and enums. -/
def moduleKeys (dictionary : Dictionary) : List Key :=
  dictionary.spec.messages.map messageKey ++
    ((declaredGroups dictionary).filter isGenerated).flatMap (sharedKeys dictionary.spec.fields) ++
    (enumFields dictionary.spec.fields).map enumKey

variable (crowded) in
theorem claimMessages_outcome (messages : List Message) :
    Outcome (Fails crowded : Failure Error → Prop)
      (Fills module (messages.map messageKey) Names.none.get)
      (messages.foldlM (fun space message =>
        raise (space.claim message.name (.message message.name))) (.withGenerated module)) := by
  refine Outcome.foldlM (fun done => Fills module (done.map messageKey) Names.none.get) ?_
    (fills_withGenerated module_nodup _)
  intro done message rest _ space hspace
  rw [List.map_append, List.map_singleton]
  refine (raise_outcome (Namespace.claim_outcome _ _)).mono fun space' htake => ?_
  exact hspace.take htake rfl

/-- Messages whose classes are in one module have different names. -/
theorem names_nodup {messages : List Message} {names : Names} {keys : List Key}
    (h : Distinct module (messages.map messageKey ++ keys) names.get) :
    (messages.map Message.name).Nodup := by
  obtain ⟨assigned, hassigned, hnodup⟩ := h
  rw [List.map_append] at hassigned
  obtain ⟨own, others, rfl, hown, _⟩ := List.append_eq_map_iff.mp hassigned
  have hmap : (messages.map Message.name).map some = own.map some := by
    rw [hown, List.map_map, List.map_map]
    rfl
  rw [List.map_injective_iff.mpr (Option.some_injective String) hmap]
  rw [← List.append_assoc, List.nodup_append] at hnodup
  exact (List.nodup_append.mp hnodup.1).2.1

theorem nameDeclared_outcome (hd : dictionary.Resolved)
    {reserved : List String} {keys : List Key} {space : Namespace}
    (hfills : Fills reserved keys Names.none.get space)
    {groups : List (Group dictionary.spec.fields.length)}
    (hgroups : ∀ group ∈ groups, dictionary.Reaches group) :
    Outcome (Fails crowded) (fun state => Fills' dictionary .none reserved
        (keys ++ groups.flatMap (sharedKeys dictionary.spec.fields)) state ∧
      ∀ group ∈ groups,
        (state.1.get (classKey dictionary.spec.fields group)).isSome = true)
      (groups.foldlM (nameDeclared dictionary.spec.fields) (.none, space)) := by
  refine Outcome.foldlM (fun done (state : Names × Namespace) =>
    Fills' dictionary .none reserved
        (keys ++ done.flatMap (sharedKeys dictionary.spec.fields)) state ∧
      ∀ group ∈ done, (state.1.get (classKey dictionary.spec.fields group)).isSome = true) ?_
    ⟨⟨.refl ⟨nofun, nofun, nofun⟩, by simpa using hfills⟩, List.forall_mem_nil _⟩
  rintro done group rest hsplit ⟨names, space'⟩ ⟨⟨hgrows, hfills'⟩, hdone⟩
  have hgroup := hgroups group (by simp [hsplit])
  have hgrows' := grows_group hd hgrows.sound hgroup
  have hname : (nameGroup dictionary.spec.fields names group).1.get
      (classKey dictionary.spec.fields group) =
      some (groupSourceName dictionary.spec.fields group) := by
    simp [nameGroup_eq, classKey, Names.get]
  -- The classes named so far keep their names when `group` is named.
  have hnamed : ∀ other ∈ done ++ [group], ((nameGroup dictionary.spec.fields names group).1.get
      (classKey dictionary.spec.fields other)).isSome = true := by
    simp only [List.mem_append, List.mem_singleton]
    rintro other (hother | rfl)
    · exact hgrows'.extends_.isSome (hdone other hother)
    · rw [hname]
      rfl
  rw [nameDeclared, List.flatMap_append, List.flatMap_singleton, ← List.append_assoc, sharedKeys]
  simp only
  split
  · refine (raise_outcome (Namespace.claim_outcome _ _)).bind fun space'' _ htake => ?_
    exact ⟨⟨hgrows.trans hgrows', (hfills'.mono hgrows'.extends_).take htake hname⟩, hnamed⟩
  · rw [List.append_nil]
    exact ⟨⟨hgrows.trans hgrows', hfills'.mono hgrows'.extends_⟩, hnamed⟩

theorem nameMessages_outcome (hd : dictionary.Resolved) (hsound : Sound dictionary names)
    (hgroups : GroupsNamed dictionary names) :
    Outcome (Fails crowded) (fun names' => Grows dictionary names names' ∧
      ∀ entry ∈ dictionary.messageMembers, Distinct message
        (nestingKeys dictionary.spec.fields (ownGroups entry.2) entry.2) names'.get)
      (dictionary.messageMembers.foldlM
        (fun names entry => nameMessage dictionary.spec.fields names entry.2) names) := by
  refine Outcome.foldlM_each (Grows dictionary)
    (fun (entry : Message × List (ResolvedMember dictionary.spec.fields.length)) names' =>
      Distinct message (nestingKeys dictionary.spec.fields (ownGroups entry.2) entry.2) names'.get)
    (.refl hsound)
    (fun _ _ h h' => h.trans h') (fun _ _ _ h hgrows => h.mono hgrows.extends_) ?_
  intro entry hentry names' hgrows
  exact nameMessage_outcome hd hgrows.sound (hgroups.mono hgrows.extends_) hentry

theorem nameSections_outcome (hd : dictionary.Resolved) (hsound : Sound dictionary names)
    (hgroups : GroupsNamed dictionary names) :
    Outcome (Fails crowded) (fun names' => Grows dictionary names names' ∧
      ∀ part, Distinct view (nestingKeys dictionary.spec.fields (sectionGroups dictionary part)
        (part.members dictionary)) names'.get)
      ([Section.header, Section.trailer].foldlM (nameSection dictionary) names) := by
  have hloop : Outcome (Fails crowded) (fun names' => Grows dictionary names names' ∧
      ∀ part ∈ [Section.header, Section.trailer], Distinct view (nestingKeys
        dictionary.spec.fields (sectionGroups dictionary part) (part.members dictionary))
        names'.get)
      ([Section.header, Section.trailer].foldlM (nameSection dictionary) names) := by
    refine Outcome.foldlM_each (Grows dictionary) (fun part names' => Distinct view (nestingKeys
      dictionary.spec.fields (sectionGroups dictionary part) (part.members dictionary)) names'.get)
      (.refl hsound) (fun _ _ h h' => h.trans h') (fun _ _ _ h hgrows => h.mono hgrows.extends_) ?_
    intro part _ names' hgrows
    exact nameSection_outcome hd hgrows.sound (hgroups.mono hgrows.extends_) part
  refine hloop.mono fun names' ⟨hgrows, hparts⟩ => ⟨hgrows, fun part => hparts part ?_⟩
  cases part <;> decide

theorem nameInstances_outcome (hd : dictionary.Resolved) (hsound : Sound dictionary names)
    (hgroups : GroupsNamed dictionary names)
    {owners : List (Group dictionary.spec.fields.length)}
    (howners : ∀ owner ∈ owners, dictionary.Reaches owner) :
    Outcome (Fails crowded) (fun names' => Grows dictionary names names' ∧
      ∀ owner ∈ owners, Distinct inst
        (owner.members.flatMap (memberKeys dictionary.spec.fields)) names'.get)
      (owners.foldlM (fun names owner =>
        nameProperties dictionary.spec.fields names owner.members (.withGenerated inst))
        names) := by
  refine Outcome.foldlM_each (Grows dictionary)
    (fun (owner : Group dictionary.spec.fields.length) names' => Distinct inst
      (owner.members.flatMap (memberKeys dictionary.spec.fields)) names'.get) (.refl hsound)
    (fun _ _ h h' => h.trans h') (fun _ _ _ h hgrows => h.mono hgrows.extends_) ?_
  intro owner howner names' hgrows
  exact nameProperties_outcome hd hgrows.sound (hgroups.mono hgrows.extends_)
    (fills_withGenerated inst_nodup names'.get) fun group hmem => .nested (howners owner howner) hmem

/-- The names that are recorded before the enums are still found after them. -/
theorem extends_enums (h : names.enums = Names.none.enums) (enums : Tag → Option EnumNames) :
    Extends names.get { names with enums }.get := by
  apply extends_of_eq_none Key.enumClass
  · intro tag
    rw [Names.get, h]
    rfl
  · intro key hkey
    cases key with
    | enumClass tag => exact absurd rfl (hkey tag)
    | _ => rfl

/-- Every scope of the generated Python has different names, none of them reserved, and each is
the name that its owner wants, but for enums and their values. -/
structure Named (dictionary : Dictionary) (names : Names) : Prop where
  sound : Sound dictionary names
  module : Distinct Python.module (moduleKeys dictionary) names.get
  messages : ∀ entry ∈ dictionary.messageMembers, Distinct message
    (nestingKeys dictionary.spec.fields (ownGroups entry.2) entry.2) names.get
  sections : ∀ part, Distinct view (nestingKeys dictionary.spec.fields
    (sectionGroups dictionary part) (part.members dictionary)) names.get
  groups : GroupsNamed dictionary names
  instances : ∀ group, dictionary.Reaches group → isGenerated group = true →
    Distinct inst (group.members.flatMap (memberKeys dictionary.spec.fields)) names.get
  enums : ∀ field ∈ enumFields dictionary.spec.fields, EnumNamed values names.enums field

/-- **Naming a dictionary** fails with an error, or gives every name that is looked up, with no
two alike in one scope. Each enum or value that is renamed adds one warning. -/
theorem new_outcome (hd : dictionary.Resolved)
    (hfields : (dictionary.spec.fields.map Field.name).Nodup) (warnings : List Warning) :
    Outcome (Fails (Crowded values dictionary.spec.fields)) (fun result =>
        Named dictionary result.1 ∧
        Settles ((enumFields dictionary.spec.fields).flatMap (enumPairs values result.1.enums))
          warnings result.2)
      (Names.new dictionary warnings) := by
  rw [Names.new]
  refine (claimMessages_outcome _ _).bind fun space _ hspace => ?_
  have hmessages : (dictionary.spec.messages.map Message.name).Nodup := by
    have hdistinct := hspace.distinct
    rw [← List.append_nil (dictionary.spec.messages.map messageKey)] at hdistinct
    exact names_nodup hdistinct
  have hdeclared := (declaredGroups_reaches hd).1
  refine (nameDeclared_outcome hd hspace fun group hgroup =>
    hdeclared group (List.mem_of_mem_filter hgroup)).bind
    fun ⟨names, space'⟩ _ ⟨⟨hgrows, hspace'⟩, hnamed⟩ => ?_
  -- A group of the dictionary has the context of a declared one, which is named.
  have hgroups : GroupsNamed dictionary names := by
    intro group hgroup hgenerated
    obtain ⟨group', hmem, hsame⟩ := exists_declaredGroup hd hmessages hfields hgroup
    have hgenerated' : isGenerated group' = true := by rwa [← isGenerated_eq_of_same hsame]
    have hname := hnamed group' (List.mem_filter.mpr ⟨hmem, hgenerated'⟩)
    rw [hsame.instanceContext_eq]
    simpa [classKey, Names.get] using hname
  have hnone : names.enums = Names.none.enums := hgrows.enums_eq
  simp only [hnone]
  refine (nameEnums_outcome _ _ hd.consistent.tags_unique space').bind
    fun ⟨enums, space'', warnings'⟩ _ henums => ?_
  have hextends := extends_enums hnone enums
  have hsound : Sound dictionary { names with enums } :=
    ⟨hgrows.sound.properties, hgrows.sound.nanosProperties, hgrows.sound.groups⟩
  have hgroups' := hgroups.mono hextends
  -- Each pass below only adds names, so what was named before it stays named.
  refine (nameMessages_outcome hd hsound hgroups').bind fun names₁ _ ⟨hgrows₁, hmembers⟩ => ?_
  refine (nameSections_outcome hd hgrows₁.sound (hgroups'.mono hgrows₁.extends_)).bind
    fun names₂ _ ⟨hgrows₂, hsections⟩ => ?_
  refine (nameInstances_outcome hd hgrows₂.sound
    ((hgroups'.mono hgrows₁.extends_).mono hgrows₂.extends_) fun group hgroup =>
    hdeclared group (List.mem_of_mem_filter hgroup)).bind
    fun names₃ _ ⟨hgrows₃, hinstances⟩ => ?_
  have hgrown := (hgrows₁.trans hgrows₂).trans hgrows₃
  have henumsEq : names₃.enums = enums := hgrown.enums_eq
  have hkey : ∀ field, Names.get { names with enums } (enumKey field) =
      (enums field.tag).map EnumNames.typeName := fun _ => rfl
  refine ⟨{
    sound := hgrows₃.sound
    module := (henums.fills hspace' hextends hkey).distinct.mono hgrown.extends_
    messages := fun entry hentry => (hmembers entry hentry).mono (hgrows₂.trans hgrows₃).extends_
    sections := fun part => (hsections part).mono hgrows₃.extends_
    groups := hgroups'.mono hgrown.extends_
    instances := fun group hgroup hgenerated => ?_
    enums := fun field hfield => henumsEq ▸ henums.named field hfield }, ?_⟩
  · obtain ⟨group', hmem, hsame⟩ := exists_declaredGroup hd hmessages hfields hgroup
    have hgenerated' : isGenerated group' = true := by rwa [← isGenerated_eq_of_same hsame]
    rw [hsame.members_eq]
    exact hinstances group' (List.mem_filter.mpr ⟨hmem, hgenerated'⟩)
  · rw [henumsEq]
    exact henums.settles

/-- A group that gets a class has a path to it. -/
theorem Named.groupPath_isSome (h : Named dictionary names)
    {group : Group dictionary.spec.fields.length} (hgroup : dictionary.Reaches group)
    (hgenerated : isGenerated group = true) :
    (names.groupPath dictionary.spec.fields group).isSome = true := by
  obtain ⟨groupNames, hgroupNames⟩ := Option.isSome_iff_exists.mp
    (h.groups group hgroup hgenerated)
  rw [Names.groupPath, hgroupNames]
  cases group.declaredIn <;> rfl

end Everything

end Dictionary

end Refix.Codegen.Python
