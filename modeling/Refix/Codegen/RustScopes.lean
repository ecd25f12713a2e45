import Refix.Codegen.RustNames

/-!
# Scopes of the Generated Rust

Where naming succeeds, the names of every scope differ from each other and from those the scope
reserves, and every name that emitting looks up is there. What is recorded under a key depends
on the key alone, so that recording it again changes nothing, and a name that is found once is
found from then on.
-/

namespace Refix.Codegen.Rust

open Refix.Foundation
open Refix.Dict
open Refix.Message (Tag)

section Dictionary

variable {dictionary : Dictionary}

/-! ## What is recorded -/

/-- What is recorded is the name that its key's owner has. -/
structure Sound (dictionary : Dictionary) (names : Names) : Prop where
  accessors : ∀ tag name, names.accessors tag = some name →
    ∃ index : Fin dictionary.spec.fields.length, (dictionary.spec.fields.get index).tag = tag ∧
      methodName (dictionary.spec.fields.get index) = .ok name
  groups : ∀ context name, names.groups context = some name → ∃ group, dictionary.Reaches group ∧
    group.instanceContext dictionary.spec.fields = context ∧
    groupName dictionary.spec.fields group = .ok name
  messageModules : ∀ message name, names.messageModules message = some name →
    messageModuleName message = .ok name

/-- Names that grow, and stay sound. -/
abbrev Grows (dictionary : Dictionary) : Names → Names → Prop :=
  Codegen.Grows Names.get Names.enums (Sound dictionary)

theorem groupName_eq (hd : dictionary.Resolved) {group group' : Group dictionary.spec.fields.length}
    (h : dictionary.Reaches group) (h' : dictionary.Reaches group')
    (hcontext : group.instanceContext dictionary.spec.fields =
      group'.instanceContext dictionary.spec.fields) :
    groupName dictionary.spec.fields group = groupName dictionary.spec.fields group' := by
  unfold groupName groupBaseName
  rw [groupSourceName_eq hd h h' hcontext, hcontext]

variable {names : Names}

theorem grows_accessor (hd : dictionary.Resolved) (hsound : Sound dictionary names)
    {index : Fin dictionary.spec.fields.length} {name : String}
    (hname : methodName (dictionary.spec.fields.get index) = .ok name) :
    Grows dictionary names { names with
      accessors := Function.update names.accessors (dictionary.spec.fields.get index).tag
        (some name) } := by
  refine ⟨⟨fun tag name' h => ?_, hsound.groups, hsound.messageModules⟩, fun key name' h => ?_, rfl⟩
  · by_cases htag : tag = (dictionary.spec.fields.get index).tag
    · subst htag
      simp only [Function.update_self, Option.some.injEq] at h
      exact ⟨index, rfl, h ▸ hname⟩
    · simp only [Function.update_of_ne htag] at h
      exact hsound.accessors tag name' h
  · cases key with
    | accessor tag =>
      by_cases htag : tag = (dictionary.spec.fields.get index).tag
      · subst htag
        obtain ⟨index', htag', hname'⟩ := hsound.accessors _ name' h
        rw [field_eq_of_tag_eq hd htag', hname] at hname'
        cases hname'
        simp [Names.get]
      · simpa only [Names.get, Function.update_of_ne htag] using h
    | message _ => exact h
    | messageModule _ => exact h
    | group _ => exact h
    | enumType _ => exact h

theorem grows_group (hd : dictionary.Resolved)
    (hsound : Sound dictionary names)
    {group : Group dictionary.spec.fields.length} (hgroup : dictionary.Reaches group)
    {name : String} (hname : groupName dictionary.spec.fields group = .ok name) :
    Grows dictionary names { names with
      groups := Function.update names.groups (group.instanceContext dictionary.spec.fields)
        (some name) } := by
  refine ⟨⟨hsound.accessors, fun context name' h => ?_, hsound.messageModules⟩,
    fun key name' h => ?_, rfl⟩
  · by_cases hcontext : context = group.instanceContext dictionary.spec.fields
    · subst hcontext
      simp only [Function.update_self, Option.some.injEq] at h
      exact ⟨group, hgroup, rfl, h ▸ hname⟩
    · simp only [Function.update_of_ne hcontext] at h
      exact hsound.groups context name' h
  · cases key with
    | group context =>
      by_cases hcontext : context = group.instanceContext dictionary.spec.fields
      · subst hcontext
        obtain ⟨group', hgroup', hcontext', hname'⟩ := hsound.groups _ name' h
        rw [groupName_eq hd hgroup' hgroup hcontext', hname] at hname'
        cases hname'
        simp [Names.get]
      · simpa only [Names.get, Function.update_of_ne hcontext] using h
    | message _ => exact h
    | messageModule _ => exact h
    | accessor _ => exact h
    | enumType _ => exact h

theorem grows_messageModule (hsound : Sound dictionary names) {message name : String}
    (hname : messageModuleName message = .ok name) :
    Grows dictionary names { names with
      messageModules := Function.update names.messageModules message (some name) } := by
  refine ⟨⟨hsound.accessors, hsound.groups, fun message' name' h => ?_⟩, fun key name' h => ?_, rfl⟩
  · by_cases hmessage : message' = message
    · subst hmessage
      simp only [Function.update_self, Option.some.injEq] at h
      exact h ▸ hname
    · simp only [Function.update_of_ne hmessage] at h
      exact hsound.messageModules message' name' h
  · cases key with
    | messageModule message' =>
      by_cases hmessage : message' = message
      · subst hmessage
        have hname' := hsound.messageModules _ name' h
        rw [hname] at hname'
        cases hname'
        simp [Names.get]
      · simpa only [Names.get, Function.update_of_ne hmessage] using h
    | message _ => exact h
    | group _ => exact h
    | accessor _ => exact h
    | enumType _ => exact h

/-! ## One scope after another -/

section Scopes

variable {crowded : Prop} {reserved : List String} {keys : List Key} {space : Namespace}

/-- The keys that the accessors of a member are looked up by. -/
def memberKeys (fields : List Field) : ResolvedMember fields.length → List Key
  | .field index _ => [.accessor (fields.get index).tag]
  | .group countFieldIndex delimiterIndex isRequired declaredIn component members =>
    let group : Group fields.length :=
      { countFieldIndex, delimiterIndex, isRequired, declaredIn, component, members }
    if isGenerated group then [.group (group.instanceContext fields)] else []

/-- The key of a group's module. -/
def groupKey (fields : List Field) (group : Group fields.length) : Key :=
  .group (group.instanceContext fields)

/-- A scope that is filled with names that have grown. -/
abbrev Fills' (dictionary : Dictionary) : Names → List String → List Key → Names × Namespace → Prop :=
  GrowsFilling Names.get Names.enums (Sound dictionary)

theorem nameGroups_outcome (hd : dictionary.Resolved)
    (hsound : Sound dictionary names)
    (hfills : Fills reserved keys names.get space)
    {groups : List (Group dictionary.spec.fields.length)}
    (hgroups : ∀ group ∈ groups, dictionary.Reaches group) :
    Outcome (Fails crowded) (Fills' dictionary names reserved
      (keys ++ groups.map (groupKey dictionary.spec.fields)))
      (groups.foldlM (nameGroup dictionary.spec.fields) (names, space)) := by
  refine Outcome.foldlM (fun done => Fills' dictionary names reserved
    (keys ++ done.map (groupKey dictionary.spec.fields))) ?_ ⟨.refl hsound, by simpa using hfills⟩
  rintro done group rest hsplit ⟨names', space'⟩ ⟨hgrows, hfills'⟩
  have hgroup := hgroups group (by simp [hsplit])
  rw [nameGroup]
  have hname : Outcome (Fails crowded) (fun name => groupName dictionary.spec.fields group = .ok name)
      (groupName dictionary.spec.fields group) := by
    unfold groupName
    cases identifier (groupBaseName dictionary.spec.fields group) with
    | some name => exact rfl
    | none => exact fails_error _
  refine hname.bind fun name _ hname => ?_
  refine (raise_outcome (Namespace.claim_outcome _ _)).bind fun space'' _ htake => ?_
  have hgrows' := grows_group hd hgrows.sound hgroup hname
  refine ⟨hgrows.trans hgrows', ?_⟩
  rw [List.map_append, ← List.append_assoc]
  exact (hfills'.mono hgrows'.extends_).take htake (by simp [groupKey, Names.get])

theorem nameAccessors_outcome (hd : dictionary.Resolved) (hsound : Sound dictionary names)
    (hfills : Fills reserved [] names.get space)
    (members : List (ResolvedMember dictionary.spec.fields.length))
    (hgroups : ∀ group : Group dictionary.spec.fields.length, group.member ∈ members →
      isGenerated group = true →
      (names.get (groupKey dictionary.spec.fields group)).isSome = true) :
    Outcome (Fails crowded) (fun names' => Grows dictionary names names' ∧
      Distinct reserved (members.flatMap (memberKeys dictionary.spec.fields)) names'.get)
      (nameAccessors dictionary.spec.fields names members space) := by
  refine (Outcome.foldlM (fun done => Fills' dictionary names reserved
    (done.flatMap (memberKeys dictionary.spec.fields))) ?_
    ⟨.refl hsound, by simpa using hfills⟩).bind
    fun state _ hstate => ⟨hstate.1, hstate.2.distinct⟩
  rintro done member rest hsplit ⟨names', space'⟩ ⟨hgrows, hfills'⟩
  -- The accessors of `done` are named and distinct; `member` takes a name that is still free.
  rw [List.flatMap_append, List.flatMap_singleton]
  cases member with
  | field index isRequired =>
    rw [nameAccessor]
    have hname : Outcome (Fails crowded)
        (fun name => methodName (dictionary.spec.fields.get index) = .ok name)
        (methodName (dictionary.spec.fields.get index)) := by
      unfold methodName
      cases identifier (fieldBaseName (dictionary.spec.fields.get index)) with
      | some name => exact rfl
      | none => exact fails_error _
    refine hname.bind fun name _ hname => ?_
    refine (raise_outcome (Namespace.claim_outcome _ _)).bind fun space'' _ htake => ?_
    have hgrows' := grows_accessor hd hgrows.sound hname
    refine ⟨hgrows.trans hgrows', ?_⟩
    exact (hfills'.mono hgrows'.extends_).take htake (by simp [Names.get])
  | group countFieldIndex delimiterIndex isRequired declaredIn component inst =>
    rw [nameAccessor, memberKeys]
    -- A group was named before, so its accessor only claims that name, if it is generated at all.
    generalize hgroup : (⟨countFieldIndex, delimiterIndex, isRequired, declaredIn, component,
      inst⟩ : Group dictionary.spec.fields.length) = group
    have hmem : group.member ∈ members := by
      rw [hsplit, ← hgroup]
      exact List.mem_append_right _ List.mem_cons_self
    simp only
    split
    · next hgenerated =>
      obtain ⟨name, hname⟩ := Option.isSome_iff_exists.mp (hgroups group hmem hgenerated)
      have hname' := hgrows.extends_ _ _ hname
      have hlookup : names'.groups (group.instanceContext dictionary.spec.fields) = some name :=
        hname'
      rw [hlookup]
      refine (raise_outcome (Namespace.claim_outcome _ _)).bind fun space'' _ htake => ?_
      exact ⟨hgrows, hfills'.take htake hname'⟩
    · rw [List.append_nil]
      exact ⟨hgrows, hfills'⟩

/-- The keys of the module a message may need. -/
def moduleKeys {n : ℕ} (entry : Message × List (ResolvedMember n)) : List Key :=
  if (ownGroups entry.2).isEmpty then [] else [.messageModule entry.1.name]

theorem nameMessageModule_outcome (hd : dictionary.Resolved)
    (hsound : Sound dictionary names)
    (hfills : Fills reserved keys names.get space)
    {entry : Message × List (ResolvedMember dictionary.spec.fields.length)}
    (hentry : entry ∈ dictionary.messageMembers) :
    Outcome (Fails crowded) (fun state => Fills' dictionary names reserved (keys ++ moduleKeys entry) state ∧
      Distinct [] ((ownGroups entry.2).map (groupKey dictionary.spec.fields)) state.1.get)
      (nameMessageModule dictionary.spec.fields (names, space) entry) := by
  obtain ⟨message, members⟩ := entry
  rw [nameMessageModule, moduleKeys]
  simp only
  split
  · next hempty =>
    rw [List.isEmpty_iff.mp hempty, List.append_nil]
    exact ⟨⟨.refl hsound, hfills⟩, [], rfl, List.nodup_nil⟩
  · have hname : Outcome (Fails crowded) (fun name => messageModuleName message.name = .ok name)
        (messageModuleName message.name) := by
      unfold messageModuleName
      cases identifier (snakeCase message.name) with
      | some name => exact rfl
      | none => exact fails_error _
    refine hname.bind fun name _ hname => ?_
    refine (raise_outcome (Namespace.claim_outcome _ _)).bind fun space' _ htake => ?_
    have hgroups : ∀ group ∈ ownGroups members, dictionary.Reaches group := by
      intro group hgroup
      have hmem := mem_groupsOf.mp (List.mem_of_mem_filter hgroup)
      exact .root (.message hentry) hmem
    refine (nameGroups_outcome hd hsound (fills_empty names.get) hgroups).bind
      fun state _ ⟨hgrows, hmodules⟩ => ?_
    have hgrows' := grows_messageModule hgrows.sound hname
    refine ⟨⟨hgrows.trans hgrows', ?_⟩, hmodules.distinct.mono hgrows'.extends_⟩
    exact (hfills.mono (hgrows.trans hgrows').extends_).take htake (by simp [Names.get])

theorem nameSection_outcome (hd : dictionary.Resolved)
    (hsound : Sound dictionary names)
    (hshared : ∀ group, dictionary.Reaches group → inComponent group = true →
      (names.get (groupKey dictionary.spec.fields group)).isSome = true) (part : Section) :
    Outcome (Fails crowded) (fun names' => Grows dictionary names names' ∧
      Distinct [] ((sectionGroups dictionary part).map (groupKey dictionary.spec.fields))
        names'.get ∧
      Distinct inst ((part.members dictionary).flatMap (memberKeys dictionary.spec.fields))
        names'.get)
      (nameSection dictionary names part) := by
  have hlist := hasList_section dictionary part
  have hgroups : ∀ group ∈ sectionGroups dictionary part, dictionary.Reaches group := by
    intro group hgroup
    exact .root hlist (mem_groupsOf.mp (List.mem_of_mem_filter hgroup))
  refine (nameGroups_outcome hd hsound (fills_empty names.get) hgroups).bind
    fun state _ ⟨hgrows, hmodules⟩ => ?_
  rw [List.nil_append] at hmodules
  have hnamed : ∀ group : Group dictionary.spec.fields.length,
      group.member ∈ part.members dictionary → isGenerated group = true →
      (state.1.get (groupKey dictionary.spec.fields group)).isSome = true := by
    intro group hmem _
    rcases declaredIn_of_hasList hd hlist hmem with hdeclared | hcomponent
    · apply hmodules.distinct.isSome
      apply List.mem_map_of_mem
      unfold sectionGroups
      exact List.mem_filter.mpr ⟨mem_groupsOf.mpr hmem, by simpa using hdeclared⟩
    · exact hgrows.extends_.isSome (hshared group (.root hlist hmem) hcomponent)
  refine (nameAccessors_outcome hd hgrows.sound (fills_withGenerated inst_nodup state.1.get) _
    hnamed).mono fun names' ⟨hgrows', hdistinct⟩ => ?_
  exact ⟨hgrows.trans hgrows', hmodules.distinct.mono hgrows'.extends_, hdistinct⟩

end Scopes

/-! ## Everything -/

section Everything

variable {crowded : Prop}

/-- The key of a message's type and variant. -/
def messageKey (message : Message) : Key := .message message.name

/-- The key of the type of a field's enum. -/
def enumKey (field : Field) : Key := .enumType field.tag

/-- The keys of the names at the root: types of messages, modules of messages, modules of shared
groups, and types of enums. -/
def rootKeys (dictionary : Dictionary) : List Key :=
  dictionary.spec.messages.map messageKey ++ dictionary.messageMembers.flatMap moduleKeys ++
    ((declaredGroups dictionary).filter inComponent).map (groupKey dictionary.spec.fields) ++
    (enumFields dictionary.spec.fields).map enumKey

variable (crowded) in
theorem claimMessages_outcome (messages : List Message) :
    Outcome (Fails crowded : Failure Error → Prop) (fun state =>
      Fills root (messages.map messageKey) Names.none.get state.1 ∧
        Fills catchAll (messages.map messageKey) Names.none.get state.2)
      (messages.foldlM claimMessage (.withGenerated root, .withGenerated catchAll)) := by
  refine Outcome.foldlM (fun done (state : Namespace × Namespace) =>
    Fills root (done.map messageKey) Names.none.get state.1 ∧
      Fills catchAll (done.map messageKey) Names.none.get state.2) ?_
    ⟨fills_withGenerated root_nodup _, fills_withGenerated catchAll_nodup _⟩
  rintro done message rest - ⟨space, variants⟩ ⟨hspace, hvariants⟩
  rw [claimMessage, List.map_append, List.map_singleton]
  refine (raise_outcome (Namespace.claim_outcome _ _)).bind fun space' _ htake => ?_
  refine (raise_outcome (Namespace.claim_outcome _ _)).bind fun variants' _ htake' => ?_
  exact ⟨hspace.take htake rfl, hvariants.take htake' rfl⟩

/-- Messages that are variants of one enum have different names. -/
theorem names_nodup {messages : List Message} {names : Names}
    (h : Distinct catchAll (messages.map messageKey) names.get) :
    (messages.map Message.name).Nodup := by
  obtain ⟨assigned, hassigned, hnodup⟩ := h
  have hmap : (messages.map Message.name).map some = assigned.map some := by
    rw [← hassigned, List.map_map, List.map_map]
    rfl
  rw [List.map_injective_iff.mpr (Option.some_injective String) hmap]
  exact (List.nodup_append.mp hnodup).2.1

theorem nameMessageModules_outcome (hd : dictionary.Resolved)
    {reserved : List String} {keys : List Key} {space : Namespace}
    (hfills : Fills reserved keys Names.none.get space) :
    Outcome (Fails crowded) (fun state => Fills' dictionary .none reserved
        (keys ++ dictionary.messageMembers.flatMap moduleKeys) state ∧
      ∀ entry ∈ dictionary.messageMembers,
        Distinct [] ((ownGroups entry.2).map (groupKey dictionary.spec.fields)) state.1.get)
      (dictionary.messageMembers.foldlM (nameMessageModule dictionary.spec.fields)
        (.none, space)) := by
  refine Outcome.foldlM (fun done (state : Names × Namespace) =>
    Fills' dictionary .none reserved (keys ++ done.flatMap moduleKeys) state ∧
      ∀ entry ∈ done,
        Distinct [] ((ownGroups entry.2).map (groupKey dictionary.spec.fields)) state.1.get) ?_
    ⟨⟨.refl ⟨nofun, nofun, nofun⟩, by simpa using hfills⟩, List.forall_mem_nil _⟩
  rintro done entry rest hsplit ⟨names, space'⟩ ⟨⟨hgrows, hfills'⟩, hdone⟩
  have hentry : entry ∈ dictionary.messageMembers := by simp [hsplit]
  refine (nameMessageModule_outcome hd hgrows.sound hfills' hentry).mono
    fun state ⟨⟨hgrows', hfills''⟩, hmodules⟩ => ?_
  rw [List.flatMap_append, List.flatMap_singleton, ← List.append_assoc]
  refine ⟨⟨hgrows.trans hgrows', hfills''⟩, ?_⟩
  simp only [List.mem_append, List.mem_singleton]
  rintro other (hother | rfl)
  · exact (hdone other hother).mono hgrows'.extends_
  · exact hmodules

/-- The scopes of a section. -/
structure SectionNamed (dictionary : Dictionary) (names : Names) (part : Section) : Prop where
  modules : Distinct [] ((sectionGroups dictionary part).map (groupKey dictionary.spec.fields))
    names.get
  view : Distinct inst ((part.members dictionary).flatMap (memberKeys dictionary.spec.fields))
    names.get

theorem nameSections_outcome (hd : dictionary.Resolved)
    (hsound : Sound dictionary names)
    (hshared : ∀ group, dictionary.Reaches group → inComponent group = true →
      (names.get (groupKey dictionary.spec.fields group)).isSome = true) :
    Outcome (Fails crowded) (fun names' => Grows dictionary names names' ∧
        ∀ part, SectionNamed dictionary names' part)
      ([Section.header, Section.trailer].foldlM (nameSection dictionary) names) := by
  have hloop : Outcome (Fails crowded) (fun names' => Grows dictionary names names' ∧
      ∀ part ∈ [Section.header, Section.trailer], SectionNamed dictionary names' part)
      ([Section.header, Section.trailer].foldlM (nameSection dictionary) names) := by
    refine Outcome.foldlM_each (Grows dictionary)
      (fun part names' => SectionNamed dictionary names' part) (.refl hsound)
      (fun _ _ h h' => h.trans h') ?_ ?_
    · intro part names' names'' h hgrows
      exact ⟨h.modules.mono hgrows.extends_, h.view.mono hgrows.extends_⟩
    · intro part _ names' hgrows
      refine (nameSection_outcome hd hgrows.sound (fun group hgroup hcomponent =>
        hgrows.extends_.isSome (hshared group hgroup hcomponent)) part).mono ?_
      rintro names'' ⟨hgrows', hmodules, hview⟩
      exact ⟨hgrows', hmodules, hview⟩
  refine hloop.mono fun names' ⟨hgrows, hparts⟩ => ⟨hgrows, fun part => hparts part ?_⟩
  cases part <;> decide

/-- The accessors of one list after another. -/
theorem nameLists_outcome (hd : dictionary.Resolved) (hsound : Sound dictionary names)
    {reserved : List String} (hreserved : reserved.Nodup) {α : Type} (members : α →
      List (ResolvedMember dictionary.spec.fields.length)) (owners : List α)
    (hgroups : ∀ owner ∈ owners, ∀ group : Group dictionary.spec.fields.length,
      group.member ∈ members owner → isGenerated group = true →
      (names.get (groupKey dictionary.spec.fields group)).isSome = true) :
    Outcome (Fails crowded) (fun names' => Grows dictionary names names' ∧
        ∀ owner ∈ owners, Distinct reserved
          ((members owner).flatMap (memberKeys dictionary.spec.fields)) names'.get)
      (owners.foldlM (fun names owner =>
        nameAccessors dictionary.spec.fields names (members owner) (.withGenerated reserved))
        names) := by
  refine Outcome.foldlM_each (Grows dictionary) (fun owner names' => Distinct reserved
    ((members owner).flatMap (memberKeys dictionary.spec.fields)) names'.get) (.refl hsound)
    (fun _ _ h h' => h.trans h') (fun owner _ _ h hgrows => h.mono hgrows.extends_) ?_
  intro owner howner names' hgrows
  exact nameAccessors_outcome hd hgrows.sound (fills_withGenerated hreserved names'.get) _
    fun group hmem hgenerated => hgrows.extends_.isSome (hgroups owner howner group hmem hgenerated)

/-- Every scope of the generated Rust has different names, none of them reserved, and each is the
name that its owner wants, but for enums and their values. -/
structure Named (dictionary : Dictionary) (names : Names) : Prop where
  sound : Sound dictionary names
  root : Distinct Rust.root (rootKeys dictionary) names.get
  variants : Distinct catchAll (dictionary.spec.messages.map messageKey) names.get
  modules : ∀ entry ∈ dictionary.messageMembers,
    Distinct [] ((ownGroups entry.2).map (groupKey dictionary.spec.fields)) names.get
  members : ∀ entry ∈ dictionary.messageMembers,
    Distinct message (entry.2.flatMap (memberKeys dictionary.spec.fields)) names.get
  sections : ∀ part, SectionNamed dictionary names part
  instances : ∀ group, dictionary.Reaches group → isGenerated group = true →
    Distinct inst (group.members.flatMap (memberKeys dictionary.spec.fields)) names.get
  enums : ∀ field ∈ enumFields dictionary.spec.fields, EnumNamed values names.enums field

/-- The names that are recorded before the enums are still found after them. -/
theorem extends_enums (h : names.enums = Names.none.enums) (enums : Tag → Option EnumNames) :
    Extends names.get { names with enums }.get := by
  apply extends_of_eq_none Key.enumType
  · intro tag
    rw [Names.get, h]
    rfl
  · intro key hkey
    cases key with
    | enumType tag => exact absurd rfl (hkey tag)
    | _ => rfl

/-- **Naming a dictionary** fails with an error, or gives every name that is looked up, with no
two alike in one scope. Each enum or value that is renamed adds one warning. -/
theorem new_outcome (hd : dictionary.Resolved)
    (hfields : (dictionary.spec.fields.map Field.name).Nodup) (warnings : List Warning) :
    Outcome (Fails (Crowded values dictionary.spec.fields)) (fun result =>
        Named dictionary result.1 ∧
        Settles ((enumFields dictionary.spec.fields).flatMap (enumPairs values result.1.enums))
          warnings result.2)
      (Names.new dictionary warnings) := by
  rw [Names.new]
  refine (claimMessages_outcome _ _).bind ?_
  rintro ⟨space, variants⟩ - ⟨hspace, hvariants⟩
  have hmessages := names_nodup hvariants.distinct
  refine (nameMessageModules_outcome hd hspace).bind ?_
  rintro ⟨names, space⟩ - ⟨⟨hgrows, hspace⟩, hmodules⟩
  have hdeclared := (declaredGroups_reaches hd).1
  refine (nameGroups_outcome hd hgrows.sound hspace fun group hgroup =>
    hdeclared group (List.mem_of_mem_filter hgroup)).bind ?_
  rintro ⟨names', space'⟩ - ⟨hgrows', hspace'⟩
  have hshared : ∀ group, dictionary.Reaches group → inComponent group = true →
      (names'.get (groupKey dictionary.spec.fields group)).isSome = true := by
    intro group hgroup hcomponent
    obtain ⟨group', hmem, hsame⟩ := exists_declaredGroup hd hmessages hfields hgroup
    have hcomponent' : inComponent group' = true := by
      rwa [inComponent, ← hsame.declaredIn_eq]
    apply hspace'.distinct.isSome
    rw [groupKey, hsame.instanceContext_eq]
    exact List.mem_append_right _ (List.mem_map_of_mem (List.mem_filter.mpr ⟨hmem, hcomponent'⟩))
  refine (nameSections_outcome hd hgrows'.sound hshared).bind ?_
  rintro names'' - ⟨hgrows'', hsections⟩
  have hnone : names''.enums = Names.none.enums := by
    rw [hgrows''.enums_eq, hgrows'.enums_eq, hgrows.enums_eq]
  rw [hnone]
  refine (nameEnums_outcome _ _ hd.consistent.tags_unique space').bind ?_
  rintro ⟨enums, space'', warnings'⟩ - henums
  have hextends := extends_enums hnone enums
  have hsound : Sound dictionary { names'' with enums } :=
    ⟨hgrows''.sound.accessors, hgrows''.sound.groups, hgrows''.sound.messageModules⟩
  -- every group that gets types of its own is named by now
  have hgenerated : ∀ group, dictionary.Reaches group → isGenerated group = true →
      (Names.get { names'' with enums } (groupKey dictionary.spec.fields group)).isSome = true := by
    intro group hgroup hgen
    apply hextends.isSome
    cases placed_of_reaches hd hgroup hgen with
    | shared hcomponent => exact hgrows''.extends_.isSome (hshared group hgroup hcomponent)
    | part part _ hown hsame =>
      rw [groupKey, hsame.instanceContext_eq]
      exact (hsections part).modules.isSome (List.mem_map_of_mem hown)
    | message hentry _ hown hsame =>
      rw [groupKey, hsame.instanceContext_eq]
      exact (hgrows'.trans hgrows'').extends_.isSome
        ((hmodules _ hentry).isSome (List.mem_map_of_mem hown))
  refine (nameLists_outcome hd hsound message_nodup Prod.snd dictionary.messageMembers
    fun entry hentry group hmem hgen => hgenerated group (.root (.message hentry) hmem) hgen).bind ?_
  rintro final - ⟨hfinal, hmembers⟩
  refine (nameLists_outcome hd hfinal.sound inst_nodup Group.members
    ((declaredGroups dictionary).filter isGenerated) fun owner howner group hmem hgen =>
    hfinal.extends_.isSome (hgenerated group (.nested (hdeclared owner (List.mem_of_mem_filter
      howner)) hmem) hgen)).bind ?_
  rintro final' - ⟨hfinal', hinstances⟩
  have hgrown : Extends names''.get final'.get :=
    hextends.trans (hfinal.trans hfinal').extends_
  have henumsEq : final'.enums = enums := (hfinal.trans hfinal').enums_eq
  refine ⟨{
    sound := hfinal'.sound
    root := ?_
    variants := ?_
    modules := fun entry hentry => ((hmodules entry hentry).mono
      (hgrows'.trans hgrows'').extends_).mono hgrown
    members := fun entry hentry => (hmembers entry hentry).mono hfinal'.extends_
    sections := fun part => ⟨(hsections part).modules.mono hgrown, (hsections part).view.mono hgrown⟩
    instances := fun group hgroup hgen => ?_
    enums := fun field hfield => henumsEq ▸ henums.named field hfield }, ?_⟩
  · have hkey : ∀ field, Names.get { names'' with enums } (enumKey field) =
        (enums field.tag).map EnumNames.typeName := fun _ => rfl
    have hroot := (henums.fills (hspace'.mono hgrows''.extends_) hextends hkey).distinct
    exact hroot.mono (hfinal.trans hfinal').extends_
  · exact (hvariants.distinct.mono (((hgrows.trans hgrows').trans hgrows'').extends_)).mono hgrown
  · obtain ⟨group', hmem, hsame⟩ := exists_declaredGroup hd hmessages hfields hgroup
    have hgen' : isGenerated group' = true := by rwa [← isGenerated_eq_of_same hsame]
    rw [hsame.members_eq]
    exact hinstances group' (List.mem_filter.mpr ⟨hmem, hgen'⟩)
  · rw [henumsEq]
    exact henums.settles

namespace Named

variable {group : Group dictionary.spec.fields.length}

theorem group_isSome (hd : dictionary.Resolved) (h : Named dictionary names)
    (hfields : (dictionary.spec.fields.map Field.name).Nodup) (hgroup : dictionary.Reaches group)
    (hgenerated : isGenerated group = true) :
    (names.get (groupKey dictionary.spec.fields group)).isSome = true := by
  cases placed_of_reaches hd hgroup hgenerated with
  | shared hcomponent =>
    obtain ⟨group', hmem, hsame⟩ :=
      exists_declaredGroup hd (names_nodup h.variants) hfields hgroup
    have hcomponent' : inComponent group' = true := by rwa [inComponent, ← hsame.declaredIn_eq]
    rw [groupKey, hsame.instanceContext_eq]
    apply h.root.isSome
    have hkey := List.mem_map_of_mem (f := groupKey dictionary.spec.fields)
      (List.mem_filter.mpr ⟨hmem, hcomponent'⟩)
    exact List.mem_append_left _ (List.mem_append_right _ hkey)
  | part part _ hown hsame =>
    rw [groupKey, hsame.instanceContext_eq]
    exact (h.sections part).modules.isSome (List.mem_map_of_mem hown)
  | message hentry _ hown hsame =>
    rw [groupKey, hsame.instanceContext_eq]
    exact (h.modules _ hentry).isSome (List.mem_map_of_mem hown)

/-- The module of a message that declares a group is named. -/
theorem messageModule_isSome (h : Named dictionary names)
    {entry : Message × List (ResolvedMember dictionary.spec.fields.length)}
    (hentry : entry ∈ dictionary.messageMembers) (hgroup : group ∈ ownGroups entry.2) :
    (names.messageModules entry.1.name).isSome = true := by
  have hmodule : Key.messageModule entry.1.name ∈ moduleKeys entry := by
    rw [moduleKeys, if_neg (by simpa using List.ne_nil_of_mem hgroup)]
    exact List.mem_singleton_self _
  have hkey := List.mem_flatMap.mpr ⟨entry, hentry, hmodule⟩
  have hroot : Key.messageModule entry.1.name ∈ rootKeys dictionary := by
    rw [rootKeys, List.append_assoc, List.append_assoc]
    exact List.mem_append_right _ (List.mem_append_left _ hkey)
  exact h.root.isSome hroot

/-- A group that gets a module has a path to it. -/
theorem groupPath_isSome (hd : dictionary.Resolved) (h : Named dictionary names)
    (hfields : (dictionary.spec.fields.map Field.name).Nodup) (hgroup : dictionary.Reaches group)
    (hgenerated : isGenerated group = true) :
    (names.groupPath dictionary.spec.fields group).isSome = true := by
  obtain ⟨name, hname⟩ := Option.isSome_iff_exists.mp
    (h.group_isSome hd hfields hgroup hgenerated)
  have hlookup : names.groups (group.instanceContext dictionary.spec.fields) = some name := hname
  rw [Names.groupPath, hlookup]
  cases placed_of_reaches hd hgroup hgenerated with
  | shared hcomponent =>
    unfold inComponent at hcomponent
    split at hcomponent
    · next hdeclared =>
      rw [hdeclared]
      rfl
    · cases hcomponent
  | part part hcontext _ _ =>
    rw [hcontext]
    cases part <;> rfl
  | message hentry hcontext hown hsame =>
    obtain ⟨module, hmodule⟩ := Option.isSome_iff_exists.mp (h.messageModule_isSome hentry hown)
    rw [hcontext]
    simp only at hmodule
    simp [hmodule]

end Named

end Everything

end Dictionary

end Refix.Codegen.Rust
