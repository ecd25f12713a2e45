import Refix.Codegen.Lookups
import Refix.Codegen.RustIdentifiers

/-!
# When Generated Rust Has Legal Names

Naming records, for each group that gets a module, each field that gets an accessor and each
enum, the name that its own definition makes. So the names are legal exactly where those that
the dictionary gives have the shape of identifiers: only the names of values are checked.
-/

namespace Refix.Codegen.Rust

open Refix.Foundation
open Refix.Dict
open Refix.Message (Tag)

/-! ## What is named -/

section Owners

variable (dictionary : Dictionary)

/-- The groups that get a module: those that messages and sections declare themselves, and those
that components declare. -/
def moduleGroups : List (Group dictionary.spec.fields.length) :=
  dictionary.messageMembers.flatMap (fun entry => ownGroups entry.2) ++
    (declaredGroups dictionary).filter inComponent ++
    [Section.header, Section.trailer].flatMap (sectionGroups dictionary)

/-- The member lists that get accessors. -/
def accessorLists : List (List (ResolvedMember dictionary.spec.fields.length)) :=
  [Section.header, Section.trailer].map (·.members dictionary) ++
    dictionary.messageMembers.map Prod.snd ++
    ((declaredGroups dictionary).filter isGenerated).map Group.members

/-- A field that gets an accessor. -/
def Accessed (index : Fin dictionary.spec.fields.length) : Prop :=
  ∃ members ∈ accessorLists dictionary, ∃ isRequired, .field index isRequired ∈ members

/-- A name that a message, the module of a message or that of a shared group takes, and that an
enum yields. -/
def Taken (name : String) : Prop :=
  name ∈ dictionary.spec.messages.map Message.name ∨
    (∃ entry ∈ dictionary.messageMembers, ownGroups entry.2 ≠ [] ∧
      messageModuleName entry.1.name = .ok name) ∨
    ∃ group ∈ (declaredGroups dictionary).filter inComponent,
      groupName dictionary.spec.fields group = .ok name

/-- The name of an enum's type: its field's, unless that is taken. -/
def TypeName (field name : String) : Prop :=
  ¬ Taken dictionary field ∧ name = field ∨ Taken dictionary field ∧ name = field ++ "Enum"

variable {dictionary} in
/-- An enum has one name. -/
theorem TypeName.det {field name name' : String} (h : TypeName dictionary field name)
    (h' : TypeName dictionary field name') : name = name' := by
  rcases h with ⟨hfree, rfl⟩ | ⟨htaken, rfl⟩
  · exact (h'.resolve_right fun h => hfree h.1).2.symm
  · exact (h'.resolve_left fun h => h.1 htaken).2.symm

/-- The names of the dictionary's own making. -/
inductive Owns : Key → String → Prop where
  | message (name : String) : Owns (.message name) name
  | messageModule {entry : Message × List (ResolvedMember dictionary.spec.fields.length)}
      (hentry : entry ∈ dictionary.messageMembers) {name : String}
      (hname : messageModuleName entry.1.name = .ok name) :
      Owns (.messageModule entry.1.name) name
  | group {group : Group dictionary.spec.fields.length} (hgroup : group ∈ moduleGroups dictionary)
      {name : String} (hname : groupName dictionary.spec.fields group = .ok name) :
      Owns (groupKey dictionary.spec.fields group) name
  | accessor {index : Fin dictionary.spec.fields.length} (hindex : Accessed dictionary index)
      {name : String} (hname : methodName (dictionary.spec.fields.get index) = .ok name) :
      Owns (.accessor (dictionary.spec.fields.get index).tag) name
  | enumType {field : Field} (hfield : field ∈ enumFields dictionary.spec.fields) {name : String}
      (hname : TypeName dictionary field.name name) : Owns (enumKey field) name

end Owners

/-! ## Legal names -/

/-- **Every name of the generated Rust is a legal identifier**: types and variants of messages,
modules, accessors, types of enums and their variants. -/
structure AllLegal (chars : IdentifierChars) (dictionary : Dictionary) (names : Names) : Prop where
  messages : ∀ message ∈ dictionary.spec.messages, Legal chars message.name
  messageModules : ∀ message name, names.messageModules message = some name → Legal chars name
  groups : ∀ context name, names.groups context = some name → Legal chars name
  accessors : ∀ tag name, names.accessors tag = some name → Legal chars name
  enumTypes : ∀ tag enum, names.enums tag = some enum → Legal chars enum.typeName
  values : ∀ tag enum, names.enums tag = some enum → ∀ name ∈ enum.values, Legal chars name

/-- **The names of the dictionary are fit for Rust**: each has the shape of an identifier where it
is used, in the case and with the suffix that it is used in. -/
structure Spelled (chars : IdentifierChars) (dictionary : Dictionary) : Prop where
  messages : ∀ message ∈ dictionary.spec.messages, Legal chars message.name
  groups : ∀ group ∈ moduleGroups dictionary,
    Spells chars (groupSourceName dictionary.spec.fields group)
  fields : ∀ index, Accessed dictionary index → FieldSpells chars (dictionary.spec.fields.get index)
  enums : ∀ field ∈ enumFields dictionary.spec.fields, ∀ name,
    TypeName dictionary field.name name → Legal chars name

section Dictionary

variable {dictionary : Dictionary}

theorem reaches_of_mem_moduleGroups (hd : dictionary.Resolved)
    {group : Group dictionary.spec.fields.length} (h : group ∈ moduleGroups dictionary) :
    dictionary.Reaches group := by
  rw [moduleGroups, List.append_assoc, List.mem_append, List.mem_append] at h
  rcases h with h | h | h
  · obtain ⟨entry, hentry, hgroup⟩ := List.mem_flatMap.mp h
    exact .root (.message hentry) (mem_groupsOf.mp (List.mem_of_mem_filter hgroup))
  · exact (declaredGroups_reaches hd).1 group (List.mem_of_mem_filter h)
  · obtain ⟨part, _, hgroup⟩ := List.mem_flatMap.mp h
    exact .root (hasList_section dictionary part)
      (mem_groupsOf.mp (List.mem_of_mem_filter hgroup))

/-! ## What is recorded -/

/-- What is recorded are names of the dictionary's own making. -/
def Recorded (dictionary : Dictionary) (names : Names) : Prop :=
  ∀ key name, names.get key = some name → Owns dictionary key name

theorem recorded_none : Recorded dictionary Names.none := by
  intro key name hname
  cases key with
  | message given =>
    cases hname
    exact .message _
  | messageModule _ => cases hname
  | group _ => cases hname
  | accessor _ => cases hname
  | enumType _ => cases hname

/-- Names that are added to: no key is lost, and the enums are those they were. -/
structure Adds (dictionary : Dictionary) (names names' : Names) : Prop where
  recorded : Recorded dictionary names'
  isSome : ∀ key, (names.get key).isSome = true → (names'.get key).isSome = true
  enums_eq : names'.enums = names.enums

theorem Adds.refl {names : Names} (h : Recorded dictionary names) : Adds dictionary names names :=
  ⟨h, fun _ => id, rfl⟩

theorem Adds.trans {names names' names'' : Names} (h : Adds dictionary names names')
    (h' : Adds dictionary names' names'') : Adds dictionary names names'' :=
  ⟨h'.recorded, fun key hkey => h'.isSome key (h.isSome key hkey), h'.enums_eq.trans h.enums_eq⟩

/-- One more name under its key. -/
theorem Adds.of_update {names names' : Names} {key : Key} {name : String}
    (h : Recorded dictionary names) (hget : names'.get = Function.update names.get key (some name))
    (henums : names'.enums = names.enums) (howns : Owns dictionary key name) :
    Adds dictionary names names' ∧ (names'.get key).isSome = true := by
  refine ⟨⟨fun other name' hname' => ?_, fun other hother => ?_, henums⟩, ?_⟩
  · rw [hget, Function.update_apply] at hname'
    split at hname'
    · next heq =>
      cases hname'
      exact heq ▸ howns
    · exact h other name' hname'
  · rw [hget, Function.update_apply]
    split
    · rfl
    · exact hother
  · rw [hget, Function.update_self]
    rfl

theorem get_accessors (names : Names) (tag : Tag) (name : String) :
    Names.get { names with accessors := Function.update names.accessors tag (some name) } =
      Function.update names.get (.accessor tag) (some name) := by
  funext key
  cases key <;> simp [Names.get, Function.update_apply]

theorem get_groups (names : Names) (context : MemberContext) (name : String) :
    Names.get { names with groups := Function.update names.groups context (some name) } =
      Function.update names.get (.group context) (some name) := by
  funext key
  cases key <;> simp [Names.get, Function.update_apply]

theorem get_messageModules (names : Names) (message name : String) :
    Names.get { names with
      messageModules := Function.update names.messageModules message (some name) } =
      Function.update names.get (.messageModule message) (some name) := by
  funext key
  cases key <;> simp [Names.get, Function.update_apply]

/-! ## One loop after another -/

section Loops

variable {names names' : Names}

variable (dictionary) in
/-- A group's module is named. -/
def HasModule (names : Names) (group : Group dictionary.spec.fields.length) : Prop :=
  (names.get (groupKey dictionary.spec.fields group)).isSome = true

variable (dictionary) in
/-- The accessors of a list's fields are named. -/
def HasAccessors (names : Names) (members : List (ResolvedMember dictionary.spec.fields.length)) :
    Prop :=
  ∀ index isRequired, .field index isRequired ∈ members →
    (names.get (.accessor (dictionary.spec.fields.get index).tag)).isSome = true

theorem Adds.hasModule (h : Adds dictionary names names')
    {group : Group dictionary.spec.fields.length} (hgroup : HasModule dictionary names group) :
    HasModule dictionary names' group :=
  h.isSome _ hgroup

theorem Adds.hasAccessors (h : Adds dictionary names names')
    {members : List (ResolvedMember dictionary.spec.fields.length)}
    (hmembers : HasAccessors dictionary names members) : HasAccessors dictionary names' members :=
  fun index isRequired hmem => h.isSome _ (hmembers index isRequired hmem)

/-- Each group of the list gets a module. -/
theorem nameGroups_adds (h : Recorded dictionary names) (space : Namespace)
    {groups : List (Group dictionary.spec.fields.length)}
    (hgroups : groups ⊆ moduleGroups dictionary) :
    Outcome (fun _ => True) (fun state => Adds dictionary names state.1 ∧
      ∀ group ∈ groups, HasModule dictionary state.1 group)
      (groups.foldlM (nameGroup dictionary.spec.fields) (names, space)) := by
  refine Outcome.foldlM_each (fun s s' : Names × Namespace => Adds dictionary s.1 s'.1)
    (fun group s => HasModule dictionary s.1 group) (Adds.refl h) (fun _ _ h h' => h.trans h')
    (fun _ _ _ h hadds => hadds.hasModule h) ?_
  rintro group hgroup ⟨names', space'⟩ hadds
  rw [nameGroup]
  refine (outcome_self _).bind fun name hname _ => ?_
  refine (outcome_self _).bind fun space'' _ _ => ?_
  exact Adds.of_update hadds.recorded (get_groups names' _ name) rfl
    (.group (hgroups hgroup) hname)

theorem nameMessageModules_adds (h : Recorded dictionary names) (space : Namespace) :
    Outcome (fun _ => True) (fun state => Adds dictionary names state.1 ∧
      ∀ entry ∈ dictionary.messageMembers, ∀ group ∈ ownGroups entry.2,
        HasModule dictionary state.1 group)
      (dictionary.messageMembers.foldlM (nameMessageModule dictionary.spec.fields)
        (names, space)) := by
  refine Outcome.foldlM_each (fun s s' : Names × Namespace => Adds dictionary s.1 s'.1)
    (fun (entry : Message × List (ResolvedMember dictionary.spec.fields.length)) s =>
      ∀ group ∈ ownGroups entry.2, HasModule dictionary s.1 group)
    (Adds.refl h) (fun _ _ h h' => h.trans h')
    (fun _ _ _ h hadds group hgroup => hadds.hasModule (h group hgroup)) ?_
  rintro ⟨message, members⟩ hentry ⟨names', space'⟩ hadds
  have hgroups : ownGroups members ⊆ moduleGroups dictionary := by
    intro group hgroup
    rw [moduleGroups, List.append_assoc]
    exact List.mem_append_left _ (List.mem_flatMap.mpr ⟨_, hentry, hgroup⟩)
  rw [nameMessageModule]
  simp only
  split
  · next hempty =>
    rw [List.isEmpty_iff.mp hempty]
    exact ⟨.refl hadds.recorded, List.forall_mem_nil _⟩
  · refine (outcome_self _).bind fun name hname _ => ?_
    refine (outcome_self _).bind fun space'' _ _ => ?_
    refine (nameGroups_adds hadds.recorded .empty hgroups).bind ?_
    rintro state - ⟨hadds', hnamed⟩
    obtain ⟨hmodule, _⟩ := Adds.of_update hadds'.recorded (get_messageModules state.1 _ name) rfl
      (.messageModule hentry hname)
    exact ⟨hadds'.trans hmodule, fun group hgroup => hmodule.hasModule (hnamed group hgroup)⟩

/-- Each field of the list gets an accessor. -/
theorem nameAccessors_adds (h : Recorded dictionary names) (space : Namespace)
    {members : List (ResolvedMember dictionary.spec.fields.length)}
    (hmembers : members ∈ accessorLists dictionary) :
    Outcome (fun _ => True)
      (fun names' => Adds dictionary names names' ∧ HasAccessors dictionary names' members)
      (nameAccessors dictionary.spec.fields names members space) := by
  rw [nameAccessors]
  refine (Outcome.foldlM_each (fun s s' : Names × Namespace => Adds dictionary s.1 s'.1)
    (fun member s => HasAccessors dictionary s.1 [member]) (Adds.refl h)
    (fun _ _ h h' => h.trans h') (fun _ _ _ h hadds => hadds.hasAccessors h) ?_).bind
    fun state _ h => ⟨h.1, fun index isRequired hmem =>
      h.2 _ hmem index isRequired (List.mem_singleton_self _)⟩
  rintro member hmember ⟨names', space'⟩ hadds
  cases member with
  | field index isRequired =>
    rw [nameAccessor]
    refine (outcome_self _).bind fun name hname _ => ?_
    refine (outcome_self _).bind fun space'' _ _ => ?_
    obtain ⟨hadds', hisSome⟩ := Adds.of_update hadds.recorded (get_accessors names' _ name) rfl
      (.accessor ⟨members, hmembers, isRequired, hmember⟩ hname)
    refine ⟨hadds', fun _ _ hmem => ?_⟩
    cases List.mem_singleton.mp hmem
    exact hisSome
  | group countFieldIndex delimiterIndex isRequired declaredIn component inst =>
    -- a group's accessor is called like its module
    have hsame : Adds dictionary names' names' ∧ HasAccessors dictionary names'
        [.group countFieldIndex delimiterIndex isRequired declaredIn component inst] :=
      ⟨.refl hadds.recorded, fun _ _ hmem => by cases List.mem_singleton.mp hmem⟩
    rw [nameAccessor]
    simp only
    split
    · split
      · exact (outcome_self _).bind fun _ _ _ => hsame
      · trivial
    · exact hsame

/-- Each field of a section gets an accessor, and each of its own groups a module. -/
theorem nameSections_adds (h : Recorded dictionary names) :
    Outcome (fun _ => True) (fun names' => Adds dictionary names names' ∧
      ∀ part ∈ [Section.header, Section.trailer],
        (∀ group ∈ sectionGroups dictionary part, HasModule dictionary names' group) ∧
          HasAccessors dictionary names' (part.members dictionary))
      ([Section.header, Section.trailer].foldlM (nameSection dictionary) names) := by
  refine Outcome.foldlM_each (Adds dictionary) (fun part names' =>
      (∀ group ∈ sectionGroups dictionary part, HasModule dictionary names' group) ∧
        HasAccessors dictionary names' (part.members dictionary))
    (.refl h) (fun _ _ h h' => h.trans h') (fun _ _ _ ⟨hmodules, hfields⟩ hadds =>
      ⟨fun group hgroup => hadds.hasModule (hmodules group hgroup), hadds.hasAccessors hfields⟩) ?_
  intro part hpart names' hadds
  have hgroups : sectionGroups dictionary part ⊆ moduleGroups dictionary := by
    intro group hgroup
    rw [moduleGroups]
    exact List.mem_append_right _ (List.mem_flatMap.mpr ⟨part, hpart, hgroup⟩)
  have hmembers : part.members dictionary ∈ accessorLists dictionary := by
    rw [accessorLists, List.append_assoc]
    exact List.mem_append_left _ (List.mem_map_of_mem (f := (·.members dictionary)) hpart)
  rw [nameSection]
  refine (nameGroups_adds hadds.recorded .empty hgroups).bind fun state _ ⟨hadds', hmodules⟩ => ?_
  refine (nameAccessors_adds hadds'.recorded (.withGenerated inst) hmembers).mono
    fun names'' ⟨hadds'', hfields⟩ => ?_
  exact ⟨hadds'.trans hadds'', fun group hgroup => hadds''.hasModule (hmodules group hgroup),
    hfields⟩

/-- Each field of each list gets an accessor. -/
theorem nameLists_adds (h : Recorded dictionary names) (reserved : List String) {α : Type}
    (members : α → List (ResolvedMember dictionary.spec.fields.length)) (owners : List α)
    (howners : ∀ owner ∈ owners, members owner ∈ accessorLists dictionary) :
    Outcome (fun _ => True) (fun names' => Adds dictionary names names' ∧
      ∀ owner ∈ owners, HasAccessors dictionary names' (members owner))
      (owners.foldlM (fun names owner =>
        nameAccessors dictionary.spec.fields names (members owner) (.withGenerated reserved))
        names) := by
  refine Outcome.foldlM_each (Adds dictionary)
    (fun owner names' => HasAccessors dictionary names' (members owner)) (.refl h)
    (fun _ _ h h' => h.trans h') (fun _ _ _ h hadds => hadds.hasAccessors h) ?_
  intro owner howner names' hadds
  exact nameAccessors_adds hadds.recorded (.withGenerated reserved) (howners owner howner)

end Loops

/-! ## Enums -/

section Enums

/-- Whether the enum of a field yields its name to such an owner. -/
def hasPrecedence : Owner → Bool
  | .message _ | .group _ => true
  | _ => false

/-- The names of a scope that an enum yields. -/
def yielded (space : Namespace) : List String :=
  (space.owners.filter fun entry => hasPrecedence entry.2).map Prod.fst

theorem mem_yielded_of_claim (space : Namespace) (name : String) (owner : Owner) :
    Outcome (fun _ => True) (fun space' => ∀ other, other ∈ yielded space' ↔
        other ∈ yielded space ∨ hasPrecedence owner = true ∧ other = name)
      (raise (space.claim name owner) : Except (Failure Error) Namespace) := by
  cases hclaim : space.claim name owner with
  | error _ => trivial
  | ok space' =>
    obtain ⟨_, rfl⟩ := Namespace.claim_eq_ok_iff.mp hclaim
    intro other
    cases howner : hasPrecedence owner <;> simp [yielded, howner, or_comm]

theorem mem_names_of_mem_yielded {space : Namespace} {name : String} (h : name ∈ yielded space) :
    name ∈ space.names := by
  obtain ⟨entry, hentry, rfl⟩ := List.mem_map.mp h
  exact List.mem_reverse.mpr (List.mem_map_of_mem (List.mem_of_mem_filter hentry))

/-- What a loop adds to the names that enums yield, step by step. -/
theorem mem_yielded_of_foldlM {ε σ α : Type} {step : σ → α → Except ε σ} (scope : σ → Namespace)
    (gives : α → String → Prop) {xs : List α}
    (hstep : ∀ x ∈ xs, ∀ s, Outcome (fun _ => True) (fun s' => ∀ name,
      name ∈ yielded (scope s') ↔ name ∈ yielded (scope s) ∨ gives x name) (step s x)) (s : σ) :
    Outcome (fun _ => True) (fun s' => ∀ name, name ∈ yielded (scope s') ↔
      name ∈ yielded (scope s) ∨ ∃ x ∈ xs, gives x name) (xs.foldlM step s) := by
  refine Outcome.foldlM (fun done s' => ∀ name, name ∈ yielded (scope s') ↔
    name ∈ yielded (scope s) ∨ ∃ x ∈ done, gives x name) ?_ (by simp)
  intro done x rest hsplit s' hdone
  have hx : x ∈ xs := by simp [hsplit]
  refine (hstep x hx s').mono fun s'' hgives name => ?_
  rw [hgives, hdone, or_assoc]
  simp only [List.mem_append, List.mem_singleton, or_and_right, exists_or, exists_eq_left]

theorem claimMessages_yielded (space variants : Namespace) (messages : List Message) :
    Outcome (fun _ => True) (fun state => ∀ name, name ∈ yielded state.1 ↔
      name ∈ yielded space ∨ ∃ message ∈ messages, message.name = name)
      (messages.foldlM claimMessage (space, variants)) := by
  refine mem_yielded_of_foldlM (fun state : Namespace × Namespace => state.1)
    (fun (message : Message) name => message.name = name) ?_ (space, variants)
  rintro message - ⟨space', variants'⟩
  rw [claimMessage]
  refine (mem_yielded_of_claim space' message.name (.message message.name)).bind
    fun space'' _ hyielded => ?_
  refine (outcome_self _).bind fun _ _ _ name => ?_
  simp only [hyielded, hasPrecedence, true_and, eq_comm]

theorem nameGroups_yielded (names : Names) (space : Namespace)
    (groups : List (Group dictionary.spec.fields.length)) :
    Outcome (fun _ => True) (fun state => ∀ name, name ∈ yielded state.2 ↔
      name ∈ yielded space ∨ ∃ group ∈ groups, groupName dictionary.spec.fields group = .ok name)
      (groups.foldlM (nameGroup dictionary.spec.fields) (names, space)) := by
  refine mem_yielded_of_foldlM (fun state : Names × Namespace => state.2)
    (fun group name => groupName dictionary.spec.fields group = .ok name) ?_ (names, space)
  rintro group - ⟨names', space'⟩
  rw [nameGroup]
  refine (outcome_self _).bind fun given hgiven _ => ?_
  refine (mem_yielded_of_claim space' given _).bind fun space'' _ hyielded name => ?_
  simp only [hyielded, hgiven, hasPrecedence, true_and, Except.ok.injEq, eq_comm]

theorem nameMessageModules_yielded (names : Names) (space : Namespace) :
    Outcome (fun _ => True) (fun state => ∀ name, name ∈ yielded state.2 ↔
      name ∈ yielded space ∨ ∃ entry ∈ dictionary.messageMembers, ownGroups entry.2 ≠ [] ∧
        messageModuleName entry.1.name = .ok name)
      (dictionary.messageMembers.foldlM (nameMessageModule dictionary.spec.fields)
        (names, space)) := by
  refine mem_yielded_of_foldlM (fun state : Names × Namespace => state.2)
    (fun (entry : Message × List (ResolvedMember dictionary.spec.fields.length)) name =>
      ownGroups entry.2 ≠ [] ∧ messageModuleName entry.1.name = .ok name) ?_ (names, space)
  rintro ⟨message, members⟩ - ⟨names', space'⟩
  rw [nameMessageModule]
  simp only
  split
  · next hempty => simp [List.isEmpty_iff.mp hempty]
  · next hgroups =>
    refine (outcome_self _).bind fun given hgiven _ => ?_
    refine (mem_yielded_of_claim space' given _).bind fun space'' _ hyielded => ?_
    refine (outcome_self _).bind fun _ _ _ name => ?_
    have hne : ownGroups members ≠ [] := fun hnil => hgroups (by rw [hnil]; rfl)
    simp only [hyielded, hgiven, hasPrecedence, true_and, Except.ok.injEq, eq_comm, ne_eq, hne,
      not_false_iff]

/-- **An enum is called like its field, or like its field with `Enum` after it where it yields.** -/
theorem claimEnum_yielded (space : Namespace) (field : String) (warnings : List Warning) :
    Outcome (fun _ => True)
      (fun result => (∀ name, name ∈ yielded result.2.1 ↔ name ∈ yielded space) ∧
        (field ∉ yielded space ∧ result.1 = field ∨
          field ∈ yielded space ∧ result.1 = field ++ "Enum"))
      (raise (space.claimEnum field warnings) : Except (Failure Error) _) := by
  -- An enum has no precedence, so a claim of its own leaves the yielded names as they are.
  have hclaims : ∀ name space', space.claim name (.enum field) = .ok space' →
      ∀ other, other ∈ yielded space' ↔ other ∈ yielded space := by
    intro name space' hclaim other
    have hyielded := mem_yielded_of_claim space name (.enum field)
    rw [hclaim] at hyielded
    simpa [hasPrecedence] using hyielded other
  rw [Namespace.claimEnum]
  cases hclaim : space.claim field (.enum field) with
  | ok space' =>
    have hfresh := (Namespace.claim_eq_ok_iff.mp hclaim).1
    exact ⟨hclaims _ _ hclaim, Or.inl ⟨fun h => hfresh (mem_names_of_mem_yielded h), rfl⟩⟩
  | error clash =>
    have hyields : hasPrecedence clash.first = true → field ∈ yielded space := by
      intro hprecedence
      unfold Namespace.claim at hclaim
      cases hlookup : space.owners.lookup field with
      | none =>
        rw [hlookup] at hclaim
        cases hclaim
      | some first =>
        rw [hlookup] at hclaim
        cases hclaim
        obtain ⟨before, after, howners, _⟩ := List.lookup_eq_some_iff.mp hlookup
        have hmem : (field, first) ∈ space.owners := by simp [howners]
        exact List.mem_map.mpr ⟨_, List.mem_filter.mpr ⟨hmem, hprecedence⟩, rfl⟩
    -- Where the name belongs to what has precedence, the enum yields it and adds `Enum` to its own.
    have hsecond : hasPrecedence clash.first = true → Outcome (fun _ => True)
        (fun result => (∀ name, name ∈ yielded result.2.1 ↔ name ∈ yielded space) ∧
          (field ∉ yielded space ∧ result.1 = field ∨
            field ∈ yielded space ∧ result.1 = field ++ "Enum"))
        (raise (do
          let space ← space.claim (field ++ "Enum") (.enum field)
          return (field ++ "Enum", space, warnings ++ [.renamed clash (field ++ "Enum")])) :
          Except (Failure Error) _) := by
      intro hprecedence
      cases hclaim' : space.claim (field ++ "Enum") (.enum field) with
      | error _ => trivial
      | ok space' => exact ⟨hclaims _ _ hclaim', Or.inr ⟨hyields hprecedence, rfl⟩⟩
    simp only
    split
    · next heq => exact hsecond (by rw [heq]; rfl)
    · next heq => exact hsecond (by rw [heq]; rfl)
    · trivial

/-- A value gets the name it wants, or a numbered one. -/
theorem claimNumbered_given (owner : Owner) (candidate : ℕ → String) (fuel : ℕ) :
    ∀ (space : Namespace) (number : ℕ), Outcome (fun _ => True)
      (fun result => ∃ number', result.1 = candidate number')
      (space.claimNumbered owner candidate fuel number : Except (Failure Error) _) := by
  induction fuel with
  | zero => exact fun _ _ => trivial
  | succ fuel ih =>
    intro space number
    rw [Namespace.claimNumbered]
    split
    · exact ⟨number, rfl⟩
    · split
      · exact ih space (number + 1)
      · trivial

theorem claimValue_given (space : Namespace) (name : String) (owner : Owner)
    (numbered : String → ℕ → String) (warnings : List Warning) :
    Outcome (fun _ => True)
      (fun result => result.1 = name ∨ ∃ number, result.1 = numbered name number)
      (space.claimValue name owner numbered warnings : Except (Failure Error) _) := by
  rw [Namespace.claimValue]
  split
  · exact Or.inl rfl
  · split
    · exact (claimNumbered_given owner (numbered name) _ space 2).bind
        fun _ _ hgiven => Or.inr hgiven
    · trivial

/-- The names of a field's values have the shape that they are checked for, and a number leaves
it to them. -/
theorem nameValues_shape (field : Field) (warnings : List Warning) :
    Outcome (fun _ => True) (fun result => ∀ name ∈ result.1, IsVariantName name)
      (nameValues values field warnings) := by
  rw [nameValues]
  have hloop : Outcome (fun _ => True)
      (fun state : List String × Namespace × List Warning => ∀ name ∈ state.1, IsVariantName name)
      (field.values.foldlM (nameValue values field)
        ([], .withGenerated values.reserved, warnings)) := by
    refine Outcome.foldlM (fun _ (state : List String × Namespace × List Warning) =>
      ∀ name ∈ state.1, IsVariantName name) ?_ (List.forall_mem_nil IsVariantName)
    rintro done value rest - ⟨names, space, warnings'⟩ hshape
    have hvalue : Outcome (fun _ => True) IsVariantName (values.valueName field value) :=
      variantName_shape field value
    rw [nameValue]
    refine hvalue.bind fun name _ hname => ?_
    have hclaim := claimValue_given space name
      (.value field.name value.value value.description) values.numbered warnings'
    refine hclaim.bind fun result _ hgiven => ?_
    have hresult : IsVariantName result.1 := by
      rcases hgiven with heq | ⟨number, heq⟩
      · rw [heq]
        exact hname
      · rw [heq]
        exact isVariantName_numbered hname number
    exact List.forall_mem_append.mpr ⟨hshape, List.forall_mem_singleton.mpr hresult⟩
  exact hloop.bind fun _ _ hshape => hshape

/-- Enums that are called as they should be, and their values. -/
structure EnumsOwned (dictionary : Dictionary) (enums : Tag → Option EnumNames) : Prop where
  types : ∀ tag enum, enums tag = some enum → ∃ field ∈ enumFields dictionary.spec.fields,
    field.tag = tag ∧ TypeName dictionary field.name enum.typeName
  values : ∀ tag enum, enums tag = some enum → ∀ name ∈ enum.values, IsVariantName name

/-- One more enum. -/
theorem EnumsOwned.update {enums : Tag → Option EnumNames} (h : EnumsOwned dictionary enums)
    {field : Field} (hfield : field ∈ enumFields dictionary.spec.fields) {enum : EnumNames}
    (htype : TypeName dictionary field.name enum.typeName)
    (hvalues : ∀ name ∈ enum.values, IsVariantName name) :
    EnumsOwned dictionary (Function.update enums field.tag (some enum)) := by
  constructor
  · intro tag enum' h'
    rw [Function.update_apply] at h'
    split at h'
    · next heq =>
      cases h'
      exact ⟨field, hfield, heq.symm, htype⟩
    · exact h.types tag enum' h'
  · intro tag enum' h'
    rw [Function.update_apply] at h'
    split at h'
    · cases h'
      exact hvalues
    · exact h.values tag enum' h'

/-- Each field that reads through an enum gets one. -/
theorem nameEnums_owned {space : Namespace}
    (hspace : ∀ name, name ∈ yielded space ↔ Taken dictionary name) (warnings : List Warning) :
    Outcome (fun _ => True) (fun state => EnumsOwned dictionary state.1 ∧
      ∀ field ∈ enumFields dictionary.spec.fields, (state.1 field.tag).isSome = true)
      (dictionary.spec.fields.foldlM (nameEnum values) (fun _ => none, space, warnings)) := by
  have hstart : EnumsOwned dictionary fun _ => none :=
    ⟨fun _ _ h => (by cases h), fun _ _ h => by cases h⟩
  refine (Outcome.foldlM_each (fun s s' : EnumState =>
      (EnumsOwned dictionary s'.1 ∧ ∀ name, name ∈ yielded s'.2.1 ↔ Taken dictionary name) ∧
        ∀ tag, (s.1 tag).isSome = true → (s'.1 tag).isSome = true)
    (fun field s => (Conversion.of field).isEnum = true → (s.1 field.tag).isSome = true)
    ⟨⟨hstart, hspace⟩, fun _ => id⟩
    (fun _ _ h h' => ⟨h'.1, fun tag htag => h'.2 tag (h.2 tag htag)⟩)
    (fun _ _ _ h hgrows henum => hgrows.2 _ (h henum)) ?_).mono
    fun state h => ⟨h.1.1.1, fun field hfield =>
      h.2 field (List.mem_filter.mp hfield).1 (List.mem_filter.mp hfield).2⟩
  rintro field hfield ⟨enums, space', warnings'⟩ ⟨⟨howned, hyields⟩, -⟩
  rw [nameEnum]
  simp only
  split
  · next henum =>
    refine (claimEnum_yielded space' field.name warnings').bind ?_
    rintro ⟨typeName, space'', warnings''⟩ - ⟨hyields', htype⟩
    refine (nameValues_shape field warnings'').bind ?_
    rintro ⟨given, warnings'''⟩ - hshape
    have hmem : field ∈ enumFields dictionary.spec.fields := List.mem_filter.mpr ⟨hfield, henum⟩
    -- What is yielded stays what others have taken, so `claimEnum` decides as `TypeName` says.
    have htype : TypeName dictionary field.name typeName := by
      simpa only [TypeName, ← hyields] using htype
    refine ⟨⟨⟨howned.update hmem htype hshape, fun name => ?_⟩, fun tag h => ?_⟩, fun _ => ?_⟩
    · rw [← hyields]
      exact hyields' name
    · simp only [Function.update_apply]
      split
      · rfl
      · exact h
    · simp
  · next henum => exact ⟨⟨⟨howned, hyields⟩, fun _ => id⟩, fun h => absurd h henum⟩

end Enums

/-! ## Everything -/

/-- Names that are all there, each of the dictionary's own making. -/
structure Settled (dictionary : Dictionary) (names : Names) : Prop where
  recorded : Recorded dictionary names
  modules : ∀ group ∈ moduleGroups dictionary, HasModule dictionary names group
  accessors : ∀ members ∈ accessorLists dictionary, HasAccessors dictionary names members
  enums : ∀ field ∈ enumFields dictionary.spec.fields, (names.enums field.tag).isSome = true
  values : ∀ tag enum, names.enums tag = some enum → ∀ name ∈ enum.values, IsVariantName name

/-- **Where naming succeeds, it records the names of the dictionary's own making**, one under each
key that emitting looks up. -/
theorem new_settled (warnings : List Warning) :
    Outcome (fun _ => True) (fun result => Settled dictionary result.1)
      (Names.new dictionary warnings) := by
  rw [Names.new]
  refine (claimMessages_yielded _ _ _).bind ?_
  rintro ⟨space, variants⟩ - htaken
  refine ((nameMessageModules_adds recorded_none space).and
    (nameMessageModules_yielded Names.none space)).bind ?_
  rintro ⟨names₁, space₁⟩ - ⟨⟨hadds₁, hown⟩, htaken₁⟩
  have hdeclared : (declaredGroups dictionary).filter inComponent ⊆ moduleGroups dictionary := by
    intro group hgroup
    rw [moduleGroups]
    exact List.mem_append_left _ (List.mem_append_right _ hgroup)
  refine ((nameGroups_adds hadds₁.recorded space₁ hdeclared).and
    (nameGroups_yielded names₁ space₁ _)).bind ?_
  rintro ⟨names₂, space₂⟩ - ⟨⟨hadds₂, hshared⟩, htaken₂⟩
  refine (nameSections_adds hadds₂.recorded).bind ?_
  rintro names₃ - ⟨hadds₃, hsections⟩
  have hyields : ∀ name, name ∈ yielded space₂ ↔ Taken dictionary name := by
    intro name
    have hstart : name ∉ yielded (.withGenerated root) := by
      simp [yielded, Namespace.withGenerated, hasPrecedence]
    simp only at htaken htaken₁ htaken₂
    rw [htaken₂, htaken₁, htaken, or_assoc, or_assoc, or_iff_right hstart, Taken, List.mem_map]
  have henums : names₃.enums = fun _ => none := by
    rw [hadds₃.enums_eq, hadds₂.enums_eq, hadds₁.enums_eq]
    rfl
  rw [henums]
  refine (nameEnums_owned hyields warnings).bind ?_
  rintro ⟨enums, space₄, warnings'⟩ - ⟨howned, hnamed⟩
  -- the enums are recorded all at once
  have hrecorded : Recorded dictionary { names₃ with enums } := by
    intro key name hname
    cases key with
    | enumType tag =>
      obtain ⟨enum, henum, rfl⟩ := Option.map_eq_some_iff.mp hname
      obtain ⟨field, hfield, rfl, htype⟩ := howned.types tag enum henum
      exact .enumType hfield htype
    | message _ => exact hadds₃.recorded _ name hname
    | messageModule _ => exact hadds₃.recorded _ name hname
    | group _ => exact hadds₃.recorded _ name hname
    | accessor _ => exact hadds₃.recorded _ name hname
  refine (nameLists_adds hrecorded message Prod.snd dictionary.messageMembers ?_).bind ?_
  · intro entry hentry
    rw [accessorLists]
    exact List.mem_append_left _ (List.mem_append_right _ (List.mem_map_of_mem hentry))
  rintro names₅ - ⟨hadds₅, hmessages⟩
  refine (nameLists_adds hadds₅.recorded inst Group.members _ ?_).bind ?_
  · intro group hgroup
    rw [accessorLists]
    exact List.mem_append_right _ (List.mem_map_of_mem hgroup)
  rintro names₆ - ⟨hadds₆, hinstances⟩
  have hmodules : ∀ group, HasModule dictionary names₃ group → HasModule dictionary names₆ group :=
    fun group h => hadds₆.hasModule (hadds₅.hasModule h)
  have haccessors : ∀ members, HasAccessors dictionary names₃ members →
      HasAccessors dictionary names₆ members :=
    fun members h => hadds₆.hasAccessors (hadds₅.hasAccessors h)
  have henums₆ : names₆.enums = enums := by rw [hadds₆.enums_eq, hadds₅.enums_eq]
  refine ⟨hadds₆.recorded, fun group hgroup => ?_, fun members hmembers => ?_, ?_, ?_⟩
  · rw [moduleGroups, List.append_assoc, List.mem_append, List.mem_append] at hgroup
    rcases hgroup with hgroup | hgroup | hgroup
    · obtain ⟨entry, hentry, hgroup⟩ := List.mem_flatMap.mp hgroup
      exact hmodules group (hadds₃.hasModule (hadds₂.hasModule (hown entry hentry group hgroup)))
    · exact hmodules group (hadds₃.hasModule (hshared group hgroup))
    · obtain ⟨part, hpart, hgroup⟩ := List.mem_flatMap.mp hgroup
      exact hmodules group ((hsections part hpart).1 group hgroup)
  · rw [accessorLists, List.append_assoc, List.mem_append, List.mem_append] at hmembers
    rcases hmembers with hmembers | hmembers | hmembers
    · obtain ⟨part, hpart, rfl⟩ := List.mem_map.mp hmembers
      exact haccessors _ (hsections part hpart).2
    · obtain ⟨entry, hentry, rfl⟩ := List.mem_map.mp hmembers
      exact hadds₆.hasAccessors (hmessages entry hentry)
    · obtain ⟨group, hgroup, rfl⟩ := List.mem_map.mp hmembers
      exact hinstances group hgroup
  · rw [henums₆]
    exact hnamed
  · rw [henums₆]
    exact howned.values

/-- What is named under a key is what is looked up there. -/
theorem Settled.allLegal_iff (hd : dictionary.Resolved) {names : Names}
    (h : Settled dictionary names) (chars : IdentifierChars) :
    AllLegal chars dictionary names ↔ Spelled chars dictionary := by
  constructor
  · intro hlegal
    refine ⟨hlegal.messages, fun group hgroup => ?_, fun index hindex => ?_,
      fun field hfield name htype => ?_⟩
    -- Every group, field and enum in use has a name, and the record of that name says how its
    -- source spelled it: the key decides which kind of record that is.
    · obtain ⟨name, hname⟩ := Option.isSome_iff_exists.mp (h.modules group hgroup)
      have hgiven := hlegal.groups _ name hname
      generalize hkey : groupKey dictionary.spec.fields group = key at hname
      cases h.recorded key name hname with
      | @group group' hgroup' _ hgroupName =>
        injection hkey with hcontext
        rw [groupSourceName_eq hd (reaches_of_mem_moduleGroups hd hgroup)
          (reaches_of_mem_moduleGroups hd hgroup') hcontext]
        exact (groupName_legal_iff hgroupName).mp hgiven
      | message _ => cases hkey
      | messageModule _ _ => cases hkey
      | accessor _ _ => cases hkey
      | enumType _ _ => cases hkey
    · obtain ⟨members, hmembers, isRequired, hmem⟩ := hindex
      obtain ⟨name, hname⟩ :=
        Option.isSome_iff_exists.mp (h.accessors members hmembers index isRequired hmem)
      have hgiven := hlegal.accessors _ name hname
      generalize hkey : Key.accessor (dictionary.spec.fields.get index).tag = key at hname
      cases h.recorded key name hname with
      | @accessor index' _ _ hmethod =>
        injection hkey with htag
        rw [field_eq_of_tag_eq hd htag]
        exact (methodName_legal_iff hmethod).mp hgiven
      | message _ => cases hkey
      | messageModule _ _ => cases hkey
      | group _ _ => cases hkey
      | enumType _ _ => cases hkey
    · obtain ⟨enum, henum⟩ := Option.isSome_iff_exists.mp (h.enums field hfield)
      have hgiven := hlegal.enumTypes _ enum henum
      have hname : names.get (enumKey field) = some enum.typeName := by
        rw [enumKey, Names.get, henum]
        rfl
      generalize hkey : enumKey field = key at hname
      cases h.recorded key _ hname with
      | @enumType field' hfield' _ htype' =>
        injection hkey with htag
        obtain rfl : field = field' := List.inj_on_of_nodup_map hd.consistent.tags_unique
          (List.mem_of_mem_filter hfield) (List.mem_of_mem_filter hfield') htag
        rwa [htype.det htype']
      | message _ => cases hkey
      | messageModule _ _ => cases hkey
      | group _ _ => cases hkey
      | accessor _ _ => cases hkey
  · intro hspelled
    -- Conversely, every name was recorded for something the dictionary uses.
    refine ⟨hspelled.messages, fun message name hname => ?_, fun context name hname => ?_,
      fun tag name hname => ?_, fun tag enum henum => ?_, fun tag enum henum name hname => ?_⟩
    · cases h.recorded (.messageModule message) name hname with
      | messageModule hentry hmodule =>
        exact messageModuleName_legal hmodule (hspelled.messages _ (List.of_mem_zip hentry).1)
    · cases h.recorded (.group context) name hname with
      | group hgroup hgroupName =>
        exact (groupName_legal_iff hgroupName).mpr (hspelled.groups _ hgroup)
    · cases h.recorded (.accessor tag) name hname with
      | accessor hindex hmethod =>
        exact (methodName_legal_iff hmethod).mpr (hspelled.fields _ hindex)
    · have hname : names.get (.enumType tag) = some enum.typeName := by
        rw [Names.get, henum]
        rfl
      cases h.recorded _ _ hname with
      | enumType hfield htype => exact hspelled.enums _ hfield _ htype
    · exact legal_of_isVariantName (h.values tag enum henum name hname)

end Dictionary

/-- **Where naming a resolved dictionary succeeds, its names are all legal exactly if those that
the dictionary gives are spelled like identifiers.** -/
theorem names_legal_iff {spec : Spec} {dictionary : Dictionary}
    (hresolve : spec.resolve = .ok dictionary) (chars : IdentifierChars) {names : Names}
    {warnings warnings' : List Warning}
    (hnames : Names.new dictionary warnings = .ok (names, warnings')) :
    AllLegal chars dictionary names ↔ Spelled chars dictionary := by
  obtain ⟨_, hd⟩ := resolved_of_resolve hresolve
  have hsettled := (new_settled warnings).of_eq_ok hnames
  exact hsettled.allLegal_iff hd chars

theorem names_legal_orders : ∃ names warnings,
    Names.new ordersDictionary [] = .ok (names, warnings) ∧
      AllLegal asciiChars ordersDictionary names := by
  obtain ⟨names, warnings, hnames, -⟩ := exists_of_renamedBy
    (show renamedBy (Names.new ordersDictionary []) = some [some "Buy2"] by decide +kernel)
  have hresolve : ordersSpec.resolve = .ok ordersDictionary := rfl
  refine ⟨names, warnings, hnames, (names_legal_iff hresolve asciiChars hnames).mpr ⟨?_, ?_, ?_, ?_⟩⟩
  · decide +kernel
  · decide +kernel
  · have hall : ∀ index : Fin ordersDictionary.spec.fields.length,
        FieldSpells asciiChars (ordersDictionary.spec.fields.get index) := by
      decide +kernel
    exact fun index _ => hall index
  · intro field hfield name htype
    have hall : ∀ field ∈ enumFields ordersDictionary.spec.fields,
        Legal asciiChars field.name ∧ Legal asciiChars (field.name ++ "Enum") := by
      decide +kernel
    rcases htype with ⟨_, rfl⟩ | ⟨_, rfl⟩
    · exact (hall field hfield).1
    · exact (hall field hfield).2

/-- A venue's dictionary, with a field whose name starts with a digit. -/
def venueSpec : Spec where
  version := { protocol := .fix, major := 4, minor := 4, servicePack := 0 }
  header := [.field { tag := 8, isRequired := true }]
  messages :=
    [{ name := "Allocation", msgType := "J", category := .app
       members := [.field { tag := 5001, isRequired := true }] }]
  trailer := [.field { tag := 10, isRequired := true }]
  fields :=
    [{ name := "BeginString", tag := 8, dataType := .string, lengthTag := none, values := [] },
     { name := "CheckSum", tag := 10, dataType := .string, lengthTag := none, values := [] },
     { name := "2ndAllocID", tag := 5001, dataType := .string, lengthTag := none, values := [] }]
  components := []

def venueDictionary : Dictionary where
  spec := venueSpec
  header := [.field ⟨0, by decide⟩ true]
  messages := [[.field ⟨2, by decide⟩ true]]
  trailer := [.field ⟨1, by decide⟩ true]

/-- Nothing reports the accessor `2nd_alloc_id`. -/
theorem names_not_legal_venue : venueSpec.resolve = .ok venueDictionary ∧ ∃ names warnings,
    Names.new venueDictionary [] = .ok (names, warnings) ∧
      ∀ chars, ¬ AllLegal chars venueDictionary names := by
  have hresolve : venueSpec.resolve = .ok venueDictionary := rfl
  obtain ⟨names, warnings, hnames, -⟩ := exists_of_renamedBy
    (show renamedBy (Names.new venueDictionary []) = some [] by decide +kernel)
  refine ⟨hresolve, names, warnings, hnames, fun chars hlegal => ?_⟩
  obtain ⟨_, hd⟩ := resolved_of_resolve hresolve
  have hspelled := (((new_settled []).of_eq_ok hnames).allLegal_iff hd chars).mp hlegal
  have hmembers : [.field ⟨2, by decide⟩ true] ∈ accessorLists venueDictionary :=
    List.mem_cons_of_mem _ (List.mem_cons_of_mem _ List.mem_cons_self)
  have hspells : Spells chars "2ndAllocID" :=
    hspelled.fields ⟨2, by decide⟩ ⟨_, hmembers, true, List.mem_singleton_self _⟩
  rcases hspells with ⟨hword, _⟩ | hraw
  · rw [show "2ndAllocID".toList = '2' :: "ndAllocID".toList by simp] at hword
    have hstart := hword.1
    rw [chars.starts_ascii '2' (by decide)] at hstart
    exact absurd hstart (by decide)
  · exact absurd hraw (by decide +kernel)

end Refix.Codegen.Rust
