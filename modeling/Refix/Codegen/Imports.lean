import Refix.Codegen.TableValues

/-!
# Imports of Generated Code

A generated module imports what its accessors return. The generator does not collect this from the
code it writes: it goes through the members of the dictionary once more, into the instances of
groups. Both ways come to the same names, as long as no group is left out.
-/

namespace Refix.Codegen

open Refix.Foundation
open Refix.Dict

/-! ## The fields that are read -/

section Reads

variable (fields : List Field) (wanted : Field → Bool)

mutual

/-- Whether an accessor generated for `members` reads a `wanted` field, inside group instances
too. -/
def readsIn : List (ResolvedMember fields.length) → Bool
  | [] => false
  | member :: members => readsMember member || readsIn members

def readsMember : ResolvedMember fields.length → Bool
  | .field index _ => wanted (fields.get index)
  | .group countFieldIndex delimiterIndex isRequired declaredIn component members =>
    let group : Group fields.length :=
      { countFieldIndex, delimiterIndex, isRequired, declaredIn, component, members }
    isGenerated group && readsIn members

end

theorem readsIn_group (group : Group fields.length) (members : List (ResolvedMember fields.length)) :
    readsIn fields wanted (group.member :: members) =
      ((isGenerated group && readsIn fields wanted group.members) ||
        readsIn fields wanted members) := rfl

end Reads

/-- Whether an accessor generated from `dictionary` reads a `wanted` field. -/
def reads (dictionary : Dictionary) (wanted : Field → Bool) : Bool :=
  readsIn dictionary.spec.fields wanted (dictionary.header ++ dictionary.trailer) ||
    dictionary.messages.any (readsIn dictionary.spec.fields wanted)

/-- Whether an accessor generated from `dictionary` reads a field whose conversion is `wanted`. -/
def uses (dictionary : Dictionary) (wanted : Conversion → Bool) : Bool :=
  reads dictionary fun field => wanted (Conversion.of field)

/-- A warning for each field an accessor generated from `dictionary` reads raw, in the dictionary's
order. -/
def unclaimedTypes (dictionary : Dictionary) : List Warning :=
  ((dictionary.spec.fields.filter fun field => decide (Conversion.of field = .raw)).filter
    fun field => reads dictionary fun read => read.tag == field.tag).map
      fun field => .unclaimedType field.name field.dataType

/-! ## The imports -/

/-- Whether a group stands among the members of the envelope or a message. -/
def hasGroups (dictionary : Dictionary) : Bool :=
  !(Envelope.of dictionary).withGroups.isEmpty || dictionary.messages.any (·.any isGroup)

/-- The names that a condition brings in. -/
def namesIf (condition : Bool) (names : List String) : List String :=
  if condition then names else []

@[simp] theorem mem_namesIf {condition : Bool} {names : List String} {name : String} :
    name ∈ namesIf condition names ↔ condition = true ∧ name ∈ names := by
  cases condition <;> simp [namesIf]

/-- Every accessor of generated code. -/
def Output.accessors {n : ℕ} (output : Output n) : List (Accessor n) :=
  output.items.flatMap (·.accessors) ++ output.views.flatMap (·.accessors) ++
    output.messages.flatMap (·.accessors)

namespace Rust

/-- The names imported from the runtime. -/
def imports (dictionary : Dictionary) : List String :=
  (["Dialect", "InvalidValue", "KnownTags", "RawMessage", "Tag"] ++
    namesIf (hasGroups dictionary) ["GroupTable", "Instances"] ++
    namesIf (uses dictionary fun conversion =>
      conversion == .multipleValues || conversion == .multipleStr) ["MultipleValues"] ++
    namesIf (uses dictionary (· == .decimal)) ["Decimal"] ++
    namesIf (uses dictionary (· == .date)) ["Date"] ++
    namesIf (uses dictionary (· == .monthYear)) ["MonthYear"] ++
    namesIf (uses dictionary (· == .time)) ["Time"] ++
    namesIf (uses dictionary (· == .utcTimestamp)) ["UtcTimestamp"]).insertionSort (· ≤ ·)

/-- The runtime's names in the accessor of a field. -/
def fieldMentions : Conversion → List String
  | .str | .int | .bool | .strEnum | .intEnum => ["InvalidValue", "Tag"]
  | .decimal => ["Decimal", "InvalidValue", "Tag"]
  | .date => ["Date", "InvalidValue", "Tag"]
  | .monthYear => ["MonthYear", "InvalidValue", "Tag"]
  | .time => ["Time", "InvalidValue", "Tag"]
  | .utcTimestamp => ["UtcTimestamp", "InvalidValue", "Tag"]
  | .multipleValues | .multipleStr => ["MultipleValues", "InvalidValue", "Tag"]
  | .bytes | .raw => ["Tag"]

def accessorMentions (fields : List Field) : Accessor fields.length → List String
  | .field index => fieldMentions (Conversion.of (fields.get index))
  | .group _ => ["Instances", "InvalidValue"]

/-- The runtime's names in generated code: in the dialect, in tables and known tags, in accessors,
and in the dispatch of a dictionary with messages. -/
def mentions (fields : List Field) (output : Output fields.length) : List String :=
  ["Dialect"] ++ output.items.flatMap (fun _ => ["GroupTable", "KnownTags", "Tag"]) ++
    output.views.flatMap (fun item => namesIf item.knownTags.isSome ["KnownTags"]) ++
    output.messages.flatMap (fun _ => ["KnownTags", "RawMessage"]) ++
    output.accessors.flatMap (accessorMentions fields) ++
    namesIf (!output.messages.isEmpty) ["RawMessage", "Tag"]

end Rust

namespace Python

/-- A line of the import block: a module, or names of one. -/
inductive Import where
  | whole (name : String)
  | listed (source : String) (names : List String)
  deriving DecidableEq, Repr

def Import.text : Import → String
  | .whole name => "import " ++ name ++ "\n"
  | .listed source names => "from " ++ source ++ " import " ++ ", ".intercalate names ++ "\n"

/-- What a line brings in. -/
def Import.brings : Import → List String
  | .whole name => [name]
  | .listed _ names => names

def importIf (condition : Bool) (line : Import) : List Import :=
  if condition then [line] else []

/-- Whether there are classes: those of messages and views. -/
def hasClasses (dictionary : Dictionary) : Bool :=
  !dictionary.messages.isEmpty || !(Envelope.of dictionary).sections.isEmpty

def hasProperties (dictionary : Dictionary) : Bool :=
  !(Envelope.of dictionary).sections.isEmpty || dictionary.messages.any (!·.isEmpty)

def datetimeNames (dictionary : Dictionary) : List String :=
  namesIf (uses dictionary (· == .date)) ["date"] ++
    namesIf (uses dictionary (· == .utcTimestamp)) ["datetime"] ++
    namesIf (uses dictionary (· == .time)) ["time"]

def refixNames (dictionary : Dictionary) : List String :=
  (["Dialect"] ++ namesIf (!dictionary.messages.isEmpty) ["Codec"] ++
    namesIf (hasGroups dictionary) ["GroupTable"] ++
    namesIf (hasClasses dictionary) ["KnownTags", "RawMessage"] ++
    namesIf (uses dictionary (· == .monthYear)) ["MonthYear"]).insertionSort (· ≤ ·)

/-- The import block, naming only what the module uses. -/
def imports (dictionary : Dictionary) : List (List Import) :=
  [importIf (hasClasses dictionary) (.listed "__future__" ["annotations"]),
    importIf (!(enumFields dictionary.spec.fields).isEmpty) (.whole "enum") ++
      importIf (!(datetimeNames dictionary).isEmpty)
        (.listed "datetime" (datetimeNames dictionary)) ++
      importIf (uses dictionary (· == .decimal)) (.listed "decimal" ["Decimal"]) ++
      importIf (hasProperties dictionary) (.listed "functools" ["cached_property"]) ++
      importIf (hasClasses dictionary) (.listed "typing" ["ClassVar"]),
    importIf (hasGroups dictionary) (.whole "refix") ++
      [.listed "refix" (refixNames dictionary)] ++
      importIf (uses dictionary Conversion.isEnum)
        (.listed "refix.enums" ["Unrecognized", "from_value"])]

/-- The blocks that are not empty, with a blank line between them. -/
def emitImports (dictionary : Dictionary) : String :=
  "\n".intercalate (((imports dictionary).filter (!·.isEmpty)).map fun block =>
    String.join (block.map Import.text))

/-- What the block brings in. The annotations of the future are no name. -/
def imported (dictionary : Dictionary) : List String :=
  ((imports dictionary).tail.flatten).flatMap Import.brings

theorem brings_importIf (condition : Bool) (line : Import) :
    (importIf condition line).flatMap Import.brings = namesIf condition line.brings := by
  cases condition <;> simp [importIf, namesIf]

theorem namesIf_self (names : List String) : namesIf (!names.isEmpty) names = names := by
  cases names <;> rfl

theorem imported_eq (dictionary : Dictionary) : imported dictionary =
    namesIf (!(enumFields dictionary.spec.fields).isEmpty) ["enum"] ++ datetimeNames dictionary ++
      namesIf (uses dictionary (· == .decimal)) ["Decimal"] ++
      namesIf (hasProperties dictionary) ["cached_property"] ++
      namesIf (hasClasses dictionary) ["ClassVar"] ++ namesIf (hasGroups dictionary) ["refix"] ++
      refixNames dictionary ++
      namesIf (uses dictionary Conversion.isEnum) ["Unrecognized", "from_value"] := by
  simp only [imported, imports, List.tail_cons, List.flatten_cons, List.flatten_nil,
    List.flatMap_append, brings_importIf, Import.brings, List.flatMap_cons, List.flatMap_nil,
    List.append_nil, List.append_assoc, namesIf_self]

/-- The imported names in the property of a field. -/
def fieldMentions : Conversion → List String
  | .decimal => ["Decimal"]
  | .date => ["date"]
  | .monthYear => ["MonthYear"]
  | .time => ["time"]
  | .utcTimestamp => ["datetime"]
  | .strEnum | .intEnum | .multipleValues => ["Unrecognized", "from_value"]
  | _ => []

def accessorMentions (fields : List Field) : Accessor fields.length → List String
  | .field index => "cached_property" :: fieldMentions (Conversion.of (fields.get index))
  | .group _ => ["cached_property"]

/-- The imported names in generated code: in the dialect and the enums, in tables and known tags, in
properties, those of the views among them, and behind the classes of messages. -/
def mentions (fields : List Field) (output : Output fields.length) : List String :=
  ["Dialect"] ++ namesIf (!output.enums.isEmpty) ["enum"] ++
    output.items.flatMap (fun _ => ["ClassVar", "GroupTable", "KnownTags", "refix"]) ++
    output.views.flatMap (fun item =>
      "RawMessage" :: namesIf item.knownTags.isSome ["ClassVar", "KnownTags"]) ++
    output.messages.flatMap (fun _ => ["ClassVar", "KnownTags", "RawMessage"] ++
      namesIf (!output.views.isEmpty) ["cached_property"]) ++
    output.accessors.flatMap (accessorMentions fields) ++
    namesIf (!output.messages.isEmpty) ["RawMessage", "Codec"]

end Python

/-! ## What is read is what accessors read -/

/-- No group is declared directly in another group's instance. -/
def AllGenerated (dictionary : Dictionary) : Prop :=
  ∀ group ∈ declaredGroups dictionary, isGenerated group = true

theorem AllGenerated.isGenerated {dictionary : Dictionary} (h : AllGenerated dictionary)
    (hd : dictionary.Resolved) (hmessages : (dictionary.spec.messages.map Message.name).Nodup)
    (hfields : (dictionary.spec.fields.map Field.name).Nodup)
    (group : Group dictionary.spec.fields.length) (hgroup : dictionary.Reaches group) :
    isGenerated group = true := by
  obtain ⟨declared, hdeclared, hsame⟩ := exists_declaredGroup hd hmessages hfields hgroup
  have hgenerated := h declared hdeclared
  rwa [Codegen.isGenerated, ← hsame.declaredIn_eq] at hgenerated

section Readings

variable {dictionary : Dictionary} {shared : List (Group dictionary.spec.fields.length)}
  {group : Group dictionary.spec.fields.length} {wanted : Field → Bool}
  {members : List (ResolvedMember dictionary.spec.fields.length)}

/-- A list holds a field itself. -/
def HoldsField (members : List (ResolvedMember dictionary.spec.fields.length))
    (wanted : Field → Bool) : Prop :=
  ∃ index isRequired, ResolvedMember.field index isRequired ∈ members ∧
    wanted (dictionary.spec.fields.get index) = true

theorem HoldsField.cons {member : ResolvedMember dictionary.spec.fields.length}
    (h : HoldsField members wanted) : HoldsField (member :: members) wanted := by
  obtain ⟨index, isRequired, hmem, hwanted⟩ := h
  exact ⟨index, isRequired, List.mem_cons_of_mem _ hmem, hwanted⟩

theorem readsIn_of_holds (h : HoldsField members wanted) :
    readsIn dictionary.spec.fields wanted members = true := by
  obtain ⟨index, isRequired, hmem, hwanted⟩ := h
  induction members with
  | nil => cases hmem
  | cons member members ih =>
    rw [readsIn, Bool.or_eq_true]
    rcases List.mem_cons.mp hmem with rfl | hmem
    · exact Or.inl hwanted
    · exact Or.inr (ih hmem)

theorem readsIn_of_group (hmem : group.member ∈ members) (hgenerated : isGenerated group = true)
    (h : readsIn dictionary.spec.fields wanted group.members = true) :
    readsIn dictionary.spec.fields wanted members = true := by
  induction members with
  | nil => cases hmem
  | cons member members ih =>
    rcases List.mem_cons.mp hmem with rfl | hmem
    · rw [readsIn_group, hgenerated, h]
      rfl
    · rw [readsIn, ih hmem, Bool.or_true]

theorem readsIn_append (front back : List (ResolvedMember dictionary.spec.fields.length)) :
    readsIn dictionary.spec.fields wanted (front ++ back) =
      (readsIn dictionary.spec.fields wanted front ||
        readsIn dictionary.spec.fields wanted back) := by
  induction front with
  | nil => rfl
  | cons member front ih => rw [List.cons_append, readsIn, readsIn, ih, Bool.or_assoc]

/-- What is read in one of the dictionary's lists is read. -/
theorem reads_of_hasList {context : MemberContext} (hlist : dictionary.HasList context members)
    (h : readsIn dictionary.spec.fields wanted members = true) : reads dictionary wanted = true := by
  rw [reads, readsIn_append, Bool.or_eq_true, Bool.or_eq_true]
  cases hlist with
  | header => exact Or.inl (Or.inl h)
  | trailer => exact Or.inl (Or.inr h)
  | message hentry =>
    right
    exact List.any_eq_true.mpr ⟨_, (List.of_mem_zip hentry).2, h⟩

/-- Where every group has types of its own, what is read in an instance is read. -/
theorem reads_of_reaches
    (hall : ∀ group, dictionary.Reaches group → isGenerated group = true) (hgroup : dictionary.Reaches group)
    (h : readsIn dictionary.spec.fields wanted group.members = true) :
    reads dictionary wanted = true := by
  induction hgroup with
  | root hlist hmem =>
    have hgenerated := hall _ (.root hlist hmem)
    exact reads_of_hasList hlist (readsIn_of_group hmem hgenerated h)
  | nested hgroup hmem ih =>
    have hgenerated := hall _ (.nested hgroup hmem)
    exact ih (readsIn_of_group hmem hgenerated h)

/-- What is read is held by the list itself, or by the instances of a group with types of its
own. -/
theorem holds_of_readsIn (members : List (ResolvedMember dictionary.spec.fields.length)) :
    (∀ group : Group dictionary.spec.fields.length, group.member ∈ members →
      dictionary.Reaches group) →
    readsIn dictionary.spec.fields wanted members = true →
    HoldsField members wanted ∨ ∃ group, dictionary.Reaches group ∧ isGenerated group = true ∧
      HoldsField group.members wanted := by
  induction members using members_of_groups_induction with
  | nil =>
    intro _ h
    cases h
  | field index isRequired members ih =>
    intro hreaches h
    rw [readsIn, readsMember, Bool.or_eq_true] at h
    rcases h with h | h
    · exact Or.inl ⟨index, isRequired, List.mem_cons_self, h⟩
    · exact (ih (fun group hmem => hreaches group (List.mem_cons_of_mem _ hmem)) h).imp_left
        HoldsField.cons
  | group group members ihi ihm =>
    intro hreaches h
    have hgroup := hreaches group List.mem_cons_self
    rw [readsIn_group, Bool.or_eq_true, Bool.and_eq_true] at h
    rcases h with ⟨hgenerated, h⟩ | h
    · right
      rcases ihi (fun inner hmem => .nested hgroup hmem) h with hholds | hdeeper
      · exact ⟨group, hgroup, hgenerated, hholds⟩
      · exact hdeeper
    · exact (ihm (fun other hmem => hreaches other (List.mem_cons_of_mem _ hmem)) h).imp_left
        HoldsField.cons

/-- An accessor of the list's own fields. -/
theorem field_mem_accessors {index : Fin dictionary.spec.fields.length} :
    .field index ∈ members.map emitAccessor ↔ ∃ isRequired, .field index isRequired ∈ members := by
  rw [List.mem_map]
  constructor
  · rintro ⟨member, hmem, hemit⟩
    cases member with
    | field other isRequired =>
      cases hemit
      exact ⟨isRequired, hmem⟩
    | group => cases hemit
  · rintro ⟨isRequired, hmem⟩
    exact ⟨_, hmem, rfl⟩

theorem field_mem_instanceAccessors {index : Fin dictionary.spec.fields.length} :
    .field index ∈ members.filterMap emitInstanceAccessor ↔
      ∃ isRequired, .field index isRequired ∈ members := by
  rw [List.mem_filterMap]
  constructor
  · rintro ⟨member, hmem, hemit⟩
    cases member with
    | field other isRequired =>
      cases hemit
      exact ⟨isRequired, hmem⟩
    | group =>
      rw [emitInstanceAccessor, emitAccessor] at hemit
      simp only at hemit
      split at hemit <;> cases hemit
  · rintro ⟨isRequired, hmem⟩
    exact ⟨_, hmem, rfl⟩

/-- The accessors of fields stand for what lists hold: those of messages, of sections, and of the
instances of groups with items. -/
theorem mem_accessors (hd : dictionary.Resolved) (hshared : SharedOk dictionary shared)
    {index : Fin dictionary.spec.fields.length}
    (h : .field index ∈ (emit dictionary shared).accessors) :
    (∃ context members isRequired, dictionary.HasList context members ∧
      .field index isRequired ∈ members) ∨
    ∃ group isRequired, dictionary.Reaches group ∧ .field index isRequired ∈ group.members := by
  simp only [Output.accessors, List.mem_append, List.mem_flatMap] at h
  rcases h with (⟨item, hitem, h⟩ | ⟨item, hitem, h⟩) | ⟨item, hitem, h⟩
  · obtain ⟨group, hgroup, _, rfl⟩ := exists_of_mem_items hd hshared hitem
    obtain ⟨isRequired, hmem⟩ := field_mem_instanceAccessors.mp h
    exact Or.inr ⟨group, isRequired, hgroup, hmem⟩
  · obtain ⟨part, _, rfl⟩ := List.mem_map.mp hitem
    obtain ⟨isRequired, hmem⟩ := field_mem_accessors.mp h
    exact Or.inl ⟨_, _, isRequired, hasList_section dictionary part, hmem⟩
  · obtain ⟨entry, hentry, rfl⟩ := List.mem_map.mp hitem
    obtain ⟨isRequired, hmem⟩ := field_mem_accessors.mp h
    exact Or.inl ⟨_, _, isRequired, .message hentry, hmem⟩

/-- A message stands with its members. -/
theorem exists_message (hd : dictionary.Resolved)
    (hmem : members ∈ dictionary.messages) :
    ∃ message, (message, members) ∈ dictionary.messageMembers := by
  obtain ⟨position, hposition, rfl⟩ := List.mem_iff_getElem.mp hmem
  have hlength : position < dictionary.spec.messages.length := hd.messages.length_eq ▸ hposition
  refine ⟨dictionary.spec.messages[position], List.mem_iff_getElem.mpr ⟨position, ?_, ?_⟩⟩
  · rw [Dictionary.messageMembers, List.length_zip]
    exact lt_min hlength hposition
  · simp [Dictionary.messageMembers]

/-- A list of the dictionary has its accessors in the generated code. -/
theorem accessors_of_hasList {context : MemberContext} (hlist : dictionary.HasList context members)
    (hne : members ≠ []) :
    ∀ accessor ∈ members.map emitAccessor, accessor ∈ (emit dictionary shared).accessors := by
  intro accessor haccessor
  have hview : ∀ part : Section, part.members dictionary = members →
      accessor ∈ (emit dictionary shared).accessors := by
    rintro part rfl
    have hpart : part ∈ (Envelope.of dictionary).sections :=
      List.mem_filter.mpr ⟨by cases part <;> decide, by simpa using hne⟩
    simp only [Output.accessors, List.mem_append]
    exact Or.inl (Or.inr (List.mem_flatMap.mpr ⟨_, List.mem_map_of_mem hpart, haccessor⟩))
  cases hlist with
  | header => exact hview .header rfl
  | trailer => exact hview .trailer rfl
  | message hentry =>
    simp only [Output.accessors, List.mem_append]
    exact Or.inr (List.mem_flatMap.mpr ⟨_, List.mem_map_of_mem hentry, haccessor⟩)

/-- The accessors of a group's instances are in the generated code. -/
theorem accessors_of_reaches (hd : dictionary.Resolved)
    (hmessages : (dictionary.spec.messages.map Message.name).Nodup)
    (hfields : (dictionary.spec.fields.map Field.name).Nodup)
    (hshared : SharedOk dictionary shared) (hall : SharedAll dictionary shared)
    (hgroup : dictionary.Reaches group) (hgenerated : isGenerated group = true) :
    ∀ accessor ∈ group.members.filterMap emitInstanceAccessor,
      accessor ∈ (emit dictionary shared).accessors := by
  intro accessor haccessor
  obtain ⟨item, hitems, hcontext⟩ := exists_at hd hmessages hfields hall hgroup hgenerated
  obtain ⟨named, hnamed, _, rfl⟩ := exists_of_mem_items hd hshared hitems
  have hsame := hnamed.same hd hmessages hfields hgroup hcontext
  rw [← hsame.members_eq] at haccessor
  simp only [Output.accessors, List.mem_append]
  exact Or.inl (Or.inl (List.mem_flatMap.mpr ⟨_, hitems, haccessor⟩))

/-- **What is read is what an accessor reads.** -/
theorem exists_accessor_of_reads (hd : dictionary.Resolved)
    (hmessages : (dictionary.spec.messages.map Message.name).Nodup)
    (hfields : (dictionary.spec.fields.map Field.name).Nodup)
    (hshared : SharedOk dictionary shared) (hall : SharedAll dictionary shared)
    (h : reads dictionary wanted = true) :
    ∃ index, .field index ∈ (emit dictionary shared).accessors ∧
      wanted (dictionary.spec.fields.get index) = true := by
  have hlist : ∀ {context members}, dictionary.HasList context members →
      readsIn dictionary.spec.fields wanted members = true →
      ∃ index, .field index ∈ (emit dictionary shared).accessors ∧
        wanted (dictionary.spec.fields.get index) = true := by
    intro context members hlist h
    rcases holds_of_readsIn members (fun group hmem => .root hlist hmem) h with hholds | hholds
    · obtain ⟨index, isRequired, hmem, hwanted⟩ := hholds
      refine ⟨index, ?_, hwanted⟩
      exact accessors_of_hasList hlist (List.ne_nil_of_mem hmem) _
        (field_mem_accessors.mpr ⟨isRequired, hmem⟩)
    · obtain ⟨group, hgroup, hgenerated, index, isRequired, hmem, hwanted⟩ := hholds
      refine ⟨index, ?_, hwanted⟩
      exact accessors_of_reaches hd hmessages hfields hshared hall hgroup hgenerated _
        (field_mem_instanceAccessors.mpr ⟨isRequired, hmem⟩)
  rw [reads, readsIn_append, Bool.or_eq_true, Bool.or_eq_true] at h
  rcases h with (h | h) | h
  · exact hlist .header h
  · exact hlist .trailer h
  · obtain ⟨members, hmem, h⟩ := List.any_eq_true.mp h
    obtain ⟨message, hentry⟩ := exists_message hd hmem
    exact hlist (.message hentry) h

/-- **Accessors read what is read**, where every group has types of its own. -/
theorem reads_of_accessor (hd : dictionary.Resolved) (hshared : SharedOk dictionary shared)
    (hgenerated : ∀ group, dictionary.Reaches group → isGenerated group = true) {index : Fin dictionary.spec.fields.length}
    (h : .field index ∈ (emit dictionary shared).accessors)
    (hwanted : wanted (dictionary.spec.fields.get index) = true) :
    reads dictionary wanted = true := by
  rcases mem_accessors hd hshared h with ⟨context, members, isRequired, hlist, hmem⟩ |
    ⟨group, isRequired, hgroup, hmem⟩
  · exact reads_of_hasList hlist (readsIn_of_holds ⟨index, isRequired, hmem, hwanted⟩)
  · exact reads_of_reaches hgenerated hgroup (readsIn_of_holds ⟨index, isRequired, hmem, hwanted⟩)

/-! ## Groups -/

/-- A list of the dictionary that holds a group brings in the names of groups. -/
theorem hasGroups_of_hasList {context : MemberContext} (hlist : dictionary.HasList context members)
    (hmem : group.member ∈ members) : hasGroups dictionary = true := by
  have hsection : ∀ part : Section, group.member ∈ part.members dictionary →
      hasGroups dictionary = true := by
    intro part hpart
    have hwith := List.ne_nil_of_mem (mem_withGroups.mpr ⟨group, hpart⟩)
    simp [hasGroups, hwith]
  cases hlist with
  | header => exact hsection .header hmem
  | trailer => exact hsection .trailer hmem
  | message hentry =>
    rw [hasGroups, Bool.or_eq_true]
    right
    exact List.any_eq_true.mpr ⟨_, (List.of_mem_zip hentry).2,
      List.any_eq_true.mpr ⟨_, hmem, rfl⟩⟩

theorem hasGroups_of_reaches (hgroup : dictionary.Reaches group) :
    hasGroups dictionary = true := by
  induction hgroup with
  | root hlist hmem => exact hasGroups_of_hasList hlist hmem
  | nested _ _ ih => exact ih

/-- A dictionary with messages has items for them. -/
theorem exists_messageItem (hd : dictionary.Resolved) (hne : dictionary.spec.messages ≠ []) :
    ∃ item, item ∈ (emit dictionary shared).messages := by
  have hlength : dictionary.messages.length = dictionary.spec.messages.length :=
    hd.messages.length_eq.symm
  have hmessages : dictionary.messages ≠ [] := by
    intro hnil
    rw [hnil, List.length_nil] at hlength
    exact hne (List.eq_nil_of_length_eq_zero hlength.symm)
  obtain ⟨members, hmembers⟩ := List.exists_mem_of_ne_nil _ hmessages
  obtain ⟨message, hentry⟩ := exists_message hd hmembers
  exact ⟨_, List.mem_map_of_mem hentry⟩

/-- A list with members brings in classes and properties. -/
theorem Python.hasClasses_of_hasList {context : MemberContext}
    (hlist : dictionary.HasList context members) (hne : members ≠ []) :
    Python.hasClasses dictionary = true ∧ Python.hasProperties dictionary = true := by
  have hsection : ∀ part : Section, part.members dictionary ≠ [] →
      Python.hasClasses dictionary = true ∧ Python.hasProperties dictionary = true := by
    intro part hpart
    have hmem : part ∈ (Envelope.of dictionary).sections :=
      List.mem_filter.mpr ⟨by cases part <;> decide, by simpa using hpart⟩
    have hsections : (!(Envelope.of dictionary).sections.isEmpty) = true := by
      simpa using List.ne_nil_of_mem hmem
    rw [hasClasses, hasProperties, hsections, Bool.or_true, Bool.true_or]
    exact ⟨rfl, rfl⟩
  cases hlist with
  | header => exact hsection .header hne
  | trailer => exact hsection .trailer hne
  | message hentry =>
    have hmem := (List.of_mem_zip hentry).2
    have hmessages : (!dictionary.messages.isEmpty) = true := by
      simpa using List.ne_nil_of_mem hmem
    rw [hasClasses, hasProperties, hmessages, Bool.true_or, Bool.or_eq_true]
    exact ⟨rfl, Or.inr (List.any_eq_true.mpr ⟨_, hmem, by simpa using hne⟩)⟩

theorem Python.hasClasses_of_reaches (hgroup : dictionary.Reaches group) :
    Python.hasClasses dictionary = true ∧ Python.hasProperties dictionary = true := by
  induction hgroup with
  | root hlist hmem => exact Python.hasClasses_of_hasList hlist (List.ne_nil_of_mem hmem)
  | nested _ _ ih => exact ih

theorem Python.hasClasses_of_view {item : ViewItem dictionary.spec.fields.length}
    (hitem : item ∈ (emit dictionary shared).views) : Python.hasClasses dictionary = true := by
  obtain ⟨part, hpart, rfl⟩ := List.mem_map.mp hitem
  have hne : part.members dictionary ≠ [] := by simpa using (List.mem_filter.mp hpart).2
  exact (Python.hasClasses_of_hasList (hasList_section dictionary part) hne).1

theorem Python.hasMessages_of_item {item : MessageItem dictionary.spec.fields.length}
    (hitem : item ∈ (emit dictionary shared).messages) : (!dictionary.messages.isEmpty) = true := by
  obtain ⟨entry, hentry, rfl⟩ := List.mem_map.mp hitem
  simpa using List.ne_nil_of_mem (List.of_mem_zip hentry).2

theorem Python.hasClasses_of_message {item : MessageItem dictionary.spec.fields.length}
    (hitem : item ∈ (emit dictionary shared).messages) : Python.hasClasses dictionary = true := by
  rw [hasClasses, Python.hasMessages_of_item hitem, Bool.true_or]

/-- An accessor stands for a member. -/
theorem Python.hasProperties_of_accessor (hd : dictionary.Resolved)
    (hshared : SharedOk dictionary shared) {accessor : Accessor dictionary.spec.fields.length}
    (h : accessor ∈ (emit dictionary shared).accessors) :
    Python.hasProperties dictionary = true := by
  simp only [Output.accessors, List.mem_append, List.mem_flatMap] at h
  rcases h with (⟨item, hitem, h⟩ | ⟨item, hitem, h⟩) | ⟨item, hitem, h⟩
  · obtain ⟨group, hgroup, _, rfl⟩ := exists_of_mem_items hd hshared hitem
    exact (Python.hasClasses_of_reaches hgroup).2
  · obtain ⟨part, _, rfl⟩ := List.mem_map.mp hitem
    obtain ⟨member, hmem, _⟩ := List.mem_map.mp h
    exact (Python.hasClasses_of_hasList (hasList_section dictionary part)
      (List.ne_nil_of_mem hmem)).2
  · obtain ⟨entry, hentry, rfl⟩ := List.mem_map.mp hitem
    obtain ⟨member, hmem, _⟩ := List.mem_map.mp h
    exact (Python.hasClasses_of_hasList (.message hentry) (List.ne_nil_of_mem hmem)).2

theorem exists_hasList_of_hasGroups (hd : dictionary.Resolved)
    (h : hasGroups dictionary = true) :
    ∃ context members, ∃ group : Group dictionary.spec.fields.length,
      dictionary.HasList context members ∧ group.member ∈ members := by
  rw [hasGroups, Bool.or_eq_true] at h
  rcases h with h | h
  · obtain ⟨part, hpart⟩ := List.exists_mem_of_ne_nil _ (by simpa using h)
    obtain ⟨group, hgroup⟩ := mem_withGroups.mp hpart
    exact ⟨_, _, group, hasList_section dictionary part, hgroup⟩
  · obtain ⟨members, hmem, hany⟩ := List.any_eq_true.mp h
    obtain ⟨member, hmember, hgroup⟩ := List.any_eq_true.mp hany
    obtain ⟨message, hentry⟩ := exists_message hd hmem
    cases member with
    | field => cases hgroup
    | group countFieldIndex delimiterIndex isRequired declaredIn component inst =>
      exact ⟨_, _, ⟨countFieldIndex, delimiterIndex, isRequired, declaredIn, component, inst⟩,
        .message hentry, hmember⟩

/-- An accessor of a group is that of a group which is reached. -/
theorem hasGroups_of_accessor (hd : dictionary.Resolved) (hshared : SharedOk dictionary shared)
    (h : .group group ∈ (emit dictionary shared).accessors) : hasGroups dictionary = true := by
  simp only [Output.accessors, List.mem_append, List.mem_flatMap] at h
  rcases h with (⟨item, hitem, h⟩ | ⟨item, hitem, h⟩) | ⟨item, hitem, h⟩
  · obtain ⟨owner, howner, _, rfl⟩ := exists_of_mem_items hd hshared hitem
    exact hasGroups_of_reaches howner
  · obtain ⟨part, _, rfl⟩ := List.mem_map.mp hitem
    exact hasGroups_of_hasList (hasList_section dictionary part) (member_of_accessor h)
  · obtain ⟨entry, hentry, rfl⟩ := List.mem_map.mp hitem
    exact hasGroups_of_hasList (.message hentry) (member_of_accessor h)

/-- Where there is a group, there are an item and an accessor of one. -/
theorem exists_group_of_hasGroups (hd : dictionary.Resolved)
    (hmessages : (dictionary.spec.messages.map Message.name).Nodup)
    (hfields : (dictionary.spec.fields.map Field.name).Nodup)
    (hall : SharedAll dictionary shared) (h : hasGroups dictionary = true) :
    (∃ item, item ∈ (emit dictionary shared).items) ∧
      ∃ group, .group group ∈ (emit dictionary shared).accessors := by
  obtain ⟨context, members, group, hlist, hmem⟩ := exists_hasList_of_hasGroups hd h
  obtain ⟨item, hitem, _⟩ := exists_at hd hmessages hfields hall (.root hlist hmem)
    (isGenerated_of_hasList hd hlist hmem)
  refine ⟨⟨item, hitem⟩, group, ?_⟩
  apply accessors_of_hasList hlist (List.ne_nil_of_mem hmem)
  exact List.mem_map.mpr ⟨_, hmem, rfl⟩

/-! ## Imports are mentions -/

/-- What generated code imports is what it mentions, but for names that are imported unasked. -/
structure ImportsExact (imports mentions unasked : List String) : Prop where
  complete : ∀ name ∈ mentions, name ∈ imports
  used : ∀ name ∈ imports, name ∈ mentions ∨ name ∈ unasked

variable {fields : List Field} {output : Output dictionary.spec.fields.length} {name : String}

/-- Names that an accessor mentions are mentioned. -/
theorem Rust.mem_mentions_of_accessor {accessor : Accessor dictionary.spec.fields.length}
    (h : accessor ∈ output.accessors)
    (hname : name ∈ Rust.accessorMentions dictionary.spec.fields accessor) :
    name ∈ Rust.mentions dictionary.spec.fields output := by
  simp only [Rust.mentions, List.mem_append, List.mem_flatMap]
  exact Or.inl (Or.inr ⟨accessor, h, hname⟩)

theorem Python.mem_mentions_of_accessor {accessor : Accessor dictionary.spec.fields.length}
    (h : accessor ∈ output.accessors)
    (hname : name ∈ Python.accessorMentions dictionary.spec.fields accessor) :
    name ∈ Python.mentions dictionary.spec.fields output := by
  simp only [Python.mentions, List.mem_append, List.mem_flatMap]
  exact Or.inl (Or.inr ⟨accessor, h, hname⟩)

/-- What the accessor of a field mentions is imported, where its conversion is in use. -/
theorem Rust.mem_imports_of_field {conversion : Conversion}
    (huses : ∀ wanted : Conversion → Bool, wanted conversion = true →
      uses dictionary wanted = true) (h : name ∈ Rust.fieldMentions conversion) :
    name ∈ Rust.imports dictionary := by
  simp only [Rust.imports, List.mem_insertionSort, List.mem_append, mem_namesIf]
  cases conversion <;> simp only [Rust.fieldMentions, List.mem_cons, List.not_mem_nil, or_false] at h
  all_goals rcases h with rfl | rfl | rfl | rfl
  all_goals simp [huses]

theorem Python.mem_imported_of_field {conversion : Conversion}
    (huses : ∀ wanted : Conversion → Bool, wanted conversion = true →
      uses dictionary wanted = true) (h : name ∈ Python.fieldMentions conversion) :
    name ∈ Python.imported dictionary := by
  have henum : conversion.isEnum = true → uses dictionary Conversion.isEnum = true := huses _
  simp only [Python.imported_eq, Python.datetimeNames, Python.refixNames, List.mem_insertionSort,
    List.mem_append, mem_namesIf]
  cases conversion <;>
    simp only [Python.fieldMentions, List.mem_cons, List.not_mem_nil, or_false] at h
  all_goals rcases h with rfl | rfl
  all_goals simp [huses]
  all_goals exact henum rfl

section Exact

variable (hd : dictionary.Resolved) (hmessages : (dictionary.spec.messages.map Message.name).Nodup)
  (hfields : (dictionary.spec.fields.map Field.name).Nodup)
  (hshared : SharedOk dictionary shared) (hall : SharedAll dictionary shared)

include hd hmessages hfields hshared hall

/-- A conversion that is in use is that of some accessor. -/
theorem exists_accessor_of_uses {wanted : Conversion → Bool} (h : uses dictionary wanted = true) :
    ∃ index, .field index ∈ (emit dictionary shared).accessors ∧
      wanted (Conversion.of (dictionary.spec.fields.get index)) = true :=
  exists_accessor_of_reads hd hmessages hfields hshared hall h

theorem Rust.mem_mentions_of_uses {wanted : Conversion → Bool}
    (hname : ∀ conversion, wanted conversion = true → name ∈ Rust.fieldMentions conversion)
    (h : uses dictionary wanted = true) :
    name ∈ Rust.mentions dictionary.spec.fields (emit dictionary shared) := by
  obtain ⟨index, haccessor, hwanted⟩ :=
    exists_accessor_of_uses hd hmessages hfields hshared hall h
  exact Rust.mem_mentions_of_accessor haccessor (hname _ hwanted)

theorem Python.mem_mentions_of_uses {wanted : Conversion → Bool}
    (hname : ∀ conversion, wanted conversion = true → name ∈ Python.fieldMentions conversion)
    (h : uses dictionary wanted = true) :
    name ∈ Python.mentions dictionary.spec.fields (emit dictionary shared) := by
  obtain ⟨index, haccessor, hwanted⟩ :=
    exists_accessor_of_uses hd hmessages hfields hshared hall h
  exact Python.mem_mentions_of_accessor haccessor (List.mem_cons_of_mem _ (hname _ hwanted))

omit hmessages hfields hall in
/-- Every name that is mentioned is imported, where every group has types of its own. -/
theorem Rust.mentions_imported
    (hgenerated : ∀ group, dictionary.Reaches group → isGenerated group = true) :
    ∀ name ∈ Rust.mentions dictionary.spec.fields (emit dictionary shared),
      name ∈ Rust.imports dictionary := by
  intro name h
  have hbase : ∀ names : List String,
      names ⊆ ["Dialect", "InvalidValue", "KnownTags", "RawMessage", "Tag"] → name ∈ names →
      name ∈ Rust.imports dictionary := by
    intro names hsub hname
    simp only [Rust.imports, List.mem_insertionSort, List.mem_append]
    simp only [hsub hname, true_or]
  have hgroups : hasGroups dictionary = true → name ∈ ["GroupTable", "Instances"] →
      name ∈ Rust.imports dictionary := by
    intro hcondition hname
    simp only [Rust.imports, List.mem_insertionSort, List.mem_append, mem_namesIf]
    simp only [hcondition, hname, true_and, true_or, or_true]
  simp only [Rust.mentions, List.mem_append, List.mem_flatMap, mem_namesIf] at h
  -- One case for each part of the file: what every file has, its groups, views, messages, accessors
  -- and dispatch.
  rcases h with ((((h | ⟨item, hitem, h⟩) | ⟨item, _, -, h⟩) | ⟨item, _, h⟩) |
    ⟨accessor, haccessor, h⟩) | ⟨-, h⟩
  · exact hbase _ (by simp) h
  · obtain ⟨group, hgroup, _, rfl⟩ := exists_of_mem_items hd hshared hitem
    rcases List.mem_cons.mp h with rfl | h
    · exact hgroups (hasGroups_of_reaches hgroup) List.mem_cons_self
    · exact hbase _ (by simp) h
  · exact hbase _ (by simp) h
  · exact hbase _ (by simp) h
  · cases accessor with
    | field index =>
      refine Rust.mem_imports_of_field (fun wanted hwanted => ?_) h
      exact reads_of_accessor hd hshared hgenerated haccessor hwanted
    | group group =>
      rcases List.mem_cons.mp h with rfl | h
      · exact hgroups (hasGroups_of_accessor hd hshared haccessor) (by simp)
      · exact hbase _ (by simp) h
  · exact hbase _ (by simp) h

/-- Where there are messages, every imported name but that of the error is mentioned. -/
theorem Rust.imports_mentioned (hne : dictionary.spec.messages ≠ []) :
    ∀ name ∈ Rust.imports dictionary,
      name ∈ Rust.mentions dictionary.spec.fields (emit dictionary shared) ∨
        name ∈ ["InvalidValue"] := by
  intro name h
  obtain ⟨item, hitem⟩ : ∃ item, item ∈ (emit dictionary shared).messages :=
    exists_messageItem hd hne
  have hmessage : name ∈ ["KnownTags", "RawMessage"] →
      name ∈ Rust.mentions dictionary.spec.fields (emit dictionary shared) := by
    intro hname
    simp only [Rust.mentions, List.mem_append, List.mem_flatMap]
    exact Or.inl (Or.inl (Or.inr ⟨item, hitem, hname⟩))
  have hdispatch : name = "Tag" →
      name ∈ Rust.mentions dictionary.spec.fields (emit dictionary shared) := by
    rintro rfl
    have hnonempty : (!(emit dictionary shared).messages.isEmpty) = true := by
      simpa using List.ne_nil_of_mem hitem
    simp only [Rust.mentions, List.mem_append, mem_namesIf]
    exact Or.inr ⟨hnonempty, by simp⟩
  -- A name imported because some field is converted is mentioned where that field is read.
  have huses : ∀ wanted : Conversion → Bool, uses dictionary wanted = true →
      (∀ conversion, wanted conversion = true → name ∈ Rust.fieldMentions conversion) →
      name ∈ Rust.mentions dictionary.spec.fields (emit dictionary shared) :=
    fun wanted h hname =>
      Rust.mem_mentions_of_uses hd hmessages hfields hshared hall hname h
  simp only [Rust.imports, List.mem_insertionSort, List.mem_append, mem_namesIf, List.mem_cons,
    List.not_mem_nil, or_false] at h
  -- One case for each line of the imports: the names always there, those of groups, and one for
  -- each conversion.
  rcases h with ((((((hbase | ⟨hgroups, hname⟩) | ⟨h, rfl⟩) | ⟨h, rfl⟩) | ⟨h, rfl⟩) | ⟨h, rfl⟩) |
    ⟨h, rfl⟩) | ⟨h, rfl⟩
  · rcases hbase with rfl | rfl | rfl | rfl | rfl
    · exact Or.inl (by simp [Rust.mentions])
    · exact Or.inr List.mem_cons_self
    · exact Or.inl (hmessage (by simp))
    · exact Or.inl (hmessage (by simp))
    · exact Or.inl (hdispatch rfl)
  · left
    obtain ⟨⟨item, hitem⟩, group, haccessor⟩ :=
      exists_group_of_hasGroups hd hmessages hfields hall hgroups
    rcases hname with rfl | rfl
    · simp only [Rust.mentions, List.mem_append, List.mem_flatMap]
      exact Or.inl (Or.inl (Or.inl (Or.inl (Or.inr ⟨item, hitem, by simp⟩))))
    · exact Rust.mem_mentions_of_accessor haccessor List.mem_cons_self
  · refine Or.inl (huses _ h fun conversion hwanted => ?_)
    revert hwanted
    cases conversion <;> simp [Rust.fieldMentions]
  all_goals
    refine Or.inl (huses _ h fun conversion hwanted => ?_)
    obtain rfl := eq_of_beq hwanted
    simp [Rust.fieldMentions]

omit hmessages hfields hall in
theorem Python.mentions_imported
    (hgenerated : ∀ group, dictionary.Reaches group → isGenerated group = true) :
    ∀ name ∈ Python.mentions dictionary.spec.fields (emit dictionary shared),
      name ∈ Python.imported dictionary := by
  intro name h
  have hgroups : hasGroups dictionary = true → name ∈ ["GroupTable", "refix"] →
      name ∈ Python.imported dictionary := by
    intro hcondition hname
    simp only [Python.imported_eq, Python.refixNames, List.mem_append, List.mem_insertionSort,
      mem_namesIf]
    rcases List.mem_cons.mp hname with rfl | hname <;> simp_all
  have hclasses : Python.hasClasses dictionary = true →
      name ∈ ["ClassVar", "KnownTags", "RawMessage"] → name ∈ Python.imported dictionary := by
    intro hcondition hname
    simp only [Python.imported_eq, Python.refixNames, List.mem_append, List.mem_insertionSort,
      mem_namesIf]
    rcases List.mem_cons.mp hname with rfl | hname <;> simp_all
  have hproperties : Python.hasProperties dictionary = true → name = "cached_property" →
      name ∈ Python.imported dictionary := by
    rintro hcondition rfl
    simp [Python.imported_eq, hcondition]
  have hlist : ∀ {context members}, dictionary.HasList context members → members ≠ [] →
      Python.hasClasses dictionary = true ∧ Python.hasProperties dictionary = true :=
    fun hlist hne => Python.hasClasses_of_hasList hlist hne
  simp only [Python.mentions, List.mem_append, List.mem_flatMap, mem_namesIf] at h
  -- one case for each kind of item that a name may be mentioned in
  rcases h with (((((h | ⟨henums, h⟩) | ⟨item, hitem, h⟩) | ⟨item, hitem, h⟩) | ⟨item, hitem, h⟩) |
    ⟨accessor, haccessor, h⟩) | ⟨hne, h⟩
  · obtain rfl := List.mem_singleton.mp h
    simp [Python.imported_eq, Python.refixNames]
  · obtain rfl := List.mem_singleton.mp h
    have henums' : (!(enumFields dictionary.spec.fields).isEmpty) = true := henums
    simp only [Python.imported_eq, List.mem_append, mem_namesIf, henums']
    simp
  · obtain ⟨group, hgroup, _, rfl⟩ := exists_of_mem_items hd hshared hitem
    obtain ⟨hclass, -⟩ := Python.hasClasses_of_reaches hgroup
    simp only [List.mem_cons, List.not_mem_nil, or_false] at h
    rcases h with rfl | rfl | rfl | rfl
    · exact hclasses hclass (by simp)
    · exact hgroups (hasGroups_of_reaches hgroup) (by simp)
    · exact hclasses hclass (by simp)
    · exact hgroups (hasGroups_of_reaches hgroup) (by simp)
  · have hclass := Python.hasClasses_of_view hitem
    rcases List.mem_cons.mp h with rfl | h
    · exact hclasses hclass (by simp)
    · obtain ⟨-, h⟩ := mem_namesIf.mp h
      have hsub : ["ClassVar", "KnownTags"] ⊆ ["ClassVar", "KnownTags", "RawMessage"] := by simp
      exact hclasses hclass (hsub h)
  · have hclass := Python.hasClasses_of_message hitem
    rcases h with h | ⟨hviews, h⟩
    · exact hclasses hclass h
    · apply hproperties _ (List.mem_singleton.mp h)
      have hsections : (!(Envelope.of dictionary).sections.isEmpty) = true := by
        simpa [emit] using hviews
      rw [Python.hasProperties, hsections, Bool.true_or]
  · have hproperty := Python.hasProperties_of_accessor hd hshared haccessor
    cases accessor with
    | field index =>
      rcases List.mem_cons.mp h with rfl | h
      · exact hproperties hproperty rfl
      · refine Python.mem_imported_of_field (fun wanted hwanted => ?_) h
        exact reads_of_accessor hd hshared hgenerated haccessor hwanted
    | group group => exact hproperties hproperty (List.mem_singleton.mp h)
  · obtain ⟨item, hitem⟩ : ∃ item, item ∈ (emit dictionary shared).messages :=
      List.exists_mem_of_ne_nil _ (by simpa using hne)
    have hmessages := Python.hasMessages_of_item hitem
    simp only [List.mem_cons, List.not_mem_nil, or_false] at h
    rcases h with rfl | rfl
    · exact hclasses (Python.hasClasses_of_message hitem) (by simp)
    · simp only [Python.imported_eq, Python.refixNames, List.mem_append, List.mem_insertionSort,
        mem_namesIf, hmessages]
      simp

/-- Where there are messages, every imported name is mentioned. -/
theorem Python.imports_mentioned (hne : dictionary.spec.messages ≠ []) :
    ∀ name ∈ Python.imported dictionary,
      name ∈ Python.mentions dictionary.spec.fields (emit dictionary shared) := by
  intro name h
  obtain ⟨item, hitem⟩ : ∃ item, item ∈ (emit dictionary shared).messages :=
    exists_messageItem hd hne
  have hmessage : name ∈ ["ClassVar", "KnownTags", "RawMessage"] →
      name ∈ Python.mentions dictionary.spec.fields (emit dictionary shared) := by
    intro hname
    simp only [Python.mentions, List.mem_append, List.mem_flatMap]
    exact Or.inl (Or.inl (Or.inr ⟨item, hitem, Or.inl hname⟩))
  have hgroup : hasGroups dictionary = true → name ∈ ["GroupTable", "refix"] →
      name ∈ Python.mentions dictionary.spec.fields (emit dictionary shared) := by
    intro hgroups hname
    obtain ⟨⟨item, hitem⟩, -⟩ := exists_group_of_hasGroups hd hmessages hfields hall hgroups
    simp only [Python.mentions, List.mem_append, List.mem_flatMap]
    have hsub : ["GroupTable", "refix"] ⊆ ["ClassVar", "GroupTable", "KnownTags", "refix"] := by
      simp
    exact Or.inl (Or.inl (Or.inl (Or.inl (Or.inr ⟨item, hitem, hsub hname⟩))))
  have huses : ∀ wanted : Conversion → Bool, uses dictionary wanted = true →
      (∀ conversion, wanted conversion = true → name ∈ Python.fieldMentions conversion) →
      name ∈ Python.mentions dictionary.spec.fields (emit dictionary shared) :=
    fun wanted h hname => Python.mem_mentions_of_uses hd hmessages hfields hshared hall hname h
  have hone : ∀ wanted, uses dictionary (· == wanted) = true → name ∈ Python.fieldMentions wanted →
      name ∈ Python.mentions dictionary.spec.fields (emit dictionary shared) := by
    intro wanted h hname
    apply huses _ h
    intro conversion hwanted
    rwa [eq_of_beq hwanted]
  simp only [Python.imported_eq, Python.datetimeNames, Python.refixNames, List.mem_append,
    List.mem_insertionSort, mem_namesIf, List.mem_singleton] at h
  -- one case for each condition that a name is imported under
  rcases h with (((((((⟨henums, rfl⟩ | h) | ⟨h, rfl⟩) | ⟨h, rfl⟩) | ⟨-, rfl⟩) | ⟨h, rfl⟩) | h) |
    ⟨h, hname⟩)
  · have henums' : (!(emit dictionary shared).enums.isEmpty) = true := henums
    simp only [Python.mentions, List.mem_append, mem_namesIf, henums']
    simp
  · rcases h with (⟨h, rfl⟩ | ⟨h, rfl⟩) | ⟨h, rfl⟩
    · exact hone _ h (by simp [Python.fieldMentions])
    · exact hone _ h (by simp [Python.fieldMentions])
    · exact hone _ h (by simp [Python.fieldMentions])
  · exact hone _ h (by simp [Python.fieldMentions])
  · -- the property of a view, or that of a member
    rw [Python.hasProperties, Bool.or_eq_true] at h
    rcases h with hsections | hmembers
    · have hviews : (!(emit dictionary shared).views.isEmpty) = true := by
        simpa [emit] using hsections
      simp only [Python.mentions, List.mem_append, List.mem_flatMap, mem_namesIf]
      exact Or.inl (Or.inl (Or.inr ⟨item, hitem, Or.inr ⟨hviews, by simp⟩⟩))
    · obtain ⟨members, hmem, hmember⟩ := List.any_eq_true.mp hmembers
      obtain ⟨message, hentry⟩ := exists_message hd hmem
      obtain ⟨member, hmember⟩ := List.exists_mem_of_ne_nil members (by simpa using hmember)
      have haccessor : emitAccessor member ∈ (emit dictionary shared).accessors :=
        accessors_of_hasList (.message hentry) (List.ne_nil_of_mem hmember) _
          (List.mem_map_of_mem hmember)
      apply Python.mem_mentions_of_accessor haccessor
      cases member <;> simp [emitAccessor, Python.accessorMentions]
  · exact hmessage (by simp)
  · exact hgroup h (by simp)
  · rcases h with (((rfl | ⟨h, rfl⟩) | ⟨h, rfl⟩) | ⟨-, hname⟩) | ⟨h, rfl⟩
    · simp [Python.mentions]
    · have hnonempty : (!(emit dictionary shared).messages.isEmpty) = true := by
        simpa using List.ne_nil_of_mem hitem
      simp only [Python.mentions, List.mem_append, mem_namesIf, hnonempty]
      simp
    · exact hgroup h (by simp)
    · exact hmessage (List.mem_cons_of_mem _ hname)
    · exact hone _ h (by simp [Python.fieldMentions])
  · apply huses _ h
    intro conversion hwanted
    revert hwanted
    cases conversion <;> simp_all [Conversion.isEnum, Python.fieldMentions]

end Exact

end Readings

/-! ## Both languages -/

/-- **A generated module imports what it mentions**, where no group is declared directly in another
group's instance: all of it, and in a dictionary with messages nothing else, but for the error
type in Rust. -/
theorem imports_exact {spec : Spec} {dictionary : Dictionary}
    (hresolve : spec.resolve = .ok dictionary) (hfields : (spec.fields.map Field.name).Nodup)
    (hmessages : spec.messages ≠ []) (hgenerated : AllGenerated dictionary) :
    (∀ names warnings, Rust.Names.new dictionary [] = .ok (names, warnings) →
      ImportsExact (Rust.imports dictionary)
        (Rust.mentions dictionary.spec.fields (Rust.output dictionary)) ["InvalidValue"]) ∧
    ∀ names warnings, Python.Names.new dictionary [] = .ok (names, warnings) →
      ImportsExact (Python.imported dictionary)
        (Python.mentions dictionary.spec.fields (Python.output dictionary)) [] := by
  obtain ⟨rfl, hd⟩ := resolved_of_resolve hresolve
  constructor
  · intro names warnings h
    have hnames := Rust.messages_nodup h
    have hshared := Rust.sharedGroups_ok hd
    exact ⟨Rust.mentions_imported hd hshared (hgenerated.isGenerated hd hnames hfields),
      Rust.imports_mentioned hd hnames hfields hshared Rust.sharedGroups_all hmessages⟩
  · intro names warnings h
    have hnames := Python.messages_nodup h
    have hshared := Python.sharedGroups_ok hd
    have hused := Python.imports_mentioned hd hnames hfields hshared Python.sharedGroups_all
      hmessages
    exact ⟨Python.mentions_imported hd hshared (hgenerated.isGenerated hd hnames hfields),
      fun name hname => Or.inl (hused name hname)⟩

theorem imports_exact_orders :
    ImportsExact (Rust.imports ordersDictionary)
        (Rust.mentions ordersDictionary.spec.fields (Rust.output ordersDictionary))
        ["InvalidValue"] ∧
      ImportsExact (Python.imported ordersDictionary)
        (Python.mentions ordersDictionary.spec.fields (Python.output ordersDictionary)) [] := by
  have hresolve : ordersSpec.resolve = .ok ordersDictionary := rfl
  have hgenerated : AllGenerated ordersDictionary := by
    unfold AllGenerated
    decide
  obtain ⟨_, _, hrust, _⟩ := exists_of_renamedBy
    (show renamedBy (Rust.Names.new ordersDictionary []) = some [some "Buy2"] by decide +kernel)
  obtain ⟨_, _, hpython, _⟩ := exists_of_renamedBy
    (show renamedBy (Python.Names.new ordersDictionary []) = some [some "BUY_2"] by decide +kernel)
  obtain ⟨hrustExact, hpythonExact⟩ :=
    imports_exact hresolve (by decide) (by simp [ordersSpec]) hgenerated
  exact ⟨hrustExact _ _ hrust, hpythonExact _ _ hpython⟩

/-- A group of prices that a component declares, used only in the instances of a group that is
declared directly in another one's. -/
def pricesSpec : Spec where
  version := { protocol := .fix, major := 4, minor := 4, servicePack := 0 }
  header := []
  messages :=
    [{ name := "Quote", msgType := "S", category := .app
       members := [.group 555 false [.field { tag := 602, isRequired := true },
         .group 604 false [.field { tag := 605, isRequired := true },
           .component { name := "Prices", isRequired := false }]]] }]
  trailer := []
  fields :=
    [{ name := "NoLegs", tag := 555, dataType := .numInGroup, lengthTag := none, values := [] },
     { name := "LegID", tag := 602, dataType := .string, lengthTag := none, values := [] },
     { name := "NoAltIDs", tag := 604, dataType := .numInGroup, lengthTag := none, values := [] },
     { name := "AltID", tag := 605, dataType := .string, lengthTag := none, values := [] },
     { name := "NoPrices", tag := 628, dataType := .numInGroup, lengthTag := none, values := [] },
     { name := "Px", tag := 44, dataType := .price, lengthTag := none, values := [] }]
  components := [{ name := "Prices", members :=
    [.group 628 false [.field { tag := 44, isRequired := true }]] }]

def pricesDictionary : Dictionary where
  spec := pricesSpec
  header := []
  messages :=
    [[.group ⟨0, by decide⟩ ⟨1, by decide⟩ false (.message "Quote") none
      [.field ⟨1, by decide⟩ true,
       .group ⟨2, by decide⟩ ⟨3, by decide⟩ false (.group "NoLegs" (.message "Quote")) none
        [.field ⟨3, by decide⟩ true,
         .group ⟨4, by decide⟩ ⟨5, by decide⟩ false (.component "Prices") (some "Prices")
          [.field ⟨5, by decide⟩ true]]]]]
  trailer := []

/-- The accessor of the prices returns a type that is not imported: the members are not followed
into the group without types of its own, but the shared group below it is generated. -/
theorem prices_not_imported :
    pricesSpec.resolve = .ok pricesDictionary ∧
      "Decimal" ∈ Rust.mentions pricesDictionary.spec.fields (Rust.output pricesDictionary) ∧
      "Decimal" ∉ Rust.imports pricesDictionary ∧
      "Decimal" ∈ Python.mentions pricesDictionary.spec.fields (Python.output pricesDictionary) ∧
      "Decimal" ∉ Python.imported pricesDictionary := by
  refine ⟨rfl, ?_, ?_, ?_, ?_⟩ <;> decide +kernel

/-! ## Fields read raw -/

/-- **A field is reported as read raw exactly where an accessor reads it raw**, where no group is
declared directly in another group's instance. -/
theorem unclaimed_exact {spec : Spec} {dictionary : Dictionary}
    (hresolve : spec.resolve = .ok dictionary) (hfields : (spec.fields.map Field.name).Nodup)
    (hgenerated : AllGenerated dictionary) (name : String) (dataType : DataType) :
    (∀ names warnings, Rust.Names.new dictionary [] = .ok (names, warnings) →
      (.unclaimedType name dataType ∈ unclaimedTypes dictionary ↔
        ∃ index, .field index ∈ (Rust.output dictionary).accessors ∧
          Conversion.of (dictionary.spec.fields.get index) = .raw ∧
          (dictionary.spec.fields.get index).name = name ∧
          (dictionary.spec.fields.get index).dataType = dataType)) ∧
    ∀ names warnings, Python.Names.new dictionary [] = .ok (names, warnings) →
      (.unclaimedType name dataType ∈ unclaimedTypes dictionary ↔
        ∃ index, .field index ∈ (Python.output dictionary).accessors ∧
          Conversion.of (dictionary.spec.fields.get index) = .raw ∧
          (dictionary.spec.fields.get index).name = name ∧
          (dictionary.spec.fields.get index).dataType = dataType) := by
  obtain ⟨rfl, hd⟩ := resolved_of_resolve hresolve
  have hboth : ∀ shared, SharedOk dictionary shared → SharedAll dictionary shared →
      (dictionary.spec.messages.map Message.name).Nodup →
      (.unclaimedType name dataType ∈ unclaimedTypes dictionary ↔
        ∃ index, .field index ∈ (emit dictionary shared).accessors ∧
          Conversion.of (dictionary.spec.fields.get index) = .raw ∧
          (dictionary.spec.fields.get index).name = name ∧
          (dictionary.spec.fields.get index).dataType = dataType) := by
    intro shared hshared hall hmessages
    simp only [unclaimedTypes, List.mem_map, List.mem_filter, decide_eq_true_eq]
    constructor
    · rintro ⟨field, ⟨⟨hfield, hraw⟩, hreads⟩, hwarning⟩
      obtain ⟨index, haccessor, htag⟩ :=
        exists_accessor_of_reads hd hmessages hfields hshared hall hreads
      -- tags are unique, so that the field read is the one listed
      have heq : dictionary.spec.fields.get index = field :=
        List.inj_on_of_nodup_map hd.consistent.tags_unique (List.get_mem _ _) hfield
          (eq_of_beq htag)
      injection hwarning with hname htype
      exact ⟨index, haccessor, heq ▸ hraw, heq ▸ hname, heq ▸ htype⟩
    · rintro ⟨index, haccessor, hraw, rfl, rfl⟩
      refine ⟨_, ⟨⟨List.get_mem _ index, hraw⟩, ?_⟩, rfl⟩
      apply reads_of_accessor hd hshared (hgenerated.isGenerated hd hmessages hfields) haccessor
      exact BEq.rfl
  exact ⟨fun names warnings h => hboth _ (Rust.sharedGroups_ok hd) Rust.sharedGroups_all
      (Rust.messages_nodup h),
    fun names warnings h => hboth _ (Python.sharedGroups_ok hd) Python.sharedGroups_all
      (Python.messages_nodup h)⟩

/-- A message with a time in a zone, which no accessor interprets. -/
def expirySpec : Spec where
  version := { protocol := .fix, major := 4, minor := 4, servicePack := 0 }
  header := []
  messages :=
    [{ name := "Expiry", msgType := "E", category := .app
       members := [.field { tag := 1079, isRequired := true }] }]
  trailer := []
  fields :=
    [{ name := "MaturityTime", tag := 1079, dataType := .tzTimestamp, lengthTag := none
       values := [] }]
  components := []

def expiryDictionary : Dictionary where
  spec := expirySpec
  header := []
  messages := [[.field ⟨0, by decide⟩ true]]
  trailer := []

theorem unclaimed_exact_expiry :
    .unclaimedType "MaturityTime" .tzTimestamp ∈ unclaimedTypes expiryDictionary ∧
      ∃ index, .field index ∈ (Rust.output expiryDictionary).accessors ∧
        Conversion.of (expiryDictionary.spec.fields.get index) = .raw ∧
        (expiryDictionary.spec.fields.get index).name = "MaturityTime" ∧
        (expiryDictionary.spec.fields.get index).dataType = .tzTimestamp := by
  have hresolve : expirySpec.resolve = .ok expiryDictionary := rfl
  have hgenerated : AllGenerated expiryDictionary := by
    unfold AllGenerated
    decide
  obtain ⟨_, _, hrust, _⟩ := exists_of_renamedBy
    (show renamedBy (Rust.Names.new expiryDictionary []) = some [] by decide +kernel)
  have hunclaimed : .unclaimedType "MaturityTime" .tzTimestamp ∈ unclaimedTypes expiryDictionary :=
    by decide +kernel
  obtain ⟨hexact, -⟩ := unclaimed_exact hresolve (by decide) hgenerated "MaturityTime" .tzTimestamp
  exact ⟨hunclaimed, (hexact _ _ hrust).mp hunclaimed⟩

end Refix.Codegen
