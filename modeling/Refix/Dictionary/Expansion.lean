import Mathlib.Logic.Relation
import Refix.Dictionary.Resolver

/-!
# What a Spec Says

The meaning of a spec, without the resolver's bookkeeping: which tags a member list expands to
(`ExpandsTo`), which members it stands for when every component reference is replaced in place
by its definition (`Inlines`), and when the spec is consistent (`Spec.Consistent`).
-/

namespace Refix.Dict

open Refix.Foundation
open Refix.Message (Tag)

/-! ## Member lists -/

/-- A list is empty, or opens with a field, a component or a group of a list. -/
theorem members_induction {motive : List Member → Prop} (nil : motive [])
    (field : ∀ ref members, motive members → motive (.field ref :: members))
    (component : ∀ ref members, motive members → motive (.component ref :: members))
    (group : ∀ countTag isRequired inst members, motive inst → motive members →
      motive (.group countTag isRequired inst :: members)) : ∀ members, motive members
  | [] => nil
  | .field ref :: members =>
    field ref members (members_induction nil field component group members)
  | .component ref :: members =>
    component ref members (members_induction nil field component group members)
  | .group countTag isRequired inst :: members =>
    group countTag isRequired inst members (members_induction nil field component group inst)
      (members_induction nil field component group members)

/-- The component names a list refers to, at any group depth. -/
inductive Mentions : List Member → String → Prop where
  | component {ref : ComponentRef} {members : List Member} (h : .component ref ∈ members) :
      Mentions members ref.name
  | group {countTag : Tag} {isRequired : Bool} {inst members : List Member} {name : String}
      (h : .group countTag isRequired inst ∈ members) (hinst : Mentions inst name) :
      Mentions members name

/-- A list, and the lists of the groups in it at any depth. -/
inductive Nested : List Member → List Member → Prop where
  | refl (members : List Member) : Nested members members
  | group {countTag : Tag} {isRequired : Bool} {inst members nested : List Member}
      (h : .group countTag isRequired inst ∈ members) (hnested : Nested inst nested) :
      Nested members nested

section Lists

variable {member : Member} {members nested : List Member} {name : String}

theorem Nested.trans {deeper : List Member} (h : Nested members nested)
    (h' : Nested nested deeper) : Nested members deeper := by
  induction h with
  | refl => exact h'
  | group h _ ih => exact .group h (ih h')

theorem mentions_cons (h : Mentions members name) : Mentions (member :: members) name := by
  cases h with
  | component h => exact .component (List.mem_cons_of_mem _ h)
  | group h hinst => exact .group (List.mem_cons_of_mem _ h) hinst

@[simp] theorem not_mentions_nil : ¬ Mentions [] name := by
  intro h
  cases h with
  | component h => cases h
  | group h _ => cases h

@[simp] theorem mentions_field {ref : FieldRef} :
    Mentions (.field ref :: members) name ↔ Mentions members name := by
  constructor
  · intro h
    cases h with
    | component h => exact .component (by simpa using h)
    | group h hinst => exact .group (by simpa using h) hinst
  · exact mentions_cons

@[simp] theorem mentions_component {ref : ComponentRef} :
    Mentions (.component ref :: members) name ↔ ref.name = name ∨ Mentions members name := by
  constructor
  · intro h
    cases h with
    | component h =>
      rcases List.mem_cons.mp h with heq | h
      · cases heq
        exact Or.inl rfl
      · exact Or.inr (.component h)
    | group h hinst => exact Or.inr (.group (by simpa using h) hinst)
  · rintro (rfl | h)
    · exact .component List.mem_cons_self
    · exact mentions_cons h

@[simp] theorem mentions_group {countTag : Tag} {isRequired : Bool} {inst : List Member} :
    Mentions (.group countTag isRequired inst :: members) name ↔
      Mentions inst name ∨ Mentions members name := by
  constructor
  · intro h
    cases h with
    | component h => exact Or.inr (.component (by simpa using h))
    | group h hinst =>
      rcases List.mem_cons.mp h with heq | h
      · cases heq
        exact Or.inl hinst
      · exact Or.inr (.group h hinst)
  · rintro (h | h)
    · exact .group List.mem_cons_self h
    · exact mentions_cons h

end Lists

/-! ## Expansion into tags -/

/-- The tags a list expands to, at every depth and in order: a component reference stands for
its definition, and a group for its count tag and an instance. -/
inductive ExpandsTo (spec : Spec) : List Member → List Tag → Prop where
  | nil : ExpandsTo spec [] []
  | field {ref : FieldRef} {members : List Member} {tags : List Tag}
      (rest : ExpandsTo spec members tags) :
      ExpandsTo spec (.field ref :: members) (ref.tag :: tags)
  | component {ref : ComponentRef} {component : Component} {members : List Member}
      {inner tags : List Tag} (hmem : component ∈ spec.components) (hname : component.name = ref.name)
      (definition : ExpandsTo spec component.members inner) (rest : ExpandsTo spec members tags) :
      ExpandsTo spec (.component ref :: members) (inner ++ tags)
  | group {countTag : Tag} {isRequired : Bool} {inst members : List Member} {inner tags : List Tag}
      (hinst : ExpandsTo spec inst inner) (rest : ExpandsTo spec members tags) :
      ExpandsTo spec (.group countTag isRequired inst :: members) (countTag :: inner ++ tags)

/-- One component's definition refers to another. -/
def Spec.Refers (spec : Spec) (child parent : String) : Prop :=
  ∃ component ∈ spec.components, component.name = parent ∧ Mentions component.members child

/-- The header, the trailer, and the members of the messages and components. -/
inductive Spec.IsRoot (spec : Spec) : List Member → Prop where
  | header : spec.IsRoot spec.header
  | trailer : spec.IsRoot spec.trailer
  | message {message : Message} (h : message ∈ spec.messages) : spec.IsRoot message.members
  | component {component : Component} (h : component ∈ spec.components) :
      spec.IsRoot component.members

/-- The references of a list that are not within its groups. -/
structure ReferencesOk (spec : Spec) (members : List Member) : Prop where
  field : ∀ ref, .field ref ∈ members → ∃ field ∈ spec.fields, field.tag = ref.tag
  length : ∀ ref, .field ref ∈ members → ∀ field ∈ spec.fields, field.tag = ref.tag →
    field.dataType.hasLengthField = true → field.lengthTag ≠ none
  component : ∀ ref, .component ref ∈ members → ∃ component ∈ spec.components,
    component.name = ref.name
  count : ∀ countTag isRequired inst, .group countTag isRequired inst ∈ members →
    ∃ field ∈ spec.fields, field.tag = countTag
  nonempty : ∀ countTag isRequired inst, .group countTag isRequired inst ∈ members →
    ¬ ExpandsTo spec inst []

/-- A list whose references are in order and whose expansion holds no tag twice. -/
structure ListOk (spec : Spec) (members : List Member) : Prop where
  references : ReferencesOk spec members
  unique : ∀ tags, ExpandsTo spec members tags → tags.Nodup

/-- An optional `-` and digits, for a number within 64 bits. -/
def IsInteger (value : String) : Prop :=
  ∃ digits : List Char, digits ≠ [] ∧ (∀ c ∈ digits, c.isDigit = true) ∧
    (value.toList = digits ∧ Nat.ofDigitChars 10 digits 0 < 2 ^ 63 ∨
      value.toList = '-' :: digits ∧ Nat.ofDigitChars 10 digits 0 ≤ 2 ^ 63)

/-- **A consistent spec.** -/
structure Spec.Consistent (spec : Spec) : Prop where
  tags_unique : (spec.fields.map Field.tag).Nodup
  values_integer : ∀ field ∈ spec.fields, field.dataType.isIntBased = true →
    ∀ value ∈ field.values, IsInteger value.value
  codes_unique : ∀ field ∈ spec.fields,
    field.values.Pairwise fun first second => ¬ field.dataType.SameCode first.value second.value
  msgTypes_unique : (spec.messages.map Message.msgType).Nodup
  lengthTag_ok : ∀ field ∈ spec.fields, ∀ tag, field.lengthTag = some tag →
    field.dataType.hasLengthField = true ∧
      ∃ lengthField ∈ spec.fields, lengthField.tag = tag ∧ lengthField.dataType = .length
  lengthTags_unique : (spec.fields.filterMap Field.lengthTag).Nodup
  components_unique : (spec.components.map Component.name).Nodup
  /-- Every list, at any group depth, whether it is used or not. -/
  lists_ok : ∀ root members, spec.IsRoot root → Nested root members → ListOk spec members
  acyclic : ∀ name, ¬ Relation.TransGen spec.Refers name name
  messages_unique : ∀ message ∈ spec.messages, ∀ tags,
    ExpandsTo spec (spec.header ++ message.members ++ spec.trailer) tags → tags.Nodup

/-! ## Expansion into members -/

/-- The members a list stands for, every component reference replaced in place by its
definition. `path` tells whether every flag on the way down to the list is required, and `lead`
whether the list is a group instance's from its first position on. -/
inductive Inlines (spec : Spec) : MemberContext → Bool → Bool → List Member →
    List (ResolvedMember spec.fields.length) → Prop where
  | nil {context : MemberContext} {path lead : Bool} : Inlines spec context path lead [] []
  | field {context : MemberContext} {path lead : Bool} {ref : FieldRef} {members : List Member}
      {index : Fin spec.fields.length} {rest : List (ResolvedMember spec.fields.length)}
      (hindex : fieldIndex? spec.fields ref.tag = some index)
      (hrest : Inlines spec context path false members rest) :
      Inlines spec context path lead (.field ref :: members)
        (.field index (path && ref.isRequired) :: rest)
  | component {context : MemberContext} {path lead : Bool} {ref : ComponentRef}
      {members : List Member} {component : Component}
      {inner rest : List (ResolvedMember spec.fields.length)}
      (hmem : component ∈ spec.components) (hname : component.name = ref.name)
      (hinner : Inlines spec (.component component.name) (path && (ref.isRequired || lead)) false
        component.members inner)
      (hrest : Inlines spec context path false members rest) :
      Inlines spec context path lead (.component ref :: members) (component.owned inner ++ rest)
  | group {context : MemberContext} {path lead : Bool} {countTag : Tag} {isRequired : Bool}
      {inst members : List Member} {count : Fin spec.fields.length}
      {first : ResolvedMember spec.fields.length}
      {others rest : List (ResolvedMember spec.fields.length)}
      (hcount : fieldIndex? spec.fields countTag = some count)
      (hinst : Inlines spec (context.group (spec.fields.get count).name) true true inst
        (first :: others))
      (hrest : Inlines spec context path false members rest) :
      Inlines spec context path lead (.group countTag isRequired inst :: members)
        (.group count first.firstField (path && isRequired) context none
          (first.require :: others) :: rest)

/-! ## The tags of resolved members -/

mutual

/-- Every tag of a member list at any depth, in order. -/
def tagsOf (fields : List Field) : List (ResolvedMember fields.length) → List Tag
  | [] => []
  | member :: members => memberTagsOf fields member ++ tagsOf fields members

def memberTagsOf (fields : List Field) : ResolvedMember fields.length → List Tag
  | .field index _ => [(fields.get index).tag]
  | .group count _ _ _ _ members => (fields.get count).tag :: tagsOf fields members

end

section Tags

variable {fields : List Field} {members : List (ResolvedMember fields.length)}

theorem tagsOf_append (members' : List (ResolvedMember fields.length)) :
    tagsOf fields (members ++ members') = tagsOf fields members ++ tagsOf fields members' := by
  induction members with
  | nil => rfl
  | cons member members ih => rw [List.cons_append, tagsOf, tagsOf, ih, List.append_assoc]

@[simp] theorem memberTagsOf_require (member : ResolvedMember fields.length) :
    memberTagsOf fields member.require = memberTagsOf fields member := by
  cases member <;> rfl

@[simp] theorem tagsOf_requireFirst :
    tagsOf fields (requireFirst members) = tagsOf fields members := by
  cases members <;> simp [requireFirst, tagsOf]

@[simp] theorem tagsOf_owned (component : Component) :
    tagsOf fields (component.owned members) = tagsOf fields members := by
  unfold Component.owned
  split <;> simp [tagsOf, memberTagsOf]

theorem mem_memberTagsOf_firstField (member : ResolvedMember fields.length) :
    (fields.get member.firstField).tag ∈ memberTagsOf fields member := by
  cases member <;> simp [memberTagsOf, ResolvedMember.firstField]

/-- A list without tags has no members. -/
theorem tagsOf_eq_nil_iff : tagsOf fields members = [] ↔ members = [] := by
  cases members with
  | nil => simp [tagsOf]
  | cons member members =>
    have hmem := mem_memberTagsOf_firstField member
    have hne : memberTagsOf fields member ≠ [] := List.ne_nil_of_mem hmem
    simp [tagsOf, hne]

end Tags

/-! ## Looking up definitions -/

section Lookup

theorem tag_of_fieldIndex? {fields : List Field} {tag : Tag} {index : Fin fields.length}
    (h : fieldIndex? fields tag = some index) : (fields.get index).tag = tag := by
  have := (List.findFinIdx?_eq_some_iff.mp h).1
  simpa using this

theorem fieldIndex?_eq_none_iff {fields : List Field} {tag : Tag} :
    fieldIndex? fields tag = none ↔ ¬ ∃ field ∈ fields, field.tag = tag := by
  simp [fieldIndex?, List.findFinIdx?_eq_none_iff]

theorem name_of_componentIndex? {components : List Component} {name : String}
    {index : Fin components.length} (h : componentIndex? components name = some index) :
    (components.get index).name = name := by
  have := (List.findFinIdx?_eq_some_iff.mp h).1
  simpa using this

theorem componentIndex?_eq_none_iff {components : List Component} {name : String} :
    componentIndex? components name = none ↔
      ¬ ∃ component ∈ components, component.name = name := by
  simp [componentIndex?, List.findFinIdx?_eq_none_iff]

/-- A component is known by its name. -/
theorem eq_of_name_eq {components : List Component} (h : (components.map Component.name).Nodup)
    {first second : Component} (hfirst : first ∈ components) (hsecond : second ∈ components)
    (hname : first.name = second.name) : first = second :=
  List.inj_on_of_nodup_map h hfirst hsecond hname

end Lookup

end Refix.Dict
