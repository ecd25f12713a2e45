import Mathlib.Data.Fintype.Card
import Refix.Dictionary.Checks

/-!
# Which Specs Resolve

Resolving a spec always ends, without a panic, and gives a dictionary exactly where the spec is
consistent. The expansion of components carries two facts along: each memoised expansion is one
that inlining gives, of a definition whose lists are in order, and each component on the stack
is mentioned by the one before it. The first is what a spec's consistency is put together from,
the second turns a component found on the stack into a cycle of references.
-/

namespace Refix.Dict

open Refix.Foundation
open Refix.Message (Tag)

variable {spec : Spec}

/-! ## Lists in order -/

section Lists

variable {members : List Member}

/-- Every list within `members`, and `members` itself, is in order. -/
def AllOk (spec : Spec) (members : List Member) : Prop :=
  ∀ nested, Nested members nested → ListOk spec nested

/-- What a consistent spec asks of a field reference. -/
def FieldOk (spec : Spec) (ref : FieldRef) : Prop :=
  (∃ field ∈ spec.fields, field.tag = ref.tag) ∧
    ∀ field ∈ spec.fields, field.tag = ref.tag → field.dataType.hasLengthField = true →
      field.lengthTag ≠ none

/-- What a consistent spec asks of one member of a list. -/
def MemberOk (spec : Spec) : Member → Prop
  | .field ref => FieldOk spec ref
  | .component ref => ∃ component ∈ spec.components, component.name = ref.name
  | .group countTag _ inst =>
    (∃ field ∈ spec.fields, field.tag = countTag) ∧ ¬ ExpandsTo spec inst [] ∧ AllOk spec inst

/-- A list is in order at every depth where its members are and no tag comes twice in it. -/
theorem allOk_iff : AllOk spec members ↔ (∀ member ∈ members, MemberOk spec member) ∧
    ∀ tags, ExpandsTo spec members tags → tags.Nodup := by
  constructor
  · intro hall
    have hlist := hall members (.refl members)
    refine ⟨fun member hmem => ?_, hlist.unique⟩
    cases member with
    | field ref => exact ⟨hlist.references.field ref hmem, hlist.references.length ref hmem⟩
    | component ref => exact hlist.references.component ref hmem
    | group countTag isRequired inst =>
      refine ⟨hlist.references.count _ _ _ hmem, hlist.references.nonempty _ _ _ hmem, ?_⟩
      exact fun nested hnested => hall nested (.group hmem hnested)
  · rintro ⟨hmembers, hunique⟩ nested hnested
    cases hnested with
    | refl =>
      refine ⟨⟨?_, ?_, ?_, ?_, ?_⟩, hunique⟩
      · exact fun ref hmem => (hmembers _ hmem).1
      · exact fun ref hmem => (hmembers _ hmem).2
      · exact fun ref hmem => hmembers _ hmem
      · exact fun countTag isRequired inst hmem => (hmembers _ hmem).1
      · exact fun countTag isRequired inst hmem => (hmembers _ hmem).2.1
    | group hmem hnested => exact (hmembers _ hmem).2.2 _ hnested

end Lists

/-! ## What the expansion keeps -/

/-- A failure that is an error, of a spec that is not consistent. -/
def Defect (spec : Spec) (failure : Failure) : Prop :=
  (∃ error, failure = .error error) ∧ ¬ spec.Consistent

/-- A check of a consistent spec's condition fails only where the spec is not consistent. -/
theorem Decides.defect {condition : Prop} {check : Except Failure Unit}
    (h : Decides condition check) (hcondition : spec.Consistent → condition) :
    Outcome (Defect spec) (fun _ => condition) check :=
  h.imp (fun _ hfail => ⟨hfail.1, fun hspec => hfail.2 (hcondition hspec)⟩) fun _ => id

section Expansion

/-- What the memo holds of a component. -/
def Expanded (spec : Spec) (component : Component)
    (expansion : List (ResolvedMember spec.fields.length)) : Prop :=
  ∃ resolved, expansion = component.owned resolved ∧
    Inlines spec (.component component.name) true false component.members resolved

/-- The memo holds what inlining gives, and `stack` is what is being expanded. -/
structure Expander.Valid (expander : Expander spec) (stack : List (Fin spec.components.length)) :
    Prop where
  expansions : ∀ index expansion, expander.expansions index = some expansion →
    Expanded spec (spec.components.get index) expansion ∧
      AllOk spec (spec.components.get index).members
  stack_eq : expander.stack = stack

/-- A name is mentioned by the component on top of the stack, if there is one. -/
def RefersFrom (stack : List (Fin spec.components.length)) (name : String) : Prop :=
  ∀ top ∈ stack.head?, spec.Refers name (spec.components.get top).name

/-- Each component on the stack is there once, and mentioned by the one below it. -/
structure StackOk (stack : List (Fin spec.components.length)) : Prop where
  nodup : stack.Nodup
  chain : stack.IsChain fun child parent =>
    spec.Refers (spec.components.get child).name (spec.components.get parent).name

section Lookup

variable {stack : List (Fin spec.components.length)} {expander : Expander spec}
  {context : MemberContext}

variable (context) in
theorem resolveFieldRef_outcome (htags : (spec.fields.map Field.tag).Nodup) {ref : FieldRef}
    (hok : spec.Consistent → FieldOk spec ref) :
    Outcome (Defect spec) (fun resolved => FieldOk spec ref ∧ ∃ index,
      fieldIndex? spec.fields ref.tag = some index ∧ resolved = .field index ref.isRequired)
      (resolveFieldRef spec ref context) := by
  unfold resolveFieldRef fieldIndex
  cases hindex : fieldIndex? spec.fields ref.tag with
  | none =>
    exact ⟨⟨_, rfl⟩, fun hspec => fieldIndex?_eq_none_iff.mp hindex (hok hspec).1⟩
  | some index =>
    change Outcome _ _ (if _ then _ else _)
    have hmem : spec.fields.get index ∈ spec.fields := List.getElem_mem index.isLt
    have htag := tag_of_fieldIndex? hindex
    split
    · next hmissing =>
      exact ⟨⟨_, rfl⟩, fun hspec => (hok hspec).2 _ hmem htag hmissing.1 hmissing.2⟩
    · next hlinked =>
      refine ⟨⟨⟨_, hmem, htag⟩, fun field hfield hfieldTag hdata hnone => ?_⟩, index, rfl, rfl⟩
      rw [← getElem_of_fieldIndex? htags hindex hfield hfieldTag] at hdata hnone
      exact hlinked ⟨hdata, hnone⟩

variable (context) in
theorem fieldIndex_outcome {countTag : Tag}
    (hok : spec.Consistent → ∃ field ∈ spec.fields, field.tag = countTag) :
    Outcome (Defect spec) (fun index => fieldIndex? spec.fields countTag = some index)
      (fieldIndex spec countTag context) := by
  unfold fieldIndex
  cases hindex : fieldIndex? spec.fields countTag with
  | none => exact ⟨⟨_, rfl⟩, fun hspec => fieldIndex?_eq_none_iff.mp hindex (hok hspec)⟩
  | some index => exact rfl

variable (context) in
/-- A list passes with each tag once. -/
theorem completeMembers_outcome (isInstance : Bool)
    {resolved : List (ResolvedMember spec.fields.length)}
    (hok : spec.Consistent → (tagsOf spec.fields resolved).Nodup) :
    Outcome (Defect spec)
      (fun completed => completed = (if isInstance then requireFirst resolved else resolved) ∧
        (tagsOf spec.fields resolved).Nodup)
      (completeMembers spec context isInstance resolved) := by
  have hsame : tagsOf spec.fields (if isInstance then requireFirst resolved else resolved) =
      tagsOf spec.fields resolved := by
    cases isInstance <;> simp
  have hcheck := checkUniqueTags_outcome spec.fields context
    (if isInstance then requireFirst resolved else resolved)
  rw [hsame] at hcheck
  exact (Decides.defect hcheck hok).bind fun _ _ hnodup => ⟨rfl, hnodup⟩

/-- What is known of the members of a list and the expander after them. -/
def Resolves (stack : List (Fin spec.components.length)) (context : MemberContext) (lead : Bool)
    (members : List Member)
    (result : List (ResolvedMember spec.fields.length) × Expander spec) : Prop :=
  result.2.Valid stack ∧ Inlines spec context true lead members result.1 ∧
    ∀ member ∈ members, MemberOk spec member

/-- What is known of one member and the expander after it: what it resolves to goes in front of
whatever the rest of its list is inlined as. -/
structure ResolvesMember (stack : List (Fin spec.components.length)) (context : MemberContext)
    (lead : Bool) (member : Member)
    (result : List (ResolvedMember spec.fields.length) × Expander spec) : Prop where
  valid : result.2.Valid stack
  inlines : ∀ members rest, Inlines spec context true false members rest →
    Inlines spec context true lead (member :: members) (result.1 ++ rest)
  ok : MemberOk spec member

section Members

variable {lead : Bool} {members : List Member}
  {expand : Fin spec.components.length → Expander spec → Except Failure (Expander spec)}

variable (context lead) in
theorem resolveMember_field_outcome (htags : (spec.fields.map Field.tag).Nodup) {ref : FieldRef}
    (hvalid : expander.Valid stack) (hok : spec.Consistent → MemberOk spec (.field ref)) :
    Outcome (Defect spec) (ResolvesMember stack context lead (.field ref))
      (resolveMember spec expand context lead (.field ref) expander) := by
  rw [resolveMember]
  refine (resolveFieldRef_outcome context htags hok).bind ?_
  rintro _ _ ⟨hrefOk, index, hindex, rfl⟩
  exact ⟨hvalid, fun members rest hrest => .field hindex hrest, hrefOk⟩

variable (context lead) in
/-- A component stands for what the memo holds of it, once it is expanded. -/
theorem resolveMember_component_outcome
    (hexpand : ∀ child expander, expander.Valid stack →
      RefersFrom stack (spec.components.get child).name →
      Outcome (Defect spec) (fun expander' => expander'.Valid stack ∧
        (expander'.expansions child).isSome = true) (expand child expander))
    {ref : ComponentRef} (hvalid : expander.Valid stack) (hrefers : RefersFrom stack ref.name)
    (hok : spec.Consistent → MemberOk spec (.component ref)) :
    Outcome (Defect spec) (ResolvesMember stack context lead (.component ref))
      (resolveMember spec expand context lead (.component ref) expander) := by
  rw [resolveMember]
  cases hchild : componentIndex? spec.components ref.name with
  | none => exact ⟨⟨_, rfl⟩, fun hspec => componentIndex?_eq_none_iff.mp hchild (hok hspec)⟩
  | some child =>
    have hname := name_of_componentIndex? hchild
    have hmem : spec.components.get child ∈ spec.components := List.getElem_mem child.isLt
    rw [← hname] at hrefers
    -- the component's expansion is in the memo by now
    refine (hexpand child expander hvalid hrefers).bind fun expander' _ ⟨hvalid', hsome⟩ => ?_
    cases hexpansion : expander'.expansions child with
    | none =>
      rw [hexpansion] at hsome
      cases hsome
    | some expansion =>
      obtain ⟨⟨resolved, rfl, hinlines⟩, _⟩ := hvalid'.expansions child expansion hexpansion
      refine ⟨hvalid', fun members rest hrest => ?_, ⟨_, hmem, hname⟩⟩
      have hspliced := hinlines.combine (ref.isRequired || lead)
      simp only [← owned_map_combineRequired]
      exact .component hmem hname hspliced hrest

variable (context lead) in
/-- A group stands for itself, with its instance resolved before it. -/
theorem resolveMember_group_outcome (hnames : (spec.components.map Component.name).Nodup)
    {countTag : Tag} {isRequired : Bool} {inst : List Member}
    (hinst : ∀ inner : MemberContext, Outcome (Defect spec) (Resolves stack inner true inst)
      (resolveEach spec expand inner true inst expander))
    (hok : spec.Consistent → MemberOk spec (.group countTag isRequired inst)) :
    Outcome (Defect spec) (ResolvesMember stack context lead (.group countTag isRequired inst))
      (resolveMember spec expand context lead (.group countTag isRequired inst) expander) := by
  rw [resolveMember]
  -- the count field is looked up first, then the instance, and last comes its check
  refine (fieldIndex_outcome context fun hspec => (hok hspec).1).bind fun count _ hcount => ?_
  refine (hinst _).bind fun ⟨resolved, expander'⟩ _ ⟨hvalid', hinlines, hmembers⟩ => ?_
  have hexpandsTo := hinlines.expandsTo
  have hcomplete := completeMembers_outcome (context.group (spec.fields.get count).name) true
    fun hspec => (allOk_iff.mp (hok hspec).2.2).2 _ hexpandsTo
  refine hcomplete.bind fun completed _ ⟨hcompleted, hnodup⟩ => ?_
  subst hcompleted
  cases resolved with
  | nil => exact ⟨⟨_, rfl⟩, fun hspec => (hok hspec).2.1 hexpandsTo⟩
  | cons first others =>
    have hgroupOk : MemberOk spec (.group countTag isRequired inst) := by
      refine ⟨⟨_, List.getElem_mem count.isLt, tag_of_fieldIndex? hcount⟩, ?_, ?_⟩
      · intro hempty
        have hnil := tagsOf_eq_nil_iff.mp (hexpandsTo.det hnames hempty)
        cases hnil
      · refine allOk_iff.mpr ⟨hmembers, fun tags htags' => ?_⟩
        rw [← hexpandsTo.det hnames htags']
        exact hnodup
    refine ⟨hvalid', fun members rest hrest => ?_, hgroupOk⟩
    have hfirst : first.require.firstField = first.firstField := by cases first <;> rfl
    have hgroup : Inlines spec context true lead (.group countTag isRequired inst :: members)
        (.group count first.firstField isRequired context none (first.require :: others) :: rest) :=
      .group hcount hinlines hrest
    rw [← hfirst] at hgroup
    exact hgroup

/-- A list is resolved member by member. -/
theorem resolveEach_cons_outcome {member : Member}
    (hmember : Outcome (Defect spec) (ResolvesMember stack context lead member)
      (resolveMember spec expand context lead member expander))
    (hmembers : ∀ expander : Expander spec, expander.Valid stack →
      Outcome (Defect spec) (Resolves stack context false members)
        (resolveEach spec expand context false members expander)) :
    Outcome (Defect spec) (Resolves stack context lead (member :: members))
      (resolveEach spec expand context lead (member :: members) expander) := by
  rw [resolveEach]
  refine hmember.bind fun resolved _ hresolved => ?_
  refine (hmembers _ hresolved.valid).bind fun rest _ ⟨hvalid', hinlines, hrestOk⟩ => ?_
  exact ⟨hvalid', hresolved.inlines _ _ hinlines,
    List.forall_mem_cons.mpr ⟨hresolved.ok, hrestOk⟩⟩

end Members

/-- **Resolving the members of a list.** It is assumed of the expansion of a component that it
keeps the memo valid, and fails with a defect; every name the list mentions may be expanded. -/
theorem resolveEach_outcome (htags : (spec.fields.map Field.tag).Nodup)
    (hnames : (spec.components.map Component.name).Nodup)
    {expand : Fin spec.components.length → Expander spec → Except Failure (Expander spec)}
    (hexpand : ∀ child expander, expander.Valid stack →
      RefersFrom stack (spec.components.get child).name →
      Outcome (Defect spec) (fun expander' => expander'.Valid stack ∧
        (expander'.expansions child).isSome = true) (expand child expander))
    (members : List Member) : ∀ (context : MemberContext) (lead : Bool) (expander : Expander spec),
    expander.Valid stack → (∀ name, Mentions members name → RefersFrom stack name) →
    (spec.Consistent → ∀ member ∈ members, MemberOk spec member) →
    Outcome (Defect spec) (Resolves stack context lead members)
      (resolveEach spec expand context lead members expander) := by
  induction members using members_induction with
  | nil =>
    intro context lead expander hvalid _ _
    exact ⟨hvalid, .nil, List.forall_mem_nil _⟩
  | field ref members ih =>
    intro context lead expander hvalid hmentions hok
    simp only [List.forall_mem_cons] at hok
    apply resolveEach_cons_outcome
    · exact resolveMember_field_outcome context lead htags hvalid fun hspec => (hok hspec).1
    · intro expander' hvalid'
      exact ih context false expander' hvalid' (fun name h => hmentions name (mentions_cons h))
        fun hspec => (hok hspec).2
  | component ref members ih =>
    intro context lead expander hvalid hmentions hok
    simp only [List.forall_mem_cons] at hok
    apply resolveEach_cons_outcome
    · apply resolveMember_component_outcome context lead hexpand hvalid
      · exact hmentions _ (mentions_component.mpr (Or.inl rfl))
      · exact fun hspec => (hok hspec).1
    · intro expander' hvalid'
      exact ih context false expander' hvalid' (fun name h => hmentions name (mentions_cons h))
        fun hspec => (hok hspec).2
  -- The instance is resolved in a context of its own, and what follows the group in this one.
  | group countTag isRequired inst members ihi ihm =>
    intro context lead expander hvalid hmentions hok
    simp only [List.forall_mem_cons] at hok
    apply resolveEach_cons_outcome
    · apply resolveMember_group_outcome context lead hnames _ fun hspec => (hok hspec).1
      intro inner
      exact ihi inner true expander hvalid
        (fun name h => hmentions name (mentions_group.mpr (Or.inl h)))
        fun hspec => (allOk_iff.mp (hok hspec).1.2.2).1
    · intro expander' hvalid'
      exact ihm context false expander' hvalid' (fun name h => hmentions name (mentions_cons h))
        fun hspec => (hok hspec).2

/-- What is known of a whole list that is resolved. -/
def ResolvesAll (stack : List (Fin spec.components.length)) (context : MemberContext)
    (members : List Member)
    (result : List (ResolvedMember spec.fields.length) × Expander spec) : Prop :=
  result.2.Valid stack ∧ Inlines spec context true false members result.1 ∧ AllOk spec members

variable (context) in
theorem resolveMembers_outcome (htags : (spec.fields.map Field.tag).Nodup)
    (hnames : (spec.components.map Component.name).Nodup)
    {expand : Fin spec.components.length → Expander spec → Except Failure (Expander spec)}
    (hexpand : ∀ child expander, expander.Valid stack →
      RefersFrom stack (spec.components.get child).name →
      Outcome (Defect spec) (fun expander' => expander'.Valid stack ∧
        (expander'.expansions child).isSome = true) (expand child expander))
    {members : List Member} (hvalid : expander.Valid stack)
    (hmentions : ∀ name, Mentions members name → RefersFrom stack name)
    (hok : spec.Consistent → AllOk spec members) :
    Outcome (Defect spec) (ResolvesAll stack context members)
      (resolveMembers spec expand members context expander) := by
  have heach := resolveEach_outcome htags hnames hexpand members context false expander hvalid
    hmentions fun hspec => (allOk_iff.mp (hok hspec)).1
  refine heach.bind fun ⟨resolved, expander'⟩ _ ⟨hvalid', hinlines, hmembers⟩ => ?_
  have hexpandsTo := hinlines.expandsTo
  have hcomplete := completeMembers_outcome context false fun hspec => (allOk_iff.mp (hok hspec)).2 _ hexpandsTo
  refine hcomplete.bind fun completed _ ⟨hcompleted, hnodup⟩ => ?_
  subst hcompleted
  refine ⟨hvalid', hinlines, allOk_iff.mpr ⟨hmembers, fun tags htags' => ?_⟩⟩
  rw [← hexpandsTo.det hnames htags']
  exact hnodup

end Lookup

/-! ## Components -/

section Components

variable {stack : List (Fin spec.components.length)} {expander : Expander spec}

/-- A component mentioned by the top of the stack and found on it refers to itself. -/
theorem StackOk.cycle (hstack : StackOk stack) {index : Fin spec.components.length}
    (hrefers : RefersFrom stack (spec.components.get index).name) (hmem : index ∈ stack) :
    Relation.TransGen spec.Refers (spec.components.get index).name
      (spec.components.get index).name := by
  cases stack with
  | nil => cases hmem
  | cons top stack =>
    have htop : spec.Refers (spec.components.get index).name (spec.components.get top).name :=
      hrefers top rfl
    -- whatever is deeper in the stack leads up to the top
    have hpairwise : (top :: stack).Pairwise fun child parent =>
        Relation.TransGen spec.Refers (spec.components.get child).name
          (spec.components.get parent).name := by
      have hchain := hstack.chain.imp fun child parent h => Relation.TransGen.single (r := spec.Refers) h
      have htrans : IsTrans (Fin spec.components.length) fun child parent =>
          Relation.TransGen spec.Refers (spec.components.get child).name
            (spec.components.get parent).name := ⟨fun _ _ _ h h' => h.trans h'⟩
      exact List.isChain_iff_pairwise.mp hchain
    rcases List.mem_cons.mp hmem with rfl | hdeeper
    · exact .single htop
    · exact .trans (.single htop) (List.rel_of_pairwise_cons hpairwise hdeeper)

theorem StackOk.cons (hstack : StackOk stack) {index : Fin spec.components.length}
    (hrefers : RefersFrom stack (spec.components.get index).name) (hfresh : index ∉ stack) :
    StackOk (index :: stack) := by
  refine ⟨List.nodup_cons.mpr ⟨hfresh, hstack.nodup⟩, ?_⟩
  cases stack with
  | nil => exact List.isChain_singleton _
  | cons top stack => exact List.isChain_cons_cons.mpr ⟨hrefers top rfl, hstack.chain⟩

/-- **Expanding a component.** The stack holds each component once, so that the fuel for the
components that are not on it is enough. -/
theorem expandComponent_outcome (htags : (spec.fields.map Field.tag).Nodup)
    (hnames : (spec.components.map Component.name).Nodup) (fuel : ℕ) :
    ∀ (stack : List (Fin spec.components.length)) (index : Fin spec.components.length)
      (expander : Expander spec), expander.Valid stack → StackOk stack →
      spec.components.length < fuel + stack.length →
      RefersFrom stack (spec.components.get index).name →
      Outcome (Defect spec) (fun expander' => expander'.Valid stack ∧
        (expander'.expansions index).isSome = true) (expandComponent spec fuel index expander) := by
  induction fuel with
  | zero =>
    intro stack index expander hvalid hstack hfuel hrefers
    -- The stack holds distinct components, so it cannot be longer than there are.
    have hlength : stack.length ≤ spec.components.length := by
      simpa using hstack.nodup.length_le_card
    omega
  | succ fuel ih =>
    intro stack index expander hvalid hstack hfuel hrefers
    rw [expandComponent]
    split
    · next hdone => exact ⟨hvalid, hdone⟩
    simp only
    split
    -- A component that is on the stack already closes a cycle.
    · next hmem =>
      rw [hvalid.stack_eq] at hmem
      exact ⟨⟨_, rfl⟩, fun hspec => hspec.acyclic _ (hstack.cycle hrefers hmem)⟩
    next hfresh =>
    rw [hvalid.stack_eq] at hfresh
    have hmem : spec.components.get index ∈ spec.components := List.getElem_mem index.isLt
    have hpushed : Expander.Valid { expander with stack := index :: expander.stack }
        (index :: stack) := ⟨hvalid.expansions, by rw [hvalid.stack_eq]⟩
    have hmembers := resolveMembers_outcome (.component (spec.components.get index).name)
      htags hnames
      (fun child expander' hvalid' => ih (index :: stack) child expander' hvalid'
        (hstack.cons hrefers hfresh) (by rw [List.length_cons]; omega))
      hpushed
      (fun name h top htop => by
        cases htop
        exact ⟨_, hmem, rfl, h⟩)
      (fun hspec nested => hspec.lists_ok _ nested (.component hmem))
    refine hmembers.bind fun ⟨members, expander'⟩ _ ⟨hvalid', hinlines, hall⟩ => ?_
    have hstackEq : expander'.stack.tail = stack := by
      rw [hvalid'.stack_eq]
      rfl
    refine ⟨⟨fun other expansion hexpansion => ?_, hstackEq⟩, by simp⟩
    simp only at hexpansion
    -- The memo gains this expansion only; the others are those that the members left.
    by_cases hother : other = index
    · subst hother
      rw [Function.update_self] at hexpansion
      cases hexpansion
      exact ⟨⟨members, rfl, hinlines⟩, hall⟩
    · rw [Function.update_of_ne hother] at hexpansion
      exact hvalid'.expansions other expansion hexpansion

/-- With nothing on the stack, there is fuel for every component. -/
theorem expandComponent_fuel (htags : (spec.fields.map Field.tag).Nodup)
    (hnames : (spec.components.map Component.name).Nodup) (child : Fin spec.components.length)
    (expander : Expander spec) (hvalid : expander.Valid []) :
    Outcome (Defect spec) (fun expander' => expander'.Valid [] ∧
      (expander'.expansions child).isSome = true)
      (expandComponent spec spec.fuel child expander) :=
  expandComponent_outcome htags hnames spec.fuel [] child expander hvalid
    ⟨List.nodup_nil, List.isChain_nil⟩ (Nat.lt_succ_self _) nofun

/-- Resolving the header, the trailer or a message's members. -/
theorem resolveRoot_outcome (htags : (spec.fields.map Field.tag).Nodup)
    (hnames : (spec.components.map Component.name).Nodup) {members : List Member}
    (context : MemberContext) (hroot : spec.IsRoot members) (hvalid : expander.Valid []) :
    Outcome (Defect spec) (ResolvesAll [] context members)
      (resolveMembers spec (expandComponent spec spec.fuel) members context expander) :=
  resolveMembers_outcome _ htags hnames
    (fun child expander hvalid _ => expandComponent_fuel htags hnames child expander hvalid)
    hvalid nofun fun hspec nested => hspec.lists_ok _ nested hroot

/-- What is known of a component that is expanded. -/
def ComponentOk (spec : Spec) (component : Component) : Prop :=
  AllOk spec component.members ∧ ∃ tags, ExpandsTo spec component.members tags

theorem foldlM_expandComponent_outcome (htags : (spec.fields.map Field.tag).Nodup)
    (hnames : (spec.components.map Component.name).Nodup)
    (indices : List (Fin spec.components.length)) :
    ∀ expander : Expander spec, expander.Valid [] →
    Outcome (Defect spec) (fun expander' => expander'.Valid [] ∧
        ∀ index ∈ indices, ComponentOk spec (spec.components.get index))
      (indices.foldlM (fun expander index => expandComponent spec spec.fuel index expander)
        expander) := by
  induction indices with
  | nil => exact fun expander hvalid => ⟨hvalid, List.forall_mem_nil _⟩
  | cons index indices ih =>
    intro expander hvalid
    rw [List.foldlM_cons]
    have hexpand := expandComponent_fuel htags hnames index expander hvalid
    refine hexpand.bind fun expander' _ ⟨hvalid', hsome⟩ => ?_
    obtain ⟨expansion, hexpansion⟩ := Option.isSome_iff_exists.mp hsome
    obtain ⟨⟨resolved, _, hinlines⟩, hall⟩ := hvalid'.expansions index expansion hexpansion
    have hok : ComponentOk spec (spec.components.get index) := ⟨hall, _, hinlines.expandsTo⟩
    refine (ih expander' hvalid').mono fun expander'' ⟨hvalid'', hrest⟩ => ?_
    exact ⟨hvalid'', List.forall_mem_cons.mpr ⟨hok, hrest⟩⟩

theorem expandComponents_outcome (htags : (spec.fields.map Field.tag).Nodup)
    (hnames : (spec.components.map Component.name).Nodup) :
    Outcome (Defect spec) (fun expander => expander.Valid [] ∧
        ∀ component ∈ spec.components, ComponentOk spec component)
      (expandComponents spec (Expander.new spec)) := by
  have hfold := foldlM_expandComponent_outcome htags hnames
    (List.finRange spec.components.length) (Expander.new spec) ⟨nofun, rfl⟩
  refine hfold.mono fun expander ⟨hvalid, hall⟩ => ⟨hvalid, fun component hmem => ?_⟩
  obtain ⟨i, hi, rfl⟩ := List.getElem_of_mem hmem
  exact hall ⟨i, hi⟩ (List.mem_finRange _)

end Components

/-! ## Messages -/

section Messages

variable {header trailer : List (ResolvedMember spec.fields.length)} {expander : Expander spec}

/-- What is known of a message that is resolved. -/
def MessageOk (spec : Spec) (message : Message) : Prop :=
  AllOk spec message.members ∧
    ∀ tags, ExpandsTo spec (spec.header ++ message.members ++ spec.trailer) tags → tags.Nodup

def ResolvesMessage (spec : Spec) (message : Message)
    (members : List (ResolvedMember spec.fields.length)) : Prop :=
  MessageOk spec message ∧ Inlines spec (.message message.name) true false message.members members

theorem resolveMessage_outcome (htags : (spec.fields.map Field.tag).Nodup)
    (hnames : (spec.components.map Component.name).Nodup)
    (hheader : Inlines spec .header true false spec.header header)
    (htrailer : Inlines spec .trailer true false spec.trailer trailer) {message : Message}
    (hmessage : message ∈ spec.messages) (hvalid : expander.Valid []) :
    Outcome (Defect spec) (fun result => result.2.Valid [] ∧ ResolvesMessage spec message result.1)
      (resolveMessage spec header trailer message expander) := by
  have hmembers := resolveRoot_outcome htags hnames (.message message.name) (.message hmessage)
    hvalid
  refine hmembers.bind fun ⟨members, expander'⟩ _ ⟨hvalid', hinlines, hall⟩ => ?_
  have hexpandsTo := (hheader.expandsTo.append hinlines.expandsTo).append htrailer.expandsTo
  have hfail : ∀ failure, Repeated [] (tagsOf spec.fields header ++ tagsOf spec.fields members ++
      tagsOf spec.fields trailer) failure → Defect spec failure := by
    intro failure ⟨herror, hrepeat⟩
    refine ⟨herror, fun hspec => hrepeat ?_⟩
    have hnodup := hspec.messages_unique message hmessage _ hexpandsTo
    simpa using List.nodup_reverse.mpr hnodup
  -- the tags of the header, then of the message, then of the trailer
  refine Outcome.bind ((insertUniqueTags_outcome spec.fields header .header [] List.nodup_nil).imp
    (fun _ h => hfail _ h.append.append) fun _ => id) fun seen _ hseen => ?_
  refine Outcome.bind ((insertUniqueTags_outcome spec.fields members _ seen hseen.2).imp
    (fun _ h => hfail _ (h.after hseen).append) fun _ => hseen.trans) fun seen' _ hseen' => ?_
  refine Outcome.bind ((insertUniqueTags_outcome spec.fields trailer .trailer seen' hseen'.2).imp
    (fun _ h => hfail _ (h.after hseen')) fun _ => hseen'.trans) fun seen'' _ hseen'' => ?_
  refine ⟨hvalid', ⟨hall, fun tags htags' => ?_⟩, hinlines⟩
  have hnodup := hseen''.2
  rw [hseen''.1, List.map_nil, List.append_nil, List.nodup_reverse] at hnodup
  rw [← hexpandsTo.det hnames htags']
  exact hnodup

theorem resolveMessages_outcome (htags : (spec.fields.map Field.tag).Nodup)
    (hnames : (spec.components.map Component.name).Nodup)
    (hheader : Inlines spec .header true false spec.header header)
    (htrailer : Inlines spec .trailer true false spec.trailer trailer) (messages : List Message) :
    ∀ expander : Expander spec, expander.Valid [] → messages ⊆ spec.messages →
    Outcome (Defect spec) (fun resolved => List.Forall₂ (ResolvesMessage spec) messages resolved)
      (resolveMessages spec header trailer messages expander) := by
  induction messages with
  | nil => exact fun expander _ _ => .nil
  | cons message messages ih =>
    intro expander hvalid hsub
    have hfirst := resolveMessage_outcome htags hnames hheader htrailer
      (hsub List.mem_cons_self) hvalid
    refine hfirst.bind fun ⟨members, expander'⟩ _ ⟨hvalid', hmembers⟩ => ?_
    have hrest := ih expander' hvalid' fun _ h => hsub (List.mem_cons_of_mem _ h)
    exact hrest.bind fun resolved _ hresolved => .cons hmembers hresolved

end Messages

/-! ## The dictionary -/

/-- The conditions the definitions are checked for. -/
structure DefinitionsOk (spec : Spec) : Prop where
  tags_unique : (spec.fields.map Field.tag).Nodup
  values_integer : ∀ field ∈ spec.fields, field.dataType.isIntBased = true →
    ∀ value ∈ field.values, IsInteger value.value
  codes_unique : ∀ field ∈ spec.fields, field.values.Pairwise fun first second =>
    ¬ field.dataType.SameCode first.value second.value
  msgTypes_unique : (spec.messages.map Message.msgType).Nodup
  lengthTag_ok : ∀ field ∈ spec.fields, LengthTagOk spec.fields field
  lengthTags_unique : (spec.fields.filterMap Field.lengthTag).Nodup
  components_unique : (spec.components.map Component.name).Nodup

theorem checkDefinitions_outcome :
    Outcome (Defect spec) (fun _ => DefinitionsOk spec) (checkDefinitions spec) := by
  unfold checkDefinitions
  refine ((checkIntValues_decides spec.fields).defect (·.values_integer)).bind fun _ _ hvalues => ?_
  refine ((checkUniqueCodes_decides spec.fields).defect (·.codes_unique)).bind fun _ _ hcodes => ?_
  refine ((checkUniqueMsgTypes_decides spec.messages).defect (·.msgTypes_unique)).bind
    fun _ _ hmsgTypes => ?_
  refine ((indexFields_decides spec.fields).defect (·.tags_unique)).bind fun _ _ htags => ?_
  refine ((checkLengthTags_decides htags).defect
    fun hspec => ⟨hspec.lengthTag_ok, hspec.lengthTags_unique⟩).bind fun _ _ hlength => ?_
  refine ((indexComponents_decides spec.components).defect (·.components_unique)).mono
    fun _ hnames => ?_
  exact ⟨htags, hvalues, hcodes, hmsgTypes, hlength.1, hlength.2, hnames⟩

/-- What a dictionary is: the spec it was resolved from, and the members its lists stand for. -/
inductive Spec.ResolvesTo (spec : Spec) : Dictionary → Prop where
  | mk {header trailer : List (ResolvedMember spec.fields.length)}
      {messages : List (List (ResolvedMember spec.fields.length))}
      (header_inlines : Inlines spec .header true false spec.header header)
      (messages_inline : List.Forall₂ (fun message members =>
        Inlines spec (.message message.name) true false message.members members)
        spec.messages messages)
      (trailer_inlines : Inlines spec .trailer true false spec.trailer trailer) :
      spec.ResolvesTo { spec, header, messages, trailer }

/-- **What resolving a spec comes to.** -/
theorem resolve_outcome (spec : Spec) :
    Outcome (Defect spec) (fun dictionary => spec.Consistent ∧ spec.ResolvesTo dictionary)
      spec.resolve := by
  refine checkDefinitions_outcome.bind fun _ _ hdefinitions => ?_
  have htags := hdefinitions.tags_unique
  have hnames := hdefinitions.components_unique
  refine (expandComponents_outcome htags hnames).bind fun expander _ ⟨hvalid, hcomponents⟩ => ?_
  have hheader := resolveRoot_outcome htags hnames .header .header hvalid
  refine hheader.bind fun ⟨header, expander⟩ _ ⟨hvalid, hheader, hheaderOk⟩ => ?_
  have htrailer := resolveRoot_outcome htags hnames .trailer .trailer hvalid
  refine htrailer.bind fun ⟨trailer, expander⟩ _ ⟨hvalid, htrailer, htrailerOk⟩ => ?_
  have hmessages := resolveMessages_outcome htags hnames hheader htrailer spec.messages expander
    hvalid (List.Subset.refl _)
  refine hmessages.bind fun messages _ hmessages => ?_
  obtain ⟨hmessagesOk, hmessages⟩ := (List.forall₂_and_left _ _).mp hmessages
  refine ⟨?_, .mk hheader hmessages htrailer⟩
  have hexpands := fun component h => (hcomponents component h).2
  refine { hdefinitions with
    lists_ok := ?_
    acyclic := acyclic_of_expandsTo hnames hexpands
    messages_unique := fun message h => (hmessagesOk message h).2 }
  intro root members hroot hnested
  cases hroot with
  | header => exact hheaderOk members hnested
  | trailer => exact htrailerOk members hnested
  | message h => exact (hmessagesOk _ h).1 members hnested
  | component h => exact (hcomponents _ h).1 members hnested

end Expansion

/-- **Resolving accepts exactly the consistent specs.** It always ends, with a dictionary or an
error. -/
theorem resolve_accepts (spec : Spec) :
    ((∃ dictionary, spec.resolve = .ok dictionary) ↔ spec.Consistent) ∧
      ((∃ dictionary, spec.resolve = .ok dictionary) ∨
        ∃ error, spec.resolve = .error (.error error)) := by
  have hresolve := resolve_outcome spec
  cases h : spec.resolve with
  | ok dictionary =>
    rw [h] at hresolve
    exact ⟨⟨fun _ => hresolve.1, fun _ => ⟨dictionary, rfl⟩⟩, Or.inl ⟨dictionary, rfl⟩⟩
  | error failure =>
    rw [h] at hresolve
    obtain ⟨⟨error, rfl⟩, hspec⟩ := hresolve
    exact ⟨⟨nofun, fun hconsistent => absurd hconsistent hspec⟩, Or.inr ⟨error, rfl⟩⟩

end Refix.Dict
