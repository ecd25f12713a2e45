import Refix.Dictionary.Acceptance
import Refix.Dictionary.Parser

/-!
# Length Tags of a QuickFIX Dictionary

Which LENGTH field a data field is linked to: the one listed directly before it, in whatever list.
Where the lists agree, every order of the messages and components gives the same links, and where
two of them differ, every order is refused.
-/

namespace Refix.Dict

open Refix.Foundation
open Refix.Message (Tag)

/-! ## What is listed -/

/-- Two fields of the given tags are listed directly after one another, somewhere in the spec. -/
def Spec.ListsDirectly (spec : Spec) (first second : Tag) : Prop :=
  ∃ root members, spec.IsRoot root ∧ Nested root members ∧ ∃ ref ref' : FieldRef,
    [.field ref, .field ref'] <:+: members ∧ ref.tag = first ∧ ref'.tag = second

/-- The lists of the header, the trailer and the messages, those of the groups in them, and those
of the components they refer to. -/
inductive Spec.InUse (spec : Spec) : List Member → Prop where
  | header : spec.InUse spec.header
  | trailer : spec.InUse spec.trailer
  | message {message : Message} (h : message ∈ spec.messages) : spec.InUse message.members
  | group {countTag : Tag} {isRequired : Bool} {inst members : List Member}
      (h : spec.InUse members) (hmem : .group countTag isRequired inst ∈ members) :
      spec.InUse inst
  | component {ref : ComponentRef} {component : Component} {members : List Member}
      (h : spec.InUse members) (hmem : .component ref ∈ members)
      (hcomponent : component ∈ spec.components) (hname : component.name = ref.name) :
      spec.InUse component.members

/-- A field of the header, the trailer or a message, at any depth. -/
def Spec.Uses (spec : Spec) (field : Field) : Prop :=
  field ∈ spec.fields ∧ ∃ members, spec.InUse members ∧
    ∃ ref : FieldRef, .field ref ∈ members ∧ ref.tag = field.tag

/-- The count field of a group in the header, the trailer or a message, at any depth. -/
def Spec.Counts (spec : Spec) (field : Field) : Prop :=
  field ∈ spec.fields ∧ ∃ members, spec.InUse members ∧
    ∃ isRequired inst, .group field.tag isRequired inst ∈ members

section InUse

variable {spec : Spec} {root members : List Member}

/-- A list in use is one of the lists that are checked. -/
theorem Spec.InUse.exists_root (h : spec.InUse members) :
    ∃ root, spec.IsRoot root ∧ Nested root members := by
  induction h with
  | header => exact ⟨_, .header, .refl _⟩
  | trailer => exact ⟨_, .trailer, .refl _⟩
  | message h => exact ⟨_, .message h, .refl _⟩
  | group _ hmem ih =>
    obtain ⟨root, hroot, hnested⟩ := ih
    exact ⟨root, hroot, hnested.trans (.group hmem (.refl _))⟩
  | component _ _ hcomponent _ _ => exact ⟨_, .component hcomponent, .refl _⟩

/-- **A data field in use has a length tag**, in a consistent spec. -/
theorem Spec.Consistent.lengthTag_ne_none (hspec : spec.Consistent) {field : Field}
    (h : spec.Uses field) (hdata : field.dataType.hasLengthField = true) :
    field.lengthTag ≠ none := by
  obtain ⟨hmem, members, huse, ref, href, htag⟩ := h
  obtain ⟨root, hroot, hnested⟩ := huse.exists_root
  exact (hspec.lists_ok root members hroot hnested).references.length ref href field hmem
    htag.symm hdata

end InUse

namespace Quickfix

/-! ## Pairs of neighbours -/

mutual

/-- The neighbours in the groups of a list, in the order they are looked at. -/
def groupPairs : List Member → List (Member × Member)
  | [] => []
  | member :: members => memberPairs member ++ groupPairs members

def memberPairs : Member → List (Member × Member)
  | .group _ _ members => groupPairs members ++ members.zip members.tail
  | _ => []

end

/-- The neighbours in a list and in the groups within. -/
def listPairs (members : List Member) : List (Member × Member) :=
  groupPairs members ++ members.zip members.tail

section Pairs

variable {fields : List Field} {members : List Member} {first second : Member}

theorem collectGroups_eq (fields : List Field) (members : List Member) :
    ∀ lengthTags, collectGroups fields members lengthTags =
      (groupPairs members).foldlM (linkPair fields) lengthTags := by
  induction members using members_induction with
  | nil => exact fun _ => rfl
  | field ref members ih => exact ih
  | component ref members ih => exact ih
  | group countTag isRequired inst members hinst ih =>
    intro lengthTags
    simp only [collectGroups, collectGroup, linkPairs, groupPairs, memberPairs,
      List.foldlM_append, hinst, ih]

/-- One list is linked by looking at its pairs of neighbours, one after another. -/
theorem collectLengthTags_eq (fields : List Field) (members : List Member)
    (lengthTags : LengthTags) : collectLengthTags fields members lengthTags =
      (listPairs members).foldlM (linkPair fields) lengthTags := by
  rw [collectLengthTags, collectGroups_eq, listPairs, List.foldlM_append]
  rfl

theorem mem_zip_tail_iff : (first, second) ∈ members.zip members.tail ↔
    [first, second] <:+: members := by
  induction members with
  | nil => simp
  | cons member members ih =>
    rw [List.infix_cons_iff, ← ih]
    cases members with
    | nil => simp
    | cons next members =>
      simp only [List.tail_cons, List.zip_cons_cons, List.mem_cons, Prod.mk.injEq,
        List.cons_prefix_cons, List.nil_prefix, and_true]

theorem mem_groupPairs_iff (members : List Member) :
    (first, second) ∈ groupPairs members ↔ ∃ countTag isRequired inst nested,
      .group countTag isRequired inst ∈ members ∧ Nested inst nested ∧
        [first, second] <:+: nested := by
  induction members using members_induction with
  | nil => simp [groupPairs]
  | field ref members ih => simpa [groupPairs, memberPairs] using ih
  | component ref members ih => simpa [groupPairs, memberPairs] using ih
  | group countTag isRequired inst members hinst ih =>
    rw [groupPairs, memberPairs, List.mem_append, List.mem_append, mem_zip_tail_iff, hinst, ih]
    constructor
    · rintro ((⟨countTag', isRequired', inst', nested, hmem, hnested, hpair⟩ | hpair) |
        ⟨countTag', isRequired', inst', nested, hmem, hnested, hpair⟩)
      · exact ⟨countTag, isRequired, inst, nested, List.mem_cons_self, .group hmem hnested, hpair⟩
      · exact ⟨countTag, isRequired, inst, inst, List.mem_cons_self, .refl _, hpair⟩
      · exact ⟨countTag', isRequired', inst', nested, List.mem_cons_of_mem _ hmem, hnested, hpair⟩
    · rintro ⟨countTag', isRequired', inst', nested, hmem, hnested, hpair⟩
      rcases List.mem_cons.mp hmem with heq | hmem
      · cases heq
        left
        cases hnested with
        | refl => exact Or.inr hpair
        | group hmem hnested => exact Or.inl ⟨_, _, _, nested, hmem, hnested, hpair⟩
      · exact Or.inr ⟨countTag', isRequired', inst', nested, hmem, hnested, hpair⟩

/-- The pairs that are looked at are the neighbours of the lists within. -/
theorem mem_listPairs_iff :
    (first, second) ∈ listPairs members ↔
      ∃ nested, Nested members nested ∧ [first, second] <:+: nested := by
  rw [listPairs, List.mem_append, mem_zip_tail_iff, mem_groupPairs_iff]
  constructor
  · rintro (⟨countTag, isRequired, inst, nested, hmem, hnested, hpair⟩ | hpair)
    · exact ⟨nested, .group hmem hnested, hpair⟩
    · exact ⟨members, .refl _, hpair⟩
  · rintro ⟨nested, hnested, hpair⟩
    cases hnested with
    | refl => exact Or.inr hpair
    | group hmem hnested => exact Or.inl ⟨_, _, _, nested, hmem, hnested, hpair⟩

end Pairs

/-! ## Linking -/

/-- A pair of neighbours is a LENGTH field and a data field. -/
structure PairLinks (fields : List Field) (pair : Member × Member) (data length : Tag) : Prop where
  refs : ∃ first second : FieldRef, pair = (.field first, .field second) ∧
    first.tag = length ∧ second.tag = data
  length_type : ∃ field, fieldByTag fields length = .ok field ∧ field.dataType = .length
  data_type : ∃ field, fieldByTag fields data = .ok field ∧ field.dataType.hasLengthField = true

/-- Some pair links the data field to the LENGTH field. -/
def SomeLinks (fields : List Field) (pairs : List (Member × Member)) (data length : Tag) : Prop :=
  ∃ pair ∈ pairs, PairLinks fields pair data length

/-- No data field is linked to two LENGTH fields. -/
def Agree (links : Tag → Tag → Prop) : Prop :=
  ∀ data length length', links data length → links data length' → length = length'

/-- The length tags that are recorded are the links. -/
def Records (links : Tag → Tag → Prop) (lengthTags : LengthTags) : Prop :=
  ∀ data length, lengthTags.lookup data = some length ↔ links data length

/-- Every field of a pair is defined. -/
def PairDefined (fields : List Field) (pair : Member × Member) : Prop :=
  ∀ ref, (pair.1 = .field ref ∨ pair.2 = .field ref) →
    ∃ field, fieldByTag fields ref.tag = .ok field

/-- A failure to link: two LENGTH fields for one data field. -/
def Conflicts (failure : Failure) : Prop :=
  ∃ field first second, failure = .error (.conflictingLengthFields field first second)

section Linking

variable {fields : List Field} {pairs : List (Member × Member)}

theorem Records.agree {links : Tag → Tag → Prop} {lengthTags : LengthTags}
    (h : Records links lengthTags) : Agree links := by
  intro data length length' hlink hlink'
  rw [← h] at hlink hlink'
  exact Option.some.inj (hlink.symm.trans hlink')

theorem someLinks_concat {pair : Member × Member} {data length : Tag} :
    SomeLinks fields (pairs ++ [pair]) data length ↔
      SomeLinks fields pairs data length ∨ PairLinks fields pair data length := by
  simp [SomeLinks, or_and_right, exists_or]

/-- A pair that makes no link leaves the length tags as they are. -/
theorem Records.of_not_links {pair : Member × Member} {lengthTags : LengthTags}
    (h : Records (SomeLinks fields pairs) lengthTags)
    (hpair : ∀ data length, ¬ PairLinks fields pair data length) :
    Records (SomeLinks fields (pairs ++ [pair])) lengthTags := by
  intro data length
  rw [h, someLinks_concat]
  simp [hpair]

theorem linkPair_outcome {pair : Member × Member} {lengthTags : LengthTags}
    (h : Records (SomeLinks fields pairs) lengthTags) (hdefined : PairDefined fields pair) :
    Outcome (fun failure => Conflicts failure ∧ ¬ Agree (SomeLinks fields (pairs ++ [pair])))
      (Records (SomeLinks fields (pairs ++ [pair]))) (linkPair fields lengthTags pair) := by
  unfold linkPair
  split
  · next first second =>
    obtain ⟨lengthField, hlength⟩ := hdefined first (Or.inl rfl)
    obtain ⟨dataField, hdata⟩ := hdefined second (Or.inr rfl)
    rw [hlength, hdata]
    simp only [bind, Except.bind]
    split
    · next htypes =>
      refine h.of_not_links fun data length hlinks => ?_
      obtain ⟨⟨_, _, heq, rfl, rfl⟩, ⟨field, hfield, htype⟩, field', hfield', htype'⟩ := hlinks
      cases heq
      cases hlength.symm.trans hfield
      cases hdata.symm.trans hfield'
      rcases htypes with hnot | hnot
      · exact hnot htype
      · rw [htype'] at hnot
        cases hnot
    next htypes =>
    simp only [not_or, not_not, Bool.not_eq_false] at htypes
    have hlink : PairLinks fields (.field first, .field second) second.tag first.tag :=
      ⟨⟨first, second, rfl, rfl, rfl⟩, ⟨lengthField, hlength, htypes.1⟩,
        dataField, hdata, htypes.2⟩
    have honly : ∀ data length, PairLinks fields (.field first, .field second) data length →
        data = second.tag ∧ length = first.tag := by
      rintro data length ⟨⟨_, _, heq, rfl, rfl⟩, -, -⟩
      cases heq
      exact ⟨rfl, rfl⟩
    split
    · next hnone =>
      -- the first place that lists the data field
      intro data length
      rw [List.lookup_cons, someLinks_concat]
      by_cases hsame : data = second.tag
      · subst hsame
        simp only [beq_self_eq_true, Option.some.injEq]
        constructor
        · rintro rfl
          exact Or.inr hlink
        · rintro (hbefore | hpair)
          · rw [← h, hnone] at hbefore
            cases hbefore
          · exact (honly _ _ hpair).2.symm
      · have hne : (data == second.tag) = false := beq_false_of_ne hsame
        rw [hne, h]
        constructor
        · exact Or.inl
        · rintro (hbefore | hpair)
          · exact hbefore
          · exact absurd (honly _ _ hpair).1 hsame
    · next known hknown =>
      have hbefore : SomeLinks fields pairs second.tag known := (h _ _).mp hknown
      split
      · next hne =>
        obtain ⟨-, -, -, ⟨firstField, hfirst, -⟩, -⟩ := hbefore
        rw [hfirst]
        refine ⟨⟨_, _, _, rfl⟩, fun hagree => hne ?_⟩
        exact hagree second.tag known first.tag
          (someLinks_concat.mpr (Or.inl ((h _ _).mp hknown))) (someLinks_concat.mpr (Or.inr hlink))
      · next heq =>
        rw [not_not] at heq
        intro data length
        rw [h, someLinks_concat]
        refine ⟨Or.inl, ?_⟩
        rintro (hbefore' | hpair)
        · exact hbefore'
        · obtain ⟨rfl, rfl⟩ := honly _ _ hpair
          rwa [← heq]
  · next hnot =>
    refine h.of_not_links fun data length hlinks => ?_
    obtain ⟨⟨first, second, rfl, -, -⟩, -, -⟩ := hlinks
    exact hnot first second rfl

/-- **What linking comes to**: the links that the pairs make, if they agree. -/
theorem foldlM_linkPair_outcome (hdefined : ∀ pair ∈ pairs, PairDefined fields pair) :
    Outcome (fun failure => Conflicts failure ∧ ¬ Agree (SomeLinks fields pairs))
      (Records (SomeLinks fields pairs)) (pairs.foldlM (linkPair fields) []) := by
  refine Outcome.foldlM (fun done => Records (SomeLinks fields done)) ?_ ?_
  · intro done pair rest hsplit lengthTags hrecords
    have hpair : pair ∈ pairs := by simp [hsplit]
    refine (linkPair_outcome hrecords (hdefined pair hpair)).imp ?_ fun _ h => h
    rintro failure ⟨hconflicts, hnot⟩
    refine ⟨hconflicts, fun hagree => hnot ?_⟩
    -- a disagreement among the first pairs is one among all
    have hmono : ∀ data length, SomeLinks fields (done ++ [pair]) data length →
        SomeLinks fields pairs data length := by
      rintro data length ⟨other, hother, hlinks⟩
      refine ⟨other, ?_, hlinks⟩
      rw [hsplit, ← List.singleton_append, ← List.append_assoc]
      exact List.mem_append_left _ hother
    exact fun data length length' h h' =>
      hagree data length length' (hmono _ _ h) (hmono _ _ h')
  · intro data length
    simp [SomeLinks]

end Linking

/-! ## Links of a spec -/

/-- A data field is listed directly after a LENGTH field, somewhere in the spec. -/
structure Links (spec : Spec) (data length : Tag) : Prop where
  listed : spec.ListsDirectly length data
  length_type : ∃ field, fieldByTag spec.fields length = .ok field ∧ field.dataType = .length
  data_type : ∃ field, fieldByTag spec.fields data = .ok field ∧
    field.dataType.hasLengthField = true

/-- Every field that a list refers to is defined, at any group depth. -/
def FieldsDefined (fields : List Field) (members : List Member) : Prop :=
  ∀ nested, Nested members nested → ∀ ref : FieldRef, .field ref ∈ nested →
    ∃ field, fieldByTag fields ref.tag = .ok field

section Spec

variable {spec : Spec}

/-- The member lists of a spec, in the order they are linked. -/
def memberLists (spec : Spec) : List (List Member) :=
  [spec.header, spec.trailer] ++ spec.messages.map Message.members ++
    spec.components.map Component.members

theorem mem_memberLists_iff {members : List Member} :
    members ∈ memberLists spec ↔ spec.IsRoot members := by
  simp only [memberLists, List.mem_append, List.mem_cons, List.not_mem_nil, or_false, List.mem_map]
  constructor
  · rintro (((rfl | rfl) | ⟨message, h, rfl⟩) | ⟨component, h, rfl⟩)
    · exact .header
    · exact .trailer
    · exact .message h
    · exact .component h
  · intro h
    cases h with
    | header => exact Or.inl (Or.inl (Or.inl rfl))
    | trailer => exact Or.inl (Or.inl (Or.inr rfl))
    | message h => exact Or.inl (Or.inr ⟨_, h, rfl⟩)
    | component h => exact Or.inr ⟨_, h, rfl⟩

/-- The links of a spec are those that its pairs of neighbours make. -/
theorem links_iff {data length : Tag} :
    Links spec data length ↔
      SomeLinks spec.fields ((memberLists spec).flatMap listPairs) data length := by
  constructor
  · rintro ⟨⟨root, members, hroot, hnested, ref, ref', hpair, hfirst, hsecond⟩, hlength, hdata⟩
    refine ⟨(.field ref, .field ref'), ?_, ⟨ref, ref', rfl, hfirst, hsecond⟩, hlength, hdata⟩
    exact List.mem_flatMap.mpr ⟨root, mem_memberLists_iff.mpr hroot,
      mem_listPairs_iff.mpr ⟨members, hnested, hpair⟩⟩
  · rintro ⟨pair, hpair, ⟨ref, ref', rfl, hfirst, hsecond⟩, hlength, hdata⟩
    obtain ⟨root, hroot, hpair⟩ := List.mem_flatMap.mp hpair
    obtain ⟨members, hnested, hpair⟩ := mem_listPairs_iff.mp hpair
    exact ⟨⟨root, members, mem_memberLists_iff.mp hroot, hnested, ref, ref', hpair, hfirst,
      hsecond⟩, hlength, hdata⟩

/-- **What linking a spec comes to**: each field with its link, if no data field has two. -/
theorem linkLengthFields_outcome
    (hdefined : ∀ root, spec.IsRoot root → FieldsDefined spec.fields root) :
    Outcome (fun failure => Conflicts failure ∧ ¬ Agree (Links spec))
      (fun fields => ∃ lengthTags, Records (Links spec) lengthTags ∧
        fields = spec.fields.map fun field =>
          { field with lengthTag := lengthTags.lookup field.tag })
      (linkLengthFields spec.fields spec.header spec.trailer spec.messages spec.components) := by
  have hlinks : SomeLinks spec.fields ((memberLists spec).flatMap listPairs) = Links spec := by
    funext data length
    exact propext links_iff.symm
  have hloop : (memberLists spec).foldlM (fun lengthTags members =>
      collectLengthTags spec.fields members lengthTags) [] =
      ((memberLists spec).flatMap listPairs).foldlM (linkPair spec.fields) [] := by
    generalize memberLists spec = lists, ([] : LengthTags) = lengthTags
    induction lists generalizing lengthTags with
    | nil => rfl
    | cons members lists ih =>
      rw [List.foldlM_cons, List.flatMap_cons, List.foldlM_append, collectLengthTags_eq]
      simp only [ih]
  have hpairs : ∀ pair ∈ (memberLists spec).flatMap listPairs, PairDefined spec.fields pair := by
    intro pair hpair ref href
    obtain ⟨root, hroot, hpair⟩ := List.mem_flatMap.mp hpair
    obtain ⟨members, hnested, hpair⟩ := mem_listPairs_iff.mp hpair
    refine hdefined root (mem_memberLists_iff.mp hroot) members hnested ref ?_
    rcases href with href | href
    · exact hpair.subset (by simp [href])
    · exact hpair.subset (by simp [href])
  have hrun := foldlM_linkPair_outcome hpairs
  rw [hlinks, ← hloop] at hrun
  exact hrun.bind fun lengthTags _ hrecords => ⟨lengthTags, hrecords, rfl⟩

/-- **The order of messages and components does not matter.** Where the lists agree, every order
gives the same fields, and where two of them differ, every order is refused. -/
theorem linkLengthFields_perm
    (hdefined : ∀ root, spec.IsRoot root → FieldsDefined spec.fields root)
    {messages : List Message} {components : List Component}
    (hmessages : messages.Perm spec.messages) (hcomponents : components.Perm spec.components) :
    (Agree (Links spec) → ∃ fields,
      linkLengthFields spec.fields spec.header spec.trailer spec.messages spec.components =
          .ok fields ∧
        linkLengthFields spec.fields spec.header spec.trailer messages components = .ok fields) ∧
      (¬ Agree (Links spec) → ∃ field first second,
        linkLengthFields spec.fields spec.header spec.trailer messages components =
          .error (.error (.conflictingLengthFields field first second))) := by
  have hroot : ∀ root, Spec.IsRoot { spec with messages, components } root ↔ spec.IsRoot root := by
    intro root
    rw [← mem_memberLists_iff, ← mem_memberLists_iff]
    simp only [memberLists, List.mem_append, (hmessages.map _).mem_iff, (hcomponents.map _).mem_iff]
  -- The links are those of the lists, in whatever order these are linked.
  have hlinks : Links { spec with messages, components } = Links spec := by
    funext data length
    refine propext ⟨?_, ?_⟩
    · rintro ⟨⟨root, members, h, hlisted⟩, hlength, hdata⟩
      exact ⟨⟨root, members, (hroot root).mp h, hlisted⟩, hlength, hdata⟩
    · rintro ⟨⟨root, members, h, hlisted⟩, hlength, hdata⟩
      exact ⟨⟨root, members, (hroot root).mpr h, hlisted⟩, hlength, hdata⟩
  have hgiven := linkLengthFields_outcome hdefined
  have hreordered : ∀ root, Spec.IsRoot { spec with messages, components } root →
      FieldsDefined spec.fields root := fun root h => hdefined root ((hroot root).mp h)
  have hother := linkLengthFields_outcome hreordered
  rw [hlinks] at hother
  constructor
  · intro hagree
    -- Both orders record the same links, so both give each field the same length tag.
    cases hrun : linkLengthFields spec.fields spec.header spec.trailer spec.messages
        spec.components with
    | error failure => exact absurd hagree (hgiven.of_eq_error hrun).2
    | ok fields =>
      cases hrun' : linkLengthFields spec.fields spec.header spec.trailer messages components with
      | error failure => exact absurd hagree (hother.of_eq_error hrun').2
      | ok fields' =>
        obtain ⟨lengthTags, hrecords, rfl⟩ := hgiven.of_eq_ok hrun
        obtain ⟨lengthTags', hrecords', rfl⟩ := hother.of_eq_ok hrun'
        refine ⟨_, rfl, congrArg Except.ok (List.map_congr_left fun field _ => ?_)⟩
        have hsame : lengthTags'.lookup field.tag = lengthTags.lookup field.tag := by
          apply Option.ext
          intro length
          rw [hrecords, hrecords']
        rw [hsame]
  · intro hnot
    cases hrun' : linkLengthFields spec.fields spec.header spec.trailer messages components with
    | ok fields =>
      obtain ⟨lengthTags, hrecords, -⟩ := hother.of_eq_ok hrun'
      exact absurd hrecords.agree hnot
    | error failure =>
      obtain ⟨⟨field, first, second, rfl⟩, -⟩ := hother.of_eq_error hrun'
      exact ⟨field, first, second, rfl⟩

end Spec

/-! ## What is parsed -/

/-- A node list is empty, or opens with an element or another node. -/
theorem nodes_induction {motive : List Node → Prop} (nil : motive [])
    (element : ∀ name attributes children nodes, motive children → motive nodes →
      motive (.element name attributes children :: nodes))
    (other : ∀ nodes, motive nodes → motive (.other :: nodes)) : ∀ nodes, motive nodes
  | [] => nil
  | .element name attributes children :: nodes =>
    element name attributes children nodes (nodes_induction nil element other children)
      (nodes_induction nil element other nodes)
  | .other :: nodes => other nodes (nodes_induction nil element other nodes)

section Parsed

variable {fields : List Field}

theorem exists_field_of_tagByName {name : String} {tag : Tag}
    (h : tagByName fields name = some tag) : ∃ field, fieldByTag fields tag = .ok field := by
  obtain ⟨field, hfind, rfl⟩ := Option.map_eq_some_iff.mp h
  unfold fieldByTag
  cases hsame : fields.reverse.find? (·.tag == field.tag) with
  | some other => exact ⟨other, rfl⟩
  | none =>
    have hnone := List.find?_eq_none.mp hsame field (List.mem_of_find?_eq_some hfind)
    simp at hnone

/-- A reference that is read is to a field that is defined. -/
theorem parseFieldRef_outcome (node : Node) (context : MemberContext) :
    Outcome (fun _ => True) (fun ref : FieldRef => ∃ field, fieldByTag fields ref.tag = .ok field)
      (parseFieldRef fields node context) := by
  refine (outcome_self _).bind fun name _ _ => ?_
  cases htag : tagByName fields name with
  | none => trivial
  | some tag =>
    refine (outcome_self _).bind fun isRequired _ _ => ?_
    exact exists_field_of_tagByName htag

theorem FieldsDefined.nil : FieldsDefined fields [] := by
  intro nested hnested ref href
  cases hnested with
  | refl => cases href
  | group hmem _ => cases hmem

theorem FieldsDefined.cons {member : Member} {members : List Member}
    (hfield : ∀ ref, member = .field ref → ∃ field, fieldByTag fields ref.tag = .ok field)
    (hgroup : ∀ countTag isRequired inst, member = .group countTag isRequired inst →
      FieldsDefined fields inst)
    (hrest : FieldsDefined fields members) : FieldsDefined fields (member :: members) := by
  intro nested hnested ref href
  cases hnested with
  | refl =>
    rcases List.mem_cons.mp href with heq | href
    · exact hfield ref heq.symm
    · exact hrest members (.refl _) ref href
  | group hmem hnested =>
    rcases List.mem_cons.mp hmem with heq | hmem
    · exact hgroup _ _ _ heq.symm nested hnested ref href
    · exact hrest nested (.group hmem hnested) ref href

/-- **Every field of a list that is read is defined**, at any group depth. -/
theorem parseMembers_outcome (nodes : List Node) : ∀ context warnings,
    Outcome (fun _ => True) (fun read : List Member × List Warning => FieldsDefined fields read.1)
      (parseMembers fields nodes context warnings) := by
  induction nodes using nodes_induction with
  | nil => exact fun _ _ => FieldsDefined.nil
  | other nodes ih =>
    intro context warnings
    rw [parseMembers, parseMember]
    exact (ih context warnings).bind fun _ _ hrest => hrest
  | element name attributes children nodes hchildren ih =>
    intro context warnings
    have hmember : Outcome (fun _ => True) (fun read : Option Member × List Warning =>
        ∀ members, FieldsDefined fields members →
          FieldsDefined fields (read.1.toList ++ members)) (parseMember fields
            (.element name attributes children) context warnings) := by
      -- A field is looked up when it is read, a component is not, and a group is its instance.
      unfold parseMember
      split
      · refine (parseFieldRef_outcome _ context).bind fun ref _ href => ?_
        intro members hmembers
        refine hmembers.cons ?_ nofun
        rintro ref' heq
        cases heq
        exact href
      · refine (outcome_self _).bind fun ref _ _ => ?_
        exact fun members hmembers => hmembers.cons nofun nofun
      · refine (outcome_self _).bind fun count _ _ => ?_
        refine (outcome_self _).bind fun name _ _ => ?_
        refine (hchildren (context.group name) warnings).bind fun ⟨inst, warnings⟩ _ hinst => ?_
        intro members hmembers
        refine hmembers.cons nofun ?_
        rintro countTag isRequired inst' heq
        cases heq
        exact hinst
      · exact fun members hmembers => hmembers
    rw [parseMembers]
    refine hmember.bind fun ⟨member, warnings⟩ _ hmember => ?_
    refine (ih context warnings).bind fun ⟨rest, warnings⟩ _ hrest => ?_
    exact hmember rest hrest

theorem parseEach_outcome {α : Type} {good : α → Prop}
    {parse : Node → List Warning → Except Failure (α × List Warning)}
    (h : ∀ node warnings, Outcome (fun _ => True) (fun read => good read.1) (parse node warnings))
    (nodes : List Node) : ∀ warnings, Outcome (fun _ => True)
      (fun read => ∀ x ∈ read.1, good x) (parseEach parse nodes warnings) := by
  induction nodes with
  | nil => exact fun _ => List.forall_mem_nil _
  | cons node nodes ih =>
    intro warnings
    refine (h node warnings).bind fun ⟨first, warnings⟩ _ hfirst => ?_
    refine (ih warnings).bind fun ⟨rest, warnings⟩ _ hrest => ?_
    exact List.forall_mem_cons.mpr ⟨hfirst, hrest⟩

theorem parseSection_outcome (root : Node) (name : String) (context : MemberContext)
    (warnings : List Warning) :
    Outcome (fun _ => True) (fun read => FieldsDefined fields read.1)
      (parseSection fields root name context warnings) := by
  unfold parseSection
  split
  · exact FieldsDefined.nil
  · exact parseMembers_outcome _ context warnings

theorem parseComponents_outcome (root : Node) (warnings : List Warning) :
    Outcome (fun _ => True)
      (fun read => ∀ component ∈ read.1, FieldsDefined fields component.members)
      (parseComponents fields root warnings) := by
  unfold parseComponents
  split
  · exact List.forall_mem_nil _
  · apply parseEach_outcome
    intro node warnings
    refine (outcome_self _).bind fun name _ _ => ?_
    refine (parseMembers_outcome _ _ warnings).bind fun ⟨members, warnings⟩ _ hmembers => ?_
    exact hmembers

theorem parseMessages_outcome (root : Node) (warnings : List Warning) :
    Outcome (fun _ => True)
      (fun read => ∀ message ∈ read.1, FieldsDefined fields message.members)
      (parseMessages fields root warnings) := by
  unfold parseMessages
  split
  · exact List.forall_mem_nil _
  · apply parseEach_outcome
    intro node warnings
    refine (outcome_self _).bind fun name _ _ => ?_
    refine (outcome_self _).bind fun category _ _ => ?_
    refine (parseMembers_outcome _ _ warnings).bind fun ⟨members, warnings⟩ _ hmembers => ?_
    refine (outcome_self _).bind fun msgType _ _ => ?_
    exact hmembers

/-- **A spec that is read refers to defined fields only.** -/
theorem parseSpec_outcome (root : Node) :
    Outcome (fun _ => True) (fun read : Spec × List Warning =>
      ∀ members, read.1.IsRoot members → FieldsDefined read.1.fields members) (parseSpec root) := by
  unfold parseSpec
  split
  · trivial
  refine (outcome_self _).bind fun version _ _ => ?_
  refine (outcome_self _).bind fun ⟨fields, warnings⟩ _ _ => ?_
  refine (parseSection_outcome root "header" .header warnings).bind
    fun ⟨header, warnings⟩ _ hheader => ?_
  refine (parseComponents_outcome root warnings).bind fun ⟨components, warnings⟩ _ hcomponents => ?_
  refine (parseMessages_outcome root warnings).bind fun ⟨messages, warnings⟩ _ hmessages => ?_
  refine (parseSection_outcome root "trailer" .trailer warnings).bind
    fun ⟨trailer, warnings⟩ _ htrailer => ?_
  intro members hroot
  cases hroot with
  | header => exact hheader
  | trailer => exact htrailer
  | message h => exact hmessages _ h
  | component h => exact hcomponents _ h

/-- A dictionary that is parsed is resolved from the spec that is read, its fields linked. -/
theorem parse_eq_ok {root : Node} {parsed : Parsed} (h : parse root = .ok parsed) :
    ∃ spec fields, parseSpec root = .ok (spec, parsed.warnings) ∧
      linkLengthFields spec.fields spec.header spec.trailer spec.messages spec.components =
        .ok fields ∧ Spec.resolve { spec with fields } = .ok parsed.dictionary := by
  obtain ⟨⟨spec, warnings⟩, hspec, h⟩ := bind_eq_ok.mp h
  obtain ⟨fields, hfields, h⟩ := bind_eq_ok.mp h
  split at h
  · next dictionary hresolve =>
    cases h
    exact ⟨spec, fields, hspec, hfields, hresolve⟩
  · cases h

end Parsed

end Quickfix

end Refix.Dict
