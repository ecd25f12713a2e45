import Refix.Dictionary.Reference

/-!
# Where Groups Are Declared

A group of a resolved dictionary carries the place that declares it. Members that come from a
component's definition come together, wherever the component is referenced, and differ from
one reference to the next in their required flags only. So the members that one place declares
form one list, and every group of the dictionary is found in the list of its place.
-/

namespace Refix.Dict

open Refix.Message (Tag)

/-! ## Groups -/

/-- A repeating group of a resolved dictionary. -/
structure Group (n : ℕ) where
  countFieldIndex : Fin n
  delimiterIndex : Fin n
  isRequired : Bool
  declaredIn : MemberContext
  component : Option String
  members : List (ResolvedMember n)

variable {n : ℕ}

/-- A group as a member. -/
def Group.member (group : Group n) : ResolvedMember n :=
  .group group.countFieldIndex group.delimiterIndex group.isRequired group.declaredIn
    group.component group.members

/-- A member as a group, if it is one. -/
def ResolvedMember.group? : ResolvedMember n → Option (Group n)
  | .field _ _ => none
  | .group countFieldIndex delimiterIndex isRequired declaredIn component members =>
    some { countFieldIndex, delimiterIndex, isRequired, declaredIn, component, members }

/-- The groups of a member list, in order. -/
def groupsOf (members : List (ResolvedMember n)) : List (Group n) := members.filterMap (·.group?)

theorem mem_groupsOf {members : List (ResolvedMember n)} {group : Group n} :
    group ∈ groupsOf members ↔ group.member ∈ members := by
  unfold groupsOf
  rw [List.mem_filterMap]
  constructor
  · rintro ⟨member, hmem, hgroup⟩
    cases member with
    | field _ _ => cases hgroup
    | group _ _ _ _ _ _ =>
      cases hgroup
      exact hmem
  · intro hmem
    exact ⟨group.member, hmem, rfl⟩

theorem Group.eq_of_member_eq {group group' : Group n} (h : group.member = group'.member) :
    group = group' := by
  cases group
  cases group'
  unfold Group.member at h
  injection h with hcount hdelimiter hrequired hdeclared hcomponent hinst
  subst hcount hdelimiter hrequired hdeclared hcomponent hinst
  rfl

/-- The context of a group's instances, which identifies its declaration. -/
def Group.instanceContext (fields : List Field) (group : Group fields.length) : MemberContext :=
  group.declaredIn.group (fields.get group.countFieldIndex).name

/-- The groups agree in all but their required flag. -/
structure Group.Same (group group' : Group n) : Prop where
  countFieldIndex_eq : group.countFieldIndex = group'.countFieldIndex
  delimiterIndex_eq : group.delimiterIndex = group'.delimiterIndex
  declaredIn_eq : group.declaredIn = group'.declaredIn
  component_eq : group.component = group'.component
  members_eq : group.members = group'.members

namespace Group.Same

variable {group group' group'' : Group n}

theorem refl (group : Group n) : group.Same group := ⟨rfl, rfl, rfl, rfl, rfl⟩

theorem symm (h : group.Same group') : group'.Same group :=
  ⟨h.1.symm, h.2.symm, h.3.symm, h.4.symm, h.5.symm⟩

theorem trans (h : group.Same group') (h' : group'.Same group'') : group.Same group'' :=
  ⟨h.1.trans h'.1, h.2.trans h'.2, h.3.trans h'.3, h.4.trans h'.4, h.5.trans h'.5⟩

theorem instanceContext_eq {fields : List Field} {group group' : Group fields.length}
    (h : group.Same group') : group.instanceContext fields = group'.instanceContext fields := by
  simp only [Group.instanceContext, h.declaredIn_eq, h.countFieldIndex_eq]

theorem memberTagsOf_eq {fields : List Field} {group group' : Group fields.length}
    (h : group.Same group') :
    memberTagsOf fields group.member = memberTagsOf fields group'.member := by
  simp only [Group.member, memberTagsOf, h.countFieldIndex_eq, h.members_eq]

end Group.Same

/-! ## Members up to their flags -/

/-- The lists agree in all but the required flags of their members. -/
def SameMembers (members members' : List (ResolvedMember n)) : Prop :=
  members.map (·.require) = members'.map (·.require)

namespace SameMembers

variable {members members' : List (ResolvedMember n)}

theorem refl (members : List (ResolvedMember n)) : SameMembers members members := Eq.refl _

theorem symm (h : SameMembers members members') : SameMembers members' members := Eq.symm h

theorem combineRequired (members : List (ResolvedMember n)) (required : Bool) :
    SameMembers (members.map (.combineRequired required)) members := by
  unfold SameMembers
  rw [List.map_map]
  apply List.map_congr_left
  intro member _
  cases member <;> rfl

theorem requireFirst (members : List (ResolvedMember n)) :
    SameMembers (requireFirst members) members := by
  cases members with
  | nil => exact refl []
  | cons first rest =>
    have hfirst : first.require.require = first.require := by cases first <;> rfl
    simp [SameMembers, Dict.requireFirst, hfirst]

/-- A group of one list is, up to its flag, a group of the other. -/
theorem exists_group (h : SameMembers members members') {group : Group n}
    (hmem : group.member ∈ members) : ∃ group' : Group n, group'.member ∈ members' ∧
      group.Same group' := by
  have hrequire : group.member.require ∈ members'.map (·.require) := by
    rw [← h]
    exact List.mem_map_of_mem (f := (·.require)) hmem
  obtain ⟨member', hmem', heq⟩ := List.mem_map.mp hrequire
  cases member' with
  | field index isRequired => cases heq
  | group countFieldIndex delimiterIndex isRequired declaredIn component inst =>
    refine ⟨⟨countFieldIndex, delimiterIndex, isRequired, declaredIn, component, inst⟩, hmem', ?_⟩
    unfold Group.member ResolvedMember.require at heq
    injection heq with hcount hdelimiter _ hdeclared hcomponent hinst
    exact ⟨hcount.symm, hdelimiter.symm, hdeclared.symm, hcomponent.symm, hinst.symm⟩

end SameMembers

/-! ## Tags that come once -/

section Tags

variable {fields : List Field} {members : List (ResolvedMember fields.length)}

theorem memberTagsOf_subset {member : ResolvedMember fields.length} (h : member ∈ members) :
    memberTagsOf fields member ⊆ tagsOf fields members := by
  induction members with
  | nil => cases h
  | cons first rest ih =>
    rw [tagsOf]
    rcases List.mem_cons.mp h with rfl | h
    · exact List.subset_append_left _ _
    · exact fun tag htag => List.mem_append_right _ (ih h htag)

/-- Where each tag comes once, two groups with one count field are one group. -/
theorem group_eq_of_count_eq (hnodup : (tagsOf fields members).Nodup)
    {group group' : Group fields.length} (h : group.member ∈ members)
    (h' : group'.member ∈ members) (hcount : group.countFieldIndex = group'.countFieldIndex) :
    group.member = group'.member := by
  induction members with
  | nil => cases h
  | cons first rest ih =>
    rw [tagsOf, List.nodup_append] at hnodup
    obtain ⟨_, hrest, hdisjoint⟩ := hnodup
    have hcounts : ∀ group : Group fields.length,
        (fields.get group.countFieldIndex).tag ∈ memberTagsOf fields group.member :=
      fun group => mem_memberTagsOf_firstField group.member
    rcases List.mem_cons.mp h with hfirst | h <;> rcases List.mem_cons.mp h' with hfirst' | h'
    · exact hfirst.trans hfirst'.symm
    · refine absurd ?_ (hdisjoint _ (hfirst ▸ hcounts group) _
        (memberTagsOf_subset h' (hcounts group')))
      simp only [hcount]
    · refine absurd ?_ (hdisjoint _ (hfirst' ▸ hcounts group') _
        (memberTagsOf_subset h (hcounts group)))
      simp only [hcount]
    · exact ih hrest h h'

theorem nodup_of_member {group : Group fields.length} (hnodup : (tagsOf fields members).Nodup)
    (h : group.member ∈ members) : (tagsOf fields group.members).Nodup := by
  induction members with
  | nil => cases h
  | cons first rest ih =>
    rw [tagsOf, List.nodup_append] at hnodup
    rcases List.mem_cons.mp h with rfl | h
    · exact (List.nodup_cons.mp hnodup.1).2
    · exact ih hnodup.2.1 h

end Tags

/-! ## Lists and their flags -/

section Flags

variable {spec : Spec} {context : MemberContext} {path lead : Bool} {members : List Member}
  {resolved : List (ResolvedMember spec.fields.length)}

theorem combineRequired_combineRequired (required required' : Bool) (member : ResolvedMember n) :
    (member.combineRequired required').combineRequired required =
      member.combineRequired (required && required') := by
  cases member <;>
    simp only [ResolvedMember.combineRequired, Bool.and_assoc, Bool.and_comm required']

/-- A list under a flag is the list under none, with the flag combined into its members. -/
theorem Inlines.uncombine (h : Inlines spec context path lead members resolved) :
    ∃ free, Inlines spec context true lead members free ∧
      resolved = free.map (.combineRequired path) := by
  induction h with
  | nil => exact ⟨[], .nil, rfl⟩
  | @field context path lead ref members index rest hindex hrest ih =>
    obtain ⟨free, hfree, rfl⟩ := ih
    refine ⟨_, .field hindex hfree, ?_⟩
    rw [List.map_cons, ResolvedMember.combineRequired, Bool.true_and, Bool.and_comm]
  | @component context path lead ref members component inner rest hmem hname hinner hrest ihi ihr =>
    obtain ⟨freeInner, hfreeInner, rfl⟩ := ihi
    obtain ⟨free, hfree, rfl⟩ := ihr
    refine ⟨_, .component hmem hname (hfreeInner.combine (ref.isRequired || lead)) hfree, ?_⟩
    rw [List.map_append, ← owned_map_combineRequired, List.map_map]
    congr 3
    funext member
    exact (combineRequired_combineRequired _ _ member).symm
  | @group context path lead countTag isRequired inst members count first others rest hcount hinst
      hrest ihi ihr =>
    obtain ⟨free, hfree, rfl⟩ := ihr
    refine ⟨_, .group hcount hinst hfree, ?_⟩
    rw [List.map_cons, ResolvedMember.combineRequired, Bool.true_and, Bool.and_comm]

/-- A component leaves its members as they are, unless a group is all of it. -/
theorem owned_eq (component : Component) (resolved : List (ResolvedMember n)) :
    component.owned resolved = resolved ∨
      ∃ countTag isRequired inst, component.members = [.group countTag isRequired inst] := by
  unfold Component.owned
  split
  · next h => exact Or.inr ⟨_, _, _, h⟩
  · exact Or.inl rfl

/-- What a group's component adds to it is its name. -/
theorem exists_of_mem_owned {component : Component} {resolved : List (ResolvedMember n)}
    {group : Group n} (h : group.member ∈ component.owned resolved) :
    ∃ name, { group with component := name }.member ∈ resolved := by
  unfold Component.owned at h
  split at h
  · next own members _ =>
    rw [List.mem_singleton] at h
    unfold Group.member at h
    injection h with hcount hdelimiter hrequired hdeclared hcomponent hinst
    refine ⟨own, List.mem_singleton.mpr ?_⟩
    simp only [Group.member, hcount, hdelimiter, hrequired, hdeclared, hinst]
  · exact ⟨group.component, h⟩

/-- The instances of a group in an inlined list are an inlined list of their own, and the group
starts with its first field. -/
theorem Inlines.instance_of_mem (h : Inlines spec context path lead members resolved) :
    ∀ {group : Group spec.fields.length}, group.member ∈ resolved →
      ∃ inst first others, Inlines spec (group.instanceContext spec.fields) true true inst
        (first :: others) ∧ group.members = first.require :: others ∧
        group.delimiterIndex = first.firstField := by
  induction h with
  | nil => exact fun h => absurd h List.not_mem_nil
  | field hindex hrest ih =>
    intro group hmem
    rcases List.mem_cons.mp hmem with heq | hmem
    · cases heq
    · exact ih hmem
  | component hmem hname hinner hrest ihi ihr =>
    intro group hmem
    rcases List.mem_append.mp hmem with hmem | hmem
    · obtain ⟨name, hmem⟩ := exists_of_mem_owned hmem
      exact @ihi { group with component := name } hmem
    · exact ihr hmem
  | @group context path lead countTag isRequired inst members count first others rest hcount hinst
      hrest ihi ihr =>
    intro group hmem
    rcases List.mem_cons.mp hmem with heq | hmem
    · unfold Group.member at heq
      injection heq with hcountEq hdelimiter hrequired hdeclared hcomponent hmembers
      unfold Group.instanceContext
      rw [hdeclared, hmembers]
      simp only [hcountEq]
      exact ⟨inst, first, others, hinst, rfl, hdelimiter⟩
    · exact ihr hmem

end Flags

/-! ## Members of one component together -/

section Splice

variable {spec : Spec} {context : MemberContext} {path lead : Bool} {members : List Member}
  {resolved : List (ResolvedMember spec.fields.length)}

/-- The groups of `declared` are groups of `members`, up to their flags. -/
def Holds (members declared : List (ResolvedMember n)) : Prop :=
  ∀ group : Group n, group.member ∈ declared → ∃ group' : Group n, group'.member ∈ members ∧
    group.Same group'

theorem Holds.mono {members members' declared : List (ResolvedMember n)}
    (h : Holds members declared) (hsub : members ⊆ members') : Holds members' declared := by
  intro group hgroup
  obtain ⟨group', hgroup', hsame⟩ := h group hgroup
  exact ⟨group', hsub hgroup', hsame⟩

/-- A group that a component declares is in the component's list, all of which is spliced in
with it. -/
def Spliced (spec : Spec) (resolved : List (ResolvedMember spec.fields.length))
    (group : Group spec.fields.length) : Prop :=
  ∃ component ∈ spec.components, group.declaredIn = .component component.name ∧
    ∃ inner, Inlines spec (.component component.name) true false component.members inner ∧
      (∃ own : Group spec.fields.length, own.member ∈ component.owned inner ∧ group.Same own) ∧
      Holds resolved (component.owned inner)

theorem Spliced.mono {resolved' : List (ResolvedMember spec.fields.length)}
    {group : Group spec.fields.length} (h : Spliced spec resolved group)
    (hsub : resolved ⊆ resolved') : Spliced spec resolved' group := by
  obtain ⟨component, hmem, hdeclared, inner, hinner, hown, hholds⟩ := h
  exact ⟨component, hmem, hdeclared, inner, hinner, hown, hholds.mono hsub⟩

/-- A list that is one group has no other groups. -/
theorem declaredIn_of_single {countTag : Tag} {isRequired : Bool} {inst : List Member}
    (h : Inlines spec context path lead [.group countTag isRequired inst] resolved)
    {group : Group spec.fields.length} (hmem : group.member ∈ resolved) :
    group.declaredIn = context := by
  cases h with
  | group hcount hinst hrest =>
    cases hrest
    rw [List.mem_singleton] at hmem
    unfold Group.member at hmem
    injection hmem

/-- **A group is declared by the list it is in, or comes with the component that declares
it.** -/
theorem Inlines.declared_or_spliced (h : Inlines spec context path lead members resolved) :
    ∀ {group : Group spec.fields.length}, group.member ∈ resolved →
      group.declaredIn = context ∨ Spliced spec resolved group := by
  induction h with
  | nil => exact fun h => absurd h List.not_mem_nil
  | field hindex hrest ih =>
    intro group hmem
    rcases List.mem_cons.mp hmem with heq | hmem
    · cases heq
    · exact (ih hmem).imp_right fun h => h.mono (List.subset_cons_self _ _)
  | @component context path lead ref members component inner rest hcomponent hname hinner hrest
      ihi ihr =>
    intro group hmem
    rcases List.mem_append.mp hmem with hmem | hmem
    · right
      -- the members spliced in are the component's own, with one more flag
      obtain ⟨free, hfree, rfl⟩ := hinner.uncombine
      rw [owned_map_combineRequired] at hmem ⊢
      have hsame := SameMembers.combineRequired (component.owned free)
        (path && (ref.isRequired || lead))
      have hholds : Holds ((component.owned free).map (.combineRequired (path &&
          (ref.isRequired || lead))) ++ rest) (component.owned free) := by
        intro own hown
        obtain ⟨group', hgroup', hsame'⟩ := hsame.symm.exists_group hown
        exact ⟨group', List.mem_append_left _ hgroup', hsame'⟩
      have hdirect : group.declaredIn = .component component.name →
          Spliced spec ((component.owned free).map (.combineRequired (path &&
            (ref.isRequired || lead))) ++ rest) group := by
        intro hdeclared
        obtain ⟨own, hown, hsameOwn⟩ := hsame.exists_group hmem
        exact ⟨component, hcomponent, hdeclared, free, hfree, ⟨own, hown, hsameOwn⟩, hholds⟩
      rcases owned_eq component free with howned | ⟨countTag, isRequired, inst, hsingle⟩
      · rw [howned] at hmem
        rcases ihi hmem with hdeclared | hspliced
        · exact hdirect hdeclared
        · rw [howned]
          exact hspliced.mono (List.subset_append_left _ _)
      · apply hdirect
        rw [← owned_map_combineRequired] at hmem
        obtain ⟨name, hmem⟩ := exists_of_mem_owned hmem
        rw [hsingle] at hinner
        exact @declaredIn_of_single _ _ _ _ _ _ _ _ hinner { group with component := name } hmem
    · exact (ihr hmem).imp_right fun h => h.mono (List.subset_append_right _ _)
  | @group context path lead countTag isRequired inst members count first others rest hcount hinst
      hrest ihi ihr =>
    intro group hmem
    rcases List.mem_cons.mp hmem with heq | hmem
    · left
      unfold Group.member at heq
      injection heq
    · exact (ihr hmem).imp_right fun h => h.mono (List.subset_cons_self _ _)

end Splice

/-! ## The lists of a dictionary -/

/-- A dictionary as resolving gives it. -/
structure Dictionary.Resolved (dictionary : Dictionary) : Prop where
  consistent : dictionary.spec.Consistent
  header : Inlines dictionary.spec .header true false dictionary.spec.header dictionary.header
  messages : InlinesMessages dictionary.spec dictionary.spec.messages dictionary.messages
  trailer : Inlines dictionary.spec .trailer true false dictionary.spec.trailer dictionary.trailer

theorem resolved_of_resolve {spec : Spec} {dictionary : Dictionary}
    (h : spec.resolve = .ok dictionary) : dictionary.spec = spec ∧ dictionary.Resolved := by
  obtain ⟨hconsistent, hresolves⟩ := (resolve_outcome spec).of_eq_ok h
  cases hresolves with
  | mk hheader hmessages htrailer => exact ⟨rfl, hconsistent, hheader, hmessages, htrailer⟩

/-- The messages with their members. -/
def Dictionary.messageMembers (dictionary : Dictionary) :
    List (Message × List (ResolvedMember dictionary.spec.fields.length)) :=
  dictionary.spec.messages.zip dictionary.messages

/-- A top-level list of the dictionary, and the context it is in. -/
inductive Dictionary.HasList (dictionary : Dictionary) :
    MemberContext → List (ResolvedMember dictionary.spec.fields.length) → Prop where
  | header : dictionary.HasList .header dictionary.header
  | trailer : dictionary.HasList .trailer dictionary.trailer
  | message {message : Message} {members : List (ResolvedMember dictionary.spec.fields.length)}
      (h : (message, members) ∈ dictionary.messageMembers) :
      dictionary.HasList (.message message.name) members

/-- A group of the header, a message or the trailer, at any depth. -/
inductive Dictionary.Reaches (dictionary : Dictionary) :
    Group dictionary.spec.fields.length → Prop where
  | root {context : MemberContext}
      {members : List (ResolvedMember dictionary.spec.fields.length)}
      {group : Group dictionary.spec.fields.length} (hlist : dictionary.HasList context members)
      (h : group.member ∈ members) : dictionary.Reaches group
  | nested {group inner : Group dictionary.spec.fields.length} (hgroup : dictionary.Reaches group)
      (h : inner.member ∈ group.members) : dictionary.Reaches inner

/-- The members of the place that a context names. -/
inductive Dictionary.Declares (dictionary : Dictionary) :
    MemberContext → List (ResolvedMember dictionary.spec.fields.length) → Prop where
  | list {context : MemberContext}
      {members : List (ResolvedMember dictionary.spec.fields.length)}
      (h : dictionary.HasList context members) : dictionary.Declares context members
  | component {component : Component}
      {inner : List (ResolvedMember dictionary.spec.fields.length)}
      (hmem : component ∈ dictionary.spec.components)
      (hinner : Inlines dictionary.spec (.component component.name) true false component.members
        inner) :
      dictionary.Declares (.component component.name) (component.owned inner)
  | group {members : List (ResolvedMember dictionary.spec.fields.length)}
      {group : Group dictionary.spec.fields.length}
      (hdeclares : dictionary.Declares group.declaredIn members) (h : group.member ∈ members) :
      dictionary.Declares (group.instanceContext dictionary.spec.fields) group.members

section Declares

variable {dictionary : Dictionary} {context : MemberContext}
  {members members' : List (ResolvedMember dictionary.spec.fields.length)}
  {group group' : Group dictionary.spec.fields.length}

theorem Dictionary.HasList.inlines (hd : dictionary.Resolved) (h : dictionary.HasList context members) :
    ∃ source, Inlines dictionary.spec context true false source members ∧
      dictionary.spec.IsRoot source := by
  cases h with
  | header => exact ⟨_, hd.header, .header⟩
  | trailer => exact ⟨_, hd.trailer, .trailer⟩
  | @message message members h =>
    have hinlines := (List.forall₂_iff_zip.mp hd.messages).2 h
    exact ⟨_, hinlines, .message (List.of_mem_zip h).1⟩

/-- **Every group that is reached is in the list of the place that declares it.** Its instances
are an inlined list. -/
theorem Dictionary.Reaches.declared (hd : dictionary.Resolved) (h : dictionary.Reaches group) :
    (∃ declared own, dictionary.Declares group.declaredIn declared ∧ own.member ∈ declared ∧
      group.Same own) ∧
    ∃ inst first others, Inlines dictionary.spec (group.instanceContext dictionary.spec.fields) true
      true inst (first :: others) ∧ group.members = first.require :: others ∧
      group.delimiterIndex = first.firstField := by
  -- The induction follows the way to the group: a list of the dictionary holds it, or the members
  -- of a group that is reached.
  induction h with
  | @root context members group hlist hmem =>
    obtain ⟨source, hinlines, _⟩ := hlist.inlines hd
    refine ⟨?_, hinlines.instance_of_mem hmem⟩
    -- A group in an inlined list is declared there, or came with a component that declares it.
    rcases hinlines.declared_or_spliced hmem with hdeclared | hspliced
    · rw [hdeclared]
      exact ⟨members, group, .list hlist, hmem, .refl group⟩
    · obtain ⟨component, hcomponent, hdeclared, inner, hinner, ⟨own, hown, hsame⟩, _⟩ := hspliced
      rw [hdeclared]
      exact ⟨_, own, .component hcomponent hinner, hown, hsame⟩
  | @nested group inner hgroup hmem ih =>
    obtain ⟨⟨declared, own, hdeclares, hown, hsame⟩, inst, first, others, hinlines, hinst, _⟩ := ih
    rw [hinst] at hmem
    obtain ⟨inner', hmem', hsame'⟩ :=
      (SameMembers.requireFirst (first :: others)).exists_group hmem
    constructor
    · rw [hsame'.declaredIn_eq]
      rcases hinlines.declared_or_spliced hmem' with hdeclared | hspliced
      · rw [hdeclared, hsame.instanceContext_eq]
        rw [hsame.declaredIn_eq] at hdeclares
        refine ⟨own.members, inner, .group hdeclares hown, ?_, .refl inner⟩
        rw [← hsame.members_eq, hinst]
        exact hmem
      · obtain ⟨component, hcomponent, hdeclared, list, hlist, ⟨own', hown', hsameOwn⟩, _⟩ :=
          hspliced
        rw [hdeclared]
        exact ⟨_, own', .component hcomponent hlist, hown', hsame'.trans hsameOwn⟩
    · rw [hsame'.instanceContext_eq, hsame'.members_eq, hsame'.delimiterIndex_eq]
      exact hinlines.instance_of_mem hmem'

/-- The list of a place holds each tag once. -/
theorem Dictionary.Declares.nodup (hd : dictionary.Resolved)
    (h : dictionary.Declares context members) :
    (tagsOf dictionary.spec.fields members).Nodup := by
  induction h with
  | list h =>
    obtain ⟨source, hinlines, hroot⟩ := h.inlines hd
    exact (hd.consistent.lists_ok source source hroot (.refl source)).unique _ hinlines.expandsTo
  | component hmem hinner =>
    rw [tagsOf_owned]
    exact (hd.consistent.lists_ok _ _ (.component hmem) (.refl _)).unique _ hinner.expandsTo
  | group _ h ih => exact nodup_of_member ih h

/-- A message's members are known by its name. -/
theorem messageMembers_det (hd : dictionary.Resolved)
    (hmessages : (dictionary.spec.messages.map Message.name).Nodup) {message message' : Message}
    (h : (message, members) ∈ dictionary.messageMembers)
    (h' : (message', members') ∈ dictionary.messageMembers) (hname : message.name = message'.name) :
    members = members' := by
  have hlength : dictionary.spec.messages.length ≤ dictionary.messages.length :=
    hd.messages.length_eq.le
  have hnames : dictionary.messageMembers.map (fun entry => entry.1.name) =
      dictionary.spec.messages.map Message.name := by
    have hfst := List.map_fst_zip hlength
    rw [← hfst, List.map_map]
    rfl
  rw [← hnames] at hmessages
  exact congrArg Prod.snd (List.inj_on_of_nodup_map hmessages h h' hname)

theorem Dictionary.HasList.det (hd : dictionary.Resolved)
    (hmessages : (dictionary.spec.messages.map Message.name).Nodup)
    (h : dictionary.HasList context members) {context' : MemberContext}
    (h' : dictionary.HasList context' members') (hcontext : context = context') :
    members = members' := by
  cases h with
  | header =>
    cases h' with
    | header => rfl
    | trailer => cases hcontext
    | message _ => cases hcontext
  | trailer =>
    cases h' with
    | header => cases hcontext
    | trailer => rfl
    | message _ => cases hcontext
  | message h =>
    cases h' with
    | header => cases hcontext
    | trailer => cases hcontext
    | message h' =>
      injection hcontext with hname
      exact messageMembers_det hd hmessages h h' hname

/-- The list of a place that is no group's instance is known by its context. -/
theorem Dictionary.Declares.det_top (hd : dictionary.Resolved)
    (hmessages : (dictionary.spec.messages.map Message.name).Nodup)
    (h : dictionary.Declares context members) {context' : MemberContext}
    (h' : dictionary.Declares context' members') (hcontext : context = context')
    (htop : ∀ name parent, context ≠ .group name parent) : members = members' := by
  cases h with
  | group _ _ => exact absurd rfl (htop _ _)
  | list hlist =>
    cases h' with
    | group _ _ => exact absurd hcontext (htop _ _)
    | list hlist' => exact hlist.det hd hmessages hlist' hcontext
    | component _ _ => cases hlist <;> cases hcontext
  | component hmem hinner =>
    cases h' with
    | group _ _ => exact absurd hcontext (htop _ _)
    | list hlist' => cases hlist' <;> cases hcontext
    | component hmem' hinner' =>
      injection hcontext with hname
      have hsame := eq_of_name_eq hd.consistent.components_unique hmem hmem' hname
      subst hsame
      rw [hinner.det hd.consistent.components_unique hinner']

theorem fieldIndex_eq_of_name_eq {fields : List Field} (h : (fields.map Field.name).Nodup)
    {index index' : Fin fields.length}
    (hname : (fields.get index).name = (fields.get index').name) :
    index = index' := by
  have heq := List.inj_on_of_nodup_map h (List.getElem_mem index.isLt)
    (List.getElem_mem index'.isLt) hname
  have hnodup : fields.Nodup := h.of_map
  exact Fin.ext ((hnodup.getElem_inj_iff).mp heq)

/-- **The list of a place is known by its context.** -/
theorem Dictionary.Declares.det (hd : dictionary.Resolved)
    (hmessages : (dictionary.spec.messages.map Message.name).Nodup)
    (hfields : (dictionary.spec.fields.map Field.name).Nodup)
    (h : dictionary.Declares context members) : ∀ {context' : MemberContext} {members'},
    dictionary.Declares context' members' → context = context' → members = members' := by
  induction h with
  | list hlist =>
    intro context' members' h' hcontext
    refine (Dictionary.Declares.list hlist).det_top hd hmessages h' hcontext ?_
    cases hlist <;> nofun
  | component hmem hinner =>
    intro context' members' h' hcontext
    exact (Dictionary.Declares.component hmem hinner).det_top hd hmessages h' hcontext nofun
  | @group declared group hdeclares hmem ih =>
    intro context' members' h' hcontext
    cases h' with
    | list hlist' => cases hlist' <;> cases hcontext
    | component _ _ => cases hcontext
    | @group declared' group' hdeclares' hmem' =>
      injection hcontext with hname hparent
      have hsame := ih hdeclares' hparent
      subst hsame
      have hgroups := Group.eq_of_member_eq (group_eq_of_count_eq (hdeclares.nodup hd) hmem hmem'
        (fieldIndex_eq_of_name_eq hfields hname))
      rw [hgroups]

/-- **A group that is reached is known by the context of its instances**, up to its flag. -/
theorem Dictionary.Reaches.same (hd : dictionary.Resolved)
    (hmessages : (dictionary.spec.messages.map Message.name).Nodup)
    (hfields : (dictionary.spec.fields.map Field.name).Nodup) (h : dictionary.Reaches group)
    (h' : dictionary.Reaches group')
    (hcontext : group.instanceContext dictionary.spec.fields =
      group'.instanceContext dictionary.spec.fields) : group.Same group' := by
  obtain ⟨⟨declared, own, hdeclares, hown, hsame⟩, _⟩ := h.declared hd
  obtain ⟨⟨declared', own', hdeclares', hown', hsame'⟩, _⟩ := h'.declared hd
  injection hcontext with hname hparent
  have hlists := hdeclares.det hd hmessages hfields hdeclares' hparent
  subst hlists
  have hcount : own.countFieldIndex = own'.countFieldIndex := by
    rw [← hsame.countFieldIndex_eq, ← hsame'.countFieldIndex_eq]
    exact fieldIndex_eq_of_name_eq hfields hname
  have hgroups := Group.eq_of_member_eq
    (group_eq_of_count_eq (hdeclares.nodup hd) hown hown' hcount)
  rw [hgroups] at hsame
  exact hsame.trans hsame'.symm

/-- A list of members that is reached, and the context it is in. -/
inductive Dictionary.ReachesList (dictionary : Dictionary) :
    MemberContext → List (ResolvedMember dictionary.spec.fields.length) → Prop where
  | root {context : MemberContext}
      {members : List (ResolvedMember dictionary.spec.fields.length)}
      (h : dictionary.HasList context members) : dictionary.ReachesList context members
  | inst {group : Group dictionary.spec.fields.length} (h : dictionary.Reaches group) :
      dictionary.ReachesList (group.instanceContext dictionary.spec.fields) group.members

theorem Dictionary.ReachesList.reaches (h : dictionary.ReachesList context members)
    (hmem : group.member ∈ members) : dictionary.Reaches group := by
  cases h with
  | root hlist => exact .root hlist hmem
  | inst hgroup => exact .nested hgroup hmem

theorem Dictionary.ReachesList.declares (hd : dictionary.Resolved)
    (h : dictionary.ReachesList context members) : dictionary.Declares context members := by
  cases h with
  | root hlist => exact .list hlist
  | inst hgroup =>
    obtain ⟨⟨declared, own, hdeclares, hown, hsame⟩, _⟩ := hgroup.declared hd
    rw [hsame.declaredIn_eq] at hdeclares
    rw [hsame.instanceContext_eq, hsame.members_eq]
    exact .group hdeclares hown

/-- A list that is reached is an inlined one, up to the flag of a delimiter. -/
theorem Dictionary.ReachesList.inlines (hd : dictionary.Resolved)
    (h : dictionary.ReachesList context members) : ∃ lead source resolved,
      Inlines dictionary.spec context true lead source resolved ∧ SameMembers members resolved := by
  cases h with
  | root hlist =>
    obtain ⟨source, hinlines, _⟩ := hlist.inlines hd
    exact ⟨false, source, members, hinlines, .refl members⟩
  | inst hgroup =>
    obtain ⟨_, inst, first, others, hinlines, hinst, _⟩ := hgroup.declared hd
    rw [hinst]
    exact ⟨true, inst, first :: others, hinlines, .requireFirst (first :: others)⟩

/-- **What a place declares is reached together.** Where a list holds one of the groups that a
header, trailer, message or component declares, it holds the others as well. -/
theorem Dictionary.ReachesList.holds (hd : dictionary.Resolved)
    (hmessages : (dictionary.spec.messages.map Message.name).Nodup)
    (h : dictionary.ReachesList context members) (hmem : group.member ∈ members)
    (htop : ∀ name parent, group.declaredIn ≠ .group name parent)
    (h' : dictionary.Reaches group') (hdeclaredIn : group.declaredIn = group'.declaredIn) :
    ∃ own : Group dictionary.spec.fields.length, own.member ∈ members ∧ group'.Same own := by
  obtain ⟨⟨declared', own', hdeclares', hown', hsame'⟩, _⟩ := h'.declared hd
  obtain ⟨lead, source, resolved, hinlines, hsameMembers⟩ := h.inlines hd
  obtain ⟨inner, hinner, hsame⟩ := hsameMembers.exists_group hmem
  rcases hinlines.declared_or_spliced hinner with hcontext | hspliced
  · rw [← hsame.declaredIn_eq] at hcontext
    have hlists := (h.declares hd).det_top hd hmessages hdeclares'
      (hcontext.symm.trans hdeclaredIn) (hcontext ▸ htop)
    rw [← hlists] at hown'
    exact ⟨own', hown', hsame'⟩
  · obtain ⟨component, hcomponent, hdeclared, list, hlist, _, hholds⟩ := hspliced
    rw [← hsame.declaredIn_eq] at hdeclared
    have hlists := (Dictionary.Declares.component hcomponent hlist).det_top hd hmessages hdeclares'
      (hdeclared.symm.trans hdeclaredIn) nofun
    rw [← hlists] at hown'
    obtain ⟨spliced, hmem', hsame''⟩ := hholds own' hown'
    obtain ⟨final, hfinal, hsameFinal⟩ := hsameMembers.symm.exists_group hmem'
    exact ⟨final, hfinal, hsame'.trans (hsame''.trans hsameFinal)⟩

end Declares

/-! ## Groups that are all of a component -/

section ComponentNames

variable {spec : Spec} {context : MemberContext} {path lead : Bool} {members : List Member}
  {resolved : List (ResolvedMember spec.fields.length)}

/-- The name a component gives to its group, if the group is all of it. -/
def Component.ownName (component : Component) : Option String :=
  match component.members with
  | [.group _ _ _] => some component.name
  | _ => none

/-- The name that a group has from its component is its component's to give. -/
theorem Inlines.component_of_mem (h : Inlines spec context path lead members resolved) :
    ∀ {group : Group spec.fields.length}, group.member ∈ resolved →
      group.declaredIn = context ∧ group.component = none ∨
      ∃ component ∈ spec.components, group.declaredIn = .component component.name ∧
        group.component = component.ownName := by
  induction h with
  | nil => exact fun h => absurd h List.not_mem_nil
  | field hindex hrest ih =>
    intro group hmem
    rcases List.mem_cons.mp hmem with heq | hmem
    · cases heq
    · exact ih hmem
  | @component context path lead ref members component inner rest hcomponent hname hinner hrest
      ihi ihr =>
    intro group hmem
    rcases List.mem_append.mp hmem with hmem | hmem
    · by_cases hsingle : ∃ countTag isRequired inst,
          component.members = [.group countTag isRequired inst]
      · -- the component's one group takes its name
        obtain ⟨countTag, isRequired, inst, hsingle⟩ := hsingle
        rw [hsingle] at hinner
        cases hinner with
        | group hcount hinst hnil =>
          cases hnil
          simp only [Component.owned, hsingle, List.mem_singleton, Group.member] at hmem
          injection hmem with _ _ _ hdeclared hown _
          refine Or.inr ⟨component, hcomponent, hdeclared, ?_⟩
          rw [Component.ownName, hsingle, hown]
      · rw [(owned_eq component inner).resolve_right hsingle] at hmem
        refine Or.inr ((ihi hmem).elim (fun hown => ⟨component, hcomponent, hown.1, ?_⟩) id)
        rw [hown.2, Component.ownName]
        split
        · next hmembers => exact absurd ⟨_, _, _, hmembers⟩ hsingle
        · rfl
    · exact ihr hmem
  | @group context path lead countTag isRequired inst members count first others rest hcount hinst
      hrest ihi ihr =>
    intro group hmem
    rcases List.mem_cons.mp hmem with heq | hmem
    · left
      unfold Group.member at heq
      injection heq with _ _ _ hdeclared hcomponent _
      exact ⟨hdeclared, hcomponent⟩
    · exact ihr hmem

variable {dictionary : Dictionary} {group group' : Group dictionary.spec.fields.length}

/-- Only groups that components declare have a name from one. -/
theorem Dictionary.Reaches.component_cases (hd : dictionary.Resolved)
    (h : dictionary.Reaches group) :
    group.component = none ∧ (∀ name, group.declaredIn ≠ .component name) ∨
    ∃ component ∈ dictionary.spec.components, group.declaredIn = .component component.name ∧
      group.component = component.ownName := by
  cases h with
  | @root context members group hlist hmem =>
    obtain ⟨source, hinlines, _⟩ := hlist.inlines hd
    refine (hinlines.component_of_mem hmem).imp_left fun ⟨hdeclared, hnone⟩ => ⟨hnone, ?_⟩
    rw [hdeclared]
    cases hlist <;> nofun
  | @nested parent group hparent hmem =>
    obtain ⟨lead, source, resolved, hinlines, hsame⟩ :=
      (Dictionary.ReachesList.inst hparent).inlines hd
    obtain ⟨own, hown, hsameOwn⟩ := hsame.exists_group hmem
    rw [hsameOwn.component_eq, hsameOwn.declaredIn_eq]
    refine (hinlines.component_of_mem hown).imp_left fun ⟨hdeclared, hnone⟩ => ⟨hnone, ?_⟩
    rw [hdeclared]
    nofun

/-- Groups that are declared in one place have one name from it, if any. -/
theorem Dictionary.Reaches.component_eq (hd : dictionary.Resolved) (h : dictionary.Reaches group)
    (h' : dictionary.Reaches group') (hdeclaredIn : group.declaredIn = group'.declaredIn) :
    group.component = group'.component := by
  rcases h.component_cases hd with ⟨hnone, hother⟩ | ⟨component, hmem, hdeclared, hown⟩
  · rcases h'.component_cases hd with ⟨hnone', _⟩ | ⟨component', _, hdeclared', _⟩
    · rw [hnone, hnone']
    · exact absurd (hdeclaredIn.trans hdeclared') (hother _)
  · rcases h'.component_cases hd with ⟨_, hother'⟩ | ⟨component', hmem', hdeclared', hown'⟩
    · exact absurd (hdeclaredIn.symm.trans hdeclared) (hother' _)
    · rw [hdeclaredIn, hdeclared'] at hdeclared
      injection hdeclared with hname
      rw [hown, hown', eq_of_name_eq hd.consistent.components_unique hmem hmem' hname.symm]

end ComponentNames

end Refix.Dict
