import Refix.Dictionary.Acceptance

/-!
# What Resolving Reports

Every error that resolving a spec ends with is true of the spec: the definitions it names are
there and in the order it names them, and the place it names is one where the defect stands. A
place is the header, the trailer, a message, a component, or the instances of a group, wherever
that group is declared.

The members of an expanded component count as members of the list that refers to it, so a tag
that appears twice is reported with the places of that list.
-/

namespace Refix.Dict

open Refix.Foundation
open Refix.Message (Tag)

/-! ## Places -/

/-- A member list as it is authored, and its place. -/
inductive Spec.Stands (spec : Spec) : MemberContext → List Member → Prop where
  | header : spec.Stands .header spec.header
  | trailer : spec.Stands .trailer spec.trailer
  | message {message : Message} (h : message ∈ spec.messages) :
      spec.Stands (.message message.name) message.members
  | component {component : Component} (h : component ∈ spec.components) :
      spec.Stands (.component component.name) component.members
  | group {context : MemberContext} {members inst : List Member} {countTag : Tag}
      {isRequired : Bool} {count : Field} (hlist : spec.Stands context members)
      (hgroup : .group countTag isRequired inst ∈ members) (hcount : count ∈ spec.fields)
      (htag : count.tag = countTag) : spec.Stands (context.group count.name) inst

/-- The tags a list at a place expands to, each with its place: the members of a component are
placed where the reference stands. -/
inductive Places (spec : Spec) : MemberContext → List Member → List (Tag × MemberContext) → Prop where
  | nil {context : MemberContext} : Places spec context [] []
  | field {context : MemberContext} {ref : FieldRef} {members : List Member}
      {places : List (Tag × MemberContext)} (rest : Places spec context members places) :
      Places spec context (.field ref :: members) ((ref.tag, context) :: places)
  | component {context : MemberContext} {ref : ComponentRef} {component : Component}
      {members : List Member} {inner places : List (Tag × MemberContext)}
      (hmem : component ∈ spec.components) (hname : component.name = ref.name)
      (definition : Places spec context component.members inner)
      (rest : Places spec context members places) :
      Places spec context (.component ref :: members) (inner ++ places)
  | group {context : MemberContext} {countTag : Tag} {isRequired : Bool}
      {inst members : List Member} {count : Field} {inner places : List (Tag × MemberContext)}
      (hcount : count ∈ spec.fields) (htag : count.tag = countTag)
      (hinst : Places spec (context.group count.name) inst inner)
      (rest : Places spec context members places) :
      Places spec context (.group countTag isRequired inst :: members)
        ((countTag, context) :: inner ++ places)

/-- The places of a list, or those of the header, a message and the trailer. -/
inductive Spec.PlacesTogether (spec : Spec) : List (Tag × MemberContext) → Prop where
  | list {context : MemberContext} {members : List Member} {places : List (Tag × MemberContext)}
      (hlist : spec.Stands context members) (hplaces : Places spec context members places) :
      spec.PlacesTogether places
  | message {message : Message} {header body trailer : List (Tag × MemberContext)}
      (h : message ∈ spec.messages) (hheader : Places spec .header spec.header header)
      (hbody : Places spec (.message message.name) message.members body)
      (htrailer : Places spec .trailer spec.trailer trailer) :
      spec.PlacesTogether (header ++ body ++ trailer)

/-! ## Reports -/

/-- **What an error says of a spec.** -/
inductive Error.Holds (spec : Spec) : Error → Prop where
  | duplicateTag {first second : Field} (h : [first, second].Sublist spec.fields)
      (htag : first.tag = second.tag) : Holds spec (.duplicateTag second.tag)
  | nonIntegerValue {field : Field} {value : EnumValue} (hfield : field ∈ spec.fields)
      (hint : field.dataType.isIntBased = true) (hvalue : value ∈ field.values)
      (h : ¬ IsInteger value.value) : Holds spec (.nonIntegerValue field.name value.value)
  | repeatedCode {field : Field} {first second : EnumValue} (hfield : field ∈ spec.fields)
      (h : [first, second].Sublist field.values)
      (hcode : field.dataType.SameCode first.value second.value) :
      Holds spec (.repeatedCode field.name first.value second.value)
  | duplicateComponent {first second : Component} (h : [first, second].Sublist spec.components)
      (hname : first.name = second.name) : Holds spec (.duplicateComponent second.name)
  | duplicateMsgType {first second : Message} (h : [first, second].Sublist spec.messages)
      (hmsgType : first.msgType = second.msgType) :
      Holds spec (.duplicateMsgType second.msgType first.name second.name)
  | unexpectedLengthTag {field : Field} {tag : Tag} (hfield : field ∈ spec.fields)
      (htag : field.lengthTag = some tag) (h : field.dataType.hasLengthField = false) :
      Holds spec (.unexpectedLengthTag field.name tag)
  | unknownLengthTag {field : Field} {tag : Tag} (hfield : field ∈ spec.fields)
      (htag : field.lengthTag = some tag) (h : ¬ ∃ field ∈ spec.fields, field.tag = tag) :
      Holds spec (.unknownLengthTag field.name tag)
  | nonLengthField {field lengthField : Field} (hfield : field ∈ spec.fields)
      (htag : field.lengthTag = some lengthField.tag) (hlength : lengthField ∈ spec.fields)
      (h : lengthField.dataType ≠ .length) :
      Holds spec (.nonLengthField field.name lengthField.name)
  | sharedLengthField {lengthField first second : Field}
      (h : [first, second].Sublist spec.fields) (hlength : lengthField ∈ spec.fields)
      (hfirst : first.lengthTag = some lengthField.tag)
      (hsecond : second.lengthTag = some lengthField.tag) :
      Holds spec (.sharedLengthField lengthField.name first.name second.name)
  | missingLengthTag {context : MemberContext} {members : List Member} {ref : FieldRef}
      {field : Field} (hlist : spec.Stands context members) (href : .field ref ∈ members)
      (hfield : field ∈ spec.fields) (htag : field.tag = ref.tag)
      (hdata : field.dataType.hasLengthField = true) (h : field.lengthTag = none) :
      Holds spec (.missingLengthTag field.name context)
  | duplicateField {tag : Tag} {first second : MemberContext} {places : List (Tag × MemberContext)}
      (hplaces : spec.PlacesTogether places)
      (h : [(tag, first), (tag, second)].Sublist places) :
      Holds spec (.duplicateField tag first second)
  | unknownField {context : MemberContext} {members : List Member} {tag : Tag}
      (hlist : spec.Stands context members)
      (huse : (∃ ref, .field ref ∈ members ∧ ref.tag = tag) ∨
        ∃ isRequired inst, .group tag isRequired inst ∈ members)
      (h : ¬ ∃ field ∈ spec.fields, field.tag = tag) : Holds spec (.unknownField tag context)
  | unknownComponent {context : MemberContext} {members : List Member} {ref : ComponentRef}
      (hlist : spec.Stands context members) (href : .component ref ∈ members)
      (h : ¬ ∃ component ∈ spec.components, component.name = ref.name) :
      Holds spec (.unknownComponent ref.name context)
  | circularComponent {component : Component} (hmem : component ∈ spec.components)
      (h : Relation.TransGen spec.Refers component.name component.name) :
      Holds spec (.circularComponent component.name)
  | emptyGroup {context : MemberContext} {name : String} {inst : List Member}
      (hlist : spec.Stands (context.group name) inst) (h : ExpandsTo spec inst []) :
      Holds spec (.emptyGroup (context.group name))

/-- A failure that is an error, and one that is true of the spec. -/
def Reported (spec : Spec) (failure : Failure) : Prop :=
  ∃ error, failure = .error error ∧ error.Holds spec

variable {spec : Spec}

theorem reported {error : Error} (h : error.Holds spec) : Reported spec (.error error) :=
  ⟨error, rfl, h⟩

/-! ## The definitions -/

theorem checkIntValues_reports :
    Outcome (Reported spec) (fun _ => True) (checkIntValues spec.fields) := by
  have hall : Outcome (Reported spec)
      (fun _ => ∀ field ∈ spec.fields.filter (·.dataType.isIntBased), True)
      (checkIntValues spec.fields) := by
    apply Outcome.forM
    intro field hmem
    obtain ⟨hfield, hint⟩ := List.mem_filter.mp hmem
    cases hfind : field.values.find? (!isInteger ·.value) with
    | none => trivial
    | some value =>
      have hbad : isInteger value.value = false := by simpa using List.find?_some hfind
      apply reported
      refine .nonIntegerValue hfield hint (List.mem_of_find?_eq_some hfind) fun hinteger => ?_
      rw [isInteger_iff.mpr hinteger] at hbad
      cases hbad
  exact hall.mono fun _ _ => trivial

theorem checkUniqueCodes_reports :
    Outcome (Reported spec) (fun _ => True) (checkUniqueCodes spec.fields) := by
  have hall : Outcome (Reported spec) (fun _ => ∀ field ∈ spec.fields, True)
      (checkUniqueCodes spec.fields) := by
    apply Outcome.forM
    intro field hfield
    cases hrepeat : firstRepeat (field.dataType.canonicalCode ·.value) field.values with
    | none => trivial
    | some values =>
      obtain ⟨hcode, hvalues⟩ := firstRepeat_eq_some hrepeat
      exact reported (.repeatedCode hfield hvalues (canonicalCode_eq_iff.mp hcode))
  exact hall.mono fun _ _ => trivial

theorem checkUniqueMsgTypes_reports :
    Outcome (Reported spec) (fun _ => True) (checkUniqueMsgTypes spec.messages) := by
  unfold checkUniqueMsgTypes
  cases hrepeat : firstRepeat Message.msgType spec.messages with
  | none => trivial
  | some messages =>
    obtain ⟨hmsgType, hmessages⟩ := firstRepeat_eq_some hrepeat
    exact reported (.duplicateMsgType hmessages hmsgType)

theorem indexFields_reports :
    Outcome (Reported spec) (fun _ => True) (indexFields spec.fields) := by
  unfold indexFields
  cases hrepeat : firstRepeat Field.tag spec.fields with
  | none => trivial
  | some fields =>
    obtain ⟨htag, hfields⟩ := firstRepeat_eq_some hrepeat
    exact reported (.duplicateTag hfields htag)

theorem indexComponents_reports :
    Outcome (Reported spec) (fun _ => True) (indexComponents spec.components) := by
  unfold indexComponents
  cases hrepeat : firstRepeat Component.name spec.components with
  | none => trivial
  | some components =>
    obtain ⟨hname, hcomponents⟩ := firstRepeat_eq_some hrepeat
    exact reported (.duplicateComponent hcomponents hname)

/-- The names that are `taken` are those of fields before the rest. -/
theorem checkLengthTagsFrom_reports (rest : List Field) : ∀ (done : List Field)
    (taken : List (Tag × String)), spec.fields = done ++ rest →
    (∀ entry ∈ taken, ∃ field ∈ done, field.lengthTag = some entry.1 ∧ field.name = entry.2) →
    Outcome (Reported spec) (fun _ => True) (checkLengthTagsFrom spec.fields taken rest) := by
  induction rest with
  | nil => exact fun _ _ _ _ => trivial
  | cons field rest ih =>
    intro done taken hfields htaken
    have hmem : field ∈ spec.fields := by simp [hfields]
    have hsplit : spec.fields = (done ++ [field]) ++ rest := by simp [hfields]
    have hkeep : ∀ entry ∈ taken, ∃ other ∈ done ++ [field],
        other.lengthTag = some entry.1 ∧ other.name = entry.2 := by
      intro entry hentry
      obtain ⟨other, hother, heq⟩ := htaken entry hentry
      exact ⟨other, List.mem_append_left _ hother, heq⟩
    rw [checkLengthTagsFrom]
    cases hlength : field.lengthTag with
    | none => exact ih (done ++ [field]) taken hsplit hkeep
    | some tag =>
      simp only
      split
      · next hdata => exact reported (.unexpectedLengthTag hmem hlength hdata)
      cases hindex : fieldIndex? spec.fields tag with
      | none =>
        exact reported (.unknownLengthTag hmem hlength (fieldIndex?_eq_none_iff.mp hindex))
      | some index =>
        have htag := tag_of_fieldIndex? hindex
        have hlengthField : spec.fields.get index ∈ spec.fields := List.getElem_mem index.isLt
        simp only
        split
        · next htype => exact reported (.nonLengthField hmem (htag ▸ hlength) hlengthField htype)
        cases hlookup : taken.lookup tag with
        | some first =>
          -- what was taken, a field before this one took
          obtain ⟨before, after, hsplitTaken, -⟩ := List.lookup_eq_some_iff.mp hlookup
          obtain ⟨other, hother, hotherLength, rfl⟩ :=
            htaken (tag, first) (by simp [hsplitTaken])
          have hpair : [other, field].Sublist spec.fields := by
            rw [hfields]
            exact (List.singleton_sublist.mpr hother).append
              (List.singleton_sublist.mpr List.mem_cons_self)
          exact reported (.sharedLengthField hpair hlengthField (htag ▸ hotherLength)
            (htag ▸ hlength))
        | none =>
          refine ih (done ++ [field]) ((tag, field.name) :: taken) hsplit ?_
          exact List.forall_mem_cons.mpr ⟨⟨field, by simp, hlength, rfl⟩, hkeep⟩

theorem checkDefinitions_reports :
    Outcome (Reported spec) (fun _ => True) (checkDefinitions spec) := by
  unfold checkDefinitions
  refine checkIntValues_reports.bind fun _ _ _ => ?_
  refine checkUniqueCodes_reports.bind fun _ _ _ => ?_
  refine checkUniqueMsgTypes_reports.bind fun _ _ _ => ?_
  refine indexFields_reports.bind fun _ _ _ => ?_
  refine (checkLengthTagsFrom_reports spec.fields [] [] rfl (List.forall_mem_nil _)).bind
    fun _ _ _ => ?_
  exact indexComponents_reports

/-! ## Resolved members and their places -/

mutual

/-- Every tag of a member list at any depth, in order, with its place. -/
def placesOf (fields : List Field) (context : MemberContext) :
    List (ResolvedMember fields.length) → List (Tag × MemberContext)
  | [] => []
  | member :: members => memberPlacesOf fields context member ++ placesOf fields context members

def memberPlacesOf (fields : List Field) (context : MemberContext) :
    ResolvedMember fields.length → List (Tag × MemberContext)
  | .field index _ => [((fields.get index).tag, context)]
  | .group count _ _ _ _ members =>
    ((fields.get count).tag, context) ::
      placesOf fields (context.group (fields.get count).name) members

end

section Places

variable {fields : List Field} {context : MemberContext}
  {members : List (ResolvedMember fields.length)}

theorem placesOf_append (members' : List (ResolvedMember fields.length)) :
    placesOf fields context (members ++ members') =
      placesOf fields context members ++ placesOf fields context members' := by
  induction members with
  | nil => rfl
  | cons member members ih => rw [List.cons_append, placesOf, placesOf, ih, List.append_assoc]

@[simp] theorem memberPlacesOf_require (member : ResolvedMember fields.length) :
    memberPlacesOf fields context member.require = memberPlacesOf fields context member := by
  cases member <;> rfl

@[simp] theorem placesOf_requireFirst :
    placesOf fields context (requireFirst members) = placesOf fields context members := by
  cases members <;> simp [requireFirst, placesOf]

@[simp] theorem placesOf_owned (component : Component) :
    placesOf fields context (component.owned members) = placesOf fields context members := by
  unfold Component.owned
  split <;> simp [placesOf, memberPlacesOf]

end Places

/-- The members a list stands for are placed as the list says, wherever the list stands. -/
theorem Inlines.places {context : MemberContext} {path lead : Bool} {members : List Member}
    {resolved : List (ResolvedMember spec.fields.length)}
    (h : Inlines spec context path lead members resolved) :
    ∀ place, Places spec place members (placesOf spec.fields place resolved) := by
  induction h with
  | nil => exact fun place => .nil
  | field hindex hrest ih =>
    intro place
    rw [placesOf, memberPlacesOf, tag_of_fieldIndex? hindex]
    exact .field (ih place)
  | component hmem hname hinner hrest ihi ihr =>
    intro place
    rw [placesOf_append, placesOf_owned]
    exact .component hmem hname (ihi place) (ihr place)
  | @group _ _ _ _ _ _ _ count _ _ _ hcount hinst hrest ihi ihr =>
    intro place
    rw [placesOf, memberPlacesOf, tag_of_fieldIndex? hcount, placesOf, memberPlacesOf_require]
    exact .group (List.getElem_mem count.isLt) (tag_of_fieldIndex? hcount)
      (ihi (place.group (spec.fields.get count).name)) (ihr place)

/-! ## Tags that appear twice -/

/-- An error that names the places of a tag, first one that stood before and then a later one. -/
def Twice (places : List (Tag × MemberContext)) (failure : Failure) : Prop :=
  ∃ tag first second, failure = .error (.duplicateField tag first second) ∧
    [(tag, first), (tag, second)].Sublist places

section Twice

variable {fields : List Field} {context : MemberContext} {seen seen' : SeenTags}
  {places places' : List (Tag × MemberContext)} {failure : Failure}

theorem Twice.sublist (h : Twice places failure) (hsub : places.Sublist places') :
    Twice places' failure := by
  obtain ⟨tag, first, second, rfl, hpair⟩ := h
  exact ⟨tag, first, second, rfl, hpair.trans hsub⟩

/-- The places that are entered follow those that were seen. -/
def Follows (seen : SeenTags) (places : List (Tag × MemberContext)) (seen' : SeenTags) : Prop :=
  seen'.reverse = seen.reverse ++ places

theorem insertTag_reports (tag : Tag) (context : MemberContext) (seen : SeenTags) :
    Outcome (Twice (seen.reverse ++ [(tag, context)])) (Follows seen [(tag, context)])
      (insertTag tag context seen) := by
  unfold insertTag
  cases hlookup : seen.lookup tag with
  | none => exact List.reverse_cons
  | some first =>
    obtain ⟨before, after, hsplit, -⟩ := List.lookup_eq_some_iff.mp hlookup
    have hfirst : (tag, first) ∈ seen.reverse := by simp [hsplit]
    exact ⟨tag, first, context, rfl, (List.singleton_sublist.mpr hfirst).append (.refl _)⟩

/-- One step that enters places, after another. -/
theorem follows_bind {enter : SeenTags → Except Failure SeenTags} {first : Except Failure SeenTags}
    (h : Outcome (Twice (seen.reverse ++ places)) (Follows seen places) first)
    (hnext : ∀ seen', Outcome (Twice (seen'.reverse ++ places')) (Follows seen' places')
      (enter seen')) :
    Outcome (Twice (seen.reverse ++ (places ++ places'))) (Follows seen (places ++ places'))
      (first >>= enter) := by
  rw [← List.append_assoc]
  have hfirst := h.imp (fun _ hfail => hfail.sublist (List.sublist_append_left _ places'))
    fun _ => id
  refine hfirst.bind fun seen' _ hfollows => ?_
  have hrest := hnext seen'
  rw [hfollows] at hrest
  refine hrest.mono fun seen'' hfollows' => ?_
  rw [Follows, hfollows', hfollows, List.append_assoc]

/-- **A tag that is reported twice stands at the two places**, among those entered. -/
theorem insertUniqueTags_reports (fields : List Field)
    (members : List (ResolvedMember fields.length)) : ∀ context seen,
    Outcome (Twice (seen.reverse ++ placesOf fields context members))
      (Follows seen (placesOf fields context members))
      (insertUniqueTags fields context members seen) := by
  induction members using resolved_induction with
  | nil => exact fun context seen => (List.append_nil _).symm
  | field index isRequired members ih =>
    intro context seen
    rw [insertUniqueTags, insertUniqueTag, placesOf, memberPlacesOf]
    exact follows_bind (insertTag_reports _ context seen) fun seen' => ih context seen'
  | group count delimiter isRequired declaredIn component inst members ihi ihm =>
    intro context seen
    rw [insertUniqueTags, insertUniqueTag, placesOf, memberPlacesOf]
    refine follows_bind ?_ fun seen' => ihm context seen'
    exact follows_bind (insertTag_reports _ context seen) fun seen' => ihi _ seen'

/-- A list's tags are checked at its place. -/
theorem completeMembers_reports {members : List Member} {isInstance path lead : Bool}
    {declared : MemberContext} {resolved : List (ResolvedMember spec.fields.length)}
    (hlist : spec.Stands context members) (hinlines : Inlines spec declared path lead members resolved) :
    Outcome (Reported spec) (fun _ => True) (completeMembers spec context isInstance resolved) := by
  have hsame : placesOf spec.fields context (if isInstance then requireFirst resolved else resolved) =
      placesOf spec.fields context resolved := by
    cases isInstance <;> simp
  have hinsert := insertUniqueTags_reports spec.fields
    (if isInstance then requireFirst resolved else resolved) context []
  rw [hsame] at hinsert
  unfold completeMembers checkUniqueTags
  have hcheck : Outcome (Reported spec) (fun _ => True) (insertUniqueTags spec.fields context
      (if isInstance then requireFirst resolved else resolved) []) := by
    apply hinsert.imp
    · rintro _ ⟨tag, first, second, rfl, hpair⟩
      exact reported (.duplicateField (.list hlist (hinlines.places context)) hpair)
    · intros
      trivial
  have hunique : Outcome (Reported spec) (fun _ => True) (_ >>= fun _ => pure ()) :=
    hcheck.bind fun _ _ _ => trivial
  exact hunique.bind fun _ _ _ => trivial

end Twice

/-! ## Lists -/

section Lists

variable {stack : List (Fin spec.components.length)} {context : MemberContext}
  {members : List Member}

/-- Every list that stands somewhere is one of a root's lists. -/
theorem Spec.Stands.root (h : spec.Stands context members) :
    ∃ root, spec.IsRoot root ∧ Nested root members := by
  induction h with
  | header => exact ⟨_, .header, .refl _⟩
  | trailer => exact ⟨_, .trailer, .refl _⟩
  | message h => exact ⟨_, .message h, .refl _⟩
  | component h => exact ⟨_, .component h, .refl _⟩
  | group hlist hgroup hcount htag ih =>
    obtain ⟨root, hroot, hnested⟩ := ih
    exact ⟨root, hroot, hnested.trans (.group hgroup (.refl _))⟩

/-- In a consistent spec every list that stands somewhere is in order. -/
theorem Spec.Stands.allOk (h : spec.Stands context members) (hspec : spec.Consistent) :
    AllOk spec members := by
  obtain ⟨root, hroot, hnested⟩ := h.root
  exact fun nested h' => hspec.lists_ok root nested hroot (hnested.trans h')

variable (context) in
theorem fieldIndex_reports {tag : Tag} (hlist : spec.Stands context members)
    (huse : (∃ ref, .field ref ∈ members ∧ ref.tag = tag) ∨
      ∃ isRequired inst, .group tag isRequired inst ∈ members) :
    Outcome (Reported spec) (fun index => fieldIndex? spec.fields tag = some index)
      (fieldIndex spec tag context) := by
  unfold fieldIndex
  cases hindex : fieldIndex? spec.fields tag with
  | none => exact reported (.unknownField hlist huse (fieldIndex?_eq_none_iff.mp hindex))
  | some index => exact rfl

theorem resolveFieldRef_reports {ref : FieldRef} (hlist : spec.Stands context members)
    (href : .field ref ∈ members) :
    Outcome (Reported spec) (fun _ => True) (resolveFieldRef spec ref context) := by
  unfold resolveFieldRef
  refine (fieldIndex_reports context hlist (Or.inl ⟨ref, href, rfl⟩)).bind fun index _ hindex => ?_
  simp only
  split
  · next hmissing =>
    exact reported (.missingLengthTag hlist href (List.getElem_mem index.isLt)
      (tag_of_fieldIndex? hindex) hmissing.1 hmissing.2)
  · trivial

/-- **Resolving the members of a list at its place**, where expanding a component reports what is
true. -/
theorem resolveEach_reports (htags : (spec.fields.map Field.tag).Nodup)
    (hnames : (spec.components.map Component.name).Nodup)
    {expand : Fin spec.components.length → Expander spec → Except Failure (Expander spec)}
    (hexpand : ∀ child expander, expander.Valid stack →
      RefersFrom stack (spec.components.get child).name →
      Outcome (Defect spec) (fun expander' => expander'.Valid stack ∧
        (expander'.expansions child).isSome = true) (expand child expander))
    (hreports : ∀ child expander, expander.Valid stack →
      RefersFrom stack (spec.components.get child).name →
      Outcome (Reported spec) (fun _ => True) (expand child expander))
    (members : List Member) : ∀ (context : MemberContext) (whole : List Member) (lead : Bool)
      (expander : Expander spec), spec.Stands context whole → members ⊆ whole →
    expander.Valid stack → (∀ name, Mentions members name → RefersFrom stack name) →
    Outcome (Reported spec) (fun _ => True)
      (resolveEach spec expand context lead members expander) := by
  induction members using members_induction with
  | nil =>
    intros
    trivial
  | field ref members ih =>
    intro context whole lead expander hlist hsub hvalid hmentions
    obtain ⟨href, hsub⟩ := List.cons_subset.mp hsub
    rw [resolveEach, resolveMember]
    refine (?_ : Outcome (Reported spec) (fun result => result.2 = expander) _).bind ?_
    · exact (resolveFieldRef_reports hlist href).bind fun _ _ _ => rfl
    · rintro ⟨resolved, _⟩ - rfl
      have hrest := ih context whole false _ hlist hsub hvalid
        fun name h => hmentions name (mentions_cons h)
      exact hrest.bind fun _ _ _ => trivial
  | component ref members ih =>
    intro context whole lead expander hlist hsub hvalid hmentions
    obtain ⟨href, hsub⟩ := List.cons_subset.mp hsub
    rw [resolveEach, resolveMember]
    -- a name that no component has is reported at the list the reference stands in
    cases hchild : componentIndex? spec.components ref.name with
    | none => exact reported (.unknownComponent hlist href (componentIndex?_eq_none_iff.mp hchild))
    | some child =>
      have hrefers : RefersFrom stack (spec.components.get child).name := by
        rw [name_of_componentIndex? hchild]
        exact hmentions _ (mentions_component.mpr (Or.inl rfl))
      refine (?_ : Outcome (Reported spec) (fun result => result.2.Valid stack) _).bind ?_
      · refine (hreports child expander hvalid hrefers).bind fun expander' hok _ => ?_
        obtain ⟨hvalid', hsome⟩ := (hexpand child expander hvalid hrefers).of_eq_ok hok
        cases hexpansion : expander'.expansions child with
        | none =>
          rw [hexpansion] at hsome
          cases hsome
        | some expansion => exact hvalid'
      · rintro ⟨resolved, expander'⟩ - hvalid'
        have hrest := ih context whole false expander' hlist hsub hvalid'
          fun name h => hmentions name (mentions_cons h)
        exact hrest.bind fun _ _ _ => trivial
  | group countTag isRequired inst members ihi ihm =>
    intro context whole lead expander hlist hsub hvalid hmentions
    obtain ⟨hgroup, hsub⟩ := List.cons_subset.mp hsub
    rw [resolveEach, resolveMember]
    refine (?_ : Outcome (Reported spec) (fun result => result.2.Valid stack) _).bind ?_
    · -- the instances stand at a place named after the count field, once that is known
      have hcount := fieldIndex_reports context hlist (Or.inr ⟨isRequired, inst, hgroup⟩)
      refine hcount.bind fun count _ hcount => ?_
      have hinst : spec.Stands (context.group (spec.fields.get count).name) inst :=
        .group hlist hgroup (List.getElem_mem count.isLt) (tag_of_fieldIndex? hcount)
      have hmentionsInst : ∀ name, Mentions inst name → RefersFrom stack name :=
        fun name h => hmentions name (mentions_group.mpr (Or.inl h))
      have hresolved := ihi _ inst true expander hinst (List.Subset.refl inst) hvalid hmentionsInst
      refine hresolved.bind fun result hok _ => ?_
      have hkeeps := resolveEach_outcome htags hnames hexpand inst
        (context.group (spec.fields.get count).name) true expander hvalid hmentionsInst
        fun hspec => (allOk_iff.mp (hinst.allOk hspec)).1
      obtain ⟨hvalid', hinlines, -⟩ := hkeeps.of_eq_ok hok
      refine (completeMembers_reports hinst hinlines).bind fun completed hcompleted _ => ?_
      have hfirst := completeMembers_outcome (context.group (spec.fields.get count).name) true
        fun hspec => (allOk_iff.mp (hinst.allOk hspec)).2 _ hinlines.expandsTo
      obtain ⟨rfl, -⟩ := hfirst.of_eq_ok hcompleted
      have hexpands := hinlines.expandsTo
      -- only a list that expands to nothing is an empty group
      cases hmembers : result.1 with
      | nil =>
        rw [hmembers] at hexpands
        exact reported (.emptyGroup hinst hexpands)
      | cons first others => exact hvalid'
    · rintro ⟨resolved, expander'⟩ - hvalid'
      have hrest := ihm context whole false expander' hlist hsub hvalid'
        fun name h => hmentions name (mentions_cons h)
      exact hrest.bind fun _ _ _ => trivial

theorem resolveMembers_reports (htags : (spec.fields.map Field.tag).Nodup)
    (hnames : (spec.components.map Component.name).Nodup)
    {expand : Fin spec.components.length → Expander spec → Except Failure (Expander spec)}
    (hexpand : ∀ child expander, expander.Valid stack →
      RefersFrom stack (spec.components.get child).name →
      Outcome (Defect spec) (fun expander' => expander'.Valid stack ∧
        (expander'.expansions child).isSome = true) (expand child expander))
    (hreports : ∀ child expander, expander.Valid stack →
      RefersFrom stack (spec.components.get child).name →
      Outcome (Reported spec) (fun _ => True) (expand child expander))
    {expander : Expander spec} (hlist : spec.Stands context members) (hvalid : expander.Valid stack)
    (hmentions : ∀ name, Mentions members name → RefersFrom stack name) :
    Outcome (Reported spec) (fun _ => True)
      (resolveMembers spec expand members context expander) := by
  have heach := resolveEach_reports htags hnames hexpand hreports members context members false
    expander hlist (List.Subset.refl members) hvalid hmentions
  refine heach.bind fun result hok _ => ?_
  have hkeeps := resolveEach_outcome htags hnames hexpand members context false expander hvalid
    hmentions fun hspec => (allOk_iff.mp (hlist.allOk hspec)).1
  obtain ⟨-, hinlines, -⟩ := hkeeps.of_eq_ok hok
  exact (completeMembers_reports hlist hinlines).bind fun _ _ _ => trivial

end Lists

/-! ## Components -/

section Components

variable {stack : List (Fin spec.components.length)} {expander : Expander spec}

/-- **Expanding a component**: one that is found on the stack refers to itself. -/
theorem expandComponent_reports (htags : (spec.fields.map Field.tag).Nodup)
    (hnames : (spec.components.map Component.name).Nodup) (fuel : ℕ) :
    ∀ (stack : List (Fin spec.components.length)) (index : Fin spec.components.length)
      (expander : Expander spec), expander.Valid stack → StackOk stack →
      spec.components.length < fuel + stack.length →
      RefersFrom stack (spec.components.get index).name →
      Outcome (Reported spec) (fun _ => True) (expandComponent spec fuel index expander) := by
  induction fuel with
  | zero =>
    intro stack index expander hvalid hstack hfuel hrefers
    have hlength : stack.length ≤ spec.components.length := by
      simpa using hstack.nodup.length_le_card
    omega
  | succ fuel ih =>
    intro stack index expander hvalid hstack hfuel hrefers
    have hmem : spec.components.get index ∈ spec.components := List.getElem_mem index.isLt
    rw [expandComponent]
    split
    · trivial
    simp only
    split
    · -- each component on the stack refers to the one above it, and the top to this one
      next hon =>
      rw [hvalid.stack_eq] at hon
      exact reported (.circularComponent hmem (hstack.cycle hrefers hon))
    next hfresh =>
    rw [hvalid.stack_eq] at hfresh
    have hdeeper := hstack.cons hrefers hfresh
    have hroom : spec.components.length < fuel + (index :: stack).length := by
      rw [List.length_cons]
      omega
    have hpushed : Expander.Valid { expander with stack := index :: expander.stack }
        (index :: stack) := ⟨hvalid.expansions, by rw [hvalid.stack_eq]⟩
    have hmembers := resolveMembers_reports htags hnames
      (fun child expander' hvalid' hchild => expandComponent_outcome htags hnames fuel
        (index :: stack) child expander' hvalid' hdeeper hroom hchild)
      (fun child expander' hvalid' => ih (index :: stack) child expander' hvalid' hdeeper hroom)
      (.component hmem) hpushed
      (fun name h top htop => by
        cases htop
        exact ⟨_, hmem, rfl, h⟩)
    exact hmembers.bind fun _ _ _ => trivial

theorem expandComponent_fuel_reports (htags : (spec.fields.map Field.tag).Nodup)
    (hnames : (spec.components.map Component.name).Nodup) (child : Fin spec.components.length)
    (expander : Expander spec) (hvalid : expander.Valid []) :
    Outcome (Reported spec) (fun _ => True) (expandComponent spec spec.fuel child expander) :=
  expandComponent_reports htags hnames spec.fuel [] child expander hvalid
    ⟨List.nodup_nil, List.isChain_nil⟩ (Nat.lt_succ_self _) nofun

/-- Resolving the header, the trailer or a message's members. -/
theorem resolveRoot_reports (htags : (spec.fields.map Field.tag).Nodup)
    (hnames : (spec.components.map Component.name).Nodup) {context : MemberContext}
    {members : List Member} (hlist : spec.Stands context members) (hvalid : expander.Valid []) :
    Outcome (Reported spec) (fun _ => True)
      (resolveMembers spec (expandComponent spec spec.fuel) members context expander) :=
  resolveMembers_reports htags hnames
    (fun child expander hvalid _ => expandComponent_fuel htags hnames child expander hvalid)
    (fun child expander hvalid _ => expandComponent_fuel_reports htags hnames child expander hvalid)
    hlist hvalid nofun

theorem foldlM_expandComponent_reports (htags : (spec.fields.map Field.tag).Nodup)
    (hnames : (spec.components.map Component.name).Nodup)
    (indices : List (Fin spec.components.length)) : ∀ expander : Expander spec, expander.Valid [] →
    Outcome (Reported spec) (fun _ => True)
      (indices.foldlM (fun expander index => expandComponent spec spec.fuel index expander)
        expander) := by
  induction indices with
  | nil =>
    intros
    trivial
  | cons index indices ih =>
    intro expander hvalid
    rw [List.foldlM_cons]
    have hfirst := expandComponent_fuel_reports htags hnames index expander hvalid
    refine hfirst.bind fun expander' hok _ => ?_
    exact ih expander' ((expandComponent_fuel htags hnames index expander hvalid).of_eq_ok hok).1

end Components

/-! ## Messages -/

section Messages

variable {header trailer : List (ResolvedMember spec.fields.length)}

theorem resolveMessage_reports (htags : (spec.fields.map Field.tag).Nodup)
    (hnames : (spec.components.map Component.name).Nodup)
    (hheader : Inlines spec .header true false spec.header header)
    (htrailer : Inlines spec .trailer true false spec.trailer trailer) {message : Message}
    (hmessage : message ∈ spec.messages) {expander : Expander spec} (hvalid : expander.Valid []) :
    Outcome (Reported spec) (fun _ => True)
      (resolveMessage spec header trailer message expander) := by
  refine (resolveRoot_reports htags hnames (.message hmessage) hvalid).bind
    fun result hok _ => ?_
  have hkeeps := resolveRoot_outcome htags hnames (.message message.name) (.message hmessage) hvalid
  obtain ⟨-, hinlines, -⟩ := hkeeps.of_eq_ok hok
  have hplaces := Spec.PlacesTogether.message hmessage (hheader.places .header)
    (hinlines.places (.message message.name)) (htrailer.places .trailer)
  have hfail : ∀ failure, Twice (placesOf spec.fields .header header ++
      placesOf spec.fields (.message message.name) result.1 ++
      placesOf spec.fields .trailer trailer) failure → Reported spec failure := by
    rintro _ ⟨tag, first, second, rfl, hpair⟩
    exact reported (.duplicateField hplaces hpair)
  -- the tags of the header, then of the message, then of the trailer
  have hall := follows_bind (insertUniqueTags_reports spec.fields header .header [])
    fun seen => insertUniqueTags_reports spec.fields result.1 (.message message.name) seen
  have hall' := follows_bind hall
    fun seen => insertUniqueTags_reports spec.fields trailer .trailer seen
  have hreports : Outcome (Reported spec) (fun _ => True) _ :=
    hall'.imp (fun failure h => hfail failure h) fun _ _ => trivial
  have hdone : Outcome (Reported spec) (fun _ => True) (_ >>= fun _ => pure result) :=
    hreports.bind fun _ _ _ => trivial
  simpa only [bind_assoc] using hdone

theorem resolveMessages_reports (htags : (spec.fields.map Field.tag).Nodup)
    (hnames : (spec.components.map Component.name).Nodup)
    (hheader : Inlines spec .header true false spec.header header)
    (htrailer : Inlines spec .trailer true false spec.trailer trailer) (messages : List Message) :
    ∀ expander : Expander spec, expander.Valid [] → messages ⊆ spec.messages →
    Outcome (Reported spec) (fun _ => True)
      (resolveMessages spec header trailer messages expander) := by
  induction messages with
  | nil =>
    intros
    trivial
  | cons message messages ih =>
    intro expander hvalid hsub
    obtain ⟨hmessage, hsub⟩ := List.cons_subset.mp hsub
    have hfirst := resolveMessage_reports htags hnames hheader htrailer hmessage hvalid
    refine hfirst.bind fun result hok _ => ?_
    have hkeeps := resolveMessage_outcome htags hnames hheader htrailer hmessage hvalid
    have hrest := ih result.2 (hkeeps.of_eq_ok hok).1 hsub
    exact hrest.bind fun _ _ _ => trivial

end Messages

/-! ## The spec -/

theorem resolve_reported (spec : Spec) : Outcome (Reported spec) (fun _ => True) spec.resolve := by
  refine checkDefinitions_reports.bind fun _ hchecked _ => ?_
  have hdefinitions := checkDefinitions_outcome.of_eq_ok hchecked
  have htags := hdefinitions.tags_unique
  have hnames := hdefinitions.components_unique
  have hempty : (Expander.new spec).Valid [] := ⟨nofun, rfl⟩
  refine (foldlM_expandComponent_reports htags hnames (List.finRange spec.components.length)
    (Expander.new spec) hempty).bind fun expander hexpanded _ => ?_
  have hvalid := ((expandComponents_outcome htags hnames).of_eq_ok hexpanded).1
  refine (resolveRoot_reports htags hnames .header hvalid).bind fun header hok _ => ?_
  obtain ⟨hvalid, hheader, -⟩ :=
    (resolveRoot_outcome htags hnames .header .header hvalid).of_eq_ok hok
  refine (resolveRoot_reports htags hnames .trailer hvalid).bind fun trailer hok _ => ?_
  obtain ⟨hvalid, htrailer, -⟩ :=
    (resolveRoot_outcome htags hnames .trailer .trailer hvalid).of_eq_ok hok
  have hmessages := resolveMessages_reports htags hnames hheader htrailer spec.messages trailer.2
    hvalid (List.Subset.refl _)
  exact hmessages.bind fun _ _ _ => trivial

/-- **Every error that resolving a spec ends with is true of the spec.** -/
theorem resolve_reports (spec : Spec) {error : Error}
    (h : spec.resolve = .error (.error error)) : error.Holds spec := by
  obtain ⟨reported, heq, hholds⟩ := (resolve_reported spec).of_eq_error h
  cases heq
  exact hholds

/-- A message whose group repeats, through a component, a tag of the header. -/
def repeatingSpec : Spec where
  version := { protocol := .fix, major := 4, minor := 4, servicePack := 0 }
  header := [.field { tag := 49, isRequired := true }]
  messages :=
    [{ name := "Logon", msgType := "A", category := .admin
       members := [.group 384 false [.component { name := "Sender", isRequired := true }]] }]
  trailer := []
  fields :=
    [{ name := "SenderCompID", tag := 49, dataType := .string, lengthTag := none, values := [] },
     { name := "NoMsgTypes", tag := 384, dataType := .numInGroup, lengthTag := none, values := [] }]
  components :=
    [{ name := "Sender", members := [.field { tag := 49, isRequired := true }] }]

theorem resolve_reports_repeating :
    repeatingSpec.resolve =
        .error (.error (.duplicateField 49 .header (.group "NoMsgTypes" (.message "Logon")))) ∧
      (Error.duplicateField 49 .header (.group "NoMsgTypes" (.message "Logon"))).Holds
        repeatingSpec := by
  have hresolve : repeatingSpec.resolve =
      .error (.error (.duplicateField 49 .header (.group "NoMsgTypes" (.message "Logon")))) := rfl
  exact ⟨hresolve, resolve_reports repeatingSpec hresolve⟩

end Refix.Dict
