import Refix.Dictionary.Acceptance

/-!
# The Dictionary and Plain Inlining

The lists of a resolved dictionary are those that plain inlining gives, without a memo, and the
order in which the components are declared does not show in them.
-/

namespace Refix.Dict

open Refix.Message (Tag)

/-! ## The order of the components -/

section Order

variable {spec : Spec} {components : List Component} {members : List Member} {tags : List Tag}

/-- A list expands alike whatever the order of the components. -/
theorem expandsTo_iff_of_perm (hperm : components.Perm spec.components) :
    ExpandsTo { spec with components } members tags ↔ ExpandsTo spec members tags := by
  constructor
  · intro h
    exact h.of_components fun _ => hperm.mem_iff.mp
  · intro h
    exact h.of_components fun _ => hperm.mem_iff.mpr

theorem inlines_iff_of_perm (hperm : components.Perm spec.components) {context : MemberContext}
    {path lead : Bool} {resolved : List (ResolvedMember spec.fields.length)} :
    Inlines { spec with components } context path lead members resolved ↔
      Inlines spec context path lead members resolved := by
  constructor
  · intro h
    exact h.of_components spec.components fun _ => hperm.mem_iff.mp
  · intro h
    exact h.of_components _ fun _ => hperm.mem_iff.mpr

theorem ListOk.of_perm (hperm : components.Perm spec.components) (h : ListOk spec members) :
    ListOk { spec with components } members where
  references :=
    { field := h.references.field
      length := h.references.length
      component := fun ref hmem =>
        let ⟨component, hcomponent, hname⟩ := h.references.component ref hmem
        ⟨component, hperm.mem_iff.mpr hcomponent, hname⟩
      count := h.references.count
      nonempty := fun countTag isRequired inst hmem hempty =>
        h.references.nonempty countTag isRequired inst hmem
          ((expandsTo_iff_of_perm hperm).mp hempty) }
  unique tags htags := h.unique tags ((expandsTo_iff_of_perm hperm).mp htags)

theorem refers_of_perm (hperm : components.Perm spec.components) {child parent : String}
    (h : Spec.Refers { spec with components } child parent) : spec.Refers child parent := by
  obtain ⟨component, hmem, hname, hmentions⟩ := h
  exact ⟨component, hperm.mem_iff.mp hmem, hname, hmentions⟩

theorem isRoot_of_perm (hperm : components.Perm spec.components)
    (h : Spec.IsRoot { spec with components } members) : spec.IsRoot members := by
  cases h with
  | header => exact .header
  | trailer => exact .trailer
  | message h => exact .message h
  | component h => exact .component (hperm.mem_iff.mp h)

/-- Consistency does not depend on the order of the components. -/
theorem Spec.Consistent.of_perm (hperm : components.Perm spec.components) (h : spec.Consistent) :
    Spec.Consistent { spec with components } where
  tags_unique := h.tags_unique
  values_integer := h.values_integer
  codes_unique := h.codes_unique
  msgTypes_unique := h.msgTypes_unique
  lengthTag_ok := h.lengthTag_ok
  lengthTags_unique := h.lengthTags_unique
  components_unique := (hperm.map Component.name).nodup_iff.mpr h.components_unique
  lists_ok root members hroot hnested :=
    (h.lists_ok root members (isRoot_of_perm hperm hroot) hnested).of_perm hperm
  acyclic name hcycle :=
    h.acyclic name (Relation.TransGen.mono (fun _ _ => refers_of_perm hperm) _ _ hcycle)
  messages_unique message hmessage tags htags :=
    h.messages_unique message hmessage tags ((expandsTo_iff_of_perm hperm).mp htags)

end Order

/-! ## The lists of a dictionary -/

/-- The members the messages stand for. -/
def InlinesMessages (spec : Spec) :
    List Message → List (List (ResolvedMember spec.fields.length)) → Prop :=
  List.Forall₂ fun message members =>
    Inlines spec (.message message.name) true false message.members members

theorem InlinesMessages.det {spec : Spec} (hnames : (spec.components.map Component.name).Nodup)
    {messages : List Message} {resolved resolved' : List (List (ResolvedMember spec.fields.length))}
    (h : InlinesMessages spec messages resolved) (h' : InlinesMessages spec messages resolved') :
    resolved = resolved' := by
  induction h generalizing resolved' with
  | nil =>
    cases h'
    rfl
  | cons hfirst _ ih =>
    cases h' with
    | cons hfirst' hrest' => rw [hfirst.det hnames hfirst', ih hrest']

/-- **The lists of a dictionary are the inlined ones**, and no others are; with the components
declared in another order they are the same. -/
theorem resolve_inlines {spec : Spec} {dictionary : Dictionary}
    (h : spec.resolve = .ok dictionary) :
    ∃ header messages trailer, dictionary = { spec, header, messages, trailer } ∧
      (∀ members, Inlines spec .header true false spec.header members ↔ members = header) ∧
      (∀ resolved, InlinesMessages spec spec.messages resolved ↔ resolved = messages) ∧
      (∀ members, Inlines spec .trailer true false spec.trailer members ↔ members = trailer) ∧
      ∀ components : List Component, components.Perm spec.components →
        Spec.resolve { spec with components } =
          .ok { spec := { spec with components }, header, messages, trailer } := by
  obtain ⟨hconsistent, hresolves⟩ := (resolve_outcome spec).of_eq_ok h
  have hnames := hconsistent.components_unique
  cases hresolves with
  | @mk header trailer messages hheader hmessages htrailer =>
    refine ⟨header, messages, trailer, rfl, fun members => ?_, fun resolved => ?_,
      fun members => ?_, fun components hperm => ?_⟩
    · constructor
      · exact fun hmembers => hmembers.det hnames hheader
      · rintro rfl
        exact hheader
    · constructor
      · exact fun hresolved => InlinesMessages.det hnames hresolved hmessages
      · rintro rfl
        exact hmessages
    · constructor
      · exact fun hmembers => hmembers.det hnames htrailer
      · rintro rfl
        exact htrailer
    · -- the reordered spec resolves too, to lists that inlining gives in either order
      have hreordered := hconsistent.of_perm hperm
      obtain ⟨dictionary', h'⟩ := (resolve_accepts _).1.mpr hreordered
      have hresolves' := ((resolve_outcome _).of_eq_ok h').2
      rw [h']
      cases hresolves' with
      | mk hheader' hmessages' htrailer' =>
        have hsameHeader := ((inlines_iff_of_perm hperm).mp hheader').det hnames hheader
        have hsameTrailer := ((inlines_iff_of_perm hperm).mp htrailer').det hnames htrailer
        have hsameMessages := InlinesMessages.det hnames
          (hmessages'.imp fun _ _ => (inlines_iff_of_perm hperm).mp) hmessages
        rw [hsameHeader, hsameTrailer, hsameMessages]

/-- Optional parties, the instances of whose group open with a component without members. -/
def partiesSpec : Spec where
  version := { protocol := .fix, major := 4, minor := 4, servicePack := 0 }
  header := [.field { tag := 8, isRequired := true }]
  messages :=
    [{ name := "Parties", msgType := "P", category := .app
       members := [.component { name := "Parties", isRequired := false }] }]
  trailer := [.field { tag := 10, isRequired := true }]
  fields :=
    [{ name := "BeginString", tag := 8, dataType := .string, lengthTag := none, values := [] },
     { name := "CheckSum", tag := 10, dataType := .string, lengthTag := none, values := [] },
     { name := "NoPartyIDs", tag := 453, dataType := .numInGroup, lengthTag := none, values := [] },
     { name := "PartyID", tag := 448, dataType := .string, lengthTag := none, values := [] },
     { name := "PartyRole", tag := 452, dataType := .int, lengthTag := none, values := [] }]
  components :=
    [{ name := "Parties"
       members := [.group 453 true [.component { name := "Empty", isRequired := false },
         .component { name := "Party", isRequired := false }]] },
     { name := "Empty", members := [] },
     { name := "Party", members := [.field { tag := 448, isRequired := true },
         .field { tag := 452, isRequired := true }] }]

/-- The group is optional and the component's own, and only its delimiter is required in an
instance. -/
def partiesDictionary : Dictionary where
  spec := partiesSpec
  header := [.field ⟨0, by decide⟩ true]
  messages :=
    [[.group ⟨2, by decide⟩ ⟨3, by decide⟩ false (.component "Parties") (some "Parties")
      [.field ⟨3, by decide⟩ true, .field ⟨4, by decide⟩ false]]]
  trailer := [.field ⟨1, by decide⟩ true]

theorem resolve_inlines_parties :
    ∃ header messages trailer,
      partiesDictionary = { spec := partiesSpec, header, messages, trailer } ∧
      (∀ members, Inlines partiesSpec .header true false partiesSpec.header members ↔
        members = header) ∧
      (∀ resolved, InlinesMessages partiesSpec partiesSpec.messages resolved ↔
        resolved = messages) ∧
      (∀ members, Inlines partiesSpec .trailer true false partiesSpec.trailer members ↔
        members = trailer) ∧
      ∀ components : List Component, components.Perm partiesSpec.components →
        Spec.resolve { partiesSpec with components } =
          .ok { spec := { partiesSpec with components }, header, messages, trailer } := by
  have hresolve : partiesSpec.resolve = .ok partiesDictionary := rfl
  exact resolve_inlines hresolve

end Refix.Dict
