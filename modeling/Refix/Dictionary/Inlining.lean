import Refix.Dictionary.Expansion
import Refix.Foundation.Outcome

/-!
# Expanding a Member List

Facts about the two ways a member list expands. Where component names are unique an expansion
is the only one, and what a list mentions can be followed down to the lists that mention
nothing. The members a list stands for carry exactly the tags it expands to, and splicing them
under one more flag is expanding them under it.
-/

namespace Refix.Dict

open Refix.Foundation
open Refix.Message (Tag)

variable {spec : Spec}

/-! ## Expansion into tags -/

section Tags

variable {members : List Member} {tags : List Tag}

/-- Where component names are unique, a list expands in one way. -/
theorem ExpandsTo.det (hnames : (spec.components.map Component.name).Nodup)
    (h : ExpandsTo spec members tags) :
    ∀ {tags' : List Tag}, ExpandsTo spec members tags' → tags = tags' := by
  induction h with
  | nil =>
    intro tags' h'
    cases h'
    rfl
  | field rest ih =>
    intro tags' h'
    cases h' with
    | field rest' => rw [ih rest']
  | component hmem hname definition rest ihd ihr =>
    intro tags' h'
    cases h' with
    | component hmem' hname' definition' rest' =>
      -- both references mean the one component of that name
      have hsame := eq_of_name_eq hnames hmem hmem' (hname.trans hname'.symm)
      subst hsame
      rw [ihd definition', ihr rest']
  | group hinst rest ihi ihr =>
    intro tags' h'
    cases h' with
    | group hinst' rest' => rw [ihi hinst', ihr rest']

theorem ExpandsTo.append {members' : List Member} {tags' : List Tag}
    (h : ExpandsTo spec members tags) (h' : ExpandsTo spec members' tags') :
    ExpandsTo spec (members ++ members') (tags ++ tags') := by
  induction h with
  | nil => exact h'
  | field rest ih => exact .field ih
  | component hmem hname definition rest _ ihr =>
    rw [List.append_assoc]
    exact .component hmem hname definition ihr
  | group hinst rest _ ihr =>
    rw [List.append_assoc]
    exact .group hinst ihr

/-- Expansion only asks which components there are. -/
theorem ExpandsTo.of_components {spec' : Spec} (h : ExpandsTo spec members tags)
    (hsub : ∀ component ∈ spec.components, component ∈ spec'.components) :
    ExpandsTo spec' members tags := by
  induction h with
  | nil => exact .nil
  | field rest ih => exact .field ih
  | component hmem hname definition rest ihd ihr => exact .component (hsub _ hmem) hname ihd ihr
  | group hinst rest ihi ihr => exact .group ihi ihr

/-- A list that expands does not come back to itself: every component it mentions can be
followed down. -/
theorem ExpandsTo.acc (hnames : (spec.components.map Component.name).Nodup)
    (h : ExpandsTo spec members tags) : ∀ name, Mentions members name → Acc spec.Refers name := by
  induction h with
  | nil => simp
  | field rest ih => simpa using ih
  | @component ref component members inner tags hmem hname definition rest ihd ihr =>
    have hacc : Acc spec.Refers ref.name := by
      refine Acc.intro _ fun child ⟨parent, hparent, hparentName, hchild⟩ => ?_
      have hsame := eq_of_name_eq hnames hparent hmem (hparentName.trans hname.symm)
      subst hsame
      exact ihd child hchild
    intro name hmentions
    rcases mentions_component.mp hmentions with rfl | h
    · exact hacc
    · exact ihr name h
  | group hinst rest ihi ihr =>
    intro name hmentions
    rcases mentions_group.mp hmentions with h | h
    · exact ihi name h
    · exact ihr name h

/-- Components that all expand refer to each other without a cycle. -/
theorem acyclic_of_expandsTo (hnames : (spec.components.map Component.name).Nodup)
    (h : ∀ component ∈ spec.components, ∃ tags, ExpandsTo spec component.members tags)
    (name : String) : ¬ Relation.TransGen spec.Refers name name := by
  intro hcycle
  -- the cycle leaves `name` through a component that mentions it
  obtain ⟨parent, ⟨component, hmem, _, hmentions⟩, _⟩ := Relation.TransGen.head'_iff.mp hcycle
  obtain ⟨tags, htags⟩ := h component hmem
  have hacc : Acc (Relation.TransGen spec.Refers) name := (htags.acc hnames name hmentions).transGen
  exact (hacc.recOn (motive := fun x _ => ¬ Relation.TransGen spec.Refers x x)
    fun x _ ih hx => ih x hx hx) hcycle

end Tags

/-! ## Expansion into members -/

section Members

variable {context : MemberContext} {path lead : Bool} {members : List Member}
  {resolved : List (ResolvedMember spec.fields.length)}

/-- What marks a component's group leaves requiredness alone. -/
theorem owned_map_combineRequired {n : ℕ} (component : Component) (required : Bool)
    (resolved : List (ResolvedMember n)) :
    component.owned (resolved.map (.combineRequired required)) =
      (component.owned resolved).map (.combineRequired required) := by
  unfold Component.owned
  rcases component.members with _ | ⟨_ | _ | _, _ | _⟩ <;>
    rcases resolved with _ | ⟨_ | _, _ | _⟩ <;> rfl

/-- The members a list stands for carry the tags it expands to. -/
theorem Inlines.expandsTo (h : Inlines spec context path lead members resolved) :
    ExpandsTo spec members (tagsOf spec.fields resolved) := by
  induction h with
  | nil => exact .nil
  | field hindex hrest ih =>
    rw [tagsOf, memberTagsOf, tag_of_fieldIndex? hindex]
    exact .field ih
  | component hmem hname hinner hrest ihi ihr =>
    rw [tagsOf_append, tagsOf_owned]
    exact .component hmem hname ihi ihr
  | group hcount hinst hrest ihi ihr =>
    rw [tagsOf, memberTagsOf, tag_of_fieldIndex? hcount, tagsOf, memberTagsOf_require]
    exact .group ihi ihr

/-- Where component names are unique, a list stands for one list of members. -/
theorem Inlines.det (hnames : (spec.components.map Component.name).Nodup)
    (h : Inlines spec context path lead members resolved) :
    ∀ {resolved'}, Inlines spec context path lead members resolved' → resolved = resolved' := by
  induction h with
  | nil =>
    intro resolved' h'
    cases h'
    rfl
  | field hindex hrest ih =>
    intro resolved' h'
    cases h' with
    | field hindex' hrest' =>
      rw [hindex] at hindex'
      cases hindex'
      rw [ih hrest']
  | component hmem hname hinner hrest ihi ihr =>
    intro resolved' h'
    cases h' with
    | component hmem' hname' hinner' hrest' =>
      have hsame := eq_of_name_eq hnames hmem hmem' (hname.trans hname'.symm)
      subst hsame
      rw [ihi hinner', ihr hrest']
  | group hcount hinst hrest ihi ihr =>
    intro resolved' h'
    cases h' with
    | group hcount' hinst' hrest' =>
      rw [hcount] at hcount'
      cases hcount'
      cases ihi hinst'
      rw [ihr hrest']

/-- Splicing members under one more flag is expanding them under it. -/
theorem Inlines.combine (h : Inlines spec context path lead members resolved) (required : Bool) :
    Inlines spec context (path && required) lead members
      (resolved.map (.combineRequired required)) := by
  induction h with
  | nil => exact .nil
  | @field context path lead ref members index rest hindex hrest ih =>
    have hflag : (path && ref.isRequired && required) = (path && required && ref.isRequired) := by
      rw [Bool.and_assoc, Bool.and_assoc, Bool.and_comm ref.isRequired]
    rw [List.map_cons, ResolvedMember.combineRequired, hflag]
    exact .field hindex ih
  | @component context path lead ref members component inner rest hmem hname hinner hrest ihi ihr =>
    have hflag : (path && (ref.isRequired || lead) && required) =
        (path && required && (ref.isRequired || lead)) := by
      rw [Bool.and_assoc, Bool.and_assoc, Bool.and_comm (ref.isRequired || lead)]
    rw [List.map_append, ← owned_map_combineRequired]
    rw [hflag] at ihi
    exact .component hmem hname ihi ihr
  | @group context path lead countTag isRequired inst members count first others rest hcount hinst
      hrest ihi ihr =>
    have hflag : (path && isRequired && required) = (path && required && isRequired) := by
      rw [Bool.and_assoc, Bool.and_assoc, Bool.and_comm isRequired]
    rw [List.map_cons, ResolvedMember.combineRequired, hflag]
    exact .group hcount hinst ihr

/-- Inlining, too, only asks which components there are. -/
theorem Inlines.of_components (h : Inlines spec context path lead members resolved)
    (components : List Component)
    (hsub : ∀ component ∈ spec.components, component ∈ components) :
    Inlines { spec with components } context path lead members resolved := by
  induction h with
  | nil => exact .nil
  | field hindex hrest ih => exact .field hindex ih
  | component hmem hname hinner hrest ihi ihr => exact .component (hsub _ hmem) hname ihi ihr
  | group hcount hinst hrest ihi ihr => exact .group hcount ihi ihr

end Members

/-! ## Each tag once -/

section Seen

variable {fields : List Field}

/-- Members one after another: a field, or a group with the members of its instances. -/
theorem resolved_induction {n : ℕ} {motive : List (ResolvedMember n) → Prop} (nil : motive [])
    (field : ∀ index isRequired members, motive members → motive (.field index isRequired :: members))
    (group : ∀ count delimiter isRequired declaredIn component inst members, motive inst →
      motive members →
      motive (.group count delimiter isRequired declaredIn component inst :: members)) :
    ∀ members, motive members
  | [] => nil
  | .field index isRequired :: members =>
    field index isRequired members (resolved_induction nil field group members)
  | .group count delimiter isRequired declaredIn component inst :: members =>
    group count delimiter isRequired declaredIn component inst members
      (resolved_induction nil field group inst) (resolved_induction nil field group members)

/-- An error, where `tags` on top of `seen` hold a tag twice. -/
def Repeated (seen : SeenTags) (tags : List Tag) (failure : Failure) : Prop :=
  (∃ error, failure = .error error) ∧ ¬ (tags.reverse ++ seen.map Prod.fst).Nodup

/-- `tags` are entered into `seen`, which still holds each tag once. -/
def Entered (seen : SeenTags) (tags : List Tag) (seen' : SeenTags) : Prop :=
  seen'.map Prod.fst = tags.reverse ++ seen.map Prod.fst ∧ (seen'.map Prod.fst).Nodup

section Steps

variable {seen seen' seen'' : SeenTags} {tags tags' : List Tag} {failure : Failure}

theorem Repeated.append (h : Repeated seen tags failure) : Repeated seen (tags ++ tags') failure := by
  obtain ⟨herror, hrepeat⟩ := h
  refine ⟨herror, fun hnodup => hrepeat ?_⟩
  rw [List.reverse_append, List.append_assoc] at hnodup
  exact hnodup.of_append_right

theorem Repeated.after (hentered : Entered seen tags seen') (h : Repeated seen' tags' failure) :
    Repeated seen (tags ++ tags') failure := by
  obtain ⟨herror, hrepeat⟩ := h
  rw [hentered.1] at hrepeat
  rw [← List.append_assoc, ← List.reverse_append] at hrepeat
  exact ⟨herror, hrepeat⟩

theorem Entered.trans (h : Entered seen tags seen') (h' : Entered seen' tags' seen'') :
    Entered seen (tags ++ tags') seen'' := by
  refine ⟨?_, h'.2⟩
  rw [h'.1, h.1, List.reverse_append, List.append_assoc]

/-- One step that enters tags, after another. -/
theorem entered_bind {enter : SeenTags → Except Failure SeenTags} {first : Except Failure SeenTags}
    (h : Outcome (Repeated seen tags) (Entered seen tags) first)
    (hnext : ∀ seen', (seen'.map Prod.fst).Nodup →
      Outcome (Repeated seen' tags') (Entered seen' tags') (enter seen')) :
    Outcome (Repeated seen (tags ++ tags')) (Entered seen (tags ++ tags')) (first >>= enter) := by
  refine (h.imp (fun _ => .append) fun _ => id).bind fun seen' _ hentered => ?_
  exact (hnext seen' hentered.2).imp (fun _ => .after hentered) fun _ => hentered.trans

theorem insertTag_outcome (tag : Tag) (context : MemberContext)
    (hseen : (seen.map Prod.fst).Nodup) :
    Outcome (Repeated seen [tag]) (Entered seen [tag]) (insertTag tag context seen) := by
  unfold insertTag
  cases hlookup : seen.lookup tag with
  | some first =>
    have hmem : tag ∈ seen.map Prod.fst := mem_keys_of_lookup hlookup
    exact ⟨⟨_, rfl⟩, fun hnodup => (List.nodup_cons.mp hnodup).1 hmem⟩
  | none =>
    have hfresh : tag ∉ seen.map Prod.fst := lookup_eq_none_iff_keys.mp hlookup
    exact ⟨rfl, List.nodup_cons.mpr ⟨hfresh, hseen⟩⟩

/-- **The tags of a member list are entered where none of them is taken or repeated.** -/
theorem insertUniqueTags_outcome (fields : List Field)
    (members : List (ResolvedMember fields.length)) : ∀ context seen, (seen.map Prod.fst).Nodup →
    Outcome (Repeated seen (tagsOf fields members)) (Entered seen (tagsOf fields members))
      (insertUniqueTags fields context members seen) := by
  induction members using resolved_induction with
  | nil =>
    intro context seen hseen
    exact ⟨rfl, hseen⟩
  | field index isRequired members ih =>
    intro context seen hseen
    rw [insertUniqueTags, insertUniqueTag, tagsOf, memberTagsOf]
    exact entered_bind (insertTag_outcome _ context hseen) fun seen' => ih context seen'
  | group count delimiter isRequired declaredIn component inst members ihi ihm =>
    intro context seen hseen
    rw [insertUniqueTags, insertUniqueTag, tagsOf, memberTagsOf]
    refine entered_bind ?_ fun seen' => ihm context seen'
    have hcount := insertTag_outcome (fields.get count).tag context hseen
    exact entered_bind hcount fun seen' => ihi _ seen'

end Steps

/-- **A member list passes exactly where it holds each tag once.** -/
theorem checkUniqueTags_outcome (fields : List Field) (context : MemberContext)
    (members : List (ResolvedMember fields.length)) :
    Outcome (fun failure => (∃ error, failure = .error error) ∧ ¬ (tagsOf fields members).Nodup)
      (fun _ => (tagsOf fields members).Nodup) (checkUniqueTags fields context members) := by
  have hinsert := insertUniqueTags_outcome fields members context [] List.nodup_nil
  refine (hinsert.imp (fun failure h => ?_) fun _ h => h).bind fun seen _ hentered => ?_
  · exact ⟨h.1, by simpa using h.2⟩
  · have hnodup := hentered.2
    rw [hentered.1] at hnodup
    simpa using hnodup

end Seen

end Refix.Dict
