import Refix.Codegen.Namespace
import Refix.Codegen.Visit

/-!
# What Is Emitted for Groups

The generated code's tables and tag lists, as the arguments that the generators write for the
constructors of the runtime. A group declared in a component gets a module of its own at the
top, one declared in a message or section a module there, and one declared in another group's
instance none: its table is written out where it is nested.

The Rust and the Python generators emit the same modules. They differ in the order of the
shared ones: a Python class stands after the classes its table names.
-/

namespace Refix.Codegen

open Refix.Dict
open Refix.Message (Tag)

/-! ## Shared groups -/

/-- Whether the group is declared in a component. -/
def inComponent {n : ℕ} (group : Group n) : Bool :=
  match group.declaredIn with
  | .component _ => true
  | _ => false

/-- Whether the group is declared in a message. -/
def inMessage {n : ℕ} (group : Group n) : Bool :=
  match group.declaredIn with
  | .message _ => true
  | _ => false

/-- The groups a message declares itself. -/
def ownGroups {n : ℕ} (members : List (ResolvedMember n)) : List (Group n) :=
  (groupsOf members).filter inMessage

/-- The groups a section declares itself. -/
def sectionGroups (dictionary : Dictionary) (part : Section) :
    List (Group dictionary.spec.fields.length) :=
  (groupsOf (part.members dictionary)).filter (·.declaredIn = part.context)

/-- Adds a group that is declared in a component. A group declared directly in another group's
instance gets no module and is reported instead. -/
def collectGroup (fields : List Field) (group : Group fields.length) :
    List (Group fields.length) × List Warning → List (Group fields.length) × List Warning
  | (groups, warnings) =>
    match group.declaredIn with
    | .component _ => (groups ++ [group], warnings)
    | .message _ | .header | .trailer => (groups, warnings)
    | .group _ _ =>
      (groups, warnings ++ [.unsupportedGroup (group.instanceContext fields)])

/-- The groups declared in components, each once, in order of first appearance across the
header, messages and trailer. -/
def Rust.sharedGroups (dictionary : Dictionary) (warnings : List Warning) :
    List (Group dictionary.spec.fields.length) × List Warning :=
  visitDictionary dictionary (collectGroup dictionary.spec.fields) (fun _ state => state)
    ([], warnings)

/-- The groups declared in components, each once, innermost first, from the header, messages
and trailer. -/
def Python.sharedGroups (dictionary : Dictionary) (warnings : List Warning) :
    List (Group dictionary.spec.fields.length) × List Warning :=
  visitDictionary dictionary (fun _ state => state) (collectGroup dictionary.spec.fields)
    ([], warnings)

/-- The warning about a group that gets no types of its own. -/
def unsupported (fields : List Field) (group : Group fields.length) : Warning :=
  .unsupportedGroup (group.instanceContext fields)

theorem collectGroup_eq {fields : List Field} (group : Group fields.length)
    (state : List (Group fields.length) × List Warning) :
    collectGroup fields group state = (state.1 ++ [group].filter inComponent,
      state.2 ++ ([group].filter (!isGenerated ·)).map (unsupported fields)) := by
  unfold collectGroup
  cases h : group.declaredIn <;> simp [inComponent, isGenerated, unsupported, h]

section Shared

variable {fields : List Field}

/-- Two visits that keep a relation. They skip alike. -/
theorem visitGroups_related {σ τ : Type} {enter leave : Group fields.length → σ → σ}
    {enter' leave' : Group fields.length → τ → τ} (related : σ → τ → Prop)
    (henter : ∀ group s t, related s t → related (enter group s) (enter' group t))
    (hleave : ∀ group s t, related s t → related (leave group s) (leave' group t))
    (members : List (ResolvedMember fields.length)) : ∀ s t seen, related s t →
    related (visitGroups fields enter leave members (s, seen)).1
        (visitGroups fields enter' leave' members (t, seen)).1 ∧
      (visitGroups fields enter leave members (s, seen)).2 =
        (visitGroups fields enter' leave' members (t, seen)).2 := by
  induction members using members_of_groups_induction with
  | nil => exact fun s t seen h => ⟨h, rfl⟩
  | field index isRequired members ih => exact fun s t seen h => ih s t seen h
  | group group members ihi ihm =>
    intro s t seen h
    rw [visitGroups_group, visitGroups_group]
    split
    · exact ihm s t seen h
    · obtain ⟨hinner, hseen⟩ := ihi (enter group s) (enter' group t)
        (group.instanceContext fields :: seen) (henter group s t h)
      simp only [hseen]
      exact ihm _ _ _ (hleave group _ _ hinner)

/-- Entering groups as they appear, or leaving them, collects the same ones. -/
theorem visitGroups_perm (members : List (ResolvedMember fields.length)) :
    ∀ (declared left : List (Group fields.length)) (seen : List MemberContext),
    ∃ added added', (visitGroups fields (fun group groups => groups ++ [group])
        (fun _ groups => groups) members (declared, seen)).1 = declared ++ added ∧
      (visitGroups fields (fun _ groups => groups) (fun group groups => groups ++ [group]) members
        (left, seen)).1 = left ++ added' ∧ added'.Perm added ∧
      (visitGroups fields (fun group groups => groups ++ [group]) (fun _ groups => groups) members
        (declared, seen)).2 =
        (visitGroups fields (fun _ groups => groups) (fun group groups => groups ++ [group])
          members (left, seen)).2 := by
  induction members using members_of_groups_induction with
  | nil =>
    intro declared left seen
    exact ⟨[], [], (List.append_nil _).symm, (List.append_nil _).symm, .refl _, rfl⟩
  | field index isRequired members ih => exact fun declared left seen => ih declared left seen
  | group group members ihi ihm =>
    intro declared left seen
    rw [visitGroups_group, visitGroups_group]
    split
    · exact ihm declared left seen
    · obtain ⟨inner, inner', hinner, hinner', hperm, hseen⟩ := ihi (declared ++ [group]) left
        (group.instanceContext fields :: seen)
      simp only [hinner, hinner', hseen]
      obtain ⟨rest, rest', hrest, hrest', hpermRest, hseenRest⟩ := ihm
        (declared ++ [group] ++ inner) (left ++ inner' ++ [group])
        (visitGroups fields (fun _ groups => groups) (fun group groups => groups ++ [group])
          group.members (left, group.instanceContext fields :: seen)).2
      refine ⟨group :: inner ++ rest, inner' ++ [group] ++ rest', ?_, ?_, ?_, hseenRest⟩
      · rw [hrest]
        simp
      · rw [hrest']
        simp
      · -- the group comes before its own members, or after them
        have hswap : (inner' ++ [group]).Perm ([group] ++ inner') := List.perm_append_comm
        exact (hswap.trans (hperm.append_left _)).append hpermRest

/-- Visits that skip alike and keep a relation do so list after list. -/
theorem foldl_related {σ τ : Type} (related : σ → τ → Prop)
    {visit : List (ResolvedMember fields.length) → σ × List MemberContext →
      σ × List MemberContext}
    {visit' : List (ResolvedMember fields.length) → τ × List MemberContext →
      τ × List MemberContext}
    (hvisit : ∀ members s t seen, related s t →
      related (visit members (s, seen)).1 (visit' members (t, seen)).1 ∧
        (visit members (s, seen)).2 = (visit' members (t, seen)).2)
    (lists : List (List (ResolvedMember fields.length))) : ∀ s t seen, related s t →
    related (lists.foldl (fun state members => visit members state) (s, seen)).1
      (lists.foldl (fun state members => visit' members state) (t, seen)).1 := by
  induction lists with
  | nil => exact fun s t seen h => h
  | cons members lists ih =>
    intro s t seen h
    obtain ⟨hrelated, hseen⟩ := hvisit members s t seen h
    have hstate' : visit' members (t, seen) =
        ((visit' members (t, seen)).1, (visit members (s, seen)).2) := by rw [hseen]
    rw [List.foldl_cons, List.foldl_cons, hstate']
    exact ih _ _ _ hrelated

end Shared

section Dictionary

variable (dictionary : Dictionary) (warnings : List Warning)

/-- Every group declaration the header, messages and trailer reach, each once, behind the groups
nested in it. -/
def leftGroups : List (Group dictionary.spec.fields.length) :=
  visitDictionary dictionary (fun _ groups => groups) (fun group groups => groups ++ [group]) []

/-- The shared groups are the declared ones that components declare. -/
theorem Rust.sharedGroups_eq :
    (Rust.sharedGroups dictionary warnings).1 = (declaredGroups dictionary).filter inComponent := by
  unfold Rust.sharedGroups declaredGroups
  rw [visitDictionary_eq, visitDictionary_eq]
  refine foldl_related (fun (state : List (Group dictionary.spec.fields.length) × List Warning)
    declared => state.1 = declared.filter inComponent)
    (fun members state declared seen h => ?_) (roots dictionary) ([], warnings) [] [] rfl
  refine visitGroups_related (fun state declared => state.1 = declared.filter inComponent)
    (fun group state declared h => ?_) (fun _ _ _ h => h) members state declared seen h
  rw [collectGroup_eq, h, List.filter_append]

/-- The shared groups are those among the groups as they are left, and the others that are declared
in instances are reported. -/
theorem Python.sharedGroups_eq :
    Python.sharedGroups dictionary warnings = ((leftGroups dictionary).filter inComponent,
      warnings ++ ((leftGroups dictionary).filter (!isGenerated ·)).map
        (unsupported dictionary.spec.fields)) := by
  unfold Python.sharedGroups leftGroups
  rw [visitDictionary_eq, visitDictionary_eq]
  let related (state : List (Group dictionary.spec.fields.length) × List Warning)
      (left : List (Group dictionary.spec.fields.length)) : Prop :=
    state = (left.filter inComponent,
      warnings ++ (left.filter (!isGenerated ·)).map (unsupported dictionary.spec.fields))
  refine foldl_related related (fun members state left seen h => ?_) (roots dictionary)
    ([], warnings) [] [] (by simp [related])
  refine visitGroups_related related (fun _ _ _ h => h) (fun group state left h => ?_) members
    state left seen h
  simp only [related] at h ⊢
  rw [collectGroup_eq, h]
  simp only [List.filter_append, List.map_append, List.append_assoc]

/-- The groups as they are left are the declared ones in another order. -/
theorem leftGroups_perm : (leftGroups dictionary).Perm (declaredGroups dictionary) := by
  unfold leftGroups declaredGroups
  rw [visitDictionary_eq, visitDictionary_eq]
  refine foldl_related (fun (left declared : List (Group dictionary.spec.fields.length)) =>
    left.Perm declared) (fun members left declared seen h => ?_) (roots dictionary) [] [] []
    (List.Perm.refl _)
  obtain ⟨added, added', hdeclared, hleft, hperm, hseen⟩ :=
    visitGroups_perm members declared left seen
  rw [hdeclared, hleft]
  exact ⟨h.append hperm, hseen.symm⟩

theorem Python.sharedGroups_perm :
    (Python.sharedGroups dictionary warnings).1.Perm
      ((declaredGroups dictionary).filter inComponent) := by
  rw [Python.sharedGroups_eq]
  exact (leftGroups_perm dictionary).filter inComponent

end Dictionary

section Shared

variable {dictionary : Dictionary}

/-- What is shared: groups that components declare. -/
def SharedOk (dictionary : Dictionary) (shared : List (Group dictionary.spec.fields.length)) :
    Prop :=
  ∀ group ∈ shared, dictionary.Reaches group ∧ inComponent group = true

theorem Rust.sharedGroups_ok (hd : dictionary.Resolved) :
    SharedOk dictionary (Rust.sharedGroups dictionary []).1 := by
  intro group hgroup
  rw [Rust.sharedGroups_eq] at hgroup
  obtain ⟨hmem, hcomponent⟩ := List.mem_filter.mp hgroup
  exact ⟨(declaredGroups_reaches hd).1 group hmem, hcomponent⟩

theorem Python.sharedGroups_ok (hd : dictionary.Resolved) :
    SharedOk dictionary (Python.sharedGroups dictionary []).1 := by
  intro group hgroup
  rw [(Python.sharedGroups_perm dictionary []).mem_iff] at hgroup
  obtain ⟨hmem, hcomponent⟩ := List.mem_filter.mp hgroup
  exact ⟨(declaredGroups_reaches hd).1 group hmem, hcomponent⟩

end Shared

/-! ## Where groups are declared -/

section Declared

variable {dictionary : Dictionary}

/-- The fields of a dictionary are known by their tags. -/
theorem field_eq_of_tag_eq (hd : dictionary.Resolved)
    {index index' : Fin dictionary.spec.fields.length}
    (h : (dictionary.spec.fields.get index).tag = (dictionary.spec.fields.get index').tag) :
    dictionary.spec.fields.get index = dictionary.spec.fields.get index' :=
  List.inj_on_of_nodup_map hd.consistent.tags_unique (List.getElem_mem _) (List.getElem_mem _) h

/-- A section's members, and the context they are in. -/
theorem hasList_section (dictionary : Dictionary) (part : Section) :
    dictionary.HasList part.context (part.members dictionary) := by
  cases part with
  | header => exact .header
  | trailer => exact .trailer

/-- A group in a top-level list is declared in that list or in a component. -/
theorem declaredIn_of_hasList (hd : dictionary.Resolved) {context : MemberContext}
    {members : List (ResolvedMember dictionary.spec.fields.length)}
    (hlist : dictionary.HasList context members)
    {group : Group dictionary.spec.fields.length} (hmem : group.member ∈ members) :
    group.declaredIn = context ∨ inComponent group = true := by
  obtain ⟨source, hinlines, _⟩ := hlist.inlines hd
  rcases hinlines.declared_or_spliced hmem with hcontext | ⟨component, _, hdeclared, _⟩
  · exact Or.inl hcontext
  · right
    simp [inComponent, hdeclared]

theorem isGenerated_of_inComponent {n : ℕ} {group : Group n} (h : inComponent group = true) :
    isGenerated group = true := by
  unfold inComponent at h
  unfold isGenerated
  split at h
  · next hdeclared => rw [hdeclared]
  · cases h

/-- A group in a top-level list gets types of its own. -/
theorem isGenerated_of_hasList (hd : dictionary.Resolved) {context : MemberContext}
    {members : List (ResolvedMember dictionary.spec.fields.length)}
    (hlist : dictionary.HasList context members)
    {group : Group dictionary.spec.fields.length} (hmem : group.member ∈ members) :
    isGenerated group = true := by
  rcases declaredIn_of_hasList hd hlist hmem with hcontext | hcomponent
  · unfold isGenerated
    rw [hcontext]
    cases hlist <;> rfl
  · exact isGenerated_of_inComponent hcomponent

/-- **Where a generated group's own place is**: among the shared groups, a section's or a
message's. -/
inductive Placed (dictionary : Dictionary) (group : Group dictionary.spec.fields.length) : Prop where
  | shared (h : inComponent group = true)
  | part (part : Section) {own : Group dictionary.spec.fields.length}
      (hcontext : group.declaredIn = part.context) (h : own ∈ sectionGroups dictionary part)
      (hsame : group.Same own)
  | message {message : Message} {members : List (ResolvedMember dictionary.spec.fields.length)}
      {own : Group dictionary.spec.fields.length}
      (hentry : (message, members) ∈ dictionary.messageMembers)
      (hcontext : group.declaredIn = .message message.name) (h : own ∈ ownGroups members)
      (hsame : group.Same own)

theorem placed_of_reaches (hd : dictionary.Resolved)
    {group : Group dictionary.spec.fields.length} (h : dictionary.Reaches group)
    (hgenerated : isGenerated group = true) : Placed dictionary group := by
  obtain ⟨⟨declared, own, hdeclares, hown, hsame⟩, _⟩ := h.declared hd
  generalize hcontext : group.declaredIn = context at hdeclares
  have hcontext' : own.declaredIn = context := hsame.declaredIn_eq ▸ hcontext
  cases hdeclares with
  | list hlist =>
    have hgroups := mem_groupsOf.mpr hown
    cases hlist with
    | header =>
      exact .part .header hcontext (List.mem_filter.mpr ⟨hgroups, by simp [hcontext']; rfl⟩) hsame
    | trailer =>
      exact .part .trailer hcontext (List.mem_filter.mpr ⟨hgroups, by simp [hcontext']; rfl⟩) hsame
    | message hentry =>
      refine .message hentry hcontext (List.mem_filter.mpr ⟨hgroups, ?_⟩) hsame
      rw [inMessage, hcontext']
  | component hmem hinner =>
    apply Placed.shared
    rw [inComponent, hcontext]
  | group _ _ =>
    rw [isGenerated, hcontext] at hgenerated
    cases hgenerated

end Declared

end Refix.Codegen
