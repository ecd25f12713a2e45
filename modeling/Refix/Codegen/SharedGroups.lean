import Refix.Codegen.Output

/-!
# Groups Before Their Use

A Python class is defined after the classes that its table names. The shared groups are
collected as a visit leaves them, so that each stands behind the groups nested in it, where
groups with one context are alike. A context names a message by its name, and resolving lets two
messages have one: of their groups only the first ones are visited then.
-/

namespace Refix.Codegen

open Refix.Dict
open Refix.Message (Tag)

/-! ## What a table names -/

/-- A group whose own table is named in a table, or in one that is written out in it. -/
inductive TableExpr.Names {n : ℕ} : TableExpr n → Group n → Prop where
  | path {group : Group n} : Names (.path group) group
  | nested {countTag delimiter : Tag} {members : List Tag} {nested : List (TableExpr n)}
      {table : TableExpr n} {group : Group n} (hmem : table ∈ nested) (h : Names table group) :
      Names (.new countTag delimiter members nested) group

section Names

variable {fields : List Field}

/-- The nested tables of a list name groups within it. -/
theorem within_of_names_nestedTables (members : List (ResolvedMember fields.length)) :
    ∀ table ∈ nestedTables fields members, ∀ named : Group fields.length, table.Names named →
      Within members named := by
  induction members using members_of_groups_induction with
  | nil =>
    intro table htable
    rw [nestedTables] at htable
    cases htable
  | field index isRequired members ih =>
    rw [nestedTables, tableReference, List.nil_append]
    exact fun table htable named hnamed => within_cons (ih table htable named hnamed)
  | group group members ihi ihm =>
    rw [nestedTables_group]
    refine List.forall_mem_cons.mpr ⟨fun named hnamed => ?_, fun table htable named hnamed =>
      within_cons (ihm table htable named hnamed)⟩
    split at hnamed
    · -- the path of the group itself
      cases hnamed with
      | path => exact .here List.mem_cons_self
    · -- the table written out in its place
      cases hnamed with
      | nested hmem hnamed => exact .deeper List.mem_cons_self (ihi _ hmem named hnamed)

/-- A group's table names groups within the group. -/
theorem within_of_names_emitTable {group named : Group fields.length}
    (h : (emitTable fields group).Names named) : Within group.members named := by
  cases h with
  | nested hmem hnamed => exact within_of_names_nestedTables group.members _ hmem named hnamed

end Names

/-! ## The order in which groups are left -/

section Order

variable {fields : List Field}

/-- Every group stands behind those nested in it. -/
def Innermost (fields : List Field) (groups : List (Group fields.length)) : Prop :=
  ∀ before own after, groups = before ++ own :: after → ∀ inner, Within own.members inner →
    inner.instanceContext fields ∈ before.map (·.instanceContext fields)

theorem Innermost.append {groups : List (Group fields.length)} {group : Group fields.length}
    (h : Innermost fields groups)
    (hgroup : ∀ inner, Within group.members inner →
      inner.instanceContext fields ∈ groups.map (·.instanceContext fields)) :
    Innermost fields (groups ++ [group]) := by
  intro before own after heq inner hinner
  -- the group at the split is the last one, or one of those before it
  rcases List.eq_nil_or_concat after with rfl | ⟨rest, last, rfl⟩
  · obtain ⟨rfl, hown⟩ := List.append_inj' heq rfl
    obtain rfl := List.singleton_inj.mp hown
    exact hgroup inner hinner
  · have hsplit : groups ++ [group] = (before ++ own :: rest) ++ [last] := by
      rw [heq]
      simp
    obtain ⟨hgroups, -⟩ := List.append_inj' hsplit rfl
    exact h before own rest hgroups inner hinner

/-- Groups are left behind those nested in them, whatever a visit skips. -/
theorem leavesDone_innermost {good : Group fields.length → Prop}
    (hsame : ∀ group group', good group → good group' →
      group.instanceContext fields = group'.instanceContext fields →
      group.members = group'.members) :
    LeavesDone fields (fun _ groups => groups) (fun group groups => groups ++ [group]) good
      (fun groups _ => Seen fields (groups.map (·.instanceContext fields)))
      fun groups _ => Innermost fields groups where
  same := hsame
  done_congr := fun _ _ group group' hgroup hgroup' heq h =>
    ⟨heq ▸ h.1, hsame group group' hgroup hgroup' heq ▸ h.2⟩
  done_within := fun _ _ _ _ h hinner =>
    ⟨h.2 _ hinner, fun other hother => h.2 other (within_trans hinner hother)⟩
  done_enter := fun _ _ _ _ h => h
  done_leave := fun group groups _ _ h => by
    rw [List.map_append]
    exact h.mono (List.subset_append_left _ _)
  settle := fun group groups _ _ _ h => by
    rw [List.map_append]
    exact ⟨List.mem_append_right _ List.mem_cons_self,
      fun inner hinner => List.mem_append_left _ (h inner hinner).1⟩
  keeps_enter := fun _ _ _ _ h _ => h
  keeps_leave := fun _ _ _ _ h hinner => h.append fun inner hmem => (hinner inner hmem).1

end Order

/-! ## Python's shared groups -/

section Dictionary

variable {dictionary : Dictionary}

/-- Groups with one context have the same members, where neither messages nor fields share
names. -/
theorem members_eq_of_instanceContext_eq (hd : dictionary.Resolved)
    (hmessages : (dictionary.spec.messages.map Message.name).Nodup)
    (hfields : (dictionary.spec.fields.map Field.name).Nodup)
    (group group' : Group dictionary.spec.fields.length) (h : dictionary.Reaches group)
    (h' : dictionary.Reaches group')
    (hcontext : group.instanceContext dictionary.spec.fields =
      group'.instanceContext dictionary.spec.fields) : group.members = group'.members :=
  (h.same hd hmessages hfields h' hcontext).members_eq

theorem leftGroups_innermost (hd : dictionary.Resolved)
    (hmessages : (dictionary.spec.messages.map Message.name).Nodup)
    (hfields : (dictionary.spec.fields.map Field.name).Nodup) :
    Innermost dictionary.spec.fields (leftGroups dictionary) := by
  unfold leftGroups
  rw [visitDictionary_eq]
  refine (visitDictionary_leaves_done _ _ hd
    (leavesDone_innermost (members_eq_of_instanceContext_eq hd hmessages hfields))
    (roots dictionary) (List.Subset.refl _) ([], []) ?_ ?_).1
  · intro before own after heq
    exact absurd heq (by simp)
  · exact fun group _ hseen => absurd hseen List.not_mem_nil

/-- The groups that are left are those that are reached, each context once. -/
theorem leftGroups_reaches (hd : dictionary.Resolved) :
    (∀ group ∈ leftGroups dictionary, dictionary.Reaches group) ∧
      ((leftGroups dictionary).map (·.instanceContext dictionary.spec.fields)).Nodup := by
  obtain ⟨hreaches, hnodup⟩ := declaredGroups_reaches hd
  have hperm := leftGroups_perm dictionary
  exact ⟨fun group hgroup => hreaches group (hperm.mem_iff.mp hgroup),
    (hperm.map _).nodup_iff.mpr hnodup⟩

theorem exists_leftGroup (hd : dictionary.Resolved)
    (hmessages : (dictionary.spec.messages.map Message.name).Nodup)
    (hfields : (dictionary.spec.fields.map Field.name).Nodup)
    {group : Group dictionary.spec.fields.length} (h : dictionary.Reaches group) :
    ∃ own ∈ leftGroups dictionary, group.Same own := by
  obtain ⟨own, hown, hsame⟩ := exists_declaredGroup hd hmessages hfields h
  exact ⟨own, (leftGroups_perm dictionary).mem_iff.mpr hown, hsame⟩

/-- **What the shared groups of Python have to be**, with the contexts of the groups that are
reported. -/
structure Python.DefinedBeforeUse (dictionary : Dictionary)
    (shared : List (Group dictionary.spec.fields.length)) (reported : List MemberContext) :
    Prop where
  /-- Nothing else is shared. -/
  component : ∀ group ∈ shared, dictionary.Reaches group ∧ inComponent group = true
  complete : ∀ group, dictionary.Reaches group → inComponent group = true →
    ∃ own ∈ shared, own.instanceContext dictionary.spec.fields =
      group.instanceContext dictionary.spec.fields
  once : (shared.map (·.instanceContext dictionary.spec.fields)).Nodup
  ordered : ∀ before own after, shared = before ++ own :: after →
    ∀ named, (emitTable dictionary.spec.fields own).Names named → inComponent named = true →
      ∃ group ∈ before, group.instanceContext dictionary.spec.fields =
        named.instanceContext dictionary.spec.fields
  reported_once : reported.Nodup
  reported_iff : ∀ context, context ∈ reported ↔
    ∃ group, dictionary.Reaches group ∧ isGenerated group = false ∧
      group.instanceContext dictionary.spec.fields = context

/-- A group that is selected from those before another one stands before it among the selected
ones. -/
theorem exists_before_of_filter {n : ℕ} {p : Group n → Bool}
    {groups before after : List (Group n)} {own : Group n}
    (h : groups.filter p = before ++ own :: after) :
    ∃ before' after', groups = before' ++ own :: after' ∧ before = before'.filter p := by
  obtain ⟨front, back, rfl, hfront, hback⟩ := List.filter_eq_append_iff.mp h
  obtain ⟨skipped, rest, rfl, hskipped, -, -⟩ := List.filter_eq_cons_iff.mp hback
  refine ⟨front ++ skipped, rest, by simp, ?_⟩
  rw [List.filter_append, hfront, List.filter_eq_nil_iff.mpr hskipped, List.append_nil]

theorem Python.definedBeforeUse (hd : dictionary.Resolved)
    (hmessages : (dictionary.spec.messages.map Message.name).Nodup)
    (hfields : (dictionary.spec.fields.map Field.name).Nodup) :
    Python.DefinedBeforeUse dictionary ((leftGroups dictionary).filter inComponent)
      (((leftGroups dictionary).filter (!isGenerated ·)).map
        (·.instanceContext dictionary.spec.fields)) := by
  obtain ⟨hreaches, hnodup⟩ := leftGroups_reaches hd
  have hselected : ∀ p : Group dictionary.spec.fields.length → Bool,
      (((leftGroups dictionary).filter p).map
        (·.instanceContext dictionary.spec.fields)).Nodup :=
    fun p => hnodup.sublist (List.filter_sublist.map _)
  refine ⟨?_, ?_, hselected _, ?_, hselected _, ?_⟩
  · intro group hgroup
    obtain ⟨hmem, hcomponent⟩ := List.mem_filter.mp hgroup
    exact ⟨hreaches group hmem, hcomponent⟩
  · intro group hgroup hcomponent
    obtain ⟨own, hown, hsame⟩ := exists_leftGroup hd hmessages hfields hgroup
    refine ⟨own, List.mem_filter.mpr ⟨hown, ?_⟩, hsame.instanceContext_eq.symm⟩
    rwa [inComponent, ← hsame.declaredIn_eq]
  · intro before own after hsplit named hnamed hcomponent
    obtain ⟨before', after', hleft, rfl⟩ := exists_before_of_filter hsplit
    have hbefore := leftGroups_innermost hd hmessages hfields before' own after' hleft named
      (within_of_names_emitTable hnamed)
    obtain ⟨group, hgroup, hcontext⟩ := List.mem_map.mp hbefore
    refine ⟨group, List.mem_filter.mpr ⟨hgroup, ?_⟩, hcontext⟩
    -- the two are declared in the same place
    injection hcontext with _ hdeclared
    rwa [inComponent, hdeclared]
  · intro context
    constructor
    · intro hcontext
      obtain ⟨group, hgroup, rfl⟩ := List.mem_map.mp hcontext
      obtain ⟨hmem, hgenerated⟩ := List.mem_filter.mp hgroup
      exact ⟨group, hreaches group hmem, by simpa using hgenerated, rfl⟩
    · rintro ⟨group, hgroup, hgenerated, rfl⟩
      obtain ⟨own, hown, hsame⟩ := exists_leftGroup hd hmessages hfields hgroup
      refine List.mem_map.mpr ⟨own, List.mem_filter.mpr ⟨hown, ?_⟩,
        hsame.instanceContext_eq.symm⟩
      have hown' : isGenerated own = isGenerated group := by
        rw [isGenerated, isGenerated, hsame.declaredIn_eq]
      rw [hown', hgenerated]
      rfl

/-- **Python's shared groups are defined before they are used**: the groups that components
declare, each once and behind those its table names, with one warning for each group that is
declared in another one's instance. Messages with one name do not get this far, as naming, which
comes first, refuses them. -/
theorem Python.sharedGroups_defined_before_use {spec : Spec} {dictionary : Dictionary}
    (hresolve : spec.resolve = .ok dictionary)
    (hfields : (dictionary.spec.fields.map Field.name).Nodup)
    (hmessages : (dictionary.spec.messages.map Message.name).Nodup) (warnings : List Warning) :
    ∃ reported, (Python.sharedGroups dictionary warnings).2 =
        warnings ++ reported.map .unsupportedGroup ∧
      Python.DefinedBeforeUse dictionary (Python.sharedGroups dictionary warnings).1 reported := by
  obtain ⟨rfl, hd⟩ := resolved_of_resolve hresolve
  rw [Python.sharedGroups_eq]
  refine ⟨_, ?_, Python.definedBeforeUse hd hmessages hfields⟩
  rw [List.map_map]
  rfl

/-- Two messages with a group of one name, whose instances hold groups of different components. The
second message is called `name`. -/
def listsSpec (name : String) : Spec where
  version := { protocol := .fix, major := 4, minor := 4, servicePack := 0 }
  header := []
  messages :=
    [{ name := "NewOrderList", msgType := "E", category := .app
       members := [.group 73 false [.field { tag := 11, isRequired := true },
         .component { name := "Parties", isRequired := false }]] },
     { name, msgType := "UE", category := .app
       members := [.group 73 false [.field { tag := 11, isRequired := true },
         .component { name := "Allocs", isRequired := false }]] }]
  trailer := []
  fields :=
    [{ name := "NoOrders", tag := 73, dataType := .numInGroup, lengthTag := none, values := [] },
     { name := "ClOrdID", tag := 11, dataType := .string, lengthTag := none, values := [] },
     { name := "NoPartyIDs", tag := 453, dataType := .numInGroup, lengthTag := none, values := [] },
     { name := "PartyID", tag := 448, dataType := .string, lengthTag := none, values := [] },
     { name := "NoAllocs", tag := 78, dataType := .numInGroup, lengthTag := none, values := [] },
     { name := "AllocAccount", tag := 79, dataType := .string, lengthTag := none, values := [] }]
  components :=
    [{ name := "Parties"
       members := [.group 453 false [.field { tag := 448, isRequired := true }]] },
     { name := "Allocs"
       members := [.group 78 false [.field { tag := 79, isRequired := true }]] }]

/-- A component's group with one field in its instances. -/
def componentGroup (component : String) (countFieldIndex fieldIndex : Fin 6) : Group 6 where
  countFieldIndex
  delimiterIndex := fieldIndex
  isRequired := false
  declaredIn := .component component
  component := some component
  members := [.field fieldIndex true]

/-- The group of a message, which holds a component's. -/
def listGroup (message : String) (inner : Group 6) : Group 6 where
  countFieldIndex := 0
  delimiterIndex := 1
  isRequired := false
  declaredIn := .message message
  component := none
  members := [.field 1 true, inner.member]

def listsDictionary (name : String) : Dictionary where
  spec := listsSpec name
  header := []
  messages := [[(listGroup "NewOrderList" (componentGroup "Parties" 2 3)).member],
    [(listGroup name (componentGroup "Allocs" 4 5)).member]]
  trailer := []

theorem Python.sharedGroups_defined_before_use_lists :
    ∃ reported, (Python.sharedGroups (listsDictionary "OrderList") []).2 =
        [] ++ reported.map .unsupportedGroup ∧
      Python.DefinedBeforeUse (listsDictionary "OrderList")
        (Python.sharedGroups (listsDictionary "OrderList") []).1 reported :=
  Python.sharedGroups_defined_before_use
    (show (listsSpec "OrderList").resolve = .ok (listsDictionary "OrderList") from rfl)
    (by decide) (by decide) []

/-- Where both messages have one name, the group of the second one's component is not shared. -/
theorem Python.namesakes_not_shared :
    (listsSpec "NewOrderList").resolve = .ok (listsDictionary "NewOrderList") ∧
      ((listsDictionary "NewOrderList").spec.fields.map Field.name).Nodup ∧
      ¬ ∃ reported, (Python.sharedGroups (listsDictionary "NewOrderList") []).2 =
          [] ++ reported.map .unsupportedGroup ∧
        Python.DefinedBeforeUse (listsDictionary "NewOrderList")
          (Python.sharedGroups (listsDictionary "NewOrderList") []).1 reported := by
  refine ⟨rfl, by decide, ?_⟩
  rintro ⟨reported, -, h⟩
  -- the group is reached through the second message
  have hlist := Dictionary.HasList.message (show ((listsSpec "NewOrderList").messages[1],
    (listsDictionary "NewOrderList").messages[1]) ∈ (listsDictionary "NewOrderList").messageMembers
    from List.mem_cons_of_mem _ List.mem_cons_self)
  have horders : (listsDictionary "NewOrderList").Reaches
      (listGroup "NewOrderList" (componentGroup "Allocs" 4 5)) :=
    .root hlist List.mem_cons_self
  have hreaches : (listsDictionary "NewOrderList").Reaches (componentGroup "Allocs" 4 5) :=
    .nested horders (List.mem_cons_of_mem _ List.mem_cons_self)
  obtain ⟨own, hown, hcontext⟩ := h.complete _ hreaches rfl
  have hshared : Group.instanceContext (listsDictionary "NewOrderList").spec.fields
      (componentGroup "Allocs" 4 5) ∉
      (Python.sharedGroups (listsDictionary "NewOrderList") []).1.map
        (·.instanceContext (listsDictionary "NewOrderList").spec.fields) := by
    decide +kernel
  exact hshared (hcontext ▸ List.mem_map_of_mem hown)

end Dictionary

end Refix.Codegen
