import Refix.Codegen.Groups

/-!
# Visiting Groups Once

A visit skips a group whose context it has seen, with all that is nested in it. Groups with one
context are alike, so nothing is lost: every group of the dictionary is visited, under its
context, and no context twice.
-/

namespace Refix.Codegen

open Refix.Dict

/-- A group at any depth within a member list. -/
inductive Within {n : ℕ} : List (ResolvedMember n) → Group n → Prop where
  | here {members : List (ResolvedMember n)} {group : Group n} (h : group.member ∈ members) :
      Within members group
  | deeper {members : List (ResolvedMember n)} {group inner : Group n}
      (h : group.member ∈ members) (hinner : Within group.members inner) : Within members inner

section Within

variable {n : ℕ} {members : List (ResolvedMember n)} {group inner : Group n}

theorem within_cons {member : ResolvedMember n} (h : Within members group) :
    Within (member :: members) group := by
  cases h with
  | here h => exact .here (List.mem_cons_of_mem _ h)
  | deeper h hinner => exact .deeper (List.mem_cons_of_mem _ h) hinner

theorem within_field {index : Fin n} {isRequired : Bool} :
    Within (.field index isRequired :: members) group ↔ Within members group := by
  constructor
  · intro h
    cases h with
    | here h =>
      rcases List.mem_cons.mp h with heq | h
      · cases heq
      · exact .here h
    | deeper h hinner =>
      rcases List.mem_cons.mp h with heq | h
      · cases heq
      · exact .deeper h hinner
  · exact within_cons

theorem within_group : Within (group.member :: members) inner ↔
    inner = group ∨ Within group.members inner ∨ Within members inner := by
  constructor
  · intro h
    cases h with
    | here h =>
      rcases List.mem_cons.mp h with heq | h
      · exact Or.inl (Group.eq_of_member_eq heq)
      · exact Or.inr (Or.inr (.here h))
    | deeper h hinner =>
      rcases List.mem_cons.mp h with heq | h
      · rw [Group.eq_of_member_eq heq] at hinner
        exact Or.inr (Or.inl hinner)
      · exact Or.inr (Or.inr (.deeper h hinner))
  · rintro (rfl | h | h)
    · exact .here List.mem_cons_self
    · exact .deeper List.mem_cons_self h
    · exact within_cons h

theorem within_trans (h : Within members group) (hinner : Within group.members inner) :
    Within members inner := by
  induction h with
  | here h => exact .deeper h hinner
  | deeper h _ ih => exact .deeper h (ih hinner)

end Within

section Visit

variable {fields : List Field} {σ : Type} {enter leave : Group fields.length → σ → σ}

/-- One step of a visit. -/
theorem visitGroups_group (group : Group fields.length)
    (members : List (ResolvedMember fields.length)) (groups : σ) (seen : List MemberContext) :
    visitGroups fields enter leave (group.member :: members) (groups, seen) =
      if group.instanceContext fields ∈ seen then
        visitGroups fields enter leave members (groups, seen)
      else
        let inner := visitGroups fields enter leave group.members
          (enter group groups, group.instanceContext fields :: seen)
        visitGroups fields enter leave members (leave group inner.1, inner.2) := by
  unfold Group.member
  rw [visitGroups, visitMember]
  split <;> rfl

/-- Members one after another: a field or a group. -/
theorem members_of_groups_induction {n : ℕ} {motive : List (ResolvedMember n) → Prop}
    (nil : motive [])
    (field : ∀ index isRequired members, motive members →
      motive (.field index isRequired :: members))
    (group : ∀ (group : Group n) members, motive group.members → motive members →
      motive (group.member :: members)) : ∀ members, motive members :=
  resolved_induction nil field
    fun countFieldIndex delimiterIndex isRequired declaredIn component inst members =>
      group { countFieldIndex, delimiterIndex, isRequired, declaredIn, component, members := inst }
        members

/-- What entering and leaving keep, a visit keeps. -/
theorem visitGroups_keeps {good : Group fields.length → Prop}
    {keeps : σ → List MemberContext → Prop}
    (henter : ∀ group groups seen, good group → keeps groups seen →
      group.instanceContext fields ∉ seen →
      keeps (enter group groups) (group.instanceContext fields :: seen))
    (hleave : ∀ group groups seen, good group → keeps groups seen → keeps (leave group groups) seen)
    (members : List (ResolvedMember fields.length)) : ∀ groups seen,
    (∀ group, Within members group → good group) → keeps groups seen →
    keeps (visitGroups fields enter leave members (groups, seen)).1
      (visitGroups fields enter leave members (groups, seen)).2 := by
  induction members using members_of_groups_induction with
  | nil => exact fun groups seen _ h => h
  | field index isRequired members ih =>
    intro groups seen hgood h
    exact ih groups seen (fun group hgroup => hgood group (within_cons hgroup)) h
  | group group members ihi ihm =>
    intro groups seen hgood h
    have hgroup := hgood group (.here List.mem_cons_self)
    have hmembers := fun other hother => hgood other (within_cons hother)
    rw [visitGroups_group]
    split
    · exact ihm groups seen hmembers h
    · next hfresh =>
      have hinner := ihi (enter group groups) (group.instanceContext fields :: seen)
        (fun other hother => hgood other (.deeper List.mem_cons_self hother))
        (henter group groups seen hgroup h hfresh)
      exact ihm _ _ hmembers (hleave group _ _ hgroup hinner)

/-- What a visit does to the groups it leaves: `done` comes to hold of each of them, and `keeps`
stays true, as long as the groups nested in a group are done when it is left. -/
structure LeavesDone (fields : List Field) (enter leave : Group fields.length → σ → σ)
    (good : Group fields.length → Prop)
    (done : σ → List MemberContext → Group fields.length → Prop)
    (keeps : σ → List MemberContext → Prop) : Prop where
  same : ∀ group group', good group → good group' →
    group.instanceContext fields = group'.instanceContext fields → group.members = group'.members
  done_congr : ∀ groups seen group group', good group → good group' →
    group.instanceContext fields = group'.instanceContext fields → done groups seen group →
    done groups seen group'
  done_within : ∀ groups seen group inner, done groups seen group → Within group.members inner →
    done groups seen inner
  done_enter : ∀ group groups seen other, done groups seen other →
    done (enter group groups) (group.instanceContext fields :: seen) other
  done_leave : ∀ group groups seen other, done groups seen other →
    done (leave group groups) seen other
  settle : ∀ group groups seen, good group → group.instanceContext fields ∈ seen →
    (∀ inner, Within group.members inner → done groups seen inner) →
    done (leave group groups) seen group
  keeps_enter : ∀ group groups seen, good group → keeps groups seen →
    group.instanceContext fields ∉ seen →
    keeps (enter group groups) (group.instanceContext fields :: seen)
  keeps_leave : ∀ group groups seen, good group → keeps groups seen →
    (∀ inner, Within group.members inner → done groups seen inner) → keeps (leave group groups) seen

/-- A visit only adds to what is seen. -/
theorem subset_visitGroups (enter leave : Group fields.length → σ → σ)
    (members : List (ResolvedMember fields.length)) : ∀ groups seen,
    seen ⊆ (visitGroups fields enter leave members (groups, seen)).2 := by
  induction members using members_of_groups_induction with
  | nil => exact fun _ seen => List.Subset.refl seen
  | field index isRequired members ih => exact ih
  | group group members ihi ihm =>
    intro groups seen
    rw [visitGroups_group]
    split
    · exact ihm groups seen
    · exact List.Subset.trans (List.subset_cons_self _ _) (List.Subset.trans (ihi _ _) (ihm _ _))

/-- **A visit settles every group of the list**, whatever it skips: where the smaller groups that
were seen before it are done, all groups of the list are done behind it, and so are those that it
has seen for the first time. -/
theorem visitGroups_leaves_done {good : Group fields.length → Prop}
    {done : σ → List MemberContext → Group fields.length → Prop}
    {keeps : σ → List MemberContext → Prop} (h : LeavesDone fields enter leave good done keeps)
    (members : List (ResolvedMember fields.length)) : ∀ groups seen,
    (∀ group, Within members group → good group) → keeps groups seen →
    (∀ group, good group → group.instanceContext fields ∈ seen →
      sizeOf group.members < sizeOf members → done groups seen group) →
    let visited := visitGroups fields enter leave members (groups, seen)
    keeps visited.1 visited.2 ∧
      (∀ other, done groups seen other → done visited.1 visited.2 other) ∧
      (∀ group, Within members group → done visited.1 visited.2 group) ∧
      ∀ group, good group → group.instanceContext fields ∈ visited.2 →
        group.instanceContext fields ∉ seen → done visited.1 visited.2 group := by
  induction members using members_of_groups_induction with
  | nil =>
    intro groups seen _ hkeeps _
    refine ⟨hkeeps, fun _ h => h, fun group h => ?_, fun group _ h h' => absurd h h'⟩
    cases h with
    | here h => cases h
    | deeper h _ => cases h
  | field index isRequired members ih =>
    intro groups seen hgood hkeeps hsettled
    have hsize : sizeOf members < sizeOf (ResolvedMember.field index isRequired :: members) := by
      simp
    obtain ⟨hkept, hmono, hwithin, hnew⟩ := ih groups seen
      (fun group hgroup => hgood group (within_cons hgroup)) hkeeps
      fun group hgroup hseen hless => hsettled group hgroup hseen (hless.trans hsize)
    exact ⟨hkept, hmono, fun group hgroup => hwithin group (within_field.mp hgroup), hnew⟩
  | group group members ihi ihm =>
    intro groups seen hgood hkeeps hsettled
    have hgroup := hgood group (.here List.mem_cons_self)
    have hmembers := fun other hother => hgood other (within_cons hother)
    have hinner := fun other hother => hgood other (.deeper List.mem_cons_self hother)
    have hsizeMembers : sizeOf members < sizeOf (group.member :: members) := by
      simp
    have hsizeInner : sizeOf group.members < sizeOf (group.member :: members) := by
      simp [Group.member]
      omega
    rw [visitGroups_group]
    split
    · next hskip =>
      -- the group was seen before, and is smaller than the list, so it was left and is done
      have hdone := hsettled group hgroup hskip hsizeInner
      obtain ⟨hkept, hmono, hwithin, hnew⟩ := ihm groups seen hmembers hkeeps
        fun other hother hseen hless => hsettled other hother hseen (hless.trans hsizeMembers)
      refine ⟨hkept, hmono, fun other hother => ?_, hnew⟩
      rcases within_group.mp hother with rfl | hother | hother
      · exact hmono _ hdone
      · exact h.done_within _ _ _ _ (hmono _ hdone) hother
      · exact hwithin other hother
    · next hfresh =>
      simp only
      have henter := h.done_enter group groups seen
      have hseenInner := subset_visitGroups enter leave group.members (enter group groups)
        (group.instanceContext fields :: seen)
      obtain ⟨hkeptInner, hmonoInner, hwithinInner, hnewInner⟩ := ihi (enter group groups)
        (group.instanceContext fields :: seen) hinner
        (h.keeps_enter group groups seen hgroup hkeeps hfresh) fun other hother hseen hless => by
          rcases List.mem_cons.mp hseen with heq | hseen
          · -- a group with this context has these members, and is not smaller than they are
            rw [h.same other group hother hgroup heq] at hless
            exact absurd hless (lt_irrefl _)
          · exact henter other (hsettled other hother hseen (hless.trans hsizeInner))
      generalize visitGroups fields enter leave group.members
        (enter group groups, group.instanceContext fields :: seen) = visited at *
      have hleave := h.done_leave group visited.1 visited.2
      have hdone : done (leave group visited.1) visited.2 group :=
        h.settle group _ _ hgroup (hseenInner List.mem_cons_self) hwithinInner
      have hdoneNew : ∀ other, good other → other.instanceContext fields ∈ visited.2 →
          other.instanceContext fields ∉ seen → done (leave group visited.1) visited.2 other := by
        intro other hother hseen hold
        by_cases heq : group.instanceContext fields = other.instanceContext fields
        · exact h.done_congr _ _ group other hgroup hother heq hdone
        · exact hleave other (hnewInner other hother hseen (by simp [Ne.symm heq, hold]))
      obtain ⟨hkept, hmono, hwithin, hnew⟩ := ihm (leave group visited.1) visited.2 hmembers
        (h.keeps_leave group _ _ hgroup hkeptInner hwithinInner) fun other hother hseen hless => by
          by_cases hold : other.instanceContext fields ∈ seen
          · exact hleave other (hmonoInner other (henter other
              (hsettled other hother hold (hless.trans hsizeMembers))))
          · exact hdoneNew other hother hseen hold
      refine ⟨hkept, fun other hother => hmono other (hleave other (hmonoInner other
        (henter other hother))), fun other hother => ?_, fun other hother hseen hold => ?_⟩
      · rcases within_group.mp hother with rfl | hother | hother
        · exact hmono _ hdone
        · exact hmono other (hleave other (hwithinInner other hother))
        · exact hwithin other hother
      · by_cases hvisited : other.instanceContext fields ∈ visited.2
        · exact hmono other (hdoneNew other hother hvisited hold)
        · exact hnew other hother hseen hvisited

/-- A group's context is seen, and those of all groups nested in it. -/
def Seen (fields : List Field) (seen : List MemberContext) (group : Group fields.length) : Prop :=
  group.instanceContext fields ∈ seen ∧
    ∀ inner, Within group.members inner → inner.instanceContext fields ∈ seen

theorem Seen.mono {seen seen' : List MemberContext} {group : Group fields.length}
    (h : Seen fields seen group) (hsub : seen ⊆ seen') : Seen fields seen' group :=
  ⟨hsub h.1, fun inner hinner => hsub (h.2 inner hinner)⟩

/-- Seeing is settled by whatever is done when entering and leaving. -/
theorem leavesDone_seen {good : Group fields.length → Prop}
    (hsame : ∀ group group', good group → good group' →
      group.instanceContext fields = group'.instanceContext fields →
      group.members = group'.members) :
    LeavesDone fields enter leave good (fun _ => Seen fields) fun _ _ => True where
  same := hsame
  done_congr := fun _ _ group group' hgroup hgroup' heq h =>
    ⟨heq ▸ h.1, hsame group group' hgroup hgroup' heq ▸ h.2⟩
  done_within := fun _ _ _ _ h hinner =>
    ⟨h.2 _ hinner, fun other hother => h.2 other (within_trans hinner hother)⟩
  done_enter := fun _ _ _ _ h => h.mono (List.subset_cons_self _ _)
  done_leave := fun _ _ _ _ h => h
  settle := fun _ _ _ _ hmem h => ⟨hmem, fun inner hinner => (h inner hinner).1⟩
  keeps_enter := fun _ _ _ _ _ _ => trivial
  keeps_leave := fun _ _ _ _ _ _ => trivial

end Visit

/-! ## Visiting a dictionary -/

section Dictionary

variable {dictionary : Dictionary} {σ : Type}
  {enter leave : Group dictionary.spec.fields.length → σ → σ}

/-- The lists of a dictionary in the order they are visited. -/
def roots (dictionary : Dictionary) : List (List (ResolvedMember dictionary.spec.fields.length)) :=
  dictionary.header :: (dictionary.messages ++ [dictionary.trailer])

theorem visitDictionary_eq (initial : σ) : visitDictionary dictionary enter leave initial =
    ((roots dictionary).foldl (fun state members =>
      visitGroups dictionary.spec.fields enter leave members state) (initial, [])).1 := by
  rw [roots, List.foldl_cons, List.foldl_append, List.foldl_cons, List.foldl_nil]
  rfl

theorem exists_hasList (hd : dictionary.Resolved)
    {members : List (ResolvedMember dictionary.spec.fields.length)}
    (h : members ∈ roots dictionary) : ∃ context, dictionary.HasList context members := by
  rcases List.mem_cons.mp h with rfl | h
  · exact ⟨_, .header⟩
  rcases List.mem_append.mp h with h | h
  · have hlength : dictionary.messages.length ≤ dictionary.spec.messages.length :=
      hd.messages.length_eq.ge
    rw [← List.map_snd_zip hlength] at h
    obtain ⟨⟨message, members⟩, hentry, rfl⟩ := List.mem_map.mp h
    exact ⟨_, .message hentry⟩
  · obtain rfl := List.mem_singleton.mp h
    exact ⟨_, .trailer⟩

theorem mem_roots {context : MemberContext}
    {members : List (ResolvedMember dictionary.spec.fields.length)}
    (h : dictionary.HasList context members) : members ∈ roots dictionary := by
  unfold roots
  cases h with
  | header => exact List.mem_cons_self
  | trailer => simp
  | message h =>
    apply List.mem_cons_of_mem
    exact List.mem_append_left _ (List.of_mem_zip h).2

theorem reaches_of_within {context : MemberContext}
    {members : List (ResolvedMember dictionary.spec.fields.length)}
    (h : dictionary.ReachesList context members) {group : Group dictionary.spec.fields.length}
    (hwithin : Within members group) : dictionary.Reaches group := by
  induction hwithin generalizing context with
  | here hmem => exact h.reaches hmem
  | deeper hmem _ ih => exact ih (.inst (h.reaches hmem))

theorem exists_within {group : Group dictionary.spec.fields.length}
    (h : dictionary.Reaches group) : ∃ members ∈ roots dictionary, Within members group := by
  induction h with
  | root hlist hmem => exact ⟨_, mem_roots hlist, .here hmem⟩
  | nested _ hmem ih =>
    obtain ⟨members, hroot, hwithin⟩ := ih
    exact ⟨members, hroot, within_trans hwithin (.here hmem)⟩

variable (enter leave) in
/-- What entering and leaving keep, visiting a dictionary keeps. -/
theorem visitDictionary_keeps (hd : dictionary.Resolved)
    (keeps : σ → List MemberContext → Prop)
    (henter : ∀ group groups seen, dictionary.Reaches group → keeps groups seen →
      group.instanceContext dictionary.spec.fields ∉ seen →
      keeps (enter group groups) (group.instanceContext dictionary.spec.fields :: seen))
    (hleave : ∀ group groups seen, dictionary.Reaches group → keeps groups seen →
      keeps (leave group groups) seen)
    (lists : List (List (ResolvedMember dictionary.spec.fields.length)))
    (hlists : lists ⊆ roots dictionary) : ∀ state : σ × List MemberContext,
    keeps state.1 state.2 →
    let state' := lists.foldl (fun state members =>
      visitGroups dictionary.spec.fields enter leave members state) state
    keeps state'.1 state'.2 := by
  induction lists with
  | nil => exact fun state h => h
  | cons members lists ih =>
    intro state h
    obtain ⟨context, hlist⟩ := exists_hasList hd (hlists List.mem_cons_self)
    have hvisit := visitGroups_keeps henter hleave members state.1 state.2
      (fun group hgroup => reaches_of_within (.root hlist) hgroup) h
    exact ih (fun _ hmem => hlists (List.mem_cons_of_mem _ hmem)) _ hvisit

variable (enter leave) in
/-- Visiting list after list settles the groups of them all. -/
theorem visitDictionary_leaves_done (hd : dictionary.Resolved)
    {done : σ → List MemberContext → Group dictionary.spec.fields.length → Prop}
    {keeps : σ → List MemberContext → Prop}
    (h : LeavesDone dictionary.spec.fields enter leave dictionary.Reaches done keeps)
    (lists : List (List (ResolvedMember dictionary.spec.fields.length)))
    (hlists : lists ⊆ roots dictionary) : ∀ state : σ × List MemberContext,
    keeps state.1 state.2 →
    (∀ group, dictionary.Reaches group →
      group.instanceContext dictionary.spec.fields ∈ state.2 → done state.1 state.2 group) →
    let state' := lists.foldl (fun state members =>
      visitGroups dictionary.spec.fields enter leave members state) state
    keeps state'.1 state'.2 ∧ (∀ other, done state.1 state.2 other → done state'.1 state'.2 other) ∧
      ∀ members ∈ lists, ∀ group, Within members group → done state'.1 state'.2 group := by
  induction lists with
  | nil => exact fun state hkeeps _ => ⟨hkeeps, fun _ h => h, List.forall_mem_nil _⟩
  | cons members lists ih =>
    intro state hkeeps hdone
    obtain ⟨context, hlist⟩ := exists_hasList hd (hlists List.mem_cons_self)
    obtain ⟨hkept, hmono, hwithin, hnew⟩ := visitGroups_leaves_done h members state.1 state.2
      (fun group hgroup => reaches_of_within (.root hlist) hgroup) hkeeps
      fun group hgroup hseen _ => hdone group hgroup hseen
    obtain ⟨hkept', hmono', hwithin'⟩ := ih (fun _ hmem => hlists (List.mem_cons_of_mem _ hmem))
      (visitGroups dictionary.spec.fields enter leave members state) hkept
      fun group hgroup hseen => by
        by_cases hold : group.instanceContext dictionary.spec.fields ∈ state.2
        · exact hmono group (hdone group hgroup hold)
        · exact hnew group hgroup hseen hold
    refine ⟨hkept', fun other hother => hmono' other (hmono other hother),
      List.forall_mem_cons.mpr ⟨fun group hgroup => hmono' group (hwithin group hgroup), hwithin'⟩⟩

variable (enter leave) in
/-- Every group of the lists is seen. -/
theorem visitDictionary_covers (hd : dictionary.Resolved)
    (hsame : ∀ group group', dictionary.Reaches group → dictionary.Reaches group' →
      group.instanceContext dictionary.spec.fields =
        group'.instanceContext dictionary.spec.fields → group.members = group'.members)
    (lists : List (List (ResolvedMember dictionary.spec.fields.length)))
    (hlists : lists ⊆ roots dictionary) : ∀ members ∈ lists, ∀ group, Within members group →
      ∀ initial : σ, group.instanceContext dictionary.spec.fields ∈
        (lists.foldl (fun state members =>
          visitGroups dictionary.spec.fields enter leave members state) (initial, [])).2 := by
  intro members hmem group hgroup initial
  have hsettled := visitDictionary_leaves_done enter leave hd
    (leavesDone_seen hsame) lists hlists (initial, []) trivial fun _ _ hseen => by cases hseen
  exact (hsettled.2.2 members hmem group hgroup).1

/-- The groups that are declared are reached, and no two have one context. -/
theorem declaredGroups_reaches (hd : dictionary.Resolved) :
    (∀ group ∈ declaredGroups dictionary, dictionary.Reaches group) ∧
      ((declaredGroups dictionary).map (·.instanceContext dictionary.spec.fields)).Nodup := by
  unfold declaredGroups
  rw [visitDictionary_eq]
  have hkeeps := visitDictionary_keeps (fun group groups => groups ++ [group])
    (fun _ groups => groups) hd (fun groups seen => (∀ group ∈ groups, dictionary.Reaches group) ∧
      groups.map (·.instanceContext dictionary.spec.fields) = seen.reverse ∧ seen.Nodup)
    (fun group groups seen hgroup ⟨hgroups, hseen, hnodup⟩ hfresh => by
      refine ⟨?_, by simp [hseen], List.nodup_cons.mpr ⟨hfresh, hnodup⟩⟩
      simpa [or_imp, forall_and] using ⟨hgroups, hgroup⟩)
    (fun _ _ _ _ h => h) (roots dictionary) (List.Subset.refl _) ([], [])
    ⟨List.forall_mem_nil _, rfl, List.nodup_nil⟩
  refine ⟨hkeeps.1, ?_⟩
  rw [hkeeps.2.1, List.nodup_reverse]
  exact hkeeps.2.2

/-- **Every group that is reached is declared**, under the context of its instances. -/
theorem exists_declaredGroup (hd : dictionary.Resolved)
    (hmessages : (dictionary.spec.messages.map Message.name).Nodup)
    (hfields : (dictionary.spec.fields.map Field.name).Nodup)
    {group : Group dictionary.spec.fields.length} (h : dictionary.Reaches group) :
    ∃ group' ∈ declaredGroups dictionary, group.Same group' := by
  have hsame : ∀ group group', dictionary.Reaches group → dictionary.Reaches group' →
      group.instanceContext dictionary.spec.fields =
        group'.instanceContext dictionary.spec.fields → group.members = group'.members :=
    fun _ _ h h' hcontext => (h.same hd hmessages hfields h' hcontext).members_eq
  obtain ⟨members, hroot, hwithin⟩ := exists_within h
  have hseen := visitDictionary_covers
    (fun group (groups : List (Group dictionary.spec.fields.length)) => groups ++ [group])
    (fun _ groups => groups) hd hsame (roots dictionary) (List.Subset.refl _) members hroot group
    hwithin []
  have hcontexts := visitDictionary_keeps (fun group groups => groups ++ [group])
    (fun _ groups => groups) hd
    (fun groups seen => groups.map (·.instanceContext dictionary.spec.fields) = seen.reverse)
    (fun group groups seen _ hseen _ => by simp [hseen]) (fun _ _ _ _ h => h) (roots dictionary)
    (List.Subset.refl _) ([], []) rfl
  have hmem : group.instanceContext dictionary.spec.fields ∈
      (declaredGroups dictionary).map (·.instanceContext dictionary.spec.fields) := by
    unfold declaredGroups
    rw [visitDictionary_eq, hcontexts]
    exact List.mem_reverse.mpr hseen
  obtain ⟨group', hgroup', hcontext⟩ := List.mem_map.mp hmem
  have hreaches := (declaredGroups_reaches hd).1 group' hgroup'
  exact ⟨group', hgroup', h.same hd hmessages hfields hreaches hcontext.symm⟩

end Dictionary

end Refix.Codegen
