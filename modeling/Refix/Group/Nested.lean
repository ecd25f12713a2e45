import Refix.Group.Turns
import Refix.Group.ReadBack

/-!
# Walking Nested Groups from their Instance

A nested group is walked twice: by the loop of the group around it, which passes over it, and
again from the scope of an instance, with fewer known tags. The fields of an instance have
tags of the group at some depth or tags that the message does not know. Hence the two
sets of known tags decide alike there, and the two walks are the same, on well-formed
messages and on malformed ones.
-/

namespace Refix.Message

open Refix.Foundation

/-! ## Narrower scopes and other known tags -/

section Congruence

variable {L : Type} [Layout L] {scope inner : Scope} {known known' : KnownTags} {table : L}
  {slot : ℕ} {progress : Progress}

theorem tagAt_congr (h : inner.message = scope.message) (slot : ℕ) :
    inner.tagAt slot = scope.tagAt slot := by
  rw [Scope.tagAt, Scope.tagAt, Scope.fieldAt, Scope.fieldAt, h]

theorem Progress.start_congr (h : inner.message = scope.message) (slot : ℕ) :
    Progress.start inner slot = .start scope slot := by
  rw [start, start, Scope.valueAt, Scope.valueAt, Scope.fieldAt, Scope.fieldAt, h]

theorem Progress.close_congr (h : inner.message = scope.message) (progress : Progress) (slot : ℕ) :
    progress.close inner slot = progress.close scope slot := by
  simp only [close, Scope.narrow, h]

theorem Progress.enter_congr (h : inner.message = scope.message) (progress : Progress) (table : L)
    (slot : ℕ) (tag : Tag) :
    progress.enter inner table slot tag = progress.enter scope table slot tag := by
  rw [enter, enter, close_congr h]

theorem Walk.of_congr (h : inner.message = scope.message) (declaredCount : Option ℕ)
    (result : Progress × ℕ) : Walk.of inner declaredCount result =
      Walk.of scope declaredCount result := by
  simp only [Walk.of, Progress.close_congr h]

/-- Within a narrower scope the turns are the same. -/
theorem turn_narrow (hmessage : inner.message = scope.message) (hstop : inner.stop ≤ scope.stop)
    (hlt : slot < inner.stop) : turn inner known table slot = turn scope known table slot := by
  have hiff : (slot < inner.stop ∧ scope.tagAt slot ≠ checkSum) ↔
      (slot < scope.stop ∧ scope.tagAt slot ≠ checkSum) :=
    and_congr_left' (iff_of_true hlt (by omega))
  simp only [turn, tagAt_congr hmessage, hiff]

/-- A walk that ends within a narrower scope is the walk of that scope. -/
theorem walkFrom_narrow (hmessage : inner.message = scope.message)
    (hstop : inner.stop ≤ scope.stop)
    (hend : (walkFrom scope known table slot progress).2 ≤ inner.stop) :
    walkFrom inner known table slot progress = walkFrom scope known table slot progress := by
  induction table, slot, progress using walkFrom_induction (L := L) scope known with
  | done table slot progress hturn =>
    rw [walkFrom_eq, walkFrom_eq scope, hturn]
    rcases Nat.lt_or_ge slot inner.stop with hlt | hge
    · rw [turn_narrow hmessage hstop hlt, hturn]
    · rw [turn, if_neg (fun h => absurd h.1 (Nat.not_lt.mpr hge))]
  | skip table slot progress hturn ih =>
    rw [walkFrom_eq, hturn] at hend
    dsimp only at hend
    have hlt := le_walkFrom scope known table (slot + 1) progress
    rw [walkFrom_eq, walkFrom_eq scope, turn_narrow hmessage hstop (by omega), hturn]
    exact ih hend
  | member table slot progress hturn ih =>
    rw [walkFrom_eq, hturn] at hend
    dsimp only at hend
    have hlt := le_walkFrom scope known table (slot + 1)
      (progress.enter scope table slot (scope.tagAt slot))
    rw [walkFrom_eq, walkFrom_eq scope, turn_narrow hmessage hstop (by omega), hturn]
    dsimp only
    rw [tagAt_congr hmessage, Progress.enter_congr hmessage]
    exact ih hend
  | nested table slot progress nested hturn ihNested ih =>
    rw [walkFrom_eq, hturn] at hend
    dsimp only at hend
    -- the nested walk ends before this one does
    have hle := le_walkFrom scope known nested (slot + 1) (.start scope slot)
    have hlt := le_walkFrom scope known table
      (walkFrom scope known nested (slot + 1) (.start scope slot)).2
      (progress.enter scope table slot (scope.tagAt slot))
    have hnested := ihNested (hlt.trans hend)
    rw [walkFrom_eq, walkFrom_eq scope, turn_narrow hmessage hstop (by omega), hturn]
    dsimp only
    rw [tagAt_congr hmessage, Progress.enter_congr hmessage, Progress.start_congr hmessage,
      hnested]
    exact ih hend

/-- Known tags that decide alike on the fields of a scope make the same walk. -/
theorem walkFrom_known_congr
    (h : ∀ s, slot ≤ s → s < scope.stop →
      known.contains (scope.tagAt s) = known'.contains (scope.tagAt s)) :
    walkFrom scope known table slot progress = walkFrom scope known' table slot progress := by
  have hturn' (table : L) (slot : ℕ) (h : ∀ s, slot ≤ s → s < scope.stop →
      known.contains (scope.tagAt s) = known'.contains (scope.tagAt s)) :
      turn scope known' table slot = turn scope known table slot := by
    by_cases hlt : slot < scope.stop
    · simp only [turn, h slot le_rfl hlt]
    · simp only [turn, hlt, false_and, if_false]
  induction table, slot, progress using walkFrom_induction (L := L) scope known with
  | done table slot progress hturn =>
    rw [walkFrom_eq, walkFrom_eq scope known', hturn' table slot h, hturn]
  | skip table slot progress hturn ih =>
    rw [walkFrom_eq, walkFrom_eq scope known', hturn' table slot h, hturn]
    exact ih fun s hs => h s (by omega)
  | member table slot progress hturn ih =>
    rw [walkFrom_eq, walkFrom_eq scope known', hturn' table slot h, hturn]
    exact ih fun s hs => h s (by omega)
  | nested table slot progress nested hturn ihNested ih =>
    have hle := le_walkFrom scope known nested (slot + 1) (.start scope slot)
    rw [walkFrom_eq, walkFrom_eq scope known', hturn' table slot h, hturn]
    dsimp only
    rw [← ihNested fun s hs => h s (by omega)]
    exact ih fun s hs => h s (by omega)

/-! ## The scopes a walk finds -/

theorem Progress.mem_close {found : Scope} (h : found ∈ progress.close scope slot) :
    found ∈ progress.instances ∨
      ∃ first, progress.instanceStart = some first ∧ found = scope.narrow first slot := by
  rw [close] at h
  split at h
  · next first hfirst =>
    rw [List.mem_append, List.mem_singleton] at h
    exact h.imp_right fun heq => ⟨first, hfirst, heq⟩
  · exact Or.inl h

/-- Where a member enters, the slot ends the open instance and starts one, or neither. -/
private theorem visits_of_enter {found : Scope} {next : ℕ} {tag : Tag}
    (hstep : nextSlot scope known table slot = some next)
    (h : found ∈ (progress.enter scope table slot tag).instances ∨
      ∃ first last, found = scope.narrow first last ∧
        ((progress.enter scope table slot tag).instanceStart = some first ∨
          Visits scope known table next first) ∧ Visits scope known table next last) :
    found ∈ progress.instances ∨ ∃ first last, found = scope.narrow first last ∧
      (progress.instanceStart = some first ∨ Visits scope known table slot first) ∧
      Visits scope known table slot last := by
  by_cases hstarts : progress.instanceStart = none ∨ tag ∈ progress.seen
  · rw [Progress.enter, if_pos hstarts] at h
    rcases h with hmem | ⟨first, last, hfound, hfirst, hlast⟩
    · rcases Progress.mem_close hmem with hmem | ⟨first, hfirst, rfl⟩
      · exact Or.inl hmem
      · exact Or.inr ⟨first, slot, rfl, Or.inl hfirst, .refl⟩
    · refine Or.inr ⟨first, last, hfound, Or.inr ?_, .head hstep hlast⟩
      rcases hfirst with hopened | hvisits
      · cases hopened
        exact .refl
      · exact .head hstep hvisits
  · rw [Progress.enter, if_neg hstarts] at h
    rcases h with hmem | ⟨first, last, hfound, hfirst, hlast⟩
    · exact Or.inl hmem
    · exact Or.inr ⟨first, last, hfound, hfirst.imp_right (.head hstep), .head hstep hlast⟩

/-- A scope the loop finds runs from one slot it comes to to another, unless it was found or
opened before. -/
theorem visits_of_mem_close {found : Scope}
    (h : found ∈ (walkFrom scope known table slot progress).1.close scope
      (walkFrom scope known table slot progress).2) :
    found ∈ progress.instances ∨ ∃ first last, found = scope.narrow first last ∧
      (progress.instanceStart = some first ∨ Visits scope known table slot first) ∧
      Visits scope known table slot last := by
  induction table, slot, progress using walkFrom_induction (L := L) scope known with
  | done table slot progress hturn =>
    rw [walkFrom_eq, hturn] at h
    rcases Progress.mem_close h with hmem | ⟨first, hfirst, rfl⟩
    · exact Or.inl hmem
    · exact Or.inr ⟨first, slot, rfl, Or.inl hfirst, .refl⟩
  | skip table slot progress hturn ih =>
    rw [walkFrom_eq, hturn] at h
    have hstep : nextSlot scope known table slot = some (slot + 1) := by rw [nextSlot, hturn]
    rcases ih h with hmem | ⟨first, last, hfound, hfirst, hlast⟩
    · exact Or.inl hmem
    · exact Or.inr ⟨first, last, hfound, hfirst.imp_right (.head hstep), .head hstep hlast⟩
  | member table slot progress hturn ih =>
    rw [walkFrom_eq, hturn] at h
    have hstep : nextSlot scope known table slot = some (slot + 1) := by rw [nextSlot, hturn]
    exact visits_of_enter hstep (ih h)
  | nested table slot progress nested hturn _ ih =>
    rw [walkFrom_eq, hturn] at h
    have hstep : nextSlot scope known table slot =
        some (walkFrom scope known nested (slot + 1) (.start scope slot)).2 := by
      rw [nextSlot, hturn]
    exact visits_of_enter hstep (ih h)

end Congruence

/-! ## The fields of an instance -/

variable {scope : Scope} {known : KnownTags} {table nested : OwnedGroupTable} {slot : ℕ}
  {progress : Progress}

/-- The loop passes tags of the table, at some depth, and tags that are not known. -/
theorem tagAt_of_lt_walkFrom {c : ℕ} (hle : slot ≤ c)
    (hlt : c < (walkFrom scope known table slot progress).2) :
    scope.tagAt c ∈ table.memberTags ∨ scope.tagAt c ∉ known.tags := by
  induction table, slot, progress using walkFrom_induction (L := OwnedGroupTable) scope known with
  | done table slot progress hturn =>
    rw [walkFrom_eq, hturn] at hlt
    exact absurd hlt (Nat.not_lt.mpr hle)
  | skip table slot progress hturn ih =>
    rw [walkFrom_eq, hturn] at hlt
    rcases hle.eq_or_lt with rfl | hgt
    · exact Or.inr (not_mem_of_turn_eq_skip hturn)
    · exact ih hgt hlt
  | member table slot progress hturn ih =>
    rw [walkFrom_eq, hturn] at hlt
    rcases hle.eq_or_lt with rfl | hgt
    · exact Or.inl (OwnedGroupTable.mem_memberTags_of_mem
        (OwnedGroupTable.isMember_iff.mp (isMember_of_turn_eq_member hturn)))
    · exact ih hgt hlt
  | nested table slot progress nested hturn ihNested ih =>
    rw [walkFrom_eq, hturn] at hlt
    obtain ⟨hmember, hfound⟩ := turn_eq_nested hturn
    rcases hle.eq_or_lt with rfl | hgt
    · exact Or.inl (OwnedGroupTable.mem_memberTags_of_mem
        (OwnedGroupTable.isMember_iff.mp hmember))
    · rcases Nat.lt_or_ge c (walkFrom scope known nested (slot + 1) (.start scope slot)).2 with
        hin | hout
      · exact (ihNested hgt hin).imp_left (OwnedGroupTable.mem_memberTags_of_nested
          (OwnedGroupTable.mem_of_nestedCountedBy hfound).1)
      · exact ih hout hlt

/-- A passed field of a direct member tag is one the loop comes to. -/
theorem visits_of_mem_members (hdistinct : table.Distinct)
    (hknown : ∀ tag ∈ table.memberTags, tag ∈ known.tags) {c : ℕ} (hle : slot ≤ c)
    (hlt : c < (walkFrom scope known table slot progress).2)
    (hmember : scope.tagAt c ∈ table.members) : Visits scope known table slot c := by
  rcases visits_or_nested scope known table slot progress hle hlt with
    hvisits | ⟨s, nested, -, hturn, hsc, hin⟩
  · exact hvisits
  · -- within a nested group stand the nested group's tags and unknown ones
    obtain ⟨-, hfound⟩ := turn_eq_nested hturn
    have hnested := (OwnedGroupTable.mem_of_nestedCountedBy hfound).1
    rcases tagAt_of_lt_walkFrom hsc hin with htag | htag
    · exact absurd htag (hdistinct.notMem_of_mem_members hnested hmember)
    · exact absurd (hknown _ (OwnedGroupTable.mem_memberTags_of_mem hmember)) htag

/-! ## Walking from the instance -/

/-- The known tags are the tags below the table, at every depth. -/
def Below (known : KnownTags) (table : OwnedGroupTable) : Prop :=
  ∀ tag, tag ∈ known.tags ↔ tag ∈ table.memberTags

/-- The walk of `table` in the scope passes over the group that `nested` describes, whose count
field is at slot `c`. -/
def PassesOver (scope : Scope) (known : KnownTags) (table nested : OwnedGroupTable) (c : ℕ) :
    Prop :=
  ∃ countSlot value, scope.find table.countTag scope.start = some (countSlot, value) ∧
    Visits scope known table (countSlot + 1) c ∧ turn scope known table c = .nested nested

/-- The scope `inner` is an instance of `table` that the walk of `outer` with `known` finds.
The walk starts from the given table, scope and known tags, and each nested table is walked
in the scope of an instance with the tags below the instance's table. -/
inductive Reached (root : OwnedGroupTable) (rootKnown : KnownTags) (rootScope : Scope) :
    OwnedGroupTable → Scope → KnownTags → Scope → Prop
  | root {found : Walk} {inner : Scope}
      (hwalk : rootScope.walkGroup root rootKnown = some found) (hinner : inner ∈ found.instances) :
      Reached root rootKnown rootScope root rootScope rootKnown inner
  | nested {table nested : OwnedGroupTable} {outer inner innermost : Scope}
      {known below : KnownTags} {found : Walk}
      (hreached : Reached root rootKnown rootScope table outer known inner)
      (hnested : nested ∈ table.nested) (hbelow : Below below table)
      (hwalk : inner.walkGroup nested below = some found) (hinner : innermost ∈ found.instances) :
      Reached root rootKnown rootScope nested inner below innermost

/-- Where an instance that a walk finds lies, what its fields are and what was passed over. -/
structure InstanceOf (scope : Scope) (known : KnownTags) (table : OwnedGroupTable)
    (inner : Scope) : Prop where
  message : inner.message = scope.message
  start_le : scope.start ≤ inner.start
  stop_le : inner.stop ≤ scope.stop
  stop_le_length : scope.stop ≤ scope.message.fields.length
  tags : ∀ c, inner.start ≤ c → c < inner.stop →
    scope.tagAt c ∈ table.memberTags ∨ scope.tagAt c ∉ known.tags
  passes : ∀ nested ∈ table.nested, ∀ c, inner.start ≤ c → c < inner.stop →
    scope.tagAt c = nested.countTag →
    PassesOver scope known table nested c ∧ (walk scope c nested known).2 ≤ inner.stop

/-- Every instance that a walk finds is such an instance. -/
theorem instanceOf_of_walkGroup {inner : Scope} {found : Walk} (hdistinct : table.Distinct)
    (hknown : ∀ tag ∈ table.memberTags, tag ∈ known.tags)
    (hwalk : scope.walkGroup table known = some found) (hinner : inner ∈ found.instances) :
    InstanceOf scope known table inner := by
  rw [Scope.walkGroup, Option.map_eq_some_iff] at hwalk
  obtain ⟨⟨countSlot, value⟩, hfind, rfl⟩ := hwalk
  obtain ⟨hstart, hlt, hlength, -⟩ := Scope.of_find_eq_some hfind
  rw [walk_eq] at hinner
  have hstop : (walkFrom scope known table (countSlot + 1) (.start scope countSlot)).2 ≤
      scope.stop := walkFrom_le_stop _ hlt
  rcases visits_of_mem_close hinner with hmem | ⟨first, last, rfl, hfirst, hlast⟩
  · exact absurd hmem List.not_mem_nil
  have hfirst := hfirst.resolve_left (by rw [Progress.start]; exact fun h => by cases h)
  have hle := hfirst.le
  have hend := hlast.le_end (.start scope countSlot)
  refine ⟨rfl, ?_, hend.trans hstop, hlength, ?_, ?_⟩
  · change scope.start ≤ first
    omega
  · exact fun c hc hclt => tagAt_of_lt_walkFrom (hle.trans hc) (hclt.trans_le hend)
  -- A nested count inside the instance is visited, and the walk goes on behind its group before the
  -- instance ends.
  · intro nested hnested c hc hclt htag
    have hmember : scope.tagAt c ∈ table.members :=
      htag ▸ OwnedGroupTable.countTag_mem hnested
    have hvisits := visits_of_mem_members hdistinct hknown (hle.trans hc) (hclt.trans_le hend)
      hmember
    obtain ⟨next, hnext, hnextLe⟩ := hvisits.exists_next hlast hclt
    have hturn : turn scope known table c = .nested nested := by
      rw [turn, if_pos (lt_of_turn_ne_done (by
          intro hdone
          rw [nextSlot, hdone] at hnext
          cases hnext)),
        if_pos (OwnedGroupTable.isMember_iff.mpr hmember), htag,
        hdistinct.nestedCountedBy_eq hnested]
    refine ⟨⟨countSlot, value, hfind, hvisits, hturn⟩, ?_⟩
    rw [nextSlot, hturn] at hnext
    rw [walk_eq, Walk.of_slot, Option.some.inj hnext]
    exact hnextLe

/-- An instance reached at any depth is an instance of the walk it was found by, whose table
has distinct and known tags, and its fields have tags of the table or tags that are not known
at the root either. -/
theorem Reached.instanceOf {root : OwnedGroupTable} {rootKnown : KnownTags}
    {rootScope outer inner : Scope} (hdistinct : root.Distinct)
    (hrootKnown : ∀ tag ∈ root.memberTags, tag ∈ rootKnown.tags)
    (h : Reached root rootKnown rootScope table outer known inner) :
    InstanceOf outer known table inner ∧ table.Distinct ∧
      (∀ tag ∈ table.memberTags, tag ∈ known.tags ∧ tag ∈ rootKnown.tags) ∧
      ∀ c, inner.start ≤ c → c < inner.stop →
        inner.tagAt c ∈ table.memberTags ∨ inner.tagAt c ∉ rootKnown.tags := by
  induction h with
  | root hwalk hinner =>
    have hinstance := instanceOf_of_walkGroup hdistinct hrootKnown hwalk hinner
    refine ⟨hinstance, hdistinct, fun tag htag => ⟨hrootKnown tag htag, hrootKnown tag htag⟩,
      fun c hc hlt => ?_⟩
    rw [tagAt_congr hinstance.message]
    exact hinstance.tags c hc hlt
  | @nested table nested outer inner innermost known below found hreached hnested hbelow hwalk
      hinner ih =>
    obtain ⟨-, htable, hknown, htags⟩ := ih
    have hbelowNested : ∀ tag ∈ nested.memberTags, tag ∈ table.memberTags := fun tag =>
      OwnedGroupTable.mem_memberTags_of_nested hnested
    have hinstance := instanceOf_of_walkGroup (htable.of_nested hnested)
      (fun tag htag => (hbelow tag).mpr (hbelowNested tag htag)) hwalk hinner
    refine ⟨hinstance, htable.of_nested hnested, fun tag htag =>
      ⟨(hbelow tag).mpr (hbelowNested tag htag), (hknown tag (hbelowNested tag htag)).2⟩,
      fun c hc hlt => ?_⟩
    rw [tagAt_congr hinstance.message]
    rcases hinstance.tags c hc hlt with htag | htag
    · exact Or.inl htag
    · -- not below the table around, so not a tag of it, so not known at the root
      have hrange := htags c (hinstance.start_le.trans hc) (hlt.trans_le hinstance.stop_le)
      exact Or.inr (hrange.resolve_left fun hmem => htag ((hbelow _).mpr hmem))

/-- Known tags that contain those of the table decide alike on fields of its tags and fields
that neither knows. -/
theorem contains_eq_contains {known known' : KnownTags} {tag : Tag}
    (htable : tag ∈ table.memberTags → tag ∈ known.tags ∧ tag ∈ known'.tags)
    (h : tag ∈ table.memberTags ∨ tag ∉ known.tags)
    (h' : tag ∈ table.memberTags ∨ tag ∉ known'.tags) :
    known.contains tag = known'.contains tag := by
  rw [Bool.eq_iff_iff, KnownTags.contains_iff, KnownTags.contains_iff]
  by_cases hmem : tag ∈ table.memberTags
  · exact iff_of_true (htable hmem).1 (htable hmem).2
  · exact iff_of_false (h.resolve_left hmem) (h'.resolve_left hmem)

/-- Walking a nested group from the scope of an instance, with the tags below the instance's
table, is walking it there with all the known tags. It is also the walk by which the loop
that found the instance passed over the nested group, so it ends at the same slot. -/
theorem walk_nested_agrees {root : OwnedGroupTable} {rootKnown : KnownTags}
    (hdistinct : root.Distinct)
    (hrootKnown : ∀ tag ∈ root.countTag :: root.memberTags, tag ∈ rootKnown.tags)
    {rootScope outer inner : Scope}
    (hreached : Reached root rootKnown rootScope table outer known inner)
    (hnested : nested ∈ table.nested) {below : KnownTags} (hbelow : Below below table) :
    inner.walkGroup nested below = inner.walkGroup nested rootKnown ∧
      ∀ c value, inner.find nested.countTag inner.start = some (c, value) →
        walk inner c nested below = walk inner c nested rootKnown ∧
        PassesOver outer known table nested c ∧
        walk inner c nested rootKnown = walk outer c nested known := by
  obtain ⟨hinstance, -, htable, htags⟩ := hreached.instanceOf hdistinct fun tag htag =>
    hrootKnown tag (List.mem_cons_of_mem _ htag)
  have hbelowRoot (c : ℕ) (hc : inner.start ≤ c) :
      walk inner c nested below = walk inner c nested rootKnown := by
    rw [walk_eq, walk_eq]
    congr 1
    refine walkFrom_known_congr fun s hs hlt => ?_
    have htag := htags s (by omega) hlt
    exact contains_eq_contains (fun hmem => ⟨(hbelow _).mpr hmem, (htable _ hmem).2⟩)
      (em _ |>.imp_right fun hnot hmem => hnot ((hbelow _).mp hmem)) htag
  refine ⟨?_, fun c value hfind => ?_⟩
  · rw [Scope.walkGroup, Scope.walkGroup]
    cases hfind : inner.find (Layout.countTag nested) inner.start with
    | none => rfl
    | some found =>
      obtain ⟨hc, -, -, -⟩ := Scope.of_find_eq_some hfind
      rw [Option.map_some, Option.map_some, hbelowRoot found.1 hc]
  · obtain ⟨hc, hlt, -, htag⟩ := Scope.of_find_eq_some hfind
    rw [tagAt_congr hinstance.message] at htag
    obtain ⟨hpasses, hend⟩ := hinstance.passes nested hnested c hc hlt htag
    refine ⟨hbelowRoot c hc, hpasses, ?_⟩
    -- the walk that passed over the nested group ends within the instance
    rw [walk_eq, Walk.of_slot] at hend
    rw [walk_eq, walk_eq, Walk.of_congr hinstance.message, Progress.start_congr hinstance.message,
      Scope.valueAt, Scope.fieldAt, hinstance.message, ← Scope.fieldAt, ← Scope.valueAt,
      ← walkFrom_narrow hinstance.message hinstance.stop_le hend]
    congr 1
    refine (walkFrom_known_congr fun s hs hsStop => ?_).symm
    have htag := hinstance.tags s (by omega) hsStop
    rw [← tagAt_congr hinstance.message] at htag
    exact contains_eq_contains (htable _) htag (htags s (by omega) hsStop)

/-- The tags a party can contain, at any depth. -/
def partyMemberTags : KnownTags where
  tags := [447, 448, 452, 523, 802, 803]
  sorted := by decide

/-- In the first of two parties the sub-identifiers are walked with the tags of a party. -/
theorem walk_nested_agrees_parties :
    (partiesMessage.scope.narrow 2 7).walkGroup noPartySubIds partyMemberTags =
        (partiesMessage.scope.narrow 2 7).walkGroup noPartySubIds partyTags ∧
      ∀ c value, (partiesMessage.scope.narrow 2 7).find noPartySubIds.countTag 2 =
          some (c, value) →
        walk (partiesMessage.scope.narrow 2 7) c noPartySubIds partyMemberTags =
            walk (partiesMessage.scope.narrow 2 7) c noPartySubIds partyTags ∧
          PassesOver partiesMessage.scope partyTags noPartyIds noPartySubIds c ∧
          walk (partiesMessage.scope.narrow 2 7) c noPartySubIds partyTags =
            walk partiesMessage.scope c noPartySubIds partyTags := by
  have hwalk : partiesMessage.scope.walkGroup noPartyIds partyTags = some ⟨some 2,
      [partiesMessage.scope.narrow 2 7, partiesMessage.scope.narrow 7 8], []⟩ := by
    decide +kernel
  have hbelow : Below partyMemberTags noPartyIds := fun tag => by
    change tag ∈ [447, 448, 452, 523, 802, 803] ↔ tag ∈ [447, 448, 452, 802, 523, 803]
    simp only [List.mem_cons, List.not_mem_nil, or_false]
    tauto
  exact walk_nested_agrees admits_noPartyIds.distinct (by decide)
    (.root hwalk List.mem_cons_self) (List.mem_singleton_self noPartySubIds) hbelow

end Refix.Message
