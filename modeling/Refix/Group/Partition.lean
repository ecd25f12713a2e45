import Refix.Group.Turns

/-!
# The Partition a Walk Makes

Whatever the message, the table and the known tags, the instances a walk finds are consecutive
runs of fields, from the first direct member behind the count field to the end of the group.
The loop keeps an invariant (`Loop`): the instances it has closed, the member tags of the open
one, and the anomalies of both.

A table may give one tag to several groups, so that a tag of the table can stand inside a
nested group as well. The fields of an instance are told apart by where they stand: one that
lies inside a nested group is passed over by the loop.
-/

namespace Refix.Message

open Refix.Foundation

variable {L : Type} [Layout L]

/-! ## Instances -/

/-- The slot lies inside a group nested in the instance that starts at `start`: behind the
count field of that group, and before its end. -/
def InsideNested (scope : Scope) (known : KnownTags) (table : L) (start slot : ℕ) : Prop :=
  ∃ countSlot nested, Visits scope known table start countSlot ∧
    turn scope known table countSlot = .nested nested ∧ countSlot < slot ∧
    slot < (walk scope countSlot nested known).2

/-- The fields from `start` up to `stop` are an instance of the group. -/
structure IsInstance (scope : Scope) (known : KnownTags) (table : L) (start stop : ℕ) :
    Prop where
  nonempty : start < stop
  member : Layout.isMember table (scope.tagAt start) = true
  /-- No direct member occurs twice. -/
  distinct : ∀ slot slot', start ≤ slot → slot < slot' → slot' < stop →
    Layout.isMember table (scope.tagAt slot) = true → scope.tagAt slot = scope.tagAt slot' →
    InsideNested scope known table start slot ∨ InsideNested scope known table start slot'
  noCheckSum : ∀ slot, start ≤ slot → slot < stop → scope.tagAt slot ≠ checkSum

/-- Instances one behind the other, from the first slot to the last. -/
inductive Instances (scope : Scope) (known : KnownTags) (table : L) :
    List Scope → ℕ → ℕ → Prop where
  | nil {slot : ℕ} : Instances scope known table [] slot slot
  | cons {start next stop : ℕ} {rest : List Scope}
      (hinstance : IsInstance scope known table start next)
      (hrest : Instances scope known table rest next stop) :
      Instances scope known table (scope.narrow start next :: rest) start stop

/-- The first field behind the count field that is a direct member of the table. -/
structure IsFirstMember (scope : Scope) (table : L) (countSlot first : ℕ) : Prop where
  lt : countSlot < first
  member : Layout.isMember table (scope.tagAt first) = true
  before : ∀ slot, countSlot < slot → slot < first →
    Layout.isMember table (scope.tagAt slot) = false

/-- One anomaly for each instance that starts with another tag than the delimiter. -/
def missingDelimiters (scope : Scope) (table : L) (starts : List ℕ) : List Anomaly :=
  starts.filterMap fun start =>
    if scope.tagAt start = Layout.delimiter table then none
    else some (.missingDelimiter (scope.tagAt start))

section Instances

variable {scope : Scope} {known : KnownTags} {table : L} {instances : List Scope}
  {first start stop slot next : ℕ}

theorem Instances.concat (h : Instances scope known table instances first start)
    (hinstance : IsInstance scope known table start stop) :
    Instances scope known table (instances ++ [scope.narrow start stop]) first stop := by
  induction h with
  | nil => exact .cons hinstance .nil
  | cons hhead _ ih => exact .cons hhead (ih hinstance)

theorem Instances.le (h : Instances scope known table instances first stop) : first ≤ stop := by
  induction h with
  | nil => exact le_rfl
  | cons hinstance _ ih => exact hinstance.nonempty.le.trans ih

@[simp] theorem missingDelimiters_append (starts starts' : List ℕ) :
    missingDelimiters scope table (starts ++ starts') =
      missingDelimiters scope table starts ++ missingDelimiters scope table starts' :=
  List.filterMap_append

theorem missingDelimiters_singleton :
    missingDelimiters scope table [start] =
      if scope.tagAt start ≠ Layout.delimiter table then
        [.missingDelimiter (scope.tagAt start)] else [] := by
  rw [missingDelimiters, List.filterMap_cons, List.filterMap_nil]
  split_ifs with hdelimiter
  · exact absurd hdelimiter (by assumption)
  all_goals rfl

theorem isMember_of_turn_eq_skip (h : turn scope known table slot = .skip) :
    Layout.isMember table (scope.tagAt slot) = false := by
  rw [turn] at h
  split at h
  · split at h
    · split at h <;> cases h
    · next hmember => exact Bool.eq_false_iff.mpr hmember
  · cases h

/-- The loop passes no CheckSum, in no nested group either. -/
theorem tagAt_ne_checkSum (progress : Progress) {c : ℕ} (hle : slot ≤ c)
    (hlt : c < (walkFrom scope known table slot progress).2) : scope.tagAt c ≠ checkSum := by
  induction table, slot, progress using walkFrom_induction (L := L) scope known with
  | done table slot progress hturn =>
    rw [walkFrom_eq, hturn] at hlt
    exact absurd hlt (Nat.not_lt.mpr hle)
  | skip table slot progress hturn ih =>
    rw [walkFrom_eq, hturn] at hlt
    have hslot := (lt_of_turn_ne_done (by rw [hturn]; exact fun h => by cases h)).2
    rcases hle.eq_or_lt with rfl | hgt
    · exact hslot
    · exact ih hgt hlt
  | member table slot progress hturn ih =>
    rw [walkFrom_eq, hturn] at hlt
    have hslot := (lt_of_turn_ne_done (by rw [hturn]; exact fun h => by cases h)).2
    rcases hle.eq_or_lt with rfl | hgt
    · exact hslot
    · exact ih hgt hlt
  | nested table slot progress nested hturn ihNested ih =>
    rw [walkFrom_eq, hturn] at hlt
    have hslot := (lt_of_turn_ne_done (by rw [hturn]; exact fun h => by cases h)).2
    rcases hle.eq_or_lt with rfl | hgt
    · exact hslot
    · rcases Nat.lt_or_ge c (walkFrom scope known nested (slot + 1) (.start scope slot)).2 with
        hin | hout
      · exact ihNested hgt hin
      · exact ih hout hlt

/-- A slot the loop comes to before the next turn is that of this turn, or earlier. -/
theorem Visits.le_of_lt_next {c : ℕ} (h : Visits scope known table start c)
    (hslot : Visits scope known table start slot)
    (hstep : nextSlot scope known table slot = some next) (hlt : c < next) : c ≤ slot := by
  by_contra hgt
  obtain ⟨next', hnext, hle⟩ := hslot.exists_next h (Nat.not_le.mp hgt)
  obtain rfl := Option.some.inj (hnext.symm.trans hstep)
  omega

end Instances

/-! ## The loop's invariant -/

/-- The instance that is open at `slot`, with the member tags seen in it. -/
structure OpenInstance (scope : Scope) (known : KnownTags) (table : L) (seen : List Tag)
    (start slot : ℕ) : Prop where
  visits : Visits scope known table start slot
  lt : start < slot
  member : Layout.isMember table (scope.tagAt start) = true
  mem_seen : ∀ c, Visits scope known table start c → c < slot →
    Layout.isMember table (scope.tagAt c) = true → scope.tagAt c ∈ seen
  distinct : ∀ c c', Visits scope known table start c → Visits scope known table start c' →
    c < c' → c' < slot → Layout.isMember table (scope.tagAt c) = true →
    scope.tagAt c ≠ scope.tagAt c'

/-- What the loop has found when it comes to `slot`. -/
inductive Found (scope : Scope) (known : KnownTags) (table : L) (countSlot : ℕ)
    (before : List Anomaly) (slot : ℕ) (progress : Progress) : Prop where
  /-- No member yet. -/
  | unopened (hstart : progress.instanceStart = none) (hinstances : progress.instances = [])
      (hanomalies : progress.anomalies = before)
      (hbefore : ∀ c, countSlot < c → c < slot →
        Layout.isMember table (scope.tagAt c) = false)
  /-- Closed instances, and an open one. -/
  | opened {first start : ℕ} (hstart : progress.instanceStart = some start)
      (hfirst : IsFirstMember scope table countSlot first)
      (hinstances : Instances scope known table progress.instances first start)
      (hopen : OpenInstance scope known table progress.seen start slot)
      (hanomalies : progress.anomalies = before ++
        missingDelimiters scope table (progress.instances.map (·.start) ++ [start]))

/-- The invariant of the loop that starts behind the count field. -/
structure Loop (scope : Scope) (known : KnownTags) (table : L) (countSlot : ℕ)
    (before : List Anomaly) (slot : ℕ) (progress : Progress) : Prop where
  lt : countSlot < slot
  noCheckSum : ∀ c, countSlot < c → c < slot → scope.tagAt c ≠ checkSum
  found : Found scope known table countSlot before slot progress

section Loop

variable {scope : Scope} {known : KnownTags} {table : L} {countSlot slot next : ℕ}
  {before : List Anomaly} {progress : Progress} {seen : List Tag} {start : ℕ}

/-- An open instance is an instance up to the slot the loop has come to. -/
theorem OpenInstance.isInstance (h : OpenInstance scope known table seen start slot)
    (hchecksum : ∀ c, start ≤ c → c < slot → scope.tagAt c ≠ checkSum) :
    IsInstance scope known table start slot where
  nonempty := h.lt
  member := h.member
  distinct := by
    intro c c' hle hlt hlt' hmember heq
    have hend := h.visits.le_end (.init [])
    have hinside {s : ℕ} (hs : start ≤ s) (hs' : s < slot) :
        Visits scope known table start s ∨ InsideNested scope known table start s := by
      refine (visits_or_nested scope known table start (.init []) hs (by omega)).imp_right ?_
      rintro ⟨countSlot, nested, hvisits, hturn, hbefore, hbehind⟩
      refine ⟨countSlot, nested, hvisits, hturn, hbefore, ?_⟩
      rwa [walk_eq, Walk.of_slot]
    rcases hinside hle (by omega) with hvisits | hnested
    · rcases hinside (by omega) hlt' with hvisits' | hnested'
      · -- both fields are direct ones
        exact absurd heq (h.distinct c c' hvisits hvisits' hlt hlt' hmember)
      · exact Or.inr hnested'
    · exact Or.inl hnested
  noCheckSum := hchecksum

/-- A field that is passed over stays in the open instance. -/
theorem OpenInstance.skip (h : OpenInstance scope known table seen start slot)
    (hturn : turn scope known table slot = .skip) :
    OpenInstance scope known table seen start (slot + 1) := by
  have hstep : nextSlot scope known table slot = some (slot + 1) := by rw [nextSlot, hturn]
  have hmember := isMember_of_turn_eq_skip hturn
  refine ⟨h.visits.tail hstep, h.lt.trans (Nat.lt_succ_self slot), h.member, ?_, ?_⟩
  · intro c hvisits hlt hmem
    rcases Nat.lt_succ_iff_lt_or_eq.mp hlt with hlt | rfl
    · exact h.mem_seen c hvisits hlt hmem
    · rw [hmember] at hmem
      cases hmem
  · intro c c' hvisits hvisits' hlt hlt' hmem heq
    rcases Nat.lt_succ_iff_lt_or_eq.mp hlt' with hlt' | rfl
    · exact h.distinct c c' hvisits hvisits' hlt hlt' hmem heq
    · rw [← heq, hmem] at hmember
      cases hmember

/-- A member that was not seen yet enters the open instance. -/
theorem OpenInstance.enter (h : OpenInstance scope known table seen start slot)
    (hstep : nextSlot scope known table slot = some next) (hnew : scope.tagAt slot ∉ seen) :
    OpenInstance scope known table (seen ++ [scope.tagAt slot]) start next := by
  have hnext := lt_of_nextSlot hstep
  refine ⟨h.visits.tail hstep, h.lt.trans hnext, h.member, ?_, ?_⟩
  · intro c hvisits hlt hmem
    rcases (hvisits.le_of_lt_next h.visits hstep hlt).eq_or_lt with rfl | hlt
    · simp
    · exact List.mem_append_left _ (h.mem_seen c hvisits hlt hmem)
  · intro c c' hvisits hvisits' hlt hlt' hmem heq
    rcases (hvisits'.le_of_lt_next h.visits hstep hlt').eq_or_lt with rfl | hlt'
    · exact hnew (heq ▸ h.mem_seen c hvisits hlt hmem)
    · exact h.distinct c c' hvisits hvisits' hlt hlt' hmem heq

/-- A member starts an instance. -/
theorem OpenInstance.of_member (hstep : nextSlot scope known table slot = some next)
    (hmember : Layout.isMember table (scope.tagAt slot) = true) :
    OpenInstance scope known table [scope.tagAt slot] slot next := by
  have honly : ∀ c, Visits scope known table slot c → c < next → c = slot := fun c hvisits hlt =>
    Nat.le_antisymm (hvisits.le_of_lt_next .refl hstep hlt) hvisits.le
  refine ⟨.single hstep, lt_of_nextSlot hstep, hmember, ?_, ?_⟩
  · intro c hvisits hlt _
    rw [honly c hvisits hlt]
    exact List.mem_singleton_self _
  · intro c c' hvisits hvisits' hlt hlt' _
    rw [honly c hvisits (hlt.trans hlt'), honly c' hvisits' hlt'] at hlt
    exact absurd hlt (Nat.lt_irrefl _)

/-- The anomalies of an instance that starts at the slot are those of its start. -/
theorem Progress.enter_eq (progress : Progress) (tag : Tag) :
    progress.enter scope table slot tag =
      if progress.instanceStart = none ∨ tag ∈ progress.seen then
        ⟨progress.close scope slot, some slot, [tag], progress.anomalies ++
          if tag ≠ Layout.delimiter table then [.missingDelimiter tag] else []⟩
      else ⟨progress.instances, progress.instanceStart, progress.seen ++ [tag],
        progress.anomalies⟩ := by
  rw [Progress.enter]
  split
  · split <;> simp
  · rfl

/-- The instances that are closed once the open one ends at the slot. -/
theorem Found.close (h : Found scope known table countSlot before slot progress)
    (hchecksum : ∀ c, countSlot < c → c < slot → scope.tagAt c ≠ checkSum) :
    (progress.instanceStart = none ∧ progress.close scope slot = [] ∧
        progress.anomalies = before ∧
        ∀ c, countSlot < c → c < slot → Layout.isMember table (scope.tagAt c) = false) ∨
      ∃ first, IsFirstMember scope table countSlot first ∧
        Instances scope known table (progress.close scope slot) first slot ∧
        progress.close scope slot ≠ [] ∧
        progress.anomalies = before ++
          missingDelimiters scope table ((progress.close scope slot).map (·.start)) := by
  cases h with
  | unopened hstart hinstances hanomalies hbefore =>
    refine Or.inl ⟨hstart, ?_, hanomalies, hbefore⟩
    rw [Progress.close, hstart]
    exact hinstances
  | @opened first start hstart hfirst hinstances hopen hanomalies =>
    have hclose : progress.close scope slot =
        progress.instances ++ [scope.narrow start slot] := by rw [Progress.close, hstart]
    have hinstance : IsInstance scope known table start slot :=
      hopen.isInstance fun c hc =>
        hchecksum c (hfirst.lt.trans_le (hinstances.le.trans hc))
    refine Or.inr ⟨first, hfirst, ?_, ?_, ?_⟩
    · rw [hclose]
      exact hinstances.concat hinstance
    · rw [hclose]
      simp
    · rw [hclose, hanomalies, List.map_append]
      rfl

/-- What a member's turn makes of the loop's variables. -/
theorem Loop.enter (h : Loop scope known table countSlot before slot progress)
    (hmember : Layout.isMember table (scope.tagAt slot) = true)
    (hstep : nextSlot scope known table slot = some next)
    (hchecksum : ∀ c, slot ≤ c → c < next → scope.tagAt c ≠ checkSum) :
    Loop scope known table countSlot before next
      (progress.enter scope table slot (scope.tagAt slot)) := by
  refine ⟨h.lt.trans (lt_of_nextSlot hstep), ?_, ?_⟩
  · intro c hc hlt
    rcases Nat.lt_or_ge c slot with hbefore | hbehind
    · exact h.noCheckSum c hc hbefore
    · exact hchecksum c hbehind hlt
  rw [Progress.enter_eq]
  by_cases hstarts : progress.instanceStart = none ∨ scope.tagAt slot ∈ progress.seen
  · rw [if_pos hstarts]
    have hopen := OpenInstance.of_member hstep hmember
    rcases h.found.close h.noCheckSum with
      ⟨-, hclose, hanomalies, hbefore⟩ | ⟨first, hfirst, hinstances, -, hanomalies⟩
    · refine .opened rfl ⟨h.lt, hmember, hbefore⟩ ?_ hopen ?_
      · rw [hclose]
        exact .nil
      · rw [hclose, List.map_nil, List.nil_append, missingDelimiters_singleton, hanomalies]
    · refine .opened rfl hfirst hinstances hopen ?_
      rw [missingDelimiters_append, missingDelimiters_singleton, hanomalies, List.append_assoc]
  · rw [if_neg hstarts]
    simp only [not_or] at hstarts
    cases h.found with
    | unopened hstart => exact absurd hstart hstarts.1
    | opened hstart hfirst hinstances hopen hanomalies =>
      exact .opened hstart hfirst hinstances (hopen.enter hstep hstarts.2) hanomalies

/-- A field that is passed over changes nothing. -/
theorem Loop.skip (h : Loop scope known table countSlot before slot progress)
    (hturn : turn scope known table slot = .skip) :
    Loop scope known table countSlot before (slot + 1) progress := by
  refine ⟨h.lt.trans (Nat.lt_succ_self slot), ?_, ?_⟩
  · intro c hc hlt
    rcases Nat.lt_succ_iff_lt_or_eq.mp hlt with hlt | rfl
    · exact h.noCheckSum c hc hlt
    · exact (lt_of_turn_ne_done (by rw [hturn]; exact fun h => by cases h)).2
  cases h.found with
  | unopened hstart hinstances hanomalies hbefore =>
    refine .unopened hstart hinstances hanomalies ?_
    intro c hc hlt
    rcases Nat.lt_succ_iff_lt_or_eq.mp hlt with hlt | rfl
    · exact hbefore c hc hlt
    · exact isMember_of_turn_eq_skip hturn
  | opened hstart hfirst hinstances hopen hanomalies =>
    exact .opened hstart hfirst hinstances (hopen.skip hturn) hanomalies

/-- **The loop keeps its invariant** to the end of the group. -/
theorem Loop.walkFrom (h : Loop scope known table countSlot before slot progress) :
    Loop scope known table countSlot before
      (walkFrom scope known table slot progress).2 (walkFrom scope known table slot progress).1 := by
  -- the variables of a nested group's loop are its own, so only this loop's turns count
  suffices hall : ∀ (table : L) slot progress,
      Loop scope known table countSlot before slot progress →
      Loop scope known table countSlot before (Message.walkFrom scope known table slot progress).2
        (Message.walkFrom scope known table slot progress).1 from hall table slot progress h
  clear h
  intro table slot progress
  induction table, slot, progress using walkFrom_induction (L := L) scope known with
  | done table slot progress hturn =>
    intro h
    rw [walkFrom_eq, hturn]
    exact h
  | skip table slot progress hturn ih =>
    intro h
    rw [walkFrom_eq, hturn]
    exact ih (h.skip hturn)
  | member table slot progress hturn ih =>
    intro h
    rw [walkFrom_eq, hturn]
    have hslot := (lt_of_turn_ne_done (by rw [hturn]; exact fun h => by cases h)).2
    refine ih (h.enter (isMember_of_turn_eq_member hturn) (by rw [nextSlot, hturn]) ?_)
    intro c hle hlt
    rwa [show c = slot by omega]
  | nested table slot progress nested hturn _ ih =>
    intro h
    rw [walkFrom_eq, hturn]
    have hslot := (lt_of_turn_ne_done (by rw [hturn]; exact fun h => by cases h)).2
    refine ih (h.enter (turn_eq_nested hturn).1 (by rw [nextSlot, hturn]) ?_)
    intro c hle hlt
    rcases hle.eq_or_lt with rfl | hgt
    · exact hslot
    · exact tagAt_ne_checkSum _ hgt hlt

end Loop

/-! ## The fields a walk reads -/

/-- The same slots of another message. -/
def Scope.on (scope : Scope) (message : RawMessage) : Scope := { scope with message := message }

/-- The message has the fields of the scope at their slots. -/
structure Scope.Agrees (scope : Scope) (message : RawMessage) : Prop where
  stop_le : scope.stop ≤ message.fields.length
  tagAt_eq : ∀ slot, scope.start ≤ slot → slot < scope.stop →
    (scope.on message).tagAt slot = scope.tagAt slot
  valueAt_eq : ∀ slot, scope.start ≤ slot → slot < scope.stop →
    (scope.on message).valueAt slot = scope.valueAt slot

def Progress.on (progress : Progress) (message : RawMessage) : Progress :=
  { progress with instances := progress.instances.map (·.on message) }

def Walk.on (walk : Walk) (message : RawMessage) : Walk :=
  { walk with instances := walk.instances.map (·.on message) }

section Reads

variable {scope : Scope} {message : RawMessage} {known : KnownTags} {table : L} {slot : ℕ}
  {progress : Progress}

theorem Progress.close_on (progress : Progress) (slot : ℕ) :
    (progress.on message).close (scope.on message) slot =
      (progress.close scope slot).map (·.on message) := by
  obtain ⟨instances, start, seen, anomalies⟩ := progress
  cases start with
  | none => rfl
  | some start =>
    simp only [Progress.close, Progress.on, List.map_append, List.map_singleton]
    rfl

theorem Progress.enter_on (progress : Progress) (tag : Tag) :
    (progress.on message).enter (scope.on message) table slot tag =
      (progress.enter scope table slot tag).on message := by
  by_cases hstarts : progress.instanceStart = none ∨ tag ∈ progress.seen
  · have hstarts' : (progress.on message).instanceStart = none ∨ tag ∈ (progress.on message).seen :=
      hstarts
    rw [Progress.enter, Progress.enter, if_pos hstarts, if_pos hstarts', Progress.close_on]
    rfl
  · have hstarts' : ¬ ((progress.on message).instanceStart = none ∨
        tag ∈ (progress.on message).seen) := hstarts
    rw [Progress.enter, Progress.enter, if_neg hstarts, if_neg hstarts']
    rfl

theorem Walk.of_on (declaredCount : Option ℕ) (result : Progress × ℕ) :
    Walk.of (scope.on message) declaredCount (result.1.on message, result.2) =
      ((Walk.of scope declaredCount result).1.on message, result.2) := by
  simp only [Walk.of, Walk.on, Progress.close_on, List.length_map]
  rfl

theorem Progress.start_on (hagrees : scope.Agrees message) (hle : scope.start ≤ slot)
    (hlt : slot < scope.stop) :
    Progress.start (scope.on message) slot = (Progress.start scope slot).on message := by
  rw [Progress.start, Progress.start, hagrees.valueAt_eq slot hle hlt]
  rfl

theorem turn_on (hagrees : scope.Agrees message) (hle : scope.start ≤ slot) :
    turn (scope.on message) known table slot = turn scope known table slot := by
  by_cases hlt : slot < scope.stop
  · simp only [turn, hagrees.tagAt_eq slot hle hlt]
    rfl
  · have hlt' : ¬ slot < (scope.on message).stop := hlt
    simp only [turn, hlt, hlt', false_and, if_false]

/-- The loop makes the same of every message that has the fields of the scope. -/
theorem walkFrom_on (hagrees : scope.Agrees message) (hle : scope.start ≤ slot) :
    walkFrom (scope.on message) known table slot (progress.on message) =
      ((walkFrom scope known table slot progress).1.on message,
        (walkFrom scope known table slot progress).2) := by
  induction table, slot, progress using walkFrom_induction (L := L) scope known with
  | done table slot progress hturn =>
    rw [walkFrom_eq, walkFrom_eq scope, turn_on hagrees hle, hturn]
  | skip table slot progress hturn ih =>
    rw [walkFrom_eq, walkFrom_eq scope, turn_on hagrees hle, hturn]
    exact ih (by omega)
  | member table slot progress hturn ih =>
    have hlt := (lt_of_turn_ne_done (by rw [hturn]; exact fun h => by cases h)).1
    rw [walkFrom_eq, walkFrom_eq scope, turn_on hagrees hle, hturn]
    dsimp only
    rw [hagrees.tagAt_eq slot hle hlt, Progress.enter_on]
    exact ih (by omega)
  | nested table slot progress nested hturn ihNested ih =>
    have hlt := (lt_of_turn_ne_done (by rw [hturn]; exact fun h => by cases h)).1
    have hnext := le_walkFrom scope known nested (slot + 1) (.start scope slot)
    rw [walkFrom_eq, walkFrom_eq scope, turn_on hagrees hle, hturn]
    dsimp only
    rw [hagrees.tagAt_eq slot hle hlt, Progress.enter_on, Progress.start_on hagrees hle hlt,
      ihNested (by omega)]
    exact ih (by omega)

theorem walk_on (hagrees : scope.Agrees message) (hle : scope.start ≤ slot)
    (hlt : slot < scope.stop) :
    walk (scope.on message) slot table known =
      ((walk scope slot table known).1.on message, (walk scope slot table known).2) := by
  rw [walk_eq, walk_eq, Progress.start_on hagrees hle hlt, walkFrom_on hagrees (by omega),
    hagrees.valueAt_eq slot hle hlt, Walk.of_on]
  rfl

/-- The tags of a scope's fields. -/
def Scope.tags (scope : Scope) : List Tag :=
  ((scope.message.fields.take scope.stop).drop scope.start).map (·.tag)

theorem Scope.getElem?_tags (hstop : scope.stop ≤ scope.message.fields.length) (i : ℕ) :
    scope.tags[i]? =
      if scope.start + i < scope.stop then some (scope.tagAt (scope.start + i)) else none := by
  rw [Scope.tags, List.getElem?_map, List.getElem?_drop]
  split
  · next hlt =>
    rw [List.getElem?_take_of_lt hlt, Scope.tagAt, Scope.fieldAt,
      List.getElem?_eq_getElem (by omega), Option.getD_some, Option.map_some]
  · next hge =>
    rw [List.getElem?_eq_none (by rw [List.length_take]; omega), Option.map_none]

theorem Scope.find_start (hfits : scope.Fits) (tag : Tag) :
    scope.find tag scope.start = (scope.tags.findIdx? (· == tag)).map
      fun offset => (scope.start + offset, scope.valueAt (scope.start + offset)) := by
  rw [Scope.find, if_pos ⟨hfits.start_le, hfits.stop_le⟩, Scope.tags, List.findIdx?_map]
  rfl

/-- The search for the count field, too, sees the fields of the scope alone. -/
theorem find_on (hfits : scope.Fits) (hagrees : scope.Agrees message) (tag : Tag) :
    (scope.on message).find tag scope.start = scope.find tag scope.start := by
  have hfits' : (scope.on message).Fits := ⟨hfits.start_le, hagrees.stop_le⟩
  have htags : (scope.on message).tags = scope.tags := by
    apply List.ext_getElem?
    intro i
    rw [Scope.getElem?_tags hfits'.stop_le, Scope.getElem?_tags hfits.stop_le]
    by_cases hlt : scope.start + i < scope.stop
    · have hlt' : (scope.on message).start + i < (scope.on message).stop := hlt
      rw [if_pos hlt, if_pos hlt']
      exact congrArg some (hagrees.tagAt_eq _ (Nat.le_add_right _ _) hlt)
    · have hlt' : ¬ (scope.on message).start + i < (scope.on message).stop := hlt
      rw [if_neg hlt, if_neg hlt']
  have hfind := Scope.find_start hfits' tag
  rw [htags] at hfind
  refine hfind.trans ?_
  rw [Scope.find_start hfits]
  cases hindex : scope.tags.findIdx? (· == tag) with
  | none => rfl
  | some offset =>
    have hlt : scope.start + offset < scope.stop := by
      obtain ⟨hlength, -⟩ := List.findIdx?_eq_some_iff_getElem.mp hindex
      simp only [Scope.tags, List.length_map, List.length_drop, List.length_take] at hlength
      omega
    have hvalue := hagrees.valueAt_eq _ (Nat.le_add_right _ _) hlt
    simp only [Option.map_some]
    exact congrArg (fun value => some (scope.start + offset, value)) hvalue

/-- **A walk reads no slot outside its scope**: it makes the same of every message that has
the fields of the scope. -/
theorem walkGroup_on (hfits : scope.Fits) (hagrees : scope.Agrees message) :
    (scope.on message).walkGroup table known =
      (scope.walkGroup table known).map (·.on message) := by
  rw [Scope.walkGroup, Scope.walkGroup]
  rw [show (scope.on message).start = scope.start from rfl, find_on hfits hagrees]
  cases hfind : scope.find (Layout.countTag table) scope.start with
  | none => rfl
  | some found =>
    obtain ⟨slot, value⟩ := found
    obtain ⟨hle, hlt, -, -⟩ := Scope.of_find_eq_some hfind
    simp only [Option.map_some, walk_on hagrees hle hlt]

end Reads

/-! ## The walk of a group -/

/-- An anomaly when a count differs from the number of instances. -/
def countMismatch (declaredCount : Option ℕ) (found : ℕ) : List Anomaly :=
  match declaredCount with
  | some declared => if declared ≠ found then [.countMismatch declared found] else []
  | none => []

/-- What a walk that ends at `stop` finds behind the count field. -/
structure Partitioned (scope : Scope) (known : KnownTags) (table : L) (countSlot : ℕ)
    (found : Walk) (stop : ℕ) : Prop where
  lt : countSlot < stop
  le : stop ≤ scope.stop
  /-- The end of the scope, CheckSum, or a known tag outside the table ends the group. -/
  ends : stop = scope.stop ∨ scope.tagAt stop = checkSum ∨
    Layout.isMember table (scope.tagAt stop) = false ∧ scope.tagAt stop ∈ known.tags
  /-- There is an instance unless no direct member follows. -/
  instances : (found.instances = [] ∧ ∀ slot, countSlot < slot → slot < stop →
      Layout.isMember table (scope.tagAt slot) = false) ∨
    ∃ first, IsFirstMember scope table countSlot first ∧ found.instances ≠ [] ∧
      Instances scope known table found.instances first stop
  declaredCount : ∀ n, found.declaredCount = some n ↔
    Counts (scope.valueAt countSlot) n ∧ n ≤ usizeMax
  anomalies : found.anomalies =
    (if found.declaredCount = none then [.invalidCount] else []) ++
    missingDelimiters scope table (found.instances.map (·.start)) ++
    countMismatch found.declaredCount found.instances.length

section Walk

variable {scope : Scope} {known : KnownTags} {table : L} {countSlot : ℕ}

theorem ends_of_turn_eq_done {slot : ℕ} (h : turn scope known table slot = .done)
    (hle : slot ≤ scope.stop) :
    slot = scope.stop ∨ scope.tagAt slot = checkSum ∨
      Layout.isMember table (scope.tagAt slot) = false ∧ scope.tagAt slot ∈ known.tags := by
  rw [turn] at h
  split at h
  · split at h
    · split at h <;> cases h
    · next hmember =>
      split at h
      · next hknown =>
        exact Or.inr (Or.inr ⟨Bool.eq_false_iff.mpr hmember, KnownTags.contains_iff.mp hknown⟩)
      · cases h
  · next hnot =>
    rw [not_and_or, not_not, Nat.not_lt] at hnot
    exact hnot.imp (Nat.le_antisymm hle) Or.inl

theorem turn_eq_done_of_nextSlot {slot : ℕ} (h : nextSlot scope known table slot = none) :
    turn scope known table slot = .done := by
  rw [nextSlot] at h
  split at h
  · next hturn => exact hturn
  all_goals cases h

/-- **The walk of a group** partitions its fields. -/
theorem walk_partitioned (scope : Scope) (known : KnownTags) (table : L)
    (hcount : countSlot < scope.stop) :
    Partitioned scope known table countSlot (walk scope countSlot table known).1
      (walk scope countSlot table known).2 := by
  -- The invariant of the loop holds behind the count, and so where the walk is done.
  have hstart : Loop scope known table countSlot (Progress.start scope countSlot).anomalies
      (countSlot + 1) (.start scope countSlot) :=
    ⟨Nat.lt_succ_self _, fun c hc hlt => by omega,
      .unopened rfl rfl rfl fun c hc hlt => by omega⟩
  have hend := hstart.walkFrom
  have hle : (walkFrom scope known table (countSlot + 1) (.start scope countSlot)).2 ≤
      scope.stop := walkFrom_le_stop _ hcount
  have hdone := turn_eq_done_of_nextSlot
    (visits_end scope known table (countSlot + 1) (.start scope countSlot)).2
  rw [walk_eq]
  generalize walkFrom scope known table (countSlot + 1) (.start scope countSlot) = result
    at hend hle hdone
  have hclosed := hend.found.close hend.noCheckSum
  -- The anomalies are that of the count and those of the instances that lack their delimiter.
  have hanomalies : result.1.anomalies =
      (if parseCount (scope.valueAt countSlot) = none then [.invalidCount] else []) ++
        missingDelimiters scope table ((result.1.close scope result.2).map (·.start)) := by
    rcases hclosed with ⟨-, hclose, hanomalies, -⟩ | ⟨_, -, -, -, hanomalies⟩
    · rw [hanomalies, hclose]
      exact (List.append_nil _).symm
    · exact hanomalies
  refine ⟨hend.lt, hle, ends_of_turn_eq_done hdone hle, ?_, fun n => parseCount_eq_some_iff, ?_⟩
  · rcases hclosed with ⟨-, hclose, -, hbefore⟩ | ⟨first, hfirst, hinstances, hne, -⟩
    · exact Or.inl ⟨hclose, hbefore⟩
    · exact Or.inr ⟨first, hfirst, hne, hinstances⟩
  · cases hdeclared : parseCount (scope.valueAt countSlot) with
    | none => simp [Walk.of, countMismatch, hanomalies, hdeclared]
    | some declared =>
      by_cases hmatch : declared = (result.1.close scope result.2).length <;>
        simp [Walk.of, countMismatch, hanomalies, hdeclared, hmatch]

/-- **A group walk partitions its fields**, for every message, scope, table and known tags: it
ends by itself, finds consecutive instances and the anomalies of these, and reads no field
outside its scope. -/
theorem walkGroup_partitions (scope : Scope) (table : L) (known : KnownTags) :
    (scope.walkGroup table known = none ↔
      scope.find (Layout.countTag table) scope.start = none) ∧
    (∀ found, scope.walkGroup table known = some found →
      ∃ countSlot value stop,
        scope.find (Layout.countTag table) scope.start = some (countSlot, value) ∧
        scope.start ≤ countSlot ∧ walk scope countSlot table known = (found, stop) ∧
        Partitioned scope known table countSlot found stop ∧
        ∀ fuel, scope.stop - countSlot ≤ fuel →
          Walk.of scope (parseCount (scope.valueAt countSlot))
            (walkFields scope known fuel table (countSlot + 1) (.start scope countSlot)) =
            (found, stop)) ∧
    (∀ group, scope.getGroup table known = .ok (some group) ↔
      ∃ found, scope.walkGroup table known = some found ∧ found.anomalies = [] ∧
        group.instances = found.instances) ∧
    (scope.Fits → ∀ message, scope.Agrees message →
      (scope.on message).walkGroup table known =
        (scope.walkGroup table known).map (·.on message)) := by
  refine ⟨?_, ?_, ?_, fun hfits message hagrees => walkGroup_on hfits hagrees⟩
  · rw [Scope.walkGroup, Option.map_eq_none_iff]
  · intro found h
    obtain ⟨⟨countSlot, value⟩, hfind, rfl⟩ := Option.map_eq_some_iff.mp h
    obtain ⟨hle, hlt, -, -⟩ := Scope.of_find_eq_some hfind
    refine ⟨countSlot, value, _, hfind, hle, rfl, walk_partitioned scope known table hlt, ?_⟩
    -- A turn moves the slot on, so the fields behind the count are fuel enough.
    intro fuel hfuel
    rw [walkFields_eq_walkFrom (by omega), ← walk_eq]
    rfl
  · intro group
    rw [Scope.getGroup]
    cases scope.walkGroup table known with
    | none => simp
    | some found =>
      obtain ⟨instances⟩ := group
      by_cases hclean : found.anomalies = []
      · simp [hclean, eq_comm]
      · simp [hclean]

end Walk

end Refix.Message
