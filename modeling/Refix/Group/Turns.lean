import Refix.Group.Walk

/-!
# The Turns of the Walker's Loop

What one turn of the loop does depends on the field at the slot, the table and the known
tags alone. So the slots the loop comes to are the iterates of one function, whatever the
instances found so far, and the loop of a group is the same in every scope that holds it.
-/

namespace Refix.Message

open Refix.Foundation

/-! ## Turns -/

/-- What the loop does at a slot. -/
inductive Turn (L : Type) where
  | done
  | skip
  | member
  | nested (table : L)

variable {L : Type} [Layout L]

/-- The turn of the loop at `slot`. -/
def turn (scope : Scope) (known : KnownTags) (table : L) (slot : ℕ) : Turn L :=
  if slot < scope.stop ∧ scope.tagAt slot ≠ checkSum then
    if Layout.isMember table (scope.tagAt slot) then
      match Layout.nestedCountedBy table (scope.tagAt slot) with
      | some nested => .nested nested
      | none => .member
    else if known.contains (scope.tagAt slot) then .done
    else .skip
  else .done

variable {scope inner : Scope} {known known' : KnownTags} {table : L} {slot : ℕ}
  {progress : Progress}

/-- The loop, turn by turn. -/
theorem walkFrom_eq (scope : Scope) (known : KnownTags) (table : L) (slot : ℕ)
    (progress : Progress) :
    walkFrom scope known table slot progress =
      match turn scope known table slot with
      | .done => (progress, slot)
      | .skip => walkFrom scope known table (slot + 1) progress
      | .member => walkFrom scope known table (slot + 1)
          (progress.enter scope table slot (scope.tagAt slot))
      | .nested nested => walkFrom scope known table
          (walkFrom scope known nested (slot + 1) (.start scope slot)).2
          (progress.enter scope table slot (scope.tagAt slot)) := by
  rcases Nat.lt_or_ge slot scope.stop with hlt | hge
  · rw [walkFrom_of_lt hlt, turn]
    by_cases hcheck : scope.tagAt slot = checkSum
    · simp only [hcheck, if_true, ne_eq, not_true_eq_false, and_false, if_false]
    · simp only [hcheck, hlt, if_true, if_false, ne_eq, not_false_eq_true, and_self]
      by_cases hmember : Layout.isMember table (scope.tagAt slot) = true
      · simp only [hmember, if_true]
        cases Layout.nestedCountedBy table (scope.tagAt slot) <;> rfl
      · by_cases hknown : known.contains (scope.tagAt slot) = true <;>
          simp only [hmember, hknown, Bool.false_eq_true, if_true, if_false]
  · rw [walkFrom_of_le hge, turn, if_neg (fun h => absurd h.1 (Nat.not_lt.mpr hge))]

theorem lt_of_turn_ne_done (h : turn scope known table slot ≠ .done) :
    slot < scope.stop ∧ scope.tagAt slot ≠ checkSum := by
  by_contra hnot
  exact h (by rw [turn, if_neg hnot])

theorem not_mem_of_turn_eq_skip (h : turn scope known table slot = .skip) :
    scope.tagAt slot ∉ known.tags := by
  rw [turn] at h
  split at h
  · split at h
    · split at h <;> cases h
    · split at h
      · cases h
      · next hknown => exact fun hmem => hknown (KnownTags.contains_iff.mpr hmem)
  · cases h

theorem isMember_of_turn_eq_member (h : turn scope known table slot = .member) :
    Layout.isMember table (scope.tagAt slot) = true := by
  rw [turn] at h
  split at h
  · split at h
    · next hmember => exact hmember
    · split at h <;> cases h
  · cases h

theorem turn_eq_nested {nested : L} (h : turn scope known table slot = .nested nested) :
    Layout.isMember table (scope.tagAt slot) = true ∧
      Layout.nestedCountedBy table (scope.tagAt slot) = some nested := by
  rw [turn] at h
  split at h
  · split at h
    · next hmember =>
      split at h
      · next found hfound =>
        cases h
        exact ⟨hmember, hfound⟩
      · cases h
    · split at h <;> cases h
  · cases h

/-- The loop never goes back. -/
theorem le_walkFrom (scope : Scope) (known : KnownTags) (table : L) (slot : ℕ)
    (progress : Progress) : slot ≤ (walkFrom scope known table slot progress).2 :=
  le_walkFields scope known _ table slot progress

/-- Induction along the loop: over its turns, and over the loops of nested groups. -/
theorem walkFrom_induction (scope : Scope) (known : KnownTags)
    {motive : L → ℕ → Progress → Prop}
    (done : ∀ table slot progress, turn scope known table slot = .done →
      motive table slot progress)
    (skip : ∀ table slot progress, turn scope known table slot = .skip →
      motive table (slot + 1) progress → motive table slot progress)
    (member : ∀ table slot progress, turn scope known table slot = .member →
      motive table (slot + 1) (progress.enter scope table slot (scope.tagAt slot)) →
      motive table slot progress)
    (nested : ∀ table slot progress nested, turn scope known table slot = .nested nested →
      motive nested (slot + 1) (.start scope slot) →
      motive table (walkFrom scope known nested (slot + 1) (.start scope slot)).2
        (progress.enter scope table slot (scope.tagAt slot)) →
      motive table slot progress)
    (table : L) (slot : ℕ) (progress : Progress) : motive table slot progress := by
  -- every turn but the last consumes a field
  induction hleft : scope.stop - slot using Nat.strong_induction_on generalizing table slot progress
    with
  | _ left ih =>
    cases hturn : turn scope known table slot with
    | done => exact done _ _ _ hturn
    | skip =>
      have hlt := (lt_of_turn_ne_done (by rw [hturn]; exact fun h => by cases h)).1
      exact skip _ _ _ hturn (ih _ (by omega) _ _ _ rfl)
    | member =>
      have hlt := (lt_of_turn_ne_done (by rw [hturn]; exact fun h => by cases h)).1
      exact member _ _ _ hturn (ih _ (by omega) _ _ _ rfl)
    | nested inner =>
      have hlt := (lt_of_turn_ne_done (by rw [hturn]; exact fun h => by cases h)).1
      have hle := le_walkFrom scope known inner (slot + 1) (.start scope slot)
      exact nested _ _ _ _ hturn (ih _ (by omega) _ _ _ rfl) (ih _ (by omega) _ _ _ rfl)

/-! ## The slots the loop comes to -/

/-- The slot of the next turn. -/
def nextSlot (scope : Scope) (known : KnownTags) (table : L) (slot : ℕ) : Option ℕ :=
  match turn scope known table slot with
  | .done => none
  | .skip => some (slot + 1)
  | .member => some (slot + 1)
  | .nested nested => some (walkFrom scope known nested (slot + 1) (.start scope slot)).2

/-- The loop that starts at one slot comes to the other. -/
def Visits (scope : Scope) (known : KnownTags) (table : L) : ℕ → ℕ → Prop :=
  Relation.ReflTransGen fun slot next => nextSlot scope known table slot = some next

theorem lt_of_nextSlot {next : ℕ} (h : nextSlot scope known table slot = some next) :
    slot < next := by
  rw [nextSlot] at h
  split at h
  · cases h
  · cases h
    exact Nat.lt_succ_self slot
  · cases h
    exact Nat.lt_succ_self slot
  · cases h
    exact le_walkFrom scope known _ (slot + 1) _

theorem Visits.le {start : ℕ} (h : Visits scope known table start slot) : start ≤ slot := by
  induction h with
  | refl => exact le_rfl
  | tail _ hnext ih => exact ih.trans (lt_of_nextSlot hnext).le

/-- The loop ends at a slot it comes to, and has no turn there. -/
theorem visits_end (scope : Scope) (known : KnownTags) (table : L) (slot : ℕ)
    (progress : Progress) :
    Visits scope known table slot (walkFrom scope known table slot progress).2 ∧
      nextSlot scope known table (walkFrom scope known table slot progress).2 = none := by
  induction table, slot, progress using walkFrom_induction (L := L) scope known with
  | done table slot progress hturn =>
    rw [walkFrom_eq, hturn]
    exact ⟨.refl, by rw [nextSlot, hturn]⟩
  | skip table slot progress hturn ih =>
    rw [walkFrom_eq, hturn]
    exact ⟨.head (by rw [nextSlot, hturn]) ih.1, ih.2⟩
  | member table slot progress hturn ih =>
    rw [walkFrom_eq, hturn]
    exact ⟨.head (by rw [nextSlot, hturn]) ih.1, ih.2⟩
  | nested table slot progress nested hturn _ ih =>
    rw [walkFrom_eq, hturn]
    exact ⟨.head (by rw [nextSlot, hturn]) ih.1, ih.2⟩

/-- From a slot the loop comes to, it goes on to the ones it comes to later. -/
theorem Visits.exists_next {start other : ℕ} (h : Visits scope known table start slot)
    (hother : Visits scope known table start other) (hlt : slot < other) :
    ∃ next, nextSlot scope known table slot = some next ∧ next ≤ other := by
  have hunique : Relator.RightUnique
      fun slot next => nextSlot scope known table slot = some next :=
    fun a b c hb hc => Option.some.inj (hb.symm.trans hc)
  rcases Relation.ReflTransGen.total_of_right_unique hunique h hother with hforth | hback
  · rcases Relation.ReflTransGen.cases_head hforth with rfl | ⟨first, hfirst, hrest⟩
    · exact absurd hlt (Nat.lt_irrefl _)
    · exact ⟨first, hfirst, Visits.le hrest⟩
  · exact absurd (Visits.le hback) (Nat.not_le.mpr hlt)

/-- The loop ends behind every slot it comes to. -/
theorem Visits.le_end {start : ℕ} (h : Visits scope known table start slot)
    (progress : Progress) : slot ≤ (walkFrom scope known table start progress).2 := by
  obtain ⟨hend, hnone⟩ := visits_end scope known table start progress
  by_contra hgt
  rw [Nat.not_le] at hgt
  obtain ⟨next, hnext, -⟩ := hend.exists_next h hgt
  rw [hnone] at hnext
  cases hnext

/-- The loop ends within the scope. -/
theorem walkFrom_le_stop (progress : Progress) (hslot : slot ≤ scope.stop) :
    (walkFrom scope known table slot progress).2 ≤ scope.stop := by
  induction table, slot, progress using walkFrom_induction (L := L) scope known with
  | done table slot progress hturn =>
    rw [walkFrom_eq, hturn]
    exact hslot
  | skip table slot progress hturn ih =>
    rw [walkFrom_eq, hturn]
    exact ih (lt_of_turn_ne_done (by rw [hturn]; exact fun h => by cases h)).1
  | member table slot progress hturn ih =>
    rw [walkFrom_eq, hturn]
    exact ih (lt_of_turn_ne_done (by rw [hturn]; exact fun h => by cases h)).1
  | nested table slot progress nested hturn ihNested ih =>
    rw [walkFrom_eq, hturn]
    exact ih (ihNested (lt_of_turn_ne_done (by rw [hturn]; exact fun h => by cases h)).1)

/-- A slot the loop passes is one it comes to or lies in a nested group it passes over. -/
theorem visits_or_nested (scope : Scope) (known : KnownTags) (table : L) (slot : ℕ)
    (progress : Progress) {c : ℕ} (hle : slot ≤ c)
    (hlt : c < (walkFrom scope known table slot progress).2) :
    Visits scope known table slot c ∨
      ∃ s nested, Visits scope known table slot s ∧
        turn scope known table s = .nested nested ∧ s < c ∧
        c < (walkFrom scope known nested (s + 1) (.start scope s)).2 := by
  -- The induction follows the walk: only a nested group moves it by more than one slot.
  induction table, slot, progress using walkFrom_induction (L := L) scope known with
  | done table slot progress hturn =>
    rw [walkFrom_eq, hturn] at hlt
    exact absurd hlt (Nat.not_lt.mpr hle)
  | skip table slot progress hturn ih =>
    rw [walkFrom_eq, hturn] at hlt
    have hstep : nextSlot scope known table slot = some (slot + 1) := by rw [nextSlot, hturn]
    rcases hle.eq_or_lt with rfl | hgt
    · exact Or.inl .refl
    · rcases ih hgt hlt with hvisits | ⟨s, nested, hvisits, hinside⟩
      · exact Or.inl (.head hstep hvisits)
      · exact Or.inr ⟨s, nested, .head hstep hvisits, hinside⟩
  | member table slot progress hturn ih =>
    rw [walkFrom_eq, hturn] at hlt
    have hstep : nextSlot scope known table slot = some (slot + 1) := by rw [nextSlot, hturn]
    rcases hle.eq_or_lt with rfl | hgt
    · exact Or.inl .refl
    · rcases ih hgt hlt with hvisits | ⟨s, nested, hvisits, hinside⟩
      · exact Or.inl (.head hstep hvisits)
      · exact Or.inr ⟨s, nested, .head hstep hvisits, hinside⟩
  | nested table slot progress nested hturn _ ih =>
    rw [walkFrom_eq, hturn] at hlt
    have hstep : nextSlot scope known table slot =
        some (walkFrom scope known nested (slot + 1) (.start scope slot)).2 := by
      rw [nextSlot, hturn]
    rcases hle.eq_or_lt with rfl | hgt
    · exact Or.inl .refl
    -- A slot that the nested group took is inside it, and any other is reached after it.
    · rcases Nat.lt_or_ge c (walkFrom scope known nested (slot + 1) (.start scope slot)).2 with
        hin | hout
      · exact Or.inr ⟨slot, nested, .refl, hturn, hgt, hin⟩
      · rcases ih hout hlt with hvisits | ⟨s, other, hvisits, hinside⟩
        · exact Or.inl (.head hstep hvisits)
        · exact Or.inr ⟨s, other, .head hstep hvisits, hinside⟩

end Refix.Message
