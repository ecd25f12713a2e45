import Mathlib.Data.List.Nodup
import Mathlib.Data.List.Infix
import Refix.Dictionary.Spec
import Refix.Foundation.Outcome
import Refix.Foundation.Repeats

/-!
# Names Taken in One Scope

A scope of the generated code knows the names that are taken in it and what each stands for. A
name is claimed once. The enum of a field yields to a message or group of its name, and a
field's value to an earlier one of the field; every other clash is an error.
-/

namespace Refix.Codegen

open Refix.Foundation
open Refix.Dict
open Refix.Message (u32Max)

/-! ## Names and warnings -/

/-- What a generated name stands for. -/
inductive Owner where
  /-- A name the generated code defines or imports for itself. -/
  | generated
  /-- A field's accessor. -/
  | field (name : String)
  /-- The accessor of a field's value in nanoseconds. -/
  | nanos (field : String)
  /-- The enum of a field's values. -/
  | enum (field : String)
  /-- A message's type or module. -/
  | message (name : String)
  /-- A group's type, module or accessor, by the context of its instances. -/
  | group (context : MemberContext)
  /-- One of a field's values. -/
  | value (field code description : String)
  deriving DecidableEq, Repr

/-- A name that two parts of the generated code would both use. -/
structure NameClash where
  name : String
  first : Owner
  second : Owner
  deriving DecidableEq, Repr

/-- Where the generated code departs from the dictionary. -/
inductive Warning where
  /-- A construct the generator recognised but does not generate code for yet. -/
  | unsupportedGroup (context : MemberContext)
  /-- The second owner of a clashing name, given `name` in its place. -/
  | renamed (clash : NameClash) (name : String)
  /-- A field read as raw bytes, as the generator does not interpret its type. -/
  | unclaimedType (field : String) (dataType : DataType)
  deriving DecidableEq, Repr

/-- How generating may fail: with an error, or in a way that would be a defect of the
generator. -/
inductive Failure (ε : Type) where
  | error (error : ε)
  /-- A name that is looked up is not there. -/
  | panic
  /-- A counter passes the last 32-bit number. -/
  | overflow
  | outOfFuel
  deriving DecidableEq, Repr

/-- An error that may be a clash of names. -/
class OfClash (ε : Type) where
  nameClash : NameClash → ε

/-- A clash becomes an error of the generator. -/
def raise {ε α : Type} [OfClash ε] : Except NameClash α → Except (Failure ε) α
  | .ok a => .ok a
  | .error clash => .error (.error (OfClash.nameClash clash))

/-- Failing with an error, or by counting on in a scope that is `crowded`. -/
def Fails {ε : Type} (crowded : Prop) (failure : Failure ε) : Prop :=
  (∃ error, failure = .error error) ∨ failure = .overflow ∧ crowded

theorem fails_error {ε : Type} {crowded : Prop} (error : ε) : Fails crowded (.error error) :=
  .inl ⟨error, rfl⟩

theorem Fails.imp {ε : Type} {crowded crowded' : Prop} (h : crowded → crowded')
    {failure : Failure ε} (hfails : Fails crowded failure) : Fails crowded' failure :=
  hfails.imp_right (And.imp_right h)

theorem raise_outcome {ε α : Type} [OfClash ε] {crowded : Prop} {post : α → Prop}
    {x : Except NameClash α} (h : Outcome (fun _ => True) post x) :
    Outcome (Fails crowded : Failure ε → Prop) post (raise x) := by
  cases x with
  | ok a => exact h
  | error clash => exact fails_error _

/-! ## Namespaces -/

/-- The names taken in one scope of the generated code, the latest first. -/
structure Namespace where
  owners : List (String × Owner)

namespace Namespace

/-- A namespace in which nothing is taken. -/
def empty : Namespace := { owners := [] }

/-- A namespace in which the generated code already takes `names`. -/
def withGenerated (names : List String) : Namespace :=
  { owners := names.reverse.map fun name => (name, .generated) }

/-- Takes `name` for `owner`, unless something else already has it. -/
def claim (space : Namespace) (name : String) (owner : Owner) : Except NameClash Namespace :=
  match space.owners.lookup name with
  | some first => .error { name, first, second := owner }
  | none => .ok { owners := (name, owner) :: space.owners }

/-- Takes the name of a field's enum. The enum yields to a message or group of its name, taking
`Enum` after it, with a warning. -/
def claimEnum (space : Namespace) (field : String) (warnings : List Warning) :
    Except NameClash (String × Namespace × List Warning) :=
  let owner := Owner.enum field
  match space.claim field owner with
  | .ok space => .ok (field, space, warnings)
  | .error clash =>
    match clash.first with
    | .message _ | .group _ => do
      let name := field ++ "Enum"
      let space ← space.claim name owner
      return (name, space, warnings ++ [.renamed clash name])
    | _ => .error clash

/-- Takes the first of the candidates from `number` on that is free, among the first `fuel`. -/
def claimNumbered {ε : Type} (space : Namespace) (owner : Owner) (candidate : ℕ → String) :
    ℕ → ℕ → Except (Failure ε) (String × Namespace)
  | 0, _ => .error .outOfFuel
  | fuel + 1, number =>
    match space.claim (candidate number) owner with
    | .ok space => .ok (candidate number, space)
    | .error _ =>
      if number < u32Max then claimNumbered space owner candidate fuel (number + 1)
      else .error .overflow

/-- Takes the name of one of a field's values. A value named like an earlier one of the field
is numbered from 2 by `numbered`, with a warning. -/
def claimValue {ε : Type} [OfClash ε] (space : Namespace) (name : String) (owner : Owner)
    (numbered : String → ℕ → String) (warnings : List Warning) :
    Except (Failure ε) (String × Namespace × List Warning) :=
  match space.claim name owner with
  | .ok space => .ok (name, space, warnings)
  | .error clash =>
    match clash.first with
    | .value _ _ _ => do
      -- the loop ends within one more candidate than there are names
      let fuel := space.owners.length + 1
      let (renamed, space) ← space.claimNumbered owner (numbered name) fuel 2
      return (renamed, space, warnings ++ [.renamed clash renamed])
    | _ => raise (.error clash)

/-! ### The names of a namespace -/

/-- The names that are taken, in the order they were. -/
def names (space : Namespace) : List String := (space.owners.map Prod.fst).reverse

@[simp] theorem names_withGenerated (reserved : List String) :
    (withGenerated reserved).names = reserved := by
  simp [names, withGenerated, Function.comp_def]

theorem length_names (space : Namespace) : space.names.length = space.owners.length := by
  simp [names]

variable {space space' : Namespace} {name : String} {owner : Owner}

theorem lookup_eq_none_iff : space.owners.lookup name = none ↔ name ∉ space.names := by
  rw [lookup_eq_none_iff_keys, names, List.mem_reverse]

/-- A name is taken, after those that are, where it is not one of them. -/
theorem claim_eq_ok_iff : space.claim name owner = .ok space' ↔
    name ∉ space.names ∧ space' = { owners := (name, owner) :: space.owners } := by
  unfold claim
  rw [← lookup_eq_none_iff]
  cases space.owners.lookup name with
  | none => simp [eq_comm]
  | some first => simp

theorem names_claim (h : space.claim name owner = .ok space') :
    space'.names = space.names ++ [name] := by
  obtain ⟨_, rfl⟩ := claim_eq_ok_iff.mp h
  simp [names]

theorem nodup_claim (hspace : space.names.Nodup) (h : space.claim name owner = .ok space') :
    space'.names.Nodup := by
  rw [names_claim h, List.nodup_append]
  obtain ⟨hfresh, _⟩ := claim_eq_ok_iff.mp h
  refine ⟨hspace, List.nodup_singleton _, fun taken htaken claimed hclaimed heq => hfresh ?_⟩
  rw [List.mem_singleton.mp hclaimed] at heq
  exact heq ▸ htaken

/-! ### Numbering -/

variable (space) in
/-- There are no fewer names than candidates that are taken. -/
theorem le_of_taken {candidate : ℕ → String} (hinj : Function.Injective candidate)
    {number count : ℕ} (htaken : ∀ step < count, candidate (number + step) ∈ space.names) :
    count ≤ space.owners.length := by
  have hsub : (List.range count).map (fun step => candidate (number + step)) ⊆ space.names := by
    intro name hname
    obtain ⟨step, hstep, rfl⟩ := List.mem_map.mp hname
    exact htaken step (List.mem_range.mp hstep)
  have hnodup : ((List.range count).map (fun step => candidate (number + step))).Nodup :=
    List.nodup_range.map fun step step' h => Nat.add_left_cancel (hinj h)
  have hlength := (hnodup.subperm hsub).length_le
  rwa [List.length_map, List.length_range, length_names] at hlength

variable (space) in
/-- Among more candidates than there are names, one is free. -/
theorem exists_free {candidate : ℕ → String} (hinj : Function.Injective candidate) (number : ℕ) :
    ∃ step < space.owners.length + 1, candidate (number + step) ∉ space.names := by
  by_contra hall
  push Not at hall
  have hle := le_of_taken space hinj hall
  omega

variable (owner) in
/-- The loop takes a free candidate, if there is one among the first `fuel`, unless the candidates
up to the last number are taken. -/
theorem claimNumbered_outcome {ε : Type} {candidate : ℕ → String}
    (hinj : Function.Injective candidate) {fuel number : ℕ}
    (hfree : ∃ step < fuel, candidate (number + step) ∉ space.names)
    (htaken : ∀ step < number - 2, candidate (2 + step) ∈ space.names) (hnumber : 2 ≤ number) :
    Outcome (Fails (u32Max ≤ space.owners.length + 1) : Failure ε → Prop)
      (fun result => ∃ number', result.1 = candidate number' ∧
        space.claim (candidate number') owner = .ok result.2)
      (space.claimNumbered owner candidate fuel number) := by
  induction fuel generalizing number with
  | zero =>
    obtain ⟨step, hstep, _⟩ := hfree
    omega
  | succ fuel ih =>
    rw [claimNumbered]
    cases hclaim : space.claim (candidate number) owner with
    | ok space' => exact ⟨number, rfl, hclaim⟩
    | error clash =>
      have hmem : candidate number ∈ space.names := by
        by_contra hfresh
        rw [claim_eq_ok_iff.mpr ⟨hfresh, rfl⟩] at hclaim
        cases hclaim
      have htaken' : ∀ step < number + 1 - 2, candidate (2 + step) ∈ space.names := by
        intro step hstep
        by_cases hlast : step = number - 2
        · rwa [hlast, Nat.add_sub_cancel' hnumber]
        · exact htaken step (by omega)
      simp only
      split
      · refine ih ?_ htaken' (by omega)
        obtain ⟨step, hstep, hstepFree⟩ := hfree
        -- The free candidate is not this one, so it is one step nearer to the next number.
        cases step with
        | zero => exact absurd hmem hstepFree
        | succ step => exact ⟨step, by omega, by rwa [Nat.add_assoc, Nat.add_comm 1]⟩
      · next hlast =>
        -- At the last number every candidate below is taken, each by an owner of its own.
        have hle := le_of_taken space hinj htaken'
        exact .inr ⟨rfl, by omega⟩

/-! ### What claiming comes to -/

/-- `name` is taken after the names of `space`. -/
structure Takes (space : Namespace) (name : String) (space' : Namespace) : Prop where
  names_eq : space'.names = space.names ++ [name]
  nodup : space.names.Nodup → space'.names.Nodup

theorem takes_claim (h : space.claim name owner = .ok space') : space.Takes name space' :=
  ⟨names_claim h, fun hspace => nodup_claim hspace h⟩

end Namespace

/-! ## Renaming -/

/-- The name a warning reports as given in place of another. -/
def Warning.newName : Warning → Option String
  | .renamed _ name => some name
  | _ => none

/-- The names given where others were wanted, as pairs of a wanted name and the given one. -/
def renamings (pairs : List (String × String)) : List (Option String) :=
  (pairs.filter fun pair => pair.1 ≠ pair.2).map fun pair => some pair.2

/-- The warnings grow by one for each name that is not the wanted one, in order. -/
def Settles (pairs : List (String × String)) (warnings warnings' : List Warning) : Prop :=
  ∃ added, warnings' = warnings ++ added ∧ added.map Warning.newName = renamings pairs

namespace Settles

variable {pairs pairs' : List (String × String)} {warnings warnings' warnings'' : List Warning}

theorem nil : Settles [] warnings warnings := ⟨[], by simp, rfl⟩

theorem same (name : String) : Settles [(name, name)] warnings warnings :=
  ⟨[], by simp, by simp [renamings]⟩

theorem renamed {wanted given : String} (clash : NameClash) (h : wanted ≠ given) :
    Settles [(wanted, given)] warnings (warnings ++ [.renamed clash given]) := by
  refine ⟨[.renamed clash given], rfl, ?_⟩
  simp [renamings, Warning.newName, h]

theorem append (h : Settles pairs warnings warnings') (h' : Settles pairs' warnings' warnings'') :
    Settles (pairs ++ pairs') warnings warnings'' := by
  obtain ⟨added, rfl, hadded⟩ := h
  obtain ⟨added', rfl, hadded'⟩ := h'
  refine ⟨added ++ added', List.append_assoc _ _ _, ?_⟩
  rw [List.map_append, hadded, hadded', renamings, renamings, renamings, List.filter_append,
    List.map_append]

end Settles

namespace Namespace

variable {space : Namespace} {warnings : List Warning}

theorem claim_outcome (name : String) (owner : Owner) :
    Outcome (fun _ => True) (fun space' => space.Takes name space') (space.claim name owner) := by
  cases hclaim : space.claim name owner with
  | ok space' => exact takes_claim hclaim
  | error clash => trivial

theorem claimEnum_outcome (field : String) :
    Outcome (fun _ => True)
      (fun result => space.Takes result.1 result.2.1 ∧
        Settles [(field, result.1)] warnings result.2.2)
      (space.claimEnum field warnings) := by
  have hne : field ≠ field ++ "Enum" := by
    intro heq
    have hlength := congrArg String.length heq
    simp at hlength
  simp only [claimEnum]
  cases hclaim : space.claim field (.enum field) with
  | ok space' => exact ⟨takes_claim hclaim, .same field⟩
  | error clash =>
    simp only
    split
    · exact (claim_outcome _ _).bind fun _ _ htaken => ⟨htaken, .renamed clash hne⟩
    · exact (claim_outcome _ _).bind fun _ _ htaken => ⟨htaken, .renamed clash hne⟩
    · trivial

variable (space warnings) in
theorem claimValue_outcome {ε : Type} [OfClash ε] {name : String} (owner : Owner)
    {numbered : String → ℕ → String} (hinj : Function.Injective (numbered name))
    (hne : ∀ number, name ≠ numbered name number) :
    Outcome (Fails (u32Max ≤ space.owners.length + 1) : Failure ε → Prop)
      (fun result => space.Takes result.1 result.2.1 ∧
        Settles [(name, result.1)] warnings result.2.2)
      (space.claimValue name owner numbered warnings) := by
  unfold claimValue
  cases hclaim : space.claim name owner with
  | ok space' => exact ⟨takes_claim hclaim, .same name⟩
  | error clash =>
    simp only
    split
    · refine (claimNumbered_outcome owner hinj (exists_free space hinj 2) (by simp)
        le_rfl).bind fun result _ ⟨number, hname, htaken⟩ => ?_
      obtain ⟨renamed, space'⟩ := result
      simp only at hname htaken
      subst hname
      exact ⟨takes_claim htaken, .renamed clash (hne number)⟩
    · exact fails_error _

end Namespace

/-! ## Names under keys -/

section Keys

variable {κ : Type} {reserved : List String} {keys : List κ} {get get' : κ → Option String}
  {space space' : Namespace}

/-- The scope's names are the reserved ones, and then those found under `keys`. -/
structure Fills (reserved : List String) (keys : List κ) (get : κ → Option String)
    (space : Namespace) : Prop where
  names_eq : ∃ assigned, keys.map get = assigned.map some ∧ space.names = reserved ++ assigned
  nodup : space.names.Nodup

/-- Every key has a name, and no two have the same, nor one that is reserved. -/
def Distinct (reserved : List String) (keys : List κ) (get : κ → Option String) : Prop :=
  ∃ assigned, keys.map get = assigned.map some ∧ (reserved ++ assigned).Nodup

/-- What is found is still found, under the same keys. -/
def Extends (get get' : κ → Option String) : Prop :=
  ∀ key name, get key = some name → get' key = some name

theorem Extends.refl (get : κ → Option String) : Extends get get := fun _ _ h => h

theorem Extends.trans {get'' : κ → Option String} (h : Extends get get')
    (h' : Extends get' get'') : Extends get get'' := fun key name hname => h' key name (h key name hname)

theorem Extends.isSome (h : Extends get get') {key : κ} (hkey : (get key).isSome = true) :
    (get' key).isSome = true := by
  obtain ⟨name, hname⟩ := Option.isSome_iff_exists.mp hkey
  rw [h key name hname]
  rfl

theorem fills_withGenerated {reserved : List String} (h : reserved.Nodup)
    (get : κ → Option String) :
    Fills reserved [] get (.withGenerated reserved) where
  names_eq := ⟨[], rfl, by simp⟩
  nodup := by simpa using h

theorem fills_empty (get : κ → Option String) : Fills [] [] get .empty where
  names_eq := ⟨[], rfl, rfl⟩
  nodup := List.nodup_nil

/-- The next name goes under the next key. -/
theorem Fills.take (h : Fills reserved keys get space) {name : String}
    (htake : space.Takes name space') {key : κ} (hkey : get key = some name) :
    Fills reserved (keys ++ [key]) get space' := by
  obtain ⟨assigned, hassigned, hnames⟩ := h.names_eq
  refine ⟨⟨assigned ++ [name], ?_, ?_⟩, htake.nodup h.nodup⟩
  · rw [List.map_append, List.map_append, hassigned, List.map_singleton, List.map_singleton, hkey]
  · rw [htake.names_eq, hnames, List.append_assoc]

theorem map_eq_of_extends (h : Extends get get') {assigned : List String}
    (hassigned : keys.map get = assigned.map some) : keys.map get' = assigned.map some := by
  rw [← hassigned]
  apply List.map_congr_left
  intro key hkey
  have hmem : get key ∈ assigned.map some := hassigned ▸ List.mem_map_of_mem hkey
  obtain ⟨name, _, hname⟩ := List.mem_map.mp hmem
  rw [← hname, h key name hname.symm]

theorem Fills.mono (h : Fills reserved keys get space) (hextends : Extends get get') :
    Fills reserved keys get' space := by
  obtain ⟨assigned, hassigned, hnames⟩ := h.names_eq
  exact ⟨⟨assigned, map_eq_of_extends hextends hassigned, hnames⟩, h.nodup⟩

theorem Fills.distinct (h : Fills reserved keys get space) : Distinct reserved keys get := by
  obtain ⟨assigned, hassigned, hnames⟩ := h.names_eq
  exact ⟨assigned, hassigned, hnames ▸ h.nodup⟩

theorem Distinct.mono (h : Distinct reserved keys get) (hextends : Extends get get') :
    Distinct reserved keys get' := by
  obtain ⟨assigned, hassigned, hnodup⟩ := h
  exact ⟨assigned, map_eq_of_extends hextends hassigned, hnodup⟩

theorem Distinct.isSome (h : Distinct reserved keys get) {key : κ} (hkey : key ∈ keys) :
    (get key).isSome = true := by
  obtain ⟨assigned, hassigned, _⟩ := h
  have hmem : get key ∈ assigned.map some := hassigned ▸ List.mem_map_of_mem hkey
  obtain ⟨name, _, hname⟩ := List.mem_map.mp hmem
  rw [← hname]
  rfl

/-- Where only keys without a name are given another one, what is found is still found. -/
theorem extends_of_eq_none {α : Type} (key : α → κ) (hnone : ∀ a, get (key a) = none)
    (hother : ∀ k, (∀ a, k ≠ key a) → get' k = get k) : Extends get get' := by
  intro k name hname
  rw [hother k]
  · exact hname
  · rintro a rfl
    rw [hnone] at hname
    cases hname

end Keys

/-! ## Names that grow -/

section Grows

variable {ν κ ε : Type} {get : ν → κ → Option String} {enums : ν → ε} {sound : ν → Prop}
  {names names' names'' : ν}

/-- Names that grow: what is recorded stays, and the enums are those they were. -/
structure Grows (get : ν → κ → Option String) (enums : ν → ε) (sound : ν → Prop)
    (names names' : ν) : Prop where
  sound : sound names'
  extends_ : Extends (get names) (get names')
  enums_eq : enums names' = enums names

theorem Grows.refl (h : sound names) : Grows get enums sound names names :=
  ⟨h, Extends.refl _, rfl⟩

theorem Grows.trans (h : Grows get enums sound names names')
    (h' : Grows get enums sound names' names'') : Grows get enums sound names names'' :=
  ⟨h'.sound, h.extends_.trans h'.extends_, h'.enums_eq.trans h.enums_eq⟩

/-- The scope is filled with the names of `keys`, and names have grown to hold them. -/
def GrowsFilling (get : ν → κ → Option String) (enums : ν → ε) (sound : ν → Prop) (names : ν)
    (reserved : List String) (keys : List κ) (state : ν × Namespace) : Prop :=
  Grows get enums sound names state.1 ∧ Fills reserved keys (get state.1) state.2

end Grows

end Refix.Codegen
