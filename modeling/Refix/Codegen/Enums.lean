import Refix.Codegen.Naming

/-!
# Names of Enums

Both languages name the enum of a field, and then the enum's values, each in a scope of its
own. They differ in the name a value wants, in how an earlier value's name is numbered, and in
the names an enum defines for itself.
-/

namespace Refix.Codegen

open Refix.Foundation
open Refix.Dict
open Refix.Message (Tag u32Max)

/-! ## Naming -/

/-- How a language names the values of a field. Numbers tell names apart, and no numbered name is
the name it numbers. -/
structure ValueNaming (ε : Type) where
  valueName : Field → EnumValue → Except (Failure ε) String
  numbered : String → ℕ → String
  reserved : List String
  valueName_fails : ∀ crowded field value,
    Outcome (Fails crowded) (fun _ => True) (valueName field value)
  numbered_injective : ∀ name, Function.Injective (numbered name)
  ne_numbered : ∀ name number, name ≠ numbered name number
  reserved_nodup : reserved.Nodup

/-- The names of a field's enum: its type, and one for each value. -/
structure EnumNames where
  typeName : String
  values : List String

section Naming

variable {ε : Type} [OfClash ε] (naming : ValueNaming ε)

/-- Names one of a field's values. -/
def nameValue (field : Field) (state : List String × Namespace × List Warning)
    (value : EnumValue) : Except (Failure ε) (List String × Namespace × List Warning) := do
  let (names, values, warnings) := state
  let name ← naming.valueName field value
  let owner := Owner.value field.name value.value value.description
  let (name, values, warnings) ← values.claimValue name owner naming.numbered warnings
  return (names ++ [name], values, warnings)

/-- Names the values of a field's enum. -/
def nameValues (field : Field) (warnings : List Warning) :
    Except (Failure ε) (List String × List Warning) := do
  let (names, _, warnings) ←
    field.values.foldlM (nameValue naming field) ([], .withGenerated naming.reserved, warnings)
  return (names, warnings)

/-- The names of the enums so far, the scope their types are named in, and the warnings. -/
abbrev EnumState := (Tag → Option EnumNames) × Namespace × List Warning

/-- Names the enum of a field, if its value reads through one, and the enum's values. -/
def nameEnum (state : EnumState) (field : Field) : Except (Failure ε) EnumState :=
  let (enums, space, warnings) := state
  if (Conversion.of field).isEnum then do
    let (typeName, space, warnings) ← raise (space.claimEnum field.name warnings)
    let (values, warnings) ← nameValues naming field warnings
    return (Function.update enums field.tag (some { typeName, values }), space, warnings)
  else .ok state

end Naming

/-! ## What is named -/

section Named

variable {ε : Type} (naming : ValueNaming ε)

/-- The names a field's values want. -/
def wantedValues (field : Field) : List String :=
  field.values.filterMap fun value => (naming.valueName field value).toOption

/-- The wanted and the given names of a field's enum and its values. -/
def enumPairs (enums : Tag → Option EnumNames) (field : Field) : List (String × String) :=
  match enums field.tag with
  | some names => (field.name, names.typeName) :: (wantedValues naming field).zip names.values
  | none => []

/-- An enum is named, with one name for each value, and these all differ. -/
def EnumNamed (enums : Tag → Option EnumNames) (field : Field) : Prop :=
  ∃ names, enums field.tag = some names ∧ names.values.length = field.values.length ∧
    (naming.reserved ++ names.values).Nodup

/-- The fields among `fields` whose values read through an enum. -/
def enumFields (fields : List Field) : List Field :=
  fields.filter fun field => (Conversion.of field).isEnum

/-- The enums of `fields` are named, after the names of `space`. -/
structure EnumsNamed (fields : List Field) (space : Namespace) (warnings : List Warning)
    (state : EnumState) : Prop where
  names_eq : ∃ assigned, (enumFields fields).map
      (fun field => (state.1 field.tag).map EnumNames.typeName) = assigned.map some ∧
    state.2.1.names = space.names ++ assigned
  nodup : space.names.Nodup → state.2.1.names.Nodup
  named : ∀ field ∈ enumFields fields, EnumNamed naming state.1 field
  settles : Settles ((enumFields fields).flatMap (enumPairs naming state.1)) warnings state.2.2
  only : ∀ tag, state.1 tag ≠ none → tag ∈ (enumFields fields).map Field.tag

variable {naming} {field : Field} {warnings : List Warning}

/-- The types of enums fill a scope further, under the keys that they are looked up by. -/
theorem EnumsNamed.fills {fields : List Field} {κ : Type} {get get' : κ → Option String}
    {reserved : List String} {keys : List κ} {enumKey : Field → κ} {space : Namespace}
    {state : EnumState} (hstate : EnumsNamed naming fields space warnings state)
    (h : Fills reserved keys get space) (hextends : Extends get get')
    (hkey : ∀ field, get' (enumKey field) = (state.1 field.tag).map EnumNames.typeName) :
    Fills reserved (keys ++ (enumFields fields).map enumKey) get' state.2.1 := by
  obtain ⟨assigned, hassigned, hspace⟩ := (h.mono hextends).names_eq
  obtain ⟨types, htypes, hspace'⟩ := hstate.names_eq
  refine ⟨⟨assigned ++ types, ?_, ?_⟩, hstate.nodup h.nodup⟩
  · rw [List.map_append, List.map_append, hassigned, ← htypes, List.map_map]
    simp only [Function.comp_def, hkey]
  · rw [hspace', hspace, List.append_assoc]

theorem nameValues_outcome [OfClash ε] :
    Outcome (Fails (u32Max ≤ naming.reserved.length + field.values.length))
      (fun result => result.1.length = field.values.length ∧
        (naming.reserved ++ result.1).Nodup ∧
        Settles ((wantedValues naming field).zip result.1) warnings result.2)
      (nameValues naming field warnings) := by
  refine (Outcome.foldlM (fun done (state : List String × Namespace × List Warning) =>
    ∃ wanted, done.filterMap (fun value => (naming.valueName field value).toOption) = wanted ∧
      state.2.1.names = naming.reserved ++ state.1 ∧ state.2.1.names.Nodup ∧
      state.1.length = done.length ∧ wanted.length = done.length ∧
      Settles (wanted.zip state.1) warnings state.2.2) ?_ ?_).bind ?_
  · rintro done value rest hsplit ⟨names, space, warnings'⟩
      ⟨wanted, hwanted, hnames, hnodup, hlength, hlengthWanted, hsettles⟩
    rw [nameValue]
    refine (naming.valueName_fails _ field value).bind fun name hname _ => ?_
    -- One name is taken for each value so far, so only a field of too many values runs out of
    -- numbers.
    have hcrowded : u32Max ≤ space.owners.length + 1 →
        u32Max ≤ naming.reserved.length + field.values.length := by
      have hspace := congrArg List.length hnames
      have hvalues := congrArg List.length hsplit
      simp only [Namespace.length_names, List.length_append, List.length_cons, hlength] at *
      omega
    have hclaim := Namespace.claimValue_outcome (ε := ε) space warnings'
      (.value field.name value.value value.description) (naming.numbered_injective name)
      (naming.ne_numbered name)
    refine (hclaim.imp (fun _ => .imp hcrowded) fun _ => id).bind
      fun result _ ⟨htake, hrenamed⟩ => ?_
    refine ⟨wanted ++ [name], ?_, ?_, htake.nodup hnodup, ?_, ?_, ?_⟩
    · rw [List.filterMap_append, hwanted, List.filterMap_cons, hname]
      rfl
    · rw [htake.names_eq, hnames, List.append_assoc]
    · simp [hlength]
    · simp [hlengthWanted]
    · have hzip : (wanted ++ [name]).zip (names ++ [result.1]) =
          wanted.zip names ++ [(name, result.1)] := by
        rw [List.zip_append (hlengthWanted.trans hlength.symm)]
        rfl
      rw [hzip]
      exact hsettles.append hrenamed
  · exact ⟨[], rfl, by simp, by simpa using naming.reserved_nodup, rfl, rfl, .nil⟩
  · rintro ⟨names, space, warnings'⟩ - ⟨wanted, hwanted, hnames, hnodup, hlength, -, hsettles⟩
    refine ⟨hlength, hnames ▸ hnodup, ?_⟩
    rw [wantedValues, hwanted]
    exact hsettles

theorem enumFields_append_singleton (fields : List Field) (field : Field) :
    enumFields (fields ++ [field]) = enumFields fields ++ enumFields [field] :=
  List.filter_append ..

/-- What a field's enum is called depends on what is recorded for its tag. -/
theorem enumPairs_congr {enums enums' : Tag → Option EnumNames}
    (h : enums field.tag = enums' field.tag) :
    enumPairs naming enums field = enumPairs naming enums' field := by
  rw [enumPairs, enumPairs, h]

theorem EnumNamed.congr {enums enums' : Tag → Option EnumNames}
    (h : enums field.tag = enums' field.tag) (hnamed : EnumNamed naming enums field) :
    EnumNamed naming enums' field := by
  obtain ⟨names, hnames, hvalues⟩ := hnamed
  exact ⟨names, h ▸ hnames, hvalues⟩

/-- One more enum, of a field with a tag of its own. -/
theorem EnumsNamed.add {fields : List Field} {space space' : Namespace} {state : EnumState}
    {warnings' warnings'' : List Warning} (names : EnumNames)
    (h : EnumsNamed naming fields space warnings state)
    (htags : field.tag ∉ fields.map Field.tag) (henum : (Conversion.of field).isEnum = true)
    (htake : state.2.1.Takes names.typeName space')
    (hname : Settles [(field.name, names.typeName)] state.2.2 warnings')
    (hlength : names.values.length = field.values.length)
    (hnodup : (naming.reserved ++ names.values).Nodup)
    (hvalues : Settles ((wantedValues naming field).zip names.values) warnings' warnings'') :
    EnumsNamed naming (fields ++ [field]) space warnings
      (Function.update state.1 field.tag (some names), space', warnings'') := by
  have hfields : enumFields [field] = [field] := by simp [enumFields, henum]
  -- what is recorded for the fields before stays
  have hold : ∀ other ∈ enumFields fields,
      Function.update state.1 field.tag (some names) other.tag = state.1 other.tag := by
    intro other hother
    apply Function.update_of_ne
    intro heq
    apply htags
    rw [← heq]
    exact List.mem_map_of_mem (List.mem_of_mem_filter hother)
  obtain ⟨assigned, hassigned, hspace⟩ := h.names_eq
  refine ⟨⟨assigned ++ [names.typeName], ?_, ?_⟩, fun hs => htake.nodup (h.nodup hs), ?_, ?_, ?_⟩
  · rw [enumFields_append_singleton, hfields, List.map_append, List.map_append, ← hassigned]
    congr 1
    · apply List.map_congr_left
      intro other hother
      simp only [hold other hother]
    · simp
  · rw [htake.names_eq, hspace, List.append_assoc]
  · intro other hother
    rw [enumFields_append_singleton, hfields, List.mem_append, List.mem_singleton] at hother
    rcases hother with hother | rfl
    · exact (h.named other hother).congr (hold other hother).symm
    · exact ⟨names, Function.update_self .., hlength, hnodup⟩
  · rw [enumFields_append_singleton, hfields, List.flatMap_append, List.flatMap_singleton]
    have hpairs : (enumFields fields).flatMap (enumPairs naming
          (Function.update state.1 field.tag (some names))) =
        (enumFields fields).flatMap (enumPairs naming state.1) := by
      apply List.flatMap_congr
      intro other hother
      exact enumPairs_congr (hold other hother)
    rw [hpairs]
    have hself : enumPairs naming (Function.update state.1 field.tag (some names)) field =
        [(field.name, names.typeName)] ++ (wantedValues naming field).zip names.values := by
      simp [enumPairs]
    rw [hself]
    exact h.settles.append (hname.append hvalues)
  · intro tag htag
    rw [enumFields_append_singleton, hfields, List.map_append, List.mem_append]
    by_cases heq : tag = field.tag
    · right
      simp [heq]
    · simp only [Function.update_of_ne heq] at htag
      exact Or.inl (h.only tag htag)

variable (naming) in
/-- Some field has more values than there are numbers for. -/
def Crowded (fields : List Field) : Prop :=
  ∃ field ∈ fields, u32Max ≤ naming.reserved.length + field.values.length

variable (naming warnings) in
/-- **Naming the enums** of fields with different tags. -/
theorem nameEnums_outcome [OfClash ε] {fields : List Field} (htags : (fields.map Field.tag).Nodup)
    (space : Namespace) :
    Outcome (Fails (Crowded naming fields)) (EnumsNamed naming fields space warnings)
      (fields.foldlM (nameEnum naming) (fun _ => none, space, warnings)) := by
  refine Outcome.foldlM (fun done => EnumsNamed naming done space warnings) ?_ ?_
  · rintro done field rest hsplit ⟨enums, space', warnings'⟩ hdone
    have hfresh : field.tag ∉ done.map Field.tag := by
      rw [hsplit, List.map_append, List.map_cons, List.nodup_append] at htags
      intro hmem
      exact htags.2.2 _ hmem _ List.mem_cons_self rfl
    rw [nameEnum]
    split
    · next henum =>
      refine (raise_outcome (Namespace.claimEnum_outcome field.name)).bind
        fun ⟨typeName, space'', warnings''⟩ _ ⟨htake, hname⟩ => ?_
      have hcrowded : u32Max ≤ naming.reserved.length + field.values.length →
          Crowded naming fields := fun h => ⟨field, by simp [hsplit], h⟩
      refine (nameValues_outcome.imp (fun _ => .imp hcrowded) fun _ => id).bind fun ⟨values, warnings'''⟩ _ ⟨hlength, hnodup, hvalues⟩ => ?_
      exact hdone.add { typeName, values } hfresh henum htake hname hlength hnodup hvalues
    · next henum =>
      have hfields : enumFields (done ++ [field]) = enumFields done := by
        simp [enumFields, List.filter_append, henum]
      exact ⟨hfields ▸ hdone.names_eq, hdone.nodup, hfields ▸ hdone.named,
        hfields ▸ hdone.settles, hfields ▸ hdone.only⟩
  · exact ⟨⟨[], rfl, by simp⟩, id, List.forall_mem_nil _, .nil, fun _ h => absurd rfl h⟩

end Named

end Refix.Codegen
