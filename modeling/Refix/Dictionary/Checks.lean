import Refix.Dictionary.Inlining

/-!
# Checks on the Definitions

Every check made before components are expanded decides one of the conditions of a consistent
spec: it passes where the condition holds, and ends with an error where it does not.
-/

namespace Refix.Dict

open Refix.Foundation
open Refix.Message (Tag)

/-- A check passes exactly where `condition` holds, and never panics. -/
def Decides (condition : Prop) (check : Except Failure Unit) : Prop :=
  Outcome (fun failure => (∃ error, failure = .error error) ∧ ¬ condition) (fun _ => condition)
    check

section Rules

variable {condition : Prop} {check : Except Failure Unit}

theorem decides_ok (h : condition) : Decides condition (.ok ()) := h

theorem decides_error {error : Error} (h : ¬ condition) :
    Decides condition (.error (.error error)) := ⟨⟨error, rfl⟩, h⟩

theorem Decides.congr {condition' : Prop} (h : Decides condition check)
    (hiff : condition ↔ condition') : Decides condition' check :=
  h.imp (fun _ hfail => ⟨hfail.1, fun hcondition => hfail.2 (hiff.mpr hcondition)⟩)
    fun _ => hiff.mp

/-- A check of every element. -/
theorem Decides.forM {α : Type} {good : α → Prop} {checks : α → Except Failure Unit} {xs : List α}
    (h : ∀ x ∈ xs, Decides (good x) (checks x)) : Decides (∀ x ∈ xs, good x) (xs.forM checks) := by
  apply Outcome.forM
  intro x hx
  refine (h x hx).imp (fun failure hfail => ⟨hfail.1, fun hall => hfail.2 (hall x hx)⟩) fun _ => id

end Rules

/-! ## Values and codes -/

theorem checkedI64_isSome {number : ℤ} :
    (checkedI64 number).isSome = true ↔ -2 ^ 63 ≤ number ∧ number < 2 ^ 63 := by
  unfold checkedI64
  split <;> simp_all

/-- A text that is all digits has no sign. -/
theorem splitSign_digits {digits : List Char} (h : ∀ c ∈ digits, c.isDigit = true) :
    splitSign digits = (false, digits) := by
  unfold splitSign
  split
  · exact absurd (h '-' List.mem_cons_self) (by decide)
  · exact absurd (h '+' List.mem_cons_self) (by decide)
  · rfl

section Integers

variable {value : String} {digits : List Char}

/-- A sign and digits are read as their number. -/
theorem parseI64_of_split {negative : Bool} (hne : digits ≠ [])
    (hall : ∀ c ∈ digits, c.isDigit = true) (hsplit : splitSign value.toList = (negative, digits)) :
    parseI64 value = checkedI64 (if negative then -(Nat.ofDigitChars 10 digits 0 : ℤ)
      else Nat.ofDigitChars 10 digits 0) := by
  unfold parseI64
  rw [hsplit]
  have hguard : ¬ (digits = [] ∨ digits.all Char.isDigit = false) := by
    simpa [hne] using hall
  exact if_neg hguard

theorem isInteger_minus_iff (hvalue : value.toList = '-' :: digits) :
    isInteger value = true ↔ digits ≠ [] ∧ (∀ c ∈ digits, c.isDigit = true) ∧
      Nat.ofDigitChars 10 digits 0 ≤ 2 ^ 63 := by
  unfold isInteger
  simp only [hvalue, Bool.and_eq_true, Bool.not_eq_true', List.isEmpty_eq_false_iff,
    List.all_eq_true, and_assoc]
  refine and_congr_right fun hne => and_congr_right fun hall => ?_
  rw [parseI64_of_split hne hall (by rw [hvalue]; rfl), checkedI64_isSome]
  simp only [if_true]
  omega

theorem isInteger_unsigned_iff (hvalue : ∀ digits, value.toList ≠ '-' :: digits) :
    isInteger value = true ↔ value.toList ≠ [] ∧ (∀ c ∈ value.toList, c.isDigit = true) ∧
      Nat.ofDigitChars 10 value.toList 0 < 2 ^ 63 := by
  unfold isInteger
  split
  next digits h => exact absurd h (hvalue digits)
  simp only [Bool.and_eq_true, Bool.not_eq_true', List.isEmpty_eq_false_iff, List.all_eq_true,
    and_assoc]
  refine and_congr_right fun hne => and_congr_right fun hall => ?_
  rw [parseI64_of_split hne hall (splitSign_digits hall), checkedI64_isSome]
  simp only [Bool.false_eq_true, if_false]
  omega

/-- A value is accepted where it is an optional `-` and digits, within 64 bits. -/
theorem isInteger_iff : isInteger value = true ↔ IsInteger value := by
  unfold IsInteger
  by_cases hsign : ∃ digits, value.toList = '-' :: digits
  · obtain ⟨digits, hvalue⟩ := hsign
    rw [isInteger_minus_iff hvalue]
    constructor
    · rintro ⟨hne, hall, hrange⟩
      exact ⟨digits, hne, hall, Or.inr ⟨hvalue, hrange⟩⟩
    · rintro ⟨digits', hne, hall, ⟨heq, -⟩ | ⟨heq, hrange⟩⟩
      · rw [← heq, hvalue] at hall
        exact absurd (hall '-' List.mem_cons_self) (by decide)
      · cases hvalue.symm.trans heq
        exact ⟨hne, hall, hrange⟩
  · have hunsigned : ∀ digits, value.toList ≠ '-' :: digits := fun digits h => hsign ⟨digits, h⟩
    rw [isInteger_unsigned_iff hunsigned]
    constructor
    · rintro ⟨hne, hall, hrange⟩
      exact ⟨value.toList, hne, hall, Or.inl ⟨rfl, hrange⟩⟩
    · rintro ⟨digits, hne, hall, ⟨heq, hrange⟩ | ⟨heq, -⟩⟩
      · rw [heq]
        exact ⟨hne, hall, hrange⟩
      · exact absurd heq (hunsigned digits)

end Integers

/-- Checks that every value listed for an int-based field is a FIX integer. -/
theorem checkIntValues_decides (fields : List Field) :
    Decides (∀ field ∈ fields, field.dataType.isIntBased = true →
      ∀ value ∈ field.values, IsInteger value.value) (checkIntValues fields) := by
  have hchecks : Decides (∀ field ∈ fields.filter (·.dataType.isIntBased),
      ∀ value ∈ field.values, IsInteger value.value) (checkIntValues fields) := by
    apply Decides.forM
    intro field _
    cases hfind : field.values.find? (!isInteger ·.value) with
    | none =>
      apply decides_ok
      intro value hvalue
      have hpass := List.find?_eq_none.mp hfind value hvalue
      exact isInteger_iff.mp (by simpa using hpass)
    | some value =>
      apply decides_error
      intro hall
      have hbad := List.find?_some hfind
      have hgood := isInteger_iff.mpr (hall value (List.mem_of_find?_eq_some hfind))
      simp [hgood] at hbad
  refine hchecks.congr ?_
  simp only [List.mem_filter, and_imp]

theorem checkUniqueCodes_decides (fields : List Field) :
    Decides (∀ field ∈ fields, field.values.Pairwise fun first second =>
      ¬ field.dataType.SameCode first.value second.value) (checkUniqueCodes fields) := by
  apply Decides.forM
  intro field _
  have hnodup : (field.values.map (field.dataType.canonicalCode ·.value)).Nodup ↔
      field.values.Pairwise fun first second =>
        ¬ field.dataType.SameCode first.value second.value := by
    rw [List.Nodup, List.pairwise_map]
    simp only [ne_eq, canonicalCode_eq_iff]
  rw [← hnodup, ← firstRepeat_eq_none_iff]
  cases firstRepeat (field.dataType.canonicalCode ·.value) field.values with
  | none => exact decides_ok rfl
  | some repeated => exact decides_error nofun

/-! ## Definitions under one name -/

theorem checkUniqueMsgTypes_decides (messages : List Message) :
    Decides ((messages.map Message.msgType).Nodup) (checkUniqueMsgTypes messages) := by
  rw [← firstRepeat_eq_none_iff]
  unfold checkUniqueMsgTypes
  cases firstRepeat Message.msgType messages with
  | none => exact decides_ok rfl
  | some repeated => exact decides_error nofun

theorem indexFields_decides (fields : List Field) :
    Decides ((fields.map Field.tag).Nodup) (indexFields fields) := by
  rw [← firstRepeat_eq_none_iff]
  unfold indexFields
  cases firstRepeat Field.tag fields with
  | none => exact decides_ok rfl
  | some repeated => exact decides_error nofun

theorem indexComponents_decides (components : List Component) :
    Decides ((components.map Component.name).Nodup) (indexComponents components) := by
  rw [← firstRepeat_eq_none_iff]
  unfold indexComponents
  cases firstRepeat Component.name components with
  | none => exact decides_ok rfl
  | some repeated => exact decides_error nofun

/-! ## Length tags -/

/-- A length tag sits on a data field and names a LENGTH field. -/
def LengthTagOk (fields : List Field) (field : Field) : Prop :=
  ∀ tag, field.lengthTag = some tag → field.dataType.hasLengthField = true ∧
    ∃ lengthField ∈ fields, lengthField.tag = tag ∧ lengthField.dataType = .length

/-- A tag refers to the one field that has it. -/
theorem getElem_of_fieldIndex? {fields : List Field} (htags : (fields.map Field.tag).Nodup)
    {tag : Tag} {index : Fin fields.length} (hindex : fieldIndex? fields tag = some index)
    {field : Field} (hmem : field ∈ fields) (htag : field.tag = tag) : fields.get index = field :=
  List.inj_on_of_nodup_map htags (List.getElem_mem index.isLt) hmem
    ((tag_of_fieldIndex? hindex).trans htag.symm)

theorem checkLengthTagsFrom_decides {fields : List Field} (htags : (fields.map Field.tag).Nodup)
    (rest : List Field) : ∀ taken : List (Tag × String), (taken.map Prod.fst).Nodup →
    Decides ((∀ field ∈ rest, LengthTagOk fields field) ∧
      (rest.filterMap Field.lengthTag ++ taken.map Prod.fst).Nodup)
      (checkLengthTagsFrom fields taken rest) := by
  induction rest with
  | nil =>
    intro taken htaken
    exact decides_ok ⟨List.forall_mem_nil _, htaken⟩
  | cons field rest ih =>
    intro taken htaken
    -- Each refusal contradicts one part of the condition; where none is made, the tag is new and
    -- joins those taken.
    rw [checkLengthTagsFrom]
    cases hlength : field.lengthTag with
    | none =>
      refine (ih taken htaken).congr ?_
      have hok : LengthTagOk fields field := by
        intro tag htag
        rw [hlength] at htag
        cases htag
      simp [hok, hlength]
    | some tag =>
      simp only
      split
      · next hdata =>
        apply decides_error
        intro hall
        have hok := hall.1 field List.mem_cons_self tag hlength
        rw [hdata] at hok
        exact absurd hok.1 (by decide)
      next hdata =>
      cases hindex : fieldIndex? fields tag with
      | none =>
        apply decides_error
        intro hall
        obtain ⟨lengthField, hmem, htag, _⟩ := (hall.1 field List.mem_cons_self tag hlength).2
        exact fieldIndex?_eq_none_iff.mp hindex ⟨lengthField, hmem, htag⟩
      | some index =>
        simp only
        split
        · next htype =>
          apply decides_error
          intro hall
          obtain ⟨lengthField, hmem, htag, hlen⟩ :=
            (hall.1 field List.mem_cons_self tag hlength).2
          rw [getElem_of_fieldIndex? htags hindex hmem htag] at htype
          exact htype hlen
        next htype =>
        cases hlookup : taken.lookup tag with
        | some first =>
          apply decides_error
          intro hall
          have hnodup := hall.2
          rw [List.filterMap_cons_some hlength, List.cons_append, List.nodup_cons] at hnodup
          exact hnodup.1 (List.mem_append_right _ (mem_keys_of_lookup hlookup))
        | none =>
          have hfresh : tag ∉ taken.map Prod.fst := lookup_eq_none_iff_keys.mp hlookup
          have hok : LengthTagOk fields field := by
            intro tag' htag'
            cases hlength.symm.trans htag'
            refine ⟨by simpa using hdata, fields.get index, List.getElem_mem index.isLt, ?_, ?_⟩
            · exact tag_of_fieldIndex? hindex
            · exact not_not.mp htype
          refine (ih ((tag, field.name) :: taken) (List.nodup_cons.mpr ⟨hfresh, htaken⟩)).congr ?_
          rw [List.filterMap_cons_some hlength, List.map_cons, List.nodup_middle,
            List.forall_mem_cons, List.cons_append]
          simp only [hok, true_and]

theorem checkLengthTags_decides {fields : List Field} (htags : (fields.map Field.tag).Nodup) :
    Decides ((∀ field ∈ fields, LengthTagOk fields field) ∧
      (fields.filterMap Field.lengthTag).Nodup) (checkLengthTags fields) := by
  have hdecides := checkLengthTagsFrom_decides htags fields [] List.nodup_nil
  rw [List.map_nil, List.append_nil] at hdecides
  exact hdecides

end Refix.Dict
