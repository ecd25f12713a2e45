import Refix.Dictionary.Codes

/-!
# QuickFIX Dictionaries

Reads a QuickFIX-format dictionary from the element tree of its XML. What a dictionary lists
twice is dropped with a warning, not refused.
-/

namespace Refix.Dict.Quickfix

open Refix.Foundation
open Refix.Message (Tag)

/-- Something the parser read but left out of the dictionary. -/
inductive Warning where
  | unsupportedElement (context : MemberContext) (element : String)
  /-- A value listed under the code of an earlier value of its field. -/
  | repeatedCode (field : String) (kept dropped : EnumValue)
  deriving DecidableEq, Repr

/-! ## Repeated codes -/

/-- The values kept so far, where each code's value stands among them, and the warnings. -/
abbrev KeptCodes := List EnumValue × List (String × ℕ) × List Warning

/-- Keeps a value, or warns of it where its code is taken. Fails where a position recorded for a
code is not one of a value that was kept. -/
def dropRepeatedCode (field : String) (dataType : DataType) (state : KeptCodes)
    (value : EnumValue) : Option KeptCodes := do
  let (kept, byCode, warnings) := state
  let code := dataType.canonicalCode value.value
  match byCode.lookup code with
  | some first => return (kept, byCode, warnings ++ [.repeatedCode field (← kept[first]?) value])
  | none => return (kept ++ [value], (code, kept.length) :: byCode, warnings)

/-- Keeps the first value listed for each code, warning of the rest. -/
def dropRepeatedCodes (field : String) (dataType : DataType) (values : List EnumValue)
    (warnings : List Warning) : Option (List EnumValue × List Warning) := do
  let (kept, _, warnings) ← values.foldlM (dropRepeatedCode field dataType) ([], [], warnings)
  return (kept, warnings)

section RepeatedCodes

variable {field : String} {dataType : DataType}

/-- The positions that are recorded are those of the values kept, each under its code. -/
structure Indexed (dataType : DataType) (values kept : List EnumValue)
    (byCode : List (String × ℕ)) : Prop where
  kept_eq : kept = firsts (dataType.canonicalCode ·.value) values
  lookup_eq : ∀ code, (byCode.lookup code).bind (kept[·]?) =
    values.find? fun value => dataType.canonicalCode value.value == code
  lookup_isSome : ∀ code first, byCode.lookup code = some first → first < kept.length

theorem Indexed.nil : Indexed dataType [] [] [] := ⟨rfl, fun _ => rfl, nofun⟩

/-- The values of a code's position, once one more value is kept. -/
theorem Indexed.lookup_append {values kept : List EnumValue} {byCode : List (String × ℕ)}
    (h : Indexed dataType values kept byCode) (value : EnumValue) (code : String) :
    (byCode.lookup code).bind ((kept ++ [value])[·]?) =
      values.find? fun value => dataType.canonicalCode value.value == code := by
  rw [← h.lookup_eq]
  cases hcode : byCode.lookup code with
  | none => rfl
  | some first => exact List.getElem?_append_left (h.lookup_isSome code first hcode)

/-- A value is kept exactly where no earlier one has its code. -/
theorem dropRepeatedCode_eq (field : String) {values kept : List EnumValue}
    {byCode : List (String × ℕ)} (warnings : List Warning)
    (h : Indexed dataType values kept byCode) (value : EnumValue) :
    ∃ kept' byCode', dropRepeatedCode field dataType (kept, byCode, warnings) value =
        some (kept', byCode', warnings ++
          ((values.find? fun other => dataType.canonicalCode other.value ==
            dataType.canonicalCode value.value).map fun first =>
              Warning.repeatedCode field first value).toList) ∧
      Indexed dataType (values ++ [value]) kept' byCode' := by
  have hlookup := h.lookup_eq (dataType.canonicalCode value.value)
  have hfirsts := firsts_concat (dataType.canonicalCode ·.value) values value
  cases hcode : byCode.lookup (dataType.canonicalCode value.value) with
  | some position =>
    -- the code is taken
    obtain ⟨first, hfirst⟩ : ∃ first, kept[position]? = some first :=
      ⟨_, List.getElem?_eq_getElem (h.lookup_isSome _ _ hcode)⟩
    rw [hcode, Option.bind_some, hfirst] at hlookup
    refine ⟨kept, byCode, ?_, ?_, ?_, h.lookup_isSome⟩
    · simp [dropRepeatedCode, hcode, ← hlookup, hfirst]
    · rw [hfirsts, ← hlookup, h.kept_eq]
      exact (List.append_nil _).symm
    · intro code
      rw [h.lookup_eq, List.find?_append]
      cases hfind : values.find? fun value => dataType.canonicalCode value.value == code with
      | some _ => rfl
      | none =>
        rw [Option.none_or, List.find?_singleton, if_neg]
        intro heq
        rw [beq_iff_eq.mp heq, hfind] at hlookup
        cases hlookup
  | none =>
    rw [hcode, Option.bind_none] at hlookup
    refine ⟨kept ++ [value], (dataType.canonicalCode value.value, kept.length) :: byCode, ?_, ?_,
      ?_, ?_⟩
    · simp [dropRepeatedCode, hcode, ← hlookup]
    · rw [hfirsts, ← hlookup, h.kept_eq]
      rfl
    · intro code
      rw [List.lookup_cons, List.find?_append]
      by_cases heq : code = dataType.canonicalCode value.value
      · subst heq
        simp [← hlookup]
      · have hne : (code == dataType.canonicalCode value.value) = false := by simpa using heq
        have hne' : (dataType.canonicalCode value.value == code) = false := by
          simpa using fun h => heq h.symm
        rw [hne, List.find?_singleton, hne', ← h.lookup_append value]
        exact (Option.or_none).symm
    · intro code position hposition
      rw [List.lookup_cons] at hposition
      rw [List.length_append, List.length_singleton]
      split at hposition
      · cases hposition
        exact Nat.lt_succ_self _
      · exact (h.lookup_isSome code position hposition).trans (Nat.lt_succ_self _)

/-- The warnings of repeated values, each with the value that was kept for its code. -/
def repeatedCodes (field : String) (dataType : DataType) (values : List EnumValue) :
    List Warning :=
  (repeats (dataType.canonicalCode ·.value) values).map fun entry =>
    .repeatedCode field entry.1 entry.2

/-- **The first value of each code is kept**, in order, and each other one is warned of. -/
theorem dropRepeatedCodes_eq (field : String) (dataType : DataType) (values : List EnumValue)
    (warnings : List Warning) :
    dropRepeatedCodes field dataType values warnings =
      some (firsts (dataType.canonicalCode ·.value) values,
        warnings ++ repeatedCodes field dataType values) := by
  have hrun : ∃ kept byCode,
      values.foldlM (dropRepeatedCode field dataType) ([], [], warnings) =
        some (kept, byCode, warnings ++ repeatedCodes field dataType values) ∧
      Indexed dataType values kept byCode := by
    induction values using List.reverseRecOn with
    | nil => exact ⟨[], [], by simp [repeatedCodes, repeats], .nil⟩
    | append_singleton values value ih =>
      obtain ⟨kept, byCode, hfold, hindexed⟩ := ih
      obtain ⟨kept', byCode', hstep, hindexed'⟩ := dropRepeatedCode_eq field
        (warnings ++ repeatedCodes field dataType values) hindexed value
      refine ⟨kept', byCode', ?_, hindexed'⟩
      rw [List.foldlM_append, hfold]
      simp only [Option.bind_eq_bind, Option.bind_some, List.foldlM_cons, List.foldlM_nil, hstep]
      rw [repeatedCodes, repeatedCodes, repeats_concat, List.map_append, List.append_assoc]
      cases values.find? fun other => dataType.canonicalCode other.value ==
        dataType.canonicalCode value.value <;> rfl
  obtain ⟨kept, byCode, hfold, hindexed⟩ := hrun
  rw [dropRepeatedCodes, hfold, ← hindexed.kept_eq]
  rfl

/-- What is kept passes the resolver's check. -/
theorem checkUniqueCodes_firsts {fields : List Field}
    (h : ∀ field ∈ fields, ∃ values,
      field.values = firsts (field.dataType.canonicalCode ·.value) values) :
    checkUniqueCodes fields = .ok () := by
  have hunique : ∀ field ∈ fields, field.values.Pairwise fun first second =>
      ¬ field.dataType.SameCode first.value second.value := by
    intro field hfield
    obtain ⟨values, hvalues⟩ := h field hfield
    have hnodup := nodup_firsts (field.dataType.canonicalCode ·.value) values
    rw [← hvalues, List.Nodup, List.pairwise_map] at hnodup
    exact hnodup.imp fun hne hsame => hne (canonicalCode_eq_iff.mpr hsame)
  cases hcheck : checkUniqueCodes fields with
  | ok _ => rfl
  | error failure =>
    exact absurd hunique ((checkUniqueCodes_decides fields).of_eq_error hcheck).2

end RepeatedCodes

end Refix.Dict.Quickfix
