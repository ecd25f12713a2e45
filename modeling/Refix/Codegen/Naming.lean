import Refix.Codegen.Groups
import Refix.Codegen.Namespace

/-!
# Naming

The names that fields and groups have before a language escapes them, and how generated code
reads a field's value, which the names depend on.
-/

namespace Refix.Codegen

open Refix.Dict

/-! ## Conversions -/

/-- How generated code reads a field's value. -/
inductive Conversion where
  | str | int | bool | decimal | date | monthYear | time | utcTimestamp
  /-- An enum over text, over integers, or of space-separated values. -/
  | strEnum | intEnum | multipleValues
  /-- Space-separated text values. -/
  | multipleStr
  /-- Bytes as the type declares them. -/
  | bytes
  /-- The bytes, under a `_raw` name. -/
  | raw
  deriving DecidableEq, Repr

/-- The conversion for `field`. Listed values take precedence over the type, but a BOOLEAN reads
as a truth value whatever it lists. -/
def Conversion.of (field : Field) : Conversion :=
  let dataType := field.dataType
  if field.values ≠ [] ∧ dataType ≠ .boolean then
    if dataType.isMultipleValue then .multipleValues
    else if dataType.isIntBased then .intEnum
    else .strEnum
  else
    match dataType with
    | .string | .char | .currency | .exchange | .country | .language | .xid | .xidRef => .str
    | _ =>
      if dataType.isMultipleValue then .multipleStr
      else if dataType.isIntBased then .int
      else if dataType = .boolean then .bool
      else if dataType.isFloatBased then .decimal
      else
        match dataType with
        | .utcDateOnly | .localMktDate => .date
        | .monthYear => .monthYear
        | .utcTimeOnly | .localMktTime => .time
        | .utcTimestamp => .utcTimestamp
        | .data | .xmlData => .bytes
        | _ => .raw

/-- Whether the value reads through a generated enum. -/
def Conversion.isEnum : Conversion → Bool
  | .strEnum | .intEnum | .multipleValues => true
  | _ => false

/-! ## Case -/

/-- Whether the rest of a name opens with a lone `s`, the plural of the acronym before it. -/
def pluralizes : List Char → Bool
  | 's' :: rest => !rest.head?.any Char.isLower
  | _ => false

/-- Converts what is left of a name after `previous`. -/
def snakeCaseFrom : Option Char → List Char → List Char
  | _, [] => []
  | previous, current :: rest =>
    if current.isUpper then
      let afterWord := previous.any fun p => p.isLower || p.isDigit
      let endsAcronym := previous.any Char.isUpper && rest.head?.any Char.isLower &&
        !pluralizes rest
      let converted := current.toLower :: snakeCaseFrom (some current) rest
      if afterWord || endsAcronym then '_' :: converted else converted
    else current :: snakeCaseFrom (some current) rest

/-- Converts a FIX PascalCase name to a snake_case identifier. Acronym runs stay together. -/
def snakeCase (name : String) : String := .ofList (snakeCaseFrom none name.toList)

/-- One word of a PascalCase identifier. -/
def capitalize : List Char → List Char
  | [] => []
  | first :: rest => first.toUpper :: rest.map Char.toLower

/-- Converts an UPPER_CASE_SNAKE enum value description to a PascalCase identifier. -/
def pascalCase (name : String) : String :=
  .ofList (((name.toList.splitOn '_').filter fun segment => !segment.isEmpty).flatMap capitalize)

/-! ## Names before escaping -/

/-- A field accessor's name before escaping. A field of a type the generator does not interpret
takes the `_raw` suffix. -/
def fieldBaseName (field : Field) : String :=
  if Conversion.of field = .raw then snakeCase field.name ++ "_raw" else snakeCase field.name

/-- Strips a `No` that starts a word. -/
def withoutNoPrefix (name : String) : Option String :=
  match name.toList with
  | 'N' :: 'o' :: rest => if rest.head?.any Char.isUpper then some (.ofList rest) else none
  | _ => none

/-- A group's name as the dictionary gives it: the component it makes up, else its count field's
name without the `No` prefix, else its count field's name. -/
def groupSourceName (fields : List Field) (group : Group fields.length) : String :=
  let countField := (fields.get group.countFieldIndex).name
  (group.component.or (withoutNoPrefix countField)).getD countField

/-- The accessor and module name of a group, before escaping. -/
def groupBaseName (fields : List Field) (group : Group fields.length) : String :=
  snakeCase (groupSourceName fields group)

/-- A group is named for the context of its instances. -/
theorem groupSourceName_eq {dictionary : Dictionary} (hd : dictionary.Resolved)
    {group group' : Group dictionary.spec.fields.length} (h : dictionary.Reaches group)
    (h' : dictionary.Reaches group')
    (hcontext : group.instanceContext dictionary.spec.fields =
      group'.instanceContext dictionary.spec.fields) :
    groupSourceName dictionary.spec.fields group =
      groupSourceName dictionary.spec.fields group' := by
  injection hcontext with hname hdeclaredIn
  simp only [groupSourceName, h.component_eq hd h' hdeclaredIn, hname]

theorem isGenerated_eq_of_same {n : ℕ} {group group' : Group n} (h : group.Same group') :
    isGenerated group = isGenerated group' := by
  simp only [isGenerated, h.declaredIn_eq]

end Refix.Codegen
