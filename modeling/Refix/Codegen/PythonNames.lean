import Refix.Codegen.Emission
import Refix.Codegen.Enums

/-!
# Names in Generated Python

The classes and properties of the generated Python are named before anything is emitted. A
group's class nests in the class of the message or section that declares it, beside the
properties there, and only the class of a shared group is named in the module.
-/

namespace Refix.Codegen.Python

open Refix.Foundation
open Refix.Dict
open Refix.Message (Tag)

/-! ## Errors -/

inductive Error where
  | unrepresentableValue (field description : String)
  | nameClash (clash : NameClash)
  deriving DecidableEq, Repr

instance : OfClash Error where
  nameClash := .nameClash

/-! ## Naming -/

/-- Python's lower-case keywords, the only ones a snake-case name can hit. -/
def keywords : List String :=
  ["and", "as", "assert", "async", "await", "break", "class", "continue", "def", "del", "elif",
   "else", "except", "finally", "for", "from", "global", "if", "import", "in", "is", "lambda",
   "nonlocal", "not", "or", "pass", "raise", "return", "try", "while", "with", "yield"]

/-- Escapes a keyword with a trailing underscore. -/
def identifier (name : String) : String := if name ∈ keywords then name ++ "_" else name

def propertyName (field : Field) : String := identifier (fieldBaseName field)

/-- Whether a field has a property for its exact nanoseconds, its value being held only to the
microsecond. -/
def hasNanos (field : Field) : Bool :=
  match Conversion.of field with
  | .time | .utcTimestamp => true
  | _ => false

/-- The property reading a field's nanoseconds, beside the one reading its value. -/
def nanosPropertyName (field : Field) : String := fieldBaseName field ++ "_ns"

def groupPropertyName (fields : List Field) (group : Group fields.length) : String :=
  identifier (groupBaseName fields group)

def memberName (field : Field) (value : EnumValue) : Except (Failure Error) String :=
  let name := (value.description.toList.dropWhile (· = '_')).map Char.toUpper
  -- a name cannot start with a digit
  let name := if name.head?.any Char.isDigit then 'N' :: '_' :: name else name
  let startsWithLetter := name.head?.any Char.isAlpha
  let wordCharacters := name.all fun c => c.isAlphanum || c = '_'
  if !startsWithLetter || !wordCharacters then
    .error (.error (.unrepresentableValue field.name value.description))
  else .ok (.ofList name)

theorem memberName_fails (crowded : Prop) (field : Field) (value : EnumValue) :
    Outcome (Fails crowded) (fun _ => True) (memberName field value) := by
  rw [memberName]
  exact outcome_ite (fails_error _) trivial

/-- Numbers a member an earlier value of its field is named like. -/
def numberedMember (name : String) (number : ℕ) : String := name ++ "_" ++ toString number

theorem numberedMember_injective (name : String) : Function.Injective (numberedMember name) := by
  intro number number' h
  have hrepr : Nat.repr number = Nat.repr number' := by simpa [numberedMember] using h
  exact Nat.repr_inj.mp hrepr

theorem ne_numberedMember (name : String) (number : ℕ) : name ≠ numberedMember name number := by
  intro h
  have hlength := congrArg String.length h
  have hpos : 0 < (toString number).length := Nat.length_repr_pos
  rw [numberedMember, String.length_append, String.length_append] at hlength
  omega

/-! ## Reserved names -/

/-- Names the generated module defines or relies on. -/
def module : List String :=
  ["CODEC", "ClassVar", "Codec", "DIALECT", "Decimal", "Dialect", "GroupTable", "Header",
   "KnownTags", "Message", "MonthYear", "RawMessage", "Trailer", "Unrecognized", "_MESSAGES",
   "annotations", "bool", "bytes", "cached_property", "date", "datetime", "dict", "enum",
   "from_raw", "from_value", "int", "property", "refix", "str", "time", "tuple", "type"]

/-- The members every message class defines, and the decorators its body looks up. -/
def message : List String :=
  ["KNOWN_TAGS", "MSG_TYPE", "__init__", "_raw", "cached_property", "header", "property", "raw",
   "trailer"]

/-- The members every header or trailer view defines, and the decorators its body looks up. -/
def view : List String :=
  ["KNOWN_TAGS", "__init__", "_known_tags", "_raw", "cached_property", "property", "raw"]

/-- The members every group instance class defines, and the decorators its body looks up. -/
def inst : List String := ["__init__", "_scope", "cached_property", "property", "raw"]

theorem module_nodup : module.Nodup := by decide

theorem message_nodup : message.Nodup := by decide

theorem view_nodup : view.Nodup := by decide

theorem inst_nodup : inst.Nodup := by decide

/-! ## Names -/

/-- How the values of a field are named. -/
def values : ValueNaming Error where
  valueName := memberName
  numbered := numberedMember
  reserved := []
  valueName_fails := memberName_fails
  numbered_injective := numberedMember_injective
  ne_numbered := ne_numberedMember
  reserved_nodup := List.nodup_nil

structure GroupNames where
  className : String
  property : String

/-- Every name the generated Python uses. -/
structure Names where
  enums : Tag → Option EnumNames
  properties : Tag → Option String
  nanosProperties : Tag → Option String
  groups : MemberContext → Option GroupNames

/-- No names yet. -/
def Names.none : Names where
  enums _ := Option.none
  properties _ := Option.none
  nanosProperties _ := Option.none
  groups _ := Option.none

section Naming

variable (fields : List Field)

/-- Names a group's class and property. -/
def nameGroup (names : Names) (group : Group fields.length) : Names × String :=
  let className := groupSourceName fields group
  let groupNames := { className, property := groupPropertyName fields group }
  let context := group.instanceContext fields
  ({ names with groups := Function.update names.groups context (some groupNames) }, className)

/-- Names a generated group, and takes the class of a shared one in the module. -/
def nameDeclared (state : Names × Namespace) (group : Group fields.length) :
    Except (Failure Error) (Names × Namespace) := do
  let (names, module) := state
  let (names, className) := nameGroup fields names group
  if inComponent group then
    return (names, ← raise (module.claim className (.group (group.instanceContext fields))))
  else return (names, module)

/-- Takes the class of a group that nests in a message's or section's class. -/
def claimClass (names : Names) (space : Namespace) (group : Group fields.length) :
    Except (Failure Error) Namespace :=
  let context := group.instanceContext fields
  match names.groups context with
  | some groupNames => raise (space.claim groupNames.className (.group context))
  | none => .error .panic

/-- Names the properties of one member. -/
def nameProperty (state : Names × Namespace) (member : ResolvedMember fields.length) :
    Except (Failure Error) (Names × Namespace) := do
  let (names, space) := state
  match member with
  | .field index _ =>
    let field := fields.get index
    let name := propertyName field
    let space ← raise (space.claim name (.field field.name))
    let names :=
      { names with properties := Function.update names.properties field.tag (some name) }
    if hasNanos field then
      let name := nanosPropertyName field
      let space ← raise (space.claim name (.nanos field.name))
      return ({ names with
        nanosProperties := Function.update names.nanosProperties field.tag (some name) }, space)
    else return (names, space)
  | .group countFieldIndex delimiterIndex isRequired declaredIn component members =>
    let group : Group fields.length :=
      { countFieldIndex, delimiterIndex, isRequired, declaredIn, component, members }
    if isGenerated group then
      let context := group.instanceContext fields
      match names.groups context with
      | some groupNames =>
        return (names, ← raise (space.claim groupNames.property (.group context)))
      | none => throw .panic
    else return (names, space)

/-- Names the properties of a message or group instance. -/
def nameProperties (names : Names) (members : List (ResolvedMember fields.length))
    (space : Namespace) : Except (Failure Error) Names := do
  let (names, _) ← members.foldlM (nameProperty fields) (names, space)
  return names

/-- Names a message's properties beside the classes of the groups it declares itself. -/
def nameMessage (names : Names) (members : List (ResolvedMember fields.length)) :
    Except (Failure Error) Names := do
  let space ← (ownGroups members).foldlM (claimClass fields names) (.withGenerated message)
  nameProperties fields names members space

end Naming

/-- Names a section view's properties beside the classes of the groups the section declares
itself. -/
def nameSection (dictionary : Dictionary) (names : Names) (part : Section) :
    Except (Failure Error) Names := do
  let fields := dictionary.spec.fields
  let space ← (sectionGroups dictionary part).foldlM (claimClass fields names)
    (.withGenerated view)
  nameProperties fields names (part.members dictionary) space

/-- Names everything generated from a dictionary. A clash that a rule settles is renamed with a
warning. Any other clash is an error. -/
def Names.new (dictionary : Dictionary) (warnings : List Warning) :
    Except (Failure Error) (Names × List Warning) := do
  let fields := dictionary.spec.fields
  let generated := (declaredGroups dictionary).filter isGenerated
  let space ← dictionary.spec.messages.foldlM
    (fun space message => raise (space.claim message.name (.message message.name)))
    (.withGenerated module)
  let (names, space) ← generated.foldlM (nameDeclared fields) (Names.none, space)
  let (enums, _, warnings) ← fields.foldlM (nameEnum values) (names.enums, space, warnings)
  let names := { names with enums }
  let names ← dictionary.messageMembers.foldlM
    (fun names entry => nameMessage fields names entry.2) names
  let names ← [Section.header, Section.trailer].foldlM (nameSection dictionary) names
  let names ← generated.foldlM
    (fun names group => nameProperties fields names group.members (.withGenerated inst)) names
  return (names, warnings)

/-! ## Looking names up -/

/-- What a name is looked up by. -/
inductive Key where
  /-- A message's class, which has its own name. -/
  | message (name : String)
  | groupClass (context : MemberContext)
  | groupProperty (context : MemberContext)
  | property (tag : Tag)
  | nanosProperty (tag : Tag)
  | enumClass (tag : Tag)
  deriving DecidableEq

def Names.get (names : Names) : Key → Option String
  | .message name => some name
  | .groupClass context => (names.groups context).map GroupNames.className
  | .groupProperty context => (names.groups context).map GroupNames.property
  | .property tag => names.properties tag
  | .nanosProperty tag => names.nanosProperties tag
  | .enumClass tag => (names.enums tag).map EnumNames.typeName

/-- The path of a group's class from the module. A message's or section's own group sits under
its class. -/
def Names.groupPath (names : Names) (fields : List Field) (group : Group fields.length) :
    Option (List String) := do
  let groupNames ← names.groups (group.instanceContext fields)
  match group.declaredIn with
  | .message message => return [message, groupNames.className]
  | .header => return ["Header", groupNames.className]
  | .trailer => return ["Trailer", groupNames.className]
  | _ => return [groupNames.className]

end Refix.Codegen.Python
