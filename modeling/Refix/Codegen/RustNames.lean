import Refix.Codegen.Emission
import Refix.Codegen.Enums

/-!
# Names in Generated Rust

Every name the generated Rust uses is settled before anything is emitted: scope by scope, each
name is claimed and recorded under the tag, context or message it is looked up by.
-/

namespace Refix.Codegen.Rust

open Refix.Foundation
open Refix.Dict
open Refix.Message (Tag)

/-! ## Errors -/

inductive Error where
  | unrepresentableName (field : String)
  | unrepresentableValue (field description : String)
  | unrepresentableGroupName (context : MemberContext)
  | unrepresentableMessageName (message : String)
  | nameClash (clash : NameClash)
  deriving DecidableEq, Repr

instance : OfClash Error where
  nameClash := .nameClash

/-! ## Naming -/

/-- Rust's strict and reserved keywords. -/
def reservedWords : List String :=
  ["abstract", "as", "async", "await", "become", "box", "break", "const", "continue", "do", "dyn",
   "else", "enum", "extern", "false", "final", "fn", "for", "gen", "if", "impl", "in", "let",
   "loop", "macro", "match", "mod", "move", "mut", "override", "priv", "pub", "ref", "return",
   "static", "struct", "trait", "true", "try", "type", "typeof", "unsafe", "unsized", "use",
   "virtual", "where", "while", "yield"]

/-- Escapes a keyword as a raw identifier, or `none` for a keyword that cannot be escaped. -/
def identifier (name : String) : Option String :=
  if name ∈ ["self", "super", "crate"] then none
  else if name ∈ reservedWords then some ("r#" ++ name)
  else some name

def methodName (field : Field) : Except (Failure Error) String :=
  match identifier (fieldBaseName field) with
  | some name => .ok name
  | none => .error (.error (.unrepresentableName field.name))

/-- The accessor and module name of a group, escaped for Rust. -/
def groupName (fields : List Field) (group : Group fields.length) :
    Except (Failure Error) String :=
  match identifier (groupBaseName fields group) with
  | some name => .ok name
  | none => .error (.error (.unrepresentableGroupName (group.instanceContext fields)))

def variantName (field : Field) (value : EnumValue) : Except (Failure Error) String :=
  let name := (pascalCase value.description).toList
  -- a name cannot start with a digit
  let name := if name.head?.any Char.isDigit then 'N' :: name else name
  let startsWithLetter := name.head?.any Char.isAlpha
  let alphanumeric := name.all Char.isAlphanum
  if !startsWithLetter || !alphanumeric || name = "Self".toList then
    .error (.error (.unrepresentableValue field.name value.description))
  else .ok (.ofList name)

/-- Numbers a variant an earlier value of its field is named like. -/
def numberedVariant (name : String) (number : ℕ) : String := name ++ toString number

theorem variantName_fails (crowded : Prop) (field : Field) (value : EnumValue) :
    Outcome (Fails crowded) (fun _ => True) (variantName field value) := by
  rw [variantName]
  exact outcome_ite (fails_error _) trivial

theorem numberedVariant_injective (name : String) :
    Function.Injective (numberedVariant name) := by
  intro number number' h
  have hrepr : Nat.repr number = Nat.repr number' := by simpa [numberedVariant] using h
  exact Nat.repr_inj.mp hrepr

theorem ne_numberedVariant (name : String) (number : ℕ) : name ≠ numberedVariant name number := by
  intro h
  have hlength := congrArg String.length h
  have hpos : 0 < (toString number).length := Nat.length_repr_pos
  rw [numberedVariant, String.length_append] at hlength
  omega

/-- The name of the module holding a message's own groups. -/
def messageModuleName (message : String) : Except (Failure Error) String :=
  match identifier (snakeCase message) with
  | some name => .ok name
  | none => .error (.error (.unrepresentableMessageName message))

/-! ## Reserved names -/

/-- Names the generated root defines or relies on. -/
def root : List String :=
  ["DIALECT", "Date", "Decimal", "Dialect", "From", "GroupTable", "Header", "Instance",
   "Instances", "InvalidValue", "KnownTags", "Message", "MonthYear", "MultipleValues", "Ok",
   "Option", "RawMessage", "Result", "Some", "Tag", "Time", "Trailer", "UtcTimestamp", "bool",
   "header", "i64", "refix_message", "str", "trailer", "u8"]

/-- The constants and methods every message defines. -/
def message : List String := ["KNOWN_TAGS", "MSG_TYPE", "from_raw", "header", "raw", "trailer"]

/-- The methods every group instance and header or trailer view defines. -/
def inst : List String := ["raw"]

/-- The catch-all of the message enum and of every field's enum. -/
def catchAll : List String := ["Unrecognized"]

theorem root_nodup : root.Nodup := by decide

theorem message_nodup : message.Nodup := by decide

theorem inst_nodup : inst.Nodup := by decide

theorem catchAll_nodup : catchAll.Nodup := by decide

/-! ## Names -/

/-- How the values of a field are named. -/
def values : ValueNaming Error where
  valueName := variantName
  numbered := numberedVariant
  reserved := catchAll
  valueName_fails := variantName_fails
  numbered_injective := numberedVariant_injective
  ne_numbered := ne_numberedVariant
  reserved_nodup := catchAll_nodup

/-- Every name the generated Rust uses. -/
structure Names where
  enums : Tag → Option EnumNames
  accessors : Tag → Option String
  groups : MemberContext → Option String
  messageModules : String → Option String

/-- No names yet. -/
def Names.none : Names where
  enums _ := Option.none
  accessors _ := Option.none
  groups _ := Option.none
  messageModules _ := Option.none

section Naming

variable (fields : List Field)

/-- Names the module of a group. -/
def nameGroup (owner : Names × Namespace) (group : Group fields.length) :
    Except (Failure Error) (Names × Namespace) := do
  let (names, modules) := owner
  let name ← groupName fields group
  let context := group.instanceContext fields
  let modules ← raise (modules.claim name (.group context))
  return ({ names with groups := Function.update names.groups context (some name) }, modules)

/-- Names the module holding the groups a message declares itself, if it declares any. -/
def nameMessageModule (state : Names × Namespace)
    (entry : Message × List (ResolvedMember fields.length)) :
    Except (Failure Error) (Names × Namespace) :=
  let (names, root) := state
  let (message, members) := entry
  let groups := ownGroups members
  if groups.isEmpty then .ok (names, root)
  else do
    let module ← messageModuleName message.name
    let root ← raise (root.claim module (.message message.name))
    let (names, _) ← groups.foldlM (nameGroup fields) (names, .empty)
    return ({ names with
      messageModules := Function.update names.messageModules message.name (some module) }, root)

/-- Names the accessor of one member. -/
def nameAccessor (state : Names × Namespace) (member : ResolvedMember fields.length) :
    Except (Failure Error) (Names × Namespace) := do
  let (names, space) := state
  match member with
  | .field index _ =>
    let field := fields.get index
    let name ← methodName field
    let space ← raise (space.claim name (.field field.name))
    return ({ names with accessors := Function.update names.accessors field.tag (some name) }, space)
  | .group countFieldIndex delimiterIndex isRequired declaredIn component members =>
    let group : Group fields.length :=
      { countFieldIndex, delimiterIndex, isRequired, declaredIn, component, members }
    if isGenerated group then
      let context := group.instanceContext fields
      match names.groups context with
      | some name => return (names, ← raise (space.claim name (.group context)))
      | none => throw .panic
    else return (names, space)

/-- Names the accessors of a message or group instance. -/
def nameAccessors (names : Names) (members : List (ResolvedMember fields.length))
    (space : Namespace) : Except (Failure Error) Names := do
  let (names, _) ← members.foldlM (nameAccessor fields) (names, space)
  return names

end Naming

/-- Names a section view's accessors and the modules of the groups the section declares
itself. -/
def nameSection (dictionary : Dictionary) (names : Names) (part : Section) :
    Except (Failure Error) Names := do
  let fields := dictionary.spec.fields
  let (names, _) ← (sectionGroups dictionary part).foldlM (nameGroup fields) (names, .empty)
  nameAccessors fields names (part.members dictionary) (.withGenerated inst)

/-- Claims the name of a message, as a type and as a variant of the message enum. -/
def claimMessage (state : Namespace × Namespace) (message : Message) :
    Except (Failure Error) (Namespace × Namespace) := do
  let (root, variants) := state
  let root ← raise (root.claim message.name (.message message.name))
  let variants ← raise (variants.claim message.name (.message message.name))
  return (root, variants)

/-- Names everything generated from a dictionary. A clash that a rule settles is renamed with a
warning. Any other clash is an error. -/
def Names.new (dictionary : Dictionary) (warnings : List Warning) :
    Except (Failure Error) (Names × List Warning) := do
  let fields := dictionary.spec.fields
  let messages := dictionary.messageMembers
  let declared := declaredGroups dictionary
  let (space, _) ← dictionary.spec.messages.foldlM claimMessage
    (.withGenerated root, .withGenerated catchAll)
  let (names, space) ← messages.foldlM (nameMessageModule fields) (Names.none, space)
  let (names, space) ← (declared.filter inComponent).foldlM (nameGroup fields) (names, space)
  let names ← [Section.header, Section.trailer].foldlM (nameSection dictionary) names
  let (enums, _, warnings) ← fields.foldlM (nameEnum values) (names.enums, space, warnings)
  let names := { names with enums }
  let names ← messages.foldlM
    (fun names entry => nameAccessors fields names entry.2 (.withGenerated message)) names
  let names ← (declared.filter isGenerated).foldlM
    (fun names group => nameAccessors fields names group.members (.withGenerated inst)) names
  return (names, warnings)

/-! ## Looking names up -/

/-- What a name is looked up by. -/
inductive Key where
  /-- A message's type, and its variant of the message enum, which have its own name. -/
  | message (name : String)
  | messageModule (message : String)
  | group (context : MemberContext)
  | accessor (tag : Tag)
  | enumType (tag : Tag)
  deriving DecidableEq

def Names.get (names : Names) : Key → Option String
  | .message name => some name
  | .messageModule message => names.messageModules message
  | .group context => names.groups context
  | .accessor tag => names.accessors tag
  | .enumType tag => (names.enums tag).map EnumNames.typeName

/-- The path of a group's module from the generated root. -/
def Names.groupPath (names : Names) (fields : List Field) (group : Group fields.length) :
    Option (List String) := do
  let name ← names.groups (group.instanceContext fields)
  match group.declaredIn with
  | .message message => return [← names.messageModules message, name]
  | .header => return ["header", name]
  | .trailer => return ["trailer", name]
  | _ => return [name]

end Refix.Codegen.Rust
