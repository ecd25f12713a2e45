import Mathlib.Logic.Function.Basic
import Refix.Dictionary.Spec
import Refix.Foundation.Outcome
import Refix.Foundation.Repeats

/-!
# Resolving a Spec

A spec becomes a dictionary by looking up every reference and expanding every component in
place. Each component is expanded once, into a memo; the components that are being expanded
are on a stack, so that a cycle is found. Checks are made on the way.

The recursion through components is bounded by fuel, one unit for each component that may be
on the stack. `Dictionary/Acceptance.lean` shows that it is never used up.
-/

namespace Refix.Dict

open Refix.Foundation
open Refix.Message (Tag)

/-! ## Results -/

/-- A member as indices into the spec's field definitions. -/
inductive ResolvedMember (n : ℕ) where
  | field (fieldIndex : Fin n) (isRequired : Bool)
  /-- A group with its count field and delimiter, the place that declares it, the component it
  makes up when it is that component's only member, and the members of each instance. -/
  | group (countFieldIndex delimiterIndex : Fin n) (isRequired : Bool)
      (declaredIn : MemberContext) (component : Option String)
      (members : List (ResolvedMember n))

/-- A defect found while resolving a spec. -/
inductive Error where
  | duplicateTag (tag : Tag)
  | nonIntegerValue (field value : String)
  | repeatedCode (field first second : String)
  | duplicateComponent (component : String)
  | duplicateMsgType (msgType first second : String)
  | unexpectedLengthTag (field : String) (tag : Tag)
  | unknownLengthTag (field : String) (tag : Tag)
  | nonLengthField (field lengthField : String)
  | sharedLengthField (lengthField first second : String)
  | missingLengthTag (field : String) (context : MemberContext)
  | duplicateField (tag : Tag) (first second : MemberContext)
  | unknownField (tag : Tag) (context : MemberContext)
  | unknownComponent (component : String) (context : MemberContext)
  | circularComponent (component : String)
  | emptyGroup (context : MemberContext)
  deriving DecidableEq, Repr

/-- How resolving may fail: with an error, or in a way that would be a defect of the resolver. -/
inductive Failure where
  | error (error : Error)
  | panic
  | outOfFuel
  deriving DecidableEq, Repr

namespace ResolvedMember

variable {n : ℕ}

/-- The field this member starts with on the wire, or a group's count field. -/
def firstField : ResolvedMember n → Fin n
  | field fieldIndex _ => fieldIndex
  | group countFieldIndex _ _ _ _ _ => countFieldIndex

/-- Makes this member required in its scope. -/
def require : ResolvedMember n → ResolvedMember n
  | field fieldIndex _ => field fieldIndex true
  | group countFieldIndex delimiterIndex _ declaredIn component members =>
    group countFieldIndex delimiterIndex true declaredIn component members

/-- Keeps this member required only if `required` holds as well. -/
def combineRequired (required : Bool) : ResolvedMember n → ResolvedMember n
  | field fieldIndex own => field fieldIndex (own && required)
  | group countFieldIndex delimiterIndex own declaredIn component members =>
    group countFieldIndex delimiterIndex (own && required) declaredIn component members

end ResolvedMember

/-- The first member of a group instance is required whatever its declared flag. -/
def requireFirst {n : ℕ} : List (ResolvedMember n) → List (ResolvedMember n)
  | [] => []
  | first :: rest => first.require :: rest

/-- The members of a component, a group that is all of it carrying the component's name. -/
def Component.owned {n : ℕ} (component : Component) (members : List (ResolvedMember n)) :
    List (ResolvedMember n) :=
  match component.members, members with
  | [.group _ _ _], [.group countFieldIndex delimiterIndex isRequired declaredIn _ members] =>
    [.group countFieldIndex delimiterIndex isRequired declaredIn (some component.name) members]
  | _, members => members

/-! ## Checks on the definitions -/

/-- The definition a tag refers to. -/
def fieldIndex? (fields : List Field) (tag : Tag) : Option (Fin fields.length) :=
  fields.findFinIdx? (·.tag == tag)

/-- The definition a component name refers to. -/
def componentIndex? (components : List Component) (name : String) :
    Option (Fin components.length) :=
  components.findFinIdx? (·.name == name)

/-- An optional `-` and digits within 64 bits. -/
def isInteger (value : String) : Bool :=
  let digits := match value.toList with
    | '-' :: digits => digits
    | digits => digits
  !digits.isEmpty && digits.all Char.isDigit && (parseI64 value).isSome

/-- Checks that every value listed for an int-based field is a FIX integer. -/
def checkIntValues (fields : List Field) : Except Failure Unit :=
  (fields.filter (·.dataType.isIntBased)).forM fun field =>
    match field.values.find? (!isInteger ·.value) with
    | some value => .error (.error (.nonIntegerValue field.name value.value))
    | none => .ok ()

/-- Checks that no field lists two values under one code. -/
def checkUniqueCodes (fields : List Field) : Except Failure Unit :=
  fields.forM fun field =>
    match firstRepeat (field.dataType.canonicalCode ·.value) field.values with
    | some (first, second) => .error (.error (.repeatedCode field.name first.value second.value))
    | none => .ok ()

/-- Checks that no two messages declare the same MsgType. -/
def checkUniqueMsgTypes (messages : List Message) : Except Failure Unit :=
  match firstRepeat Message.msgType messages with
  | some (first, second) =>
    .error (.error (.duplicateMsgType second.msgType first.name second.name))
  | none => .ok ()

/-- Checks that a tag is defined once, so that it refers to one definition. -/
def indexFields (fields : List Field) : Except Failure Unit :=
  match firstRepeat Field.tag fields with
  | some (_, second) => .error (.error (.duplicateTag second.tag))
  | none => .ok ()

/-- Checks that a component name is defined once. -/
def indexComponents (components : List Component) : Except Failure Unit :=
  match firstRepeat Component.name components with
  | some (_, second) => .error (.error (.duplicateComponent second.name))
  | none => .ok ()

/-- Checks the length tags of the fields still to check, those of the fields before being
`taken`. -/
def checkLengthTagsFrom (fields : List Field) :
    List (Tag × String) → List Field → Except Failure Unit
  | _, [] => .ok ()
  | taken, field :: rest =>
    match field.lengthTag with
    | none => checkLengthTagsFrom fields taken rest
    | some tag =>
      if field.dataType.hasLengthField = false then
        .error (.error (.unexpectedLengthTag field.name tag))
      else
        match fieldIndex? fields tag with
        | none => .error (.error (.unknownLengthTag field.name tag))
        | some index =>
          let lengthField := fields.get index
          if lengthField.dataType ≠ .length then
            .error (.error (.nonLengthField field.name lengthField.name))
          else
            match taken.lookup tag with
            | some first => .error (.error (.sharedLengthField lengthField.name first field.name))
            | none => checkLengthTagsFrom fields ((tag, field.name) :: taken) rest

/-- Checks that only data fields take a length, each from a LENGTH field of its own. -/
def checkLengthTags (fields : List Field) : Except Failure Unit :=
  checkLengthTagsFrom fields [] fields

/-! ## Unique tags -/

/-- Where each tag appeared so far. -/
abbrev SeenTags := List (Tag × MemberContext)

def insertTag (tag : Tag) (context : MemberContext) (seen : SeenTags) : Except Failure SeenTags :=
  match seen.lookup tag with
  | some first => .error (.error (.duplicateField tag first context))
  | none => .ok ((tag, context) :: seen)

mutual

/-- Records where each tag in `members` appears, descending into group instances. -/
def insertUniqueTags (fields : List Field) (context : MemberContext) :
    List (ResolvedMember fields.length) → SeenTags → Except Failure SeenTags
  | [], seen => .ok seen
  | member :: members, seen => do
    let seen ← insertUniqueTag fields context member seen
    insertUniqueTags fields context members seen

def insertUniqueTag (fields : List Field) (context : MemberContext) :
    ResolvedMember fields.length → SeenTags → Except Failure SeenTags
  | .field fieldIndex _, seen => insertTag (fields.get fieldIndex).tag context seen
  | .group countFieldIndex _ _ _ _ members, seen => do
    let seen ← insertTag (fields.get countFieldIndex).tag context seen
    insertUniqueTags fields (context.group (fields.get countFieldIndex).name) members seen

end

def checkUniqueTags (fields : List Field) (context : MemberContext)
    (members : List (ResolvedMember fields.length)) : Except Failure Unit := do
  let _ ← insertUniqueTags fields context members []
  return ()

/-! ## Members -/

/-- The memoised component expansions and the components currently being expanded, the
innermost first. -/
structure Expander (spec : Spec) where
  expansions : Fin spec.components.length → Option (List (ResolvedMember spec.fields.length))
  stack : List (Fin spec.components.length)

section Members

variable (spec : Spec)

def Expander.new : Expander spec where
  expansions _ := none
  stack := []

/-- The definition `tag` refers to, where it is used in `context`. -/
def fieldIndex (tag : Tag) (context : MemberContext) : Except Failure (Fin spec.fields.length) :=
  match fieldIndex? spec.fields tag with
  | some index => .ok index
  | none => .error (.error (.unknownField tag context))

def resolveFieldRef (ref : FieldRef) (context : MemberContext) :
    Except Failure (ResolvedMember spec.fields.length) := do
  let index ← fieldIndex spec ref.tag context
  let field := spec.fields.get index
  if field.dataType.hasLengthField = true ∧ field.lengthTag = none then
    throw (.error (.missingLengthTag field.name context))
  else return .field index ref.isRequired

/-- Completes a member list: in a group instance its first member is required, and no tag
appears in it twice. -/
def completeMembers (context : MemberContext) (isInstance : Bool)
    (resolved : List (ResolvedMember spec.fields.length)) :
    Except Failure (List (ResolvedMember spec.fields.length)) := do
  let resolved := if isInstance then requireFirst resolved else resolved
  checkUniqueTags spec.fields context resolved
  return resolved

/-- The group that its count field and the members of its instances make. -/
def resolveGroup (countFieldIndex : Fin spec.fields.length) (isRequired : Bool)
    (context : MemberContext) (members : List (ResolvedMember spec.fields.length)) :
    Except Failure (ResolvedMember spec.fields.length) :=
  match members with
  | [] => .error (.error (.emptyGroup (context.group (spec.fields.get countFieldIndex).name)))
  | first :: rest =>
    .ok (.group countFieldIndex first.firstField isRequired context none (first :: rest))

variable (expandComponent :
  Fin spec.components.length → Expander spec → Except Failure (Expander spec))

mutual

/-- Resolves the members of one list, expanding component references in place. A component in
the `lead` of a group instance becomes required. -/
def resolveEach (context : MemberContext) (lead : Bool) :
    List Member → Expander spec →
      Except Failure (List (ResolvedMember spec.fields.length) × Expander spec)
  | [], expander => .ok ([], expander)
  | member :: members, expander => do
    let (resolved, expander) ← resolveMember context lead member expander
    let (rest, expander) ← resolveEach context false members expander
    return (resolved ++ rest, expander)

def resolveMember (context : MemberContext) (lead : Bool) :
    Member → Expander spec →
      Except Failure (List (ResolvedMember spec.fields.length) × Expander spec)
  | .field ref, expander => do
    let resolved ← resolveFieldRef spec ref context
    return ([resolved], expander)
  | .component ref, expander =>
    match componentIndex? spec.components ref.name with
    | none => .error (.error (.unknownComponent ref.name context))
    | some child => do
      let expander ← expandComponent child expander
      match expander.expansions child with
      | none => throw .panic
      | some expansion =>
        return (expansion.map (.combineRequired (ref.isRequired || lead)), expander)
  | .group countTag isRequired members, expander => do
    let countFieldIndex ← fieldIndex spec countTag context
    let inst := context.group (spec.fields.get countFieldIndex).name
    let (resolved, expander) ← resolveEach inst true members expander
    let resolved ← completeMembers spec inst true resolved
    let group ← resolveGroup spec countFieldIndex isRequired context resolved
    return ([group], expander)

end

/-- Resolves one member list, expanding component references in place, and checks that no tag
appears in it twice. -/
def resolveMembers (members : List Member) (context : MemberContext) (expander : Expander spec) :
    Except Failure (List (ResolvedMember spec.fields.length) × Expander spec) := do
  let (resolved, expander) ← resolveEach spec expandComponent context false members expander
  let resolved ← completeMembers spec context false resolved
  return (resolved, expander)

end Members

/-! ## Components -/

/-- Expands a component definition into its flat member list, unless that is done. -/
def expandComponent (spec : Spec) :
    ℕ → Fin spec.components.length → Expander spec → Except Failure (Expander spec)
  | 0, _, _ => .error .outOfFuel
  | fuel + 1, index, expander =>
    if (expander.expansions index).isSome then .ok expander
    else
      let component := spec.components.get index
      if index ∈ expander.stack then .error (.error (.circularComponent component.name))
      else do
        let context := MemberContext.component component.name
        let expander := { expander with stack := index :: expander.stack }
        let (members, expander) ←
          resolveMembers spec (expandComponent spec fuel) component.members context expander
        let expander := { expander with stack := expander.stack.tail }
        let expansion := component.owned members
        return { expander with
          expansions := Function.update expander.expansions index (some expansion) }

/-- Fuel for the deepest possible stack. -/
def Spec.fuel (spec : Spec) : ℕ := spec.components.length + 1

/-- Expands every component definition. -/
def expandComponents (spec : Spec) (expander : Expander spec) : Except Failure (Expander spec) :=
  (List.finRange spec.components.length).foldlM
    (fun expander index => expandComponent spec spec.fuel index expander) expander

/-! ## The dictionary -/

/-- A resolved data dictionary. -/
structure Dictionary where
  spec : Spec
  header : List (ResolvedMember spec.fields.length)
  /-- The members of each message, in the order of the spec's messages. -/
  messages : List (List (ResolvedMember spec.fields.length))
  trailer : List (ResolvedMember spec.fields.length)

/-- Resolves a message's members, and checks that the header and trailer share none of their
tags. -/
def resolveMessage (spec : Spec) (header trailer : List (ResolvedMember spec.fields.length))
    (message : Message) (expander : Expander spec) :
    Except Failure (List (ResolvedMember spec.fields.length) × Expander spec) := do
  let context := MemberContext.message message.name
  let (members, expander) ←
    resolveMembers spec (expandComponent spec spec.fuel) message.members context expander
  let seen ← insertUniqueTags spec.fields .header header []
  let seen ← insertUniqueTags spec.fields context members seen
  let _ ← insertUniqueTags spec.fields .trailer trailer seen
  return (members, expander)

/-- Resolves the messages one after another. -/
def resolveMessages (spec : Spec) (header trailer : List (ResolvedMember spec.fields.length)) :
    List Message → Expander spec → Except Failure (List (List (ResolvedMember spec.fields.length)))
  | [], _ => .ok []
  | message :: messages, expander => do
    let (members, expander) ← resolveMessage spec header trailer message expander
    let rest ← resolveMessages spec header trailer messages expander
    return members :: rest

/-- The checks made before anything is expanded. -/
def checkDefinitions (spec : Spec) : Except Failure Unit := do
  checkIntValues spec.fields
  checkUniqueCodes spec.fields
  checkUniqueMsgTypes spec.messages
  indexFields spec.fields
  checkLengthTags spec.fields
  indexComponents spec.components

/-- Resolves a spec into a dictionary, checking its integrity. -/
def Spec.resolve (spec : Spec) : Except Failure Dictionary := do
  checkDefinitions spec
  let expander ← expandComponents spec (Expander.new spec)
  let expand := expandComponent spec spec.fuel
  let (header, expander) ← resolveMembers spec expand spec.header .header expander
  let (trailer, expander) ← resolveMembers spec expand spec.trailer .trailer expander
  let messages ← resolveMessages spec header trailer spec.messages expander
  return { spec, header, messages, trailer }

end Refix.Dict
