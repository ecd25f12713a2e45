import Refix.Dictionary.Quickfix
import Refix.Dictionary.Resolver

/-!
# Parsing a QuickFIX Dictionary

The spec that an element tree lists, and the dictionary it resolves to. Names of fields are looked
up while members are read. Then each data field is given the LENGTH field that is listed directly
before it.
-/

namespace Refix.Dict.Quickfix

open Refix.Foundation
open Refix.Message (Tag)

/-! ## Element trees -/

/-- A node of the XML, its names without their namespaces. -/
inductive Node where
  | element (name : String) (attributes : List (String × String)) (children : List Node)
  /-- Text, a comment or a processing instruction. -/
  | other

namespace Node

def tagName : Node → String
  | element name _ _ => name
  | other => ""

def hasTagName (name : String) : Node → Bool
  | element own _ _ => own == name
  | other => false

def attribute? (name : String) : Node → Option String
  | element _ attributes _ => attributes.lookup name
  | other => none

def children : Node → List Node
  | element _ _ children => children
  | other => []

end Node

/-- A defect that prevents producing a dictionary at all. -/
inductive Error where
  | unexpectedRoot (root : String)
  | unknownProtocol (protocol : String)
  | missingAttribute (element name : String)
  | invalidNumber (element name value : String)
  | unknownField (context : MemberContext) (field : String)
  | duplicateField (field : String)
  | invalidAttribute (element name value : String)
  /-- A data field listed after different LENGTH fields. -/
  | conflictingLengthFields (field first second : String)
  | invalid (error : Dict.Error)
  deriving DecidableEq, Repr

/-- How parsing may fail: with an error, or in a way that would be a defect of the parser. -/
inductive Failure where
  | error (error : Error)
  | panic
  | outOfFuel
  deriving DecidableEq, Repr

/-- A failure to resolve the spec. -/
def Failure.ofResolve : Dict.Failure → Failure
  | .error defect => .error (.invalid defect)
  | .panic => .panic
  | .outOfFuel => .outOfFuel

/-! ## Attributes -/

def stringAttribute (node : Node) (name : String) : Except Failure String :=
  match node.attribute? name with
  | some value => .ok value
  | none => .error (.error (.missingAttribute node.tagName name))

/-- Parses an unsigned number up to `max`: digits, which a `+` may precede. -/
def parseUnsigned (max : ℕ) (text : String) : Option ℕ :=
  let digits := match text.toList with
    | '+' :: digits => digits
    | digits => digits
  if digits = [] ∨ digits.all Char.isDigit = false then none
  else
    let number := Nat.ofDigitChars 10 digits 0
    if number ≤ max then some number else none

/-- The number in an attribute, up to the greatest one of its type. -/
def intAttribute (max : ℕ) (node : Node) (name : String) : Except Failure ℕ :=
  match node.attribute? name with
  | some value =>
    match parseUnsigned max value with
    | some number => .ok number
    | none => .error (.error (.invalidNumber node.tagName name value))
  | none => .error (.error (.missingAttribute node.tagName name))

def intAttributeOr (max : ℕ) (node : Node) (name : String) (default : ℕ) : Except Failure ℕ :=
  match node.attribute? name with
  | some _ => intAttribute max node name
  | none => .ok default

def requiredAttribute (node : Node) : Except Failure Bool :=
  match node.attribute? "required" with
  | some "Y" => .ok true
  | some "N" | none => .ok false
  | some other => .error (.error (.invalidAttribute node.tagName "required" other))

def parseCategory (node : Node) : Except Failure Category :=
  match node.attribute? "msgcat" with
  | some "admin" => .ok .admin
  | some "app" => .ok .app
  | some other => .error (.error (.invalidAttribute node.tagName "msgcat" other))
  | none => .error (.error (.missingAttribute node.tagName "msgcat"))

/-- Greatest `u8`. -/
def u8Max : ℕ := 2 ^ 8 - 1

def parseVersion (root : Node) : Except Failure Version := do
  let protocol ← match root.attribute? "type" with
    | some "FIX" | none => pure .fix
    | some "FIXT" => pure .fixt
    | some other => throw (.error (.unknownProtocol other))
  let major ← intAttribute u8Max root "major"
  let minor ← intAttribute u8Max root "minor"
  let servicePack ← intAttributeOr u8Max root "servicepack" 0
  return { protocol, major, minor, servicePack }

/-! ## Fields -/

/-- Reads the nodes one after another, warnings being added on the way. -/
def parseEach {α : Type} (parse : Node → List Warning → Except Failure (α × List Warning)) :
    List Node → List Warning → Except Failure (List α × List Warning)
  | [], warnings => .ok ([], warnings)
  | node :: nodes, warnings => do
    let (first, warnings) ← parse node warnings
    let (rest, warnings) ← parseEach parse nodes warnings
    return (first :: rest, warnings)

/-- The section of a dictionary with the given name. -/
def section? (root : Node) (name : String) : Option Node :=
  root.children.find? (·.hasTagName name)

def parseDataType : String → DataType
  | "STRING" => .string
  | "INT" => .int
  | "LENGTH" => .length
  | "NUMINGROUP" => .numInGroup
  | "SEQNUM" => .seqNum
  | "TAGNUM" => .tagNum
  | "DAYOFMONTH" => .dayOfMonth
  | "FLOAT" => .float
  | "QTY" => .qty
  | "PRICE" => .price
  | "PRICEOFFSET" => .priceOffset
  | "AMT" => .amt
  | "PERCENTAGE" => .percentage
  | "CHAR" => .char
  | "BOOLEAN" => .boolean
  | "MULTIPLECHARVALUE" => .multipleCharValue
  | "MULTIPLESTRINGVALUE" | "MULTIPLEVALUESTRING" => .multipleStringValue
  | "CURRENCY" => .currency
  | "EXCHANGE" => .exchange
  | "COUNTRY" => .country
  | "LANGUAGE" => .language
  | "XID" => .xid
  | "XIDREF" => .xidRef
  | "UTCTIMESTAMP" | "TIME" => .utcTimestamp
  | "UTCTIMEONLY" => .utcTimeOnly
  | "UTCDATEONLY" | "UTCDATE" => .utcDateOnly
  | "LOCALMKTDATE" | "DATE" => .localMktDate
  | "LOCALMKTTIME" => .localMktTime
  | "MONTHYEAR" => .monthYear
  | "TZTIMESTAMP" => .tzTimestamp
  | "TZTIMEONLY" => .tzTimeOnly
  | "DATA" => .data
  | "XMLDATA" => .xmlData
  | name => .other name

def parseValue (node : Node) : Except Failure EnumValue := do
  let value ← stringAttribute node "enum"
  let description ← stringAttribute node "description"
  return { value, description }

def parseField (node : Node) (warnings : List Warning) :
    Except Failure (Field × List Warning) := do
  let name ← stringAttribute node "name"
  let values ← (node.children.filter (·.hasTagName "value")).mapM parseValue
  let tag ← intAttribute Message.u32Max node "number"
  let dataType := parseDataType (← stringAttribute node "type")
  match dropRepeatedCodes name dataType values warnings with
  | some (values, warnings) =>
    return ({ name, tag, dataType, lengthTag := none, values }, warnings)
  | none => throw .panic

def parseFields (root : Node) (warnings : List Warning) :
    Except Failure (List Field × List Warning) :=
  match section? root "fields" with
  | none => .ok ([], warnings)
  | some fieldSection => do
    let (fields, warnings) ←
      parseEach parseField (fieldSection.children.filter (·.hasTagName "field")) warnings
    match firstRepeat Field.name fields with
    | some (_, second) => throw (.error (.duplicateField second.name))
    | none => return (fields, warnings)

/-! ## Members -/

/-- The tag of the field with the given name, the last one winning. -/
def tagByName (fields : List Field) (name : String) : Option Tag :=
  (fields.reverse.find? (·.name == name)).map Field.tag

section Members

variable (fields : List Field)

def parseFieldRef (node : Node) (context : MemberContext) : Except Failure FieldRef := do
  let name ← stringAttribute node "name"
  match tagByName fields name with
  | none => throw (.error (.unknownField context name))
  | some tag => return { tag, isRequired := ← requiredAttribute node }

def parseComponentRef (node : Node) : Except Failure ComponentRef := do
  let name ← stringAttribute node "name"
  return { name, isRequired := ← requiredAttribute node }

mutual

def parseMembers : List Node → MemberContext → List Warning →
    Except Failure (List Member × List Warning)
  | [], _, warnings => .ok ([], warnings)
  | child :: children, context, warnings => do
    let (member, warnings) ← parseMember child context warnings
    let (rest, warnings) ← parseMembers children context warnings
    return (member.toList ++ rest, warnings)

/-- The member a node stands for. An unknown element is left out with a warning. -/
def parseMember : Node → MemberContext → List Warning →
    Except Failure (Option Member × List Warning)
  | .other, _, warnings => .ok (none, warnings)
  | .element name attributes children, context, warnings =>
    let node := Node.element name attributes children
    match name with
    | "field" => do
      let ref ← parseFieldRef fields node context
      return (some (.field ref), warnings)
    | "component" => do
      let ref ← parseComponentRef node
      return (some (.component ref), warnings)
    | "group" => do
      -- a group element names and flags its count field the way a field reference does
      let count ← parseFieldRef fields node context
      let name ← stringAttribute node "name"
      let (members, warnings) ← parseMembers children (context.group name) warnings
      return (some (.group count.tag count.isRequired members), warnings)
    | other => .ok (none, warnings ++ [.unsupportedElement context other])

end

def parseComponent (node : Node) (warnings : List Warning) :
    Except Failure (Component × List Warning) := do
  let name ← stringAttribute node "name"
  let (members, warnings) ← parseMembers fields node.children (.component name) warnings
  return ({ name, members }, warnings)

def parseComponents (root : Node) (warnings : List Warning) :
    Except Failure (List Component × List Warning) :=
  match section? root "components" with
  | none => .ok ([], warnings)
  | some components => parseEach (parseComponent fields)
      (components.children.filter (·.hasTagName "component")) warnings

def parseMessage (node : Node) (warnings : List Warning) :
    Except Failure (Message × List Warning) := do
  let name ← stringAttribute node "name"
  let category ← parseCategory node
  let (members, warnings) ← parseMembers fields node.children (.message name) warnings
  let msgType ← stringAttribute node "msgtype"
  return ({ name, msgType, members, category }, warnings)

def parseMessages (root : Node) (warnings : List Warning) :
    Except Failure (List Message × List Warning) :=
  match section? root "messages" with
  | none => .ok ([], warnings)
  | some messages => parseEach (parseMessage fields)
      (messages.children.filter (·.hasTagName "message")) warnings

/-- The members of the header or trailer section, or none when the dictionary leaves it out. -/
def parseSection (root : Node) (name : String) (context : MemberContext)
    (warnings : List Warning) : Except Failure (List Member × List Warning) :=
  match section? root name with
  | none => .ok ([], warnings)
  | some members => parseMembers fields members.children context warnings

end Members

/-! ## Length tags -/

/-- The field with the given tag, the last one winning. -/
def fieldByTag (fields : List Field) (tag : Tag) : Except Failure Field :=
  match fields.reverse.find? (·.tag == tag) with
  | some field => .ok field
  | none => .error .panic

/-- The length tag of each data field that has one. -/
abbrev LengthTags := List (Tag × Tag)

section LengthTags

variable (fields : List Field)

/-- Records a data field listed directly after a LENGTH field. -/
def linkPair (lengthTags : LengthTags) : Member × Member → Except Failure LengthTags
  | (.field length, .field data) => do
    let lengthField ← fieldByTag fields length.tag
    let dataField ← fieldByTag fields data.tag
    if lengthField.dataType ≠ .length ∨ dataField.dataType.hasLengthField = false then
      return lengthTags
    else
      match lengthTags.lookup data.tag with
      | none => return (data.tag, length.tag) :: lengthTags
      | some first =>
        if first ≠ length.tag then
          let firstField ← fieldByTag fields first
          throw (.error (.conflictingLengthFields dataField.name firstField.name lengthField.name))
        else return lengthTags
  | _ => return lengthTags

/-- Links the pairs of neighbours of one list. -/
def linkPairs (members : List Member) (lengthTags : LengthTags) : Except Failure LengthTags :=
  (members.zip members.tail).foldlM (linkPair fields) lengthTags

mutual

/-- Records the length tags in the groups of a list. -/
def collectGroups : List Member → LengthTags → Except Failure LengthTags
  | [], lengthTags => .ok lengthTags
  | member :: members, lengthTags => do
    let lengthTags ← collectGroup member lengthTags
    collectGroups members lengthTags

def collectGroup : Member → LengthTags → Except Failure LengthTags
  | .group _ _ members, lengthTags => do
    let lengthTags ← collectGroups members lengthTags
    linkPairs fields members lengthTags
  | _, lengthTags => .ok lengthTags

end

/-- Records the length tag of each data field listed directly after a LENGTH field, in `members`
and the groups within. -/
def collectLengthTags (members : List Member) (lengthTags : LengthTags) :
    Except Failure LengthTags := do
  let lengthTags ← collectGroups fields members lengthTags
  linkPairs fields members lengthTags

/-- Gives each data field the LENGTH field listed directly before it. -/
def linkLengthFields (header trailer : List Member) (messages : List Message)
    (components : List Component) : Except Failure (List Field) := do
  let memberLists := [header, trailer] ++ messages.map Message.members ++
    components.map Component.members
  let lengthTags ← memberLists.foldlM
    (fun lengthTags members => collectLengthTags fields members lengthTags) []
  return fields.map fun field => { field with lengthTag := lengthTags.lookup field.tag }

end LengthTags

/-! ## The dictionary -/

/-- The spec that a tree lists, its data fields not linked yet, and the warnings. -/
def parseSpec (root : Node) : Except Failure (Spec × List Warning) :=
  if root.hasTagName "fix" = false then .error (.error (.unexpectedRoot root.tagName))
  else do
    let version ← parseVersion root
    let (fields, warnings) ← parseFields root []
    let (header, warnings) ← parseSection fields root "header" .header warnings
    let (components, warnings) ← parseComponents fields root warnings
    let (messages, warnings) ← parseMessages fields root warnings
    let (trailer, warnings) ← parseSection fields root "trailer" .trailer warnings
    return ({ version, header, trailer, messages, components, fields }, warnings)

/-- The result of a successful parse. -/
structure Parsed where
  dictionary : Dictionary
  warnings : List Warning

/-- Parses the root element of a QuickFIX-format data dictionary. -/
def parse (root : Node) : Except Failure Parsed := do
  let (spec, warnings) ← parseSpec root
  let fields ←
    linkLengthFields spec.fields spec.header spec.trailer spec.messages spec.components
  match Spec.resolve { spec with fields } with
  | .ok dictionary => return { dictionary, warnings }
  | .error failure => throw (.ofResolve failure)

end Refix.Dict.Quickfix
