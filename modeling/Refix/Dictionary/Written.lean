import Refix.Dictionary.Declared
import Refix.Dictionary.LengthTags

/-!
# Writing a Dictionary

The element tree that says what a spec says, and nothing else. `Readable` is what a tree can say:
the specs that are read are the readable ones (`spec_read_iff`). A dictionary that is parsed is
parsed again from the tree that is written for it, and nothing is left out then (`parse_write`).
-/

namespace Refix.Dict.Quickfix

open Refix.Foundation
open Refix.Message (Tag)

/-! ## The tree of a spec -/

def protocolName : Protocol → String
  | .fix => "FIX"
  | .fixt => "FIXT"

def categoryName : Category → String
  | .admin => "admin"
  | .app => "app"

/-- The name of a data type, the first one where there are several. -/
def dataTypeName : DataType → String
  | .string => "STRING"
  | .int => "INT"
  | .length => "LENGTH"
  | .numInGroup => "NUMINGROUP"
  | .seqNum => "SEQNUM"
  | .tagNum => "TAGNUM"
  | .dayOfMonth => "DAYOFMONTH"
  | .float => "FLOAT"
  | .qty => "QTY"
  | .price => "PRICE"
  | .priceOffset => "PRICEOFFSET"
  | .amt => "AMT"
  | .percentage => "PERCENTAGE"
  | .char => "CHAR"
  | .boolean => "BOOLEAN"
  | .multipleCharValue => "MULTIPLECHARVALUE"
  | .multipleStringValue => "MULTIPLESTRINGVALUE"
  | .currency => "CURRENCY"
  | .exchange => "EXCHANGE"
  | .country => "COUNTRY"
  | .language => "LANGUAGE"
  | .xid => "XID"
  | .xidRef => "XIDREF"
  | .utcTimestamp => "UTCTIMESTAMP"
  | .utcTimeOnly => "UTCTIMEONLY"
  | .utcDateOnly => "UTCDATEONLY"
  | .localMktDate => "LOCALMKTDATE"
  | .localMktTime => "LOCALMKTTIME"
  | .monthYear => "MONTHYEAR"
  | .tzTimestamp => "TZTIMESTAMP"
  | .tzTimeOnly => "TZTIMEONLY"
  | .data => "DATA"
  | .xmlData => "XMLDATA"
  | .other name => name

def writeValue (value : EnumValue) : Node :=
  .element "value" [("enum", value.value), ("description", value.description)] []

def writeField (field : Field) : Node :=
  .element "field"
    [("number", Nat.repr field.tag), ("name", field.name), ("type", dataTypeName field.dataType)]
    (field.values.map writeValue)

/-- The name of the field with the given tag. -/
def nameOfTag (fields : List Field) (tag : Tag) : String :=
  ((fields.find? (·.tag == tag)).map Field.name).getD ""

/-- How a member is named, and whether it is required. -/
def refAttributes (name : String) (isRequired : Bool) : List (String × String) :=
  [("name", name), ("required", if isRequired then "Y" else "N")]

section Members

variable (fields : List Field)

mutual

def writeMembers : List Member → List Node
  | [] => []
  | member :: members => writeMember member :: writeMembers members

def writeMember : Member → Node
  | .field ref => .element "field" (refAttributes (nameOfTag fields ref.tag) ref.isRequired) []
  | .component ref => .element "component" (refAttributes ref.name ref.isRequired) []
  | .group countTag isRequired members =>
    .element "group" (refAttributes (nameOfTag fields countTag) isRequired) (writeMembers members)

end

def writeComponent (component : Component) : Node :=
  .element "component" [("name", component.name)] (writeMembers fields component.members)

def writeMessage (message : Message) : Node :=
  .element "message"
    [("name", message.name), ("msgtype", message.msgType),
      ("msgcat", categoryName message.category)]
    (writeMembers fields message.members)

end Members

/-- The tree that says what the spec says. -/
def write (spec : Spec) : Node :=
  .element "fix"
    [("type", protocolName spec.version.protocol), ("major", Nat.repr spec.version.major),
      ("minor", Nat.repr spec.version.minor),
      ("servicepack", Nat.repr spec.version.servicePack)]
    [.element "header" [] (writeMembers spec.fields spec.header),
      .element "messages" [] (spec.messages.map (writeMessage spec.fields)),
      .element "trailer" [] (writeMembers spec.fields spec.trailer),
      .element "components" [] (spec.components.map (writeComponent spec.fields)),
      .element "fields" [] (spec.fields.map writeField)]

/-! ## What a tree can say -/

/-- Every tag that a list refers to is that of a field, at any group depth. -/
inductive Listed (fields : List Field) : List Member → Prop where
  | nil : Listed fields []
  | field {ref : FieldRef} {members : List Member} (href : ∃ field ∈ fields, field.tag = ref.tag)
      (hrest : Listed fields members) : Listed fields (.field ref :: members)
  | component {ref : ComponentRef} {members : List Member} (hrest : Listed fields members) :
      Listed fields (.component ref :: members)
  | group {countTag : Tag} {isRequired : Bool} {inst members : List Member}
      (hcount : ∃ field ∈ fields, field.tag = countTag) (hinst : Listed fields inst)
      (hrest : Listed fields members) :
      Listed fields (.group countTag isRequired inst :: members)

/-- What a field element can say. Which field gives the length of a data field is not said. -/
structure ReadableField (field : Field) : Prop where
  tag_fits : field.tag ≤ Message.u32Max
  named_type : ∃ name, parseDataType name = field.dataType
  unlinked : field.lengthTag = none
  codes_nodup : (field.values.map (field.dataType.canonicalCode ·.value)).Nodup

/-- What a tree can say. -/
structure Readable (spec : Spec) : Prop where
  major_fits : spec.version.major ≤ u8Max
  minor_fits : spec.version.minor ≤ u8Max
  servicePack_fits : spec.version.servicePack ≤ u8Max
  names_nodup : (spec.fields.map Field.name).Nodup
  fields : ∀ field ∈ spec.fields, ReadableField field
  listed : ∀ members, spec.IsRoot members → Listed spec.fields members

/-! ## Reading what is written -/

theorem parseUnsigned_repr {max n : ℕ} (h : n ≤ max) : parseUnsigned max (Nat.repr n) = some n := by
  have hdigits : (Nat.toDigits 10 n).all Char.isDigit = true :=
    List.all_eq_true.mpr fun c hc => Nat.isDigit_of_mem_toDigits (by decide) (by decide) hc
  unfold parseUnsigned
  rw [Nat.toList_repr]
  split
  · next digits heq =>
    rw [heq] at hdigits
    simp at hdigits
  · simp [hdigits, Nat.toDigits_ne_nil, Nat.ofDigitChars_ten_toDigits, h]

/-- A type outside the standard is read from its own name only. -/
theorem eq_of_parseDataType_eq_other {name other : String}
    (h : parseDataType name = .other other) : name = other := by
  unfold parseDataType at h
  split at h
  all_goals first
    | exact DataType.other.inj h
    | cases h

/-- The name of a type is read as the type. -/
theorem parseDataType_dataTypeName {dataType : DataType}
    (h : ∃ name, parseDataType name = dataType) :
    parseDataType (dataTypeName dataType) = dataType := by
  obtain ⟨name, rfl⟩ := h
  cases htype : parseDataType name with
  | other other =>
    rw [dataTypeName]
    rwa [eq_of_parseDataType_eq_other htype] at htype
  | _ => rfl

section Attributes

variable {node : Node} {name value : String} {max n : ℕ}

theorem stringAttribute_eq (h : node.attribute? name = some value) :
    stringAttribute node name = .ok value := by
  simp only [stringAttribute, h]

theorem intAttribute_eq (h : node.attribute? name = some (Nat.repr n)) (hfits : n ≤ max) :
    intAttribute max node name = .ok n := by
  simp only [intAttribute, h, parseUnsigned_repr hfits]

theorem intAttributeOr_eq (h : node.attribute? name = some (Nat.repr n)) (hfits : n ≤ max)
    (default : ℕ) : intAttributeOr max node name default = .ok n := by
  simp only [intAttributeOr, h, intAttribute_eq h hfits]

end Attributes

theorem parseVersion_write {spec : Spec} (h : Readable spec) :
    parseVersion (write spec) = .ok spec.version := by
  have hmajor : intAttribute u8Max (write spec) "major" = .ok spec.version.major :=
    intAttribute_eq (by simp [write, Node.attribute?, List.lookup]) h.major_fits
  have hminor : intAttribute u8Max (write spec) "minor" = .ok spec.version.minor :=
    intAttribute_eq (by simp [write, Node.attribute?, List.lookup]) h.minor_fits
  have hservicePack : intAttributeOr u8Max (write spec) "servicepack" 0 =
      .ok spec.version.servicePack :=
    intAttributeOr_eq (by simp [write, Node.attribute?, List.lookup]) h.servicePack_fits 0
  have hprotocol : (write spec).attribute? "type" = some (protocolName spec.version.protocol) :=
    by simp [write, Node.attribute?, List.lookup]
  unfold parseVersion
  rw [hprotocol, hmajor, hminor, hservicePack]
  cases hcase : spec.version.protocol <;>
    simp only [protocolName, pure_bind, ok_bind, ← hcase] <;> rfl

theorem mapM_parseValue (values : List EnumValue) :
    (((values.map writeValue).filter (·.hasTagName "value")).mapM parseValue) = .ok values := by
  induction values with
  | nil => rfl
  | cons value values ih =>
    rw [List.map_cons, List.filter_cons_of_pos rfl, List.mapM_cons, ih]
    rfl

/-- Values of different codes are all kept. -/
theorem dropRepeatedCodes_of_nodup (field : String) {dataType : DataType}
    {values : List EnumValue} (h : (values.map (dataType.canonicalCode ·.value)).Nodup)
    (warnings : List Warning) :
    dropRepeatedCodes field dataType values warnings = some (values, warnings) := by
  rw [dropRepeatedCodes_eq, firsts_of_nodup h, repeatedCodes, repeats_of_nodup h]
  simp

theorem parseField_write {field : Field} (h : ReadableField field) (warnings : List Warning) :
    parseField (writeField field) warnings = .ok (field, warnings) := by
  have hname : stringAttribute (writeField field) "name" = .ok field.name :=
    stringAttribute_eq (by simp [writeField, Node.attribute?, List.lookup])
  have htag : intAttribute Message.u32Max (writeField field) "number" = .ok field.tag :=
    intAttribute_eq (by simp [writeField, Node.attribute?, List.lookup]) h.tag_fits
  have htype : stringAttribute (writeField field) "type" = .ok (dataTypeName field.dataType) :=
    stringAttribute_eq (by simp [writeField, Node.attribute?, List.lookup])
  have hvalues : ((writeField field).children.filter (·.hasTagName "value")).mapM parseValue =
      .ok field.values := mapM_parseValue field.values
  have hkept := dropRepeatedCodes_of_nodup field.name h.codes_nodup warnings
  unfold parseField
  rw [hname, hvalues, htag, htype]
  simp only [ok_bind, parseDataType_dataTypeName h.named_type, hkept, ← h.unlinked]
  rfl

/-- Reading each of the nodes that are written gives back what they were written for. -/
theorem parseEach_write {α : Type} {parse : Node → List Warning → Except Failure (α × List Warning)}
    {write : α → Node} {xs : List α}
    (h : ∀ x ∈ xs, ∀ warnings, parse (write x) warnings = .ok (x, warnings))
    (warnings : List Warning) : parseEach parse (xs.map write) warnings = .ok (xs, warnings) := by
  induction xs with
  | nil => rfl
  | cons x xs ih =>
    obtain ⟨hx, hxs⟩ := List.forall_mem_cons.mp h
    simp only [List.map_cons, parseEach, hx, ok_bind, ih hxs]
    rfl

section Members

variable {fields : List Field}

/-- The name of a tag is that of the tag. -/
theorem tagByName_nameOfTag (hnames : (fields.map Field.name).Nodup) {tag : Tag}
    (h : ∃ field ∈ fields, field.tag = tag) :
    tagByName fields (nameOfTag fields tag) = some tag := by
  obtain ⟨field, hfield, htag⟩ := h
  obtain ⟨first, hfind⟩ : ∃ first, fields.find? (·.tag == tag) = some first := by
    rw [← Option.isSome_iff_exists, List.find?_isSome]
    exact ⟨field, hfield, by simpa using htag⟩
  have hreverse : (fields.reverse.map Field.name).Nodup := by
    rw [List.map_reverse]
    exact List.nodup_reverse.mpr hnames
  have hmem : first ∈ fields.reverse := List.mem_reverse.mpr (List.mem_of_find?_eq_some hfind)
  have hsame := find?_key_eq Field.name hreverse hmem
  have hfirst : first.tag = tag := by simpa using List.find?_some hfind
  rw [nameOfTag, hfind, Option.map_some, Option.getD_some, tagByName, hsame, Option.map_some,
    hfirst]

theorem stringAttribute_ref (element name : String) (isRequired : Bool) (children : List Node) :
    stringAttribute (.element element (refAttributes name isRequired) children) "name" =
      .ok name :=
  stringAttribute_eq (by simp [refAttributes, Node.attribute?])

theorem requiredAttribute_ref (element name : String) (isRequired : Bool)
    (children : List Node) :
    requiredAttribute (.element element (refAttributes name isRequired) children) =
      .ok isRequired := by
  cases isRequired <;> simp [requiredAttribute, refAttributes, Node.attribute?, List.lookup]

theorem parseFieldRef_write (hnames : (fields.map Field.name).Nodup) {tag : Tag}
    (h : ∃ field ∈ fields, field.tag = tag) (element : String) (isRequired : Bool)
    (children : List Node) (context : MemberContext) :
    parseFieldRef fields
        (.element element (refAttributes (nameOfTag fields tag) isRequired) children) context =
      .ok { tag, isRequired } := by
  unfold parseFieldRef
  rw [stringAttribute_ref, requiredAttribute_ref, ok_bind, tagByName_nameOfTag hnames h]
  rfl

theorem parseComponentRef_write (ref : ComponentRef) :
    parseComponentRef (.element "component" (refAttributes ref.name ref.isRequired) []) =
      .ok ref := by
  unfold parseComponentRef
  rw [stringAttribute_ref, requiredAttribute_ref]
  rfl

/-- **Members that are written are read**, whatever list they stand in. -/
theorem parseMembers_write (hnames : (fields.map Field.name).Nodup) {members : List Member}
    (h : Listed fields members) (context : MemberContext) (warnings : List Warning) :
    parseMembers fields (writeMembers fields members) context warnings =
      .ok (members, warnings) := by
  induction h generalizing context warnings with
  | nil => rfl
  | field href _ ih =>
    simp only [writeMembers, writeMember, parseMembers, parseMember,
      parseFieldRef_write hnames href, ok_bind, ih]
    rfl
  | component _ ih =>
    simp only [writeMembers, writeMember, parseMembers, parseMember, parseComponentRef_write,
      ok_bind, ih]
    rfl
  | group hcount _ _ ihInst ih =>
    simp only [writeMembers, writeMember, parseMembers, parseMember,
      parseFieldRef_write hnames hcount, stringAttribute_ref, ok_bind, ihInst, ih]
    rfl

end Members

section Spec

variable {spec : Spec}

theorem parseComponent_write (h : Readable spec) {component : Component}
    (hcomponent : component ∈ spec.components) (warnings : List Warning) :
    parseComponent spec.fields (writeComponent spec.fields component) warnings =
      .ok (component, warnings) := by
  have hname : stringAttribute (writeComponent spec.fields component) "name" =
      .ok component.name :=
    stringAttribute_eq (by simp [writeComponent, Node.attribute?, List.lookup])
  have hmembers := parseMembers_write h.names_nodup (h.listed _ (.component hcomponent))
    (.component component.name) warnings
  unfold parseComponent
  rw [hname, ok_bind, writeComponent, Node.children, hmembers]
  rfl

theorem parseMessage_write (h : Readable spec) {message : Message}
    (hmessage : message ∈ spec.messages) (warnings : List Warning) :
    parseMessage spec.fields (writeMessage spec.fields message) warnings =
      .ok (message, warnings) := by
  have hname : stringAttribute (writeMessage spec.fields message) "name" = .ok message.name :=
    stringAttribute_eq (by simp [writeMessage, Node.attribute?, List.lookup])
  have hmsgType : stringAttribute (writeMessage spec.fields message) "msgtype" =
      .ok message.msgType :=
    stringAttribute_eq (by simp [writeMessage, Node.attribute?, List.lookup])
  have hcategory : parseCategory (writeMessage spec.fields message) = .ok message.category := by
    cases hcase : message.category <;>
      simp [parseCategory, writeMessage, Node.attribute?, List.lookup, hcase, categoryName]
  have hmembers := parseMembers_write h.names_nodup (h.listed _ (.message hmessage))
    (.message message.name) warnings
  unfold parseMessage
  rw [hname, hcategory, hmsgType]
  simp only [ok_bind, writeMessage, Node.children, hmembers]
  rfl

theorem filter_map_hasTagName {α : Type} (name : String) {write : α → Node}
    (h : ∀ x, (write x).hasTagName name = true) (xs : List α) :
    (xs.map write).filter (·.hasTagName name) = xs.map write := by
  apply List.filter_eq_self.mpr
  intro node hnode
  obtain ⟨x, -, rfl⟩ := List.mem_map.mp hnode
  exact h x

/-- **What is written is read**, and nothing is warned of. -/
theorem parseSpec_write (h : Readable spec) : parseSpec (write spec) = .ok (spec, []) := by
  -- the warnings go through every section, and each of them leaves them as they are
  have hfields : parseFields (write spec) [] = .ok (spec.fields, []) := by
    have heach := parseEach_write (fun field hfield => parseField_write (h.fields field hfield)) []
    have hsection : section? (write spec) "fields" =
        some (.element "fields" [] (spec.fields.map writeField)) := rfl
    have htag : ∀ field, (writeField field).hasTagName "field" = true := fun _ => rfl
    unfold parseFields
    rw [hsection]
    simp only [Node.children, filter_map_hasTagName "field" htag, heach, ok_bind,
      firstRepeat_eq_none_iff.mpr h.names_nodup]
    rfl
  have hheader : parseSection spec.fields (write spec) "header" .header [] =
      .ok (spec.header, []) :=
    parseMembers_write h.names_nodup (h.listed _ .header) .header []
  have htrailer : parseSection spec.fields (write spec) "trailer" .trailer [] =
      .ok (spec.trailer, []) :=
    parseMembers_write h.names_nodup (h.listed _ .trailer) .trailer []
  have hcomponents : parseComponents spec.fields (write spec) [] = .ok (spec.components, []) := by
    have heach := parseEach_write
      (fun component hcomponent => parseComponent_write h hcomponent) []
    have hsection : section? (write spec) "components" =
        some (.element "components" [] (spec.components.map (writeComponent spec.fields))) := rfl
    have htag : ∀ component, (writeComponent spec.fields component).hasTagName "component" = true :=
      fun _ => rfl
    unfold parseComponents
    rw [hsection]
    simp only [Node.children, filter_map_hasTagName "component" htag, heach]
  have hmessages : parseMessages spec.fields (write spec) [] = .ok (spec.messages, []) := by
    have heach := parseEach_write (fun message hmessage => parseMessage_write h hmessage) []
    have hsection : section? (write spec) "messages" =
        some (.element "messages" [] (spec.messages.map (writeMessage spec.fields))) := rfl
    have htag : ∀ message, (writeMessage spec.fields message).hasTagName "message" = true :=
      fun _ => rfl
    unfold parseMessages
    rw [hsection]
    simp only [Node.children, filter_map_hasTagName "message" htag, heach]
  have hroot : (write spec).hasTagName "fix" = true := rfl
  unfold parseSpec
  rw [hroot, parseVersion_write h, hfields]
  simp only [ok_bind, hheader, hcomponents, hmessages, htrailer]
  rfl

end Spec

/-! ## What is read is readable -/

theorem le_of_parseUnsigned {max n : ℕ} {text : String} (h : parseUnsigned max text = some n) :
    n ≤ max := by
  unfold parseUnsigned at h
  extract_lets digits at h
  split at h
  · cases h
  · obtain ⟨hle, heq⟩ := Option.ite_none_right_eq_some.mp h
    exact Option.some.inj heq ▸ hle

theorem intAttribute_fits (max : ℕ) (node : Node) (name : String) :
    Outcome (fun _ => True) (fun n => n ≤ max) (intAttribute max node name) := by
  unfold intAttribute
  split
  · split
    · next hparse => exact le_of_parseUnsigned hparse
    · trivial
  · trivial

theorem intAttributeOr_fits {max : ℕ} (node : Node) (name : String) {default : ℕ}
    (hdefault : default ≤ max) :
    Outcome (fun _ => True) (fun n => n ≤ max) (intAttributeOr max node name default) := by
  unfold intAttributeOr
  split
  · exact intAttribute_fits max node name
  · exact hdefault

theorem parseVersion_fits (root : Node) :
    Outcome (fun _ => True) (fun version : Version =>
      version.major ≤ u8Max ∧ version.minor ≤ u8Max ∧ version.servicePack ≤ u8Max)
      (parseVersion root) := by
  have hnumbers : ∀ protocol, Outcome (fun _ => True) (fun version : Version =>
      version.major ≤ u8Max ∧ version.minor ≤ u8Max ∧ version.servicePack ≤ u8Max)
      (do
        let major ← intAttribute u8Max root "major"
        let minor ← intAttribute u8Max root "minor"
        let servicePack ← intAttributeOr u8Max root "servicepack" 0
        return ({ protocol, major, minor, servicePack } : Version) : Except Failure Version) := by
    intro protocol
    refine (intAttribute_fits u8Max root "major").bind fun major _ hmajor => ?_
    refine (intAttribute_fits u8Max root "minor").bind fun minor _ hminor => ?_
    refine (intAttributeOr_fits root "servicepack" (Nat.zero_le _)).bind
      fun servicePack _ hservicePack => ?_
    exact ⟨hmajor, hminor, hservicePack⟩
  unfold parseVersion
  dsimp only
  split
  · exact hnumbers .fix
  · exact hnumbers .fix
  · exact hnumbers .fixt
  · trivial

theorem parseField_readable (node : Node) (warnings : List Warning) :
    Outcome (fun _ => True) (fun read : Field × List Warning => ReadableField read.1)
      (parseField node warnings) := by
  unfold parseField
  refine (outcome_self _).bind fun name _ _ => ?_
  refine (outcome_self _).bind fun values _ _ => ?_
  refine (intAttribute_fits Message.u32Max node "number").bind fun tag _ htag => ?_
  refine (outcome_self _).bind fun typeName _ _ => ?_
  simp only [dropRepeatedCodes_eq]
  exact ⟨htag, ⟨typeName, rfl⟩, rfl, nodup_firsts _ values⟩

theorem parseFields_readable (root : Node) (warnings : List Warning) :
    Outcome (fun _ => True) (fun read : List Field × List Warning =>
      (read.1.map Field.name).Nodup ∧ ∀ field ∈ read.1, ReadableField field)
      (parseFields root warnings) := by
  unfold parseFields
  split
  · exact ⟨List.nodup_nil, List.forall_mem_nil _⟩
  · refine (parseEach_outcome parseField_readable _ warnings).bind
      fun ⟨fields, warnings⟩ _ hfields => ?_
    dsimp only
    cases hrepeat : firstRepeat Field.name fields with
    | some pair => trivial
    | none => exact ⟨firstRepeat_eq_none_iff.mp hrepeat, hfields⟩

section Members

variable {fields : List Field}

theorem parseFieldRef_listed (node : Node) (context : MemberContext) :
    Outcome (fun _ => True) (fun ref : FieldRef => ∃ field ∈ fields, field.tag = ref.tag)
      (parseFieldRef fields node context) := by
  refine (outcome_self _).bind fun name _ _ => ?_
  cases htag : tagByName fields name with
  | none => trivial
  | some tag =>
    refine (outcome_self _).bind fun isRequired _ _ => ?_
    obtain ⟨field, hfind, htag⟩ := Option.map_eq_some_iff.mp htag
    exact ⟨field, List.mem_reverse.mp (List.mem_of_find?_eq_some hfind), htag⟩

/-- Every tag of a list that is read is that of a field. -/
theorem parseMembers_listed (nodes : List Node) : ∀ context warnings,
    Outcome (fun _ => True) (fun read : List Member × List Warning => Listed fields read.1)
      (parseMembers fields nodes context warnings) := by
  induction nodes using nodes_induction with
  | nil => exact fun _ _ => .nil
  | other nodes ih =>
    intro context warnings
    rw [parseMembers, parseMember]
    exact (ih context warnings).bind fun _ _ hrest => hrest
  | element name attributes children nodes hchildren ih =>
    intro context warnings
    have hmember : Outcome (fun _ => True) (fun read : Option Member × List Warning =>
        ∀ members, Listed fields members → Listed fields (read.1.toList ++ members))
        (parseMember fields (.element name attributes children) context warnings) := by
      unfold parseMember
      split
      · refine (parseFieldRef_listed _ context).bind fun ref _ href => ?_
        exact fun members hmembers => .field href hmembers
      · refine (outcome_self _).bind fun ref _ _ => ?_
        exact fun members hmembers => .component hmembers
      · refine (parseFieldRef_listed _ context).bind fun count _ hcount => ?_
        refine (outcome_self _).bind fun name _ _ => ?_
        refine (hchildren (context.group name) warnings).bind fun read _ hinst => ?_
        exact fun members hmembers => .group hcount hinst hmembers
      · exact fun members hmembers => hmembers
    rw [parseMembers]
    refine hmember.bind fun read _ hmember => ?_
    refine (ih context read.2).bind fun rest _ hrest => ?_
    exact hmember rest.1 hrest

theorem parseSection_listed (root : Node) (name : String) (context : MemberContext)
    (warnings : List Warning) :
    Outcome (fun _ => True) (fun read => Listed fields read.1)
      (parseSection fields root name context warnings) := by
  unfold parseSection
  split
  · exact Listed.nil
  · exact parseMembers_listed _ context warnings

theorem parseComponents_listed (root : Node) (warnings : List Warning) :
    Outcome (fun _ => True) (fun read => ∀ component ∈ read.1, Listed fields component.members)
      (parseComponents fields root warnings) := by
  unfold parseComponents
  split
  · exact List.forall_mem_nil _
  · apply parseEach_outcome
    intro node warnings
    refine (outcome_self _).bind fun name _ _ => ?_
    refine (parseMembers_listed _ _ warnings).bind fun ⟨members, warnings⟩ _ hmembers => ?_
    exact hmembers

theorem parseMessages_listed (root : Node) (warnings : List Warning) :
    Outcome (fun _ => True) (fun read => ∀ message ∈ read.1, Listed fields message.members)
      (parseMessages fields root warnings) := by
  unfold parseMessages
  split
  · exact List.forall_mem_nil _
  · apply parseEach_outcome
    intro node warnings
    refine (outcome_self _).bind fun name _ _ => ?_
    refine (outcome_self _).bind fun category _ _ => ?_
    refine (parseMembers_listed _ _ warnings).bind fun ⟨members, warnings⟩ _ hmembers => ?_
    refine (outcome_self _).bind fun msgType _ _ => ?_
    exact hmembers

end Members

/-- **A spec that is read is readable.** -/
theorem parseSpec_readable (root : Node) :
    Outcome (fun _ => True) (fun read : Spec × List Warning => Readable read.1)
      (parseSpec root) := by
  unfold parseSpec
  split
  · trivial
  refine (parseVersion_fits root).bind fun version _ hversion => ?_
  refine (parseFields_readable root []).bind fun ⟨fields, warnings⟩ _ hfields => ?_
  refine (parseSection_listed root "header" .header warnings).bind
    fun ⟨header, warnings⟩ _ hheader => ?_
  refine (parseComponents_listed root warnings).bind fun ⟨components, warnings⟩ _ hcomponents => ?_
  refine (parseMessages_listed root warnings).bind fun ⟨messages, warnings⟩ _ hmessages => ?_
  refine (parseSection_listed root "trailer" .trailer warnings).bind
    fun ⟨trailer, warnings⟩ _ htrailer => ?_
  refine ⟨hversion.1, hversion.2.1, hversion.2.2, hfields.1, hfields.2, ?_⟩
  intro members hroot
  cases hroot with
  | header => exact hheader
  | trailer => exact htrailer
  | message h => exact hmessages _ h
  | component h => exact hcomponents _ h

/-- The length tags of the fields are not written. -/
theorem write_linked (spec : Spec) (lengthTag : Field → Option Tag) :
    write { spec with fields := spec.fields.map fun field =>
      { field with lengthTag := lengthTag field } } = write spec := by
  have hname : nameOfTag (spec.fields.map fun field =>
      { field with lengthTag := lengthTag field }) = nameOfTag spec.fields := by
    funext tag
    simp only [nameOfTag, List.find?_map, Option.map_map]
    rfl
  have hmembers : writeMembers (spec.fields.map fun field =>
      { field with lengthTag := lengthTag field }) = writeMembers spec.fields := by
    funext members
    induction members using members_induction with
    | nil => rfl
    | field ref members ih => simp only [writeMembers, writeMember, hname, ih]
    | component ref members ih => simp only [writeMembers, writeMember, ih]
    | group countTag isRequired inst members ihInst ih =>
      simp only [writeMembers, writeMember, hname, ihInst, ih]
  have hmessage : writeMessage (spec.fields.map fun field =>
      { field with lengthTag := lengthTag field }) = writeMessage spec.fields := by
    funext message
    simp only [writeMessage, hmembers]
  have hcomponent : writeComponent (spec.fields.map fun field =>
      { field with lengthTag := lengthTag field }) = writeComponent spec.fields := by
    funext component
    simp only [writeComponent, hmembers]
  simp only [write, hmembers, hmessage, hcomponent, List.map_map]
  rfl

/-- **A dictionary that is parsed is parsed again from what is written for it**, and nothing is
left out then. -/
theorem parse_write {root : Node} {parsed : Parsed} (h : parse root = .ok parsed) :
    parse (write parsed.dictionary.spec) = .ok ⟨parsed.dictionary, []⟩ := by
  obtain ⟨spec, fields, hspec, hlink, hresolve⟩ := parse_eq_ok h
  obtain ⟨hdictionary, -⟩ := resolved_of_resolve hresolve
  have hreadable := (parseSpec_readable root).of_eq_ok hspec
  obtain ⟨lengthTags, -, hfields⟩ := bind_eq_ok.mp hlink
  have hlinked : fields = spec.fields.map fun field =>
      { field with lengthTag := lengthTags.lookup field.tag } := (Except.ok.inj hfields).symm
  have hwrite : write parsed.dictionary.spec = write spec := by
    rw [hdictionary, hlinked, write_linked]
  rw [hwrite, parse, parseSpec_write hreadable]
  simp only [ok_bind, hlink, hresolve]
  rfl

/-- A data field behind its length, a value listed twice, and an element that is not known. -/
def noteRoot : Node :=
  .element "fix" [("major", "4"), ("minor", "4")]
    [.element "fields" []
      [.element "field" [("number", "54"), ("name", "Side"), ("type", "CHAR")]
        [.element "value" [("enum", "1"), ("description", "BUY")] [],
         .element "value" [("enum", "1"), ("description", "BID")] []],
       .element "field" [("number", "+5001"), ("name", "NoteLength"), ("type", "LENGTH")] [],
       .element "field" [("number", "5002"), ("name", "Note"), ("type", "DATA")] []],
     .element "messages" []
      [.element "message" [("name", "News"), ("msgtype", "B"), ("msgcat", "app")]
        [.element "field" [("name", "NoteLength")] [], .other,
         .element "field" [("name", "Note"), ("required", "Y")] [], .element "widget" [] [],
         .element "field" [("name", "Side")] []]]]

theorem parse_write_note :
    ∃ parsed, parse noteRoot = .ok parsed ∧
      parsed.warnings =
        [.repeatedCode "Side" { value := "1", description := "BUY" }
            { value := "1", description := "BID" },
          .unsupportedElement (.message "News") "widget"] ∧
      parse (write parsed.dictionary.spec) = .ok ⟨parsed.dictionary, []⟩ := by
  have hwarnings : (parse noteRoot).map Parsed.warnings =
      .ok [.repeatedCode "Side" { value := "1", description := "BUY" }
          { value := "1", description := "BID" },
        .unsupportedElement (.message "News") "widget"] := rfl
  cases hparsed : parse noteRoot with
  | error failure =>
    rw [hparsed] at hwarnings
    cases hwarnings
  | ok parsed =>
    rw [hparsed] at hwarnings
    exact ⟨parsed, rfl, Except.ok.inj hwarnings, parse_write hparsed⟩

end Refix.Dict.Quickfix
