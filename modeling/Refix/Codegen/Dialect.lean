import Refix.Dictionary.LengthTags
import Refix.Message.Envelope

/-!
# The Generated Dialect

A dictionary's own length tags go into the dialect that is generated for it. So a data field that
is listed directly after its LENGTH field is read by length, from the dictionary's XML down to the
tokenizer.
-/

namespace Refix.Codegen

open Refix.Foundation
open Refix.Dict
open Refix.Dict.Quickfix
open Refix.Message (Bytes Dialect RawField RawMessage Tag Tokenizer equalsSign fieldAt malformed
  parseU32 soh wireField)

/-- Every length tag the dictionary links to a data field, in order. -/
def lengthTags (dictionary : Dictionary) : List Tag :=
  (dictionary.spec.fields.filterMap Field.lengthTag).insertionSort (· ≤ ·)

/-- The `DIALECT` constant, with every length tag the dictionary links. -/
def emitDialect (dictionary : Dictionary) : Dialect :=
  let tags := lengthTags dictionary
  if tags.isEmpty then Dialect.standard else { Dialect.standard with extraLengthTags := tags }

@[simp] theorem emitDialect_extraLengthTags (dictionary : Dictionary) :
    (emitDialect dictionary).extraLengthTags = lengthTags dictionary := by
  unfold emitDialect
  simp only
  split
  · next hempty => exact (List.isEmpty_iff.mp hempty).symm
  · rfl

theorem mem_lengthTags_iff {dictionary : Dictionary} {length : Tag} :
    length ∈ lengthTags dictionary ↔
      ∃ field ∈ dictionary.spec.fields, field.lengthTag = some length := by
  rw [lengthTags, List.mem_insertionSort, List.mem_filterMap]

/-- **The field after a length field of the dialect is read by its length**, in every frame. -/
theorem fields_of_length {dialect : Dialect} {length : Tag}
    (hmem : length ∈ dialect.extraLengthTags) (hlength : length ≠ malformed) {bytes : Bytes}
    {message : RawMessage} (hmessage : (Tokenizer.new dialect).tokenize bytes = .ok message)
    {i : ℕ} {read : RawField} (hread : message.fields[i]? = some read) (htag : read.tag = length)
    {before tagBytes value after : Bytes}
    (hbytes : bytes = before ++ (wireField soh tagBytes value ++ after))
    (hstart : before.length = read.valueEnd + 1)
    (hvalue : parseU32 (read.value bytes) = some value.length)
    (htagBytes : ∀ b ∈ tagBytes, b ≠ equalsSign ∧ b ≠ soh) :
    message.fields[i + 1]? = some (fieldAt before.length tagBytes value) ∧
      (fieldAt before.length tagBytes value).value bytes = value := by
  obtain ⟨-, -, -, hlen, rfl⟩ := Message.tokenize_eq_ok hmessage
  have hpending : (Tokenizer.new dialect).pendingDataLen bytes read = some value.length := by
    have hlengthTag : (Tokenizer.new dialect).isLengthTag read.tag = true :=
      Message.isLengthTag_new_iff.mpr (Or.inr ⟨htag ▸ hmem, htag ▸ hlength⟩)
    rw [Tokenizer.pendingDataLen, if_pos hlengthTag, hvalue]
  refine ⟨Message.tokenizeFields_of_length hlen hread hpending hbytes hstart htagBytes, ?_⟩
  rw [hbytes]
  exact Message.value_fieldAt

/-! ## Linked fields -/

/-- A LENGTH field is listed directly before a data field and gives the length of no other one,
and with the generated dialect the value that follows its own is read by that length. -/
structure ReadByLength (dictionary : Dictionary) (field : Field) (length : Tag) : Prop where
  linked : field.lengthTag = some length
  lengthField : ∃ lengthField ∈ dictionary.spec.fields, lengthField.tag = length ∧
    lengthField.dataType = .length
  listed : dictionary.spec.ListsDirectly length field.tag
  own : ∀ other ∈ dictionary.spec.fields, other.lengthTag = some length → other = field
  emitted : length ∈ (emitDialect dictionary).extraLengthTags
  reads : length ≠ malformed → ∀ (bytes : Bytes) (message : RawMessage),
    (Tokenizer.new (emitDialect dictionary)).tokenize bytes = .ok message →
      ∀ (i : ℕ) (read : RawField), message.fields[i]? = some read → read.tag = length →
        ∀ before tagBytes value after : Bytes,
          bytes = before ++ (wireField soh tagBytes value ++ after) →
            before.length = read.valueEnd + 1 →
              parseU32 (read.value bytes) = some value.length →
                (∀ b ∈ tagBytes, b ≠ equalsSign ∧ b ≠ soh) →
                  message.fields[i + 1]? = some (fieldAt before.length tagBytes value) ∧
                    (fieldAt before.length tagBytes value).value bytes = value

/-- Every data field of the header, the trailer and the messages is read by length, at any
depth, the count fields of groups included. -/
def DataReadByLength (dictionary : Dictionary) : Prop :=
  ∀ field, dictionary.spec.Uses field ∨ dictionary.spec.Counts field →
    field.dataType.hasLengthField = true → ∃ length, ReadByLength dictionary field length

section Linked

variable {spec : Spec} {fields : List Field} {members : List Member}

theorem isRoot_with_fields_iff :
    Spec.IsRoot { spec with fields } members ↔ spec.IsRoot members := by
  rw [← mem_memberLists_iff, ← mem_memberLists_iff]
  rfl

theorem listsDirectly_with_fields_iff {first second : Tag} :
    Spec.ListsDirectly { spec with fields } first second ↔ spec.ListsDirectly first second := by
  simp only [Spec.ListsDirectly, isRoot_with_fields_iff]

theorem inUse_with_fields_iff :
    Spec.InUse { spec with fields } members ↔ spec.InUse members := by
  constructor
  · intro h
    induction h with
    | header => exact .header
    | trailer => exact .trailer
    | message h => exact .message h
    | group _ hmem ih => exact ih.group hmem
    | component _ hmem hcomponent hname ih => exact ih.component hmem hcomponent hname
  · intro h
    induction h with
    | header => exact .header
    | trailer => exact .trailer
    | message h => exact .message h
    | group _ hmem ih => exact ih.group hmem
    | component _ hmem hcomponent hname ih => exact ih.component hmem hcomponent hname

theorem mem_of_fieldByTag {tag : Tag} {field : Field} (h : fieldByTag fields tag = .ok field) :
    field ∈ fields ∧ field.tag = tag := by
  unfold fieldByTag at h
  split at h
  · next found hfind =>
    cases h
    exact ⟨List.mem_reverse.mp (List.mem_of_find?_eq_some hfind),
      by simpa using List.find?_some hfind⟩
  · cases h

theorem fieldByTag_of_mem (htags : (fields.map Field.tag).Nodup) {field : Field}
    (hmem : field ∈ fields) : fieldByTag fields field.tag = .ok field := by
  unfold fieldByTag
  cases hfind : fields.reverse.find? (·.tag == field.tag) with
  | none =>
    have hnone := List.find?_eq_none.mp hfind field (List.mem_reverse.mpr hmem)
    simp at hnone
  | some found =>
    have hfound : found ∈ fields := List.mem_reverse.mp (List.mem_of_find?_eq_some hfind)
    have htag : found.tag = field.tag := by simpa using List.find?_some hfind
    rw [List.inj_on_of_nodup_map htags hfound hmem htag]

/-- No two fields of a consistent spec take their length from the same one. -/
theorem eq_of_lengthTag_eq (hspec : spec.Consistent) {field other : Field} {length : Tag}
    (hfield : field ∈ spec.fields) (hother : other ∈ spec.fields)
    (hlength : field.lengthTag = some length) (hsame : other.lengthTag = some length) :
    other = field := by
  by_contra hne
  have hpairwise := List.pairwise_filterMap.mp hspec.lengthTags_unique
  have hsymm : Std.Symm fun field other : Field =>
      ∀ b, field.lengthTag = some b → ∀ b', other.lengthTag = some b' → b ≠ b' :=
    ⟨fun _ _ h b hb b' hb' => (h b' hb' b hb).symm⟩
  exact hpairwise.forall hother hfield hne length hsame length hlength rfl

/-- **A field that linking gives a length tag is read by length.** -/
theorem readByLength_of_linked {dictionary : Dictionary} {lengthTags : LengthTags}
    (hconsistent : Spec.Consistent { spec with fields })
    (hdictionary : dictionary.spec = { spec with fields })
    (hrecords : Records (Links spec) lengthTags)
    (hfields : fields = spec.fields.map fun field =>
      { field with lengthTag := lengthTags.lookup field.tag })
    {field : Field} (hfield : field ∈ fields) {length : Tag}
    (hlength : field.lengthTag = some length) : ReadByLength dictionary field length := by
  have hmem : length ∈ (emitDialect dictionary).extraLengthTags := by
    rw [emitDialect_extraLengthTags, mem_lengthTags_iff, hdictionary]
    exact ⟨field, hfield, hlength⟩
  have hlinks : Links spec field.tag length := by
    rw [hfields] at hfield
    obtain ⟨unlinked, -, rfl⟩ := List.mem_map.mp hfield
    exact (hrecords _ _).mp hlength
  refine ⟨hlength, ?_, ?_, ?_, hmem, ?_⟩
  · obtain ⟨lengthField, hfind, htype⟩ := hlinks.length_type
    obtain ⟨hin, htag⟩ := mem_of_fieldByTag hfind
    rw [hdictionary]
    refine ⟨{ lengthField with lengthTag := lengthTags.lookup lengthField.tag }, ?_, htag, htype⟩
    rw [hfields]
    exact List.mem_map_of_mem hin
  · rw [hdictionary]
    exact listsDirectly_with_fields_iff.mpr hlinks.listed
  · intro other hother hsame
    rw [hdictionary] at hother
    exact eq_of_lengthTag_eq hconsistent hfield hother hlength hsame
  · intro hne bytes message hmessage i read hread htag before tagBytes value after hbytes hstart
      hvalue htagBytes
    exact fields_of_length hmem hne hmessage hread htag hbytes hstart hvalue htagBytes

end Linked

/-- **A dictionary's data fields are read by length, exactly where no group is counted by one that
is never listed after a LENGTH field.** Those that are listed as fields always are; the order in
which messages and components are linked makes no difference, and a data field that is listed after
two LENGTH fields is refused in every order. -/
theorem dataReadByLength_iff (root : Node) (spec : Spec)
    (warnings : List Quickfix.Warning)
    (hspec : parseSpec root = .ok (spec, warnings)) :
    (∀ parsed, parse root = .ok parsed →
      (∀ field, parsed.dictionary.spec.Uses field → field.dataType.hasLengthField = true →
        ∃ length, ReadByLength parsed.dictionary field length) ∧
      (DataReadByLength parsed.dictionary ↔
        ∀ field, spec.Counts field → field.dataType.hasLengthField = true →
          ∃ lengthField ∈ spec.fields, lengthField.dataType = .length ∧
            spec.ListsDirectly lengthField.tag field.tag)) ∧
    ∀ (messages : List Dict.Message) (components : List Component),
      messages.Perm spec.messages → components.Perm spec.components →
        (Agree (Links spec) → ∃ fields,
          linkLengthFields spec.fields spec.header spec.trailer spec.messages spec.components =
              .ok fields ∧
            linkLengthFields spec.fields spec.header spec.trailer messages components =
              .ok fields) ∧
          (¬ Agree (Links spec) → ∃ field first second,
            linkLengthFields spec.fields spec.header spec.trailer messages components =
              .error (.error (.conflictingLengthFields field first second))) := by
  have hdefined := (parseSpec_outcome root).of_eq_ok hspec
  refine ⟨?_, fun messages components => linkLengthFields_perm hdefined⟩
  intro parsed hparsed
  obtain ⟨spec', fields, hspec', hlink, hresolve⟩ := parse_eq_ok hparsed
  obtain ⟨rfl, -⟩ := Prod.mk.inj (Except.ok.inj (hspec'.symm.trans hspec))
  obtain ⟨lengthTags, hrecords, hfields⟩ := (linkLengthFields_outcome hdefined).of_eq_ok hlink
  obtain ⟨hconsistent, hresolves⟩ := (resolve_outcome _).of_eq_ok hresolve
  have hdictionary : parsed.dictionary.spec = { spec' with fields } := by
    generalize parsed.dictionary = dictionary at hresolves
    cases hresolves
    rfl
  -- A field that was given a length tag by the linking is read by it.
  have hread : ∀ field ∈ fields, field.lengthTag ≠ none →
      ∃ length, ReadByLength parsed.dictionary field length := by
    intro field hfield hlength
    obtain ⟨length, hlength⟩ := Option.ne_none_iff_exists'.mp hlength
    exact ⟨length, readByLength_of_linked hconsistent hdictionary hrecords hfields hfield hlength⟩
  have huses : ∀ field, parsed.dictionary.spec.Uses field → field.dataType.hasLengthField = true →
      ∃ length, ReadByLength parsed.dictionary field length := by
    intro field huse hdata
    rw [hdictionary] at huse
    exact hread field huse.1 (hconsistent.lengthTag_ne_none huse hdata)
  have htags : (spec'.fields.map Field.tag).Nodup := by
    have hunique := hconsistent.tags_unique
    simp only [hfields, List.map_map] at hunique
    exact hunique
  refine ⟨huses, ?_, ?_⟩
  -- Only the length tags differ between `spec` and the resolved spec: what lists and what counts a
  -- field is the same in both.
  · rintro hall field ⟨hfield, members, huse, hcount⟩ hdata
    have hlinked : { field with lengthTag := lengthTags.lookup field.tag } ∈ fields := by
      rw [hfields]
      exact List.mem_map_of_mem hfield
    obtain ⟨length, hread⟩ := hall { field with lengthTag := lengthTags.lookup field.tag }
      (Or.inr (by
        rw [hdictionary]
        exact ⟨hlinked, members, inUse_with_fields_iff.mpr huse, hcount⟩)) hdata
    obtain ⟨lengthField, hin, htag, htype⟩ := hread.lengthField
    rw [hdictionary] at hin
    simp only [hfields] at hin
    obtain ⟨unlinked, hmem, rfl⟩ := List.mem_map.mp hin
    have hlisted := hread.listed
    rw [hdictionary, ← htag] at hlisted
    exact ⟨unlinked, hmem, htype, listsDirectly_with_fields_iff.mp hlisted⟩
  · rintro hcounts field (huse | hcount) hdata
    · exact huses field huse hdata
    · rw [hdictionary] at hcount
      obtain ⟨hfield, members, huse, hcount⟩ := hcount
      refine hread field hfield ?_
      simp only [hfields] at hfield
      obtain ⟨unlinked, hmem, rfl⟩ := List.mem_map.mp hfield
      -- A counted field that is also listed after a LENGTH field takes part in a link.
      obtain ⟨lengthField, hin, htype, hlisted⟩ :=
        hcounts unlinked ⟨hmem, members, inUse_with_fields_iff.mp huse, hcount⟩ hdata
      have hlinks : Links spec' unlinked.tag lengthField.tag :=
        ⟨hlisted, ⟨lengthField, fieldByTag_of_mem htags hin, htype⟩,
          unlinked, fieldByTag_of_mem htags hmem, hdata⟩
      rw [(hrecords _ _).mpr hlinks]
      nofun

/-- A venue's data field, in a group of one message and in another message. -/
def venueRoot : Node :=
  .element "fix" [("type", "FIX"), ("major", "4"), ("minor", "4")]
    [.element "fields" []
      [.element "field" [("number", "58"), ("name", "Text"), ("type", "STRING")] [],
       .element "field" [("number", "78"), ("name", "NoAllocs"), ("type", "NUMINGROUP")] [],
       .element "field" [("number", "5001"), ("name", "NoteLength"), ("type", "LENGTH")] [],
       .element "field" [("number", "5002"), ("name", "Note"), ("type", "DATA")] []],
     .element "messages" []
      [.element "message" [("name", "News"), ("msgtype", "B"), ("msgcat", "app")]
        [.element "field" [("name", "NoteLength")] [], .other,
         .element "field" [("name", "Note"), ("required", "Y")] []],
       .element "message" [("name", "Allocation"), ("msgtype", "J"), ("msgcat", "app")]
        [.element "group" [("name", "NoAllocs")]
          [.element "field" [("name", "Text")] [], .element "field" [("name", "NoteLength")] [],
           .element "field" [("name", "Note")] []]]]]

def venueNews : Dict.Message where
  name := "News"
  msgType := "B"
  members := [.field { tag := 5001, isRequired := false },
    .field { tag := 5002, isRequired := true }]
  category := .app

def venueAllocation : Dict.Message where
  name := "Allocation"
  msgType := "J"
  members := [.group 78 false [.field { tag := 58, isRequired := false },
    .field { tag := 5001, isRequired := false }, .field { tag := 5002, isRequired := false }]]
  category := .app

def venueSpec : Spec where
  version := { protocol := .fix, major := 4, minor := 4, servicePack := 0 }
  header := []
  messages := [venueNews, venueAllocation]
  trailer := []
  fields :=
    [{ name := "Text", tag := 58, dataType := .string, lengthTag := none, values := [] },
     { name := "NoAllocs", tag := 78, dataType := .numInGroup, lengthTag := none, values := [] },
     { name := "NoteLength", tag := 5001, dataType := .length, lengthTag := none, values := [] },
     { name := "Note", tag := 5002, dataType := .data, lengthTag := none, values := [] }]
  components := []

theorem dataReadByLength_iff_venue :
    (∃ parsed, parse venueRoot = .ok parsed ∧ DataReadByLength parsed.dictionary) ∧
      ∃ fields, linkLengthFields venueSpec.fields [] [] [venueNews, venueAllocation] [] =
          .ok fields ∧
        linkLengthFields venueSpec.fields [] [] [venueAllocation, venueNews] [] = .ok fields := by
  have hspec : parseSpec venueRoot = .ok (venueSpec, []) := rfl
  obtain ⟨hparse, horder⟩ := dataReadByLength_iff venueRoot venueSpec [] hspec
  constructor
  · cases hparsed : parse venueRoot with
    | error failure =>
      have hok : (parse venueRoot).isOk = true := rfl
      rw [hparsed] at hok
      cases hok
    | ok parsed =>
      refine ⟨parsed, rfl, (hparse parsed hparsed).2.mpr ?_⟩
      rintro field ⟨hfield, -⟩ hdata
      -- the only data field is listed after its length in one of the messages
      refine ⟨venueSpec.fields[2], by simp [venueSpec], rfl, venueNews.members,
        venueNews.members, .message (by simp [venueSpec]), .refl _, _, _, ⟨[], [], rfl⟩, rfl, ?_⟩
      simp only [venueSpec, List.mem_cons, List.not_mem_nil, or_false] at hfield
      rcases hfield with rfl | rfl | rfl | rfl
      · cases hdata
      · cases hdata
      · cases hdata
      · rfl
  · have hdefined := (parseSpec_outcome venueRoot).of_eq_ok hspec
    obtain ⟨lengthTags, hrecords, -⟩ := (linkLengthFields_outcome hdefined).of_eq_ok rfl
    exact (horder [venueAllocation, venueNews] [] (List.Perm.swap _ _ _) (.refl _)).1
      hrecords.agree

/-- A group that is counted by a data field. -/
def countedRoot : Node :=
  .element "fix" [("major", "4"), ("minor", "4")]
    [.element "fields" []
      [.element "field" [("number", "58"), ("name", "Text"), ("type", "STRING")] [],
       .element "field" [("number", "96"), ("name", "RawData"), ("type", "DATA")] []],
     .element "messages" []
      [.element "message" [("name", "News"), ("msgtype", "B"), ("msgcat", "app")]
        [.element "group" [("name", "RawData")] [.element "field" [("name", "Text")] []]]]]

def countedSpec : Spec where
  version := { protocol := .fix, major := 4, minor := 4, servicePack := 0 }
  header := []
  messages :=
    [{ name := "News", msgType := "B", category := .app
       members := [.group 96 false [.field { tag := 58, isRequired := false }]] }]
  trailer := []
  fields :=
    [{ name := "Text", tag := 58, dataType := .string, lengthTag := none, values := [] },
     { name := "RawData", tag := 96, dataType := .data, lengthTag := none, values := [] }]
  components := []

def countedDictionary : Dictionary where
  spec := countedSpec
  header := []
  messages := [[.group ⟨1, by decide⟩ ⟨0, by decide⟩ false (.message "News") none
    [.field ⟨0, by decide⟩ true]]]
  trailer := []

theorem not_dataReadByLength_counted :
    ¬ ∀ root parsed, parse root = .ok parsed → DataReadByLength parsed.dictionary := by
  intro hall
  have hparse : parse countedRoot = .ok { dictionary := countedDictionary, warnings := [] } := rfl
  obtain ⟨length, hread⟩ := hall countedRoot _ hparse
    { name := "RawData", tag := 96, dataType := .data, lengthTag := none, values := [] }
    (Or.inr ⟨by simp [countedDictionary, countedSpec], _, .message List.mem_cons_self, false, _,
      List.mem_cons_self⟩) rfl
  cases hread.linked

end Refix.Codegen
