import Refix.Codegen.Output
import Refix.Codegen.PythonScopes
import Refix.Codegen.RustScopes

/-!
# Names Are Found

Where naming succeeds, everything that emitting looks up has a name, in Rust and in Python.
-/

namespace Refix.Codegen

open Refix.Foundation
open Refix.Dict
open Refix.Message (Tag)

section Find

variable {fields : List Field}

/-- Whether all that a lookup asks for is there. -/
def Rust.Names.finds (names : Rust.Names) : Lookup fields.length → Bool
  | .field index =>
    (names.accessors (fields.get index).tag).isSome &&
      (!(Conversion.of (fields.get index)).isEnum || (names.enums (fields.get index).tag).isSome)
  | .group group => (names.groups (group.instanceContext fields)).isSome
  | .path group => (names.groupPath fields group).isSome
  | .messageModule message => (names.messageModules message.name).isSome
  | .enum field => (names.enums field.tag).isSome

/-- Whether all that a lookup asks for is there. Messages have no modules in Python. -/
def Python.Names.finds (names : Python.Names) : Lookup fields.length → Bool
  | .field index =>
    (names.properties (fields.get index).tag).isSome &&
      (!Python.hasNanos (fields.get index) ||
        (names.nanosProperties (fields.get index).tag).isSome) &&
      (!(Conversion.of (fields.get index)).isEnum || (names.enums (fields.get index).tag).isSome)
  | .group group => (names.groups (group.instanceContext fields)).isSome
  | .path group => (names.groupPath fields group).isSome
  | .messageModule _ => true
  | .enum field => (names.enums field.tag).isSome

end Find

section Dictionary

variable {dictionary : Dictionary}

theorem EnumNamed.isSome {ε : Type} {naming : ValueNaming ε} {enums : Tag → Option EnumNames}
    {field : Field} (h : EnumNamed naming enums field) : (enums field.tag).isSome = true := by
  obtain ⟨names, hnames, _⟩ := h
  rw [hnames]
  rfl

/-- A field that reads through an enum is one of the fields with enums. -/
theorem getElem_mem_enumFields {fields : List Field} {index : Fin fields.length}
    (h : (Conversion.of (fields.get index)).isEnum = true) :
    fields.get index ∈ enumFields fields :=
  List.mem_filter.mpr ⟨List.getElem_mem index.isLt, h⟩

theorem Rust.Named.finds (hd : dictionary.Resolved) {names : Rust.Names}
    (h : Rust.Named dictionary names) (hfields : (dictionary.spec.fields.map Field.name).Nodup)
    {lookup : Lookup dictionary.spec.fields.length} (hvalid : lookup.Valid dictionary) :
    names.finds lookup = true := by
  cases hvalid with
  | @field members index isRequired hmembers hmem =>
    have hkey : Rust.Key.accessor (dictionary.spec.fields.get index).tag ∈
        members.flatMap (Rust.memberKeys dictionary.spec.fields) :=
      List.mem_flatMap.mpr ⟨_, hmem, List.mem_singleton_self _⟩
    have haccessor : (names.accessors (dictionary.spec.fields.get index).tag).isSome = true := by
      cases hmembers with
      | list hlist =>
        cases hlist with
        | header => exact (h.sections .header).view.isSome hkey
        | trailer => exact (h.sections .trailer).view.isSome hkey
        | message hentry => exact (h.members _ hentry).isSome hkey
      | inst hgroup hgenerated => exact (h.instances _ hgroup hgenerated).isSome hkey
    rw [Rust.Names.finds, haccessor, Bool.true_and]
    cases henum : (Conversion.of (dictionary.spec.fields.get index)).isEnum with
    | false => rfl
    | true => exact (h.enums _ (getElem_mem_enumFields henum)).isSome
  | group hgroup hgenerated => exact h.group_isSome hd hfields hgroup hgenerated
  | path hgroup hgenerated => exact h.groupPath_isSome hd hfields hgroup hgenerated
  | messageModule hentry hgroup => exact h.messageModule_isSome hentry hgroup
  | enum hfield => exact (h.enums _ hfield).isSome

theorem Python.Named.finds {names : Python.Names} (h : Python.Named dictionary names)
    {lookup : Lookup dictionary.spec.fields.length} (hvalid : lookup.Valid dictionary) :
    names.finds lookup = true := by
  cases hvalid with
  | @field members index isRequired hmembers hmem =>
    -- the keys of the list's members are all named
    have hnamed : ∀ key ∈ members.flatMap (Python.memberKeys dictionary.spec.fields),
        (names.get key).isSome = true := by
      intro key hkey
      cases hmembers with
      | list hlist =>
        cases hlist with
        | header => exact (h.sections .header).isSome (List.mem_append_right _ hkey)
        | trailer => exact (h.sections .trailer).isSome (List.mem_append_right _ hkey)
        | message hentry => exact (h.messages _ hentry).isSome (List.mem_append_right _ hkey)
      | inst hgroup hgenerated => exact (h.instances _ hgroup hgenerated).isSome hkey
    have hproperty := hnamed (.property (dictionary.spec.fields.get index).tag)
      (List.mem_flatMap.mpr ⟨_, hmem, List.mem_cons_self⟩)
    have hlookup : (names.properties (dictionary.spec.fields.get index).tag).isSome = true :=
      hproperty
    rw [Python.Names.finds, hlookup, Bool.true_and, Bool.and_eq_true]
    constructor
    · cases hnanos : Python.hasNanos (dictionary.spec.fields.get index) with
      | false => rfl
      | true =>
        have hkeys : Python.Key.nanosProperty (dictionary.spec.fields.get index).tag ∈
            Python.memberKeys dictionary.spec.fields (.field index isRequired) := by
          rw [Python.memberKeys, if_pos hnanos]
          exact List.mem_cons_of_mem _ (List.mem_singleton_self _)
        exact hnamed _ (List.mem_flatMap.mpr ⟨_, hmem, hkeys⟩)
    · cases henum : (Conversion.of (dictionary.spec.fields.get index)).isEnum with
      | false => rfl
      | true => exact (h.enums _ (getElem_mem_enumFields henum)).isSome
  | group hgroup hgenerated => exact h.groups _ hgroup hgenerated
  | path hgroup hgenerated => exact h.groupPath_isSome hgroup hgenerated
  | messageModule hentry hgroup => rfl
  | enum hfield => exact (h.enums _ hfield).isSome

end Dictionary

/-- **Generated names never collide and every lookup is defined.** Naming a resolved dictionary
fails only with an error, or where a field has more values than there are numbers. Where it
succeeds, each scope's names differ from each other and from the reserved ones, only enums and
their values are renamed, each with one warning, and what emitting looks up is found. -/
theorem names_settled {spec : Spec} {dictionary : Dictionary}
    (hresolve : spec.resolve = .ok dictionary) (hfields : (spec.fields.map Field.name).Nodup)
    (warnings : List Warning) :
    (∀ failure, Rust.Names.new dictionary warnings = .error failure →
      Fails (Crowded Rust.values spec.fields) failure) ∧
    (∀ names warnings', Rust.Names.new dictionary warnings = .ok (names, warnings') →
      Rust.Named dictionary names ∧
      Settles ((enumFields spec.fields).flatMap (enumPairs Rust.values names.enums)) warnings
        warnings' ∧
      ∀ lookup ∈ lookups (Rust.output dictionary), names.finds lookup = true) ∧
    (∀ failure, Python.Names.new dictionary warnings = .error failure →
      Fails (Crowded Python.values spec.fields) failure) ∧
    ∀ names warnings', Python.Names.new dictionary warnings = .ok (names, warnings') →
      Python.Named dictionary names ∧
      Settles ((enumFields spec.fields).flatMap (enumPairs Python.values names.enums)) warnings
        warnings' ∧
      ∀ lookup ∈ lookups (Python.output dictionary), names.finds lookup = true := by
  obtain ⟨rfl, hd⟩ := resolved_of_resolve hresolve
  have hrust := Rust.new_outcome hd hfields warnings
  have hpython := Python.new_outcome hd hfields warnings
  refine ⟨fun failure h => hrust.of_eq_error h, fun names warnings' h => ?_,
    fun failure h => hpython.of_eq_error h, fun names warnings' h => ?_⟩
  · obtain ⟨hnamed, hsettles⟩ := hrust.of_eq_ok h
    exact ⟨hnamed, hsettles, fun lookup hlookup =>
      hnamed.finds hd hfields (Rust.lookups_valid dictionary hd lookup hlookup)⟩
  · obtain ⟨hnamed, hsettles⟩ := hpython.of_eq_ok h
    exact ⟨hnamed, hsettles, fun lookup hlookup =>
      hnamed.finds (Python.lookups_valid dictionary hd lookup hlookup)⟩

/-- Orders with allocations, two sides of which have one description. -/
def ordersSpec : Spec where
  version := { protocol := .fix, major := 4, minor := 4, servicePack := 0 }
  header := [.field { tag := 8, isRequired := true }]
  messages :=
    [{ name := "Order", msgType := "D", category := .app
       members := [.field { tag := 54, isRequired := true }, .field { tag := 60, isRequired := true },
         .group 78 false [.field { tag := 79, isRequired := true }]] }]
  trailer := [.field { tag := 10, isRequired := true }]
  fields :=
    [{ name := "BeginString", tag := 8, dataType := .string, lengthTag := none, values := [] },
     { name := "CheckSum", tag := 10, dataType := .string, lengthTag := none, values := [] },
     { name := "Side", tag := 54, dataType := .char, lengthTag := none
       values := [{ value := "1", description := "BUY" }, { value := "2", description := "BUY" }] },
     { name := "TransactTime", tag := 60, dataType := .utcTimestamp, lengthTag := none
       values := [] },
     { name := "NoAllocs", tag := 78, dataType := .numInGroup, lengthTag := none, values := [] },
     { name := "AllocAccount", tag := 79, dataType := .string, lengthTag := none, values := [] }]
  components := []

def ordersDictionary : Dictionary where
  spec := ordersSpec
  header := [.field ⟨0, by decide⟩ true]
  messages :=
    [[.field ⟨2, by decide⟩ true, .field ⟨3, by decide⟩ true,
      .group ⟨4, by decide⟩ ⟨5, by decide⟩ false (.message "Order") none
        [.field ⟨5, by decide⟩ true]]]
  trailer := [.field ⟨1, by decide⟩ true]

/-- The warnings of naming, where it succeeds. -/
def renamedBy {ε N : Type} (x : Except ε (N × List Warning)) : Option (List (Option String)) :=
  x.toOption.map fun result => result.2.map Warning.newName

theorem exists_of_renamedBy {ε N : Type} {x : Except ε (N × List Warning)}
    {renamed : List (Option String)} (h : renamedBy x = some renamed) :
    ∃ names warnings, x = .ok (names, warnings) ∧ warnings.map Warning.newName = renamed := by
  cases x with
  | error _ => cases h
  | ok result => exact ⟨result.1, result.2, rfl, Option.some.inj h⟩

theorem names_settled_orders :
    ∃ rustNames rustWarnings pythonNames pythonWarnings,
      Rust.Names.new ordersDictionary [] = .ok (rustNames, rustWarnings) ∧
      rustWarnings.map Warning.newName = [some "Buy2"] ∧
      Rust.Named ordersDictionary rustNames ∧
      (∀ lookup ∈ lookups (Rust.output ordersDictionary), rustNames.finds lookup = true) ∧
      Python.Names.new ordersDictionary [] = .ok (pythonNames, pythonWarnings) ∧
      pythonWarnings.map Warning.newName = [some "BUY_2"] ∧
      Python.Named ordersDictionary pythonNames ∧
      ∀ lookup ∈ lookups (Python.output ordersDictionary), pythonNames.finds lookup = true := by
  have hresolve : ordersSpec.resolve = .ok ordersDictionary := rfl
  obtain ⟨-, hrust, -, hpython⟩ := names_settled hresolve (by decide) []
  obtain ⟨rustNames, rustWarnings, hrustOk, hrustRenamed⟩ := exists_of_renamedBy
    (show renamedBy (Rust.Names.new ordersDictionary []) = some [some "Buy2"] by decide +kernel)
  obtain ⟨pythonNames, pythonWarnings, hpythonOk, hpythonRenamed⟩ := exists_of_renamedBy
    (show renamedBy (Python.Names.new ordersDictionary []) = some [some "BUY_2"] by decide +kernel)
  obtain ⟨hrustNamed, -, hrustFinds⟩ := hrust rustNames rustWarnings hrustOk
  obtain ⟨hpythonNamed, -, hpythonFinds⟩ := hpython pythonNames pythonWarnings hpythonOk
  exact ⟨rustNames, rustWarnings, pythonNames, pythonWarnings, hrustOk, hrustRenamed, hrustNamed,
    hrustFinds, hpythonOk, hpythonRenamed, hpythonNamed, hpythonFinds⟩

end Refix.Codegen
