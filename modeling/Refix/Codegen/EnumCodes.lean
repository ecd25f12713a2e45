import Refix.Codegen.RustScopes
import Refix.Dictionary.Quickfix

/-!
# Codes of Generated Enums

The generated enum of a field matches a payload against the codes of the field's values, and
gives them back. A code is written as a literal, and the dictionary compares listed values by
their canonical codes. Both tell the same values apart.
-/

namespace Refix.Codegen

open Refix.Foundation
open Refix.Dict

/-! ## Literals -/

/-- Digits after a sign, leading zeros dropped. A zero has no sign. -/
def signedDigits (sign digits : List Char) : String :=
  match digits.dropWhile (· == '0') with
  | [] => "0"
  | digits => String.ofList (sign ++ digits)

/-- An int-based value as a canonical literal, leading zeros dropped. -/
def intLiteral (value : String) : String :=
  match value.toList with
  | '-' :: digits => signedDigits ['-'] digits
  | digits => signedDigits [] digits

theorem signedDigits_eq {digits : List Char} (hall : ∀ c ∈ digits, c.isDigit = true)
    (sign : List Char) :
    signedDigits sign digits =
      if Nat.ofDigitChars 10 digits 0 = 0 then "0"
      else String.ofList (sign ++ Nat.toDigits 10 (Nat.ofDigitChars 10 digits 0)) := by
  rw [signedDigits, dropWhile_zero_eq hall]
  by_cases hzero : Nat.ofDigitChars 10 digits 0 = 0
  · rw [if_pos hzero, if_pos hzero]
  · rw [if_neg hzero, if_neg hzero]
    split
    · next hnil => exact absurd hnil Nat.toDigits_ne_nil
    · rfl

/-- The literal of a value is the numeral of the number it denotes. -/
theorem intLiteral_eq_repr {value : String} {n : ℤ} (h : DenotesInt value n) :
    intLiteral value = Int.repr n := by
  obtain ⟨digits, -, hall, ⟨hvalue, rfl⟩ | ⟨hvalue, rfl⟩⟩ := h
  · have hplain : intLiteral value = signedDigits [] digits := by
      rw [intLiteral, hvalue]
      split
      · exact absurd (hall _ List.mem_cons_self) (by decide)
      · rfl
    rw [hplain, signedDigits_eq hall]
    split
    · next hzero =>
      rw [hzero]
      rfl
    · rw [List.nil_append, ← Nat.repr]
      rfl
  · rw [intLiteral, hvalue]
    simp only [signedDigits_eq hall]
    generalize Nat.ofDigitChars 10 digits 0 = m
    cases m with
    | zero => rfl
    | succ m =>
      rw [if_neg (Nat.succ_ne_zero m), List.singleton_append]
      apply String.toList_inj.mp
      have hneg : -((m + 1 : ℕ) : ℤ) = Int.negSucc m := rfl
      rw [hneg, Int.repr, String.toList_append, Nat.toList_repr, String.toList_ofList]
      rfl

/-! ## Emitted enums -/

/-- A code, as a match arm of a generated enum writes it. -/
inductive Code where
  | int (literal : String)
  | str (value : String)
  deriving DecidableEq, Repr

/-- A value that a generated enum matches. -/
inductive Payload where
  | int (n : ℤ)
  | str (s : String)
  deriving DecidableEq, Repr

/-- The payload a code stands for, if the payload type has it. -/
def Code.payload : Code → Option Payload
  | .int literal => (parseI64 literal).map .int
  | .str value => some (.str value)

/-- The code of a value a field lists. -/
def codeOf (field : Field) (value : EnumValue) : Code :=
  if field.dataType.isIntBased then .int (intLiteral value.value) else .str value.value

/-- The codes written into a field's enum. -/
def codes (field : Field) : List Code := field.values.map (codeOf field)

/-- An emitted enum: the variants it declares next to the catch-all, and each code with the
variant it stands for. -/
structure EmittedEnum where
  typeName : String
  intBased : Bool
  variants : List String
  arms : List (Code × String)

/-- A value of an emitted enum. -/
inductive EnumTerm where
  | variant (name : String)
  | unrecognized (payload : Payload)
  deriving DecidableEq, Repr

namespace Rust

/-- The enum of a field. -/
def emitEnum (field : Field) (names : EnumNames) : EmittedEnum where
  typeName := names.typeName
  intBased := field.dataType.isIntBased
  variants := names.values
  arms := (codes field).zip names.values

/-- The `from_value` of an emitted enum: the first arm that matches. -/
def fromValue (emitted : EmittedEnum) (x : Payload) : EnumTerm :=
  match emitted.arms.find? (·.1.payload == some x) with
  | some (_, variant) => .variant variant
  | none => .unrecognized x

/-- The `value` of an emitted enum, where an arm has the variant. -/
def value (emitted : EmittedEnum) : EnumTerm → Option Payload
  | .variant name => do (← emitted.arms.find? (·.2 == name)).1.payload
  | .unrecognized x => some x

end Rust

/-! ## Codes and values -/

section Codes

variable {field : Field}

/-- The values of an int-based field denote numbers of 64 bits. -/
def Listable (field : Field) : Prop :=
  field.dataType.isIntBased = true → ∀ value ∈ field.values, IsInteger value.value

/-- What the code of a listed value stands for. -/
theorem payload_codeOf (hlist : Listable field) {value : EnumValue} (hvalue : value ∈ field.values) :
    (field.dataType.isIntBased = true ∧ ∃ n : ℤ, DenotesInt value.value n ∧ -2 ^ 63 ≤ n ∧
      n < 2 ^ 63 ∧ codeOf field value = .int (Int.repr n) ∧
      field.dataType.canonicalCode value.value = Int.repr n ∧
      (codeOf field value).payload = some (.int n)) ∨
    field.dataType.isIntBased = false ∧ codeOf field value = .str value.value ∧
      field.dataType.canonicalCode value.value = value.value ∧
      (codeOf field value).payload = some (.str value.value) := by
  cases hint : field.dataType.isIntBased with
  | true =>
    obtain ⟨n, hn, hlo, hhi⟩ := (hlist hint value hvalue).exists_denotes
    have hcode : codeOf field value = .int (Int.repr n) := by
      rw [codeOf, if_pos hint, intLiteral_eq_repr hn]
    refine Or.inl ⟨rfl, n, hn, hlo, hhi, hcode, canonicalCode_eq_repr hint hn hlo hhi, ?_⟩
    rw [hcode, Code.payload, parseI64_repr hlo hhi]
    rfl
  | false =>
    have hcode : codeOf field value = .str value.value := by
      rw [codeOf, hint]
      rfl
    exact Or.inr ⟨rfl, hcode, canonicalCode_of_not_int hint _, by rw [hcode]; rfl⟩

/-- Listed values share a code exactly where they share their canonical code, and then their codes
stand for the same. -/
theorem codeOf_eq_iff (hlist : Listable field) {first second : EnumValue}
    (hfirst : first ∈ field.values) (hsecond : second ∈ field.values) :
    (field.dataType.canonicalCode first.value = field.dataType.canonicalCode second.value ↔
      codeOf field first = codeOf field second) ∧
    (field.dataType.canonicalCode first.value = field.dataType.canonicalCode second.value ↔
      (codeOf field first).payload = (codeOf field second).payload) := by
  rcases payload_codeOf hlist hfirst with ⟨hint, n, -, -, -, hcode, hcanonical, hpayload⟩ |
      ⟨hint, hcode, hcanonical, hpayload⟩ <;>
    rcases payload_codeOf hlist hsecond with ⟨hint', n', -, -, -, hcode', hcanonical', hpayload'⟩ |
      ⟨hint', hcode', hcanonical', hpayload'⟩
  · have hrepr : Int.repr n = Int.repr n' → n = n' := fun h =>
      (h ▸ denotesInt_repr n).unique (denotesInt_repr n')
    rw [hpayload, hpayload', hcode, hcode', hcanonical, hcanonical', Code.int.injEq,
      Option.some.injEq, Payload.int.injEq]
    exact ⟨Iff.rfl, hrepr, congrArg Int.repr⟩
  · rw [hint] at hint'
    cases hint'
  · rw [hint] at hint'
    cases hint'
  · rw [hpayload, hpayload', hcode, hcode', hcanonical, hcanonical', Code.str.injEq,
      Option.some.injEq, Payload.str.injEq]
    exact ⟨Iff.rfl, Iff.rfl⟩

/-- A field whose values have codes of their own. -/
structure Unambiguous (field : Field) : Prop where
  listable : Listable field
  distinct : field.values.Pairwise fun first second =>
    ¬ field.dataType.SameCode first.value second.value

theorem Unambiguous.codes_nodup (h : Unambiguous field) : (codes field).Nodup := by
  rw [codes, List.Nodup, List.pairwise_map]
  refine h.distinct.imp_of_mem fun hfirst hsecond hne hcode => hne ?_
  exact canonicalCode_eq_iff.mp ((codeOf_eq_iff h.listable hfirst hsecond).1.mpr hcode)

theorem Unambiguous.payloads_nodup (h : Unambiguous field) :
    ((codes field).map Code.payload).Nodup := by
  rw [codes, List.map_map, List.Nodup, List.pairwise_map]
  refine h.distinct.imp_of_mem fun hfirst hsecond hne hpayload => hne ?_
  exact canonicalCode_eq_iff.mp ((codeOf_eq_iff h.listable hfirst hsecond).2.mpr hpayload)

/-- Every listed value has a payload. -/
theorem Unambiguous.exists_payload (h : Unambiguous field) {value : EnumValue}
    (hvalue : value ∈ field.values) : ∃ payload, (codeOf field value).payload = some payload := by
  rcases payload_codeOf h.listable hvalue with ⟨-, n, -, -, -, -, -, hpayload⟩ | ⟨-, -, -, hpayload⟩
  · exact ⟨_, hpayload⟩
  · exact ⟨_, hpayload⟩

end Codes

/-! ## Matching codes -/

namespace Rust

section Matching

variable {field : Field} {names : EnumNames}

/-- The arms of an emitted enum, where every value has a variant. -/
theorem mem_arms (hlength : names.values.length = field.values.length) {i : ℕ}
    {value : EnumValue} (hvalue : field.values[i]? = some value) :
    ∃ variant, names.values[i]? = some variant ∧
      (codeOf field value, variant) ∈ (emitEnum field names).arms := by
  have hlt := (List.getElem?_eq_some_iff.mp hvalue).1
  refine ⟨names.values[i], List.getElem?_eq_getElem (hlength ▸ hlt), ?_⟩
  apply List.mem_of_getElem? (i := i)
  rw [emitEnum, List.getElem?_zip_eq_some, codes, List.getElem?_map, hvalue]
  exact ⟨rfl, List.getElem?_eq_getElem (hlength ▸ hlt)⟩

theorem map_fst_arms (hlength : names.values.length = field.values.length) :
    (emitEnum field names).arms.map Prod.fst = codes field := by
  apply List.map_fst_zip
  rw [codes, List.length_map, hlength]

theorem map_snd_arms (hlength : names.values.length = field.values.length) :
    (emitEnum field names).arms.map Prod.snd = names.values := by
  apply List.map_snd_zip
  rw [codes, List.length_map, hlength]

/-- A payload that an arm has is matched by this arm. -/
theorem fromValue_of_mem (h : Unambiguous field)
    (hlength : names.values.length = field.values.length) {code : Code} {variant : String}
    (hmem : (code, variant) ∈ (emitEnum field names).arms) {x : Payload}
    (hx : code.payload = some x) :
    fromValue (emitEnum field names) x = .variant variant := by
  have hnodup : ((emitEnum field names).arms.map (·.1.payload)).Nodup := by
    have hpayloads := h.payloads_nodup
    rwa [← map_fst_arms hlength, List.map_map] at hpayloads
  have hfind := find?_key_eq (fun arm : Code × String => arm.1.payload) hnodup hmem
  rw [hx] at hfind
  rw [fromValue, hfind]

/-- A variant that an arm has is written by this arm. -/
theorem value_of_mem (hlength : names.values.length = field.values.length)
    (hnodup : names.values.Nodup) {code : Code} {variant : String}
    (hmem : (code, variant) ∈ (emitEnum field names).arms) :
    value (emitEnum field names) (.variant variant) = code.payload := by
  rw [← map_snd_arms hlength] at hnodup
  have hfind := find?_key_eq (fun arm : Code × String => arm.2) hnodup hmem
  rw [value, hfind]
  rfl

/-- **A payload is given back**, whether an arm matches it or none does. -/
theorem value_fromValue (hlength : names.values.length = field.values.length)
    (hnodup : names.values.Nodup) (x : Payload) :
    value (emitEnum field names) (fromValue (emitEnum field names) x) = some x := by
  rw [fromValue]
  split
  · next code variant hfind =>
    rw [value_of_mem hlength hnodup (List.mem_of_find?_eq_some hfind)]
    have hmatch : ((code, variant).1.payload == some x) = true :=
      List.find?_some (p := fun arm : Code × String => arm.1.payload == some x) hfind
    exact beq_iff_eq.mp hmatch
  · rfl

end Matching

/-! ## Naming keeps enums -/

section Naming

variable {fields : List Field}

/-- Names whose enums are those of `names`. -/
def SameEnums (names names' : Names) : Prop := names'.enums = names.enums

/-- A step of naming that names no enum. -/
def KeepsEnums {σ : Type} (namesOf : σ → Names) (s : σ) (x : Except (Failure Error) σ) : Prop :=
  Outcome (fun _ => True) (fun s' => SameEnums (namesOf s) (namesOf s')) x

theorem KeepsEnums.foldlM {σ α : Type} (namesOf : σ → Names) {step : σ → α → Except (Failure Error) σ}
    (h : ∀ s a, KeepsEnums namesOf s (step s a)) (s : σ) (xs : List α) :
    KeepsEnums namesOf s (xs.foldlM step s) := by
  refine Outcome.foldlM (fun _ s' => SameEnums (namesOf s) (namesOf s')) ?_ rfl
  intro _ a _ _ s' hs'
  exact (h s' a).mono fun s'' hs'' => hs''.trans hs'

/-- Nothing is asked of a step. -/
theorem outcome_true {ε α : Type} (x : Except ε α) :
    Outcome (fun _ => True) (fun _ => True) x := by
  cases x <;> trivial

theorem nameGroup_keepsEnums (state : Names × Namespace) (group : Group fields.length) :
    KeepsEnums Prod.fst state (nameGroup fields state group) :=
  (outcome_true _).bind fun _ _ _ => (outcome_true _).bind fun _ _ _ => rfl

theorem nameMessageModule_keepsEnums (state : Names × Namespace)
    (entry : Message × List (ResolvedMember fields.length)) :
    KeepsEnums Prod.fst state (nameMessageModule fields state entry) := by
  unfold nameMessageModule
  simp only
  split
  · rfl
  · refine (outcome_true _).bind fun _ _ _ => (outcome_true _).bind fun _ _ _ => ?_
    refine (KeepsEnums.foldlM _ nameGroup_keepsEnums _ _).bind fun _ _ hgroups => ?_
    exact hgroups

theorem nameAccessor_keepsEnums (state : Names × Namespace)
    (member : ResolvedMember fields.length) :
    KeepsEnums Prod.fst state (nameAccessor fields state member) := by
  cases member with
  | field index isRequired =>
    exact (outcome_true _).bind fun _ _ _ => (outcome_true _).bind fun _ _ _ => rfl
  | group countFieldIndex delimiterIndex isRequired declaredIn component inst =>
    rw [nameAccessor]
    simp only
    split
    · split
      · exact (outcome_true _).bind fun _ _ _ => rfl
      · trivial
    · rfl

theorem nameAccessors_keepsEnums (names : Names) (members : List (ResolvedMember fields.length))
    (space : Namespace) : KeepsEnums id names (nameAccessors fields names members space) :=
  (KeepsEnums.foldlM _ nameAccessor_keepsEnums (names, space) members).bind fun _ _ h => h

theorem nameSection_keepsEnums {dictionary : Dictionary} (names : Names) (part : Section) :
    KeepsEnums id names (nameSection dictionary names part) := by
  unfold nameSection
  refine (KeepsEnums.foldlM _ nameGroup_keepsEnums (names, .empty) _).bind fun state _ hgroups => ?_
  exact (nameAccessors_keepsEnums state.1 _ _).mono fun _ h => h.trans hgroups

/-- **Every enum is named**, whatever the fields are called: its values have names that differ
from each other and from the catch-all. -/
theorem enums_named {dictionary : Dictionary}
    (htags : (dictionary.spec.fields.map Field.tag).Nodup) (warnings : List Warning) :
    Outcome (fun _ => True) (fun result => ∀ field ∈ enumFields dictionary.spec.fields,
        EnumNamed values result.1.enums field)
      (Names.new dictionary warnings) := by
  rw [Names.new]
  refine (outcome_true _).bind ?_
  rintro ⟨space, _⟩ - -
  refine (KeepsEnums.foldlM _ nameMessageModule_keepsEnums (Names.none, space) _).bind
    fun state _ hmodules => ?_
  refine (KeepsEnums.foldlM _ nameGroup_keepsEnums state _).bind fun state' _ hgroups => ?_
  refine (KeepsEnums.foldlM _ nameSection_keepsEnums state'.1 _).bind fun names _ hsections => ?_
  have hnone : names.enums = fun _ => none := (hsections.trans hgroups).trans hmodules
  rw [hnone]
  have henums := nameEnums_outcome values warnings htags state'.2
  refine (henums.imp (fun _ _ => trivial) fun _ h => h.named).bind ?_
  rintro ⟨enums, _, _⟩ - hnamed
  refine (KeepsEnums.foldlM id (fun names' (entry : _ × _) =>
    nameAccessors_keepsEnums names' entry.2 _) { names with enums } _).bind
    fun names' _ hmembers => ?_
  refine (KeepsEnums.foldlM id (fun names' (group : Dict.Group _) =>
    nameAccessors_keepsEnums names' group.members _) names' _).bind fun names'' _ hinstances => ?_
  intro field hfield
  have hsame : names''.enums = enums := hinstances.trans hmembers
  simpa only [hsame] using hnamed field hfield

end Naming

end Rust

/-! ## From a dictionary to its enums -/

/-- The codes of a field's enum: each its own, and each that of the value it is listed for. -/
structure CodesOwn (field : Field) : Prop where
  nodup : (codes field).Nodup
  payloads_nodup : ((codes field).map Code.payload).Nodup
  of_int : field.dataType.isIntBased = true → ∀ value ∈ field.values, ∃ n : ℤ,
    codeOf field value = .int (intLiteral value.value) ∧ DenotesInt value.value n ∧
    DenotesInt (intLiteral value.value) n ∧ (codeOf field value).payload = some (.int n)
  of_str : field.dataType.isIntBased = false → ∀ value ∈ field.values,
    codeOf field value = .str value.value ∧ (codeOf field value).payload = some (.str value.value)

/-- The enum that is emitted under `names` reads and writes the codes of its field. -/
structure Rust.Matches (field : Field) (names : EnumNames) : Prop where
  length_eq : names.values.length = field.values.length
  variants_nodup : (catchAll ++ names.values).Nodup
  fromValue_code : ∀ (i : ℕ) (value : EnumValue), field.values[i]? = some value → ∃ payload variant,
    (codeOf field value).payload = some payload ∧ names.values[i]? = some variant ∧
    fromValue (emitEnum field names) payload = .variant variant
  value_fromValue : ∀ x, Rust.value (emitEnum field names) (fromValue (emitEnum field names) x) =
    some x

theorem Unambiguous.codesOwn {field : Field} (h : Unambiguous field) : CodesOwn field := by
  refine ⟨h.codes_nodup, h.payloads_nodup, fun hint value hvalue => ?_, fun hint value hvalue => ?_⟩
  · rcases payload_codeOf h.listable hvalue with ⟨-, n, hn, -, -, -, -, hpayload⟩ | ⟨hstr, -⟩
    · refine ⟨n, if_pos hint, hn, ?_, hpayload⟩
      rw [intLiteral_eq_repr hn]
      exact denotesInt_repr n
    · rw [hint] at hstr
      cases hstr
  · rcases payload_codeOf h.listable hvalue with ⟨hint', -⟩ | ⟨-, hcode, -, hpayload⟩
    · rw [hint] at hint'
      cases hint'
    · exact ⟨hcode, hpayload⟩

theorem Rust.matches_of_named {field : Field} (h : Unambiguous field)
    {enums : Message.Tag → Option EnumNames} (hnamed : EnumNamed values enums field) :
    ∃ names, enums field.tag = some names ∧ Matches field names := by
  obtain ⟨names, hnames, hlength, hnodup⟩ := hnamed
  have hvariants : names.values.Nodup := (List.nodup_append.mp hnodup).2.1
  refine ⟨names, hnames, hlength, hnodup, fun i value hvalue => ?_,
    value_fromValue hlength hvariants⟩
  obtain ⟨payload, hpayload⟩ := h.exists_payload (List.mem_of_getElem? hvalue)
  obtain ⟨variant, hvariant, hmem⟩ := mem_arms hlength hvalue
  exact ⟨payload, variant, hpayload, hvariant, fromValue_of_mem h hlength hmem hpayload⟩

/-- Two integers of an int-based type are one code exactly where they denote one number. -/
theorem canonicalCode_int_iff {dataType : DataType} (hint : dataType.isIntBased = true)
    {first second : String} (hfirst : IsInteger first) (hsecond : IsInteger second) :
    (dataType.canonicalCode first = dataType.canonicalCode second ↔
      ∃ n, DenotesInt first n ∧ DenotesInt second n) ∧
    (dataType.canonicalCode first = dataType.canonicalCode second ↔
      intLiteral first = intLiteral second) := by
  obtain ⟨n, hn, hlo, hhi⟩ := hfirst.exists_denotes
  obtain ⟨n', hn', hlo', hhi'⟩ := hsecond.exists_denotes
  rw [canonicalCode_eq_repr hint hn hlo hhi, canonicalCode_eq_repr hint hn' hlo' hhi',
    intLiteral_eq_repr hn, intLiteral_eq_repr hn']
  refine ⟨⟨fun h => ?_, ?_⟩, Iff.rfl⟩
  · have heq := (h ▸ denotesInt_repr n).unique (denotesInt_repr n')
    exact ⟨n, hn, heq ▸ hn'⟩
  · rintro ⟨m, hm, hm'⟩
    rw [hn.unique hm, hn'.unique hm']

/-- **Codes are unambiguous** from a dictionary to its generated enums. -/
theorem codes_unambiguous {spec : Spec} {dictionary : Dictionary}
    (hresolve : spec.resolve = .ok dictionary) :
    (∀ field ∈ dictionary.spec.fields, CodesOwn field) ∧
    (∀ warnings names warnings', Rust.Names.new dictionary warnings = .ok (names, warnings') →
      ∀ field ∈ enumFields dictionary.spec.fields,
        ∃ enumNames, names.enums field.tag = some enumNames ∧ Rust.Matches field enumNames) ∧
    (∀ dataType : DataType, dataType.isIntBased = true → ∀ first second,
      IsInteger first → IsInteger second →
      (dataType.canonicalCode first = dataType.canonicalCode second ↔
        ∃ n, DenotesInt first n ∧ DenotesInt second n) ∧
      (dataType.canonicalCode first = dataType.canonicalCode second ↔
        intLiteral first = intLiteral second)) ∧
    (∀ field dataType values warnings,
      Quickfix.dropRepeatedCodes field dataType values warnings =
        some (firsts (dataType.canonicalCode ·.value) values,
          warnings ++ Quickfix.repeatedCodes field dataType values) ∧
      (firsts (dataType.canonicalCode ·.value) values).length +
        (Quickfix.repeatedCodes field dataType values).length = values.length) ∧
    ∀ fields : List Field, (∀ field ∈ fields, ∃ values warnings warnings',
        Quickfix.dropRepeatedCodes field.name field.dataType values warnings =
          some (field.values, warnings')) →
      checkUniqueCodes fields = .ok () := by
  have hd := (resolved_of_resolve hresolve).2
  have hfields : ∀ field ∈ dictionary.spec.fields, Unambiguous field := fun field hfield =>
    ⟨hd.consistent.values_integer field hfield, hd.consistent.codes_unique field hfield⟩
  refine ⟨fun field hfield => (hfields field hfield).codesOwn, ?_,
    fun _ hint _ _ hfirst hsecond => canonicalCode_int_iff hint hfirst hsecond, ?_, ?_⟩
  · intro warnings names warnings' hnew field hfield
    have hnamed := (Rust.enums_named hd.consistent.tags_unique warnings).of_eq_ok hnew field hfield
    exact Rust.matches_of_named (hfields field (List.mem_of_mem_filter hfield)) hnamed
  · intro field dataType values warnings
    refine ⟨Quickfix.dropRepeatedCodes_eq field dataType values warnings, ?_⟩
    rw [Quickfix.repeatedCodes, List.length_map]
    exact length_firsts_add _ values
  · intro fields hdropped
    apply Quickfix.checkUniqueCodes_firsts
    intro field hfield
    obtain ⟨values, warnings, warnings', hdrop⟩ := hdropped field hfield
    rw [Quickfix.dropRepeatedCodes_eq] at hdrop
    exact ⟨values, (congrArg Prod.fst (Option.some.inj hdrop)).symm⟩

/-- A message with a field of int-based values, written with a sign or with leading zeros. -/
def rolesSpec : Spec where
  version := { protocol := .fix, major := 4, minor := 4, servicePack := 0 }
  header := [.field { tag := 8, isRequired := true }]
  messages :=
    [{ name := "Quote", msgType := "S", category := .app
       members := [.field { tag := 452, isRequired := true }] }]
  trailer := [.field { tag := 10, isRequired := true }]
  fields :=
    [{ name := "BeginString", tag := 8, dataType := .string, lengthTag := none, values := [] },
     { name := "CheckSum", tag := 10, dataType := .string, lengthTag := none, values := [] },
     { name := "PartyRole", tag := 452, dataType := .int, lengthTag := none
       values := [{ value := "-0", description := "NONE" },
         { value := "007", description := "CLIENT" }, { value := "-7", description := "FIRM" }] }]
  components := []

def rolesDictionary : Dictionary where
  spec := rolesSpec
  header := [.field ⟨0, by decide⟩ true]
  messages := [[.field ⟨2, by decide⟩ true]]
  trailer := [.field ⟨1, by decide⟩ true]

theorem codes_unambiguous_roles :
    (∀ field ∈ rolesSpec.fields, CodesOwn field) ∧
    (∀ warnings names warnings', Rust.Names.new rolesDictionary warnings = .ok (names, warnings') →
      ∃ enumNames, names.enums 452 = some enumNames ∧ enumNames.values.length = 3) ∧
    (rolesSpec.fields.map codes)[2]? = some [.int "0", .int "7", .int "-7"] := by
  have hresolve : rolesSpec.resolve = .ok rolesDictionary := rfl
  obtain ⟨hcodes, hnames, -⟩ := codes_unambiguous hresolve
  refine ⟨hcodes, fun warnings names warnings' hnew => ?_, by decide⟩
  obtain ⟨enumNames, htag, hmatches⟩ := hnames warnings names warnings' hnew _
    (List.mem_filter.mpr ⟨List.mem_cons_of_mem _ (List.mem_cons_of_mem _ List.mem_cons_self), rfl⟩)
  exact ⟨enumNames, htag, hmatches.length_eq⟩

end Refix.Codegen
