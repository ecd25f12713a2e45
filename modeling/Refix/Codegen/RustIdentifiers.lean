import Refix.Codegen.RustNames

/-!
# Legal Rust Identifiers

What the language takes for an identifier, and which of the names that the generator makes are
one. Escaping looks at keywords only, so a name is legal where what it is made of has the shape
of a word. The names of values are checked for this before they are used, the others are not.
-/

namespace Refix.Codegen.Rust

open Refix.Foundation
open Refix.Dict

/-! ## The language -/

/-- The characters of identifiers, which Unicode's tables give. Those of ASCII are the letters,
and behind the first one digits and the underscore as well. -/
structure IdentifierChars where
  starts : Char → Bool
  continues : Char → Bool
  starts_ascii : ∀ c, c.toNat < 128 → starts c = c.isAlpha
  continues_ascii : ∀ c, c.toNat < 128 → continues c = (c.isAlphanum || c == '_')
  continues_of_starts : ∀ c, starts c = true → continues c = true

/-- The identifiers of ASCII. -/
def asciiChars : IdentifierChars where
  starts := Char.isAlpha
  continues c := c.isAlphanum || c == '_'
  starts_ascii _ _ := rfl
  continues_ascii _ _ := rfl
  continues_of_starts c h := by simp [Char.isAlphanum, h]

/-- A first character or an underscore, and then characters that may follow. -/
def IsWord (chars : IdentifierChars) : List Char → Prop
  | [] => False
  | first :: rest =>
    (chars.starts first = true ∨ first = '_') ∧ ∀ c ∈ rest, chars.continues c = true

instance (chars : IdentifierChars) : DecidablePred (IsWord chars)
  | [] => .isFalse id
  | first :: rest =>
    decidable_of_iff ((chars.starts first || first == '_') && rest.all chars.continues)
      (by simp [IsWord])

/-- The keywords in use, and then those that are reserved. -/
def keywords : List String :=
  ["Self", "as", "async", "await", "break", "const", "continue", "crate", "dyn", "else", "enum",
   "extern", "false", "fn", "for", "if", "impl", "in", "let", "loop", "match", "mod", "move", "mut",
   "pub", "ref", "return", "self", "static", "struct", "super", "trait", "true", "type", "unsafe",
   "use", "where", "while"] ++
  ["abstract", "become", "box", "do", "final", "gen", "macro", "override", "priv", "try", "typeof",
   "unsized", "virtual", "yield"]

/-- The keywords that are no raw identifiers either. -/
def unescapable : List String := ["Self", "crate", "self", "super"]

/-- An escaped keyword. -/
def IsRaw (name : String) : Prop := ∃ word ∈ keywords, word ∉ unescapable ∧ name = "r#" ++ word

instance : DecidablePred IsRaw :=
  fun name => inferInstanceAs (Decidable (∃ word ∈ keywords, word ∉ unescapable ∧ name = "r#" ++ word))

/-- **A legal identifier**: a word that is neither a lone underscore nor a keyword, or an escaped
keyword. -/
def Legal (chars : IdentifierChars) (name : String) : Prop :=
  IsWord chars name.toList ∧ name ≠ "_" ∧ name ∉ keywords ∨ IsRaw name

instance (chars : IdentifierChars) : DecidablePred (Legal chars) :=
  fun _ => inferInstanceAs (Decidable (_ ∨ _))

/-- The generator escapes the keywords that can be escaped. -/
theorem mem_keywords_iff {name : String} :
    name ∈ keywords ↔ name ∈ reservedWords ∨ name ∈ unescapable := by
  have hperm : keywords.Perm (reservedWords ++ unescapable) := by decide
  rw [hperm.mem_iff, List.mem_append]

theorem isRaw_iff {name : String} : IsRaw name ↔ ∃ word ∈ reservedWords, name = "r#" ++ word := by
  have hescapable : ∀ word ∈ reservedWords, word ∉ unescapable := by decide
  constructor
  · rintro ⟨word, hword, hescapes, rfl⟩
    exact ⟨word, (mem_keywords_iff.mp hword).resolve_right hescapes, rfl⟩
  · rintro ⟨word, hword, rfl⟩
    exact ⟨word, mem_keywords_iff.mpr (Or.inl hword), hescapable word hword, rfl⟩

/-! ## Words -/

section Words

variable (chars : IdentifierChars) {c : Char}

theorem continues_underscore : chars.continues '_' = true := by
  rw [chars.continues_ascii '_' (by decide)]
  rfl

theorem continues_alphanum (h : c.isAlphanum = true) : chars.continues c = true := by
  have hascii : c.toNat < 128 := by
    simp only [Char.isAlphanum, Char.isAlpha, Char.isUpper, Char.isLower, Char.isDigit,
      Bool.or_eq_true, Bool.and_eq_true, decide_eq_true_eq, ge_iff_le,
      UInt32.le_iff_toNat_le] at h
    have hval : c.toNat = c.val.toNat := rfl
    have hz : 'z'.val.toNat = 122 := rfl
    have hZ : 'Z'.val.toNat = 90 := rfl
    have hnine : '9'.val.toNat = 57 := rfl
    omega
  rw [chars.continues_ascii c hascii, h]
  rfl

/-- An upper-case letter is one of the twenty-six. -/
theorem exists_of_isUpper (h : c.isUpper = true) : ∃ n < 26, c = Char.ofNat (65 + n) := by
  simp only [Char.isUpper, decide_eq_true_eq, ge_iff_le, UInt32.le_iff_toNat_le] at h
  have hval : c.toNat = c.val.toNat := rfl
  have hA : 'A'.val.toNat = 65 := rfl
  have hZ : 'Z'.val.toNat = 90 := rfl
  refine ⟨c.toNat - 65, by omega, ?_⟩
  rw [show 65 + (c.toNat - 65) = c.toNat by omega, Char.ofNat_toNat]

theorem exists_of_isLower (h : c.isLower = true) : ∃ n < 26, c = Char.ofNat (97 + n) := by
  simp only [Char.isLower, Bool.and_eq_true, decide_eq_true_eq, ge_iff_le,
    UInt32.le_iff_toNat_le] at h
  have hval : c.toNat = c.val.toNat := rfl
  have ha : 'a'.val.toNat = 97 := rfl
  have hz : 'z'.val.toNat = 122 := rfl
  refine ⟨c.toNat - 97, by omega, ?_⟩
  rw [show 97 + (c.toNat - 97) = c.toNat by omega, Char.ofNat_toNat]

/-- What conversion does to the letters of the alphabet. -/
theorem converted_letters : ∀ n < 26, (Char.ofNat (65 + n)).toLower.isLower = true ∧
    (Char.ofNat (65 + n)).toLower.isUpper = false ∧
    (Char.ofNat (97 + n)).toUpper.isUpper = true := by
  decide

theorem isLower_toLower (h : c.isUpper = true) : c.toLower.isLower = true := by
  obtain ⟨n, hn, rfl⟩ := exists_of_isUpper h
  exact (converted_letters n hn).1

theorem isUpper_toLower (h : c.isUpper = true) : c.toLower.isUpper = false := by
  obtain ⟨n, hn, rfl⟩ := exists_of_isUpper h
  exact (converted_letters n hn).2.1

theorem starts_letter (h : c.isAlpha = true) : chars.starts c = true := by
  have hascii : c.toNat < 128 := by
    simp only [Char.isAlpha, Char.isUpper, Char.isLower, Bool.or_eq_true, Bool.and_eq_true,
      decide_eq_true_eq, ge_iff_le, UInt32.le_iff_toNat_le] at h
    have hval : c.toNat = c.val.toNat := rfl
    have hz : 'z'.val.toNat = 122 := rfl
    have hZ : 'Z'.val.toNat = 90 := rfl
    omega
  rw [chars.starts_ascii c hascii, h]

/-- A letter is as good as its lower-case one. -/
theorem continues_toLower (h : c.isUpper = true) :
    chars.continues c = true ∧ chars.continues c.toLower = true :=
  ⟨continues_alphanum chars (by simp [Char.isAlphanum, Char.isAlpha, h]),
    continues_alphanum chars (by simp [Char.isAlphanum, Char.isAlpha, isLower_toLower h])⟩

theorem starts_toLower (h : c.isUpper = true) :
    chars.starts c = true ∧ chars.starts c.toLower = true :=
  ⟨starts_letter chars (by simp [Char.isAlpha, h]),
    starts_letter chars (by simp [Char.isAlpha, isLower_toLower h])⟩

/-- What may follow the first character of a word. -/
theorem isWord_append {first rest : List Char} (hne : first ≠ [])
    (hrest : ∀ c ∈ rest, chars.continues c = true) :
    IsWord chars (first ++ rest) ↔ IsWord chars first := by
  cases first with
  | nil => exact absurd rfl hne
  | cons c first =>
    simp only [List.cons_append, IsWord, List.forall_mem_append]
    exact ⟨fun h => ⟨h.1, h.2.1⟩, fun h => ⟨h.1, h.2, hrest⟩⟩

end Words

/-! ## Snake case -/

section SnakeCase

variable (chars : IdentifierChars)

/-- What snake case puts before and in place of a character. -/
theorem snakeCaseFrom_cons (previous : Option Char) (current : Char) (rest : List Char) :
    ∃ added, (added = [] ∨ added = ['_'] ∧ previous ≠ none) ∧
      snakeCaseFrom previous (current :: rest) =
        added ++ (if current.isUpper then current.toLower else current) ::
          snakeCaseFrom (some current) rest := by
  rw [snakeCaseFrom]
  split
  · simp only
    split
    · next hsplit =>
      refine ⟨['_'], Or.inr ⟨rfl, ?_⟩, rfl⟩
      rintro rfl
      simp at hsplit
    · exact ⟨[], Or.inl rfl, rfl⟩
  · exact ⟨[], Or.inl rfl, rfl⟩

/-- Snake case makes and breaks no character of a word. -/
theorem continues_snakeCaseFrom (name : List Char) : ∀ previous,
    (∀ c ∈ snakeCaseFrom previous name, chars.continues c = true) ↔
      ∀ c ∈ name, chars.continues c = true := by
  induction name with
  | nil => simp [snakeCaseFrom]
  | cons current rest ih =>
    intro previous
    obtain ⟨added, hadded, hsnake⟩ := snakeCaseFrom_cons previous current rest
    have hunderscore : ∀ c ∈ added, chars.continues c = true := by
      rcases hadded with rfl | ⟨rfl, -⟩
      · exact List.forall_mem_nil _
      · exact List.forall_mem_singleton.mpr (continues_underscore chars)
    have hcurrent : chars.continues (if current.isUpper then current.toLower else current) =
        chars.continues current := by
      split
      · next hupper =>
        obtain ⟨h, hlower⟩ := continues_toLower chars hupper
        rw [h, hlower]
      · rfl
    rw [hsnake, List.forall_mem_append, List.forall_mem_cons, List.forall_mem_cons, hcurrent,
      ih (some current)]
    exact and_iff_right hunderscore

/-- **Snake case keeps the shape of words**, and gives it to no other name. -/
theorem isWord_snakeCase (name : String) :
    IsWord chars (snakeCase name).toList ↔ IsWord chars name.toList := by
  rw [snakeCase, String.toList_ofList]
  cases name.toList with
  | nil => rfl
  | cons first rest =>
    obtain ⟨added, hadded, hsnake⟩ := snakeCaseFrom_cons none first rest
    obtain rfl : added = [] := hadded.resolve_right fun h => h.2 rfl
    rw [hsnake, List.nil_append, IsWord, IsWord, continues_snakeCaseFrom]
    split
    · next hupper =>
      obtain ⟨h, hlower⟩ := starts_toLower chars hupper
      simp [h, hlower]
    · rfl

theorem not_isUpper_snakeCaseFrom (name : List Char) : ∀ previous,
    ∀ c ∈ snakeCaseFrom previous name, c.isUpper = false := by
  induction name with
  | nil => simp [snakeCaseFrom]
  | cons current rest ih =>
    intro previous
    obtain ⟨added, hadded, hsnake⟩ := snakeCaseFrom_cons previous current rest
    rw [hsnake, List.forall_mem_append, List.forall_mem_cons]
    refine ⟨?_, ?_, ih _⟩
    · rcases hadded with rfl | ⟨rfl, -⟩
      · exact List.forall_mem_nil _
      · exact List.forall_mem_singleton.mpr rfl
    · split
      · next hupper => exact isUpper_toLower hupper
      · next hupper => simpa using hupper

/-- Only an underscore becomes an underscore. -/
theorem snakeCase_eq_underscore_iff (name : String) : snakeCase name = "_" ↔ name = "_" := by
  constructor
  · intro h
    have hlist : snakeCaseFrom none name.toList = ['_'] := by
      have := congrArg String.toList h
      rwa [snakeCase, String.toList_ofList] at this
    apply String.toList_inj.mp
    cases hname : name.toList with
    | nil =>
      rw [hname] at hlist
      cases hlist
    | cons first rest =>
      rw [hname] at hlist
      -- Each character gives at least one of its own, so there is only one; a capital would give a
      -- small letter.
      obtain ⟨added, hadded, hsnake⟩ := snakeCaseFrom_cons none first rest
      obtain rfl : added = [] := hadded.resolve_right fun h => h.2 rfl
      rw [hsnake, List.nil_append] at hlist
      injection hlist with hfirst hrest
      obtain rfl : rest = [] := by
        cases rest with
        | nil => rfl
        | cons second rest =>
          obtain ⟨added, -, hsnake⟩ := snakeCaseFrom_cons (some first) second rest
          rw [hsnake] at hrest
          simp at hrest
      split at hfirst
      · next hupper =>
        have hlower := isLower_toLower hupper
        rw [hfirst] at hlower
        exact absurd hlower (by decide)
      · rw [hfirst]
        rfl
  · rintro rfl
    rfl

end SnakeCase

/-! ## Escaped names -/

section Escaped

variable {chars : IdentifierChars}

/-- The words that are escaped consist of letters. -/
theorem isAlpha_of_mem_reservedWords {word : String} (h : word ∈ reservedWords) :
    word ≠ "" ∧ ∀ c ∈ word.toList, c.isAlpha = true := by
  have hletters : ∀ word ∈ reservedWords, word ≠ "" ∧ word.toList.all Char.isAlpha = true := by
    simp [reservedWords]
  exact (hletters word h).imp_right List.all_eq_true.mp

theorem isWord_of_mem_reservedWords {word : String} (h : word ∈ reservedWords) :
    IsWord chars word.toList ∧ word ≠ "_" := by
  obtain ⟨hne, hall⟩ := isAlpha_of_mem_reservedWords h
  have hlist : word.toList ≠ [] := fun hnil => hne (String.toList_inj.mp hnil)
  refine ⟨?_, fun heq => ?_⟩
  swap
  · rw [heq] at hall
    exact absurd (hall '_' (by simp)) (by decide)
  cases hchars : word.toList with
  | nil => exact absurd hchars hlist
  | cons first rest =>
    rw [hchars, List.forall_mem_cons] at hall
    exact ⟨Or.inl (starts_letter chars hall.1), fun c hc =>
      continues_alphanum chars (by simp [Char.isAlphanum, hall.2 c hc])⟩

/-- **Escaping makes keywords legal and leaves the rest as it is.** -/
theorem legal_identifier_iff {name given : String}
    (hlower : ∀ c ∈ name.toList, c.isUpper = false) (h : identifier name = some given) :
    Legal chars given ↔ IsWord chars name.toList ∧ name ≠ "_" ∨ IsRaw name := by
  rw [identifier] at h
  split at h
  · cases h
  next hself =>
  split at h
  · next hreserved =>
    cases h
    have hraw : IsRaw ("r#" ++ name) := isRaw_iff.mpr ⟨name, hreserved, rfl⟩
    exact ⟨fun _ => Or.inl (isWord_of_mem_reservedWords hreserved), fun _ => Or.inr hraw⟩
  · next hreserved =>
    cases h
    have hkeyword : name ∉ keywords := by
      rw [mem_keywords_iff, not_or]
      refine ⟨hreserved, fun hmem => ?_⟩
      -- the remaining keyword starts with a capital
      have hSelf : name = "Self" := by
        simp only [unescapable, List.mem_cons, List.not_mem_nil, or_false] at hmem hself
        tauto
      rw [hSelf] at hlower
      exact absurd (hlower 'S' (by decide)) (by decide)
    rw [Legal]
    tauto

/-- A name that snake case makes legal, once a keyword is escaped. -/
def Spells (chars : IdentifierChars) (name : String) : Prop :=
  IsWord chars name.toList ∧ name ≠ "_" ∨ IsRaw (snakeCase name)

instance (chars : IdentifierChars) : DecidablePred (Spells chars) :=
  fun _ => inferInstanceAs (Decidable (_ ∨ _))

theorem legal_identifier_snakeCase {name given : String}
    (h : identifier (snakeCase name) = some given) : Legal chars given ↔ Spells chars name := by
  have hlower : ∀ c ∈ (snakeCase name).toList, c.isUpper = false := by
    rw [snakeCase, String.toList_ofList]
    exact not_isUpper_snakeCaseFrom name.toList none
  rw [legal_identifier_iff hlower h, isWord_snakeCase, Ne, snakeCase_eq_underscore_iff, Spells]

theorem groupName_legal_iff {fields : List Field} {group : Group fields.length} {name : String}
    (h : groupName fields group = .ok name) :
    Legal chars name ↔ Spells chars (groupSourceName fields group) := by
  rw [groupName] at h
  cases hescaped : identifier (groupBaseName fields group) with
  | none =>
    rw [hescaped] at h
    cases h
  | some given =>
    rw [hescaped] at h
    cases h
    exact legal_identifier_snakeCase hescaped

/-- A legal message name gives a legal module name. -/
theorem messageModuleName_legal {message name : String} (h : messageModuleName message = .ok name)
    (hmessage : Legal chars message) : Legal chars name := by
  rw [messageModuleName] at h
  cases hescaped : identifier (snakeCase message) with
  | none =>
    rw [hescaped] at h
    cases h
  | some given =>
    rw [hescaped] at h
    cases h
    apply (legal_identifier_snakeCase hescaped).mpr
    rcases hmessage with ⟨hword, hunderscore, -⟩ | hraw
    · exact Or.inl ⟨hword, hunderscore⟩
    · -- an escaped keyword is in snake case
      right
      obtain ⟨word, hword, rfl⟩ := isRaw_iff.mp hraw
      have hsnake : ∀ word ∈ reservedWords, snakeCase ("r#" ++ word) = "r#" ++ word := by
        simp [reservedWords, snakeCase, snakeCaseFrom]
      rw [hsnake word hword]
      exact hraw

/-- A field whose accessor is legal. The suffix of one that is read raw makes up for a missing
name. -/
def FieldSpells (chars : IdentifierChars) (field : Field) : Prop :=
  if Conversion.of field = .raw then field.name = "" ∨ IsWord chars field.name.toList
  else Spells chars field.name

instance (chars : IdentifierChars) : DecidablePred (FieldSpells chars) :=
  fun _ => inferInstanceAs (Decidable (ite _ _ _))

/-- With the suffix, a name is a word or no identifier at all. -/
theorem legal_raw_iff (chars : IdentifierChars) (name : String) :
    IsWord chars (snakeCase name ++ "_raw").toList ∧ snakeCase name ++ "_raw" ≠ "_" ∨
        IsRaw (snakeCase name ++ "_raw") ↔
      name = "" ∨ IsWord chars name.toList := by
  have hlong : snakeCase name ++ "_raw" ≠ "_" := by
    intro h
    have hlength := congrArg String.length h
    rw [String.length_append, show "_raw".length = 4 by rfl, show "_".length = 1 by rfl] at hlength
    omega
  have hraw : ¬ IsRaw (snakeCase name ++ "_raw") := by
    rw [isRaw_iff]
    rintro ⟨word, hword, heq⟩
    -- there is no underscore in an escaped keyword
    have hmem : '_' ∈ ("r#" ++ word).toList := by
      rw [← heq, String.toList_append]
      exact List.mem_append_right _ (by simp)
    rw [String.toList_append, List.mem_append] at hmem
    rcases hmem with hmem | hmem
    · exact absurd hmem (by simp)
    · exact absurd ((isAlpha_of_mem_reservedWords hword).2 '_' hmem) (by decide)
  have hrest : ∀ c ∈ "_raw".toList, chars.continues c = true := by
    have hall : "_raw".toList.all (fun c => c == '_' || c.isAlphanum) = true := by simp
    intro c hc
    have hc := List.all_eq_true.mp hall c hc
    rw [Bool.or_eq_true, beq_iff_eq] at hc
    rcases hc with rfl | halphanum
    · exact continues_underscore chars
    · exact continues_alphanum chars halphanum
  by_cases hname : name = ""
  · subst hname
    have hempty : (snakeCase "" ++ "_raw").toList = '_' :: "raw".toList := by
      simp [snakeCase, snakeCaseFrom]
    simp only [hlong, hraw, hempty, ne_eq, not_false_iff, and_true, or_false, true_or, iff_true]
    exact ⟨Or.inr rfl, fun c hc => hrest c (List.mem_cons_of_mem _ hc)⟩
  · have hne : (snakeCase name).toList ≠ [] := by
      rw [snakeCase, String.toList_ofList]
      cases hchars : name.toList with
      | nil => exact absurd (String.toList_inj.mp hchars) hname
      | cons first rest =>
        obtain ⟨added, -, hsnake⟩ := snakeCaseFrom_cons none first rest
        rw [hsnake]
        simp
    rw [String.toList_append, isWord_append chars hne hrest, isWord_snakeCase]
    simp [hlong, hraw, hname]

theorem methodName_legal_iff {field : Field} {name : String} (h : methodName field = .ok name) :
    Legal chars name ↔ FieldSpells chars field := by
  rw [methodName] at h
  cases hescaped : identifier (fieldBaseName field) with
  | none =>
    rw [hescaped] at h
    cases h
  | some given =>
    rw [hescaped] at h
    cases h
    rw [fieldBaseName] at hescaped
    rw [FieldSpells]
    split at hescaped
    · next hraw =>
      rw [if_pos hraw, ← legal_raw_iff]
      refine legal_identifier_iff ?_ hescaped
      have hsuffix : "_raw".toList.all (fun c => !c.isUpper) = true := by simp
      rw [String.toList_append, List.forall_mem_append, snakeCase, String.toList_ofList]
      refine ⟨not_isUpper_snakeCaseFrom _ _, fun c hc => ?_⟩
      simpa using List.all_eq_true.mp hsuffix c hc
    · next hraw =>
      rw [if_neg hraw]
      exact legal_identifier_snakeCase hescaped

end Escaped

/-! ## The names of values -/

section Values

/-- The shape that the name of a value is checked for. What starts it was made upper-case. -/
structure IsVariantName (name : String) : Prop where
  ne_self : name ≠ "Self"
  shape : ∃ first rest, name.toList = first :: rest ∧ first.isUpper = true ∧
    ∀ c ∈ rest, c.isAlphanum = true

/-- A letter is upper-case behind the conversion. -/
theorem isUpper_toUpper {c : Char} (h : c.toUpper.isAlpha = true) : c.toUpper.isUpper = true := by
  cases hlower : c.isLower with
  | true =>
    obtain ⟨n, hn, rfl⟩ := exists_of_isLower hlower
    exact (converted_letters n hn).2.2
  | false =>
    have hsame : c.toUpper = c := by
      rw [Char.toUpper, dif_neg]
      simpa [Char.isLower] using hlower
    rw [hsame, Char.isAlpha, hlower, Bool.or_false] at h
    rw [hsame, h]

/-- Pascal case starts with a converted character. -/
theorem head?_pascalCase (name : String) :
    ∀ c ∈ (pascalCase name).toList.head?, ∃ first : Char, c = first.toUpper := by
  intro c hc
  rw [pascalCase, String.toList_ofList] at hc
  generalize hsegments : (name.toList.splitOn '_').filter (fun segment => !segment.isEmpty) =
    segments at hc
  cases segments with
  | nil => cases hc
  | cons segment segments =>
    have hmem : segment ∈ (name.toList.splitOn '_').filter (fun segment => !segment.isEmpty) := by
      rw [hsegments]
      exact List.mem_cons_self
    have hne := (List.mem_filter.mp hmem).2
    cases segment with
    | nil => cases hne
    | cons first rest =>
      rw [List.flatMap_cons, capitalize, List.cons_append, List.head?_cons,
        Option.mem_some_iff] at hc
      exact ⟨first, hc.symm⟩

theorem variantName_shape (field : Field) (value : EnumValue) :
    Outcome (fun _ => True) IsVariantName (variantName field value) := by
  unfold variantName
  extract_lets converted name startsWithLetter alphanumeric
  have hname : (if converted.head?.any Char.isDigit then 'N' :: converted else converted) = name :=
    rfl
  clear_value name
  split
  · trivial
  next hchecked =>
    simp only [Bool.or_eq_true, Bool.not_eq_true', decide_eq_true_eq, not_or, Bool.not_eq_false]
      at hchecked
    obtain ⟨⟨hletter, hall⟩, hself⟩ := hchecked
    have hletter : name.head?.any Char.isAlpha = true := hletter
    have hall : name.all Char.isAlphanum = true := hall
    cases name with
    | nil => cases hletter
    | cons first rest =>
      refine ⟨fun heq => hself ?_, first, rest, String.toList_ofList .., ?_, ?_⟩
      · rw [← heq, String.toList_ofList]
      · rw [List.head?_cons, Option.any_some] at hletter
        split at hname
        · injection hname with hfirst _
          rw [← hfirst]
          rfl
        · obtain ⟨converted, rfl⟩ := head?_pascalCase value.description first
            (show converted.head? = some first by rw [hname]; rfl)
          exact isUpper_toUpper hletter
      · exact (List.forall_mem_cons.mp (List.all_eq_true.mp hall)).2

/-- A number leaves the shape as it is. -/
theorem isVariantName_numbered {name : String} (h : IsVariantName name) (number : ℕ) :
    IsVariantName (numberedVariant name number) := by
  obtain ⟨-, first, rest, hchars, hupper, hrest⟩ := h
  have hdigits : ∀ c ∈ (toString number).toList, c.isDigit = true := by
    intro c hc
    have hmem : c ∈ Nat.toDigits 10 number := by simpa using hc
    exact Nat.isDigit_of_mem_toDigits (by decide) (by decide) hmem
  have hlist : (numberedVariant name number).toList = first :: (rest ++ (toString number).toList) := by
    rw [numberedVariant, String.toList_append, hchars, List.cons_append]
  refine ⟨fun heq => ?_, first, _, hlist, hupper, ?_⟩
  · -- `Self` has no digit
    have hnodigit : "Self".toList.all (fun c => !c.isDigit) = true := by simp
    obtain ⟨digit, hdigit⟩ : ∃ digit, digit ∈ (toString number).toList := by
      apply List.exists_mem_of_ne_nil
      intro hnil
      have hpos : 0 < (toString number).length := Nat.length_repr_pos
      rw [← String.length_toList, hnil] at hpos
      cases hpos
    have hmem : digit ∈ "Self".toList := by
      rw [← heq, hlist]
      exact List.mem_cons_of_mem _ (List.mem_append_right _ hdigit)
    have hnot := List.all_eq_true.mp hnodigit digit hmem
    rw [hdigits digit hdigit] at hnot
    cases hnot
  · rw [List.forall_mem_append]
    exact ⟨hrest, fun c hc => by simp [Char.isAlphanum, hdigits c hc]⟩

/-- **The names of values are legal.** -/
theorem legal_of_isVariantName {chars : IdentifierChars} {name : String} (h : IsVariantName name) :
    Legal chars name := by
  obtain ⟨hself, first, rest, hchars, hupper, hrest⟩ := h
  refine Or.inl ⟨?_, ?_, fun hkeyword => ?_⟩
  · rw [hchars]
    exact ⟨Or.inl (starts_letter chars (by simp [Char.isAlpha, hupper])),
      fun c hc => continues_alphanum chars (hrest c hc)⟩
  · rintro rfl
    injection hchars with hfirst _
    rw [← hfirst] at hupper
    cases hupper
  · -- the one keyword with a capital is `Self`
    have hkeywords : ∀ word ∈ keywords, word = "Self" ∨
        word.toList.all (fun c => !c.isUpper) = true := by simp [keywords]
    have hlower := List.all_eq_true.mp ((hkeywords name hkeyword).resolve_left hself) first
      (by simp [hchars])
    rw [hupper] at hlower
    cases hlower

end Values

end Refix.Codegen.Rust
