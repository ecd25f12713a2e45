import Refix.Codegen.Imports

/-!
# The Import Block of Generated Python

The generator writes the block as text, with a blank line between its parts. Read line by line and
word by word, the text brings in the names that the block was made for.
-/

namespace Refix.Codegen.Python

open Refix.Foundation
open Refix.Dict

/-! ## Reading lines -/

/-- What a line of code brings in, by its words: those of `import a`, or of `from a import b, c`. -/
def broughtIn (line : List Char) : List String :=
  match line.splitOn ' ' with
  | [word, name] => if String.ofList word = "import" then [String.ofList name] else []
  | word :: _ :: next :: names =>
    if String.ofList word = "from" ∧ String.ofList next = "import" then
      names.map fun name => .ofList (name.filter (· != ','))
    else []
  | _ => []

/-- What the lines of some code bring in. -/
def linesBring (code : List Char) : List String := (code.splitOn '\n').flatMap broughtIn

/-- A name that ends no word and no line. -/
def plain (name : String) : Bool := name.toList.all fun c => c != ' ' && c != ',' && c != '\n'

def Import.Plain : Import → Prop
  | .whole name => plain name = true
  | .listed source names => plain source = true ∧ names ≠ [] ∧ ∀ name ∈ names, plain name = true

/-! ## The words of a line -/

/-- Names with a comma behind each but the last. -/
def commas : List String → List (List Char)
  | [] => []
  | [name] => [name.toList]
  | name :: next :: names => (name.toList ++ [',']) :: commas (next :: names)

/-- The words of a line. -/
def Import.words : Import → List (List Char)
  | .whole name => ["import".toList, name.toList]
  | .listed source names => "from".toList :: source.toList :: "import".toList :: commas names

section Text

variable {names : List String}

theorem notMem_of_plain {name : String} (h : plain name = true) :
    ' ' ∉ name.toList ∧ ',' ∉ name.toList ∧ '\n' ∉ name.toList := by
  simp only [plain, List.all_eq_true, Bool.and_eq_true, bne_iff_ne] at h
  exact ⟨fun hmem => (h _ hmem).1.1 rfl, fun hmem => (h _ hmem).1.2 rfl,
    fun hmem => (h _ hmem).2 rfl⟩

theorem commas_ne_nil (h : names ≠ []) : commas names ≠ [] := by
  match names with
  | [_] => simp [commas]
  | _ :: _ :: _ => simp [commas]

theorem intercalate_commas (names : List String) :
    [' '].intercalate (commas names) = (", ".intercalate names).toList := by
  induction names with
  | nil => rfl
  | cons name names ih =>
    -- the last name has no comma, and the others have one in front of the space
    cases names with
    | nil => simp [commas]
    | cons next names =>
      rw [commas, List.intercalate_cons_of_ne_nil (commas_ne_nil (by simp)), ih,
        String.intercalate_cons_cons]
      simp

/-- Without its comma, each word is the name. -/
theorem map_filter_commas (h : ∀ name ∈ names, plain name = true) :
    (commas names).map (fun name => String.ofList (name.filter (· != ','))) = names := by
  have hfilter : ∀ {name : String}, plain name = true →
      name.toList.filter (· != ',') = name.toList := by
    intro name hname
    apply List.filter_eq_self.mpr
    intro c hc
    simp only [bne_iff_ne]
    rintro rfl
    exact (notMem_of_plain hname).2.1 hc
  induction names with
  | nil => rfl
  | cons name names ih =>
    obtain ⟨hname, hnames⟩ := List.forall_mem_cons.mp h
    cases names with
    | nil => simp [commas, hfilter hname]
    | cons next names =>
      rw [commas, List.map_cons, ih hnames, List.filter_append, hfilter hname]
      simp

theorem notMem_commas (h : ∀ name ∈ names, plain name = true) :
    ∀ word ∈ commas names, ' ' ∉ word ∧ '\n' ∉ word := by
  induction names with
  | nil => simp [commas]
  | cons name names ih =>
    obtain ⟨hname, hnames⟩ := List.forall_mem_cons.mp h
    obtain ⟨hspace, -, hline⟩ := notMem_of_plain hname
    cases names with
    | nil => simpa [commas] using ⟨hspace, hline⟩
    | cons next names =>
      rw [commas]
      apply List.forall_mem_cons.mpr ⟨_, ih hnames⟩
      simp [hspace, hline]

variable {line : Import} {block : List Import}

/-- A line is its words with spaces between them. -/
theorem Import.text_eq (line : Import) (h : line.Plain) :
    line.text.toList = [' '].intercalate line.words ++ ['\n'] := by
  cases line with
  | whole name => simp [Import.text, Import.words]
  | listed source names =>
    obtain ⟨-, hne, -⟩ := h
    rw [Import.words, List.intercalate_cons_cons, List.intercalate_cons_cons,
      List.intercalate_cons_of_ne_nil (commas_ne_nil hne), intercalate_commas]
    simp [Import.text]

theorem Import.notMem_words (h : line.Plain) : ∀ word ∈ line.words, ' ' ∉ word ∧ '\n' ∉ word := by
  have hfrom : ' ' ∉ "from".toList ∧ '\n' ∉ "from".toList := by decide
  have himport : ' ' ∉ "import".toList ∧ '\n' ∉ "import".toList := by decide
  cases line with
  | whole name =>
    obtain ⟨hspace, -, hline⟩ := notMem_of_plain h
    exact List.forall_mem_cons.mpr ⟨himport, List.forall_mem_singleton.mpr ⟨hspace, hline⟩⟩
  | listed source names =>
    obtain ⟨hsource, -, hnames⟩ := h
    obtain ⟨hspace, -, hline⟩ := notMem_of_plain hsource
    exact List.forall_mem_cons.mpr ⟨hfrom, List.forall_mem_cons.mpr ⟨⟨hspace, hline⟩,
      List.forall_mem_cons.mpr ⟨himport, notMem_commas hnames⟩⟩⟩

/-- The words of a line bring in what the line does. -/
theorem Import.broughtIn_words (h : line.Plain) :
    broughtIn ([' '].intercalate line.words) = line.brings := by
  -- no word holds a space, so that splitting gives back the words
  have hwords : line.words ≠ [] := by cases line <;> simp [Import.words]
  rw [broughtIn, List.splitOn_intercalate ' ' (fun word hword => (notMem_words h word hword).1)
    hwords]
  cases line with
  | whole name => simp [Import.words, Import.brings]
  | listed source names =>
    obtain ⟨-, hne, hnames⟩ := h
    have hcommas := map_filter_commas hnames
    cases hcase : commas names with
    | nil => exact absurd hcase (commas_ne_nil hne)
    | cons first rest =>
      rw [hcase] at hcommas
      simpa [Import.words, Import.brings, hcase] using hcommas

/-! ## The lines of the block -/

theorem notMem_intercalate {words : List (List Char)} (h : ∀ word ∈ words, '\n' ∉ word) :
    '\n' ∉ [' '].intercalate words := by
  induction words with
  | nil => simp
  | cons word words ih =>
    obtain ⟨hword, hwords⟩ := List.forall_mem_cons.mp h
    cases words with
    | nil => simpa using hword
    | cons next words =>
      rw [List.intercalate_cons_cons]
      simp [hword, ih hwords]

theorem linesBring_cons (h : line.Plain) (rest : List Char) :
    linesBring (line.text.toList ++ rest) = line.brings ++ linesBring rest := by
  have hline := notMem_intercalate fun word hword => (Import.notMem_words h word hword).2
  rw [line.text_eq h, List.append_assoc, List.singleton_append, linesBring,
    List.splitOn_append_cons_self_of_not_mem hline, List.flatMap_cons, Import.broughtIn_words h]
  rfl

theorem linesBring_block (h : ∀ line ∈ block, line.Plain) (rest : List Char) :
    linesBring (block.flatMap (·.text.toList) ++ rest) =
      block.flatMap Import.brings ++ linesBring rest := by
  induction block with
  | nil => rfl
  | cons line block ih =>
    obtain ⟨hline, hblock⟩ := List.forall_mem_cons.mp h
    rw [List.flatMap_cons, List.append_assoc, linesBring_cons hline, ih hblock, List.flatMap_cons,
      List.append_assoc]

/-- A line without words brings in nothing. -/
theorem linesBring_newline (rest : List Char) : linesBring ('\n' :: rest) = linesBring rest := by
  have hempty : broughtIn [] = [] := by simp [broughtIn]
  have hsplit := List.splitOn_append_cons_self_of_not_mem (List.not_mem_nil (a := '\n')) rest
  rw [List.nil_append] at hsplit
  rw [linesBring, hsplit, List.flatMap_cons, hempty]
  rfl

theorem linesBring_blocks {blocks : List (List Import)}
    (h : ∀ block ∈ blocks, ∀ line ∈ block, line.Plain) :
    linesBring (['\n'].intercalate (blocks.map fun block => block.flatMap (·.text.toList))) =
      blocks.flatten.flatMap Import.brings := by
  have hnil : linesBring [] = [] := by simp [linesBring, broughtIn]
  induction blocks with
  | nil => exact hnil
  | cons block blocks ih =>
    -- behind a block stands an empty line, unless it is the last
    obtain ⟨hblock, hblocks⟩ := List.forall_mem_cons.mp h
    have hrest := ih hblocks
    rw [List.flatten_cons, List.flatMap_append, ← hrest]
    cases blocks with
    | nil =>
      have hone := linesBring_block hblock []
      simpa [hnil] using hone
    | cons next blocks =>
      rw [List.map_cons, List.map_cons, List.intercalate_cons_cons, ← List.map_cons,
        List.append_assoc, linesBring_block hblock, List.singleton_append, linesBring_newline]

end Text

/-! ## The block of a dictionary -/

theorem mem_importIf {condition : Bool} {line line' : Import} :
    line' ∈ importIf condition line ↔ condition = true ∧ line' = line := by
  cases condition <;> simp [importIf]

theorem plain_datetimeNames {dictionary : Dictionary} :
    ∀ name ∈ datetimeNames dictionary, plain name = true := by
  intro name hname
  simp only [datetimeNames, List.mem_append, mem_namesIf, List.mem_singleton] at hname
  rcases hname with (⟨-, rfl⟩ | ⟨-, rfl⟩) | ⟨-, rfl⟩ <;> decide

theorem plain_refixNames {dictionary : Dictionary} :
    ∀ name ∈ refixNames dictionary, plain name = true := by
  intro name hname
  simp only [refixNames, List.mem_insertionSort, List.mem_append, mem_namesIf, List.mem_cons,
    List.not_mem_nil, or_false] at hname
  rcases hname with (((rfl | ⟨-, rfl⟩) | ⟨-, rfl⟩) | ⟨-, rfl | rfl⟩) | ⟨-, rfl⟩ <;> decide

theorem plain_imports (dictionary : Dictionary) :
    ∀ block ∈ imports dictionary, ∀ line ∈ block, line.Plain := by
  intro block hblock line hline
  simp only [imports, List.mem_cons, List.not_mem_nil, or_false] at hblock
  rcases hblock with rfl | rfl | rfl
  · obtain ⟨-, rfl⟩ := mem_importIf.mp hline
    exact ⟨by decide, by simp, by simp only [List.forall_mem_singleton]; decide⟩
  · simp only [List.mem_append, mem_importIf] at hline
    rcases hline with (((⟨-, rfl⟩ | ⟨hne, rfl⟩) | ⟨-, rfl⟩) | ⟨-, rfl⟩) | ⟨-, rfl⟩
    · exact (by decide : plain "enum" = true)
    · exact ⟨by decide, by simpa using hne, plain_datetimeNames⟩
    all_goals exact ⟨by decide, by simp, by simp only [List.forall_mem_singleton]; decide⟩
  · simp only [List.mem_append, mem_importIf, List.mem_singleton] at hline
    rcases hline with (⟨-, rfl⟩ | rfl) | ⟨-, rfl⟩
    · exact (by decide : plain "refix" = true)
    · have hdialect : "Dialect" ∈ refixNames dictionary := by simp [refixNames]
      exact ⟨by decide, List.ne_nil_of_mem hdialect, plain_refixNames⟩
    · exact ⟨by decide, by simp, by simp only [List.forall_mem_cons]; decide⟩

/-- **The text that is written brings in what is imported**, and the annotations of the future
where there are classes. -/
theorem emitImports_brings (dictionary : Dictionary) :
    linesBring (emitImports dictionary).toList =
      namesIf (hasClasses dictionary) ["annotations"] ++ imported dictionary := by
  have htext : (emitImports dictionary).toList = ['\n'].intercalate
      (((imports dictionary).filter (!·.isEmpty)).map fun block =>
        block.flatMap (·.text.toList)) := by
    simp only [emitImports, String.toList_intercalate, List.map_map, Function.comp_def,
      String.toList_join, List.flatMap_map]
    rfl
  have hplain : ∀ block ∈ (imports dictionary).filter (!·.isEmpty), ∀ line ∈ block, line.Plain :=
    fun block hblock => plain_imports dictionary block (List.mem_of_mem_filter hblock)
  rw [htext, linesBring_blocks hplain, List.flatten_filter_not_isEmpty, imported]
  have hfront : imports dictionary =
      importIf (hasClasses dictionary) (.listed "__future__" ["annotations"]) ::
        (imports dictionary).tail := rfl
  rw [hfront, List.flatten_cons, List.flatMap_append, brings_importIf]
  rfl

end Refix.Codegen.Python
