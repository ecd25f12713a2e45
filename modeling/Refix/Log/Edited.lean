import Refix.Log.Closing
import Refix.Log.Walked

/-!
# Messages with Another BodyLength

A message is logged with another value of BodyLength, or without that field. As long as the value
does not point at a CheckSum field itself, the message is walked, and the walk ends it where a
right BodyLength does: with its own CheckSum field and the line break behind it.
-/

namespace Refix.Log

open Refix.Foundation Refix.Message

/-! ## What is walked -/

/-- What stands in the place of the BodyLength field. -/
inductive LengthEdit where
  | replace (value : Bytes)
  | remove
  deriving DecidableEq, Repr

def LengthEdit.fields : LengthEdit → List (Tag × Bytes)
  | .replace value => [(9, value)]
  | .remove => []

/-- A value that takes the place of BodyLength's: it ends no field and no line, and opens none. -/
def LengthEdit.Fits (separator : UInt8) : LengthEdit → Prop
  | .replace value => separator ∉ value ∧ equalsSign ∉ value ∧ lineFeed ∉ value
  | .remove => True

namespace LogMessage

/-- The fields of a logged message behind its BodyLength. -/
def tailFields (message : LogMessage) : List (Tag × Bytes) :=
  respellFields message.separator message.body ++ [(checksumTag, message.parts.checksum)]

/-- The fields of a logged message with an edit of its BodyLength. -/
def editedFields (message : LogMessage) (edit : LengthEdit) : List (Tag × Bytes) :=
  (8, message.parts.version) :: edit.fields ++ message.tailFields

/-- The bytes of a logged message with an edit of its BodyLength. -/
def edited (message : LogMessage) (edit : LengthEdit) : Bytes :=
  wireFields message.separator (message.editedFields edit)

/-- A message that holds no line feed and no start behind its own, but in data values. -/
def Plain (dialect : Dialect) (message : LogMessage) : Prop :=
  ∀ k, 1 ≤ k → k < message.logged.length →
    ¬ InData (Tokenizer.new dialect) k 0 none message.entries →
      message.logged[k]? ≠ some lineFeed ∧
        ∀ separator, checkAt message.logged none k ≠ .start separator

/-- The value in the place of BodyLength points at a CheckSum field, in the message or behind
it. -/
def PointsAtChecksum (message : LogMessage) (edit : LengthEdit) (rest : Bytes) : Prop :=
  ∃ value n, edit = .replace value ∧ parseU32 value = some n ∧
    let trailerStart := message.parts.version.length + value.length + 6 + n
    slice (message.edited edit ++ rest) (trailerStart - 1) (trailerStart + 3) =
      message.separator :: ascii "10="

variable {message : LogMessage} {dialect : Dialect} {edit : LengthEdit}

/-- The front of an edited message, up to its body. -/
def editedHead (message : LogMessage) (edit : LengthEdit) : Bytes :=
  wireFields message.separator ((8, message.parts.version) :: edit.fields)

/-- What follows the front, edited or not. -/
def loggedTail (message : LogMessage) : Bytes :=
  wireFields message.separator message.tailFields

theorem edited_eq (message : LogMessage) (edit : LengthEdit) :
    message.edited edit = message.editedHead edit ++ message.loggedTail := by
  rw [edited, editedFields, wireFields_append]
  rfl

/-- A message as it was is edited by its own digits. -/
theorem Written.respell_entries (h : message.Written dialect) :
    respellFields message.separator message.entries =
      message.editedFields (.replace message.parts.digits) := by
  have hversion : respell message.separator message.parts.version = message.parts.version :=
    respell_of_notMem h.parts.version_soh
  have hdigits : respell message.separator message.parts.digits = message.parts.digits :=
    respell_of_digits h.parts.digits_digit
  have hchecksum : respell message.separator message.parts.checksum = message.parts.checksum :=
    respell_of_digits h.parts.checksum_digit
  rw [entries, editedFields, tailFields, respellFields, List.map_cons, List.map_cons,
    List.map_append, hversion, hdigits, List.map_singleton, hchecksum]
  rfl

theorem Written.logged_eq_edited (h : message.Written dialect) :
    message.logged = message.edited (.replace message.parts.digits) := by
  rw [h.logged_eq, h.respell_entries]
  rfl

theorem getLast?_edited (message : LogMessage) (edit : LengthEdit) :
    (message.edited edit).getLast? = some message.separator :=
  getLast?_wireFields message.separator (List.cons_ne_nil _ _)

theorem getLast?_editedHead (message : LogMessage) (edit : LengthEdit) :
    (message.editedHead edit).getLast? = some message.separator :=
  getLast?_wireFields message.separator (List.cons_ne_nil _ _)

theorem Written.tailFields_eq (h : message.Written dialect) :
    message.tailFields =
      respellFields message.separator (message.body ++ [(10, message.parts.checksum)]) := by
  rw [tailFields, respellFields, respellFields, List.map_append, List.map_singleton,
    respell_of_digits h.parts.checksum_digit]
  rfl

/-- Every value of an edited message can be told from what follows it. -/
theorem Written.delimited_edited (h : message.Written dialect) (hdialect : dialect.KeepsEnvelope)
    (hfits : edit.Fits message.separator) :
    (Tokenizer.new dialect).Delimited message.separator none (message.editedFields edit) := by
  have hnew : message.separator = soh ∨
      ∀ field ∈ message.body ++ [(10, message.parts.checksum)], message.separator ∉ field.2 := by
    refine h.new.imp id fun hnew field hfield hmem => hnew ?_
    rw [h.frame_eq]
    exact mem_wireFields (List.mem_cons_of_mem _ (List.mem_cons_of_mem _ hfield)) hmem
  have htail := delimited_respell h.separates.digit hnew h.delimited
  rw [← h.tailFields_eq] at htail
  refine ⟨h.separator_notMem_version, ?_⟩
  rw [(hdialect.lengthOf message.parts.version).1]
  cases edit with
  | remove => exact htail
  | replace value =>
    refine ⟨hfits.1, ?_⟩
    rw [(hdialect.lengthOf value).2]
    exact htail

/-- The fields in front of CheckSum. -/
def editedFront (message : LogMessage) (edit : LengthEdit) : List (Tag × Bytes) :=
  (8, message.parts.version) :: edit.fields ++ respellFields message.separator message.body

theorem editedFields_eq (message : LogMessage) (edit : LengthEdit) :
    message.editedFields edit =
      message.editedFront edit ++ [(checksumTag, message.parts.checksum)] :=
  (List.append_assoc ..).symm

/-- The fields in front of CheckSum have canonical tags, and other ones. -/
theorem Written.tags_editedFront (h : message.Written dialect)
    (hchecksum : ∀ field ∈ message.body, field.1 ≠ checksumTag) (edit : LengthEdit) :
    ∀ field ∈ message.editedFront edit, field.1 ≤ u32Max ∧ field.1 ≠ checksumTag := by
  have hedit : ∀ field ∈ edit.fields, field.1 ≤ u32Max ∧ field.1 ≠ checksumTag := by
    cases edit with
    | remove => exact nofun
    | replace value => simp [LengthEdit.fields, u32Max, checksumTag]
  intro field hfield
  rcases List.mem_append.mp hfield with hhead | hbody
  · rcases List.mem_cons.mp hhead with rfl | hmem
    · exact ⟨by simp [u32Max], by simp [checksumTag]⟩
    · exact hedit field hmem
  · obtain ⟨entry, hentry, rfl⟩ := List.mem_map.mp hbody
    exact ⟨h.tags entry hentry, hchecksum entry hentry⟩

/-! ## What the walk passes over -/

/-- Where a field lies in a data value does not depend on the separator. -/
theorem inData_respellFields {tokenizer : Tokenizer} {separator : UInt8}
    (hsep : isAsciiDigit separator = false) {k pos : ℕ} {dataLen : Option ℕ}
    {fields : List (Tag × Bytes)} :
    InData tokenizer k pos dataLen (respellFields separator fields) ↔
      InData tokenizer k pos dataLen fields := by
  induction fields generalizing pos dataLen with
  | nil => exact Iff.rfl
  | cons field fields ih =>
    obtain ⟨tag, value⟩ := field
    have hentry : entryAt pos tag (respell separator value) = entryAt pos tag value := by
      rw [entryAt, length_respell]
      rfl
    have hlength : tokenizer.lengthOf tag (respell separator value) =
        tokenizer.lengthOf tag value := by
      rw [Tokenizer.lengthOf, parseU32_respell hsep]
      rfl
    rw [respellFields, List.map_cons, InData, InData, hentry, hlength]
    exact or_congr_right ih

/-- The data values of an edited message are behind its front. -/
theorem inData_edited (hdialect : dialect.KeepsEnvelope) {k : ℕ} :
    InData (Tokenizer.new dialect) k 0 none (message.editedFields edit) ↔
      InData (Tokenizer.new dialect) k (message.editedHead edit).length none
        message.tailFields := by
  have hversion := (hdialect.lengthOf message.parts.version).1
  have hhead : ¬ InData (Tokenizer.new dialect) k 0 none
      ((8, message.parts.version) :: edit.fields) := by
    rintro (⟨hsome, -⟩ | hin)
    · cases hsome
    rw [hversion] at hin
    cases edit with
    | remove => exact hin
    | replace value =>
      rcases hin with ⟨hsome, -⟩ | hin
      · cases hsome
      · exact hin
  have hafter : (Tokenizer.new dialect).lengthAfter none
      ((8, message.parts.version) :: edit.fields) = none := by
    cases edit with
    | remove => exact hversion
    | replace value => exact (hdialect.lengthOf value).2
  rw [editedFields, inData_append message.separator, hafter, or_iff_right hhead, Nat.zero_add]
  rfl

/-- Neither a line feed nor the `8=` of a start stands at an offset. -/
def PlainAt (text : Bytes) (k : ℕ) : Prop :=
  text[k]? ≠ some lineFeed ∧ (text[k]? = some 56 → text[k + 1]? ≠ some equalsSign)

theorem plainAt_append (before text : Bytes) (k : ℕ) :
    PlainAt (before ++ text) (before.length + k) ↔ PlainAt text k := by
  have hget : ∀ m, (before ++ text)[before.length + m]? = text[m]? := fun m => by
    rw [List.getElem?_append_right (Nat.le_add_right _ _), Nat.add_sub_cancel_left]
  rw [PlainAt, PlainAt, Nat.add_assoc, hget, hget]

/-- A byte that is neither a line feed nor an `8`. -/
theorem plainAt_cons {b : UInt8} (hfeed : b ≠ lineFeed) (height : b ≠ 56) (text : Bytes) :
    PlainAt (b :: text) 0 :=
  ⟨fun hb => hfeed (Option.some.inj hb), fun hb => absurd (Option.some.inj hb) height⟩

/-- A value without line feeds and `=`, and the separator behind it. -/
theorem plainAt_value {separator : UInt8} (hsep : Separates separator) {value : Bytes}
    (hequals : equalsSign ∉ value) (hfeed : lineFeed ∉ value) {k : ℕ} (hk : k ≤ value.length)
    (more : Bytes) : PlainAt (value ++ separator :: more) k := by
  have hget : ∀ m < value.length, (value ++ separator :: more)[m]? = value[m]? := fun m hm =>
    List.getElem?_append_left hm
  rcases hk.lt_or_eq with hlt | rfl
  · refine ⟨?_, fun _ => ?_⟩
    · rw [hget k hlt]
      exact fun hb => hfeed (List.mem_of_getElem? hb)
    · rcases (Nat.succ_le_of_lt hlt).lt_or_eq with hnext | hnext
      · rw [hget _ hnext]
        exact fun hb => hequals (List.mem_of_getElem? hb)
      · have hend : (value ++ separator :: more)[value.length]? = some separator := by simp
        rw [show k + 1 = value.length from hnext, hend]
        exact fun hb => hsep.equals (Option.some.inj hb)
  · refine (plainAt_append value _ 0).mpr (plainAt_cons hsep.lineFeed ?_ more)
    -- a separator is no `8`
    rintro rfl
    exact absurd hsep.version (by decide)

/-- Neither a line feed nor a start stands in the front of an edited message. -/
theorem Written.plainAt_head (h : message.Written dialect) (hfits : edit.Fits message.separator)
    {k : ℕ} (hk : 1 ≤ k) (hlt : k < (message.editedHead edit).length) (more : Bytes) :
    PlainAt (message.editedHead edit ++ more) k := by
  have hnot : ∀ b : UInt8, isVersionByte b = false → b ∉ message.parts.version := by
    intro b hb hmem
    rw [h.version_byte b hmem] at hb
    cases hb
  have hversion : ∀ {m : ℕ}, m ≤ message.parts.version.length → ∀ after : Bytes,
      PlainAt (message.parts.version ++ message.separator :: after) m := fun hm after =>
    plainAt_value h.separates (hnot equalsSign (by decide)) (hnot lineFeed (by decide)) hm after
  have height : decimal 8 = [56] := decimal_eight
  have hnine : decimal 9 = [57] := decimal_nine
  have hhead : message.editedHead edit ++ more = [56, equalsSign] ++
      (message.parts.version ++ message.separator ::
        (wireFields message.separator edit.fields ++ more)) := by
    rw [editedHead, wireFields_cons, height]
    simp [wireField]
  rw [hhead]
  -- The offset stands in `=`, in the version and its separator, or in the length field after it.
  obtain rfl | ⟨j, rfl⟩ : k = 1 ∨ ∃ j, k = 2 + j := by
    rcases hk.eq_or_lt with rfl | hlt
    · exact Or.inl rfl
    · exact Or.inr ⟨k - 2, by omega⟩
  · refine (plainAt_append [56] (equalsSign :: _) 0).mpr ?_
    exact plainAt_cons (by decide) (by decide) _
  rw [show 2 = [56, equalsSign].length from rfl, plainAt_append]
  by_cases hin : j ≤ message.parts.version.length
  · exact hversion hin _
  have hlength : (message.editedHead edit).length =
      message.parts.version.length + 3 + (wireFields message.separator edit.fields).length := by
    have hlength := congrArg List.length hhead
    simp only [List.length_append, List.length_cons, List.length_nil] at hlength
    omega
  obtain ⟨i, rfl⟩ : ∃ i, j = message.parts.version.length + (1 + i) :=
    ⟨j - message.parts.version.length - 1, by omega⟩
  rw [plainAt_append, show message.separator :: (wireFields message.separator edit.fields ++ more) =
    [message.separator] ++ (wireFields message.separator edit.fields ++ more) from rfl,
    show 1 = [message.separator].length from rfl, plainAt_append]
  -- With the length field removed the head ends here; a replaced one holds no line feed and no `=`.
  cases edit with
  | remove =>
    simp only [LengthEdit.fields, wireFields, List.flatMap_nil, List.length_nil] at hlength
    omega
  | replace value =>
    obtain ⟨-, hequals, hfeed⟩ := hfits
    have hwire : wireFields message.separator (LengthEdit.replace value).fields =
        [57, equalsSign] ++ (value ++ [message.separator]) := by
      rw [LengthEdit.fields, wireFields_cons, hnine]
      simp [wireField, wireFields]
    rw [hwire] at hlength ⊢
    simp only [List.length_append, List.length_cons, List.length_nil] at hlength
    rw [List.append_assoc, List.append_assoc]
    obtain rfl | rfl | ⟨m, rfl⟩ : i = 0 ∨ i = 1 ∨ ∃ m, i = 2 + m := by
      rcases i with _ | _ | m
      · exact Or.inl rfl
      · exact Or.inr (Or.inl rfl)
      · exact Or.inr (Or.inr ⟨m, Nat.add_comm m 2⟩)
    · exact plainAt_cons (by decide) (by decide) _
    · exact (plainAt_append [57] _ 0).mpr (plainAt_cons (by decide) (by decide) _)
    · rw [show 2 = [57, equalsSign].length from rfl, plainAt_append]
      exact plainAt_value h.separates hequals hfeed (by omega) more

/-- No start stands where no `8=` does. -/
theorem PlainAt.passes {bytes : Bytes} {given : Option UInt8} {k : ℕ} (h : PlainAt bytes k)
    (separator : Separator) : checkAt bytes given k ≠ .start separator := by
  intro hstart
  have hcheck := check_of_checkAt hstart
  obtain ⟨parts, -, -, rest, hrest⟩ := check_eq_start_iff.mp hcheck
  have hget : ∀ m, bytes[k + m]? = (parts.bytes ++ rest)[m]? := fun m => by
    rw [hrest, List.getElem?_drop]
  exact h.2 (hget 0) (hget 1)

/-- A candidate is the same behind text that does not end in a digit. -/
theorem checkAt_append {before : Bytes} {b : UInt8} (hlast : before.getLast? = some b)
    (hdigit : isAsciiDigit b = false) (text : Bytes) (given : Option UInt8) (k : ℕ) :
    checkAt (before ++ text) given (before.length + k) = checkAt text given k := by
  have hget : ∀ m, (before ++ text)[before.length + m]? = text[m]? := fun m => by
    rw [List.getElem?_append_right (Nat.le_add_right _ _), Nat.add_sub_cancel_left]
  have hpos : 0 < before.length := by
    rw [List.length_pos_iff]
    rintro rfl
    cases hlast
  have hdrop : (before ++ text).drop (before.length + k) = text.drop k := by
    rw [← List.drop_drop, List.drop_left]
  unfold checkAt
  rw [hget, hdrop]
  congr 1
  cases k with
  | zero =>
    rw [List.getLast?_eq_getElem?] at hlast
    rw [Nat.add_zero, List.getElem?_append_left (by omega), hlast, Option.any_some, hdigit]
    simp
  | succ k =>
    rw [Nat.add_succ_sub_one, hget, Nat.add_succ_sub_one]
    simp

/-- The CheckSum field closes the tail of a message. -/
theorem loggedTail_eq (message : LogMessage) :
    message.loggedTail =
      wireFields message.separator (respellFields message.separator message.body) ++
        (ascii "10=" ++ (message.parts.checksum ++ [message.separator])) := by
  have hten : decimal checksumTag ++ [equalsSign] = ascii "10=" := by
    rw [checksumTag, decimal_ten]
    rfl
  rw [loggedTail, tailFields, wireFields_append, wireFields_cons, ← hten]
  simp [wireField, wireFields]

/-- No start stands in the CheckSum field. -/
theorem Written.plainAt_checksum (h : message.Written dialect) {j : ℕ}
    (hj : j < message.loggedTail.length) (hlow : message.loggedTail.length < j + 7)
    (rest : Bytes) : PlainAt (message.loggedTail ++ rest) j := by
  have hdigits : ∀ b : UInt8, isAsciiDigit b = false → b ∉ message.parts.checksum := by
    intro b hb hmem
    rw [h.parts.checksum_digit b hmem] at hb
    cases hb
  have hten : ascii "10=" = [49] ++ [48, equalsSign] := by decide
  have hsplit := message.loggedTail_eq
  rw [hten] at hsplit
  generalize wireFields message.separator (respellFields message.separator message.body) = front
    at hsplit
  have hlength := congrArg List.length hsplit
  simp only [List.length_append, List.length_cons, List.length_nil, h.parts.checksum_length]
    at hlength
  -- The offsets begin at the `0` of the tag, so its `1` is left to what stands before.
  have hbytes : message.loggedTail ++ rest = (front ++ [49]) ++
      ([48, equalsSign] ++ (message.parts.checksum ++ message.separator :: rest)) := by
    rw [hsplit]
    simp
  obtain ⟨i, rfl⟩ : ∃ i, j = (front ++ [49]).length + i := by
    rw [List.length_append, List.length_singleton]
    exact ⟨j - (front.length + 1), by omega⟩
  rw [List.length_append, List.length_singleton] at hj
  rw [hbytes, plainAt_append]
  obtain rfl | rfl | ⟨m, rfl⟩ : i = 0 ∨ i = 1 ∨ ∃ m, i = 2 + m := by
    rcases i with _ | _ | m
    · exact Or.inl rfl
    · exact Or.inr (Or.inl rfl)
    · exact Or.inr (Or.inr ⟨m, Nat.add_comm m 2⟩)
  · exact plainAt_cons (by decide) (by decide) _
  · exact (plainAt_append [48] _ 0).mpr (plainAt_cons (by decide) (by decide) _)
  · rw [show 2 = [48, equalsSign].length from rfl, plainAt_append]
    have hthree := h.parts.checksum_length
    exact plainAt_value h.separates (hdigits equalsSign (by decide))
      (hdigits lineFeed (by decide)) (by omega) rest

/-- **No start begins in a message that only what follows it completes.** -/
theorem Written.checkAt_loggedTail (h : message.Written dialect) {j : ℕ}
    (hj : j < message.loggedTail.length) {rest : Bytes} {separator : Separator}
    (hstart : checkAt (message.loggedTail ++ rest) none j = .start separator) :
    checkAt message.loggedTail none j = .start separator := by
  have hpre : message.loggedTail <+: message.loggedTail ++ rest := List.prefix_append ..
  by_cases hlow : message.loggedTail.length < j + 7
  · exact absurd hstart ((h.plainAt_checksum hj hlow rest).passes separator)
  · rw [← hstart]
    refine (checkAt_of_isPrefix hpre hj ?_).symm
    intro hpending
    unfold checkAt at hpending
    split at hpending
    · cases hpending
    -- the `=` of CheckSum and the separator behind it decide the candidate
    have hsplit := message.loggedTail_eq
    generalize wireFields message.separator (respellFields message.separator message.body) = front
      at hsplit
    have hten : (ascii "10=").length = 3 := by decide
    have hlength := congrArg List.length hsplit
    simp only [List.length_append, List.length_singleton, h.parts.checksum_length, hten] at hlength
    refine check_ne_pending_of_getLast? (j := front.length + 2 - j) (b := message.separator)
      (by omega) ?_ ?_ ?_ h.separates.digit hpending
    · rw [List.getElem?_drop, Nat.add_sub_cancel' (by omega), hsplit,
        List.getElem?_append_right (by omega), Nat.add_sub_cancel_left]
      rfl
    · rw [List.length_drop]
      omega
    · rw [List.getLast?_drop, if_neg (by omega), hsplit]
      simp

/-- **The walk over an edited message passes over everything** outside the data values. -/
theorem Written.clear_edited (h : message.Written dialect) (hdialect : dialect.KeepsEnvelope)
    (hfits : edit.Fits message.separator) (hplain : message.Plain dialect) (rest : Bytes)
    {capped : Bytes} (hcapped : message.edited edit <+: capped) {k : ℕ} (hk : 1 ≤ k)
    (hlt : k < (message.edited edit).length)
    (hout : ¬ InData (Tokenizer.new dialect) k 0 none (message.editedFields edit)) :
    Clear (message.edited edit ++ rest) capped k := by
  rw [Clear, getElem?_of_isPrefix hcapped hlt]
  suffices hgoal : (message.edited edit)[k]? ≠ some lineFeed ∧
      ∀ separator, checkAt (message.edited edit ++ rest) none k ≠ .start separator by
    refine ⟨hgoal.1, ?_⟩
    cases hcheck : checkAt (message.edited edit ++ rest) none k with
    | start separator => exact absurd hcheck (hgoal.2 separator)
    | notStart => exact Or.inl hcheck
    | pending => exact Or.inr ⟨hcheck, rfl⟩
  rw [edited_eq, List.append_assoc]
  by_cases hhead : k < (message.editedHead edit).length
  · refine ⟨(h.plainAt_head hfits hk hhead _).1, (h.plainAt_head hfits hk hhead _).passes⟩
  obtain ⟨j, rfl⟩ : ∃ j, k = (message.editedHead edit).length + j :=
    ⟨k - (message.editedHead edit).length, by omega⟩
  rw [edited_eq, List.length_append] at hlt
  rw [inData_edited hdialect] at hout
  have hshift : ∀ n, InData (Tokenizer.new dialect) (n + j) n none message.tailFields ↔
      InData (Tokenizer.new dialect) j 0 none message.tailFields := fun n =>
    @inData_add (Tokenizer.new dialect) j 0 none message.tailFields n
  rw [hshift] at hout
  -- the same offset of the message as it was
  generalize hbefore : message.editedHead (.replace message.parts.digits) = before
  have hlogged : message.logged = before ++ message.loggedTail := by
    rw [h.logged_eq_edited, edited_eq, hbefore]
  have hpos : 0 < before.length := by
    rw [← hbefore, List.length_pos_iff]
    intro hnil
    have hlast := message.getLast?_editedHead (.replace message.parts.digits)
    rw [hnil] at hlast
    cases hlast
  have hplain' := hplain (before.length + j) (by omega)
    (by rw [hlogged, List.length_append]; omega) (by
      rw [← inData_respellFields h.separates.digit, h.respell_entries, inData_edited hdialect,
        hbefore, hshift]
      exact hout)
  have hlast : before.getLast? = some message.separator := by
    rw [← hbefore]
    exact message.getLast?_editedHead _
  rw [hlogged, checkAt_append hlast h.separates.digit,
    List.getElem?_append_right (Nat.le_add_right _ _), Nat.add_sub_cancel_left] at hplain'
  rw [checkAt_append (message.getLast?_editedHead edit) h.separates.digit,
    List.getElem?_append_right (Nat.le_add_right _ _), Nat.add_sub_cancel_left]
  refine ⟨hplain'.1, fun separator hstart => hplain'.2 separator ?_⟩
  exact h.checkAt_loggedTail (by omega) hstart

/-! ## Where BodyLength points -/

/-- The value that BodyLength has, as it is read, is all of what stands between `9=` and the next
separator. -/
theorem Written.declaredTrailer_edited (h : message.Written dialect)
    (hfits : edit.Fits message.separator) (more : Bytes) {trailerStart : ℕ}
    (hdeclared : declaredTrailer (message.edited edit ++ more) message.separator =
      .declared trailerStart) :
    ∃ value n, edit = .replace value ∧ parseU32 value = some n ∧
      trailerStart = message.parts.version.length + value.length + 6 + n := by
  have height : decimal 8 ++ [equalsSign] = ascii "8=" := by
    rw [decimal_eight]
    rfl
  have hbytes : message.edited edit ++ more = (ascii "8=" ++ message.parts.version) ++
      message.separator :: (wireFields message.separator edit.fields ++
        (message.loggedTail ++ more)) := by
    rw [edited_eq, editedHead, wireFields_cons, ← height]
    simp [wireField]
  have hdrop : ((ascii "8=" ++ message.parts.version) ++ message.separator ::
      (wireFields message.separator edit.fields ++ (message.loggedTail ++ more))).drop
        ((ascii "8=" ++ message.parts.version).length + 1) =
      wireFields message.separator edit.fields ++ (message.loggedTail ++ more) := by
    rw [← List.drop_drop, List.drop_left]
    rfl
  rw [hbytes] at hdeclared
  simp only [declaredTrailer, findIdx?_front h.separates h.separator_notMem_version,
    Option.elim_some, hdrop] at hdeclared
  cases edit with
  | remove =>
    -- MsgType comes next
    obtain ⟨msgType, fields, hbody⟩ := h.body_eq
    have hthirtyFive : decimal msgTypeTag = [51, 53] := decimal_thirtyFive
    have hnone : stripPrefix (ascii "9=") (wireFields message.separator LengthEdit.remove.fields ++
        (message.loggedTail ++ more)) = none := by
      rw [loggedTail, tailFields, hbody, respellFields, List.map_cons, List.cons_append,
        wireFields_cons, hthirtyFive]
      exact if_neg (by simp [wireFields, wireField, LengthEdit.fields, ascii])
    rw [hnone] at hdeclared
    cases hdeclared
  | replace value =>
    obtain ⟨hsep, -, -⟩ := hfits
    have hnine : decimal 9 ++ [equalsSign] = ascii "9=" := by
      rw [decimal_nine]
      rfl
    have hstrip : stripPrefix (ascii "9=") (wireFields message.separator
        (LengthEdit.replace value).fields ++ (message.loggedTail ++ more)) =
        some (value ++ message.separator :: (message.loggedTail ++ more)) := by
      rw [stripPrefix_eq_some_iff, ← hnine]
      simp [wireFields, wireField, LengthEdit.fields]
    have hrun : ∀ i, i < runLength isAsciiDigit (maxBodyLengthDigits + 1)
        (value ++ message.separator :: (message.loggedTail ++ more)) →
        ∃ b, (value ++ message.separator :: (message.loggedTail ++ more))[i]? = some b ∧
          isAsciiDigit b = true := fun i hi => getElem?_of_lt_runLength hi
    simp only [hstrip] at hdeclared
    generalize runLength isAsciiDigit (maxBodyLengthDigits + 1)
      (value ++ message.separator :: (message.loggedTail ++ more)) = digits at hdeclared hrun
    split at hdeclared
    · cases hdeclared
    split at hdeclared
    · cases hdeclared
    next b hget =>
    split at hdeclared
    · cases hdeclared
    next hb =>
    rw [not_not] at hb
    -- so the digits are all of the value
    obtain rfl : digits = value.length := by
      rcases Nat.lt_trichotomy digits value.length with hlt | heq | hgt
      · rw [List.getElem?_append_left hlt, hb] at hget
        exact absurd (List.mem_of_getElem? hget) hsep
      · exact heq
      · obtain ⟨b', hb', hdigit⟩ := hrun _ hgt
        rw [List.getElem?_append_right le_rfl, Nat.sub_self, List.getElem?_cons_zero] at hb'
        rw [← Option.some.inj hb', h.separates.digit] at hdigit
        cases hdigit
    rw [List.take_left] at hdeclared
    split at hdeclared
    · cases hdeclared
    next n hparse =>
    have htwo : (ascii "8=").length = 2 := by decide
    refine ⟨value, n, rfl, hparse, ?_⟩
    rw [← DeclaredTrailer.declared.inj hdeclared, List.length_append, htwo]
    omega

/-- The declared trailer of an edited message is decided. -/
theorem Written.byBodyLength_edited (h : message.Written dialect)
    (hfits : edit.Fits message.separator) {rest : Bytes}
    (hpoints : ¬ message.PointsAtChecksum edit rest)
    (hlength : (message.edited edit).length ≤ maxMessageLen) :
    byBodyLength (message.edited edit ++ rest) message.separator true = .notFound := by
  have hlast : (message.edited edit).getLast? ≠ some carriageReturn := by
    rw [message.getLast?_edited]
    exact fun heq => h.separates.carriageReturn (Option.some.inj heq)
  obtain ⟨more, hcapped⟩ := isPrefix_cap (List.prefix_append (message.edited edit) rest) hlength
    hlast true
  obtain ⟨hcap, -⟩ := cap_isPrefix (message.edited edit ++ rest) true
  show byBodyLengthIn _ (cap (message.edited edit ++ rest) true).1 true _ true = _
  simp only [byBodyLengthIn, if_true]
  cases hdeclared : declaredTrailer (cap (message.edited edit ++ rest) true).1
      message.separator with
  | notFound => rfl
  | undecided => rfl
  | declared trailerStart =>
    obtain ⟨value, n, hvalue, hparse, rfl⟩ :=
      h.declaredTrailer_edited hfits more (hcapped ▸ hdeclared)
    simp only
    split
    · rfl
    next hroom =>
    refine if_pos fun hslice => hpoints ⟨value, n, hvalue, hparse, ?_⟩
    rw [← hslice]
    exact (slice_of_isPrefix hcap (by omega))

/-- **The end of an edited message** is that of its CheckSum field. -/
theorem Written.findEnd_edited (h : message.Written dialect) (hdialect : dialect.KeepsEnvelope)
    (hchecksum : ∀ field ∈ message.body, field.1 ≠ checksumTag)
    (hfits : edit.Fits message.separator) (hplain : message.Plain dialect) {rest : Bytes}
    (hpoints : ¬ message.PointsAtChecksum edit rest)
    (hlength : (message.edited edit).length ≤ maxMessageLen) :
    findEnd (Tokenizer.new dialect) (message.edited edit ++ rest) message.separator none true =
      some ⟨(message.edited edit).length, (message.edited edit).length + lineBreakLen rest,
        false⟩ := by
  have hlast : (message.edited edit).getLast? ≠ some carriageReturn := by
    rw [message.getLast?_edited]
    exact fun heq => h.separates.carriageReturn (Option.some.inj heq)
  obtain ⟨more, hcapped⟩ := isPrefix_cap (List.prefix_append (message.edited edit) rest) hlength
    hlast true
  obtain ⟨-, hcap⟩ := cap_isPrefix (message.edited edit ++ rest) true
  have hdelimited := h.delimited_edited hdialect hfits
  have hclear := fun {k : ℕ} (hk : 1 ≤ k) (hlt : k < (message.edited edit).length) =>
    h.clear_edited hdialect hfits hplain rest ⟨more, hcapped⟩ hk hlt
  have hend := afterMessage_atEnd (message.edited edit) rest
  -- The edited BodyLength does not point at CheckSum, so the end is left to the walk.
  rw [findEnd, h.byBodyLength_edited hfits hpoints hlength]
  show walkFrom _ _ (cap (message.edited edit ++ rest) true).1 true _ none true 0 none = _
  rw [edited, editedFields_eq] at hcapped hclear hend ⊢
  rw [editedFields_eq] at hdelimited
  rw [edited, editedFields_eq] at hcap
  rw [← hend]
  have hwalk := walkFrom_message _ [] h.separates.digit (h.tags_editedFront hchecksum edit)
    hcapped.symm (hcap.trans (by decide)) hdelimited (by
      intro k hlo hhi hout
      rw [List.length_nil, Nat.zero_add] at hhi
      exact hclear (by omega) hhi hout)
  rwa [List.length_nil, Nat.zero_add] at hwalk

/-- **No walk over an edited message is cut early.** -/
theorem Written.not_cutsEarly_edited (h : message.Written dialect)
    (hdialect : dialect.KeepsEnvelope)
    (hchecksum : ∀ field ∈ message.body, field.1 ≠ checksumTag)
    (hfits : edit.Fits message.separator) {rest front : Bytes}
    (hlength : (message.edited edit).length ≤ maxMessageLen)
    (hfront : front <+: message.edited edit ++ rest) :
    ¬ CutsEarly (Tokenizer.new dialect) front message.separator none := by
  rintro ⟨hshort, -, hearly⟩
  -- no more of the log matters than a message may hold
  have hfront' : front <+: message.edited edit ++ rest.take maxMessageLen := by
    refine List.prefix_of_prefix_length_le hfront
      ((List.prefix_append_right_inj _).mpr (List.take_prefix _ _)) ?_
    have hle := hfront.length_le
    rw [List.length_append] at hle
    rw [List.length_append, List.length_take]
    omega
  have htags := fun field hfield => (h.tags_editedFront hchecksum edit field hfield).1
  have hlen : (message.edited edit ++ rest.take maxMessageLen).length ≤ u32Max := by
    have hmax : maxMessageLen + maxMessageLen ≤ u32Max := by decide
    rw [List.length_append, List.length_take]
    omega
  have hdelimited := h.delimited_edited hdialect hfits
  rw [edited, editedFields_eq] at hfront' hlen
  rw [editedFields_eq] at hdelimited
  exact not_earlyLineFeed_lastRound front [] h.separates.digit htags hfront' hlen hdelimited hearly

/-! ## The message is read -/

/-- A field follows BeginString. -/
theorem Written.exists_second (h : message.Written dialect) (edit : LengthEdit) :
    ∃ tag value fields, tag ≤ u32Max ∧
      message.editedFields edit = (8, message.parts.version) :: (tag, value) :: fields := by
  cases edit with
  | replace value => exact ⟨9, value, message.tailFields, by decide, rfl⟩
  | remove =>
    obtain ⟨msgType, fields, hbody⟩ := h.body_eq
    refine ⟨msgTypeTag, respell message.separator msgType,
      respellFields message.separator fields ++ [(checksumTag, message.parts.checksum)],
      by decide, ?_⟩
    rw [editedFields, tailFields, hbody]
    rfl

theorem Written.hasTwoTags_edited (h : message.Written dialect) (edit : LengthEdit) :
    HasTwoTags (message.edited edit) := by
  obtain ⟨tag, value, fields, -, heq⟩ := h.exists_second edit
  rw [edited, heq]
  exact hasTwoTags_wireFields ..

theorem Written.startsAt_edited (h : message.Written dialect) {before : Bytes}
    {separator : Separator} (hstart : StartsAt before (message.edited edit) separator) :
    StartsAt before (message.edited edit) (.byte message.separator) := by
  obtain ⟨tag, value, fields, htag, heq⟩ := h.exists_second edit
  have hcheck := hstart.check
  rw [edited, heq, check_wireFields h.separates h.parts.version_fix h.version_byte
    h.parts.version_length htag] at hcheck
  rwa [Check.start.inj hcheck]

theorem Written.tokenizeFields_edited (h : message.Written dialect)
    (hdialect : dialect.KeepsEnvelope)
    (hchecksum : ∀ field ∈ message.body, field.1 ≠ checksumTag)
    (hfits : edit.Fits message.separator)
    (hlength : (message.edited edit).length ≤ maxMessageLen) :
    (Tokenizer.new dialect).tokenizeFields (message.edited edit) message.separator =
      indexFrom 0 (message.editedFields edit) := by
  refine tokenizeFields_wireFields h.separates.digit ?_ (hlength.trans (by decide))
    (h.delimited_edited hdialect hfits)
  intro field hfield
  rw [editedFields_eq] at hfield
  rcases List.mem_append.mp hfield with hfront | hlast
  · exact (h.tags_editedFront hchecksum edit field hfront).1
  · rw [List.mem_singleton.mp hlast]
    exact show checksumTag ≤ u32Max by decide

/-- One more byte behind the log is no CheckSum field. -/
theorem not_pointsAtChecksum_concat {rest more : Bytes} (hmore : more = [] ∨ more = [0])
    (h : ¬ message.PointsAtChecksum edit rest) : ¬ message.PointsAtChecksum edit (rest ++ more) := by
  rcases hmore with rfl | rfl
  · rwa [List.append_nil]
  rintro ⟨value, n, hvalue, hparse, hslice⟩
  refine h ⟨value, n, hvalue, hparse, ?_⟩
  simp only at hslice ⊢
  generalize message.parts.version.length + value.length + 6 + n = trailerStart at hslice ⊢
  obtain ⟨-, -, -, -, hequals⟩ := getElem?_of_head hslice
  have hpre : message.edited edit ++ rest <+: message.edited edit ++ (rest ++ [0]) := by
    rw [← List.append_assoc]
    exact List.prefix_append ..
  -- the `=` is no byte of the end
  have hin : trailerStart + 2 < (message.edited edit ++ rest).length := by
    by_contra hge
    have hlt := (List.getElem?_eq_some_iff.mp hequals).1
    rw [← List.append_assoc] at hequals hlt
    rw [List.length_append, List.length_singleton] at hlt
    rw [show trailerStart + 2 = (message.edited edit ++ rest).length by omega,
      List.getElem?_concat_length] at hequals
    exact absurd (Option.some.inj hequals) (by decide)
  rw [← hslice, slice_of_isPrefix hpre hin]

/-- **An edited message is read as the message that it was**: whatever stands in the place of its
BodyLength, its record ends with its own CheckSum field, and with the line break behind it. -/
theorem edited_readBack (dialect : Dialect) (hdialect : dialect.KeepsEnvelope)
    (message : LogMessage) (h : message.Written dialect)
    (hchecksum : ∀ field ∈ message.body, field.1 ≠ checksumTag) (hplain : message.Plain dialect)
    (edit : LengthEdit) (hfits : edit.Fits message.separator)
    (hlength : (message.edited edit).length ≤ maxMessageLen) (before : Bytes)
    (hbefore : before.length ≤ maxPrefixLen)
    (hstart : ∃ separator, StartsAt before (message.edited edit) separator) (rest : Bytes)
    (hpoints : ¬ message.PointsAtChecksum edit rest) (calls : List (Cutter.Call UInt8))
    (hfed : Cutter.Call.fed calls = before ++ (message.edited edit ++ rest)) :
    ∃ calls' record, Cutter.Call.fed calls' = rest.drop (lineBreakLen rest) ∧
      (LogReader.new dialect none).run calls = record :: (LogReader.new dialect none).run calls' ∧
      record.prefixBytes = before ∧
      record.message = ⟨message.edited edit, indexFrom 0 (message.editedFields edit)⟩ ∧
      LogDiagnostic.truncated ∉ record.diagnostics := by
  obtain ⟨separator, hstart⟩ := hstart
  have hends := fun more (hmore : more = [] ∨ more = [0]) =>
    h.findEnd_edited hdialect hchecksum hfits hplain (not_pointsAtChecksum_concat hmore hpoints)
      hlength
  obtain ⟨calls', hfed', hrun⟩ := run_whole (h.startsAt_edited hstart) (h.hasTwoTags_edited edit)
    hbefore hends (fun front hfront _ =>
      h.not_cutsEarly_edited hdialect hchecksum hfits hlength hfront) hfed
  refine ⟨calls', _, hfed', hrun, rfl, ?_, ?_⟩
  · rw [wholeRecord, h.tokenizeFields_edited hdialect hchecksum hfits hlength]
  · exact fun hmem => Bool.false_ne_true (truncated_mem_diagnose_iff.mp hmem)

/-- A BodyLength that is no number, in front of a data value that looks like a message. -/
theorem edited_readBack_news :
    ∃ calls' record, Cutter.Call.fed calls' = (ascii "\r\n10=").drop (lineBreakLen (ascii "\r\n10=")) ∧
      (LogReader.new .standard none).run [.feed (ascii "09:30 " ++
        ((newsMessage 35).edited (.replace (ascii "5x")) ++ ascii "\r\n10="))] =
        record :: (LogReader.new .standard none).run calls' ∧
      record.prefixBytes = ascii "09:30 " ∧
      record.message = ⟨(newsMessage 35).edited (.replace (ascii "5x")),
        indexFrom 0 ((newsMessage 35).editedFields (.replace (ascii "5x")))⟩ ∧
      LogDiagnostic.truncated ∉ record.diagnostics := by
  have hvalid : (newsMessage 35).Valid .standard :=
    newsMessage_valid ⟨by decide, by decide, by decide, by decide⟩ (by decide +kernel)
  -- Outside its data the message shows no line feed and no start, by looking at every offset.
  have hplain : (newsMessage 35).Plain .standard := by
    have hall : ∀ k < (newsMessage 35).logged.length, 1 ≤ k →
        InData (Tokenizer.new .standard) k 0 none (newsMessage 35).entries ∨
          (newsMessage 35).logged[k]? ≠ some lineFeed ∧
            (checkAt (newsMessage 35).logged none k = .notStart ∨
              checkAt (newsMessage 35).logged none k = .pending) := by decide +kernel
    intro k hk hlt hout
    obtain ⟨hfeed, hcheck⟩ := (hall k hlt hk).resolve_left hout
    refine ⟨hfeed, fun separator hstart => ?_⟩
    rcases hcheck with hcheck | hcheck <;> cases hcheck.symm.trans hstart
  refine edited_readBack .standard ⟨by decide, by decide⟩ (newsMessage 35) hvalid.toWritten
    (by decide +kernel) hplain (.replace (ascii "5x")) ?_ (by decide +kernel) (ascii "09:30 ")
    (by decide +kernel) ⟨.byte 35, by decide +kernel⟩ (ascii "\r\n10=") ?_ _ ?_
  · exact ⟨by decide +kernel, by decide +kernel, by decide +kernel⟩
  · rintro ⟨value, n, hvalue, hparse, -⟩
    cases hvalue
    have hnone : parseU32 (ascii "5x") = none := by decide
    cases hnone.symm.trans hparse
  · simp [Cutter.Call.fed]

end LogMessage

end Refix.Log
