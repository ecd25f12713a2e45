import Refix.Log.Bounds
import Refix.Log.Reader
import Refix.Message.Layout
import Refix.Message.Tiling

/-!
# Messages as They Are Logged

A log may show a message with another separator in place of SOH. Its fields stand where they
stood, so that what the tokenizer reads of the logged bytes is the index of the frame, and the
end that BodyLength points at is the end of the message, whatever follows it.
-/

namespace Refix.Log

open Refix.Foundation Refix.Message

/-! ## Another separator -/

/-- A frame with another separator in place of SOH. -/
def respell (separator : UInt8) (bytes : Bytes) : Bytes :=
  bytes.map fun b => if b = soh then separator else b

/-- Fields with another separator in place of SOH in their values. -/
def respellFields (separator : UInt8) (fields : List (Tag × Bytes)) : List (Tag × Bytes) :=
  fields.map fun field => (field.1, respell separator field.2)

/-- A byte that can stand for SOH: no byte of a version, no `=` and no line break. -/
structure Separates (separator : UInt8) : Prop where
  version : isVersionByte separator = false
  equals : separator ≠ equalsSign
  lineFeed : separator ≠ lineFeed
  carriageReturn : separator ≠ carriageReturn

theorem separates_soh : Separates soh := ⟨by decide, by decide, by decide, by decide⟩

theorem Separates.digit {separator : UInt8} (h : Separates separator) :
    isAsciiDigit separator = false := by
  have hversion := h.version
  simp only [isVersionByte, isAsciiAlphanumeric, Bool.or_eq_false_iff] at hversion
  exact hversion.1.1.1

section Respell

variable {separator : UInt8} {bytes : Bytes}

@[simp] theorem length_respell (separator : UInt8) (bytes : Bytes) :
    (respell separator bytes).length = bytes.length := List.length_map _

@[simp] theorem respell_append (separator : UInt8) (bytes bytes' : Bytes) :
    respell separator (bytes ++ bytes') = respell separator bytes ++ respell separator bytes' :=
  List.map_append

theorem respell_cons_soh (separator : UInt8) (bytes : Bytes) :
    respell separator (soh :: bytes) = separator :: respell separator bytes := by
  rw [respell, List.map_cons, if_pos rfl, respell]

@[simp] theorem respell_soh (bytes : Bytes) : respell soh bytes = bytes := by
  refine (List.map_congr_left fun b _ => ?_).trans (List.map_id bytes)
  split
  · next h => exact h.symm
  · rfl

theorem respell_of_notMem (h : soh ∉ bytes) : respell separator bytes = bytes := by
  refine (List.map_congr_left fun b hb => ?_).trans (List.map_id bytes)
  refine if_neg fun heq => h ?_
  rw [← heq]
  exact hb

/-- A separator that is new to the bytes is in the logged ones only where SOH was. -/
theorem respell_inverse (h : separator = soh ∨ separator ∉ bytes) :
    (respell separator bytes).map (fun b => if b = separator then soh else b) = bytes := by
  rw [respell, List.map_map]
  refine (List.map_congr_left fun b hb => ?_).trans (List.map_id bytes)
  simp only [Function.comp_apply]
  by_cases hb' : b = soh
  · rw [if_pos hb', if_pos rfl]
    exact hb'.symm
  · rw [if_neg hb']
    split
    · next heq =>
      rcases h with rfl | h
      · exact heq.symm
      · exact absurd (heq ▸ hb) h
    · rfl

theorem notMem_respell (h : separator = soh ∨ separator ∉ bytes) (hsoh : soh ∉ bytes) :
    separator ∉ respell separator bytes := by
  rw [respell_of_notMem hsoh]
  rcases h with rfl | h
  · exact hsoh
  · exact h

/-- What a length field counts does not depend on the separator. -/
theorem parseU32_respell (hsep : isAsciiDigit separator = false) (bytes : Bytes) :
    parseU32 (respell separator bytes) = parseU32 bytes := by
  by_cases hmem : soh ∈ bytes
  · have hnone : ∀ (b : UInt8) (text : Bytes), b ∈ text → isAsciiDigit b = false →
        parseU32 text = none := by
      intro b text hb hdigit
      cases hparse : parseU32 text with
      | none => rfl
      | some n =>
        have := (parseU32_eq_some_iff.mp hparse).2.1 b hb
        rw [hdigit] at this
        cases this
    have hlogged : separator ∈ respell separator bytes :=
      List.mem_map.mpr ⟨soh, hmem, if_pos rfl⟩
    rw [hnone soh bytes hmem (by decide), hnone separator _ hlogged hsep]
  · rw [respell_of_notMem hmem]

theorem respell_wireField (separator : UInt8) (tag : Tag) (value : Bytes) :
    respell separator (wireField soh (decimal tag) value) =
      wireField separator (decimal tag) (respell separator value) := by
  have htag : soh ∉ decimal tag := soh_notMem_of_digits fun _ => isAsciiDigit_of_mem_decimal
  have hcons : respell separator (equalsSign :: (value ++ [soh])) =
      equalsSign :: (respell separator value ++ [separator]) := by
    simp [respell, equalsSign, soh]
  rw [wireField, respell_append, respell_of_notMem htag, hcons]
  rfl

/-- **Fields are written as they were**, with the separator in the place of SOH. -/
theorem respell_wireFields (separator : UInt8) (fields : List (Tag × Bytes)) :
    respell separator (wireFields soh fields) =
      wireFields separator (respellFields separator fields) := by
  induction fields with
  | nil => rfl
  | cons field fields ih =>
    obtain ⟨tag, value⟩ := field
    rw [wireFields_cons, respell_append, respell_wireField, ih]
    rfl

theorem indexFrom_respellFields (pos : ℕ) (fields : List (Tag × Bytes)) :
    indexFrom pos (respellFields separator fields) = indexFrom pos fields := by
  induction fields generalizing pos with
  | nil => rfl
  | cons field fields ih =>
    obtain ⟨tag, value⟩ := field
    have hentry : entryAt pos tag (respell separator value) = entryAt pos tag value := by
      rw [entryAt, length_respell]
      rfl
    rw [respellFields, List.map_cons, indexFrom, indexFrom, hentry]
    exact congrArg _ (ih _)

/-- Values that can be told with SOH can be told with the separator. -/
theorem delimited_respell {tokenizer : Tokenizer} (hsep : isAsciiDigit separator = false)
    {fields : List (Tag × Bytes)}
    (hfields : separator = soh ∨ ∀ field ∈ fields, separator ∉ field.2) {dataLen : Option ℕ}
    (h : tokenizer.Delimited soh dataLen fields) :
    tokenizer.Delimited separator dataLen (respellFields separator fields) := by
  induction fields generalizing dataLen with
  | nil => trivial
  | cons field fields ih =>
    obtain ⟨tag, value⟩ := field
    obtain ⟨hvalue, hrest⟩ := h
    refine ⟨?_, ?_⟩
    · cases dataLen with
      | none =>
        refine notMem_respell ?_ hvalue
        exact hfields.imp id fun h => h _ List.mem_cons_self
      | some len => exact (length_respell separator value).trans hvalue
    · have hlength : tokenizer.lengthOf tag (respell separator value) =
          tokenizer.lengthOf tag value := by
        rw [Tokenizer.lengthOf, parseU32_respell hsep]
        rfl
      rw [hlength]
      exact ih (hfields.imp id fun h field hmem => h field (List.mem_cons_of_mem _ hmem)) hrest

end Respell

/-! ## Messages -/

/-- A message of a log: its frame, the fields of the frame's body, and the separator it is logged
with. -/
structure LogMessage where
  parts : FrameParts
  body : List (Tag × Bytes)
  separator : UInt8

namespace LogMessage

variable (message : LogMessage)

/-- The frame, with SOH behind every field. -/
def frame : Bytes := message.parts.bytes

/-- The bytes it is logged as. -/
def logged : Bytes := respell message.separator message.frame

/-- Its fields, envelope included. -/
def entries : List (Tag × Bytes) :=
  (8, message.parts.version) :: (9, message.parts.digits) ::
    (message.body ++ [(10, message.parts.checksum)])

/-- The index of its fields. -/
def index : List RawField := indexFrom 0 message.entries

/-- A frame as the scanner accepts it, its BeginString value made of letters, digits and dots, its
tags canonical, every length that is left pending that of the next value and the other values free
of SOH, logged with SOH or with a separator that is new to it. -/
structure Written (dialect : Dialect) : Prop where
  parts : message.parts.Valid
  version_byte : ∀ b ∈ message.parts.version, isVersionByte b = true
  region_eq : message.parts.region = wireFields soh message.body
  tags : ∀ field ∈ message.body, field.1 ≤ u32Max
  delimited : (Tokenizer.new dialect).Delimited soh none
    (message.body ++ [(10, message.parts.checksum)])
  separates : Separates message.separator
  new : message.separator = soh ∨ message.separator ∉ message.frame

/-- A written frame no longer than a message may be. -/
structure Valid (dialect : Dialect) : Prop extends message.Written dialect where
  length_le : message.frame.length ≤ maxMessageLen

variable {message}

section Fields

variable {dialect : Dialect}

theorem Written.frame_eq (h : message.Written dialect) :
    message.frame = wireFields soh message.entries := by
  have hbody := h.region_eq
  rw [frame, FrameParts.bytes_eq, hbody, entries, ← List.cons_append, ← List.cons_append,
    wireFields_append]
  simp [wireFields]

theorem Written.logged_eq (h : message.Written dialect) :
    message.logged =
      wireFields message.separator (respellFields message.separator message.entries) := by
  rw [logged, h.frame_eq, respell_wireFields]

theorem Written.tags_entries (h : message.Written dialect) :
    ∀ field ∈ message.entries, field.1 ≤ u32Max := by
  simp only [entries, List.forall_mem_cons, List.forall_mem_append]
  exact ⟨by decide, by decide, h.tags, by simp [u32Max]⟩

/-- The envelope in front leaves no length pending. -/
theorem Written.delimited_entries (h : message.Written dialect) (hdialect : dialect.KeepsEnvelope) :
    (Tokenizer.new dialect).Delimited soh none message.entries := by
  refine ⟨h.parts.version_soh, ?_⟩
  rw [(hdialect.lengthOf message.parts.version).1]
  refine ⟨soh_notMem_of_digits h.parts.digits_digit, ?_⟩
  rw [(hdialect.lengthOf message.parts.digits).2]
  exact h.delimited

theorem mem_wireFields {separator b : UInt8} {fields : List (Tag × Bytes)}
    {field : Tag × Bytes} (hfield : field ∈ fields) (hb : b ∈ field.2) :
    b ∈ wireFields separator fields := by
  refine List.mem_flatMap.mpr ⟨field, hfield, ?_⟩
  simp [wireField, hb]

/-- **What is read of the logged bytes is the index of the frame.** -/
theorem Valid.tokenizeFields_logged (h : message.Valid dialect) (hdialect : dialect.KeepsEnvelope) :
    (Tokenizer.new dialect).tokenizeFields message.logged message.separator = message.index ∧
      (Tokenizer.new dialect).tokenizeFields message.frame soh = message.index := by
  have hlen : message.frame.length ≤ u32Max := h.length_le.trans (by decide)
  have hdelimited := h.delimited_entries hdialect
  constructor
  · have hnew : message.separator = soh ∨
        ∀ field ∈ message.entries, message.separator ∉ field.2 := by
      refine h.new.imp id fun hnew field hfield hmem => hnew ?_
      rw [h.frame_eq]
      exact mem_wireFields hfield hmem
    have htags : ∀ field ∈ respellFields message.separator message.entries,
        field.1 ≤ u32Max := by
      intro field hfield
      obtain ⟨entry, hentry, rfl⟩ := List.mem_map.mp hfield
      exact h.tags_entries entry hentry
    rw [h.logged_eq, tokenizeFields_wireFields h.separates.digit htags ?_
      (delimited_respell h.separates.digit hnew hdelimited), indexFrom_respellFields]
    · rfl
    · rwa [← h.logged_eq, logged, length_respell]
  · rw [h.frame_eq] at hlen ⊢
    exact tokenizeFields_wireFields (by decide) h.tags_entries hlen hdelimited

end Fields

/-! ## The end that BodyLength gives -/

section End

variable {dialect : Dialect}

/-- The front of a logged message, up to its body, and the trailer. -/
theorem Written.logged_split (h : message.Written dialect) :
    message.logged = (ascii "8=" ++ message.parts.version) ++ message.separator ::
        (ascii "9=" ++ (message.parts.digits ++ message.separator ::
          (respell message.separator message.parts.region ++
            (ascii "10=" ++ (message.parts.checksum ++ [message.separator]))))) := by
  have hfixed : ∀ {text : Bytes}, soh ∉ text → respell message.separator text = text :=
    respell_of_notMem
  simp only [logged, frame, FrameParts.bytes, FrameParts.head, FrameParts.preamble,
    respell_append, respell_cons_soh, hfixed h.parts.version_soh,
    hfixed (soh_notMem_of_digits h.parts.digits_digit),
    hfixed (soh_notMem_of_digits h.parts.checksum_digit),
    hfixed (show soh ∉ ascii "8=" by decide), hfixed (show soh ∉ ascii "9=" by decide),
    hfixed (show soh ∉ ascii "10=" by decide), List.append_assoc, List.cons_append,
    List.nil_append]
  rfl

end End

end LogMessage

/-! ## Caps -/

/-- A message that is no longer than one may be is not cut by the cap. -/
theorem isPrefix_cap {text bytes : Bytes} (hpre : text <+: bytes)
    (hlen : text.length ≤ maxMessageLen) (hlast : text.getLast? ≠ some carriageReturn)
    (atEnd : Bool) : text <+: (cap bytes atEnd).1 := by
  have htake : ∀ {xs : Bytes}, text <+: xs → text <+: xs.take (min xs.length maxMessageLen) := by
    intro xs h
    refine List.prefix_take_iff.mpr ⟨h, Nat.le_min.mpr ⟨h.length_le, hlen⟩⟩
  simp only [cap]
  split
  · next hbreak =>
    apply htake
    obtain ⟨more, rfl⟩ := hpre
    -- the carriage return that is dropped is behind the text
    have hne : more ≠ [] := by
      rintro rfl
      rw [List.append_nil] at hbreak
      exact hlast hbreak.2
    rw [List.dropLast_append_of_ne_nil hne]
    exact List.prefix_append ..
  · exact htake hpre

/-! ## The end BodyLength gives -/

section BodyLength

variable {separator : UInt8} {version digits : Bytes} {n : ℕ}

/-- The first separator of a message ends BeginString. -/
theorem findIdx?_front (hsep : Separates separator) (hversion : separator ∉ version)
    (after : Bytes) :
    ((ascii "8=" ++ version) ++ separator :: after).findIdx? (· == separator) =
      some (ascii "8=" ++ version).length := by
  have hrun : ∀ b ∈ ascii "8=" ++ version, (b == separator) = false := by
    intro b hb
    rw [beq_eq_false_iff_ne]
    rintro rfl
    rcases List.mem_append.mp hb with hb | hb
    · have hfront : ∀ b ∈ ascii "8=", isAsciiDigit b = true ∨ b = equalsSign := by
        decide +kernel
      rcases hfront b hb with hdigit | heq
      · rw [hsep.digit] at hdigit
        cases hdigit
      · exact hsep.equals heq
    · exact hversion hb
  have hfind := findFrom_append_run [] (ascii "8=" ++ version) after hrun (x := separator)
    (by simp)
  simpa [findFrom] using hfind

/-- Where BodyLength points, read off the front of a message. -/
theorem declaredTrailer_front (hsep : Separates separator) (hversion : separator ∉ version)
    (hdigits : ∀ b ∈ digits, isAsciiDigit b = true) (hshort : digits.length ≤ maxBodyLengthDigits)
    (hparse : parseU32 digits = some n) (after : Bytes) :
    declaredTrailer ((ascii "8=" ++ version) ++ separator ::
        (ascii "9=" ++ (digits ++ separator :: after))) separator =
      .declared (version.length + digits.length + 6 + n) := by
  have hfind := findIdx?_front hsep hversion (ascii "9=" ++ (digits ++ separator :: after))
  have hlength : (ascii "8=" ++ version).length = version.length + 2 := by
    rw [List.length_append, Nat.add_comm]
    rfl
  have hdrop : ((ascii "8=" ++ version) ++ separator ::
      (ascii "9=" ++ (digits ++ separator :: after))).drop ((ascii "8=" ++ version).length + 1) =
      ascii "9=" ++ (digits ++ separator :: after) := by
    rw [← List.drop_drop, List.drop_left]
    rfl
  have hrunLength : runLength isAsciiDigit (maxBodyLengthDigits + 1)
      (digits ++ separator :: after) = digits.length :=
    runLength_append digits after hdigits (hshort.trans (Nat.le_succ _)) hsep.digit
  have hstop : (digits ++ separator :: after)[digits.length]? = some separator := by simp
  simp only [declaredTrailer, hfind, Option.elim_some, hdrop, stripPrefix_eq_some_iff.mpr rfl,
    hrunLength, Nat.not_lt.mpr hshort, if_false, hstop, ne_eq, not_true, List.take_left, hparse]
  rw [hlength]
  congr 1
  omega

end BodyLength

namespace LogMessage

variable {message : LogMessage} {dialect : Dialect}

/-- Where BodyLength points in a logged message. -/
def trailerStart (message : LogMessage) : ℕ := message.parts.head.length

theorem Written.length_logged (h : message.Written dialect) :
    message.logged.length = message.trailerStart + 7 := by
  have hten : (ascii "10=").length = 3 := by decide
  rw [logged, length_respell, frame, FrameParts.bytes, trailerStart, List.length_append,
    List.length_append, List.length_append, h.parts.checksum_length, hten]
  rfl

theorem Written.separator_notMem_version (h : message.Written dialect) :
    message.separator ∉ message.parts.version := by
  intro hmem
  have hversion := h.version_byte _ hmem
  rw [h.separates.version] at hversion
  cases hversion

theorem Valid.parseU32_digits (h : message.Valid dialect) :
    parseU32 message.parts.digits = some message.parts.region.length := by
  refine parseU32_eq_some_iff.mpr ⟨h.parts.digits_ne_nil, h.parts.digits_digit,
    h.parts.digits_value, ?_⟩
  have hlen := h.length_le
  rw [frame, message.parts.length_bytes] at hlen
  have hmax : maxMessageLen ≤ u32Max := by decide
  omega

theorem Valid.declaredTrailer_logged (h : message.Valid dialect) (rest : Bytes) :
    declaredTrailer (message.logged ++ rest) message.separator =
      .declared message.trailerStart := by
  have hsplit : message.logged ++ rest =
      (ascii "8=" ++ message.parts.version) ++ message.separator ::
        (ascii "9=" ++ (message.parts.digits ++ message.separator ::
          (respell message.separator message.parts.region ++
            (ascii "10=" ++ (message.parts.checksum ++ message.separator :: rest))))) := by
    rw [h.logged_split]
    simp
  rw [hsplit, declaredTrailer_front h.separates h.separator_notMem_version h.parts.digits_digit
    h.parts.digits_length h.parseU32_digits, trailerStart, FrameParts.head, List.length_append,
    message.parts.length_preamble]

theorem getLast?_logged (message : LogMessage) :
    message.logged.getLast? = some message.separator := by
  rw [logged, respell, List.getLast?_map, frame, FrameParts.getLast?_bytes]
  rfl

/-- The trailer of a logged message, behind a separator. -/
theorem Written.logged_trailer (h : message.Written dialect) :
    ∃ front : Bytes, front.length + 1 = message.trailerStart ∧
      message.logged = front ++ message.separator ::
        (ascii "10=" ++ (message.parts.checksum ++ [message.separator])) := by
  obtain ⟨region, hregion⟩ := List.getLast?_eq_some_iff.mp h.parts.region_soh
  refine ⟨respell message.separator (message.parts.preamble ++ region), ?_, ?_⟩
  · rw [length_respell, trailerStart, FrameParts.head, hregion]
    simp [Nat.add_assoc]
  · rw [logged, frame, FrameParts.bytes, FrameParts.head, hregion]
    have hten : soh ∉ ascii "10=" := by decide
    simp only [List.append_assoc, List.singleton_append, respell_append, respell_cons_soh,
      respell_of_notMem hten, respell_of_notMem (soh_notMem_of_digits h.parts.checksum_digit)]
    rfl

/-- **BodyLength gives the end of a logged message**, as soon as what follows it is decided. -/
theorem Valid.byBodyLength_logged (h : message.Valid dialect) (rest : Bytes) (atEnd : Bool) :
    byBodyLength (message.logged ++ rest) message.separator atEnd =
      (afterMessage (message.logged ++ rest) message.logged.length atEnd).elim .pending .found := by
  have hlen : message.logged.length ≤ maxMessageLen := by
    rw [logged, length_respell]
    exact h.length_le
  have hlast : message.logged.getLast? ≠ some carriageReturn := by
    rw [message.getLast?_logged]
    exact fun heq => h.separates.carriageReturn (Option.some.inj heq)
  obtain ⟨more, hcapped⟩ := isPrefix_cap (List.prefix_append message.logged rest) hlen hlast atEnd
  obtain ⟨front, hfront, hlogged⟩ := h.logged_trailer
  have hlength := h.length_logged
  have hten : (ascii "10=").length = 3 := by decide
  rw [byBodyLength]
  simp only [← hcapped]
  simp only [byBodyLengthIn, h.declaredTrailer_logged]
  have hroom : ¬ (message.logged ++ more).length < message.trailerStart + 3 := by
    rw [List.length_append]
    omega
  -- the CheckSum field stands where BodyLength points
  have hslice : slice (message.logged ++ more) (message.trailerStart - 1)
      (message.trailerStart + 3) = message.separator :: ascii "10=" := by
    have hmiddle := slice_middle front (message.separator :: ascii "10=")
      (message.parts.checksum ++ message.separator :: more)
    rw [List.length_cons, hten] at hmiddle
    rw [hlogged, show message.trailerStart - 1 = front.length by omega,
      show message.trailerStart + 3 = front.length + (3 + 1) by omega, ← hmiddle]
    simp
  -- and its value holds neither separator nor line feed
  have hvalue : ∀ b ∈ message.parts.checksum,
      (b == message.separator || b == lineFeed) = false := by
    intro b hb
    have hdigit := h.parts.checksum_digit b hb
    rw [Bool.or_eq_false_iff, beq_eq_false_iff_ne, beq_eq_false_iff_ne]
    constructor
    · rintro rfl
      rw [h.separates.digit] at hdigit
      cases hdigit
    · rintro rfl
      exact absurd hdigit (by decide)
  have hfind : findFrom (fun b => b == message.separator || b == lineFeed)
      (message.logged ++ more) (message.trailerStart + 3) = some (message.trailerStart + 6) := by
    have hrun := findFrom_append_run (front ++ message.separator :: ascii "10=")
      message.parts.checksum more hvalue (x := message.separator) (by simp)
    rw [List.length_append, List.length_cons, hten, h.parts.checksum_length] at hrun
    rw [hlogged, show message.trailerStart + 3 = front.length + (3 + 1) by omega,
      show message.trailerStart + 6 = front.length + (3 + 1) + 3 by omega, ← hrun]
    simp
  have hstop : (message.logged ++ more)[message.trailerStart + 6]? = some message.separator := by
    have hget := message.getLast?_logged
    rw [List.getLast?_eq_getElem?, hlength] at hget
    exact getElem?_eq_some_of_isPrefix (List.prefix_append ..) hget
  simp only [hroom, if_false, hslice, ne_eq, not_true, hfind, hstop, if_true]
  rw [hlength]
  cases afterMessage (message.logged ++ rest) (message.trailerStart + 7) atEnd <;> rfl

/-! ## Diagnostics -/

/-- The body of a message opens with MsgType. -/
theorem Written.body_eq (h : message.Written dialect) :
    ∃ msgType fields, message.body = (msgTypeTag, msgType) :: fields := by
  have hregion := h.region_eq
  have hmsgType := h.parts.region_msgType
  rw [hregion] at hmsgType
  cases hbody : message.body with
  | nil =>
    rw [hbody] at hmsgType
    exact absurd hmsgType (by decide +kernel)
  | cons field fields =>
    obtain ⟨tag, value⟩ := field
    refine ⟨value, fields, ?_⟩
    rw [hbody, wireFields_cons, wireField, List.append_assoc] at hmsgType
    obtain ⟨more, hmore⟩ := hmsgType
    have hdigits : ∀ b ∈ ascii "35", isAsciiDigit b = true := by decide +kernel
    have hthirtyFive : ascii "35=" = ascii "35" ++ [equalsSign] := by decide
    rw [hthirtyFive, List.append_assoc, List.singleton_append, List.cons_append] at hmore
    -- The tag ends at the first byte that is no digit, so its text is `35`.
    have hsplit : ascii "35" = decimal tag := by
      have htake := congrArg (List.takeWhile isAsciiDigit) hmore
      have hequals : isAsciiDigit equalsSign = false := by decide
      rw [List.takeWhile_append_of_pos hdigits,
        List.takeWhile_append_of_pos fun _ => isAsciiDigit_of_mem_decimal,
        List.takeWhile_cons_of_neg (by simp [hequals]),
        List.takeWhile_cons_of_neg (by simp [hequals]), List.append_nil, List.append_nil] at htake
      exact htake
    have htag : tag = 35 := by
      rw [← decimalValue_decimal tag, ← hsplit]
      decide +kernel
    rw [htag]
    rfl

/-- The checksum of a message counts its separators as SOH. -/
theorem Written.checksum_logged (h : message.Written dialect) :
    parseU32 message.parts.checksum = some
      (calculateChecksum (message.logged.take message.trailerStart) message.separator).toNat := by
  have htake : message.logged.take message.trailerStart =
      respell message.separator message.parts.head := by
    rw [logged, frame, FrameParts.bytes, respell_append, List.take_left']
    rw [length_respell]
    rfl
  have hnew : message.separator = soh ∨ message.separator ∉ message.parts.head := by
    refine h.new.imp id fun hnew hmem => hnew ?_
    exact List.mem_append_left _ hmem
  rw [htake, calculateChecksum, respell_inverse hnew, toNat_byteSum]
  refine parseU32_eq_some_iff.mpr ⟨?_, h.parts.checksum_digit, h.parts.checksum_value, ?_⟩
  · rintro hnil
    have hthree := h.parts.checksum_length
    rw [hnil] at hthree
    cases hthree
  · exact (Nat.mod_lt _ (by decide)).le.trans (by decide)

/-- The fields before CheckSum. -/
def front (message : LogMessage) : List (Tag × Bytes) :=
  (8, message.parts.version) :: (9, message.parts.digits) :: message.body

theorem entries_eq (message : LogMessage) :
    message.entries = message.front ++ [(10, message.parts.checksum)] := rfl

theorem Written.head_eq (h : message.Written dialect) :
    message.parts.head = wireFields soh message.front := by
  have hbytes := h.frame_eq
  rw [entries_eq, wireFields_append, frame, FrameParts.bytes] at hbytes
  refine (List.append_inj' hbytes ?_).1
  have hten : (decimal 10).length = 2 := by
    rw [decimal_ten]
    rfl
  have hten' : (ascii "10=").length = 3 := by decide
  simp only [wireFields, wireField, List.flatMap_singleton, List.length_append, List.length_cons,
    List.length_nil, hten, hten']
  omega

/-- The index of a message is that of the fields before CheckSum, and CheckSum. -/
theorem Written.index_eq (h : message.Written dialect) :
    message.index = indexFrom 0 message.front ++
      [entryAt message.trailerStart 10 message.parts.checksum] := by
  rw [index, entries_eq, indexFrom_append soh, ← h.head_eq, Nat.zero_add]
  rfl

/-- The values that the index has in the logged bytes. -/
theorem Written.map_entry_index (h : message.Written dialect) :
    message.index.map (RawField.entry message.logged) =
      respellFields message.separator message.entries := by
  have hvalues := map_entry_indexFrom message.separator [] []
    (respellFields message.separator message.entries)
  rwa [List.nil_append, List.append_nil, ← h.logged_eq, List.length_nil,
    indexFrom_respellFields] at hvalues

theorem respell_of_digits {separator : UInt8} {digits : Bytes}
    (hdigits : ∀ b ∈ digits, isAsciiDigit b = true) : respell separator digits = digits :=
  respell_of_notMem (soh_notMem_of_digits hdigits)

/-- CheckSum is well formed and true, and stands where BodyLength points. -/
theorem Valid.diagnoseTrailer_logged (h : message.Valid dialect) :
    diagnoseTrailer message.logged message.index message.separator
      (some (entryAt (entryAt 0 8 message.parts.version).valueEnd.succ 9 message.parts.digits))
      (some message.parts.region.length) = [] := by
  have hlast : (entryAt message.trailerStart 10 message.parts.checksum).value message.logged =
      message.parts.checksum := by
    have hvalues := h.map_entry_index
    rw [h.index_eq, entries_eq, respellFields, List.map_append, List.map_append] at hvalues
    have hend := (List.append_inj' hvalues rfl).2
    rw [List.map_singleton, List.map_singleton, List.cons.injEq] at hend
    exact (congrArg Prod.snd hend.1).trans (respell_of_digits h.parts.checksum_digit)
  -- The fields before CheckSum end where the trailer starts, which is where BodyLength points.
  have hstart : (indexFrom 0 message.front).getLast?.elim 0 (·.valueEnd + 1) =
      message.trailerStart := by
    rw [getLast?_indexFrom soh 0 (by simp [front]), ← h.head_eq, Nat.zero_add]
    rfl
  have hpoint : (entryAt (entryAt 0 8 message.parts.version).valueEnd.succ 9
      message.parts.digits).valueEnd + 1 + message.parts.region.length =
      message.trailerStart := by
    have h₈ : (decimal 8).length = 1 := by
      rw [decimal_eight]
      rfl
    have h₉ : (decimal 9).length = 1 := by
      rw [decimal_nine]
      rfl
    rw [trailerStart, FrameParts.head, List.length_append, message.parts.length_preamble]
    simp only [entryAt, h₈, h₉]
    omega
  have hall : message.parts.checksum.all isAsciiDigit = true :=
    List.all_eq_true.mpr h.parts.checksum_digit
  simp only [diagnoseTrailer, h.index_eq, List.getLast?_concat, List.dropLast_concat, hstart,
    hlast, h.parts.checksum_length, hall, and_self, if_true, ← h.checksum_logged, Option.any_some,
    hpoint, bne_self_eq_false, ne_eq, not_true, if_false, List.append_nil, Bool.false_eq_true]

/-- **A logged message has nothing to diagnose.** -/
theorem Valid.diagnose_logged (h : message.Valid dialect) :
    diagnose message.logged message.index message.separator false = [] := by
  obtain ⟨msgType, fields, hbody⟩ := h.body_eq
  have hindex : message.index = entryAt 0 8 message.parts.version ::
      entryAt (entryAt 0 8 message.parts.version).valueEnd.succ 9 message.parts.digits ::
        indexFrom (entryAt (entryAt 0 8 message.parts.version).valueEnd.succ 9
          message.parts.digits).valueEnd.succ ((msgTypeTag, msgType) ::
            (fields ++ [(10, message.parts.checksum)])) := by
    rw [index, entries, hbody]
    rfl
  have hdigits : (entryAt (entryAt 0 8 message.parts.version).valueEnd.succ 9
      message.parts.digits).value message.logged = message.parts.digits := by
    have hvalues := h.map_entry_index
    rw [hindex, entries, respellFields, List.map_cons, List.map_cons, List.map_cons,
      List.map_cons, List.cons.injEq, List.cons.injEq] at hvalues
    exact (congrArg Prod.snd hvalues.2.1).trans (respell_of_digits h.parts.digits_digit)
  have hlength : message.index[1]?.filter (·.tag == bodyLengthTag) =
      some (entryAt (entryAt 0 8 message.parts.version).valueEnd.succ 9 message.parts.digits) := by
    rw [hindex]
    rfl
  have hmsgType : message.index[2]?.map (·.tag) = some msgTypeTag := by
    rw [hindex]
    rfl
  simp only [diagnose, hlength, Option.bind_some, hdigits, h.parseU32_digits, Option.isNone_some,
    Option.isSome_some, if_true, hmsgType, ne_eq, not_true, if_false, List.nil_append,
    Bool.false_eq_true, h.diagnoseTrailer_logged]

end LogMessage

end Refix.Log
