import Refix.Log.Separated

/-!
# Any Bytes with Another Separator

What the tokenizer reads depends on where separators stand, not on which byte they are. Bytes
whose SOHs are all replaced by a separator that is new to them, and that is neither `=` nor a
digit, are split into the same fields: each search stops where it stopped, and each pending
length is read as it was. Nothing is asked of the bytes, which may be malformed throughout.
-/

namespace Refix.Log

open Refix.Foundation Refix.Message

section Respelled

variable {separator : UInt8} {bytes : Bytes}

/-! ## Single bytes -/

theorem getElem?_respell (separator : UInt8) (bytes : Bytes) (k : ℕ) :
    (respell separator bytes)[k]? =
      bytes[k]?.map fun b => if b = soh then separator else b :=
  List.getElem?_map

/-- The separator stands where SOH stood, and nowhere else. -/
theorem getElem?_respell_eq_separator_iff (hnew : separator ∉ bytes) (k : ℕ) :
    (respell separator bytes)[k]? = some separator ↔ bytes[k]? = some soh := by
  rw [getElem?_respell]
  cases hb : bytes[k]? with
  | none => simp
  | some b =>
    have hne : b ≠ separator := by
      rintro rfl
      exact hnew (List.mem_of_getElem? hb)
    by_cases hsoh : b = soh
    · simp [hsoh]
    · simp [hsoh, hne]

/-- Other bytes than SOH and the separator stand where they stood. -/
theorem getElem?_respell_eq_iff {b : UInt8} (hsoh : b ≠ soh) (hsep : b ≠ separator) (k : ℕ) :
    (respell separator bytes)[k]? = some b ↔ bytes[k]? = some b := by
  rw [getElem?_respell]
  cases bytes[k]? with
  | none => simp
  | some b' =>
    by_cases hb' : b' = soh
    · simp [hb', hsoh.symm, hsep.symm]
    · simp [hb']

theorem slice_respell (separator : UInt8) (bytes : Bytes) (lo hi : ℕ) :
    slice (respell separator bytes) lo hi = respell separator (slice bytes lo hi) := by
  rw [slice, slice, respell, respell, ← List.map_take, ← List.map_drop]

/-! ## Searches -/

/-- A search through the logged bytes is one through the bytes themselves, for what each of
them is logged as. -/
theorem findFrom_respell {p q : UInt8 → Bool} (pos : ℕ)
    (h : ∀ b ∈ bytes, p (if b = soh then separator else b) = q b) :
    findFrom p (respell separator bytes) pos = findFrom q bytes pos := by
  have hdrop : ∀ b ∈ bytes.drop pos, p (if b = soh then separator else b) = q b :=
    fun b hb => h b (List.mem_of_mem_drop hb)
  rw [findFrom, findFrom, respell, ← List.map_drop, List.findIdx?_map]
  refine congrArg (Option.map (pos + ·)) ?_
  generalize bytes.drop pos = rest at hdrop
  induction rest with
  | nil => rfl
  | cons b rest ih =>
    rw [List.findIdx?_cons, List.findIdx?_cons, Function.comp_apply,
      hdrop b List.mem_cons_self, ih fun b hb => hdrop b (List.mem_cons_of_mem _ hb)]

theorem findSeparator_respell (hnew : separator ∉ bytes) (pos : ℕ) :
    findSeparator (respell separator bytes) pos separator = findSeparator bytes pos soh := by
  apply findFrom_respell
  intro b hb
  have hne : b ≠ separator := by
    rintro rfl
    exact hnew hb
  by_cases hsoh : b = soh
  · simp [hsoh]
  · simp [hsoh, hne]

theorem findTagEnd_respell (hnew : separator ∉ bytes) (hequals : separator ≠ equalsSign)
    (pos : ℕ) :
    findTagEnd (respell separator bytes) pos separator = findTagEnd bytes pos soh := by
  have hfind : findFrom (fun b => b == equalsSign || b == separator) (respell separator bytes) pos =
      findFrom (fun b => b == equalsSign || b == soh) bytes pos := by
    apply findFrom_respell
    intro b hb
    have hne : b ≠ separator := by
      rintro rfl
      exact hnew hb
    by_cases hsoh : b = soh
    · simp [hsoh]
    · have hne' : (b == separator) = false := beq_false_of_ne hne
      have hsoh' : (b == soh) = false := beq_false_of_ne hsoh
      rw [if_neg hsoh, hne', hsoh']
  -- an `=` is told from a separator in the same way on both sides
  have hkind : ∀ k, (respell separator bytes)[k]? = some equalsSign ↔
      bytes[k]? = some equalsSign :=
    getElem?_respell_eq_iff (by decide) hequals.symm
  simp only [findTagEnd_eq, hfind, hkind]

/-- A pending length is trusted in the one spelling if it is in the other. -/
theorem dataValueEnd_respell (hnew : separator ∉ bytes) (valueStart len : ℕ) :
    dataValueEnd (respell separator bytes) valueStart len separator =
      dataValueEnd bytes valueStart len soh := by
  simp only [dataValueEnd, getElem?_respell_eq_separator_iff hnew]

theorem fieldValueEnd_respell (hnew : separator ∉ bytes) (valueStart : ℕ) (dataLen : Option ℕ) :
    fieldValueEnd (respell separator bytes) valueStart dataLen separator =
      fieldValueEnd bytes valueStart dataLen soh := by
  simp only [fieldValueEnd, dataValueEnd_respell hnew, findSeparator_respell hnew, length_respell]

/-! ## Fields -/

/-- One field is read as it was: the same tag, the same range and the same next offset. -/
theorem nextField_respell (hnew : separator ∉ bytes) (hequals : separator ≠ equalsSign)
    (hdigit : isAsciiDigit separator = false) (pos : ℕ) (dataLen : Option ℕ) :
    nextField (respell separator bytes) pos dataLen separator =
      nextField bytes pos dataLen soh := by
  have htag : ∀ delimiter, parseU32 (slice (respell separator bytes) pos delimiter) =
      parseU32 (slice bytes pos delimiter) := by
    intro delimiter
    rw [slice_respell, parseU32_respell hdigit]
  simp only [nextField, findTagEnd_respell hnew hequals, fieldValueEnd_respell hnew, htag]

/-- The value of a length field may hold separators itself. It is then no number, with SOH or
with a separator that is no digit. -/
theorem pendingDataLen_respell (tokenizer : Tokenizer) (hdigit : isAsciiDigit separator = false)
    (field : RawField) :
    tokenizer.pendingDataLen (respell separator bytes) field =
      tokenizer.pendingDataLen bytes field := by
  rw [Tokenizer.pendingDataLen, Tokenizer.pendingDataLen, RawField.value, slice_respell,
    parseU32_respell hdigit, RawField.value]

theorem tokenizeFrom_respell (tokenizer : Tokenizer) (hnew : separator ∉ bytes)
    (hequals : separator ≠ equalsSign) (hdigit : isAsciiDigit separator = false) (pos : ℕ)
    (dataLen : Option ℕ) :
    tokenizer.tokenizeFrom (respell separator bytes) separator pos dataLen =
      tokenizer.tokenizeFrom bytes soh pos dataLen := by
  -- the induction is on the loop over the original bytes, the pending length being its state
  induction pos, dataLen using Tokenizer.tokenizeFrom.induct tokenizer bytes soh with
  | case1 pos dataLen hread =>
    have hlogged := (nextField_respell hnew hequals hdigit pos dataLen).trans hread
    rw [Tokenizer.tokenizeFrom.eq_def, hlogged, Tokenizer.tokenizeFrom.eq_def, hread]
  | case2 pos dataLen field next hread ih =>
    have hlogged := (nextField_respell hnew hequals hdigit pos dataLen).trans hread
    rw [Tokenizer.tokenizeFrom.eq_def, hlogged, Tokenizer.tokenizeFrom.eq_def, hread]
    simp only [pendingDataLen_respell tokenizer hdigit, ih]

/-- The checksum counts every separator as the SOH it stands for. -/
theorem calculateChecksum_respell (hnew : separator ∉ bytes) :
    calculateChecksum (respell separator bytes) separator = byteSum bytes := by
  rw [calculateChecksum, respell_inverse (Or.inr hnew)]

end Respelled

/-- **Separators are interchangeable**: with a new separator in place of SOH, any bytes are
split into the same fields and have the same checksum. -/
theorem tokenizeFields_respell (dialect : Dialect) (bytes : Bytes) (separator : UInt8)
    (hnew : separator ∉ bytes) (hequals : separator ≠ equalsSign)
    (hdigit : isAsciiDigit separator = false) :
    (Tokenizer.new dialect).tokenizeFields (respell separator bytes) separator =
        (Tokenizer.new dialect).tokenizeFields bytes soh ∧
      calculateChecksum (respell separator bytes) separator = byteSum bytes :=
  ⟨tokenizeFrom_respell _ hnew hequals hdigit 0 none, calculateChecksum_respell hnew⟩

/-- A length that is trusted over separators in its value, one that is not, and a cut tail. -/
theorem tokenizeFields_respell_pipes :
    let bytes := ascii "8=FIX.4.4\x0195=3\x0196=a\x01b\x0195=9\x0196=c\x01d\x01junk\x0110=0"
    (Tokenizer.new .standard).tokenizeFields (respell 124 bytes) 124 =
        (Tokenizer.new .standard).tokenizeFields bytes soh ∧
      calculateChecksum (respell 124 bytes) 124 = byteSum bytes :=
  tokenizeFields_respell .standard _ 124 (by decide +kernel) (by decide) (by decide)

end Refix.Log
