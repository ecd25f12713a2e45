import Refix.Log.Driver
import Refix.Log.Waits

/-!
# Every Byte of a Log

The bytes fed to a reader are those of its records, in order, and a rest without a message
start. Between a record and the next, the log holds bytes dropped at the cap, the prefix, the
message as it was logged and its line break (`Accounts`).
-/

namespace Refix.Log

open Refix.Foundation Refix.Message

/-- The records account for every byte of a log. -/
inductive Accounts (separatorOverride : Option UInt8) : Bytes → List LogRecord → Prop where
  /-- No message starts in the rest. -/
  | rest {bytes : Bytes}
      (hstart : findStart bytes 0 bytes.length separatorOverride true = .notFound) :
      Accounts separatorOverride bytes []
  /-- The first message starts behind the dropped bytes and the prefix. -/
  | record {bytes dropped logged lineBreak rest : Bytes} {separator : Separator}
      {record : LogRecord} {records : List LogRecord}
      (hbytes : bytes = dropped ++ (record.prefixBytes ++ (logged ++ (lineBreak ++ rest))))
      (hstart : findStart bytes 0 bytes.length separatorOverride true =
        .found ⟨dropped.length + record.prefixBytes.length, separator⟩)
      (hmessage : record.message.bytes = separator.restore logged)
      (hlogged : logged ≠ [])
      (hbreak : lineBreak = [] ∨ lineBreak = [lineFeed] ∨ lineBreak = [carriageReturn, lineFeed])
      (htruncated : dropped ≠ [] ↔ LogDiagnostic.prefixTruncated ∈ record.diagnostics)
      (hcap : dropped ≠ [] → record.prefixBytes.length = maxPrefixLen)
      (hrest : Accounts separatorOverride rest records) :
      Accounts separatorOverride bytes (record :: records)

/-- The diagnostics of a message say nothing about its prefix. -/
theorem prefixTruncated_notMem_diagnose (bytes : Bytes) (fields : List RawField)
    (separator : UInt8) (truncated : Bool) :
    LogDiagnostic.prefixTruncated ∉ diagnose bytes fields separator truncated := by
  have htrailer : ∀ bodyLength declaredLength, LogDiagnostic.prefixTruncated ∉
      diagnoseTrailer bytes fields separator bodyLength declaredLength := by
    intro bodyLength declaredLength
    unfold diagnoseTrailer
    split
    · simp
    · simp only [List.mem_append, not_or]
      constructor
      · split <;> simp
      · split
        · split <;> simp
        · simp
  unfold diagnose
  simp only [List.mem_append, not_or]
  refine ⟨⟨?_, ?_⟩, ?_⟩
  · split
    · simp
    · split <;> simp
  · split <;> simp
  · split
    · simp
    · exact htrailer _ _

theorem prefixTruncated_mem_record {tokenizer : Tokenizer} {taken : Taken} :
    LogDiagnostic.prefixTruncated ∈ (taken.record tokenizer).diagnostics ↔
      taken.prefixTruncated = true := by
  have hnot := prefixTruncated_notMem_diagnose taken.bytes
    (tokenizer.tokenizeFields taken.bytes taken.separator) taken.separator taken.truncated
  simp only [Taken.record, List.mem_append, hnot, or_false]
  cases taken.prefixTruncated <;> simp

section Cut

variable {tokenizer : Tokenizer} {separatorOverride : Option UInt8} {atEnd : Bool}
  {bytes : Bytes} {taken : Taken} {n : ℕ}

/-- A search of a log that has ended waits for nothing. -/
theorem cutMessage_atEnd_eq_none
    (h : cutMessage tokenizer separatorOverride true bytes = none) :
    findStart bytes 0 bytes.length separatorOverride true = .notFound := by
  unfold cutMessage at h
  cases hstart : findStart bytes 0 bytes.length separatorOverride true with
  | notFound => rfl
  | pending offset =>
    cases findStart_eq_iff.mp hstart with
    | pending _ _ _ hopen _ => cases hopen
  | found start =>
    rw [hstart] at h
    simp only [Option.map_eq_none_iff] at h
    cases (of_findMessage_eq_none h).1

/-- **What one cut takes**: the dropped bytes and the prefix up to the first start, the message
as it was logged, and at most one line break. -/
theorem cutMessage_split
    (h : cutMessage tokenizer separatorOverride atEnd bytes = some (taken, n)) :
    ∃ dropped lineBreak separator,
      bytes.take n = dropped ++ (taken.prefixBytes ++ (taken.logged ++ lineBreak)) ∧
      findStart bytes 0 bytes.length separatorOverride atEnd =
        .found ⟨dropped.length + taken.prefixBytes.length, separator⟩ ∧
      taken.bytes = separator.restore taken.logged ∧
      taken.logged ≠ [] ∧
      (lineBreak = [] ∨ lineBreak = [lineFeed] ∨ lineBreak = [carriageReturn, lineFeed]) ∧
      (dropped ≠ [] ↔ taken.prefixTruncated = true) ∧
      (dropped ≠ [] → taken.prefixBytes.length = maxPrefixLen) := by
  obtain ⟨start, stop, copy, separator, hstart, hmessage, rfl, rfl⟩ :=
    cutMessage_eq_some_iff.mp h
  obtain ⟨hwithin, hrestore, -⟩ :=
    findMessage_within (check_of_checkAt (checkAt_of_findStart hstart)) hmessage
  have hoffset : start.offset ≤ bytes.length := by
    cases findStart_eq_iff.mp hstart with
    | found _ hhi _ _ => exact hhi.le
  have hend := hwithin.consumed_le
  rw [List.length_drop] at hend
  -- the bytes past the cap, and the prefix that is left
  generalize hexcess : start.offset - maxPrefixLen = excess
  have hsplit : (bytes.take start.offset).take excess ++ (bytes.take start.offset).drop excess =
      bytes.take start.offset := List.take_append_drop _ _
  have hlengths : ((bytes.take start.offset).take excess).length = excess ∧
      ((bytes.take start.offset).drop excess).length = start.offset - excess := by
    simp only [List.length_take, List.length_drop]
    omega
  have hdropped : (bytes.take start.offset).take excess ≠ [] ↔ maxPrefixLen < start.offset := by
    rw [← List.length_pos_iff, hlengths.1]
    omega
  refine ⟨(bytes.take start.offset).take excess,
    slice (bytes.drop start.offset) stop.len stop.consumed, start.separator, ?_, ?_, hrestore, ?_,
    hwithin.lineBreak, ?_, ?_⟩
  · have hlogged : (bytes.drop start.offset).take stop.len ++
        slice (bytes.drop start.offset) stop.len stop.consumed =
          (bytes.drop start.offset).take stop.consumed := by
      rw [slice, ← Nat.min_eq_left hwithin.len_le, ← List.take_take, Nat.min_eq_left hwithin.len_le]
      exact List.take_append_drop _ _
    rw [hlogged, ← List.append_assoc, hsplit, List.take_add]
  · rw [hstart, hlengths.1, hlengths.2, Nat.add_sub_cancel' (by omega)]
  · rw [← List.length_pos_iff, List.length_take, List.length_drop]
    have := hwithin.len_pos
    have := hwithin.len_le
    omega
  · rw [hdropped, decide_eq_true_eq]
  · intro hne
    have := hdropped.mp hne
    rw [hlengths.2]
    omega

/-- A cut extends the account of the bytes behind it. -/
theorem Accounts.cut {more : Bytes} {records : List LogRecord}
    (hend : atEnd = true → more = [])
    (h : cutMessage tokenizer separatorOverride atEnd bytes = some (taken, n))
    (hrest : Accounts separatorOverride (bytes.drop n ++ more) records) :
    Accounts separatorOverride (bytes ++ more) (taken.record tokenizer :: records) := by
  obtain ⟨dropped, lineBreak, separator, htake, hstart, hbytes, hlogged, hbreak, htruncated, hcap⟩ :=
    cutMessage_split h
  have hsplit : bytes ++ more = dropped ++ (taken.prefixBytes ++ (taken.logged ++ (lineBreak ++
      (bytes.drop n ++ more)))) := by
    calc bytes ++ more = (bytes.take n ++ bytes.drop n) ++ more := by rw [List.take_append_drop]
      _ = _ := by rw [htake]; simp only [List.append_assoc]
  refine .record hsplit ?_ hbytes hlogged hbreak ?_ hcap hrest
  · cases hatEnd : atEnd with
    | true =>
      rw [hend hatEnd, List.append_nil, ← hatEnd]
      exact hstart
    | false =>
      rw [hatEnd] at hstart
      exact findStart_found_of_isPrefix (List.prefix_append ..) hstart (by simp) le_rfl true
  · rw [htruncated, prefixTruncated_mem_record]

end Cut

/-- **The records of a run account for every byte fed**, whatever calls are made in which
order. -/
theorem accounts_run (dialect : Dialect) (separator : Option UInt8)
    (calls : List (Cutter.Call UInt8)) :
    Accounts separator (Cutter.Call.fed calls) ((LogReader.new dialect separator).run calls) := by
  rw [run_of_represents (represents_new dialect separator)]
  have hrun := Cutter.runTo_induction
    (c := messageCutter (Tokenizer.new dialect) separator false)
    (e := messageCutter (Tokenizer.new dialect) separator true)
    (R := fun bytes pieces => Accounts separator bytes (records (Tokenizer.new dialect) pieces))
    (fun bytes hcut => .rest (cutMessage_atEnd_eq_none hcut))
    (fun bytes taken n pieces hcut hrest => by
      have hall := Accounts.cut (fun _ => rfl) hcut (by rwa [List.append_nil])
      rwa [List.append_nil] at hall)
    (fun bytes more taken n pieces hcut hrest => Accounts.cut (by simp) hcut hrest) calls []
  exact hrun

end Refix.Log
