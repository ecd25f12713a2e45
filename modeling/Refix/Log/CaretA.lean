import Refix.Log.End

/-!
# Messages Logged with `^A`

A message logged with `^A` for SOH is read from a copy of its line with SOH restored. Its end
in the copy is then mapped back to the line.
-/

namespace Refix.Log

open Refix.Foundation Refix.Message

/-- The bytes SOH is logged as. -/
def caretABytes : Bytes := ascii "^A"

/-- A copy of `line` with SOH for each `^A`. -/
def restoreSoh (line : Bytes) : Bytes :=
  match _h : findPattern caretABytes line with
  | some offset => line.take offset ++ soh :: restoreSoh (line.drop (offset + 2))
  | none => line
termination_by line.length
decreasing_by
  obtain ⟨hle, hat, -⟩ := findPattern_eq_some _h
  have hlen := hat.length_le
  rw [List.length_drop] at hlen
  simp only [show caretABytes.length = 2 from rfl, List.length_drop] at hlen ⊢
  omega

/-- The offset in `logLine` of the byte at `offset` in its `copy`. -/
def originalOffset (logLine copy : Bytes) (offset : ℕ) : ℕ :=
  (copy.take offset).foldl
    (fun pos byte => pos + if byte = soh ∧ logLine[pos]? = some caret then 2 else 1) 0

/-- The line at the start of `bytes` and the bytes it takes with its line break, or `none`
until its line break arrives. -/
def findLine (bytes : Bytes) (atEnd : Bool) : Option (Bytes × ℕ) :=
  let capped := bytes.take (min bytes.length maxMessageLen)
  match capped.findIdx? (· == lineFeed) with
  | some offset =>
    let line := capped.take offset
    let line := if line.getLast? = some carriageReturn then line.dropLast else line
    some (line, offset + 1)
  | none =>
    if atEnd = true ∨ capped.length = maxMessageLen then some (capped, capped.length) else none

/-- The message at the start of `bytes` with SOH restored, and its end in `bytes`. The message
takes its whole line unless it ends before the line does. -/
def copyMessage (tokenizer : Tokenizer) (bytes : Bytes) (atEnd : Bool) : Option (End × Bytes) := do
  let (line, lineConsumed) ← findLine bytes atEnd
  let copy := restoreSoh line
  let stop ← findEnd tokenizer copy soh none true
  let len := originalOffset line copy stop.len
  let consumed := if len = line.length then lineConsumed else len
  return (⟨len, consumed, stop.truncated⟩, copy.take stop.len)

/-! ## Restoring SOH -/

@[simp] theorem restoreSoh_nil : restoreSoh [] = [] := by
  rw [restoreSoh]
  rfl

@[simp] theorem restoreSoh_caretA (rest : Bytes) :
    restoreSoh (caret :: 65 :: rest) = soh :: restoreSoh rest := by
  have hfind : findPattern caretABytes (caret :: 65 :: rest) = some 0 := by
    have hpre : caretABytes <+: caret :: 65 :: rest := ⟨rest, rfl⟩
    simp [findPattern, hpre]
  rw [restoreSoh]
  split
  · next offset h =>
    obtain rfl := Option.some.inj (hfind.symm.trans h)
    rfl
  · next h => exact absurd (hfind.symm.trans h) (by simp)

theorem restoreSoh_cons {b : UInt8} {rest : Bytes} (hb : ¬ caretABytes <+: b :: rest) :
    restoreSoh (b :: rest) = b :: restoreSoh rest := by
  have hfind : findPattern caretABytes (b :: rest) =
      (findPattern caretABytes rest).map (· + 1) := by
    simp [findPattern, hb]
  rw [restoreSoh, restoreSoh.eq_def rest]
  split
  · next offset h =>
    obtain ⟨offset', hoffset', rfl⟩ := Option.map_eq_some_iff.mp (hfind.symm.trans h)
    split
    · next h' =>
      obtain rfl := Option.some.inj (hoffset'.symm.trans h')
      rfl
    · next h' => exact absurd (hoffset'.symm.trans h') (by simp)
  · next h =>
    have hnone := Option.map_eq_none_iff.mp (hfind.symm.trans h)
    split
    · next h' => exact absurd (hnone.symm.trans h') (by simp)
    · rfl

/-- A line is empty, or opens with `^A`, or with a byte that does not begin one. -/
theorem restoreSoh_induction {motive : Bytes → Prop} (nil : motive [])
    (caretA : ∀ rest, motive rest → motive (caret :: 65 :: rest))
    (cons : ∀ b rest, ¬ caretABytes <+: b :: rest → motive rest → motive (b :: rest))
    (logLine : Bytes) : motive logLine := by
  induction hlen : logLine.length using Nat.strong_induction_on generalizing logLine with
  | _ len ih =>
    cases logLine with
    | nil => exact nil
    | cons b rest =>
      rw [List.length_cons] at hlen
      by_cases hb : caretABytes <+: b :: rest
      · obtain ⟨tail, htail⟩ := hb
        obtain ⟨rfl, rfl⟩ : b = caret ∧ rest = 65 :: tail := by
          simpa [caretABytes, ascii, caret, eq_comm] using htail
        exact caretA tail (ih tail.length (by simp at hlen; omega) tail rfl)
      · exact cons b rest hb (ih rest.length (by omega) rest rfl)

/-! ## Offsets of the copy -/

/-- The first `k` bytes of the copy of a line come from its first `len` bytes. -/
inductive ComesFrom : Bytes → ℕ → ℕ → Prop where
  | zero (logLine : Bytes) : ComesFrom logLine 0 0
  | caretA {rest : Bytes} {k len : ℕ} (h : ComesFrom rest k len) :
      ComesFrom (caret :: 65 :: rest) (k + 1) (len + 2)
  | byte {b : UInt8} {rest : Bytes} {k len : ℕ} (hb : ¬ caretABytes <+: b :: rest)
      (h : ComesFrom rest k len) : ComesFrom (b :: rest) (k + 1) (len + 1)

namespace ComesFrom

variable {logLine : Bytes} {k len : ℕ}

theorem le (h : ComesFrom logLine k len) : k ≤ len ∧ len ≤ logLine.length := by
  induction h with
  | zero logLine => exact ⟨le_rfl, Nat.zero_le _⟩
  | caretA h ih =>
    simp only [List.length_cons]
    omega
  | byte hb h ih =>
    simp only [List.length_cons]
    omega

theorem restoreSoh_take (h : ComesFrom logLine k len) :
    restoreSoh (logLine.take len) = (restoreSoh logLine).take k := by
  induction h with
  | zero logLine => simp
  | caretA h ih =>
    rw [List.take_succ_cons, List.take_succ_cons, restoreSoh_caretA, restoreSoh_caretA,
      List.take_succ_cons, ih]
  | @byte b rest k len hb h ih =>
    have hb' : ¬ caretABytes <+: b :: rest.take len := by
      intro hpre
      exact hb (hpre.trans (by simpa using List.take_prefix len rest))
    rw [List.take_succ_cons, restoreSoh_cons hb', restoreSoh_cons hb, List.take_succ_cons, ih]

/-- The whole copy comes from the whole line. -/
theorem eq_length (h : ComesFrom logLine k len) (hk : k = (restoreSoh logLine).length) :
    len = logLine.length := by
  induction h with
  | zero logLine =>
    induction logLine using restoreSoh_induction with
    | nil => rfl
    | caretA rest _ =>
      rw [restoreSoh_caretA] at hk
      cases hk
    | cons b rest hb _ =>
      rw [restoreSoh_cons hb] at hk
      cases hk
  | caretA h ih =>
    rw [restoreSoh_caretA, List.length_cons] at hk
    rw [ih (Nat.succ.inj hk), List.length_cons, List.length_cons]
  | byte hb h ih =>
    rw [restoreSoh_cons hb, List.length_cons] at hk
    rw [ih (Nat.succ.inj hk), List.length_cons]

/-- No shorter front of the line is copied to as many bytes of the copy. A front that ends within
`^A` is copied to a `^`, which the copy does not have there. -/
theorem le_of_restoreSoh_take (h : ComesFrom logLine k len) {n : ℕ}
    (hn : restoreSoh (logLine.take n) = (restoreSoh logLine).take k) : len ≤ n := by
  induction h generalizing n with
  | zero logLine => exact Nat.zero_le n
  | caretA h ih =>
    rw [restoreSoh_caretA, List.take_succ_cons] at hn
    -- A front that ends between `^` and `A` keeps its `^`, and the copy has a SOH there.
    match n with
    | 0 =>
      rw [List.take_zero, restoreSoh_nil] at hn
      cases hn
    | 1 =>
      have hsingle : restoreSoh [caret] = [caret] := by
        rw [restoreSoh_cons (by decide), restoreSoh_nil]
      rw [List.take_succ_cons, List.take_zero, hsingle] at hn
      injection hn with hhead _
      exact absurd hhead (by decide)
    | n + 2 =>
      rw [List.take_succ_cons, List.take_succ_cons, restoreSoh_caretA] at hn
      injection hn with _ hrest
      exact Nat.add_le_add_right (ih hrest) 2
  | @byte b rest k len hb h ih =>
    rw [restoreSoh_cons hb, List.take_succ_cons] at hn
    cases n with
    | zero =>
      rw [List.take_zero, restoreSoh_nil] at hn
      cases hn
    | succ n =>
      have hb' : ¬ caretABytes <+: b :: rest.take n := by
        intro hpre
        exact hb (hpre.trans (by simpa using List.take_prefix n rest))
      rw [List.take_succ_cons, restoreSoh_cons hb'] at hn
      injection hn with _ hrest
      exact Nat.succ_le_succ (ih hrest)

end ComesFrom

/-- The fold that maps an offset of the copy back, from any offset of the line. -/
private theorem foldl_originalOffset (before logLine : Bytes) {k : ℕ}
    (hk : k ≤ (restoreSoh logLine).length) :
    ∃ len, ((restoreSoh logLine).take k).foldl (fun pos byte =>
        pos + if byte = soh ∧ (before ++ logLine)[pos]? = some caret then 2 else 1) before.length =
          before.length + len ∧ ComesFrom logLine k len := by
  induction logLine using restoreSoh_induction generalizing before k with
  | nil =>
    obtain rfl : k = 0 := by simpa using hk
    exact ⟨0, rfl, .zero []⟩
  | caretA rest ih =>
    cases k with
    | zero => exact ⟨0, rfl, .zero _⟩
    | succ k =>
      rw [restoreSoh_caretA, List.length_cons] at hk
      obtain ⟨len, hfold, hcomes⟩ := ih (before ++ [caret, 65]) (k := k) (by omega)
      refine ⟨len + 2, ?_, hcomes.caretA⟩
      have hget : (before ++ caret :: 65 :: rest)[before.length]? = some caret := by
        rw [List.getElem?_append_right le_rfl, Nat.sub_self]
        rfl
      rw [restoreSoh_caretA, List.take_succ_cons, List.foldl_cons, hget]
      simp only [List.length_append, List.length_cons, List.length_nil, List.append_assoc,
        List.cons_append, List.nil_append] at hfold
      simp only [and_self, if_true]
      rw [hfold]
      omega
  | cons b rest hb ih =>
    cases k with
    | zero => exact ⟨0, rfl, .zero _⟩
    | succ k =>
      rw [restoreSoh_cons hb, List.length_cons] at hk
      obtain ⟨len, hfold, hcomes⟩ := ih (before ++ [b]) (k := k) (by omega)
      refine ⟨len + 1, ?_, hcomes.byte hb⟩
      have hget : (before ++ b :: rest)[before.length]? = some b := by
        rw [List.getElem?_append_right le_rfl, Nat.sub_self]
        rfl
      -- a byte of the line that is SOH itself is no `^`
      have hone : ¬ (b = soh ∧ some b = some caret) := by
        rintro ⟨rfl, h⟩
        exact absurd (Option.some.inj h) (by decide)
      rw [restoreSoh_cons hb, List.take_succ_cons, List.foldl_cons, hget, if_neg hone]
      simp only [List.length_append, List.length_cons, List.length_nil, List.append_assoc,
        List.cons_append, List.nil_append] at hfold
      rw [hfold]
      omega

theorem comesFrom_originalOffset (logLine : Bytes) {k : ℕ} (hk : k ≤ (restoreSoh logLine).length) :
    ComesFrom logLine k (originalOffset logLine (restoreSoh logLine) k) := by
  obtain ⟨len, hfold, hcomes⟩ := foldl_originalOffset [] logLine hk
  simp only [List.nil_append, List.length_nil, Nat.zero_add] at hfold
  rwa [originalOffset, hfold]

/-- **An offset of the copy is mapped back** to the bytes of the line that it was copied
from. -/
theorem originalOffset_spec (logLine : Bytes) {k : ℕ} (hk : k ≤ (restoreSoh logLine).length) :
    k ≤ originalOffset logLine (restoreSoh logLine) k ∧
      originalOffset logLine (restoreSoh logLine) k ≤ logLine.length ∧
      restoreSoh (logLine.take (originalOffset logLine (restoreSoh logLine) k)) =
        (restoreSoh logLine).take k := by
  have hcomes := comesFrom_originalOffset logLine hk
  exact ⟨hcomes.le.1, hcomes.le.2, hcomes.restoreSoh_take⟩

end Refix.Log
