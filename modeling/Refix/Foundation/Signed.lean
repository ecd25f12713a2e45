import Refix.Foundation.Checked

/-!
# Signed Machine Integers

The integers of a signed type and the operations on them that check for overflow. A number
either has its machine integer, or it does not fit the type; a checked operation is the exact
one followed by that question.
-/

namespace Refix.Foundation

/-! ## Numbers that fit -/

/-- The 64-bit integer for a number, if it fits. -/
def int64? (n : ℤ) : Option Int64 :=
  if -2 ^ 63 ≤ n ∧ n < 2 ^ 63 then some (Int64.ofInt n) else none

/-- The 8-bit integer for a number, if it fits. -/
def int8? (n : ℤ) : Option Int8 :=
  if -2 ^ 7 ≤ n ∧ n < 2 ^ 7 then some (Int8.ofInt n) else none

@[simp] theorem int64?_eq_some_iff {n : ℤ} {x : Int64} : int64? n = some x ↔ x.toInt = n := by
  simp only [int64?, Option.ite_none_right_eq_some, Option.some.injEq]
  constructor
  · rintro ⟨⟨hlo, hhi⟩, rfl⟩
    exact Int64.toInt_ofInt_of_le hlo hhi
  · rintro rfl
    exact ⟨⟨Int64.le_toInt x, Int64.toInt_lt x⟩, Int64.ofInt_toInt x⟩

@[simp] theorem int8?_eq_some_iff {n : ℤ} {x : Int8} : int8? n = some x ↔ x.toInt = n := by
  simp only [int8?, Option.ite_none_right_eq_some, Option.some.injEq]
  constructor
  · rintro ⟨⟨hlo, hhi⟩, rfl⟩
    exact Int8.toInt_ofInt_of_le hlo hhi
  · rintro rfl
    exact ⟨⟨Int8.le_toInt x, Int8.toInt_lt x⟩, Int8.ofInt_toInt x⟩

/-- Every number in the range of the type has its integer. -/
theorem exists_int64 {n : ℤ} (hlo : -2 ^ 63 ≤ n) (hhi : n < 2 ^ 63) : ∃ x : Int64, x.toInt = n :=
  ⟨Int64.ofInt n, Int64.toInt_ofInt_of_le hlo hhi⟩

/-! ## Checked operations -/

/-- `a.checked_mul(b)` -/
def checkedMul64 (a b : Int64) : Option Int64 := int64? (a.toInt * b.toInt)

/-- `a.checked_add(b)` -/
def checkedAdd64 (a b : Int64) : Option Int64 := int64? (a.toInt + b.toInt)

/-- A number that is stored in 8 bits. -/
def Checked.int8 (n : ℤ) : Except Panic Int8 :=
  match int8? n with
  | some x => .ok x
  | none => .error .inexact

theorem Checked.int8_eq {n : ℤ} (hlo : -2 ^ 7 ≤ n) (hhi : n < 2 ^ 7) :
    Checked.int8 n = .ok (Int8.ofInt n) := by
  rw [Checked.int8, int8?, if_pos ⟨hlo, hhi⟩]

/-- A negation that stays in the type is the exact one. -/
theorem toInt_neg64 {x : Int64} (h : 0 ≤ x.toInt) : (-x).toInt = -x.toInt := by
  have hlt := Int64.toInt_lt x
  rw [Int64.toInt_neg, Int.bmod_def]
  split <;> omega

theorem toInt_neg8 {x : Int8} (h : 0 ≤ x.toInt) : (-x).toInt = -x.toInt := by
  have hlt := Int8.toInt_lt x
  rw [Int8.toInt_neg, Int.bmod_def]
  split <;> omega

/-! ## Expressions that panic on overflow -/

/-- The outcome of an expression over a signed type with the numbers from `-limit` up to, but not
including, `limit`: its value, unless one of its steps leaves the type. -/
structure Arith (limit : ℤ) where
  run : Except Panic ℤ

abbrev I64 := Arith (2 ^ 63)

abbrev I128 := Arith (2 ^ 127)

namespace Arith

variable {limit : ℤ}

/-- A number of the type. -/
def val (n : ℤ) : Arith limit := ⟨.ok n⟩

/-- A result that has to fit the type. -/
def fit (limit n : ℤ) : Except Panic ℤ :=
  if -limit ≤ n ∧ n < limit then .ok n else .error .inexact

/-- One operation, on the values of its operands. -/
def step (op : ℤ → ℤ → ℤ) (x y : Arith limit) : Arith limit :=
  ⟨do fit limit (op (← x.run) (← y.run))⟩

instance : Add (Arith limit) := ⟨step (· + ·)⟩
instance : Sub (Arith limit) := ⟨step (· - ·)⟩
instance : Mul (Arith limit) := ⟨step (· * ·)⟩

/-- Division and remainder truncate towards zero. -/
instance : Div (Arith limit) := ⟨step Int.tdiv⟩
instance : Mod (Arith limit) := ⟨step Int.tmod⟩

/-- `x.div_euclid(y)`, for a positive `y` -/
def divEuclid (x y : Arith limit) : Arith limit := step (· / ·) x y

/-- `x.rem_euclid(y)`, for a positive `y` -/
def remEuclid (x y : Arith limit) : Arith limit := step (· % ·) x y

instance (n : ℕ) : OfNat (Arith limit) n := ⟨val n⟩

theorem ofNat_eq (n : ℕ) : (OfNat.ofNat n : Arith limit) = val (OfNat.ofNat n) := (rfl)

@[simp] theorem run_val (n : ℤ) : (val n : Arith limit).run = .ok n := rfl

/-- What follows a step runs on its value. -/
theorem val_bind {α : Type} (n : ℤ) (f : ℤ → Except Panic α) :
    ((val n : Arith limit).run >>= f) = f n := (rfl)

variable {a b : ℤ}

theorem step_val {op : ℤ → ℤ → ℤ} (h : -limit ≤ op a b ∧ op a b < limit) :
    step op (val a : Arith limit) (val b) = val (op a b) := by
  simp only [step, run_val, Checked.bind_ok, fit, if_pos h]
  rfl

theorem val_add (h : -limit ≤ a + b ∧ a + b < limit) :
    (val a + val b : Arith limit) = val (a + b) :=
  step_val h

theorem val_sub (h : -limit ≤ a - b ∧ a - b < limit) :
    (val a - val b : Arith limit) = val (a - b) :=
  step_val h

theorem val_mul (h : -limit ≤ a * b ∧ a * b < limit) :
    (val a * val b : Arith limit) = val (a * b) :=
  step_val h

/-- The quotient of numbers that are not negative. -/
theorem val_div (ha : 0 ≤ a) (hlt : a < limit) (hb : 0 < b) :
    (val a / val b : Arith limit) = val (a / b) := by
  have hle : a / b ≤ a := Int.ediv_le_self b ha
  have hpos : 0 ≤ a / b := Int.ediv_nonneg ha hb.le
  have htdiv : a.tdiv b = a / b := Int.tdiv_eq_ediv_of_nonneg ha
  have hfits : -limit ≤ a.tdiv b ∧ a.tdiv b < limit := by omega
  exact (step_val hfits).trans (by rw [htdiv])

/-- The remainder of numbers that are not negative. -/
theorem val_mod (ha : 0 ≤ a) (hb : 0 < b) (hlt : b < limit) :
    (val a % val b : Arith limit) = val (a % b) := by
  have hlt' : a % b < b := Int.emod_lt_of_pos a hb
  have hpos : 0 ≤ a % b := Int.emod_nonneg a hb.ne'
  have htmod : a.tmod b = a % b := Int.tmod_eq_emod_of_nonneg ha
  have hfits : -limit ≤ a.tmod b ∧ a.tmod b < limit := by omega
  exact (step_val hfits).trans (by rw [htmod])

theorem divEuclid_val (h : -limit ≤ a / b ∧ a / b < limit) :
    divEuclid (val a : Arith limit) (val b) = val (a / b) :=
  step_val h

theorem remEuclid_val (h : -limit ≤ a % b ∧ a % b < limit) :
    remEuclid (val a : Arith limit) (val b) = val (a % b) :=
  step_val h

end Arith

end Refix.Foundation
