import Refix.Foundation.Search

/-!
# Computations That May Panic

Slices, indices, subtractions and conversions that check their operands and panic where these
are out of range. A program written with them panics exactly where its source would; where
the operands are in range each operation is the plain one.
-/

namespace Refix.Foundation

inductive Panic where
  | outOfBounds
  | underflow
  /-- A conversion that would lose bits. -/
  | inexact
  /-- A loop that goes on for too long. -/
  | outOfFuel
  deriving DecidableEq, Repr

namespace Checked

variable {α : Type*}

/-- `xs[i]` -/
def index (xs : List α) (i : ℕ) : Except Panic α :=
  match xs[i]? with
  | some x => .ok x
  | none => .error .outOfBounds

/-- `&xs[lo..hi]` -/
def slice (xs : List α) (lo hi : ℕ) : Except Panic (List α) :=
  if lo ≤ hi ∧ hi ≤ xs.length then .ok (Foundation.slice xs lo hi) else .error .outOfBounds

/-- `&xs[lo..]` -/
def sliceFrom (xs : List α) (lo : ℕ) : Except Panic (List α) :=
  if lo ≤ xs.length then .ok (xs.drop lo) else .error .outOfBounds

/-- `&xs[..hi]` -/
def sliceTo (xs : List α) (hi : ℕ) : Except Panic (List α) :=
  if hi ≤ xs.length then .ok (xs.take hi) else .error .outOfBounds

/-- `a - b` -/
def sub (a b : ℕ) : Except Panic ℕ := if b ≤ a then .ok (a - b) else .error .underflow

/-- A number that is stored in a type with the largest number `max`. -/
def exact (max n : ℕ) : Except Panic ℕ := if n ≤ max then .ok n else .error .inexact

theorem index_eq {xs : List α} {i : ℕ} {x : α} (h : xs[i]? = some x) : index xs i = .ok x := by
  rw [index, h]

theorem slice_eq {xs : List α} {lo hi : ℕ} (hlo : lo ≤ hi) (hhi : hi ≤ xs.length) :
    slice xs lo hi = .ok (Foundation.slice xs lo hi) :=
  if_pos ⟨hlo, hhi⟩

theorem sliceFrom_eq {xs : List α} {lo : ℕ} (h : lo ≤ xs.length) :
    sliceFrom xs lo = .ok (xs.drop lo) :=
  if_pos h

theorem sliceTo_eq {xs : List α} {hi : ℕ} (h : hi ≤ xs.length) :
    sliceTo xs hi = .ok (xs.take hi) :=
  if_pos h

theorem sub_eq {a b : ℕ} (h : b ≤ a) : sub a b = .ok (a - b) := if_pos h

theorem exact_eq {max n : ℕ} (h : n ≤ max) : exact max n = .ok n := if_pos h

@[simp] theorem bind_ok {α β : Type} (a : α) (f : α → Except Panic β) :
    (Except.ok a >>= f) = f a := rfl

@[simp] theorem pure_eq {α : Type} (a : α) : (pure a : Except Panic α) = .ok a := rfl

end Checked

end Refix.Foundation
