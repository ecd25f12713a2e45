import Refix.Foundation.Search

/-!
# Incremental Readers

An incremental reader keeps a buffer that its caller appends to, and cuts one piece after
another off the front of it, or waits. This file is about any such reader: how its calls
interleave, what draining the buffer returns, and when the way the input was fed makes no
difference.

The key notion is `Cutter.Early`: a cut made on a buffer leaves what a caller observes of the
rest of the input as it would have been, had more elements been buffered at the cut. It asks
for less than the same cut on the longer buffer, so that a reader whose pieces grow with its
buffer, but which falls into step again, is covered too.
-/

namespace Refix.Foundation

variable {α β γ : Type*}

/-- A reader of one piece at the front of a buffer: the piece and how many elements it takes,
at least one, or nothing until more elements arrive. -/
structure Cutter (α β : Type*) where
  cut : List α → Option (β × ℕ)
  pos : ∀ {xs b n}, cut xs = some (b, n) → 0 < n
  le : ∀ {xs b n}, cut xs = some (b, n) → n ≤ xs.length

namespace Cutter

variable (c : Cutter α β)

/-! ## Draining a buffer -/

/-- Every piece at the front of the buffer, each with its length, and what is left. -/
def drain (xs : List α) : List (β × ℕ) × List α :=
  match _h : c.cut xs with
  | none => ([], xs)
  | some (b, n) =>
    let rest := drain (xs.drop n)
    ((b, n) :: rest.1, rest.2)
termination_by xs.length
decreasing_by
  have hpos := c.pos _h
  have hle := c.le _h
  simp only [List.length_drop]
  omega

variable {c}

theorem drain_of_cut_eq_none {xs : List α} (h : c.cut xs = none) : c.drain xs = ([], xs) := by
  rw [drain]
  split
  · rfl
  · next b n heq => exact absurd (h ▸ heq) (by simp)

theorem drain_of_cut_eq_some {xs : List α} {b : β} {n : ℕ} (h : c.cut xs = some (b, n)) :
    c.drain xs = ((b, n) :: (c.drain (xs.drop n)).1, (c.drain (xs.drop n)).2) := by
  rw [drain]
  split
  · next heq => exact absurd (h ▸ heq) (by simp)
  · next b' n' heq =>
    obtain ⟨rfl, rfl⟩ := Prod.mk.inj (Option.some.inj (h.symm.trans heq))
    rfl

/-! ## Calls -/

/-- A call of the reader's user. -/
inductive Call (α : Type*) where
  | feed (xs : List α)
  | next

/-- The elements a list of calls feeds, in order. -/
def Call.fed : List (Call α) → List α
  | [] => []
  | .feed xs :: calls => xs ++ Call.fed calls
  | .next :: calls => Call.fed calls

variable (c) in
/-- The pieces a list of calls returns, the buffer being drained at the end, and what is
left then. -/
def run : List (Call α) → List α → List (β × ℕ) × List α
  | [], xs => c.drain xs
  | .feed ys :: calls, xs => run calls (xs ++ ys)
  | .next :: calls, xs =>
    match c.cut xs with
    | none => run calls xs
    | some (b, n) =>
      let rest := run calls (xs.drop n)
      ((b, n) :: rest.1, rest.2)

/-! ## Observing a run -/

/-- What an observer sees of consecutive pieces, given what it sees of one piece at an offset
of the input. -/
def observe (obs : ℕ → β → List γ) : ℕ → List (β × ℕ) → List γ
  | _, [] => []
  | offset, (b, n) :: pieces => obs offset b ++ observe obs (offset + n) pieces

variable (c) in
/-- Cutting a piece before more of the input is buffered changes neither what is observed of
the input nor what is left of it. -/
def Early (obs : ℕ → β → List γ) : Prop :=
  ∀ ⦃xs : List α⦄ ⦃b : β⦄ ⦃n : ℕ⦄, c.cut xs = some (b, n) → ∀ (offset : ℕ) (ys : List α),
    observe obs offset (c.drain (xs ++ ys)).1 =
        obs offset b ++ observe obs (offset + n) (c.drain (xs.drop n ++ ys)).1 ∧
      (c.drain (xs ++ ys)).2 = (c.drain (xs.drop n ++ ys)).2

/-- **However the input is fed, an observer sees what it sees when all of it is fed at
once.** -/
theorem observe_run {obs : ℕ → β → List γ} (hearly : c.Early obs) (calls : List (Call α))
    (xs : List α) (offset : ℕ) :
    observe obs offset (c.run calls xs).1 =
        observe obs offset (c.drain (xs ++ Call.fed calls)).1 ∧
      (c.run calls xs).2 = (c.drain (xs ++ Call.fed calls)).2 := by
  induction calls generalizing xs offset with
  | nil => simp [run, Call.fed]
  | cons call calls ih =>
    cases call with
    | feed ys =>
      simpa only [run, Call.fed, List.append_assoc] using ih (xs ++ ys) offset
    | next =>
      simp only [run, Call.fed]
      cases hcut : c.cut xs with
      | none => exact ih xs offset
      | some piece =>
        obtain ⟨b, n⟩ := piece
        -- the calls after the cut, and then the cut itself, see the rest of the input alike
        obtain ⟨hobs, hleft⟩ := ih (xs.drop n) (offset + n)
        obtain ⟨hcutObs, hcutLeft⟩ := hearly hcut offset (Call.fed calls)
        constructor
        · rw [observe, hobs, hcutObs]
        · rw [hleft, hcutLeft]

/-- What holds of every piece cut holds of every piece of a run. -/
theorem forall_mem_drain {P : β × ℕ → Prop}
    (hcut : ∀ xs b n, c.cut xs = some (b, n) → P (b, n)) (xs : List α) :
    ∀ piece ∈ (c.drain xs).1, P piece := by
  induction hlen : xs.length using Nat.strong_induction_on generalizing xs with
  | _ len ih =>
    cases h : c.cut xs with
    | none => simp [drain_of_cut_eq_none h]
    | some piece =>
      obtain ⟨b, n⟩ := piece
      have hpos := c.pos h
      have hle := c.le h
      have hrest := ih (xs.drop n).length (by simp only [List.length_drop]; omega) (xs.drop n) rfl
      rw [drain_of_cut_eq_some h]
      exact List.forall_mem_cons.mpr ⟨hcut xs b n h, hrest⟩

theorem forall_mem_run {P : β × ℕ → Prop}
    (hcut : ∀ xs b n, c.cut xs = some (b, n) → P (b, n)) (calls : List (Call α))
    (xs : List α) : ∀ piece ∈ (c.run calls xs).1, P piece := by
  induction calls generalizing xs with
  | nil => exact forall_mem_drain hcut xs
  | cons call calls ih =>
    cases call with
    | feed ys => exact ih (xs ++ ys)
    | next =>
      simp only [run]
      cases h : c.cut xs with
      | none => exact ih xs
      | some piece =>
        obtain ⟨b, n⟩ := piece
        exact List.forall_mem_cons.mpr ⟨hcut xs b n h, ih (xs.drop n)⟩

/-! ## What is cut off step by step -/

/-- Where the cutter cuts pieces off the front that stay within `front`, draining goes on
behind it as if `front` had not been there. -/
theorem drain_front {P : β → Prop} {front rest : List α}
    (h : ∀ k < front.length, ∃ b n, c.cut ((front ++ rest).drop k) = some (b, n) ∧
      k + n ≤ front.length ∧ P b) :
    ∃ pieces, c.drain (front ++ rest) = (pieces ++ (c.drain rest).1, (c.drain rest).2) ∧
      (∀ piece ∈ pieces, P piece.1) ∧ (pieces.map (·.2)).sum = front.length := by
  induction hlen : front.length using Nat.strong_induction_on generalizing front with
  | _ len ih =>
    subst hlen
    cases front with
    | nil => exact ⟨[], by simp⟩
    | cons x xs =>
      obtain ⟨b, n, hcut, hwithin, hb⟩ := h 0 (Nat.succ_pos _)
      rw [List.drop_zero] at hcut
      rw [Nat.zero_add] at hwithin
      have hpos := c.pos hcut
      have hdrop : ((x :: xs) ++ rest).drop n = (x :: xs).drop n ++ rest :=
        List.drop_append_of_le_length hwithin
      have hlength : ((x :: xs).drop n).length = (x :: xs).length - n := List.length_drop
      -- the rest of the front is cut as before, `n` further on
      have hbehind : ∀ k < ((x :: xs).drop n).length, ∃ b n',
          c.cut (((x :: xs).drop n ++ rest).drop k) = some (b, n') ∧
            k + n' ≤ ((x :: xs).drop n).length ∧ P b := by
        intro k hk
        obtain ⟨b', n', hcut', hwithin', hb'⟩ := h (n + k) (by omega)
        refine ⟨b', n', ?_, by omega, hb'⟩
        rw [← hdrop, List.drop_drop]
        exact hcut'
      obtain ⟨pieces, hdrain, hpieces, hsum⟩ := ih ((x :: xs).drop n).length (by omega) hbehind rfl
      refine ⟨(b, n) :: pieces, ?_, List.forall_mem_cons.mpr ⟨hb, hpieces⟩, ?_⟩
      · rw [drain_of_cut_eq_some hcut, hdrop, hdrain, List.cons_append]
      · rw [List.map_cons, List.sum_cons, hsum, hlength]
        exact Nat.add_sub_cancel' hwithin

theorem observe_append (obs : ℕ → β → List γ) (pieces pieces' : List (β × ℕ)) (offset : ℕ) :
    observe obs offset (pieces ++ pieces') =
      observe obs offset pieces ++ observe obs (offset + (pieces.map (·.2)).sum) pieces' := by
  induction pieces generalizing offset with
  | nil => simp [observe]
  | cons piece pieces ih => simp [observe, ih, Nat.add_assoc]

/-! ## Nothing is lost -/

variable {bytes : β → List α}

theorem flatten_drain (hbytes : ∀ xs b n, c.cut xs = some (b, n) → bytes b = xs.take n)
    (xs : List α) : ((c.drain xs).1.map (bytes ·.1)).flatten ++ (c.drain xs).2 = xs := by
  induction hlen : xs.length using Nat.strong_induction_on generalizing xs with
  | _ len ih =>
    cases hcut : c.cut xs with
    | none => simp [drain_of_cut_eq_none hcut]
    | some piece =>
      obtain ⟨b, n⟩ := piece
      have hpos := c.pos hcut
      have hle := c.le hcut
      have hrest := ih (xs.drop n).length (by simp only [List.length_drop]; omega) (xs.drop n) rfl
      rw [drain_of_cut_eq_some hcut]
      simp only [List.map_cons, List.flatten_cons, List.append_assoc, hrest, hbytes xs b n hcut,
        List.take_append_drop]

/-- **The pieces of a run and what is left are the input**, if each piece is what its cut took
off the buffer. -/
theorem flatten_run (hbytes : ∀ xs b n, c.cut xs = some (b, n) → bytes b = xs.take n)
    (calls : List (Call α)) (xs : List α) :
    ((c.run calls xs).1.map (bytes ·.1)).flatten ++ (c.run calls xs).2 =
      xs ++ Call.fed calls := by
  induction calls generalizing xs with
  | nil => simpa [run, Call.fed] using flatten_drain hbytes xs
  | cons call calls ih =>
    cases call with
    | feed ys => simpa only [run, Call.fed, List.append_assoc] using ih (xs ++ ys)
    | next =>
      simp only [run, Call.fed]
      cases hcut : c.cut xs with
      | none => exact ih xs
      | some piece =>
        obtain ⟨b, n⟩ := piece
        simp only [List.map_cons, List.flatten_cons, List.append_assoc, ih (xs.drop n),
          hbytes xs b n hcut]
        rw [← List.append_assoc, List.take_append_drop]

end Cutter

end Refix.Foundation
