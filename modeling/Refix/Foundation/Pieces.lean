import Refix.Foundation.Incremental

/-!
# Readers of an Input That Ends

An incremental reader often cuts differently once it knows that no more input comes: what had
to wait is decided then. Such a reader is a pair of cutters, an open one `c` for as long as
more input may come, and a closing one `e`.

The rules here carry what one cut does over to whole runs: a cut that stands on a longer
buffer (`Stands`) makes the way the input is fed irrelevant, and a relation between an input
and its pieces that each cut extends holds of the whole run (`runTo_induction`).
-/

namespace Refix.Foundation.Cutter

variable {α β : Type*} (c e : Cutter α β)

/-- The pieces a list of calls returns, the input being ended and drained after them, and what
is left then. -/
def runTo : List (Call α) → List α → List (β × ℕ) × List α
  | [], xs => e.drain xs
  | .feed ys :: calls, xs => runTo calls (xs ++ ys)
  | .next :: calls, xs =>
    match c.cut xs with
    | none => runTo calls xs
    | some (b, n) =>
      let rest := runTo calls (xs.drop n)
      ((b, n) :: rest.1, rest.2)

/-- The buffers that draining `xs` makes a cut on. -/
def buffers (xs : List α) : List (List α) :=
  match _h : c.cut xs with
  | none => [xs]
  | some (_, n) => xs :: buffers (xs.drop n)
termination_by xs.length
decreasing_by
  have hpos := c.pos _h
  have hle := c.le _h
  simp only [List.length_drop]
  omega

/-- The pieces cut when the input is fed in `parts`, the buffer being drained after each, and
once more when the input has ended. -/
def runParts : List (List α) → List α → List (β × ℕ)
  | [], xs => (e.drain xs).1
  | ys :: parts, xs =>
    let drained := c.drain (xs ++ ys)
    drained.1 ++ runParts parts drained.2

/-- The buffers that are cut while parts are still to be fed. -/
def openBuffers : List (List α) → List α → List (List α)
  | [], _ => []
  | [_], _ => []
  | ys :: zs :: parts, xs =>
    c.buffers (xs ++ ys) ++ openBuffers (zs :: parts) (c.drain (xs ++ ys)).2

/-- What the open cutter cuts off `xs`, if anything, the closing one cuts off any longer
buffer. -/
def Stands (xs : List α) : Prop :=
  ∀ ⦃b : β⦄ ⦃n : ℕ⦄, c.cut xs = some (b, n) → ∀ ys, e.cut (xs ++ ys) = some (b, n)

variable {c e}

theorem buffers_of_cut_eq_none {xs : List α} (h : c.cut xs = none) : c.buffers xs = [xs] := by
  rw [buffers]
  split
  · rfl
  · next heq => exact absurd (h.symm.trans heq) (by simp)

theorem buffers_of_cut_eq_some {xs : List α} {b : β} {n : ℕ} (h : c.cut xs = some (b, n)) :
    c.buffers xs = xs :: c.buffers (xs.drop n) := by
  rw [buffers]
  split
  · next heq => exact absurd (h.symm.trans heq) (by simp)
  · next heq =>
    obtain ⟨-, rfl⟩ := Prod.mk.inj (Option.some.inj (h.symm.trans heq))
    rfl

theorem cut_nil : c.cut [] = none := by
  cases h : c.cut [] with
  | none => rfl
  | some piece =>
    have hpos := c.pos h
    have hle := c.le h
    simp only [List.length_nil] at hle
    omega

/-! ## Cuts that stand -/

/-- **A buffer may be drained before more is fed**, if every cut made on the way stands. -/
theorem drain_append {xs : List α} (hstands : ∀ zs ∈ c.buffers xs, Stands c e zs)
    (ys : List α) :
    e.drain (xs ++ ys) =
      ((c.drain xs).1 ++ (e.drain ((c.drain xs).2 ++ ys)).1,
        (e.drain ((c.drain xs).2 ++ ys)).2) := by
  induction hlen : xs.length using Nat.strong_induction_on generalizing xs with
  | _ len ih =>
    cases hcut : c.cut xs with
    | none => rw [drain_of_cut_eq_none hcut, List.nil_append]
    | some piece =>
      obtain ⟨b, n⟩ := piece
      have hpos := c.pos hcut
      have hle := c.le hcut
      rw [buffers_of_cut_eq_some hcut, List.forall_mem_cons] at hstands
      have hlonger := hstands.1 hcut ys
      have hrest := ih (xs.drop n).length (by simp only [List.length_drop]; omega) hstands.2 rfl
      rw [drain_of_cut_eq_some hlonger, drain_of_cut_eq_some hcut,
        List.drop_append_of_le_length hle, hrest]
      rfl

/-- **It makes no difference where the input is split**, if every cut made while parts are
still to be fed stands. -/
theorem runParts_eq {parts : List (List α)} {xs : List α} (hne : parts ≠ [])
    (hstands : ∀ zs ∈ c.openBuffers parts xs, Stands c c zs) :
    c.runParts e parts xs = c.runParts e [parts.flatten] xs := by
  induction parts generalizing xs with
  | nil => exact absurd rfl hne
  | cons ys parts ih =>
    cases parts with
    | nil => simp
    | cons zs parts =>
      rw [openBuffers, List.forall_mem_append] at hstands
      -- first all the parts after `ys`, then what was drained before them
      have hrest := ih (by simp) hstands.2
      have hfirst := drain_append hstands.1 (zs :: parts).flatten
      rw [runParts, hrest]
      simp only [runParts]
      rw [show (ys :: zs :: parts).flatten = ys ++ (zs :: parts).flatten from rfl,
        ← List.append_assoc xs, hfirst, List.append_assoc]

/-- **The first piece of a run.** Where the closing cutter cuts a piece off the whole input, and the
open one cuts nothing else off any front of it, calls in any order return this piece first, and
then what calls on a fresh buffer return that feed the rest. -/
theorem runTo_cut {calls : List (Call α)} {xs : List α} {b : β} {n : ℕ}
    (hcut : e.cut (xs ++ Call.fed calls) = some (b, n))
    (hfront : ∀ front, front <+: xs ++ Call.fed calls → ∀ piece, c.cut front = some piece →
      piece = (b, n)) :
    ∃ calls', Call.fed calls' = (xs ++ Call.fed calls).drop n ∧
      (c.runTo e calls xs).1 = (b, n) :: (c.runTo e calls' []).1 := by
  induction calls generalizing xs with
  | nil =>
    rw [Call.fed, List.append_nil] at hcut ⊢
    refine ⟨[.feed (xs.drop n)], by simp [Call.fed], ?_⟩
    rw [runTo, drain_of_cut_eq_some hcut, runTo, runTo, List.nil_append]
  | cons call calls ih =>
    cases call with
    | feed ys =>
      rw [Call.fed, ← List.append_assoc] at hcut hfront ⊢
      exact ih hcut hfront
    | next =>
      rw [Call.fed] at hcut hfront ⊢
      rw [runTo]
      cases h : c.cut xs with
      | none => exact ih hcut hfront
      | some piece =>
        obtain rfl := hfront xs (List.prefix_append ..) piece h
        -- the piece is cut here, and the calls go on with what is left of the buffer
        refine ⟨.feed (xs.drop n) :: calls, ?_, ?_⟩
        · rw [Call.fed, List.drop_append_of_le_length (c.le h)]
        · rw [runTo, List.nil_append]

/-- Nothing is returned where nothing is fed. -/
theorem runTo_of_fed_eq_nil {calls : List (Call α)} (h : Call.fed calls = []) :
    c.runTo e calls [] = ([], []) := by
  induction calls with
  | nil => rw [runTo, drain_of_cut_eq_none cut_nil]
  | cons call calls ih =>
    cases call with
    | feed ys =>
      rw [Call.fed, List.append_eq_nil_iff] at h
      rw [runTo, h.1]
      exact ih h.2
    | next =>
      rw [runTo, cut_nil]
      exact ih h

/-! ## Relations between an input and its pieces -/

/-- A relation that holds where nothing more is cut, and that each cut extends, holds of what
draining returns. -/
theorem drain_induction {R : List α → List (β × ℕ) → Prop}
    (stop : ∀ xs, c.cut xs = none → R xs [])
    (cut : ∀ xs b n pieces, c.cut xs = some (b, n) → R (xs.drop n) pieces →
      R xs ((b, n) :: pieces)) (xs : List α) : R xs (c.drain xs).1 := by
  induction hlen : xs.length using Nat.strong_induction_on generalizing xs with
  | _ len ih =>
    cases hcut : c.cut xs with
    | none =>
      rw [drain_of_cut_eq_none hcut]
      exact stop xs hcut
    | some piece =>
      obtain ⟨b, n⟩ := piece
      have hpos := c.pos hcut
      have hle := c.le hcut
      rw [drain_of_cut_eq_some hcut]
      exact cut xs b n _ hcut (ih _ (by simp only [List.length_drop]; omega) (xs.drop n) rfl)

/-- **A relation between an input and its pieces holds of every run** if it holds where the
input ends and nothing is cut, and if each cut extends it, made on a front of the input. -/
theorem runTo_induction {R : List α → List (β × ℕ) → Prop}
    (stop : ∀ xs, e.cut xs = none → R xs [])
    (closing : ∀ xs b n pieces, e.cut xs = some (b, n) → R (xs.drop n) pieces →
      R xs ((b, n) :: pieces))
    (front : ∀ xs ys b n pieces, c.cut xs = some (b, n) → R (xs.drop n ++ ys) pieces →
      R (xs ++ ys) ((b, n) :: pieces))
    (calls : List (Call α)) (xs : List α) : R (xs ++ Call.fed calls) (c.runTo e calls xs).1 := by
  induction calls generalizing xs with
  | nil =>
    rw [Call.fed, List.append_nil]
    exact drain_induction stop closing xs
  | cons call calls ih =>
    cases call with
    | feed ys =>
      rw [Call.fed, ← List.append_assoc]
      exact ih (xs ++ ys)
    | next =>
      rw [Call.fed, runTo]
      cases h : c.cut xs with
      | none => exact ih xs
      | some piece =>
        obtain ⟨b, n⟩ := piece
        exact front xs _ b n _ h (ih (xs.drop n))

end Refix.Foundation.Cutter
