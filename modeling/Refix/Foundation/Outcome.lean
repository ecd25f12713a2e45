import Mathlib.Logic.Basic

/-!
# Outcomes of Fallible Computations

What is known of a computation in `Except`: a postcondition of its result, and a condition on
every error it may end with. The rules follow the computation's own structure, so that the
outcome of a `do` block is put together from those of its steps.
-/

namespace Refix.Foundation

variable {ε α β : Type}

/-- A computation that ends with a result `post` holds of, or with an error `fail` holds of. -/
def Outcome (fail : ε → Prop) (post : α → Prop) : Except ε α → Prop
  | .ok a => post a
  | .error e => fail e

variable {fail : ε → Prop} {post : α → Prop} {post' : β → Prop}

@[simp] theorem outcome_ok {a : α} : Outcome fail post (.ok a) ↔ post a := Iff.rfl

@[simp] theorem outcome_error {e : ε} : Outcome fail post (.error e : Except ε α) ↔ fail e :=
  Iff.rfl

@[simp] theorem outcome_pure {a : α} : Outcome fail post (pure a : Except ε α) ↔ post a := Iff.rfl

/-- A check before the result. -/
theorem outcome_ite {c : Prop} [Decidable c] {a : α} {e : ε} (hfail : fail e) (hpost : post a) :
    Outcome fail post (if c then .error e else .ok a) := by
  split
  · exact hfail
  · exact hpost

/-- Nothing is known of a result but that it is one. -/
theorem outcome_self (x : Except ε α) : Outcome (fun _ => True) (fun _ => True) x := by
  cases x <;> trivial

/-- One step after another. -/
theorem Outcome.bind {x : Except ε α} {f : α → Except ε β} (h : Outcome fail post x)
    (hnext : ∀ a, x = .ok a → post a → Outcome fail post' (f a)) :
    Outcome fail post' (x >>= f) := by
  cases x with
  | ok a => exact hnext a rfl h
  | error e => exact h

theorem Outcome.mono {x : Except ε α} {strong : α → Prop} (h : Outcome fail strong x)
    (hpost : ∀ a, strong a → post a) : Outcome fail post x := by
  cases x with
  | ok a => exact hpost a h
  | error e => exact h

theorem Outcome.imp {x : Except ε α} {fail' : ε → Prop} {post' : α → Prop}
    (h : Outcome fail post x) (hfail : ∀ e, fail e → fail' e) (hpost : ∀ a, post a → post' a) :
    Outcome fail' post' x := by
  cases x with
  | ok a => exact hpost a h
  | error e => exact hfail e h

theorem Outcome.and {x : Except ε α} {other : α → Prop} (h : Outcome fail post x)
    (h' : Outcome fail other x) : Outcome fail (fun a => post a ∧ other a) x := by
  cases x with
  | ok a => exact ⟨h, h'⟩
  | error e => exact h

theorem Outcome.of_eq_ok {x : Except ε α} {a : α} (h : Outcome fail post x) (hx : x = .ok a) :
    post a := by
  rw [hx] at h
  exact h

theorem Outcome.of_eq_error {x : Except ε α} {e : ε} (h : Outcome fail post x)
    (hx : x = .error e) : fail e := by
  rw [hx] at h
  exact h

/-- A loop of checks. -/
theorem Outcome.forM {x : α → Except ε PUnit} {good : α → Prop} {xs : List α}
    (h : ∀ a ∈ xs, Outcome fail (fun _ => good a) (x a)) :
    Outcome fail (fun _ => ∀ a ∈ xs, good a) (xs.forM x) := by
  induction xs with
  | nil => exact List.forall_mem_nil _
  | cons a xs ih =>
    rw [List.forM_eq_forM, List.forM_cons]
    refine (h a List.mem_cons_self).bind fun _ _ ha => ?_
    rw [List.forM_eq_forM] at ih
    have hrest := ih fun b hb => h b (List.mem_cons_of_mem a hb)
    exact hrest.mono fun _ hxs => List.forall_mem_cons.mpr ⟨ha, hxs⟩

/-- A loop with a state: what one step keeps, of the elements before it and the state, the whole
loop keeps. -/
theorem Outcome.foldlM {σ : Type} {step : σ → α → Except ε σ} {xs : List α}
    (keeps : List α → σ → Prop) (h : ∀ done x rest, xs = done ++ x :: rest → ∀ s, keeps done s →
      Outcome fail (keeps (done ++ [x])) (step s x)) {s : σ} (hs : keeps [] s) :
    Outcome fail (keeps xs) (xs.foldlM step s) := by
  have hfrom : ∀ rest done s, xs = done ++ rest → keeps done s →
      Outcome fail (keeps xs) (rest.foldlM step s) := by
    intro rest
    induction rest with
    | nil =>
      intro done s hxs hs
      rw [List.append_nil] at hxs
      rw [hxs]
      exact hs
    | cons x rest ih =>
      intro done s hxs hs
      rw [List.foldlM_cons]
      refine (h done x rest hxs s hs).bind fun s' _ hs' => ih (done ++ [x]) s' ?_ hs'
      rw [List.append_assoc, List.singleton_append, hxs]
  exact hfrom xs [] s rfl hs

/-- A loop that grows its state: what it does for one element is there from then on. -/
theorem Outcome.foldlM_each {σ : Type} {step : σ → α → Except ε σ} {xs : List α} {s : σ}
    (grows : σ → σ → Prop) (good : α → σ → Prop) (hs : grows s s)
    (htrans : ∀ s' s'', grows s s' → grows s' s'' → grows s s'')
    (hkeeps : ∀ x s' s'', good x s' → grows s' s'' → good x s'')
    (hstep : ∀ x ∈ xs, ∀ s', grows s s' →
      Outcome fail (fun s'' => grows s' s'' ∧ good x s'') (step s' x)) :
    Outcome fail (fun s' => grows s s' ∧ ∀ x ∈ xs, good x s') (xs.foldlM step s) := by
  refine Outcome.foldlM (fun done s' => grows s s' ∧ ∀ x ∈ done, good x s') ?_
    ⟨hs, List.forall_mem_nil _⟩
  rintro done x rest hsplit s' ⟨hgrows, hdone⟩
  have hx : x ∈ xs := by simp [hsplit]
  refine (hstep x hx s' hgrows).mono fun s'' ⟨hgrows', hgood⟩ => ⟨htrans _ _ hgrows hgrows', ?_⟩
  simp only [List.mem_append, List.mem_singleton]
  rintro y (hy | rfl)
  · exact hkeeps _ _ _ (hdone y hy) hgrows'
  · exact hgood

/-- A computation that succeeds has run each of its steps. -/
theorem ok_bind (a : α) (f : α → Except ε β) : (Except.ok a >>= f) = f a := rfl

theorem bind_eq_ok {x : Except ε α} {f : α → Except ε β} {b : β} :
    (x >>= f) = .ok b ↔ ∃ a, x = .ok a ∧ f a = .ok b := by
  cases x with
  | ok a => exact ⟨fun h => ⟨a, rfl, h⟩, fun ⟨_, hx, h⟩ => by cases hx; exact h⟩
  | error e => exact ⟨nofun, fun ⟨_, hx, _⟩ => nomatch hx⟩

end Refix.Foundation
