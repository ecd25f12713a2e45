import Mathlib.Data.List.Induction
import Mathlib.Data.List.Nodup

/-!
# The First Repeated Key of a List

A loop that enters every element into a map under a key, and stops at the first key that is
taken, finds nothing exactly where the keys are all different.
-/

namespace Refix.Foundation

variable {α κ : Type*} [DecidableEq κ]

/-- The first element whose key one of `seen` or an earlier element has, with that one. -/
def firstRepeatFrom (key : α → κ) (seen : List α) : List α → Option (α × α)
  | [] => none
  | x :: xs =>
    match seen.find? fun y => key y == key x with
    | some first => some (first, x)
    | none => firstRepeatFrom key (seen ++ [x]) xs

def firstRepeat (key : α → κ) (xs : List α) : Option (α × α) := firstRepeatFrom key [] xs

theorem firstRepeatFrom_eq_none_iff {key : α → κ} {seen xs : List α}
    (hseen : (seen.map key).Nodup) :
    firstRepeatFrom key seen xs = none ↔ ((seen ++ xs).map key).Nodup := by
  induction xs generalizing seen with
  | nil => simpa [firstRepeatFrom] using hseen
  | cons x xs ih =>
    rw [firstRepeatFrom]
    cases hfind : seen.find? fun y => key y == key x with
    | some first =>
      have hkey : key first = key x := by simpa using List.find?_some hfind
      have hmem := List.mem_of_find?_eq_some hfind
      constructor
      · nofun
      · intro hnodup
        rw [List.map_append, List.nodup_append] at hnodup
        exact absurd hkey (hnodup.2.2 _ (List.mem_map_of_mem hmem) _ (by simp))
    | none =>
      have hfresh : key x ∉ seen.map key := by
        simpa [List.find?_eq_none] using hfind
      have hseen' : ((seen ++ [x]).map key).Nodup := by
        rw [List.map_append, List.map_singleton]
        exact List.Nodup.append hseen (List.nodup_singleton _) (by simpa using hfresh)
      simp only
      rw [ih hseen', List.append_assoc, List.singleton_append]

/-- **Nothing repeats exactly where the keys are all different.** -/
theorem firstRepeat_eq_none_iff {key : α → κ} {xs : List α} :
    firstRepeat key xs = none ↔ (xs.map key).Nodup :=
  firstRepeatFrom_eq_none_iff List.nodup_nil

theorem firstRepeatFrom_eq_some {key : α → κ} {seen xs : List α} {first second : α}
    (h : firstRepeatFrom key seen xs = some (first, second)) :
    key first = key second ∧ [first, second].Sublist (seen ++ xs) := by
  induction xs generalizing seen with
  | nil => cases h
  | cons x xs ih =>
    rw [firstRepeatFrom] at h
    cases hfind : seen.find? fun y => key y == key x with
    | some found =>
      rw [hfind] at h
      cases h
      refine ⟨by simpa using List.find?_some hfind, ?_⟩
      have hfirst := List.singleton_sublist.mpr (List.mem_of_find?_eq_some hfind)
      have hsecond := List.singleton_sublist.mpr (show second ∈ second :: xs from List.mem_cons_self)
      exact hfirst.append hsecond
    | none =>
      rw [hfind] at h
      have hrest := ih h
      rwa [List.append_assoc, List.singleton_append] at hrest

/-- What is found are two elements of one key, in the order of the list. -/
theorem firstRepeat_eq_some {key : α → κ} {xs : List α} {first second : α}
    (h : firstRepeat key xs = some (first, second)) :
    key first = key second ∧ [first, second].Sublist xs :=
  firstRepeatFrom_eq_some h

/-! ## The first of each key -/

/-- Whether no earlier element has the key of the element at a position. -/
def isFirst (key : α → κ) (xs : List α) (entry : α × ℕ) : Bool :=
  (xs.take entry.2).all (key · != key entry.1)

/-- The first element of each key, in order. -/
def firsts (key : α → κ) (xs : List α) : List α :=
  (xs.zipIdx.filter (isFirst key xs)).map Prod.fst

/-- Every other element, in order, with the first one that has its key. -/
def repeats (key : α → κ) (xs : List α) : List (α × α) :=
  (xs.zipIdx.filter (!isFirst key xs ·)).map fun entry =>
    ((xs.find? (key · == key entry.1)).getD entry.1, entry.1)

theorem isFirst_append {key : α → κ} {xs : List α} (x : α) {entry : α × ℕ}
    (h : entry ∈ xs.zipIdx) : isFirst key (xs ++ [x]) entry = isFirst key xs entry := by
  have hlt := (List.mem_zipIdx' h).1
  rw [isFirst, isFirst, List.take_append_of_le_length (Nat.le_of_lt hlt)]

theorem isFirst_last (key : α → κ) (xs : List α) (x : α) :
    isFirst key (xs ++ [x]) (x, xs.length) = (xs.find? (key · == key x)).isNone := by
  rw [isFirst, List.take_left' rfl, Bool.eq_iff_iff]
  simp [List.all_eq_true]

theorem zipIdx_concat (xs : List α) (x : α) : (xs ++ [x]).zipIdx = xs.zipIdx ++ [(x, xs.length)] := by
  simp [List.zipIdx_append]

/-- A next element is one of the first where none before it has its key. -/
theorem firsts_concat (key : α → κ) (xs : List α) (x : α) :
    firsts key (xs ++ [x]) =
      firsts key xs ++ if (xs.find? (key · == key x)).isNone then [x] else [] := by
  have hxs : xs.zipIdx.filter (isFirst key (xs ++ [x])) = xs.zipIdx.filter (isFirst key xs) :=
    List.filter_congr fun _ => isFirst_append x
  rw [firsts, zipIdx_concat, List.filter_append, hxs, List.map_append, ← firsts,
    List.filter_singleton, isFirst_last]
  cases (xs.find? (key · == key x)).isNone <;> rfl

/-- Where one has its key, it is a repeat of that one. -/
theorem repeats_concat (key : α → κ) (xs : List α) (x : α) :
    repeats key (xs ++ [x]) =
      repeats key xs ++ ((xs.find? (key · == key x)).map fun first => (first, x)).toList := by
  have hxs : xs.zipIdx.filter (!isFirst key (xs ++ [x]) ·) = xs.zipIdx.filter (!isFirst key xs ·) :=
    List.filter_congr fun _ h => by rw [isFirst_append x h]
  have hfirst : ∀ entry ∈ xs.zipIdx, ((xs ++ [x]).find? (key · == key entry.1)).getD entry.1 =
      (xs.find? (key · == key entry.1)).getD entry.1 := by
    intro entry hentry
    have hmem := List.mem_of_getElem? (List.mem_zipIdx_iff_getElem?.mp hentry)
    obtain ⟨first, hsome⟩ : ∃ first, xs.find? (key · == key entry.1) = some first := by
      rw [← Option.isSome_iff_exists, List.find?_isSome]
      exact ⟨entry.1, hmem, by simp⟩
    rw [List.find?_append, hsome, Option.some_or]
  rw [repeats, zipIdx_concat, List.filter_append, hxs, List.map_append, List.filter_singleton,
    isFirst_last]
  congr 1
  · exact List.map_congr_left fun entry hentry => by
      rw [hfirst entry (List.mem_of_mem_filter hentry)]
  · cases hfind : xs.find? (key · == key x) with
    | none => rfl
    | some first => simp [List.find?_append, hfind]

/-- Every element is a first one or a repeat. -/
theorem length_firsts_add (key : α → κ) (xs : List α) :
    (firsts key xs).length + (repeats key xs).length = xs.length := by
  have hcount := List.length_eq_length_filter_add (l := xs.zipIdx) (isFirst key xs)
  rw [List.length_zipIdx] at hcount
  rw [firsts, repeats, List.length_map, List.length_map]
  exact hcount.symm

/-- Where the keys differ, every element is a first one. -/
theorem isFirst_of_nodup {key : α → κ} {xs : List α} (h : (xs.map key).Nodup) {entry : α × ℕ}
    (hentry : entry ∈ xs.zipIdx) : isFirst key xs entry = true := by
  have hget := List.mem_zipIdx_iff_getElem?.mp hentry
  obtain ⟨hlt, heq⟩ := List.getElem?_eq_some_iff.mp hget
  rw [isFirst, List.all_eq_true]
  intro x hx
  obtain ⟨k, hk, rfl⟩ := List.getElem_of_mem hx
  rw [bne_iff_ne, List.getElem_take, ← heq]
  rw [List.length_take] at hk
  intro hkey
  have hbefore : k < (xs.map key).length := by
    rw [List.length_map]
    omega
  have hat : entry.2 < (xs.map key).length := by rwa [List.length_map]
  have hsame : (xs.map key)[k] = (xs.map key)[entry.2] := by simpa using hkey
  have heqIndex := h.getElem_inj_iff.mp hsame
  omega

theorem firsts_of_nodup {key : α → κ} {xs : List α} (h : (xs.map key).Nodup) :
    firsts key xs = xs := by
  rw [firsts, List.filter_eq_self.mpr fun _ hentry => isFirst_of_nodup h hentry,
    List.zipIdx_map_fst]

theorem repeats_of_nodup {key : α → κ} {xs : List α} (h : (xs.map key).Nodup) :
    repeats key xs = [] := by
  have hnone : xs.zipIdx.filter (!isFirst key xs ·) = [] :=
    List.filter_eq_nil_iff.mpr fun _ hentry => by simp [isFirst_of_nodup h hentry]
  rw [repeats, hnone, List.map_nil]

/-- An element is found by its key, where the keys differ. -/
theorem find?_key_eq {μ : Type*} [BEq μ] [LawfulBEq μ] (key : α → μ) {xs : List α} (h : (xs.map key).Nodup) {x : α} (hx : x ∈ xs) :
    xs.find? (key · == key x) = some x := by
  induction xs with
  | nil => cases hx
  | cons y xs ih =>
    rw [List.map_cons, List.nodup_cons] at h
    rcases List.mem_cons.mp hx with rfl | hx
    · exact List.find?_cons_of_pos BEq.rfl
    · have hne : (key y == key x) = false := by
        refine beq_false_of_ne fun heq => h.1 ?_
        exact heq ▸ List.mem_map_of_mem hx
      rw [List.find?_cons, hne]
      exact ih h.2 hx

/-- What is found is the element that qualifies, where only one does. -/
theorem find?_eq_some_iff_of_unique {p : α → Bool} {xs : List α}
    (h : ∀ x ∈ xs, ∀ y ∈ xs, p x = true → p y = true → x = y) {x : α} :
    xs.find? p = some x ↔ x ∈ xs ∧ p x = true := by
  constructor
  · intro hfind
    exact ⟨List.mem_of_find?_eq_some hfind, List.find?_some hfind⟩
  · rintro ⟨hx, hp⟩
    cases hfind : xs.find? p with
    | none => exact absurd hp (List.find?_eq_none.mp hfind x hx)
    | some y =>
      have heq := h y (List.mem_of_find?_eq_some hfind) x hx (List.find?_some hfind) hp
      rw [heq]

theorem mem_firsts {key : α → κ} {xs : List α} {x : α} (h : x ∈ firsts key xs) : x ∈ xs := by
  obtain ⟨entry, hentry, rfl⟩ := List.mem_map.mp h
  exact List.mem_of_getElem? (List.mem_zipIdx_iff_getElem?.mp (List.mem_of_mem_filter hentry))

/-- The first elements have different keys. -/
theorem nodup_firsts (key : α → κ) (xs : List α) : ((firsts key xs).map key).Nodup := by
  induction xs using List.reverseRecOn with
  | nil => exact List.nodup_nil
  | append_singleton xs x ih =>
    rw [firsts_concat]
    split
    · next hnone =>
      rw [List.map_append, List.map_singleton]
      refine List.Nodup.append ih (List.nodup_singleton _) ?_
      rw [List.disjoint_singleton, List.mem_map]
      rintro ⟨y, hy, hkey⟩
      rw [Option.isNone_iff_eq_none, List.find?_eq_none] at hnone
      exact hnone y (mem_firsts hy) (by simp [hkey])
    · rw [List.append_nil]
      exact ih

/-- A key is looked up in vain exactly where no entry has it. -/
theorem lookup_eq_none_iff_keys {β : Type*} {key : κ} {entries : List (κ × β)} :
    entries.lookup key = none ↔ key ∉ entries.map Prod.fst := by
  rw [List.lookup_eq_none_iff]
  constructor
  · intro h hmem
    obtain ⟨entry, hentry, rfl⟩ := List.mem_map.mp hmem
    simpa using h entry hentry
  · intro h entry hentry
    have hne : key ≠ entry.1 := fun heq => h (heq ▸ List.mem_map_of_mem hentry)
    simpa using hne

theorem mem_keys_of_lookup {β : Type*} {key : κ} {value : β} {entries : List (κ × β)}
    (h : entries.lookup key = some value) : key ∈ entries.map Prod.fst := by
  by_contra hmem
  rw [lookup_eq_none_iff_keys.mpr hmem] at h
  cases h

end Refix.Foundation
