import Mathlib

/-!
# Searching Lists by Offset

Scanners work on a buffer and offsets into it: they look for the next byte with a
property at or after an offset, count a bounded run, or cut out a range. This file
collects these searches over arbitrary lists, each with a characterisation by the
elements at its offsets, and shows what carries over from a list to a longer one that
begins with it.

Everything is stated for a prefix relation `xs <+: ys`, so one lemma covers both a buffer
that more elements were appended to and one that was cut.
-/

namespace Refix.Foundation

variable {α : Type*}

/-! ## Offsets below a common prefix -/

/-- A list and a longer one that begins with it agree at the offsets of the shorter one. -/
theorem getElem?_of_isPrefix {xs ys : List α} (h : xs <+: ys) {i : ℕ} (hi : i < xs.length) :
    ys[i]? = xs[i]? := by
  obtain ⟨zs, rfl⟩ := h
  exact List.getElem?_append_left hi

/-- An element of the shorter list stands at the same offset of the longer one. -/
theorem getElem?_eq_some_of_isPrefix {xs ys : List α} (h : xs <+: ys) {i : ℕ} {x : α}
    (hx : xs[i]? = some x) : ys[i]? = some x := by
  have hi : i < xs.length := (List.getElem?_eq_some_iff.mp hx).1
  rw [getElem?_of_isPrefix h hi, hx]

/-- Dropping the same number of elements keeps one list a beginning of the other. -/
theorem drop_isPrefix_drop {xs ys : List α} (h : xs <+: ys) (n : ℕ) :
    xs.drop n <+: ys.drop n := by
  obtain ⟨zs, rfl⟩ := h
  rw [List.drop_append]
  exact List.prefix_append ..

/-- A beginning of the shorter list is one of the longer list. -/
theorem take_eq_take_of_isPrefix {xs ys : List α} (h : xs <+: ys) {n : ℕ}
    (hn : n ≤ xs.length) : ys.take n = xs.take n := by
  obtain ⟨zs, rfl⟩ := h
  exact List.take_append_of_le_length hn

/-- Two beginnings of one list, the shorter of them first. -/
theorem take_isPrefix_take {xs ys : List α} (h : xs <+: ys) (n : ℕ) :
    xs.take n <+: ys.take n := by
  rcases Nat.le_total n xs.length with hn | hn
  · rw [take_eq_take_of_isPrefix h hn]
  · rw [List.take_of_length_le hn]
    have hlen : xs = ys.take xs.length := (List.prefix_iff_eq_take.mp h)
    rw [hlen]
    exact List.take_prefix_take_left hn

/-- A pattern in front of `xs` and an element it lacks stands in front of `xs` alone. -/
theorem isPrefix_of_isPrefix_append_cons {pat xs ys : List α} {x : α}
    (h : pat <+: xs ++ x :: ys) (hx : x ∉ pat) : pat <+: xs := by
  rcases Nat.le_total pat.length xs.length with hle | hle
  · exact List.prefix_of_prefix_length_le h (List.prefix_append ..) hle
  · by_cases heq : pat.length = xs.length
    · exact List.prefix_of_prefix_length_le h (List.prefix_append ..) heq.le
    · -- a longer pattern would hold `x` at the offset `xs.length`
      have hlt : xs.length < pat.length := by omega
      have hget := getElem?_of_isPrefix h hlt
      rw [List.getElem?_append_right le_rfl, Nat.sub_self, List.getElem?_cons_zero] at hget
      exact absurd (List.mem_of_getElem? hget.symm) hx

/-! ## Ranges -/

/-- The elements of `xs` at the offsets from `lo` up to, but not including, `hi`. -/
def slice (xs : List α) (lo hi : ℕ) : List α := (xs.take hi).drop lo

@[simp] theorem length_slice (xs : List α) (lo hi : ℕ) :
    (slice xs lo hi).length = min hi xs.length - lo := by
  simp [slice]

theorem getElem?_slice (xs : List α) {lo hi i : ℕ} (hi' : lo + i < hi) :
    (slice xs lo hi)[i]? = xs[lo + i]? := by
  simp only [slice, List.getElem?_drop]
  exact List.getElem?_take_of_lt hi'

/-- A range inside the shorter list is the same range of the longer one. -/
theorem slice_of_isPrefix {xs ys : List α} (h : xs <+: ys) {lo hi : ℕ}
    (hhi : hi ≤ xs.length) : slice ys lo hi = slice xs lo hi := by
  simp only [slice, take_eq_take_of_isPrefix h hhi]

/-- The range that a middle part takes up in a concatenation. -/
theorem slice_middle (xs ys zs : List α) :
    slice (xs ++ (ys ++ zs)) xs.length (xs.length + ys.length) = ys := by
  simp [slice, List.take_append]

/-- A range behind a known beginning is a range of the rest. -/
theorem slice_append_right (xs ys : List α) (lo hi : ℕ) :
    slice (xs ++ ys) (xs.length + lo) (xs.length + hi) = slice ys lo hi := by
  simp [slice, List.take_append, List.drop_append]

/-- A range is cut in two at any offset inside it. -/
theorem slice_append_slice (xs : List α) {lo mid hi : ℕ} (hlo : lo ≤ mid) (hhi : mid ≤ hi) :
    slice xs lo mid ++ slice xs mid hi = slice xs lo hi := by
  have htake : xs.take mid = (xs.take hi).take mid := by rw [List.take_take, min_eq_left hhi]
  simp only [slice]
  rw [htake]
  conv_rhs => rw [← List.take_append_drop mid (xs.take hi), List.drop_append]
  congr 1
  by_cases hlen : mid ≤ (xs.take hi).length
  · rw [List.length_take, min_eq_left hlen, Nat.sub_eq_zero_of_le hlo, List.drop_zero]
  · simp [List.drop_of_length_le (Nat.le_of_not_le hlen)]

/-! ## The first element with a property -/

/-- The offset of the first element with `p` at or after the offset `i`. -/
def findFrom (p : α → Bool) (xs : List α) (i : ℕ) : Option ℕ :=
  ((xs.drop i).findIdx? p).map (i + ·)

/-- A found offset is the first one at or after `i` whose element has `p`. -/
theorem findFrom_eq_some_iff {p : α → Bool} {xs : List α} {i j : ℕ} :
    findFrom p xs i = some j ↔
      i ≤ j ∧ (∃ x, xs[j]? = some x ∧ p x = true) ∧
        ∀ k x, i ≤ k → k < j → xs[k]? = some x → p x = false := by
  simp only [findFrom, Option.map_eq_some_iff, List.findIdx?_eq_some_iff_getElem]
  constructor
  · rintro ⟨r, ⟨hr, hp, hbefore⟩, rfl⟩
    have hlen : i + r < xs.length := by simpa [Nat.lt_sub_iff_add_lt'] using hr
    refine ⟨Nat.le_add_right i r, ⟨xs[i + r], by simp [hlen], by simpa using hp⟩, ?_⟩
    intro k x hik hkr hx
    obtain ⟨d, rfl⟩ := Nat.exists_eq_add_of_le hik
    have hd := hbefore d (by omega)
    obtain ⟨hk, hkx⟩ := List.getElem?_eq_some_iff.mp hx
    simp only [List.getElem_drop, hkx] at hd
    simpa using hd
  · rintro ⟨hij, ⟨x, hx, hpx⟩, hbefore⟩
    obtain ⟨d, rfl⟩ := Nat.exists_eq_add_of_le hij
    obtain ⟨hlen, hxd⟩ := List.getElem?_eq_some_iff.mp hx
    refine ⟨d, ⟨by simpa using by omega, by simpa [hxd] using hpx, ?_⟩, rfl⟩
    intro k hk
    have := hbefore (i + k) xs[i + k] (by omega) (by omega) (by simp)
    simpa using this

/-- Nothing is found exactly when no element at or after `i` has `p`. -/
theorem findFrom_eq_none_iff {p : α → Bool} {xs : List α} {i : ℕ} :
    findFrom p xs i = none ↔ ∀ k x, i ≤ k → xs[k]? = some x → p x = false := by
  simp only [findFrom, Option.map_eq_none_iff, List.findIdx?_eq_none_iff]
  constructor
  · intro h k x hik hx
    obtain ⟨d, rfl⟩ := Nat.exists_eq_add_of_le hik
    exact h x (List.mem_of_getElem? (i := d) (by simpa using hx))
  · intro h x hx
    obtain ⟨d, hd⟩ := List.mem_iff_getElem?.mp hx
    exact h (i + d) x (Nat.le_add_right i d) (by simpa using hd)

/-- A found offset lies inside the list. -/
theorem findFrom_lt {p : α → Bool} {xs : List α} {i j : ℕ} (h : findFrom p xs i = some j) :
    i ≤ j ∧ j < xs.length := by
  obtain ⟨hij, ⟨x, hx, _⟩, _⟩ := findFrom_eq_some_iff.mp h
  exact ⟨hij, (List.getElem?_eq_some_iff.mp hx).1⟩

/-- What is found in a list is found in every longer list that begins with it. -/
theorem findFrom_of_isPrefix {p : α → Bool} {xs ys : List α} (h : xs <+: ys) {i j : ℕ}
    (hj : findFrom p xs i = some j) : findFrom p ys i = some j := by
  obtain ⟨hij, ⟨x, hx, hpx⟩, hbefore⟩ := findFrom_eq_some_iff.mp hj
  have hlt : j < xs.length := (List.getElem?_eq_some_iff.mp hx).1
  refine findFrom_eq_some_iff.mpr ⟨hij, ⟨x, getElem?_eq_some_of_isPrefix h hx, hpx⟩, ?_⟩
  intro k y hik hkj hy
  exact hbefore k y hik hkj (by rw [← hy, getElem?_of_isPrefix h (by omega)])

/-- What is found in the longer list inside the shorter one is found in the shorter one. -/
theorem findFrom_of_isPrefix_of_lt {p : α → Bool} {xs ys : List α} (h : xs <+: ys) {i j : ℕ}
    (hj : findFrom p ys i = some j) (hlt : j < xs.length) : findFrom p xs i = some j := by
  obtain ⟨hij, ⟨x, hx, hpx⟩, hbefore⟩ := findFrom_eq_some_iff.mp hj
  rw [getElem?_of_isPrefix h hlt] at hx
  refine findFrom_eq_some_iff.mpr ⟨hij, ⟨x, hx, hpx⟩, ?_⟩
  intro k y hik hkj hy
  exact hbefore k y hik hkj (getElem?_eq_some_of_isPrefix h hy)

/-- Where the shorter list holds nothing, the longer one holds nothing before its end. -/
theorem le_of_findFrom_eq_none {p : α → Bool} {xs ys : List α} (h : xs <+: ys) {i j : ℕ}
    (hnone : findFrom p xs i = none) (hj : findFrom p ys i = some j) : xs.length ≤ j := by
  by_contra hlt
  rw [findFrom_of_isPrefix_of_lt h hj (by omega)] at hnone
  exact absurd hnone (by simp)

/-- Searching right after a known beginning is searching the rest. -/
theorem findFrom_append (p : α → Bool) (xs ys : List α) :
    findFrom p (xs ++ ys) xs.length = (ys.findIdx? p).map (xs.length + ·) := by
  simp [findFrom]

/-- The element that ends a run without `p` is found right behind the run. -/
theorem findFrom_append_run {p : α → Bool} (xs run ys : List α) {x : α}
    (hrun : ∀ y ∈ run, p y = false) (hx : p x = true) :
    findFrom p (xs ++ (run ++ x :: ys)) xs.length = some (xs.length + run.length) := by
  have hnone : run.findIdx? p = none := List.findIdx?_eq_none_iff.mpr hrun
  simp [findFrom_append, List.findIdx?_append, hnone, List.findIdx?_cons, hx]

/-- The search in concatenation form: a run without `p`, and then an element with it. -/
theorem findFrom_eq_some_iff_append {p : α → Bool} {xs : List α} {i j : ℕ} (hi : i ≤ xs.length) :
    findFrom p xs i = some j ↔
      ∃ run x ys, xs.drop i = run ++ x :: ys ∧ (∀ y ∈ run, p y = false) ∧ p x = true ∧
        j = i + run.length := by
  constructor
  · intro h
    simp only [findFrom, Option.map_eq_some_iff] at h
    obtain ⟨r, hr, rfl⟩ := h
    obtain ⟨hlt, hp, hbefore⟩ := List.findIdx?_eq_some_iff_getElem.mp hr
    refine ⟨(xs.drop i).take r, (xs.drop i)[r], (xs.drop i).drop (r + 1), ?_, ?_, hp, ?_⟩
    · rw [List.cons_getElem_drop_succ, List.take_append_drop]
    · intro y hy
      obtain ⟨k, hk, rfl⟩ := List.mem_take_iff_getElem.mp hy
      simpa using hbefore k (by omega)
    · simp only [List.length_take]
      omega
  · rintro ⟨run, x, ys, hdrop, hrun, hx, rfl⟩
    have hsplit : xs = xs.take i ++ (run ++ x :: ys) := by
      rw [← hdrop, List.take_append_drop]
    have hlen : (xs.take i).length = i := by simp [hi]
    calc findFrom p xs i = findFrom p (xs.take i ++ (run ++ x :: ys)) (xs.take i).length := by
          rw [hlen, ← hsplit]
      _ = some (i + run.length) := by rw [findFrom_append_run _ _ _ hrun hx, hlen]

theorem exists_takeWhile_append_cons [DecidableEq α] {xs : List α} {x : α} (h : x ∈ xs) :
    ∃ after, xs = xs.takeWhile (· != x) ++ x :: after := by
  induction xs with
  | nil => exact absurd h (List.not_mem_nil)
  | cons y ys ih =>
    by_cases hyx : y = x
    · exact ⟨ys, by simp [hyx]⟩
    · obtain ⟨after, hafter⟩ := ih (List.mem_of_ne_of_mem (Ne.symm hyx) h)
      refine ⟨after, ?_⟩
      have hkeep : (y != x) = true := by simpa using hyx
      rw [List.takeWhile_cons, hkeep, if_pos rfl, List.cons_append, ← hafter]

theorem takeWhile_append_cons_self [DecidableEq α] {run ys : List α} {x : α} (h : x ∉ run) :
    (run ++ x :: ys).takeWhile (· != x) = run := by
  have hrun : ∀ y ∈ run, (y != x) = true := by
    intro y hy
    simp only [bne_iff_ne]
    rintro rfl
    exact h hy
  rw [List.takeWhile_append_of_pos hrun, List.takeWhile_cons_of_neg (by simp), List.append_nil]

/-! ## Bounded runs -/

/-- The length of the run of elements with `p` at the front of `xs`, counted up to `n`. -/
def runLength (p : α → Bool) (n : ℕ) (xs : List α) : ℕ := ((xs.take n).takeWhile p).length

theorem runLength_le (p : α → Bool) (n : ℕ) (xs : List α) :
    runLength p n xs ≤ n ∧ runLength p n xs ≤ xs.length := by
  have h := (List.takeWhile_prefix (l := xs.take n) p).length_le
  simp only [List.length_take] at h
  simp only [runLength]
  omega

/-- Every element of the run has `p`. -/
theorem getElem?_of_lt_runLength {p : α → Bool} {n : ℕ} {xs : List α} {i : ℕ}
    (hi : i < runLength p n xs) : ∃ x, xs[i]? = some x ∧ p x = true := by
  have hpre : (xs.take n).takeWhile p <+: xs :=
    (List.takeWhile_prefix p).trans (List.take_prefix n xs)
  obtain ⟨x, hx⟩ : ∃ x, ((xs.take n).takeWhile p)[i]? = some x :=
    ⟨_, List.getElem?_eq_getElem hi⟩
  exact ⟨x, getElem?_eq_some_of_isPrefix hpre hx,
    List.mem_takeWhile_imp (List.mem_of_getElem? hx)⟩

/-- A run that stops short of its bound is stopped by an element without `p`, or by the
end of the list. -/
theorem of_runLength_lt {p : α → Bool} {n : ℕ} {xs : List α} (hlt : runLength p n xs < n)
    {x : α} (hx : xs[runLength p n xs]? = some x) : p x = false := by
  induction xs generalizing n with
  | nil => simp at hx
  | cons y ys ih =>
    cases n with
    | zero => omega
    | succ n =>
      cases hy : p y with
      | false =>
        have hzero : runLength p (n + 1) (y :: ys) = 0 := by simp [runLength, hy]
        rw [hzero] at hx
        simp only [List.getElem?_cons_zero, Option.some.injEq] at hx
        rw [← hx, hy]
      | true =>
        have hsucc : runLength p (n + 1) (y :: ys) = runLength p n ys + 1 := by
          simp [runLength, hy]
        rw [hsucc] at hx hlt
        have hlt' : runLength p n ys < n := by omega
        exact ih hlt' (by simpa using hx)

/-- A run is determined by its elements and by what stops it. -/
theorem runLength_eq {p : α → Bool} {n r : ℕ} {xs : List α} (hr : r ≤ n)
    (hrun : ∀ i, i < r → ∃ x, xs[i]? = some x ∧ p x = true)
    (hstop : r = n ∨ r = xs.length ∨ ∃ x, xs[r]? = some x ∧ p x = false) :
    runLength p n xs = r := by
  rcases Nat.lt_trichotomy (runLength p n xs) r with hlt | heq | hgt
  · obtain ⟨x, hx, hpx⟩ := hrun _ hlt
    rw [of_runLength_lt (by omega) hx] at hpx
    exact absurd hpx (by simp)
  · exact heq
  · have hle := runLength_le p n xs
    rcases hstop with rfl | rfl | ⟨x, hx, hpx⟩
    · omega
    · omega
    · obtain ⟨y, hy, hpy⟩ := getElem?_of_lt_runLength hgt
      rw [hx] at hy
      obtain rfl := Option.some.inj hy
      rw [hpx] at hpy
      exact absurd hpy (by simp)

/-- A run is no shorter in a longer list. -/
theorem runLength_le_of_isPrefix {p : α → Bool} {n : ℕ} {xs ys : List α} (h : xs <+: ys) :
    runLength p n xs ≤ runLength p n ys := by
  by_contra hlt
  have hle := runLength_le p n xs
  obtain ⟨x, hx, hpx⟩ := getElem?_of_lt_runLength (Nat.lt_of_not_le hlt)
  rw [of_runLength_lt (by omega) (getElem?_eq_some_of_isPrefix h hx)] at hpx
  exact absurd hpx (by simp)

/-- A run stopped inside the shorter list is the same in the longer one. -/
theorem runLength_of_isPrefix {p : α → Bool} {n : ℕ} {xs ys : List α} (h : xs <+: ys)
    (hlt : runLength p n xs < xs.length ∨ runLength p n xs = n) :
    runLength p n ys = runLength p n xs := by
  have hle := runLength_le p n xs
  refine runLength_eq hle.1 (fun i hi => ?_) ?_
  · obtain ⟨x, hx, hpx⟩ := getElem?_of_lt_runLength hi
    exact ⟨x, getElem?_eq_some_of_isPrefix h hx, hpx⟩
  · by_cases hn : runLength p n xs = n
    · exact Or.inl hn
    · have hin : runLength p n xs < xs.length := by omega
      have hlt' : runLength p n xs < n := by omega
      have hget : xs[runLength p n xs]? = some xs[runLength p n xs] := by simp [hin]
      exact Or.inr (Or.inr ⟨_, getElem?_eq_some_of_isPrefix h hget, of_runLength_lt hlt' hget⟩)

/-- A run of known elements before an element without `p`. -/
theorem runLength_append {p : α → Bool} {n : ℕ} (run ys : List α) {x : α}
    (hrun : ∀ y ∈ run, p y = true) (hn : run.length ≤ n) (hx : p x = false) :
    runLength p n (run ++ x :: ys) = run.length := by
  refine runLength_eq hn (fun i hi => ?_) (Or.inr (Or.inr ⟨x, by simp, hx⟩))
  exact ⟨run[i], by simp [List.getElem?_append_left hi], hrun _ (List.getElem_mem hi)⟩

/-- The run and the element that stops it. -/
theorem exists_run_append {p : α → Bool} {n : ℕ} {xs : List α} {x : α}
    (hlt : runLength p n xs < n) (hx : xs[runLength p n xs]? = some x) :
    ∃ run ys, xs = run ++ x :: ys ∧ run.length = runLength p n xs ∧
      (∀ y ∈ run, p y = true) ∧ p x = false := by
  obtain ⟨hlen, rfl⟩ := List.getElem?_eq_some_iff.mp hx
  refine ⟨xs.take (runLength p n xs), xs.drop (runLength p n xs + 1), ?_, ?_, ?_,
    of_runLength_lt hlt hx⟩
  · rw [List.cons_getElem_drop_succ, List.take_append_drop]
  · rw [List.length_take]
    omega
  · intro y hy
    obtain ⟨k, hk, rfl⟩ := List.mem_take_iff_getElem.mp hy
    obtain ⟨z, hz, hpz⟩ := getElem?_of_lt_runLength (show k < runLength p n xs by omega)
    rw [(List.getElem?_eq_some_iff.mp hz).2]
    exact hpz

/-! ## The first occurrence of a pattern -/

/-- The offset of the first place in `xs` where `pat` stands. -/
def findPattern [DecidableEq α] (pat : List α) : List α → Option ℕ
  | [] => if pat = [] then some 0 else none
  | x :: xs => if pat <+: x :: xs then some 0 else (findPattern pat xs).map (· + 1)

/-- A found pattern stands at its offset and at no earlier one. -/
theorem findPattern_eq_some [DecidableEq α] {pat xs : List α} {i : ℕ}
    (h : findPattern pat xs = some i) :
    i ≤ xs.length ∧ pat <+: xs.drop i ∧ ∀ k, k < i → ¬ pat <+: xs.drop k := by
  induction xs generalizing i with
  | nil =>
    simp only [findPattern] at h
    split at h
    · next hpat =>
      obtain rfl := Option.some.inj h
      exact ⟨Nat.zero_le _, by simp [hpat], fun k hk => absurd hk (Nat.not_lt_zero k)⟩
    · exact absurd h (by simp)
  | cons x xs ih =>
    simp only [findPattern] at h
    split at h
    · next hpre =>
      obtain rfl := Option.some.inj h
      exact ⟨Nat.zero_le _, by simpa using hpre, fun k hk => absurd hk (Nat.not_lt_zero k)⟩
    · next hpre =>
      obtain ⟨j, hj, rfl⟩ := Option.map_eq_some_iff.mp h
      obtain ⟨hlen, hat, hbefore⟩ := ih hj
      refine ⟨by simpa using hlen, by simpa using hat, ?_⟩
      rintro (_ | k) hk
      · simpa using hpre
      · simpa using hbefore k (by omega)

/-- A pattern that is not found stands nowhere. -/
theorem findPattern_eq_none [DecidableEq α] {pat xs : List α} (h : findPattern pat xs = none)
    (k : ℕ) : ¬ pat <+: xs.drop k := by
  induction xs generalizing k with
  | nil =>
    simp only [findPattern] at h
    split at h
    · exact absurd h (by simp)
    · next hpat => simpa using hpat
  | cons x xs ih =>
    simp only [findPattern] at h
    split at h
    · exact absurd h (by simp)
    · next hpre =>
      cases k with
      | zero => simpa using hpre
      | succ k => simpa using ih (Option.map_eq_none_iff.mp h) k

/-! ## Counting down -/

/-- Searching the numbers from `n` down to 1 finds the greatest one with the property. -/
theorem find?_reverse_range'_eq_some {p : ℕ → Bool} {n k : ℕ}
    (h : (List.range' 1 n).reverse.find? p = some k) :
    1 ≤ k ∧ k ≤ n ∧ p k = true ∧ ∀ j, k < j → j ≤ n → p j = false := by
  induction n with
  | zero => exact absurd h (by simp)
  | succ n ih =>
    rw [List.range'_concat, List.reverse_append, List.reverse_singleton,
      List.singleton_append, List.find?_cons] at h
    cases hp : p (1 + 1 * n) with
    | true =>
      simp only [hp, Option.some.injEq] at h
      subst h
      exact ⟨by omega, by omega, hp, fun j hj hjn => by omega⟩
    | false =>
      simp only [hp] at h
      obtain ⟨h₁, hn, hk, hbefore⟩ := ih h
      refine ⟨h₁, by omega, hk, fun j hj hjn => ?_⟩
      rcases Nat.lt_or_ge n j with hlast | hearlier
      · obtain rfl : j = 1 + 1 * n := by omega
        exact hp
      · exact hbefore j hj hearlier

theorem find?_reverse_range'_eq_none {p : ℕ → Bool} {n : ℕ}
    (h : (List.range' 1 n).reverse.find? p = none) {j : ℕ} (h₁ : 1 ≤ j) (hn : j ≤ n) :
    p j = false := by
  rw [List.find?_eq_none] at h
  simpa using h j (by simp only [List.mem_reverse, List.mem_range'_1]; omega)

/-! ## Stripping a known beginning -/

/-- What follows `pat` in `xs`, when `xs` begins with it. -/
def stripPrefix [DecidableEq α] (pat xs : List α) : Option (List α) :=
  if pat <+: xs then some (xs.drop pat.length) else none

theorem stripPrefix_eq_some_iff [DecidableEq α] {pat xs rest : List α} :
    stripPrefix pat xs = some rest ↔ xs = pat ++ rest := by
  simp only [stripPrefix, Option.ite_none_right_eq_some, Option.some.injEq]
  constructor
  · rintro ⟨⟨zs, rfl⟩, rfl⟩
    simp
  · rintro rfl
    exact ⟨List.prefix_append .., by simp⟩

end Refix.Foundation
