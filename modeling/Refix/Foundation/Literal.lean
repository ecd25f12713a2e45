import Mathlib.Data.List.Basic
import Mathlib.Tactic.IntervalCases

/-!
# Quoted Literals

A literal writes its items one behind the other between quotes, some of them as escape sequences,
and a reader takes items off until the closing quote. That the reader gives back what was written
rests on single items: each is taken off whatever follows it, and none starts with the quote.
-/

namespace Refix.Foundation

/-! ## Hexadecimal numbers -/

def hexDigit? (c : Char) : Option ℕ :=
  if '0' ≤ c ∧ c ≤ '9' then some (c.toNat - 48)
  else if 'a' ≤ c ∧ c ≤ 'f' then some (c.toNat - 87)
  else if 'A' ≤ c ∧ c ≤ 'F' then some (c.toNat - 55)
  else none

theorem hexDigit?_digitChar {d : ℕ} (h : d < 16) : hexDigit? d.digitChar = some d := by
  interval_cases d <;> rfl

/-- The number whose digits are those of `n` and then the given ones. -/
def hexNumber (n : ℕ) : List Char → Option ℕ
  | [] => some n
  | c :: rest => (hexDigit? c).bind fun d => hexNumber (16 * n + d) rest

theorem hexNumber_append (front back : List Char) (n : ℕ) :
    hexNumber n (front ++ back) = (hexNumber n front).bind (hexNumber · back) := by
  induction front generalizing n with
  | nil => rfl
  | cons c front ih =>
    rw [List.cons_append, hexNumber, hexNumber]
    cases hexDigit? c with
    | none => rfl
    | some d => simpa using ih (16 * n + d)

theorem hexNumber_concat {digits : List Char} {m n d : ℕ} (h : hexNumber m digits = some n)
    (hd : d < 16) : hexNumber m (digits ++ [d.digitChar]) = some (16 * n + d) := by
  rw [hexNumber_append, h]
  simp [hexNumber, hexDigit?_digitChar hd]

/-- A number in a given count of digits, its last ones. -/
def fixedHex : ℕ → ℕ → List Char
  | 0, _ => []
  | width + 1, n => fixedHex width (n / 16) ++ [(n % 16).digitChar]

@[simp] theorem length_fixedHex (width n : ℕ) : (fixedHex width n).length = width := by
  induction width generalizing n with
  | zero => rfl
  | succ width ih => simp [fixedHex, ih]

theorem hexNumber_fixedHex {width n : ℕ} (h : n < 16 ^ width) :
    hexNumber 0 (fixedHex width n) = some n := by
  induction width generalizing n with
  | zero =>
    have hzero : n = 0 := by simpa using h
    rw [hzero]
    rfl
  | succ width ih =>
    have hdiv : n / 16 < 16 ^ width := by
      rw [Nat.div_lt_iff_lt_mul (by decide)]
      simpa [Nat.pow_succ] using h
    rw [fixedHex, hexNumber_concat (ih hdiv) (Nat.mod_lt _ (by decide)), Nat.div_add_mod]

theorem hexNumber_toDigits (n : ℕ) : hexNumber 0 (Nat.toDigits 16 n) = some n := by
  induction n using Nat.strong_induction_on with
  | _ n ih =>
    rw [Nat.toDigits_eq_if (by decide)]
    split
    · next hlt =>
      have hempty : hexNumber 0 [] = some 0 := rfl
      simpa using hexNumber_concat hempty hlt
    · next hge =>
      rw [hexNumber_concat (ih (n / 16) (by omega)) (Nat.mod_lt _ (by decide)), Nat.div_add_mod]

/-- The number in the first `width` digits, and what follows. -/
def takeHex (width : ℕ) (chars : List Char) : Option (ℕ × List Char) :=
  if width ≤ chars.length then
    (hexNumber 0 (chars.take width)).map fun n => (n, chars.drop width)
  else none

theorem takeHex_fixedHex {width n : ℕ} (h : n < 16 ^ width) (rest : List Char) :
    takeHex width (fixedHex width n ++ rest) = some (n, rest) := by
  have hlen := length_fixedHex width n
  rw [takeHex, if_pos (by simp), List.take_append_of_le_length (by simp),
    List.take_of_length_le (by simp), hexNumber_fixedHex h, Option.map_some,
    List.drop_append_of_le_length (by simp), List.drop_of_length_le (by simp), List.nil_append]

/-! ## Literals -/

def quote : Char := Char.ofNat 34

def backslash : Char := Char.ofNat 92

/-- How the items between quotes are written, and how a reader takes the first one off. -/
structure Escaping (α : Type) where
  /-- What comes before the items, the quote included. -/
  opening : List Char
  write : α → List Char
  take : List Char → Option (α × List Char)

namespace Escaping

variable {α : Type}

/-- The literal of some items. -/
def literal (escaping : Escaping α) (items : List α) : List Char :=
  escaping.opening ++ (items.flatMap escaping.write ++ [quote])

/-- The items up to the closing quote, which ends the literal. -/
def items (escaping : Escaping α) : ℕ → List Char → Option (List α)
  | 0, _ => none
  | _ + 1, [] => none
  | fuel + 1, c :: rest =>
    if c = quote then
      if rest = [] then some [] else none
    else
      (escaping.take (c :: rest)).bind fun taken =>
        (escaping.items fuel taken.2).map fun items => taken.1 :: items

/-- The items of a literal. -/
def read (escaping : Escaping α) (literal : List Char) : Option (List α) :=
  if escaping.opening <+: literal then
    escaping.items literal.length (literal.drop escaping.opening.length)
  else none

/-- What is written for an item is no quote and is taken off as that item, whatever follows. -/
structure Lawful (escaping : Escaping α) : Prop where
  write_ne : ∀ item, ∃ c rest, escaping.write item = c :: rest ∧ c ≠ quote
  take_write : ∀ item rest, escaping.take (escaping.write item ++ rest) = some (item, rest)

theorem Lawful.items_write {escaping : Escaping α} (h : escaping.Lawful) (items : List α) :
    ∀ fuel, items.length < fuel →
      escaping.items fuel (items.flatMap escaping.write ++ [quote]) = some items := by
  induction items with
  | nil =>
    intro fuel hfuel
    cases fuel with
    | zero => exact absurd hfuel (Nat.lt_irrefl 0)
    | succ fuel => simp [Escaping.items]
  | cons item items ih =>
    intro fuel hfuel
    cases fuel with
    | zero => exact absurd hfuel (Nat.not_lt_zero _)
    | succ fuel =>
      obtain ⟨c, rest, hwrite, hne⟩ := h.write_ne item
      have htake := h.take_write item (items.flatMap escaping.write ++ [quote])
      rw [hwrite, List.cons_append] at htake
      rw [List.flatMap_cons, hwrite, List.append_assoc, List.cons_append, Escaping.items,
        if_neg hne, htake, Option.bind_some, ih fuel (Nat.lt_of_succ_lt_succ hfuel)]
      rfl

/-- Every item takes at least one character. -/
theorem Lawful.length_le {escaping : Escaping α} (h : escaping.Lawful) (items : List α) :
    items.length ≤ (items.flatMap escaping.write).length := by
  induction items with
  | nil => exact Nat.zero_le _
  | cons item items ih =>
    obtain ⟨c, rest, hwrite, -⟩ := h.write_ne item
    rw [List.flatMap_cons, hwrite, List.length_append, List.length_cons, List.length_cons]
    omega

/-- **A literal is read back** as the items it was written for. -/
theorem Lawful.read_literal {escaping : Escaping α} (h : escaping.Lawful) (items : List α) :
    escaping.read (escaping.literal items) = some items := by
  have hlen := h.length_le items
  rw [read, literal, if_pos (List.prefix_append _ _), List.drop_left]
  apply h.items_write items
  simp only [List.length_append, List.length_singleton]
  omega

end Escaping

end Refix.Foundation
