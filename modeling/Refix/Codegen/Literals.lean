import Refix.Codegen.EnumCodes
import Refix.Foundation.AsciiText
import Refix.Foundation.Literal

/-!
# Literals in Generated Code

Message types and the codes of text fields are written into generated code as string literals,
with escape sequences for what a literal cannot hold as it is. Each writer is set against what the
language reads from a literal, so that the constants of generated code hold the dictionary's texts.
-/

namespace Refix.Codegen

open Refix.Foundation
open Refix.Dict

/-- The UTF-8 bytes of a text. -/
def utf8 (text : String) : List UInt8 := text.toByteArray.data.toList

theorem utf8_inj {text other : String} : utf8 text = utf8 other ↔ text = other := by
  rw [utf8, utf8, Array.toList_inj, ← ByteArray.ext_iff, String.toByteArray_inj]

/-! ## Escape sequences -/

def apostrophe : Char := Char.ofNat 39

/-- The item behind a backslash: one that a letter stands for, or one given by its number. -/
def takeEscape {α : Type} (letters : List (Char × α))
    (numbered : Char → List Char → Option (α × List Char)) : List Char → Option (α × List Char)
  | [] => none
  | letter :: rest =>
    match letters.lookup letter with
    | some item => some (item, rest)
    | none => numbered letter rest

/-- The character of a code point. -/
def charOf (n : ℕ) : Option Char := if n.isValidChar then some (Char.ofNat n) else none

theorem charOf_toNat (c : Char) : charOf c.toNat = some c := by
  have hvalid : c.toNat.isValidChar := c.valid
  rw [charOf, if_pos hvalid, Char.ofNat_toNat]

/-- The byte that stands for itself in a literal, or behind a backslash. -/
def takeByte (letters : List (Char × UInt8)) : List Char → Option (UInt8 × List Char)
  | [] => none
  | c :: rest =>
    if c = backslash then
      takeEscape letters
        (fun letter rest =>
          if letter = 'x' then (takeHex 2 rest).map fun taken => (UInt8.ofNat taken.1, taken.2)
          else none)
        rest
    else if c.toNat < 128 ∧ c ≠ '\n' ∧ c ≠ '\r' then some (UInt8.ofNat c.toNat, rest)
    else none

/-- A byte above the ASCII characters that stand for themselves. -/
theorem takeByte_hex {letters : List (Char × UInt8)} (hletters : letters.lookup 'x' = none)
    (b : UInt8) (rest : List Char) :
    takeByte letters (backslash :: 'x' :: fixedHex 2 b.toNat ++ rest) = some (b, rest) := by
  have hlt : b.toNat < 16 ^ 2 := b.toNat_lt
  have hhex := takeHex_fixedHex hlt rest
  simp [takeByte, takeEscape, hletters, hhex]

theorem takeByte_letter {letters : List (Char × UInt8)} {letter : Char} {b : UInt8}
    (hletter : letters.lookup letter = some b) (rest : List Char) :
    takeByte letters (backslash :: letter :: rest) = some (b, rest) := by
  simp [takeByte, takeEscape, hletter]

theorem takeByte_plain {letters : List (Char × UInt8)} {b : UInt8} (hlow : 32 ≤ b.toNat)
    (hhigh : b.toNat < 127) (hne : b.toNat ≠ 92) (rest : List Char) :
    takeByte letters (asciiChar b :: rest) = some (b, rest) := by
  have hnat := toNat_asciiChar b
  have hcode : ∀ c : Char, c.toNat ≠ b.toNat → asciiChar b ≠ c := by
    rintro c hc rfl
    exact hc hnat
  rw [takeByte, if_neg (hcode backslash (by simp [backslash]; omega)), if_pos]
  · rw [hnat, UInt8.ofNat_toNat]
  · exact ⟨by omega, hcode _ (by simp; omega), hcode _ (by simp; omega)⟩

theorem asciiChar_ne_quote {b : UInt8} (h : b.toNat ≠ 34) : asciiChar b ≠ quote := by
  intro heq
  have hnat := toNat_asciiChar b
  rw [heq] at hnat
  exact h hnat.symm

/-! ## Rust -/

namespace Rust

/-- What stands in a byte string for a byte, as the standard library escapes it. -/
def escapeDefault (b : UInt8) : List Char :=
  if b = 9 then [backslash, 't']
  else if b = 13 then [backslash, 'r']
  else if b = 10 then [backslash, 'n']
  else if b = 39 then [backslash, apostrophe]
  else if b = 34 then [backslash, quote]
  else if b = 92 then [backslash, backslash]
  else if 32 ≤ b.toNat ∧ b.toNat < 127 then [asciiChar b]
  else backslash :: 'x' :: fixedHex 2 b.toNat

def byteLetters : List (Char × UInt8) :=
  [('t', 9), ('r', 13), ('n', 10), ('0', 0), (apostrophe, 39), (quote, 34), (backslash, 92)]

/-- Byte strings. -/
def bytes : Escaping UInt8 where
  opening := ['b', quote]
  write := escapeDefault
  take := takeByte byteLetters

/-- A byte string literal of a text's UTF-8 bytes. -/
def byteStrLiteral (value : String) : List Char := bytes.literal (utf8 value)

theorem bytes_lawful : bytes.Lawful where
  write_ne b := by
    have hbackslash : backslash ≠ quote := by decide
    simp only [bytes, escapeDefault]
    split_ifs with h₁ h₂ h₃ h₄ h₅ h₆ h₇
    all_goals try exact ⟨_, _, rfl, hbackslash⟩
    refine ⟨_, _, rfl, asciiChar_ne_quote fun heq => h₅ ?_⟩
    exact UInt8.toNat_inj.mp heq
  take_write b rest := by
    simp only [bytes, escapeDefault]
    split_ifs with h₁ h₂ h₃ h₄ h₅ h₆ h₇
    case pos =>
      subst h₁
      exact takeByte_letter rfl rest
    all_goals try (subst b; exact takeByte_letter rfl rest)
    · exact takeByte_plain h₇.1 h₇.2 (fun heq => h₆ (UInt8.toNat_inj.mp heq)) rest
    · exact takeByte_hex rfl b rest

/-- What stands in a string for a character, as `Debug` writes it. Which characters print as they
are is a table of the standard library. -/
def escapeDebug (prints : Char → Bool) (c : Char) : List Char :=
  if c = Char.ofNat 0 then [backslash, '0']
  else if c = '\t' then [backslash, 't']
  else if c = '\r' then [backslash, 'r']
  else if c = '\n' then [backslash, 'n']
  else if c = backslash then [backslash, backslash]
  else if c = quote then [backslash, quote]
  else if prints c then [c]
  else backslash :: 'u' :: Char.ofNat 123 :: (Nat.toDigits 16 c.toNat ++ [Char.ofNat 125])

def strLetters : List (Char × Char) :=
  [('0', Char.ofNat 0), ('t', '\t'), ('r', '\r'), ('n', '\n'), (apostrophe, apostrophe),
    (quote, quote), (backslash, backslash)]

/-- The character whose code point stands between braces. -/
def takeBraced : List Char → Option (Char × List Char)
  | [] => none
  | brace :: rest =>
    if brace = Char.ofNat 123 then
      let digits := rest.takeWhile (· ≠ Char.ofNat 125)
      if digits.length < rest.length then
        ((hexNumber 0 digits).bind charOf).map fun c => (c, rest.drop (digits.length + 1))
      else none
    else none

def takeChar : List Char → Option (Char × List Char)
  | [] => none
  | c :: rest =>
    if c = backslash then
      takeEscape strLetters (fun letter rest => if letter = 'u' then takeBraced rest else none) rest
    else if c ≠ '\r' then some (c, rest)
    else none

/-- Strings. -/
def str (prints : Char → Bool) : Escaping Char where
  opening := [quote]
  write := escapeDebug prints
  take := takeChar

/-- A string literal of a text. -/
def strLiteral (prints : Char → Bool) (value : String) : List Char :=
  (str prints).literal value.toList

theorem takeBraced_toDigits (c : Char) (rest : List Char) :
    takeBraced (Char.ofNat 123 :: (Nat.toDigits 16 c.toNat ++ [Char.ofNat 125]) ++ rest) =
      some (c, rest) := by
  have hdigits : ∀ d ∈ Nat.toDigits 16 c.toNat, d ≠ Char.ofNat 125 := by
    intro d hd heq
    have hnumber := hexNumber_toDigits c.toNat
    obtain ⟨front, back, hsplit⟩ := List.append_of_mem hd
    rw [hsplit, hexNumber_append, heq] at hnumber
    cases hfront : hexNumber 0 front with
    | none => simp [hfront] at hnumber
    | some n =>
      have hbrace : hexDigit? (Char.ofNat 125) = none := rfl
      simp [hfront, hexNumber, hbrace] at hnumber
  have htake : (Nat.toDigits 16 c.toNat ++ Char.ofNat 125 :: rest).takeWhile
      (· ≠ Char.ofNat 125) = Nat.toDigits 16 c.toNat := by
    rw [List.takeWhile_append_of_pos (by simpa using hdigits)]
    simp
  rw [List.cons_append, List.append_assoc, List.singleton_append, takeBraced, if_pos rfl]
  simp only [htake]
  rw [if_pos (by simp), hexNumber_toDigits, Option.bind_some, charOf_toNat]
  simp [← List.drop_drop]

theorem str_lawful (prints : Char → Bool) : (str prints).Lawful where
  write_ne c := by
    have hbackslash : backslash ≠ quote := by decide
    simp only [str, escapeDebug]
    split_ifs with h₁ h₂ h₃ h₄ h₅ h₆ h₇
    all_goals try exact ⟨_, _, rfl, hbackslash⟩
    exact ⟨_, _, rfl, h₆⟩
  take_write c rest := by
    simp only [str, escapeDebug]
    split_ifs with h₁ h₂ h₃ h₄ h₅ h₆ h₇
    all_goals try (subst c; rfl)
    · simp [takeChar, h₅, h₃]
    · rw [List.cons_append, List.cons_append, takeChar, if_pos rfl, takeEscape]
      exact takeBraced_toDigits c rest

end Rust

/-! ## Python -/

namespace Python

/-- What stands in a bytes literal for a byte. -/
def escapeByte (b : UInt8) : List Char :=
  if b = 34 ∨ b = 92 then [backslash, asciiChar b]
  else if 32 ≤ b.toNat ∧ b.toNat ≤ 126 then [asciiChar b]
  else backslash :: 'x' :: fixedHex 2 b.toNat

/-- What stands in a string literal for a character. -/
def escapeChar (c : Char) : List Char :=
  if c = quote ∨ c = backslash then [backslash, c]
  else if 32 ≤ c.toNat ∧ c.toNat ≤ 126 then [c]
  else if c.toNat ≤ 0xFFFF then backslash :: 'u' :: fixedHex 4 c.toNat
  else backslash :: 'U' :: fixedHex 8 c.toNat

def byteLetters : List (Char × UInt8) :=
  [(backslash, 92), (apostrophe, 39), (quote, 34), ('a', 7), ('b', 8), ('f', 12), ('n', 10),
    ('r', 13), ('t', 9), ('v', 11)]

def strLetters : List (Char × Char) :=
  byteLetters.map fun (letter, b) => (letter, asciiChar b)

/-- The character with the code point in the next digits. -/
def takeCode (width : ℕ) (chars : List Char) : Option (Char × List Char) :=
  (takeHex width chars).bind fun taken => (charOf taken.1).map fun c => (c, taken.2)

def takeChar : List Char → Option (Char × List Char)
  | [] => none
  | c :: rest =>
    if c = backslash then
      takeEscape strLetters
        (fun letter rest =>
          if letter = 'x' then takeCode 2 rest
          else if letter = 'u' then takeCode 4 rest
          else if letter = 'U' then takeCode 8 rest
          else none)
        rest
    else if c ≠ '\n' ∧ c ≠ '\r' then some (c, rest)
    else none

/-- Bytes literals. -/
def bytes : Escaping UInt8 where
  opening := ['b', quote]
  write := escapeByte
  take := takeByte byteLetters

/-- String literals. -/
def str : Escaping Char where
  opening := [quote]
  write := escapeChar
  take := takeChar

/-- A bytes literal of a text's UTF-8 bytes. -/
def bytesLiteral (value : String) : List Char := bytes.literal (utf8 value)

/-- A string literal of a text. -/
def strLiteral (value : String) : List Char := str.literal value.toList

theorem bytes_lawful : bytes.Lawful where
  write_ne b := by
    have hbackslash : backslash ≠ quote := by decide
    simp only [bytes, escapeByte]
    split_ifs with h₁ h₂
    · exact ⟨_, _, rfl, hbackslash⟩
    · refine ⟨_, _, rfl, asciiChar_ne_quote fun heq => h₁ (Or.inl ?_)⟩
      exact UInt8.toNat_inj.mp heq
    · exact ⟨_, _, rfl, hbackslash⟩
  take_write b rest := by
    simp only [bytes, escapeByte]
    split_ifs with h₁ h₂
    · rcases h₁ with rfl | rfl <;> exact takeByte_letter rfl rest
    · exact takeByte_plain h₂.1 (by omega)
        (fun heq => h₁ (Or.inr (UInt8.toNat_inj.mp heq))) rest
    · exact takeByte_hex rfl b rest

theorem takeCode_fixedHex {c : Char} {width : ℕ} (h : c.toNat < 16 ^ width) (rest : List Char) :
    takeCode width (fixedHex width c.toNat ++ rest) = some (c, rest) := by
  rw [takeCode, takeHex_fixedHex h, Option.bind_some, charOf_toNat, Option.map_some]

theorem str_lawful : str.Lawful where
  write_ne c := by
    have hbackslash : backslash ≠ quote := by decide
    simp only [str, escapeChar]
    split_ifs with h₁ h₂ h₃
    all_goals try exact ⟨_, _, rfl, hbackslash⟩
    exact ⟨_, _, rfl, fun heq => h₁ (Or.inl heq)⟩
  take_write c rest := by
    simp only [str, escapeChar]
    split_ifs with h₁ h₂ h₃
    · rcases h₁ with rfl | rfl <;> rfl
    · have hcode : ∀ other : Char, other.toNat < 32 → c ≠ other := by
        rintro other hother rfl
        omega
      rw [List.singleton_append, takeChar, if_neg fun heq => h₁ (Or.inr heq),
        if_pos ⟨hcode _ (by decide), hcode _ (by decide)⟩]
    · exact takeCode_fixedHex (by omega) rest
    · have hmax : c.toNat < 0x110000 := by
        rcases c.valid with h | h
        · exact Nat.lt_trans h (by decide)
        · exact h.2
      exact takeCode_fixedHex (by omega) rest

end Python

/-- **Every literal is read back as the text it was written for**, or as its UTF-8 bytes, whatever
characters the text holds, and in Rust whichever of them print as they are. -/
theorem literals_read (value : String) :
    Rust.bytes.read (Rust.byteStrLiteral value) = some (utf8 value) ∧
      (∀ prints, (Rust.str prints).read (Rust.strLiteral prints value) = some value.toList) ∧
      Python.bytes.read (Python.bytesLiteral value) = some (utf8 value) ∧
      Python.str.read (Python.strLiteral value) = some value.toList :=
  ⟨Rust.bytes_lawful.read_literal _, fun prints => (Rust.str_lawful prints).read_literal _,
    Python.bytes_lawful.read_literal _, Python.str_lawful.read_literal _⟩

end Refix.Codegen
