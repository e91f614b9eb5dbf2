import DevAccess.Foundation.Word

/-! Numbers in texts as the C library reads them. A text is the list of its characters,
without the zero that ends it. -/
namespace Foundation

abbrev CText := List Char

namespace CText

def isSpace (c : Char) : Bool := c ∈ [' ', '\t', '\n', '\x0b', '\x0c', '\r']

def digits (n : Nat) : CText → Nat
  | [] => n
  | c :: rest => if c.isDigit then digits (10 * n + (c.toNat - '0'.toNat)) rest else n

def unsigned : CText → Option Nat
  | [] => none
  | c :: rest => if c.isDigit then some (digits 0 (c :: rest)) else none

def signed : CText → Option Int
  | '-' :: rest => (unsigned rest).map fun n => -(n : Int)
  | '+' :: rest => (unsigned rest).map Int.ofNat
  | s => (unsigned s).map Int.ofNat

/-- A value that strtol cannot hold becomes the nearest one that it can. -/
def saturate (z : Int) : Int := max (-9223372036854775808) (min z 9223372036854775807)

def scanInt (s : CText) : Option Int := (signed (s.dropWhile isSpace)).map fun z => int32 (saturate z)

def atoi (s : CText) : Int := (scanInt s).getD 0

/-- A value that strtoul cannot hold becomes the largest one, whatever its sign. -/
def saturateUnsigned (z : Int) : Int :=
  if -18446744073709551615 ≤ z ∧ z ≤ 18446744073709551615 then z else 18446744073709551615

def scanUInt (s : CText) : Option UInt32 :=
  (signed (s.dropWhile isSpace)).map fun z => UInt32.ofInt (saturateUnsigned z)

def takeInt (s : CText) : Option (Int × CText) :=
  (scanInt s).map fun v =>
    let number := s.dropWhile isSpace
    let number := if number.head? = some '-' ∨ number.head? = some '+' then number.tail else number
    (v, number.dropWhile Char.isDigit)

def takeChar (c : Char) : CText → Option CText
  | [] => none
  | d :: rest => if d = c then some rest else none

/-- What strncpy leaves in an array of size n: the text cut at n characters, or zeros after it. -/
def strncpy (n : Nat) (s : CText) : Vector Char n := Vector.ofFn fun i => s.getD i '\x00'

def startsDigit (s : CText) : Bool := s.head?.any Char.isDigit

/-- The text is a number in decimal digits. -/
def Decimal (s : CText) : Prop := s ≠ [] ∧ ∀ c ∈ s, c.isDigit

theorem decimal_of_all {s : CText} (nonempty : s ≠ []) (all : s.all Char.isDigit) : Decimal s :=
  ⟨nonempty, List.all_eq_true.mp all⟩

/-- The text is a decimal number, with or without a sign. -/
inductive Numeral : CText → Int → Prop
  | unsigned {s : CText} (decimal : Decimal s) : Numeral s (digits 0 s : Nat)
  | positive {s : CText} (decimal : Decimal s) : Numeral ('+' :: s) (digits 0 s : Nat)
  | negative {s : CText} (decimal : Decimal s) : Numeral ('-' :: s) (-(digits 0 s : Nat))

theorem digit_ne {c : Char} (digit : c.isDigit) (d : Char) (h : d.val < 48) : c ≠ d := by
  have bounds : 48 ≤ c.val ∧ c.val ≤ 57 := by simpa [Char.isDigit] using digit
  rintro rfl
  exact absurd bounds.1 (UInt32.not_le.mpr h)

theorem digit_solid {c : Char} (digit : c.isDigit) : isSpace c = false := by
  have other := digit_ne digit
  simp [isSpace, other ' ' (by decide), other '\t' (by decide), other '\n' (by decide),
    other '\x0b' (by decide), other '\x0c' (by decide), other '\r' (by decide)]

section Leading
variable {s : CText}

theorem signed_digits (first : startsDigit s) : signed s = some ((digits 0 s : Nat) : Int) := by
  cases s with
  | nil => cases first
  | cons c rest =>
    have digit : c.isDigit = true := first
    have minus : c ≠ '-' := digit_ne digit '-' (by decide)
    have plus : c ≠ '+' := digit_ne digit '+' (by decide)
    simp [signed, minus, plus, CText.unsigned, digit]

end Leading

theorem unsigned_decimal {s : CText} (decimal : Decimal s) : unsigned s = some (digits 0 s) := by
  obtain ⟨some_digit, all⟩ := decimal
  cases s with
  | nil => exact absurd rfl some_digit
  | cons c rest => rw [CText.unsigned, if_pos (all c List.mem_cons_self)]

theorem Decimal.starts {s : CText} (decimal : Decimal s) : startsDigit s := by
  cases s with
  | nil => exact absurd rfl decimal.1
  | cons c rest => exact decimal.2 c List.mem_cons_self

theorem signed_decimal {s : CText} (decimal : Decimal s) :
    signed s = some ((digits 0 s : Nat) : Int) :=
  signed_digits decimal.starts

theorem scanInt_signed {s : CText} {z : Int} (solid : ∀ c ∈ s.head?, isSpace c = false)
    (read : signed s = some z) (lower : -2147483648 ≤ z) (upper : z < 2147483648) :
    scanInt s = some z := by
  have kept : s.dropWhile isSpace = s := by
    cases s with
    | nil => rfl
    | cons c rest => rw [List.dropWhile_cons_of_neg (by simp [solid c rfl])]
  have inside : saturate z = z := by
    unfold saturate
    omega
  rw [scanInt, kept, read, Option.map_some, inside, int32_of_range lower upper]

theorem Decimal.solid {s : CText} (decimal : Decimal s) : ∀ c ∈ s.head?, isSpace c = false :=
  fun c first => digit_solid (decimal.2 c (List.mem_of_mem_head? first))

theorem scanInt_decimal {s : CText} (decimal : Decimal s) (small : digits 0 s < 2147483648) :
    scanInt s = some ((digits 0 s : Nat) : Int) :=
  scanInt_signed decimal.solid (signed_decimal decimal) (by omega) (by omega)

/-- A number that an int can hold is read as it stands. -/
theorem atoi_numeral {s : CText} {z : Int} (numeral : Numeral s z) (lower : -2147483648 ≤ z)
    (upper : z < 2147483648) : atoi s = z := by
  have read : scanInt s = some z := by
    cases numeral with
    | unsigned decimal => exact scanInt_signed decimal.solid (signed_decimal decimal) lower upper
    | positive decimal =>
      exact scanInt_signed (by simp [isSpace]) (by simp [signed, unsigned_decimal decimal]) lower upper
    | negative decimal =>
      exact scanInt_signed (by simp [isSpace]) (by simp [signed, unsigned_decimal decimal]) lower upper
  rw [atoi, read, Option.getD_some]

end CText

end Foundation
