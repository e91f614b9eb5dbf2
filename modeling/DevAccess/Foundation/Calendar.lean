import DevAccess.Foundation.CText

/-! Local time by its fields, and the digits they are printed with. -/
namespace Foundation

/-- struct tm, as far as it is printed. localtime keeps each field in its range. -/
structure Tm where
  tm_year : Nat
  tm_mon : Fin 12
  tm_mday : Fin 32
  tm_hour : Fin 24
  tm_min : Fin 60
  tm_sec : Fin 62
deriving DecidableEq

namespace CText

def decimal (n : Nat) : CText := Nat.toDigits 10 n
def padded (w n : Nat) : CText := List.replicate (w - (decimal n).length) '0' ++ decimal n

def signedDecimal (z : Int) : CText := if z < 0 then '-' :: decimal z.natAbs else decimal z.natAbs

theorem decimal_isDigit {n : Nat} : ∀ c ∈ decimal n, c.isDigit :=
  fun _ member => Nat.isDigit_of_mem_toDigits (by decide) (by decide) member

theorem padded_isDigit {w n : Nat} : ∀ c ∈ padded w n, c.isDigit := by
  intro c member
  rcases List.mem_append.mp member with zero | digit
  · rw [List.eq_of_mem_replicate zero]
    rfl
  · exact decimal_isDigit c digit

theorem padded_value (w n : Nat) : Nat.ofDigitChars 10 (padded w n) 0 = n := by
  rw [padded, Nat.ofDigitChars_append, Nat.ofDigitChars_replicate_zero, Nat.mul_zero]
  exact Nat.ofDigitChars_ten_toDigits

theorem padded_length {w n : Nat} (width : 0 < w) (fits : n < 10 ^ w) : (padded w n).length = w := by
  have short : (decimal n).length ≤ w := (Nat.length_toDigits_le_iff (by decide) width).mpr fits
  rw [padded, List.length_append, List.length_replicate]
  exact Nat.sub_add_cancel short

theorem two_digits (s : CText) {n : Nat} (fits : n < 100) :
    Nat.ofDigitChars 10 (s ++ padded 2 n) 0 = 100 * Nat.ofDigitChars 10 s 0 + n := by
  rw [Nat.ofDigitChars_append, Nat.ofDigitChars_eq_ofDigitChars_zero, padded_value,
    padded_length (by decide) fits]

end CText

namespace Tm
open CText

/-- The format %04d%02d%02d%02d%02d%02d. -/
def stamp (t : Tm) : CText :=
  padded 4 (t.tm_year + 1900) ++ padded 2 (t.tm_mon + 1) ++ padded 2 t.tm_mday ++
    padded 2 t.tm_hour ++ padded 2 t.tm_min ++ padded 2 t.tm_sec

/-- The format %d-%02d-%02d %02d:%02d:%02d. -/
def clock (t : Tm) : CText :=
  decimal (1900 + t.tm_year) ++ '-' :: padded 2 (1 + t.tm_mon) ++ '-' :: padded 2 t.tm_mday ++
    ' ' :: padded 2 t.tm_hour ++ ':' :: padded 2 t.tm_min ++ ':' :: padded 2 t.tm_sec

end Tm

end Foundation
