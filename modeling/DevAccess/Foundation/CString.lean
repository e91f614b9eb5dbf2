import DevAccess.Foundation.CText

/-! C strings in char arrays: what strncpy leaves there is read up to its first zero, if
there is one. -/
namespace Foundation.CText

def c_str (s : CText) : CText := s.takeWhile (· ≠ '\x00')

theorem c_str_append {s : CText} (plain : '\x00' ∉ s) (behind : CText) :
    c_str (s ++ behind) = s ++ c_str behind :=
  List.takeWhile_append_of_pos fun _ member => decide_eq_true fun zero => plain (zero ▸ member)

theorem c_str_whole {s : CText} (plain : '\x00' ∉ s) : c_str s = s := by
  have kept : c_str (s ++ []) = s ++ [] := c_str_append plain []
  rwa [List.append_nil] at kept

theorem c_str_terminated {s : CText} (plain : '\x00' ∉ s) (behind : CText) :
    c_str (s ++ '\x00' :: behind) = s := by
  rw [c_str_append plain]
  exact List.append_nil s

def cString {n : Nat} (array : Vector Char n) : Option CText :=
  if '\x00' ∈ array.toList then some (c_str array.toList) else none

def padded0 (n : Nat) (s : CText) : CText := s.take n ++ List.replicate (n - s.length) '\x00'

theorem strncpy_toList (n : Nat) (s : CText) : (strncpy n s).toList = padded0 n s := by
  apply List.ext_getElem
  · simp only [padded0, Vector.length_toList, List.length_append, List.length_take,
      List.length_replicate]
    omega
  · intro i inside _
    have small : i < n := by simpa using inside
    simp only [strncpy, padded0, Vector.getElem_toList, Vector.getElem_ofFn, List.getElem_append,
      List.getElem_take, List.getElem_replicate, List.length_take]
    split
    · rename_i copied
      have within : i < s.length := Nat.lt_of_lt_of_le copied (Nat.min_le_right _ _)
      rw [List.getD_eq_getElem?_getD, List.getElem?_eq_getElem within, Option.getD_some]
    · rw [List.getD_eq_getElem?_getD, List.getElem?_eq_none (by omega), Option.getD_none]

theorem terminated_iff (n : Nat) (s : CText) : '\x00' ∈ padded0 n s ↔ (c_str s).length < n := by
  induction s generalizing n with
  | nil => cases n <;> simp [padded0, c_str]
  | cons c rest ih =>
    cases n with
    | zero => simp [padded0]
    | succ n =>
      by_cases zero : c = '\x00'
      · simp [padded0, c_str, zero]
      · simpa [padded0, c_str, zero, Ne.symm zero] using ih n

theorem c_str_padded {n : Nat} {s : CText} (fits : (c_str s).length < n) :
    c_str (padded0 n s) = c_str s := by
  induction s generalizing n with
  | nil => cases n <;> simp [padded0, c_str]
  | cons c rest ih =>
    cases n with
    | zero => exact absurd fits (Nat.not_lt_zero _)
    | succ n =>
      by_cases zero : c = '\x00'
      · simp [padded0, c_str, zero]
      · have later : (c_str rest).length < n := by simpa [c_str, zero] using fits
        simpa [padded0, c_str, zero] using ih later

/-- A text comes back from its array, cut where it must be, if and only if it leaves room
for the zero. -/
theorem cString_strncpy_iff (n : Nat) (s : CText) :
    cString (strncpy n s) = some ((c_str s).take (n - 1)) ↔ (c_str s).length < n := by
  rw [cString, strncpy_toList]
  split
  · rename_i terminated
    have fits := (terminated_iff n s).mp terminated
    rw [c_str_padded fits, List.take_of_length_le (Nat.le_sub_one_of_lt fits)]
    exact iff_of_true rfl fits
  · rename_i unterminated
    exact iff_of_false (by simp) fun fits => unterminated ((terminated_iff n s).mpr fits)

end Foundation.CText
