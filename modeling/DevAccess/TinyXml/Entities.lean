import DevAccess.TinyXml.Spelling
import DevAccess.Xml.Grammar
import Mathlib.Data.List.TakeWhile
import Mathlib.Tactic.IntervalCases
import Mathlib.Tactic.Ring

/-! What references stand for. The loops of GetEntity go through the digits of a number from the
last to the first, and ConvertUTF32ToUTF8 gives the bytes of the character. -/
namespace DevAccess.TinyXml
open Foundation Xml

section Numbers
variable {base : Nat} {digit : Char → Option Nat}

def valueBack (base : Nat) (digit : Char → Option Nat) : CText → Option Nat
  | [] => some 0
  | q :: back => (digit q).bind fun d => (valueBack base digit back).map fun v => d + base * v

theorem ucsBack_eq (back : CText) (mult ucs : Nat) (small : ucs < 4294967296) :
    ucsBack base digit mult ucs back =
      (valueBack base digit back).map fun v => (ucs + mult * v) % 4294967296 := by
  induction back generalizing mult ucs with
  | nil => simp [ucsBack, valueBack, Nat.mod_eq_of_lt small]
  | cons q back ih =>
    rw [ucsBack, valueBack]
    cases digit q with
    | none => rfl
    | some d =>
      show ucsBack base digit (mult * base % 4294967296) ((ucs + mult * d) % 4294967296) back = _
      rw [Option.bind_some, ih _ _ (Nat.mod_lt _ (by decide)), Option.map_map]
      apply congrArg (fun f => Option.map f (valueBack base digit back))
      funext v
      have parts : ucs + mult * (d + base * v) = ucs + mult * d + mult * base * v := by
        rw [Nat.mul_add, Nat.mul_assoc, Nat.add_assoc]
      rw [Function.comp_apply, parts, Nat.add_mod ((ucs + mult * d) % 4294967296),
        Nat.mod_mod, Nat.mul_mod (mult * base % 4294967296),
          Nat.mod_mod, ← Nat.mul_mod, ← Nat.add_mod]

theorem valueBack_append (back : CText) (q : Char) :
    valueBack base digit (back ++ [q]) = (valueBack base digit back).bind fun v =>
      (digit q).map fun d => v + base ^ back.length * d := by
  induction back with
  | nil => cases h : digit q <;> simp [valueBack, h]
  | cons c back ih =>
    rw [List.cons_append, valueBack, valueBack, ih]
    cases digit c with
    | none => rfl
    | some e =>
      cases valueBack base digit back with
      | none => rfl
      | some v =>
        cases digit q with
        | none => rfl
        | some d =>
          simp only [Option.bind_some, Option.map_some, List.length_cons, Nat.pow_succ]
          exact congrArg some (by ring)

theorem valueBack_reverse (s : CText) (n : Nat) :
    (s.foldlM (fun n c => (digit c).map fun d => base * n + d) n) =
      (valueBack base digit s.reverse).map fun v => base ^ s.length * n + v := by
  induction s generalizing n with
  | nil => simp [valueBack]
  | cons c s ih =>
    rw [List.foldlM_cons, List.reverse_cons, valueBack_append]
    cases h : digit c with
    | none => cases valueBack base digit s.reverse <;> simp
    | some d =>
      rw [Option.map_some, Option.bind_eq_bind, Option.bind_some, ih]
      cases valueBack base digit s.reverse with
      | none => rfl
      | some v =>
        simp only [Option.bind_some, Option.map_some, List.length_reverse, List.length_cons,
          Nat.pow_succ]
        exact congrArg some (by ring)

theorem charRef_append {mark : Char} {s : CText} {n : Nat} (plain : ∀ c ∈ s, c ≠ ';' ∧ c ≠ mark)
    (number : s.foldlM (fun n c => (digit c).map fun d => base * n + d) 0 = some n) (rest : CText) :
    charRef base digit mark (s ++ ';' :: rest) = some (n % 4294967296, rest) := by
  have before : ∀ c ∈ s, decide (c ≠ ';') = true := fun c member => decide_eq_true (plain c member).1
  have digits : ∀ c ∈ s.reverse, decide (c ≠ mark) = true := fun c member =>
    decide_eq_true (plain c (List.mem_reverse.mp member)).2
  have whole : s.reverse.takeWhile (· ≠ mark) = s.reverse := List.takeWhile_eq_self_iff.mpr digits
  have value : valueBack base digit s.reverse = some n := by
    have read := (valueBack_reverse s 0).symm.trans number
    cases back : valueBack base digit s.reverse with
    | none => rw [back] at read; cases read
    | some v => simpa [back] using read
  have first : (s ++ ';' :: rest).takeWhile (· ≠ ';') = s := by
    rw [List.takeWhile_append_of_pos before]
    simp
  rw [charRef, List.dropWhile_append_of_pos before, first, whole, ucsBack_eq _ _ _ (by decide), value]
  simp

end Numbers

section Bytes

theorem trail_eq (input : Nat) : trail input = byte (input % 64 + 128) := by
  have low : input % 64 < 2 ^ 7 := Nat.lt_of_lt_of_le (Nat.mod_lt _ (by decide)) (by decide)
  have bits : (input ||| 0x80) &&& 0xbf = 2 ^ 7 * 1 + input % 64 := by
    rw [Nat.two_pow_add_eq_or_of_lt low]
    apply Nat.eq_of_testBit_eq
    intro i
    rw [show input % 64 = input % 2 ^ 6 from rfl]
    simp only [Nat.testBit_and, Nat.testBit_or, Nat.testBit_mod_two_pow]
    generalize input.testBit i = b
    by_cases small : i < 8
    · interval_cases i <;> revert b <;> decide
    · have top : ∀ n < 256, n.testBit i = false := fun n less =>
        Nat.testBit_lt_two_pow (Nat.lt_of_lt_of_le less
          (Nat.pow_le_pow_right (n := 2) (by decide) (Nat.not_lt.mp small)))
      simp [top 0x80 (by decide), top 0xbf (by decide), show ¬ i < 6 by omega]
  rw [trail, bits]
  exact congrArg byte (Nat.add_comm _ _)

theorem first_eq (n high i a : Nat) (less : high < 2 ^ i) (mark : 2 ^ i * a = n) :
    byte (high ||| n) = byte (high + n) := by
  rw [← mark, Nat.or_comm, ← Nat.two_pow_add_eq_or_of_lt less, Nat.add_comm]

def utf8Bytes (c : Char) : CText := (String.utf8EncodeChar c).map fun b => Char.ofNat b.toNat

theorem ofNat_byte (n : Nat) : Char.ofNat (UInt8.ofNat n).toNat = byte n := by
  rw [byte, UInt8.toNat_ofNat']

theorem convert_char (c : Char) : convertUTF32ToUTF8 c.toNat = utf8Bytes c := by
  have inside : c.toNat < 0x110000 := by
    rcases c.valid with low | ⟨_, high⟩
    · exact Nat.lt_trans low (by decide)
    · exact high
  rw [convertUTF32ToUTF8, utf8Bytes, String.utf8EncodeChar, show c.val.toNat = c.toNat from rfl]
  generalize c.toNat = v at inside
  simp only [trail_eq, Nat.shiftRight_eq_div_pow]
  by_cases one : v < 0x80
  · rw [if_pos one, if_pos (by omega), List.map_singleton, ofNat_byte]
  by_cases two : v < 0x800
  · rw [if_neg one, if_pos two, if_neg (by omega), if_pos (by omega),
      first_eq 0xc0 (v / 2 ^ 6) 5 6 (by omega) rfl, Nat.mod_eq_of_lt (a := v / 64) (by omega)]
    simp only [List.map_cons, List.map_nil, ofNat_byte]
  by_cases three : v < 0x10000
  · rw [if_neg one, if_neg two, if_pos three, if_neg (by omega), if_neg (by omega), if_pos (by omega),
      first_eq 0xe0 (v / 2 ^ 12) 4 14 (by omega) rfl, Nat.mod_eq_of_lt (a := v / 4096) (by omega)]
    simp only [List.map_cons, List.map_nil, ofNat_byte]
  · rw [if_neg one, if_neg two, if_neg three, if_pos (by omega), if_neg (by omega), if_neg (by omega),
      if_neg (by omega), first_eq 0xf0 (v / 2 ^ 18) 3 30 (by omega) rfl,
      Nat.mod_eq_of_lt (a := v / 262144) (by omega)]
    simp only [List.map_cons, List.map_nil, ofNat_byte]

end Bytes

section References
variable {encoding : Encoding} {c : Char} {r s : CText} {n : Nat}

theorem digits_of_foldlM {base : Nat} {digit : Char → Option Nat} (s : CText) (m : Nat)
    (number : s.foldlM (fun n c => (digit c).map fun d => base * n + d) m = some n) :
    ∀ c ∈ s, (digit c).isSome = true := by
  induction s generalizing m with
  | nil => exact List.forall_mem_nil _
  | cons c s ih =>
    rw [List.foldlM_cons] at number
    cases here : digit c with
    | none => rw [here] at number; cases number
    | some d =>
      rw [here] at number
      exact List.forall_mem_cons.mpr ⟨by rw [here]; rfl, ih _ number⟩

theorem decimal_foldlM (all : ∀ c ∈ s, c.isDigit = true) (m : Nat) :
    s.foldlM (fun n c => (decimalDigit c).map fun d => 10 * n + d) m = some (CText.digits m s) := by
  induction s generalizing m with
  | nil => rfl
  | cons c s ih =>
    obtain ⟨digit, later⟩ := List.forall_mem_cons.mp all
    rw [List.foldlM_cons, CText.digits, if_pos digit, decimalDigit, if_pos digit]
    exact ih later _

theorem ofNat_legal (legal : xmlChar (Char.ofNat n) = true) :
    n < 0x110000 ∧ (Char.ofNat n).toNat = n := by
  by_cases valid : n.isValidChar
  · have same : (Char.ofNat n).toNat = n := by
      rw [Char.ofNat, dif_pos valid]
      rfl
    refine ⟨?_, same⟩
    rcases valid with low | ⟨_, high⟩
    · exact Nat.lt_trans low (by decide)
    · exact high
  · rw [Char.ofNat, dif_neg valid] at legal
    exact absurd legal (by decide)

theorem getEntity_decimal (decimal : s.Decimal) (rest : CText) :
    getEntity encoding ('&' :: '#' :: s ++ ';' :: rest) =
      (ucsValue encoding (CText.digits 0 s % 4294967296), some rest) := by
  obtain ⟨nonempty, all⟩ := decimal
  have plain : ∀ c ∈ s, c ≠ ';' ∧ c ≠ '#' := fun c member =>
    ⟨by rintro rfl; exact absurd (all _ member) (by decide),
      CText.digit_ne (all c member) '#' (by decide)⟩
  have read := charRef_append plain (decimal_foldlM all 0) rest
  obtain ⟨d, s, rfl⟩ := List.exists_cons_of_ne_nil nonempty
  have other : d ≠ 'x' := by
    rintro rfl
    exact absurd (all _ List.mem_cons_self) (by decide)
  rw [List.cons_append] at read
  simp only [getEntity, List.cons_append, if_neg other, read]

theorem getEntity_hex (number : hexNumber s = some n) (rest : CText) :
    getEntity encoding ('&' :: '#' :: 'x' :: s ++ ';' :: rest) =
      (ucsValue encoding (n % 4294967296), some rest) := by
  have plain : ∀ c ∈ s, c ≠ ';' ∧ c ≠ 'x' := by
    intro c member
    have digit : (hexDigit c).isSome = true := digits_of_foldlM s 0 number c member
    constructor
    · rintro rfl
      exact absurd digit (by decide)
    · rintro rfl
      exact absurd digit (by decide)
  have read : charRef 16 hexDigit 'x' (s ++ ';' :: rest) = some (n % 4294967296, rest) :=
    charRef_append plain number rest
  simp [getEntity, read]

theorem getEntity_reference (reference : Reference c r) (legal : xmlChar c = true) (rest : CText) :
    getEntity encoding ('&' :: r ++ ';' :: rest) = (ucsValue encoding c.toNat, some rest) := by
  cases reference with
  | decimal number =>
    obtain ⟨inside, same⟩ := ofNat_legal legal
    rw [same]
    refine (getEntity_decimal number rest).trans ?_
    rw [Nat.mod_eq_of_lt (Nat.lt_trans inside (by decide))]
  | hexadecimal _ number =>
    obtain ⟨inside, same⟩ := ofNat_legal legal
    rw [same]
    refine (getEntity_hex number rest).trans ?_
    rw [Nat.mod_eq_of_lt (Nat.lt_trans inside (by decide))]
  | _ => cases encoding <;> rfl

end References

end DevAccess.TinyXml
