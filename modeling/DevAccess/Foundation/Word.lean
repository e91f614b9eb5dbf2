import Mathlib.Algebra.Group.Nat.Defs

/-! Signed 32-bit machine integers and the two bytes of a 16-bit word. -/
namespace Foundation

def int32 (x : Int) : Int := (x + 2147483648) % 4294967296 - 2147483648

theorem int32_of_range {x : Int} (lower : -2147483648 ≤ x) (upper : x < 2147483648) :
    int32 x = x := by
  unfold int32
  omega

/-- (uint8_t)(x >> 8) and (uint8_t)(x & 0x00FF) of an int x. -/
def hiByte (x : Int) : UInt8 := UInt8.ofInt (x >>> (8 : Nat))
def loByte (x : Int) : UInt8 := UInt8.ofInt (x % 256)

def word (hi lo : UInt8) : Nat := hi.toNat * 256 + lo.toNat

theorem ofInt_toNat (x : Int) : ((UInt8.ofInt x).toNat : Int) = x % 256 := by
  simp only [UInt8.ofInt, UInt8.toNat_ofNat']
  omega

theorem hiByte_toNat (x : Int) : ((hiByte x).toNat : Int) = x / 256 % 256 := by
  rw [hiByte, ofInt_toNat, Int.shiftRight_eq_div_pow]
  rfl

theorem loByte_toNat (x : Int) : ((loByte x).toNat : Int) = x % 256 := by
  rw [loByte, ofInt_toNat]
  omega

theorem word_bytes (x : Int) : (word (hiByte x) (loByte x) : Int) = x % 65536 := by
  have hi := hiByte_toNat x
  have lo := loByte_toNat x
  simp only [word, Int.natCast_add, Int.natCast_mul]
  omega

def bit (b : UInt8) (j : Nat) : Bool := b.toNat.testBit j

def joined (hi lo : UInt8) : UInt16 := hi.toUInt16 <<< 8 + lo.toUInt16

theorem joined_toNat (hi lo : UInt8) : (joined hi lo).toNat = word hi lo := by
  have h := hi.toNat_lt
  have l := lo.toNat_lt
  simp only [joined, word, UInt16.toNat_add, UInt16.toNat_shiftLeft, UInt8.toNat_toUInt16,
    UInt16.toNat_ofNat, Nat.shiftLeft_eq, show 2 ^ (8 % 2 ^ 16 % 16) = 256 by decide]
  omega

theorem joined_bytes (v : UInt16) : joined (hiByte v.toNat) (loByte v.toNat) = v := by
  have value := word_bytes v.toNat
  have range := v.toNat_lt
  apply UInt16.toNat_inj.mp
  rw [joined_toNat]
  omega

def wordBytes (vs : List UInt16) : List UInt8 :=
  vs.flatMap (fun v => [hiByte v.toNat, loByte v.toNat])

@[simp] theorem wordBytes_length (vs : List UInt16) : (wordBytes vs).length = 2 * vs.length := by
  induction vs with
  | nil => rfl
  | cons v vs ih =>
    simp only [wordBytes, List.flatMap_cons, List.length_append, List.length_cons] at ih ⊢
    rw [ih]
    simp
    omega

theorem wordBytes_getD (vs : List UInt16) (x y : UInt8) {i : Nat} (h : i < vs.length) :
    joined ((wordBytes vs).getD (2 * i) x) ((wordBytes vs).getD (2 * i + 1) y) = vs[i] := by
  induction vs generalizing i with
  | nil => exact absurd h (Nat.not_lt_zero i)
  | cons v vs ih =>
    cases i with
    | zero => exact joined_bytes v
    | succ i => exact ih (Nat.lt_of_succ_lt_succ h)

def bitsValue : List Bool → Nat
  | [] => 0
  | b :: bs => b.toNat + 2 * bitsValue bs

theorem bitsValue_lt (bs : List Bool) : bitsValue bs < 2 ^ bs.length := by
  induction bs with
  | nil => decide
  | cons b bs ih =>
    have digit : b.toNat < 2 := Bool.toNat_lt b
    simp only [bitsValue, List.length_cons, Nat.pow_succ]
    omega

theorem bitsValue_testBit (bs : List Bool) (k : Nat) :
    (bitsValue bs).testBit k = bs.getD k false := by
  induction bs generalizing k with
  | nil => simp [bitsValue]
  | cons b bs ih =>
    cases k with
    | zero =>
      have parity : (bitsValue (b :: bs)) % 2 = b.toNat := by
        have digit : b.toNat < 2 := Bool.toNat_lt b
        simp only [bitsValue]
        omega
      rw [Nat.testBit_zero, parity]
      cases b <;> rfl
    | succ k =>
      have half : (bitsValue (b :: bs)) / 2 = bitsValue bs := by
        have digit : b.toNat < 2 := Bool.toNat_lt b
        simp only [bitsValue]
        omega
      rw [Nat.testBit_succ, half, ih]
      rfl

/-- Flags packed eight to a byte, least significant first, the last byte filled up with zeros. -/
def packBits (bs : List Bool) : List UInt8 :=
  (List.range ((bs.length + 7) / 8)).map (fun j => UInt8.ofNat (bitsValue ((bs.drop (8 * j)).take 8)))

@[simp] theorem packBits_length (bs : List Bool) : (packBits bs).length = (bs.length + 7) / 8 := by
  simp [packBits]

theorem packBits_getD (bs : List Bool) (x : UInt8) {i : Nat} (h : i < bs.length) :
    bit ((packBits bs).getD (i / 8) x) (i % 8) = bs[i] := by
  have place : i / 8 < (bs.length + 7) / 8 := by omega
  have small : bitsValue ((bs.drop (8 * (i / 8))).take 8) < 256 := by
    have bound := bitsValue_lt ((bs.drop (8 * (i / 8))).take 8)
    have width : ((bs.drop (8 * (i / 8))).take 8).length ≤ 8 := List.length_take_le ..
    exact Nat.lt_of_lt_of_le bound (Nat.pow_le_pow_right (by decide) width)
  have byte : (packBits bs).getD (i / 8) x =
      UInt8.ofNat (bitsValue ((bs.drop (8 * (i / 8))).take 8)) := by
    simp [packBits, List.getD_eq_getElem?_getD, place]
  have position : 8 * (i / 8) + i % 8 = i := Nat.div_add_mod i 8
  have low : i % 8 < 8 := Nat.mod_lt i (by decide)
  rw [byte, bit, UInt8.toNat_ofNat_of_lt' small, bitsValue_testBit, List.getD_eq_getElem?_getD,
    List.getElem?_take_of_lt low, List.getElem?_drop, position]
  simp [h]

end Foundation
