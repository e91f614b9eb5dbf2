import DevAccess.Foundation.CText
import DevAccess.Foundation.Word
import Mathlib.Tactic.Ring

/-! Arrays as hexadecimal text: ArrayToString, and _Template_HexstrToArray for char texts
and unsigned char arrays. -/
namespace DevAccess.Xml
open Foundation

def hexDigit (isUper : Bool) (d : Nat) : Char :=
  if d < 10 then Char.ofNat (48 + d) else Char.ofNat ((if isUper then 55 else 87) + d)

def hexByte (isUper : Bool) (b : UInt8) : CText :=
  [hexDigit isUper (b.toNat / 16), hexDigit isUper (b.toNat % 16)]

def arrayLoop (mark gap : CText) (isUper : Bool) : List UInt8 → CText
  | [] => []
  | b :: rest =>
    mark ++ hexByte isUper b ++ (if rest = [] then [] else gap) ++ arrayLoop mark gap isUper rest

def pSpace (fmt : Int) : CText := if fmt = 1 ∨ fmt = 2 ∨ fmt = 5 ∨ fmt = 6 then [' '] else []

def p0x (fmt : Int) : CText := if fmt = 2 then ['0', 'x'] else if fmt = 6 then ['0', 'X'] else []

def isUper (fmt : Int) : Bool := fmt = 4 ∨ fmt = 5 ∨ fmt = 6

def arrayToString (hexArray : List UInt8) (fmt : Int) : CText :=
  arrayLoop (p0x fmt) (pSpace fmt) (isUper fmt) hexArray

def toHexChar (c : Char) : Int :=
  if '0' ≤ c ∧ c ≤ '9' then c.toNat - 48
  else if 'A' ≤ c ∧ c ≤ 'F' then c.toNat - 55
  else if 'a' ≤ c ∧ c ≤ 'f' then c.toNat - 87
  else if c = ' ' ∨ c = ',' then -1
  else -2

/-- What can stop the loop: a read behind the zero that ends the text or an int index that
grows too large, both undefined in C, and too few steps of the model. -/
inductive HexStop where
  | pastEnd
  | overflow
  | steps
deriving DecidableEq

def charAt (str : CText) (i : Nat) : Except HexStop Char :=
  match str[i]? with
  | some c => .ok c
  | none => if i = str.length then .ok '\x00' else .error .pastEnd

/-- i + n for an int. -/
def advance (i n : Nat) : Except HexStop Nat := if i + n < 2147483648 then .ok (i + n) else .error .overflow

structure Group where
  i : Nat
  j : Nat
  hextmp : UInt8

/-- The inner loop, with left iterations to the bound iSize of j. -/
def groupLoop (str : CText) : Nat → Group → Int → Except HexStop Group
  | 0, g, _ => .ok g
  | left + 1, g, ctype =>
    if ctype < 0 then .ok g
    else do
      let ctype := toHexChar (← charAt str g.i)
      let i ← advance g.i 1
      let hextmp := if 0 ≤ ctype then g.hextmp <<< 4 ||| UInt8.ofInt ctype else g.hextmp
      groupLoop str left ⟨i, g.j + 1, hextmp⟩ ctype

def at0x (str : CText) (i : Nat) : Except HexStop Bool := do
  if (← charAt str i) = '0' then
    let x ← charAt str (← advance i 1)
    return x = 'x' ∨ x = 'X'
  else return false

/-- The outer loop; out holds the ss bytes stored so far. -/
def hexLoop (str : CText) (buflen : Int) : Nat → Nat → List UInt8 → Except HexStop (List UInt8)
  | 0, _, _ => .error .steps
  | fuel + 1, i, out => do
    if (← charAt str i) = '\x00' then return out
    if buflen ≠ 0 ∧ buflen ≤ out.length then return out
    if ← at0x str i then
      hexLoop str buflen fuel (← advance i 2) out
    else
      let g ← groupLoop str 2 ⟨i, 0, 0⟩ 0
      if g.j = 1 then hexLoop str buflen fuel g.i out
      else hexLoop str buflen fuel g.i (out ++ [g.hextmp])

/-- The count that is returned, and what stands in out. Every round of the loop passes a
character, so the length bounds the rounds. -/
def hexstrToArray (str : CText) (buflen : Int) : Except HexStop (Nat × List UInt8) := do
  let out ← hexLoop str buflen (str.length + 1) 0 []
  return (out.length, out)

section Text

def At (str : CText) (i : Nat) (s : CText) : Prop := i ≤ str.length ∧ str.drop i = s

variable {str s : CText} {i : Nat} {c : Char}

theorem charAt_cons (here : At str i (c :: s)) : charAt str i = .ok c ∧ At str (i + 1) s := by
  obtain ⟨inside, rest⟩ := here
  have first : str[i]? = some c := by rw [← List.head?_drop, rest, List.head?_cons]
  refine ⟨by rw [charAt, first], (List.getElem?_eq_some_iff.mp first).1, ?_⟩
  rw [← List.tail_drop, rest, List.tail_cons]

theorem charAt_nil (here : At str i []) : charAt str i = .ok '\x00' := by
  obtain ⟨inside, rest⟩ := here
  have last : i = str.length := Nat.le_antisymm inside (List.drop_eq_nil_iff.mp rest)
  rw [charAt, List.getElem?_eq_none (Nat.le_of_eq last.symm)]
  exact if_pos last

theorem digit_facts : ∀ (u : Bool) (d : Fin 16), toHexChar (hexDigit u d) = d ∧
    hexDigit u d ≠ '\x00' ∧ hexDigit u d ≠ 'x' ∧ hexDigit u d ≠ 'X' := by decide

theorem digits_join : ∀ hi lo : Fin 16, ((0 : UInt8) <<< 4 ||| UInt8.ofInt ((hi : Nat) : Int)) <<< 4 |||
    UInt8.ofInt ((lo : Nat) : Int) = UInt8.ofNat (16 * hi + lo) := by decide

end Text

section Rounds
variable {str s : CText} {i fuel : Nat} {buflen : Int} {out : List UInt8}

def Room (buflen : Int) (out : List UInt8) : Prop := ¬ (buflen ≠ 0 ∧ buflen ≤ out.length)

theorem round_0x {c : Char} (first : charAt str i = .ok c) (more : c ≠ '\x00') (room : Room buflen out)
    (starts : at0x str i = .ok true) : hexLoop str buflen (fuel + 1) i out =
      (advance i 2).bind fun i => hexLoop str buflen fuel i out := by
  rw [hexLoop]
  simp only [first, starts, bind, Except.bind, if_neg more, if_neg room]
  rfl

theorem round_group {c : Char} (first : charAt str i = .ok c) (more : c ≠ '\x00') (room : Room buflen out)
    (starts : at0x str i = .ok false) : hexLoop str buflen (fuel + 1) i out =
      (groupLoop str 2 ⟨i, 0, 0⟩ 0).bind fun g =>
        if g.j = 1 then hexLoop str buflen fuel g.i out
        else hexLoop str buflen fuel g.i (out ++ [g.hextmp]) := by
  rw [hexLoop]
  simp only [first, starts, bind, Except.bind, if_neg more, if_neg room]
  rfl

theorem at0x_mark {x : Char} (here : At str i ('0' :: x :: s)) (isX : x = 'x' ∨ x = 'X')
    (fits : i + 1 < 2147483648) : at0x str i = .ok true := by
  obtain ⟨first, later⟩ := charAt_cons here
  obtain ⟨second, -⟩ := charAt_cons later
  simp [at0x, first, advance, fits, second, isX, bind, Except.bind, pure, Except.pure]

theorem at0x_overflow (here : At str i ('0' :: s)) (last : ¬ i + 1 < 2147483648) :
    at0x str i = .error .overflow := by
  obtain ⟨first, -⟩ := charAt_cons here
  simp [at0x, first, advance, last, bind, Except.bind]

theorem skip_0x {x : Char} (here : At str i ('0' :: x :: s)) (isX : x = 'x' ∨ x = 'X')
    (room : Room buflen out) : hexLoop str buflen (fuel + 1) i out =
      if i + 2 < 2147483648 then hexLoop str buflen fuel (i + 2) out else .error .overflow := by
  obtain ⟨first, -⟩ := charAt_cons here
  by_cases fits : i + 1 < 2147483648
  · rw [round_0x first (by decide) room (at0x_mark here isX fits), advance]
    split
    · rfl
    · rfl
  · have zero : '0' ≠ '\x00' := by decide
    rw [hexLoop, if_neg (show ¬ i + 2 < 2147483648 by omega)]
    simp only [first, at0x_overflow here fits, bind, Except.bind, if_neg zero, if_neg room]

theorem skip_space (here : At str i (' ' :: s)) (room : Room buflen out) :
    hexLoop str buflen (fuel + 1) i out =
      if i + 1 < 2147483648 then hexLoop str buflen fuel (i + 1) out else .error .overflow := by
  obtain ⟨first, -⟩ := charAt_cons here
  have starts : at0x str i = .ok false := by
    simp [at0x, first, bind, Except.bind, pure, Except.pure]
  have space : toHexChar ' ' = -1 := by decide
  rw [round_group first (by decide) room starts]
  by_cases fits : i + 1 < 2147483648
  · simp [groupLoop, first, advance, fits, bind, Except.bind, space]
  · simp [groupLoop, first, advance, fits, bind, Except.bind]

theorem groupLoop_digit {c : Char} {g : Group} {d left : Nat} {ctype : Int} (goes_on : 0 ≤ ctype)
    (first : charAt str g.i = .ok c) (value : toHexChar c = d) : groupLoop str (left + 1) g ctype =
      (advance g.i 1).bind fun i =>
        groupLoop str left ⟨i, g.j + 1, g.hextmp <<< 4 ||| UInt8.ofInt d⟩ d := by
  have digit : (0 : Int) ≤ d := Int.natCast_nonneg d
  rw [groupLoop, if_neg (by omega)]
  simp only [first, value, bind, Except.bind, if_pos digit]

theorem read_byte {u : Bool} {b : UInt8} (here : At str i (hexByte u b ++ s)) (room : Room buflen out) :
    hexLoop str buflen (fuel + 1) i out =
      if i + 2 < 2147483648 then hexLoop str buflen fuel (i + 2) (out ++ [b]) else .error .overflow := by
  have small := b.toNat_lt
  obtain ⟨hi_value, hi_end, -, -⟩ := digit_facts u ⟨b.toNat / 16, by omega⟩
  obtain ⟨lo_value, -, not_x, not_X⟩ := digit_facts u ⟨b.toNat % 16, by omega⟩
  have value := digits_join ⟨b.toNat / 16, by omega⟩ ⟨b.toNat % 16, by omega⟩
  simp only [show 16 * (b.toNat / 16) + b.toNat % 16 = b.toNat by omega, UInt8.ofNat_toNat] at value
  obtain ⟨first, later⟩ := charAt_cons here
  obtain ⟨second, -⟩ := charAt_cons later
  by_cases fits : i + 1 < 2147483648
  · have starts : at0x str i = .ok false := by
      simp [at0x, first, advance, fits, second, not_x, not_X, bind, Except.bind, pure, Except.pure]
    have one : advance i 1 = .ok (i + 1) := if_pos fits
    rw [round_group first hi_end room starts,
      groupLoop_digit (Int.le_refl 0) first hi_value, one, Except.bind,
      groupLoop_digit (Int.natCast_nonneg _) second lo_value, value]
    by_cases both : i + 2 < 2147483648
    · have two : advance (i + 1) 1 = .ok (i + 2) := if_pos both
      rw [two, if_pos both]
      rfl
    · have stops : advance (i + 1) 1 = .error .overflow := if_neg both
      rw [stops, if_neg both]
      rfl
  · have stops : advance i 1 = .error .overflow := if_neg fits
    rw [if_neg (show ¬ i + 2 < 2147483648 by omega)]
    by_cases zero : hexDigit u (b.toNat / 16) = '0'
    · rw [hexLoop]
      have starts : at0x str i = .error .overflow := by
        simp [at0x, first, zero, stops, bind, Except.bind]
      simp only [first, starts, bind, Except.bind, if_neg hi_end, if_neg room]
    · have starts : at0x str i = .ok false := by
        simp [at0x, first, zero, bind, Except.bind, pure, Except.pure]
      rw [round_group first hi_end room starts, groupLoop_digit (Int.le_refl 0) first hi_value, stops]
      rfl

end Rounds

section RoundTrip
variable {str s mark gap : CText} {i fuel : Nat} {buflen : Int} {out : List UInt8} {u : Bool}

theorem at_append {r : CText} (here : At str i (r ++ s)) : At str (i + r.length) s := by
  induction r generalizing i with
  | nil => exact here
  | cons c r ih =>
    have later := ih (charAt_cons here).2
    rwa [Nat.add_assoc, Nat.add_comm 1] at later

def Passes (str : CText) (buflen : Int) (i : Nat) (out : List UInt8) (n : Nat) (out' : List UInt8) : Prop :=
  ∃ used, used ≤ n ∧ ∀ fuel, hexLoop str buflen (fuel + used) i out =
    if i + n < 2147483648 then hexLoop str buflen fuel (i + n) out' else .error .overflow

theorem passes_nothing (small : i < 2147483648) : Passes str buflen i out 0 out :=
  ⟨0, Nat.le_refl 0, fun _ => (if_pos small).symm⟩

theorem Passes.trans {out₁ out₂ : List UInt8} {a b : Nat} (first : Passes str buflen i out a out₁)
    (second : i + a < 2147483648 → Passes str buflen (i + a) out₁ b out₂) :
    Passes str buflen i out (a + b) out₂ := by
  obtain ⟨used, few, run⟩ := first
  by_cases fits : i + a < 2147483648
  · obtain ⟨used', few', run'⟩ := second fits
    refine ⟨used' + used, by omega, fun fuel => ?_⟩
    rw [← Nat.add_assoc, run, if_pos fits, run', Nat.add_assoc]
  · refine ⟨used, by omega, fun fuel => ?_⟩
    rw [run, if_neg fits, if_neg (by omega)]

theorem passes_mark (isMark : mark = [] ∨ mark = ['0', 'x'] ∨ mark = ['0', 'X'])
    (here : At str i (mark ++ s)) (room : Room buflen out) (small : i < 2147483648) :
    Passes str buflen i out mark.length out := by
  rcases isMark with rfl | rfl | rfl
  · exact passes_nothing small
  · exact ⟨1, by decide, fun fuel => skip_0x here (.inl rfl) room⟩
  · exact ⟨1, by decide, fun fuel => skip_0x here (.inr rfl) room⟩

theorem passes_gap (isGap : gap = [] ∨ gap = [' ']) (here : At str i (gap ++ s))
    (room : gap ≠ [] → Room buflen out) (small : i < 2147483648) :
    Passes str buflen i out gap.length out := by
  rcases isGap with rfl | rfl
  · exact passes_nothing small
  · exact ⟨1, Nat.le_refl 1, fun fuel => skip_space here (room (List.cons_ne_nil _ _))⟩

theorem passes_byte {b : UInt8} (isMark : mark = [] ∨ mark = ['0', 'x'] ∨ mark = ['0', 'X'])
    (isGap : gap = [] ∨ gap = [' ']) (here : At str i (mark ++ (hexByte u b ++ (gap ++ s))))
    (room : Room buflen out) (later : gap ≠ [] → Room buflen (out ++ [b])) (small : i < 2147483648) :
    Passes str buflen i out (mark.length + 2 + gap.length) (out ++ [b]) ∧
      At str (i + (mark.length + 2 + gap.length)) s := by
  have at_byte := at_append here
  have at_gap : At str (i + mark.length + 2) (gap ++ s) := at_append at_byte
  have at_rest := at_append at_gap
  rw [Nat.add_assoc i, Nat.add_assoc i] at at_rest
  rw [Nat.add_assoc i] at at_gap
  have whole := (passes_mark isMark here room small).trans fun _ =>
    (⟨1, by decide, fun fuel => read_byte at_byte room⟩ : Passes str buflen _ out 2 (out ++ [b]))
  exact ⟨whole.trans fun fits => passes_gap isGap at_gap later fits, at_rest⟩

theorem loop_decodes (isMark : mark = [] ∨ mark = ['0', 'x'] ∨ mark = ['0', 'X'])
    (isGap : gap = [] ∨ gap = [' ']) (bs : List UInt8) (here : At str i (arrayLoop mark gap u bs))
    (small : i < 2147483648) (enough : (arrayLoop mark gap u bs).length < fuel)
    (fits : buflen = 0 ∨ ((out.length + bs.length : Nat) : Int) ≤ buflen) :
    hexLoop str buflen fuel i out =
      if i + (arrayLoop mark gap u bs).length < 2147483648 then .ok (out ++ bs)
      else .error .overflow := by
  induction bs generalizing i out fuel with
  | nil =>
    cases fuel with
    | zero => cases enough
    | succ fuel =>
      rw [hexLoop, charAt_nil here, List.append_nil]
      exact (if_pos small).symm
  | cons b rest ih =>
    have room : Room buflen out := by
      simp only [List.length_cons] at fits
      unfold Room
      omega
    have later : (if rest = [] then [] else gap) ≠ [] → Room buflen (out ++ [b]) := by
      intro between
      have more : rest ≠ [] := fun last => between (if_pos last)
      have := List.length_pos_iff.mpr more
      simp only [List.length_cons] at fits
      simp only [Room, List.length_append, List.length_cons, List.length_nil]
      omega
    have isGap' : (if rest = [] then [] else gap) = [] ∨ (if rest = [] then [] else gap) = [' '] := by
      split
      · exact .inl rfl
      · exact isGap
    have fits' : buflen = 0 ∨ (((out ++ [b]).length + rest.length : Nat) : Int) ≤ buflen := by
      simp only [List.length_cons] at fits
      simp only [List.length_append, List.length_cons, List.length_nil]
      omega
    rw [arrayLoop, List.append_assoc, List.append_assoc] at here
    obtain ⟨⟨used, few, run⟩, at_rest⟩ := passes_byte isMark isGap' here room later small
    rw [arrayLoop, List.length_append, List.length_append, List.length_append,
      show (hexByte u b).length = 2 from rfl] at enough ⊢
    obtain ⟨k, rfl⟩ : ∃ k, fuel = k + used := ⟨fuel - used, by omega⟩
    rw [run]
    by_cases inside : i + (mark.length + 2 + (if rest = [] then [] else gap).length) < 2147483648
    · rw [if_pos inside, ih at_rest inside (by omega) fits', List.append_assoc, Nat.add_assoc i]
      rfl
    · rw [if_neg inside, if_neg (by omega)]

def textLength (fmt : Int) (n : Nat) : Nat :=
  n * (if fmt = 2 ∨ fmt = 6 then 4
    else 2) + (n - 1) * (if fmt = 1 ∨ fmt = 2 ∨ fmt = 5 ∨ fmt = 6 then 1 else 0)

theorem arrayLoop_length (mark gap : CText) (u : Bool) (bs : List UInt8) :
    (arrayLoop mark gap u bs).length = bs.length * (mark.length + 2) + (bs.length - 1) * gap.length := by
  induction bs with
  | nil => simp [arrayLoop]
  | cons b rest ih =>
    rw [arrayLoop, List.length_append, List.length_append, List.length_append, ih,
      show (hexByte u b).length = 2 from rfl]
    cases rest with
    | nil => simp
    | cons c rest =>
      simp only [reduceCtorEq, if_false, List.length_cons, Nat.add_sub_cancel]
      ring

theorem p0x_cases (fmt : Int) : p0x fmt = [] ∨ p0x fmt = ['0', 'x'] ∨ p0x fmt = ['0', 'X'] := by
  unfold p0x
  split
  · exact .inr (.inl rfl)
  · split
    · exact .inr (.inr rfl)
    · exact .inl rfl

theorem pSpace_cases (fmt : Int) : pSpace fmt = [] ∨ pSpace fmt = [' '] := by
  unfold pSpace
  split
  · exact .inr rfl
  · exact .inl rfl

theorem arrayToString_length (hexArray : List UInt8) (fmt : Int) :
    (arrayToString hexArray fmt).length = textLength fmt hexArray.length := by
  rw [arrayToString, arrayLoop_length, textLength]
  congr 2
  · by_cases lower : fmt = 2
    · simp [p0x, lower]
    · by_cases upper : fmt = 6
      · simp [p0x, upper]
      · simp [p0x, lower, upper]
  · unfold pSpace
    split
    · rfl
    · rfl

theorem hexstrToArray_text (hexArray : List UInt8) (fmt : Int) {buflen : Int}
    (fits : hexArray.length ≤ buflen) : hexstrToArray (arrayToString hexArray fmt) buflen =
      if textLength fmt hexArray.length < 2147483648 then .ok (hexArray.length, hexArray)
      else .error .overflow := by
  have whole : At (arrayToString hexArray fmt) 0 (arrayToString hexArray fmt) := ⟨Nat.zero_le _, rfl⟩
  have room : buflen = 0 ∨ ((([] : List UInt8).length + hexArray.length : Nat) : Int) ≤ buflen :=
    .inr (by rw [List.length_nil, Nat.zero_add]; exact fits)
  have decoded : hexLoop (arrayToString hexArray fmt) buflen ((arrayToString hexArray fmt).length + 1) 0 [] =
      if 0 + (arrayToString hexArray fmt).length < 2147483648 then .ok ([] ++ hexArray)
      else .error .overflow :=
    loop_decodes (p0x_cases fmt) (pSpace_cases fmt) hexArray whole (by decide) (Nat.lt_succ_self _) room
  rw [Nat.zero_add, List.nil_append] at decoded
  rw [hexstrToArray, decoded, arrayToString_length]
  split
  · rfl
  · rfl

/-- A text of ArrayToString is read back as the array exactly when its length is an int. -/
theorem hex_round_trip_iff (hexArray : List UInt8) (fmt buflen : Int)
    (fits : hexArray.length ≤ buflen) :
    hexstrToArray (arrayToString hexArray fmt) buflen = .ok (hexArray.length, hexArray) ↔
      textLength fmt hexArray.length < 2147483648 := by
  rw [hexstrToArray_text hexArray fmt fits]
  split
  · rename_i short
    exact iff_of_true rfl short
  · rename_i long
    exact iff_of_false (by simp) long

theorem hex_round_trip_zeros :
    hexstrToArray (arrayToString [0, 1, 0, 255] 2) 4 = .ok (4, [0, 1, 0, 255]) :=
  (hex_round_trip_iff [0, 1, 0, 255] 2 4 (by decide)).mpr (by decide)

/-- The index of the decoder overflows on the text of 2^30 bytes. -/
theorem long_text_lost :
    hexstrToArray (arrayToString (List.replicate 1073741824 0) 0) 1073741824 ≠
      .ok ((List.replicate 1073741824 (0 : UInt8)).length, List.replicate 1073741824 0) := by
  have size : (List.replicate 1073741824 (0 : UInt8)).length = 1073741824 := List.length_replicate
  have fits : ((List.replicate 1073741824 (0 : UInt8)).length : Int) ≤ 1073741824 := by rw [size]; decide
  have long : ¬ textLength 0 1073741824 < 2147483648 := by decide
  rw [hexstrToArray_text _ 0 fits, size, if_neg long]
  intro same
  cases same

end RoundTrip

end DevAccess.Xml
