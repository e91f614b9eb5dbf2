import DevAccess.Foundation.CText

/-! The three functions that show bytes in hexadecimal: the two HexArrayToString of
wLog.cpp, by sprintf and by a string stream, and CSimpleLog::GetBytesStr. -/
namespace DevAccess.Log
open Foundation

def padded (width : Nat) (fill : Char) (s : CText) : CText := List.replicate (width - s.length) fill ++ s

def sprintf02x (b : UInt8) : CText := padded 2 '0' (Nat.toDigits 16 b.toNat) ++ [' ']

/-- One pass of the sprintf loop. It writes at pOutStr + iDataLen, which is where the text
so far ends. -/
def dumpByte (s : Int × CText) (b : UInt8) : Int × CText :=
  (int32 (s.1 + (sprintf02x b).length), s.2 ++ sprintf02x b)

def hexArrayToString (pOutStr : CText) (hexArray : List UInt8) : Int × CText :=
  if hexArray = [] then (0, pOutStr) else hexArray.foldl dumpByte (0, [])

/-- A string stream in mode hex. The width is for the next insertion only, the fill for all. -/
structure StringStream where
  str : CText := []
  width : Nat := 0
  fill : Char := ' '

def StringStream.setw (n : Nat) (ss : StringStream) : StringStream := { ss with width := n }
def StringStream.setfill (c : Char) (ss : StringStream) : StringStream := { ss with fill := c }

def StringStream.put (s : CText) (ss : StringStream) : StringStream :=
  { ss with str := ss.str ++ padded ss.width ss.fill s, width := 0 }

def StringStream.putHex (n : Nat) (ss : StringStream) : StringStream := ss.put (Nat.toDigits 16 n)

def streamByte (ss : StringStream) (b : UInt8) : StringStream := (ss.putHex b.toNat).put [' ']

def hexArrayToStdString (hexArray : List UInt8) : Int × CText :=
  if hexArray = [] then (0, [])
  else
    let ss := hexArray.foldl streamByte ((({} : StringStream).setw 2).setfill '0')
    (int32 ss.str.length, ss.str)

/-- out.reserve(n): a negative int is a size_t above max_size, for which length_error is thrown. -/
def reserve (n : Int) (out : CText) : Option CText := if n < 0 then none else some out

def getBytesStr (bytes : List UInt8) : Option CText :=
  if 0 < bytes.length then
    (reserve (int32 (bytes.length * 3 + 3)) []).map fun out =>
      bytes.foldl (fun out b => out ++ sprintf02x b) out
  else some []

/-- Two lower-case digits and a blank for each byte. -/
def shownByte (b : UInt8) : CText := [Nat.digitChar (b.toNat / 16), Nat.digitChar (b.toNat % 16), ' ']

/-- All three give the text that is meant, and the two that count return its length. -/
structure DumpersAgree (pOutStr : CText) (bytes : List UInt8) : Prop where
  chars : (hexArrayToString pOutStr bytes).2 = bytes.flatMap shownByte
  stdString : (hexArrayToStdString bytes).2 = bytes.flatMap shownByte
  bytesStr : getBytesStr bytes = some (bytes.flatMap shownByte)
  returned : (hexArrayToString pOutStr bytes).1 = 3 * bytes.length ∧
    (hexArrayToStdString bytes).1 = 3 * bytes.length

theorem digits_small {n : Nat} (small : n < 16) : Nat.toDigits 16 n = [Nat.digitChar n] :=
  Nat.toDigits_of_lt_base small

theorem digits_large {n : Nat} (large : 16 ≤ n) (byte : n < 256) :
    Nat.toDigits 16 n = [Nat.digitChar (n / 16), Nat.digitChar (n % 16)] := by
  have high : n / 16 < 16 := by omega
  rw [Nat.toDigits_of_base_le (by decide) large, digits_small high]
  rfl

theorem sprintf02x_eq (b : UInt8) : sprintf02x b = shownByte b := by
  rcases Nat.lt_or_ge b.toNat 16 with small | large
  · have high : b.toNat / 16 = 0 := by omega
    have low : b.toNat % 16 = b.toNat := Nat.mod_eq_of_lt small
    rw [sprintf02x, digits_small small, shownByte, high, low]
    rfl
  · rw [sprintf02x, digits_large large b.toNat_lt]
    rfl

theorem shown_length (bytes : List UInt8) : (bytes.flatMap shownByte).length = 3 * bytes.length := by
  induction bytes with
  | nil => rfl
  | cons b rest ih =>
    rw [List.flatMap_cons, List.length_append, ih, List.length_cons, shownByte]
    simp only [List.length_cons, List.length_nil]
    omega

theorem dump_loop (bytes : List UInt8) (n : Int) (text : CText) (start : int32 n = n) :
    bytes.foldl dumpByte (n, text) =
      (int32 (n + 3 * bytes.length), text ++ bytes.flatMap shownByte) := by
  induction bytes generalizing n text with
  | nil => simp [start]
  | cons b rest ih =>
    have again : int32 (int32 (n + 3)) = int32 (n + 3) := by unfold int32; omega
    have total : int32 (int32 (n + 3) + 3 * rest.length) = int32 (n + 3 * (rest.length + 1 : Nat)) := by
      unfold int32
      omega
    have one : dumpByte (n, text) b = (int32 (n + 3), text ++ shownByte b) := by
      rw [dumpByte, sprintf02x_eq]
      rfl
    rw [List.foldl_cons, one, ih _ _ again, total, List.flatMap_cons, List.append_assoc,
      List.length_cons]

theorem bytes_loop (bytes : List UInt8) (out : CText) :
    bytes.foldl (fun out b => out ++ sprintf02x b) out = out ++ bytes.flatMap shownByte := by
  induction bytes generalizing out with
  | nil => rw [List.foldl_nil, List.flatMap_nil, List.append_nil]
  | cons b rest ih =>
    rw [List.foldl_cons, ih, sprintf02x_eq, List.flatMap_cons, List.append_assoc]

def bareByte (b : UInt8) : CText := Nat.toDigits 16 b.toNat ++ [' ']

theorem stream_loop (bytes : List UInt8) (ss : StringStream) (used : ss.width = 0) :
    (bytes.foldl streamByte ss).str = ss.str ++ bytes.flatMap bareByte := by
  induction bytes generalizing ss with
  | nil => rw [List.foldl_nil, List.flatMap_nil, List.append_nil]
  | cons b rest ih =>
    have one : (streamByte ss b).str = ss.str ++ bareByte b := by
      simp [streamByte, StringStream.putHex, StringStream.put, padded, bareByte, used]
    rw [List.foldl_cons, ih _ rfl, one, List.flatMap_cons, List.append_assoc]

/-- The stream pads its first number only. -/
theorem stream_text (b : UInt8) (rest : List UInt8) :
    (hexArrayToStdString (b :: rest)).2 = shownByte b ++ rest.flatMap bareByte := by
  have first : (streamByte ((({} : StringStream).setw 2).setfill '0') b).str = shownByte b := by
    rw [← sprintf02x_eq]
    simp [streamByte, StringStream.putHex, StringStream.put, StringStream.setw, StringStream.setfill,
      padded, sprintf02x]
  have loop := stream_loop rest (streamByte ((({} : StringStream).setw 2).setfill '0') b) rfl
  rw [first] at loop
  exact loop

theorem bareByte_large {b : UInt8} (large : 16 ≤ b.toNat) : bareByte b = shownByte b := by
  rw [bareByte, digits_large large b.toNat_lt]
  rfl

theorem bareByte_apart {b : UInt8} (small : b.toNat < 16) (s t : CText) :
    bareByte b ++ s ≠ shownByte b ++ t := by
  have high : b.toNat / 16 = 0 := by omega
  have low : b.toNat % 16 = b.toNat := Nat.mod_eq_of_lt small
  rw [bareByte, digits_small small, shownByte, high, low]
  intro same
  obtain ⟨zero, tail⟩ := List.cons.inj same
  obtain ⟨blank, -⟩ := List.cons.inj tail
  rw [zero] at blank
  exact absurd blank (by decide)

theorem bare_eq_shown_iff (bytes : List UInt8) :
    bytes.flatMap bareByte = bytes.flatMap shownByte ↔ ∀ b ∈ bytes, 16 ≤ b.toNat := by
  induction bytes with
  | nil => exact iff_of_true rfl (fun b none => nomatch none)
  | cons b rest ih =>
    rw [List.flatMap_cons, List.flatMap_cons, List.forall_mem_cons, ← ih]
    rcases Nat.lt_or_ge b.toNat 16 with small | large
    · have apart := bareByte_apart small (rest.flatMap bareByte) (rest.flatMap shownByte)
      exact iff_of_false apart (fun both => Nat.not_le_of_lt small both.1)
    · rw [bareByte_large large, List.append_cancel_left_eq]
      exact (and_iff_right large).symm

theorem stdString_iff (b : UInt8) (rest : List UInt8) :
    (hexArrayToStdString (b :: rest)).2 = (b :: rest).flatMap shownByte ↔ ∀ c ∈ rest, 16 ≤ c.toNat := by
  rw [stream_text, List.flatMap_cons, List.append_cancel_left_eq]
  exact bare_eq_shown_iff rest

theorem getBytesStr_iff {bytes : List UInt8} (nonempty : bytes ≠ []) :
    getBytesStr bytes = some (bytes.flatMap shownByte) ↔ 0 ≤ int32 (bytes.length * 3 + 3) := by
  rw [getBytesStr, if_pos (List.length_pos_iff.mpr nonempty), reserve]
  by_cases negative : int32 (bytes.length * 3 + 3) < 0
  · rw [if_pos negative]
    exact iff_of_false (fun none => nomatch none) (Int.not_le.mpr negative)
  · rw [if_neg negative, Option.map_some, bytes_loop, List.nil_append]
    exact iff_of_true rfl (Int.not_lt.mp negative)

/-- The dumpers agree where no byte after the first is below 16, and the size that GetBytesStr
reserves fits an int. -/
theorem dumpers_agree_iff (pOutStr : CText) (bytes : List UInt8) (nonempty : bytes ≠ []) :
    DumpersAgree pOutStr bytes ↔
      (∀ b ∈ bytes.tail, 16 ≤ b.toNat) ∧ 3 * bytes.length + 3 < 2147483648 := by
  have chars : hexArrayToString pOutStr bytes = (int32 (3 * bytes.length), bytes.flatMap shownByte) := by
    rw [hexArrayToString, if_neg nonempty, dump_loop bytes 0 [] (by decide), Int.zero_add, List.nil_append]
  have reserved : 3 * bytes.length < 2147483648 →
      (0 ≤ int32 (bytes.length * 3 + 3) ↔ 3 * bytes.length + 3 < 2147483648) := by
    intro counted
    constructor
    · intro room
      apply Nat.lt_of_not_le
      intro large
      have length : bytes.length = 715827882 := by omega
      rw [length] at room
      exact absurd room (by decide)
    · intro fits
      rw [int32_of_range (by omega) (by omega)]
      omega
  have counts : int32 (3 * bytes.length) = 3 * bytes.length ↔ 3 * bytes.length < 2147483648 := by
    unfold int32
    omega
  have stdString : (hexArrayToStdString bytes).2 = bytes.flatMap shownByte ↔
      ∀ b ∈ bytes.tail, 16 ≤ b.toNat := by
    cases bytes with
    | nil => exact absurd rfl nonempty
    | cons b rest => exact stdString_iff b rest
  have size : (hexArrayToStdString bytes).1 = int32 (hexArrayToStdString bytes).2.length := by
    rw [hexArrayToStdString, if_neg nonempty]
  constructor
  · intro agree
    have total := agree.returned.1
    rw [chars] at total
    have room := (getBytesStr_iff nonempty).mp agree.bytesStr
    exact ⟨stdString.mp agree.stdString, (reserved (counts.mp total)).mp room⟩
  · rintro ⟨large, fits⟩
    have same := stdString.mpr large
    have counted : 3 * bytes.length < 2147483648 := by omega
    have room := (getBytesStr_iff nonempty).mpr ((reserved counted).mpr fits)
    refine ⟨by rw [chars], same, room, by rw [chars]; exact counts.mpr counted, ?_⟩
    rw [size, same, shown_length, Int.natCast_mul]
    exact counts.mpr counted

/-- The bytes 0 and 1: the stream version shows the second as one digit. -/
theorem small_second_byte : ¬ DumpersAgree [] [0, 1] := by
  intro agree
  have large := (stdString_iff 0 [1]).mp agree.stdString
  exact absurd (large 1 List.mem_cons_self) (by decide)

theorem dumpers_agree_example : DumpersAgree [] [1, 0xab] :=
  (dumpers_agree_iff [] [1, 0xab] (by decide)).mpr ⟨List.forall_mem_singleton.mpr (by decide), by decide⟩

end DevAccess.Log
