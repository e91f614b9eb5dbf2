import DevAccess.Foundation.Memory
import DevAccess.Log.Contents

/-! vWriteLog: a record put together in the buffer of the log, out of a header, the message
that the caller's format makes, and a newline. -/
namespace DevAccess.Log
open Foundation CText

inductive LogType where
  | info
  | warn
  | error
  | debug
  deriving DecidableEq

def LogType.title : LogType → CText
  | info => "Info".toList
  | warn => "Warn".toList
  | error => "Error".toList
  | debug => "Debug".toList

/-- The format %04d-%02d-%02d %02d:%02d:%02d t%d|%s: with the number of the thread. -/
def header (t : Tm) (thread : Int) (iType : LogType) : CText :=
  CText.padded 4 (t.tm_year + 1900) ++ '-' :: CText.padded 2 (t.tm_mon + 1) ++
    '-' :: CText.padded 2 t.tm_mday ++ ' ' :: CText.padded 2 t.tm_hour ++ ':' :: CText.padded 2 t.tm_min ++
    ':' :: CText.padded 2 t.tm_sec ++ ' ' :: 't' :: signedDecimal thread ++ '|' :: iType.title ++ [':']

def sizeT (z : Int) : Nat := (z % 18446744073709551616).toNat

/-- snprintf and vsnprintf with a formatted text, at the k-th cell: at most size - 1 characters
and a zero. They return the full length, or a negative number if no int can hold it. -/
def printed (a : CArray Char) (k size : Nat) (text : CText) : CArray Char × Int :=
  (if size = 0 then a else a.storeAt k (text.take (size - 1) ++ ['\x00']),
    if text.length < 2147483648 then text.length else -1)

def endLine (pBuffer : CArray Char) (iTotalLen : Int) : CArray Char × Int :=
  if pBuffer.cell (iTotalLen - 1).toNat ≠ '\n' then
    ((pBuffer.write iTotalLen.toNat '\n').write (iTotalLen + 1).toNat '\x00', iTotalLen + 1)
  else (pBuffer.write iTotalLen.toNat '\x00', iTotalLen)

/-- The body of the loop, which is left after its first round: the buffer, and the iTotalLen of
its bytes that go to LogData::WriteLog. -/
def assemble (pBuffer : CArray Char) (iBufferLen : Int) (header message : CText) : CArray Char × Int :=
  let (pBuffer, iLen) := printed pBuffer 0 (sizeT iBufferLen) header
  let iLimit := iBufferLen - iLen - 2
  let (pBuffer, iLen2) := printed pBuffer iLen.toNat (sizeT iLimit) message
  let iLen2 := if iLen2 < 0 ∨ iLen2 > iLimit then iLimit else iLen2
  endLine pBuffer (iLen + iLen2)

/-- vWriteLog, with the answer of localtime; debugging says whether __debug__ is defined. -/
def vWriteLog (debugging : Bool) (pBuffer : CArray Char) (iType : LogType) (t : Option Tm) (thread : Int)
    (message : CText) : Option (CArray Char × Int) :=
  if debugging = false ∧ iType = .debug then none
  else t.map fun t => assemble pBuffer mBufferLen (header t thread iType) message

/-- The record is the header, a part from the front of the message and at most a newline; the
part is the whole message if the buffer has room for it. -/
structure Recorded (header message : CText) (iBufferLen : Nat) (bytes : CText) : Prop where
  shape : ∃ part ending, bytes = header ++ part ++ ending ∧ part <+: message ∧
    (ending = [] ∨ ending = ['\n']) ∧
    (header.length + message.length + 2 ≤ iBufferLen → part = message)
  textual : '\x00' ∉ bytes
  ended : bytes.getLast? = some '\n'

section Assemble
variable {iBufferLen : Nat} {head message : CText}

def counted (iBufferLen : Nat) (head message : CText) : CText :=
  if message.length < iBufferLen - head.length - 2 then message
  else message.take (iBufferLen - head.length - 3) ++ ['\x00']

def ending (text : CText) : CText := if text.getLast? = some '\n' then [] else ['\n']

theorem printed_eq (a : CArray Char) (k : Nat) {size : Nat} (positive : 0 < size) (text : CText) :
    printed a k size text = (a.storeAt k (text.take (size - 1) ++ ['\x00']),
      if text.length < 2147483648 then (text.length : Int) else -1) := by
  rw [printed, if_neg (Nat.ne_of_gt positive)]

theorem endLine_spec (a : CArray Char) {text : CText} (nonempty : text ≠ [])
    (stands : a.contents text.length = text) :
    (endLine a text.length).1.contents (endLine a text.length).2.toNat = text ++ ending text ∧
      ∀ i ∈ (endLine a text.length).1.writes, i ∈ a.writes ∨ i ≤ text.length + 1 := by
  have last : text.getLast? = some (a.cell (text.length - 1)) := by
    have long := List.length_pos_iff.mpr nonempty
    obtain ⟨m, more⟩ := Nat.exists_eq_succ_of_ne_zero (Nat.ne_of_gt long)
    rw [more, a.contents_succ] at stands
    rw [more, ← stands, List.getLast?_concat]
    rfl
  have place : ((text.length : Int) - 1).toNat = text.length - 1 := by omega
  have behind : ((text.length : Int) + 1).toNat = text.length + 1 := rfl
  rw [endLine, place, behind, ending, last]
  split
  case isTrue other =>
    rw [if_neg fun same => other (Option.some.inj same)]
    refine ⟨?_, ?_⟩
    · rw [behind, CArray.contents_write_behind _ _ _ (Nat.le_refl _)]
      change (a.write text.length '\n').contents (text.length + 1) = _
      rw [CArray.contents_write_end, stands]
    · intro i written
      simp only [CArray.write_writes, List.mem_cons] at written
      rcases written with rfl | rfl | old
      · exact .inr (Nat.le_refl _)
      · exact .inr (Nat.le_succ _)
      · exact .inl old
  case isFalse newline =>
    rw [if_pos (congrArg some (Decidable.not_not.mp newline)), List.append_nil]
    refine ⟨?_, ?_⟩
    · change (a.write text.length '\x00').contents text.length = _
      rw [CArray.contents_write_behind _ _ _ (Nat.le_refl _), stands]
    · intro i written
      simp only [CArray.write_writes, List.mem_cons] at written
      rcases written with rfl | old
      · exact .inr (Nat.le_succ _)
      · exact .inl old

theorem sizeT_natCast {n : Nat} (small : n < 18446744073709551616) : sizeT n = n := by
  unfold sizeT
  omega

theorem counted_length (short : head.length + 2 < iBufferLen) (small : iBufferLen < 2147483648) :
    (let iLen2 : Int := if message.length < 2147483648 then message.length else -1
      if iLen2 < 0 ∨ iLen2 > (iBufferLen - head.length - 2 : Nat) then
        ((iBufferLen - head.length - 2 : Nat) : Int) else iLen2) =
      (counted iBufferLen head message).length := by
  unfold counted
  by_cases fits : message.length < iBufferLen - head.length - 2
  · have inside : message.length < 2147483648 := by omega
    simp only [if_pos fits, if_pos inside]
    rw [if_neg (by omega)]
  · rw [if_neg fits, List.length_append, List.length_take, List.length_singleton]
    have cut : min (iBufferLen - head.length - 3) message.length + 1 = iBufferLen - head.length - 2 := by
      omega
    rw [cut]
    dsimp only
    split <;> split <;> omega

theorem counted_stands (message : CText) (cell : Nat → Char) (short : head.length + 2 < iBufferLen) :
    (((CArray.fresh iBufferLen cell).storeAt 0 (head ++ ['\x00'])).storeAt head.length
      (message.take (iBufferLen - head.length - 3) ++ ['\x00'])).contents
        (head ++ counted iBufferLen head message).length = head ++ counted iBufferLen head message := by
  have first : ((CArray.fresh iBufferLen cell).storeAt 0 (head ++ ['\x00'])).contents head.length = head :=
    CArray.contents_prefix _ (CArray.contents_storeAt _ 0 (head ++ ['\x00'])) (List.prefix_append _ _)
  have both := CArray.contents_storeAt ((CArray.fresh iBufferLen cell).storeAt 0 (head ++ ['\x00']))
    head.length (message.take (iBufferLen - head.length - 3) ++ ['\x00'])
  rw [first] at both
  refine CArray.contents_prefix _ both ?_
  rw [List.prefix_append_right_inj, counted]
  split
  · rename_i fits
    rw [List.take_of_length_le (by omega)]
    exact List.prefix_append _ _
  · exact List.prefix_refl _

theorem assemble_spec (message : CText) (cell : Nat → Char) (nonempty : head ≠ [])
    (short : head.length + 2 < iBufferLen) (small : iBufferLen < 2147483648) :
    let r := assemble (.fresh iBufferLen cell) iBufferLen head message
    r.1.contents r.2.toNat = head ++ counted iBufferLen head message ++
        ending (head ++ counted iBufferLen head message) ∧
      ∀ i ∈ r.1.writes, i < iBufferLen := by
  have whole : head.take (iBufferLen - 1) = head := List.take_of_length_le (by omega)
  have length : (if head.length < 2147483648 then (head.length : Int) else -1) = head.length :=
    if_pos (by omega)
  have limit : (iBufferLen : Int) - head.length - 2 = (iBufferLen - head.length - 2 : Nat) := by omega
  have total : (head.length : Int) + (counted iBufferLen head message).length =
      (head ++ counted iBufferLen head message).length := by
    rw [List.length_append, Int.natCast_add]
  have room : iBufferLen - head.length - 2 - 1 = iBufferLen - head.length - 3 := rfl
  have assembled : assemble (.fresh iBufferLen cell) iBufferLen head message =
      endLine (((CArray.fresh iBufferLen cell).storeAt 0 (head ++ ['\x00'])).storeAt head.length
        (message.take (iBufferLen - head.length - 3) ++ ['\x00']))
          (head ++ counted iBufferLen head message).length := by
    have some_buffer : 0 < iBufferLen := by omega
    have some_room : 0 < iBufferLen - head.length - 2 := by omega
    rw [← total, ← counted_length short small, assemble, sizeT_natCast (by omega),
      printed_eq _ _ some_buffer, whole, length]
    dsimp only
    rw [limit, sizeT_natCast (by omega), Int.toNat_natCast, printed_eq _ _ some_room]
    rfl
  have stands := counted_stands message cell short
  obtain ⟨record, written⟩ := endLine_spec _ (List.append_ne_nil_of_left_ne_nil nonempty _) stands
  dsimp only
  rw [assembled]
  refine ⟨record, fun i member => ?_⟩
  have bound : (counted iBufferLen head message).length ≤ iBufferLen - head.length - 2 := by
    unfold counted
    split
    · omega
    · rw [List.length_append, List.length_take, List.length_singleton]
      omega
  rcases written i member with old | behind
  · simp only [CArray.storeAt, CArray.fresh_writes, List.append_nil, List.mem_append, List.mem_map,
      List.mem_range, List.length_append, List.length_take, List.length_singleton] at old
    omega
  · rw [List.length_append] at behind
    omega

theorem ending_ended (text : CText) : (text ++ ending text).getLast? = some '\n' := by
  unfold ending
  split
  · rename_i newline
    rwa [List.append_nil]
  · exact List.getLast?_concat

theorem ending_cases (text : CText) : ending text = [] ∨ ending text = ['\n'] := by
  unfold ending
  split
  · exact .inl rfl
  · exact .inr rfl

/-- A message that is cut leaves the zero of vsnprintf in the record. -/
theorem recorded_counted_iff (plain : '\x00' ∉ head) (short : head.length + 2 < iBufferLen) :
    Recorded head message iBufferLen (head ++ counted iBufferLen head message ++
        ending (head ++ counted iBufferLen head message)) ↔
      '\x00' ∉ message ∧ head.length + message.length + 2 < iBufferLen := by
  by_cases fits : message.length < iBufferLen - head.length - 2
  · rw [counted, if_pos fits]
    have room : head.length + message.length + 2 < iBufferLen := by omega
    rw [and_iff_left room]
    constructor
    · intro recorded zero
      exact recorded.textual (List.mem_append_left _ (List.mem_append_right _ zero))
    · intro clean
      refine ⟨⟨message, _, rfl, List.prefix_refl _, ending_cases _, fun _ => rfl⟩, ?_, ending_ended _⟩
      rcases ending_cases (head ++ message) with none_put | newline
      · simp [none_put, plain, clean]
      · simp [newline, plain, clean]
  · rw [counted, if_neg fits]
    refine iff_of_false (fun recorded => recorded.textual ?_) (by omega)
    simp

end Assemble

section Header
variable (t : Tm) (thread : Int) (iType : LogType)

theorem digits_text {s : CText} (digits : ∀ c ∈ s, c.isDigit) : '\x00' ∉ s := by
  intro zero
  exact absurd (digits '\x00' zero) (by decide)

theorem header_text : '\x00' ∉ header t thread iType := by
  have two (n : Nat) : '\x00' ∉ CText.padded 2 n := digits_text padded_isDigit
  have four (n : Nat) : '\x00' ∉ CText.padded 4 n := digits_text padded_isDigit
  have number : '\x00' ∉ signedDecimal thread := by
    unfold signedDecimal
    split
    · simp [digits_text decimal_isDigit]
    · exact digits_text decimal_isDigit
  have title : '\x00' ∉ iType.title := by
    cases iType <;> decide
  simp [header, two, four, number, title]

theorem header_ne_nil : header t thread iType ≠ [] := by
  simp [header]

end Header

/-- vWriteLog writes inside its buffer, and makes a proper record exactly of a text that
leaves room for one more character than the newline and the zero. -/
theorem recorded_iff (debugging : Bool) (cell : Nat → Char) (iType : LogType) (t : Tm) (thread : Int)
    (message : CText) (b : CArray Char) (iTotalLen : Int)
    (short : (header t thread iType).length + 2 < mBufferLen)
    (run : vWriteLog debugging (.fresh mBufferLen cell) iType (some t) thread message = some (b, iTotalLen)) :
    ((∀ i ∈ b.writes, i < mBufferLen) ∧
        Recorded (header t thread iType) message mBufferLen (b.contents iTotalLen.toNat)) ↔
      '\x00' ∉ message ∧ (header t thread iType).length + message.length + 2 < mBufferLen := by
  unfold vWriteLog at run
  split at run
  · cases run
  have put : assemble (.fresh mBufferLen cell) mBufferLen (header t thread iType) message =
      (b, iTotalLen) := Option.some.inj run
  obtain ⟨record, written⟩ := assemble_spec message cell (header_ne_nil t thread iType) short
    (by decide)
  rw [put] at record written
  rw [record, and_iff_right written, recorded_counted_iff (header_text t thread iType) short]

theorem header_short : (header (newYear 0) 1 .info).length + 2 < mBufferLen := by decide

theorem vWriteLog_info (debugging : Bool) (pBuffer : CArray Char) (t : Tm) (thread : Int) (message : CText) :
    vWriteLog debugging pBuffer .info (some t) thread message =
      some ((assemble pBuffer mBufferLen (header t thread .info) message).1,
        (assemble pBuffer mBufferLen (header t thread .info) message).2) := by
  rw [vWriteLog, if_neg (by simp), Option.map_some]

def greeting : CArray Char × Int :=
  assemble (.fresh mBufferLen fun _ => '\x00') mBufferLen (header (newYear 0) 1 .info) ['h', 'i']

theorem greeting_recorded :
    ((∀ i ∈ greeting.1.writes, i < mBufferLen) ∧ Recorded (header (newYear 0) 1 .info) ['h', 'i'] mBufferLen
        (greeting.1.contents greeting.2.toNat)) ↔
      '\x00' ∉ ['h', 'i'] ∧ (header (newYear 0) 1 .info).length + ['h', 'i'].length + 2 < mBufferLen :=
  recorded_iff false (fun _ => '\x00') .info (newYear 0) 1 ['h', 'i'] greeting.1 greeting.2 header_short
    (vWriteLog_info _ _ _ _ _)

/-- A message of 20000 letters is recorded with a zero in it. -/
theorem long_message_zero : ∃ b iTotalLen,
    vWriteLog false (.fresh mBufferLen fun _ => '\x00') .info (some (newYear 0)) 1
        (List.replicate 20000 'a') = some (b, iTotalLen) ∧
      ¬ Recorded (header (newYear 0) 1 .info) (List.replicate 20000 'a') mBufferLen
        (b.contents iTotalLen.toNat) := by
  refine ⟨_, _, vWriteLog_info _ _ _ _ _, ?_⟩
  obtain ⟨record, -⟩ := assemble_spec (List.replicate 20000 'a') (fun _ => '\x00')
    (header_ne_nil (newYear 0) 1 .info) header_short (by decide)
  rw [record, recorded_counted_iff (header_text (newYear 0) 1 .info) header_short, List.length_replicate]
  rintro ⟨-, fits⟩
  unfold mBufferLen at fits
  omega

end DevAccess.Log
