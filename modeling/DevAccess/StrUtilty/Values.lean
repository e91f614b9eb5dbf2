import DevAccess.Foundation.Memory
import DevAccess.StrUtilty.Places
import Mathlib.Data.List.TakeWhile

/-! GetValueFromStr for a text: the value behind a key, up to the end of its line. There is a
version for C strings and one for string objects. -/
namespace DevAccess.StrUtilty
open Foundation CText

def endLine : CText := ['\r', '\n']

/-- pEnd - pStart of the versions for C strings. The character in front of pEnd may be one of
the key. -/
def valueLen (pKey pStart : CText) : Int :=
  let pEnd := (find ['\n'] pStart).getD pStart.length
  if (pKey ++ pStart.take pEnd).getLast? = some '\r' then pEnd - 1 else pEnd

def getText (pData pKey : CText) (pValue : CArray Char) (iMaxValueLen iCount : Int) : Bool × CArray Char :=
  match behindKey pData pKey iCount with
  | none => (false, pValue)
  | some pStart =>
    let iValueLen := valueLen pKey pStart
    if iValueLen > 0 ∧ iValueLen < iMaxValueLen - 1 then
      (true, (pValue.store (pStart.take iValueLen.toNat)).write iValueLen.toNat '\x00')
    else (false, pValue)

def getTextString (strData strKey strValue : CText) (iCount : Int) : Bool × CText :=
  match behindKey strData strKey iCount with
  | none => (false, strValue)
  | some rest =>
    match find endLine rest with
    | none => (false, strValue)
    | some iValueLen => if iValueLen > 0 then (true, rest.take iValueLen) else (false, strValue)

/-- The text of a line, without its end and a carriage return in front of that. -/
def lineText (rest : CText) : CText :=
  let line := rest.takeWhile (· ≠ '\n')
  if line.getLast? = some '\r' then line.dropLast else line

/-- What stands behind the key is this text and CR LF. -/
def CrLfLine (rest text : CText) : Prop := ∃ more, rest = text ++ '\r' :: '\n' :: more ∧ '\n' ∉ text

section Lines
variable {key rest text : CText}

theorem line_front {front : CText} (absent : '\n' ∉ front) (back : CText) :
    (front ++ '\n' :: back).takeWhile (· ≠ '\n') = front := by
  have plain : ∀ c ∈ front, decide (c ≠ '\n') = true :=
    fun c member => decide_eq_true fun feed => absent (feed ▸ member)
  rw [List.takeWhile_append_of_pos plain]
  exact List.append_nil front

theorem line_end (rest : CText) :
    (find ['\n'] rest).getD rest.length = (rest.takeWhile (· ≠ '\n')).length ∧
      rest.take (rest.takeWhile (· ≠ '\n')).length = rest.takeWhile (· ≠ '\n') := by
  constructor
  · rcases find_letter '\n' rest with ⟨absent, found⟩ | ⟨front, back, rfl, absent, found⟩
    · have whole : rest.takeWhile (· ≠ '\n') = rest :=
        List.takeWhile_eq_self_iff.mpr fun c member => decide_eq_true fun feed => absent (feed ▸ member)
      rw [found, Option.getD_none, whole]
    · rw [found, Option.getD_some, line_front absent]
  · exact (List.prefix_iff_eq_take.mp (List.takeWhile_prefix _)).symm

theorem valueLen_eq (noReturn : key.getLast? ≠ some '\r') (rest : CText) :
    valueLen key rest = (lineText rest).length ∧ rest.take (lineText rest).length = lineText rest := by
  obtain ⟨pEnd, line⟩ := line_end rest
  have last : (key ++ rest.takeWhile (· ≠ '\n')).getLast? = some '\r' ↔
      (rest.takeWhile (· ≠ '\n')).getLast? = some '\r' := by
    rw [List.getLast?_append]
    cases (rest.takeWhile (· ≠ '\n')).getLast? with
    | none => exact iff_of_false noReturn (by simp)
    | some c => rfl
  simp only [valueLen, lineText, pEnd, line, last]
  by_cases carriage : (rest.takeWhile (· ≠ '\n')).getLast? = some '\r'
  · have nonempty : rest.takeWhile (· ≠ '\n') ≠ [] := by
      intro empty
      rw [empty] at carriage
      cases carriage
    have positive := List.length_pos_iff.mpr nonempty
    rw [if_pos carriage, if_pos carriage, List.length_dropLast]
    constructor
    · omega
    · rw [List.dropLast_eq_take, ← line, List.take_take, line]
      congr 1
      omega
  · rw [if_neg carriage, if_neg carriage]
    exact ⟨rfl, line⟩

theorem CrLfLine.front (line : CrLfLine rest text) : rest.takeWhile (· ≠ '\n') = text ++ ['\r'] := by
  obtain ⟨more, rfl, oneLine⟩ := line
  have absent : '\n' ∉ text ++ ['\r'] := by simp [oneLine]
  have parts : text ++ '\r' :: '\n' :: more = (text ++ ['\r']) ++ '\n' :: more := by simp
  rw [parts, line_front absent]

theorem CrLfLine.lineText_eq (line : CrLfLine rest text) : lineText rest = text := by
  simp only [lineText, line.front]
  rw [if_pos (by simp), List.dropLast_concat]

theorem CrLfLine.valueLen_eq (line : CrLfLine rest text) (key : CText) :
    valueLen key rest = text.length := by
  obtain ⟨pEnd, front⟩ := line_end rest
  rw [line.front] at pEnd front
  have last : (key ++ (text ++ ['\r'])).getLast? = some '\r' := by
    rw [← List.append_assoc, List.getLast?_concat]
  simp only [valueLen, pEnd, front]
  rw [if_pos last, List.length_append, List.length_singleton]
  omega

theorem CrLfLine.found (line : CrLfLine rest text) : find endLine rest = some text.length := by
  obtain ⟨more, rfl, oneLine⟩ := line
  refine find_some_iff.mpr ⟨text, more, ⟨by simp [endLine], fun a b other => ?_⟩, rfl⟩
  -- a place in front of this one would have its line feed in the text
  refine Nat.le_of_not_lt fun earlier => oneLine ?_
  have feed : (text ++ '\r' :: '\n' :: more)[a.length + 1]? = some '\n' := by
    rw [other]
    simp [endLine]
  rcases Nat.lt_or_ge (a.length + 1) text.length with inside | atEnd
  · rw [List.getElem?_append_left inside] at feed
    exact List.mem_of_getElem? feed
  · have same : a.length + 1 = text.length := by omega
    rw [List.getElem?_append_right atEnd, same, Nat.sub_self] at feed
    cases feed

theorem CrLfLine.take (line : CrLfLine rest text) : rest.take text.length = text := by
  obtain ⟨more, rfl, -⟩ := line
  exact List.take_left

end Lines

/-- The text of the line behind the n-th place is stored, if it has some and leaves room for the
zero. Where the line ends in CR LF, the version for string objects returns the same. -/
structure TextRead (data key : CText) (n : Nat) (pValue : CArray Char) (iMaxValueLen : Int)
    (strValue : CText) : Prop where
  returned : (getText (c_str data) (c_str key) pValue iMaxValueLen n).1 = true ↔
    ∃ rest, Occurrence key n data rest ∧ lineText rest ≠ [] ∧ (lineText rest).length + 1 ≤ iMaxValueLen
  stored : ∀ rest, Occurrence key n data rest →
    (getText (c_str data) (c_str key) pValue iMaxValueLen n).1 = true →
    (getText (c_str data) (c_str key) pValue iMaxValueLen n).2.contents ((lineText rest).length + 1) =
      lineText rest ++ ['\x00']
  agree : ∀ rest text, Occurrence key n data rest → CrLfLine rest text →
    text.length + 1 ≤ iMaxValueLen →
    (getTextString data key strValue n).1 =
        (getText (c_str data) (c_str key) pValue iMaxValueLen n).1 ∧
      ((getText (c_str data) (c_str key) pValue iMaxValueLen n).1 = true →
        (getTextString data key strValue n).2 = text)

section Texts
variable {data key rest : CText} {n : Nat}

theorem getText_eq (noReturn : key.getLast? ≠ some '\r') (behind : behindKey data key n = some rest)
    (pValue : CArray Char) (iMaxValueLen : Int) :
    getText data key pValue iMaxValueLen n =
      if lineText rest ≠ [] ∧ (lineText rest).length < iMaxValueLen - 1 then
        (true, (pValue.store (lineText rest)).write (lineText rest).length '\x00')
      else (false, pValue) := by
  obtain ⟨length, front⟩ := valueLen_eq noReturn rest
  have positive : ((lineText rest).length : Int) > 0 ↔ lineText rest ≠ [] := by
    rw [← List.length_pos_iff]
    omega
  simp only [getText, behind, length, positive, Int.toNat_natCast, front]

theorem getTextString_eq {text : CText} (line : CrLfLine rest text)
    (behind : behindKey data key n = some rest) (strValue : CText) :
    getTextString data key strValue n = if text ≠ [] then (true, text) else (false, strValue) := by
  simp only [getTextString, behind, line.found, line.take, gt_iff_lt, List.length_pos_iff]

theorem textRead_absent (plain : '\x00' ∉ data) (plainKey : '\x00' ∉ key) (natural : 1 ≤ n)
    (absent : behindKey data key n = none) (pValue : CArray Char) (iMaxValueLen : Int)
    (strValue : CText) : TextRead data key n pValue iMaxValueLen strValue := by
  have nowhere : ∀ rest, ¬ Occurrence key n data rest := fun rest occurs => by
    rw [behindKey_iff natural, absent] at occurs
    cases occurs
  have result : getText (c_str data) (c_str key) pValue iMaxValueLen n = (false, pValue) := by
    rw [c_str_whole plain, c_str_whole plainKey, getText, absent]
  refine ⟨iff_of_false (by simp [result]) fun found => ?_, ?_, ?_⟩
  · exact nowhere _ found.choose_spec.1
  · exact fun rest occurs => absurd occurs (nowhere rest)
  · exact fun rest _ occurs => absurd occurs (nowhere rest)

theorem textRead_spare (plain : '\x00' ∉ data) (plainKey : '\x00' ∉ key)
    (noReturn : key.getLast? ≠ some '\r') (natural : 1 ≤ n)
    (behind : behindKey data key n = some rest) (pValue : CArray Char) {iMaxValueLen : Int}
    (spare : lineText rest ≠ [] → ((lineText rest).length + 1 : Int) ≠ iMaxValueLen) (strValue : CText) :
    TextRead data key n pValue iMaxValueLen strValue := by
  have occurs : ∀ other, Occurrence key n data other ↔ other = rest := fun other => by
    rw [behindKey_iff natural, behind, Option.some.injEq, eq_comm]
  have room : lineText rest ≠ [] ∧ ((lineText rest).length : Int) < iMaxValueLen - 1 ↔
      lineText rest ≠ [] ∧ ((lineText rest).length + 1 : Int) ≤ iMaxValueLen := by
    refine and_congr_right fun hasText => ?_
    have other := spare hasText
    omega
  have result := getText_eq noReturn behind pValue iMaxValueLen
  rw [← c_str_whole plain, ← c_str_whole plainKey] at result
  simp only [room] at result
  by_cases due : lineText rest ≠ [] ∧ ((lineText rest).length + 1 : Int) ≤ iMaxValueLen
  · rw [if_pos due] at result
    refine ⟨iff_of_true (by rw [result]) ⟨rest, (occurs rest).mpr rfl, due⟩, ?_, ?_⟩
    · intro other found _
      rw [(occurs other).mp found, result, CArray.contents_write_end, CArray.contents_store]
    · intro other text found line fits
      cases (occurs other).mp found
      have hasText : text ≠ [] := line.lineText_eq ▸ due.1
      rw [getTextString_eq line behind, if_pos hasText, result]
      exact ⟨rfl, fun _ => rfl⟩
  · rw [if_neg due] at result
    refine ⟨iff_of_false (by simp [result]) ?_, ?_, ?_⟩
    · rintro ⟨other, found, there⟩
      rw [(occurs other).mp found] at there
      exact due there
    · intro other _ returned
      rw [result] at returned
      cases returned
    · intro other text found line fits
      cases (occurs other).mp found
      have noText : ¬ text ≠ [] := fun hasText => due (line.lineText_eq.symm ▸ ⟨hasText, fits⟩)
      rw [getTextString_eq line behind, if_neg noText, result]
      exact ⟨rfl, by simp⟩

end Texts

/-- The reader misses exactly the texts that leave room for the zero and nothing else. -/
theorem getText_iff {data key : CText} {n : Nat} (plain : '\x00' ∉ data) (plainKey : '\x00' ∉ key)
    (noReturn : key.getLast? ≠ some '\r') (natural : 1 ≤ n) (pValue : CArray Char)
    (iMaxValueLen : Int) (strValue : CText) :
    TextRead data key n pValue iMaxValueLen strValue ↔
      ∀ rest, Occurrence key n data rest → lineText rest ≠ [] →
        ((lineText rest).length + 1 : Int) ≠ iMaxValueLen := by
  constructor
  · intro read rest occurs hasText full
    have result := getText_eq noReturn ((behindKey_iff natural).mp occurs) pValue iMaxValueLen
    have returned := read.returned.mpr ⟨rest, occurs, hasText, Int.le_of_eq full⟩
    rw [c_str_whole plain, c_str_whole plainKey, result, if_neg fun room => by omega] at returned
    cases returned
  · intro spare
    cases behind : behindKey data key n with
    | none => exact textRead_absent plain plainKey natural behind pValue iMaxValueLen strValue
    | some rest =>
      have occurs : Occurrence key n data rest := (behindKey_iff natural).mpr behind
      exact textRead_spare plain plainKey noReturn natural behind pValue (spare rest occurs) strValue

/-- In an array of three the 5 has room to spare. -/
theorem roomy_text_read : (['a', '='] : CText).getLast? ≠ some '\r' ∧
    TextRead "a=5\r\n".toList ['a', '='] 1 (CArray.fresh 3 fun _ => 'x') 3 [] := by
  refine ⟨by decide, (getText_iff (by decide) (by decide) (by decide) (Nat.le_refl 1) _ 3 []).mpr
    fun rest occurs _ => ?_⟩
  have behind : rest = "5\r\n".toList := by
    rw [behindKey_iff (Nat.le_refl 1)] at occurs
    exact Option.some.inj (occurs.symm.trans (by decide))
  rw [behind]
  decide

/-- In an array of two it fits exactly, with its zero, and is not read. -/
theorem exact_fit_missed :
    (getText "a=5\r\n".toList ['a', '='] (CArray.fresh 2 fun _ => 'x') 2 1).1 = false ∧
      getTextString "a=5\r\n".toList ['a', '='] [] 1 = (true, ['5']) ∧
      ¬ TextRead "a=5\r\n".toList ['a', '='] 1 (CArray.fresh 2 fun _ => 'x') 2 [] := by
  have missed : (getText "a=5\r\n".toList ['a', '='] (CArray.fresh 2 fun _ => 'x') 2 1).1 = false := by
    decide
  refine ⟨missed, by decide, fun read => ?_⟩
  have occurs : Occurrence ['a', '='] 1 "a=5\r\n".toList "5\r\n".toList :=
    (behindKey_iff (Nat.le_refl 1)).mpr (by decide)
  have returned := read.returned.mpr ⟨_, occurs, by decide, by decide⟩
  exact Bool.false_ne_true (missed.symm.trans returned)

end DevAccess.StrUtilty
