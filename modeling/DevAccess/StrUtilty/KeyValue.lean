import DevAccess.StrUtilty.Values

/-! GetKeyAndValueFromStr: the texts in front of a delimiter and behind it, in two arrays or in
two string objects. -/
namespace DevAccess.StrUtilty
open Foundation

def cutLen (iLen iDataLen : Int) : Int := if iLen - 1 > iDataLen then iDataLen else iLen - 1

/-- What it returns, and the two arrays; their sizes are at least 1. The zero behind the value
goes to pKey. -/
def getKeyAndValue (pData : Option CText) (pDelims : CText) (pKey : Option (CArray Char)) (iKeyLen : Int)
    (pValue : Option (CArray Char)) (iValueLen : Int) :
    Bool × Option (CArray Char) × Option (CArray Char) :=
  match pData, pKey, pValue with
  | some pData, some key, some value =>
    match find pDelims pData with
    | none => (false, pKey, pValue)
    | some pSerach =>
      let iKeyDataLen : Int := pSerach
      let iValueDataLen : Int := pData.length - iKeyDataLen - pDelims.length
      let key :=
        if iKeyDataLen > 0 then
          let iKeyDataLen := (cutLen iKeyLen iKeyDataLen).toNat
          (key.store (pData.take iKeyDataLen)).write iKeyDataLen '\x00'
        else key
      if iValueDataLen > 0 then
        let iValueDataLen := (cutLen iValueLen iValueDataLen).toNat
        let value := value.store ((pData.drop (pSerach + pDelims.length)).take iValueDataLen)
        (true, some (key.write iValueDataLen '\x00'), some value)
      else (true, some key, some value)
  | _, _, _ => (false, pKey, pValue)

def getKeyAndValueString (strData strDelims strKey strValue : CText) : Bool × CText × CText :=
  match find strDelims strData with
  | none => (false, strKey, strValue)
  | some iPos =>
    let iValueDataLen : Int := strData.length - iPos - strDelims.length
    let strKey := if iPos > 0 then strData.take iPos else strKey
    let strValue :=
      if iValueDataLen > 0 then (strData.drop (iPos + strDelims.length)).take iValueDataLen.toNat
      else strValue
    (true, strKey, strValue)

/-- The array has the text, cut to leave room for its zero, and was accessed nowhere else. -/
structure Holds (array : CArray Char) (s : CText) : Prop where
  inside : array.InBounds
  text : array.contents ((s.take (array.size - 1)).length + 1) = s.take (array.size - 1) ++ ['\x00']

/-- The key and the value get to their arrays; what is not cut is also what the version for
string objects returns. -/
structure PairRead (data delim key value : CText) (pKey pValue : CArray Char) : Prop where
  arrays : ∃ pKey' pValue',
    getKeyAndValue (some data) delim (some pKey) pKey.size (some pValue) pValue.size =
      (true, some pKey', some pValue') ∧ Holds pKey' key ∧ Holds pValue' value
  objects : key.length < pKey.size → value.length < pValue.size →
    ∀ strKey strValue, getKeyAndValueString data delim strKey strValue = (true, key, value)

section Arrays
variable {s : CText} {cells : Nat → Char} {size k : Nat}

theorem cutLen_take (positive : 1 ≤ size) (s : CText) :
    (cutLen size s.length).toNat = (s.take (size - 1)).length := by
  rw [cutLen, List.length_take]
  split <;> omega

theorem cut_short (positive : 1 ≤ size) (s : CText) : (s.take (size - 1)).length < size := by
  rw [List.length_take]
  omega

theorem terminated_iff {xs : CText} (plain : '\x00' ∉ xs) (array : CArray Char) (k : Nat) :
    (((array.store xs).write xs.length '\x00').write k '\x00').contents (xs.length + 1) = xs ++ ['\x00'] ↔
      xs.length ≤ k := by
  constructor
  · intro stands
    by_contra early
    have before : k < xs.length := Nat.lt_of_not_le early
    have cell := congrArg (·.getD k 'x') stands
    simp only [CArray.contents_getD _ k 'x' (Nat.lt_succ_of_lt before), CArray.write_cell, if_true,
      List.getD_eq_getElem?_getD, List.getElem?_append_left before] at cell
    rw [List.getElem?_eq_getElem before, Option.getD_some] at cell
    exact plain (cell ▸ List.getElem_mem before)
  · intro behind
    rcases Nat.lt_or_eq_of_le behind with later | rfl
    · rw [CArray.contents_write_behind _ _ _ later, CArray.contents_write_end, CArray.contents_store]
    · rw [CArray.contents_write_end, CArray.contents_write_behind _ _ _ (Nat.le_refl _),
        CArray.contents_store]

theorem holds_key (positive : 1 ≤ size) (plain : '\x00' ∉ s) (cells : Nat → Char) (k : Nat) :
    Holds ((((CArray.fresh size cells).store (s.take (size - 1))).write (s.take (size - 1)).length
      '\x00').write k '\x00') s ↔ (s.take (size - 1)).length ≤ k ∧ k < size := by
  have short := cut_short positive s
  have cutPlain : '\x00' ∉ s.take (size - 1) := fun zero => plain (List.mem_of_mem_take zero)
  have ends := terminated_iff cutPlain (CArray.fresh size cells) k
  constructor
  · rintro ⟨inside, text⟩
    exact ⟨ends.mp text, inside k (.inr List.mem_cons_self)⟩
  · rintro ⟨behind, within⟩
    refine ⟨fun i accessed => ?_, ends.mpr behind⟩
    rcases accessed with read | written
    · cases read
    · simp only [CArray.write_writes, CArray.store_writes, CArray.fresh_writes, List.append_nil,
        List.mem_cons, List.mem_range] at written
      change i < size
      omega

theorem holds_value (positive : 1 ≤ size) (s : CText) (cells : Nat → Char) :
    Holds ((CArray.fresh size cells).store (s.take (size - 1))) s ↔
      cells (s.take (size - 1)).length = '\x00' := by
  have short := cut_short positive s
  have stands : ((CArray.fresh size cells).store (s.take (size - 1))).contents
      ((s.take (size - 1)).length + 1) = s.take (size - 1) ++ [cells (s.take (size - 1)).length] := by
    rw [CArray.contents_succ, CArray.contents_store, CArray.store_cell, List.getD_eq_getElem?_getD,
      List.getElem?_eq_none (Nat.le_refl _), Option.getD_none, CArray.fresh_cell]
  constructor
  · rintro ⟨-, text⟩
    exact List.singleton_inj.mp (List.append_cancel_left (stands.symm.trans text))
  · intro zero
    refine ⟨fun i accessed => ?_, stands.trans (by rw [zero]; rfl)⟩
    rcases accessed with read | written
    · cases read
    · simp only [CArray.store_writes, CArray.fresh_writes, List.append_nil, List.mem_range] at written
      change i < size
      omega

end Arrays

section Pairs
variable {data delim key value : CText}

theorem FirstPlace.windows (place : FirstPlace delim data key value) :
    (∀ n ≤ key.length, data.take n = key.take n) ∧ data.drop (key.length + delim.length) = value ∧
      (data.length - key.length - delim.length : Int) = value.length := by
  refine ⟨fun n within => ?_, place.behind, ?_⟩
  · rw [place.1, List.append_assoc, List.take_append_of_le_length within]
  · rw [place.1]
    simp only [List.length_append]
    omega

theorem getKeyAndValue_eq (place : FirstPlace delim data key value) (hasKey : key ≠ [])
    (hasValue : value ≠ []) {iKeyLen iValueLen : Nat} (keyRoom : 1 ≤ iKeyLen) (valueRoom : 1 ≤ iValueLen)
    (pKey pValue : CArray Char) :
    getKeyAndValue (some data) delim (some pKey) iKeyLen (some pValue) iValueLen =
      (true,
        some (((pKey.store (key.take (iKeyLen - 1))).write (key.take (iKeyLen - 1)).length '\x00').write
          (value.take (iValueLen - 1)).length '\x00'),
        some (pValue.store (value.take (iValueLen - 1)))) := by
  have keyLen : (key.length : Int) > 0 := Int.natCast_pos.mpr (List.length_pos_iff.mpr hasKey)
  have valueLen : (value.length : Int) > 0 := Int.natCast_pos.mpr (List.length_pos_iff.mpr hasValue)
  obtain ⟨front, behind, rest⟩ := place.windows
  have cutKey : key.take (key.take (iKeyLen - 1)).length = key.take (iKeyLen - 1) :=
    (List.prefix_iff_eq_take.mp (List.take_prefix _ _)).symm
  have cutValue : value.take (value.take (iValueLen - 1)).length = value.take (iValueLen - 1) :=
    (List.prefix_iff_eq_take.mp (List.take_prefix _ _)).symm
  simp only [getKeyAndValue, place.found, behind, rest, cutLen_take keyRoom, cutLen_take valueRoom]
  rw [if_pos keyLen, if_pos valueLen, front _ (List.length_take_le' _ _), cutKey, cutValue]

theorem getKeyAndValueString_eq (place : FirstPlace delim data key value) (hasKey : key ≠ [])
    (hasValue : value ≠ []) (strKey strValue : CText) :
    getKeyAndValueString data delim strKey strValue = (true, key, value) := by
  have keyLen := List.length_pos_iff.mpr hasKey
  have valueLen := List.length_pos_iff.mpr hasValue
  obtain ⟨front, behind, rest⟩ := place.windows
  simp only [getKeyAndValueString, place.found, behind, rest, Int.toNat_natCast, List.take_length]
  rw [if_pos keyLen, if_pos (by omega), front _ (Nat.le_refl _), List.take_length]

end Pairs

/-- Both arrays are right exactly if the zero that is meant for the value falls behind the key's
text and inside its array, and the value's array had a zero there before. -/
theorem pairRead_iff {data delim key value : CText} (place : FirstPlace delim data key value)
    (hasKey : key ≠ []) (hasValue : value ≠ []) (plain : '\x00' ∉ data) {iKeyLen iValueLen : Nat}
    (keyRoom : 1 ≤ iKeyLen) (valueRoom : 1 ≤ iValueLen) (keyCells valueCells : Nat → Char) :
    PairRead data delim key value (CArray.fresh iKeyLen keyCells) (CArray.fresh iValueLen valueCells) ↔
      min (iKeyLen - 1) key.length ≤ min (iValueLen - 1) value.length ∧
        min (iValueLen - 1) value.length < iKeyLen ∧
        valueCells (min (iValueLen - 1) value.length) = '\x00' := by
  have keyPlain : '\x00' ∉ key := fun zero => plain (by rw [place.1]; simp [zero])
  have run := getKeyAndValue_eq place hasKey hasValue keyRoom valueRoom
    (CArray.fresh iKeyLen keyCells) (CArray.fresh iValueLen valueCells)
  rw [← List.length_take, ← List.length_take, ← and_assoc, ← holds_key keyRoom keyPlain keyCells,
    ← holds_value valueRoom value valueCells]
  constructor
  · rintro ⟨⟨pKey', pValue', run', held⟩, -⟩
    cases run.symm.trans run'
    exact held
  · exact fun held => ⟨⟨_, _, run, held⟩, fun _ _ => getKeyAndValueString_eq place hasKey hasValue⟩

/-- A zero in front of each of two arrays that are large enough. -/
theorem zeroed_pair_read : PairRead "a=bc".toList ['='] ['a'] ['b', 'c']
    (CArray.fresh 8 fun _ => '\x00') (CArray.fresh 8 fun _ => '\x00') := by
  have place : FirstPlace ['='] "a=bc".toList ['a'] ['b', 'c'] := by
    refine ⟨rfl, fun a b split => ?_⟩
    cases a with
    | nil => cases split
    | cons c a => exact Nat.succ_le_succ (Nat.zero_le _)
  apply (pairRead_iff place (by decide) (by decide) (by decide) (by decide) (by decide) _ _).mpr
  decide

/-- A key longer than its value loses its end, and the value gets no zero. -/
theorem key_cut_by_value :
    (∃ pKey pValue, getKeyAndValue (some "ab=c".toList) ['='] (some (CArray.fresh 8 fun _ => 'x')) 8
        (some (CArray.fresh 8 fun _ => 'x')) 8 = (true, some pKey, some pValue) ∧
      pKey.contents 3 = ['a', '\x00', '\x00'] ∧ pValue.contents 2 = ['c', 'x']) ∧
    ¬ PairRead "ab=c".toList ['='] ['a', 'b'] ['c']
      (CArray.fresh 8 fun _ => 'x') (CArray.fresh 8 fun _ => 'x') := by
  refine ⟨⟨_, _, rfl, by decide, by decide⟩, ?_⟩
  rintro ⟨⟨pKey', pValue', run, held, -⟩, -⟩
  cases run
  exact absurd held.text (by decide)

end DevAccess.StrUtilty
