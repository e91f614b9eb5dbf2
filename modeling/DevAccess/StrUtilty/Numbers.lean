import DevAccess.StrUtilty.Trim
import DevAccess.StrUtilty.Values

/-! GetValueFromStr for an int: the number at the front of a value, behind its white space. -/
namespace DevAccess.StrUtilty
open Foundation CText

/-- What it returns, and iValue. The white space that is skipped is counted in pData. -/
def getInt (pData pKey : CText) (iValue iCount : Int) : Bool × Int :=
  match behindKey pData pKey iCount with
  | none => (false, iValue)
  | some pStart =>
    let iValueLen := valueLen pKey pStart
    if iValueLen > 0 then
      let iStart := trimStart (pData.take iValueLen.toNat)
      let pStart := pStart.drop iStart
      if startsDigit pStart then (true, atoi pStart) else (false, iValue)
    else (false, iValue)

section Lines
variable {data key rest text : CText} {n : Nat}

end Lines

end DevAccess.StrUtilty
