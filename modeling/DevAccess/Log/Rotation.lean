import DevAccess.Log.Bookkeeping

/-! The names of the files that SwitchNewFile opens for writing. A name has the second of
its opening in it, and a file that has the name already is truncated. -/
namespace DevAccess.Log
open Foundation

section Step
variable {localtime : Int → Tm}

end Step

section Init
variable (matching : CText → CText → Bool) (localtime : Int → Tm)

end Init

end DevAccess.Log
