import DevAccess.Log.Matching

/-! The queue of log files over whole runs: its counter, what CleanFile_ may take from it
and what it leaves. -/
namespace DevAccess.Log
open Foundation

structure Takes (iMinFiles : Int) (q : List CText) (r : Swept) : Prop where
  split : q = r.gone ++ r.left
  count : r.count = r.left.length
  enough : min iMinFiles q.length ≤ r.left.length

theorem Takes.cons {iMinFiles : Int} {f : CText} {rest : List CText} {r : Swept}
    (more : ((f :: rest).length : Int) > iMinFiles) (h : Takes iMinFiles rest r) :
    Takes iMinFiles (f :: rest) { r with gone := f :: r.gone } := by
  refine ⟨congrArg (f :: ·) h.split, h.count, ?_⟩
  have below := h.enough
  simp only [List.length_cons] at more ⊢
  omega

theorem Takes.trans {iMinFiles : Int} {q : List CText} {r r' : Swept} (h : Takes iMinFiles q r)
    (h' : Takes iMinFiles r.left r') : Takes iMinFiles q ⟨r.gone ++ r'.gone, r'.left, r'.count⟩ := by
  refine ⟨?_, h'.count, ?_⟩
  · rw [List.append_assoc, ← h'.split]
    exact h.split
  · have first := h.enough
    have second := h'.enough
    dsimp only
    omega

theorem Takes.length {iMinFiles : Int} {q : List CText} {r : Swept} (h : Takes iMinFiles q r) :
    r.left.length ≤ q.length := by
  rw [h.split, List.length_append]
  exact Nat.le_add_left _ _

structure Sound (s : LogData) : Prop where
  counted : s.m_iFileCount = s.m_FileList.length
  minimum : 1 ≤ s.m_iMinFiles
  last : ∀ name, s.m_FileFD = some name → s.m_FileList.getLast? = some name

section Run
variable {localtime : Int → Tm}

end Run

section Init
variable (matching : CText → CText → Bool)

end Init

def newYear : Int → Tm := fun _ => ⟨124, 0, 1, 0, 0, 0⟩

end DevAccess.Log
