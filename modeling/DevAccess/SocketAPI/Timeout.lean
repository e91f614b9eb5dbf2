import DevAccess.Foundation.Memory
import DevAccess.Foundation.Word

/-! SendWithTimeout and RecvWithTimeout: so many bytes in several calls, and half a second of
waiting for each. What the system calls answer is a list that the loops use up. -/
namespace DevAccess.SocketAPI
open Foundation

/-- Answers of the system in one round: what select returns, whether it marks the socket, what
send or recv returns, and the bytes that recv has. -/
structure Round where
  iResult : Int
  isSet : Bool
  ret : Int
  bytes : Nat → UInt8

def Round.answer (r : Round) (asked : Int) : Int := min r.ret asked

inductive Turn (M : Type)
  | again (iIndex iCount : Int) (memory : M)
  | leave (iIndex : Int) (memory : M)

section Loop
variable {M : Type} (fails : Int → Bool) (move : M → Nat → Nat → Round → M) (iLen : Int)

/-- The body of both loops. They differ in what is a failure, and in where the bytes go. -/
def turn (r : Round) (iIndex iCount : Int) (memory : M) : Turn M :=
  if r.iResult > 0 then
    if r.isSet then
      let moved := r.answer (iLen - iIndex)
      if fails moved then .leave (-1) memory
      else .again (iIndex + moved) iCount (move memory iIndex.toNat moved.toNat r)
    else .leave (-1) memory
  else if r.iResult = 0 then
    let iCount := iCount - 1
    if iCount < 0 then .leave iIndex memory else .again iIndex iCount memory
  else .leave (-1) memory

/-- The loop leaves with iIndex, the memory and the answers that it has not used; without a
result, it has used up all and still runs. -/
def timedLoop : List Round → Int → Int → M → Option (Int × M × List Round)
  | [], iIndex, _, memory => if iIndex < iLen then none else some (iIndex, memory, [])
  | r :: rest, iIndex, iCount, memory =>
    if iIndex < iLen then
      match turn fails move iLen r iIndex iCount memory with
      | .leave iIndex memory => some (iIndex, memory, rest)
      | .again iIndex iCount memory => timedLoop rest iIndex iCount memory
    else some (iIndex, memory, r :: rest)

end Loop

def INVALID_SOCKET : Int := -1

def sendBytes (pData : Nat → UInt8) (sent : List UInt8) (iIndex iSendLen : Nat) (_ : Round) : List UInt8 :=
  sent ++ (List.range iSendLen).map fun i => pData (iIndex + i)

/-- What it returns, the bytes that were sent, and the answers left over. -/
def sendWithTimeout (iSocket : Int) (pData : Nat → UInt8) (iLen iSecond : Int) (rounds : List Round) :
    Option (Int × List UInt8 × List Round) :=
  if iSocket = INVALID_SOCKET then some (-1, [], rounds)
  else timedLoop (fun iSendLen => iSendLen < 0) (sendBytes pData) iLen rounds 0 (int32 (iSecond * 2)) []

def recvBytes (memory : CArray UInt8 × List UInt8) (iIndex iRecvLen : Nat) (r : Round) :
    CArray UInt8 × List UInt8 :=
  let bytes := (List.range iRecvLen).map r.bytes
  (memory.1.storeAt iIndex bytes, memory.2 ++ bytes)

def recvWithTimeout (iSocket : Int) (pBuf : CArray UInt8) (iLen iSecond : Int) (rounds : List Round) :
    Option (Int × (CArray UInt8 × List UInt8) × List Round) :=
  if iSocket = INVALID_SOCKET then some (-1, (pBuf, []), rounds)
  else timedLoop (fun iRecvLen => iRecvLen ≤ 0) recvBytes iLen rounds 0 (int32 (iSecond * 2)) (pBuf, [])

/-- A failure is a failure however much was asked for, and a negative answer is one. -/
structure Judges (fails : Int → Bool) : Prop where
  negative : ∀ ret < 0, fails ret = true
  asked : ∀ ret, ∀ asked > 0, fails (min ret asked) = fails ret

theorem send_judges : Judges fun iSendLen => iSendLen < 0 := by
  refine ⟨fun ret low => decide_eq_true low, fun ret asked positive => ?_⟩
  apply decide_eq_decide.mpr
  omega

theorem recv_judges : Judges fun iRecvLen => iRecvLen ≤ 0 := by
  refine ⟨fun ret low => decide_eq_true (Int.le_of_lt low), fun ret asked positive => ?_⟩
  apply decide_eq_decide.mpr
  omega

/-- select fails, or marks another socket, or the call behind it fails. -/
def Round.Fails (fails : Int → Bool) (r : Round) : Prop :=
  r.iResult < 0 ∨ 0 < r.iResult ∧ (r.isSet = false ∨ fails r.ret = true)

def Round.timeout (r : Round) : Bool := r.iResult = 0

section Turn
variable {M : Type} {fails : Int → Bool} {move : M → Nat → Nat → Round → M} {iLen iIndex iCount : Int}
  {r : Round} {memory : M}

theorem turn_fails (judges : Judges fails) (more : iIndex < iLen) (bad : r.Fails fails) :
    turn fails move iLen r iIndex iCount memory = .leave (-1) memory := by
  rcases bad with low | ⟨ready, unmarked | failed⟩
  · rw [turn, if_neg (by omega), if_neg (by omega)]
  · rw [turn, if_pos ready, unmarked]
    rfl
  · have failed' : fails (r.answer (iLen - iIndex)) = true := by
      rw [Round.answer, judges.asked _ _ (by omega), failed]
    simp only [turn, failed', if_true, ite_self]
    rw [if_pos ready]

theorem turn_timeout (waited : r.iResult = 0) :
    turn fails move iLen r iIndex iCount memory =
      if iCount ≤ 0 then .leave iIndex memory else .again iIndex (iCount - 1) memory := by
  have last : iCount - 1 < 0 ↔ iCount ≤ 0 := by omega
  simp only [turn, waited, last, gt_iff_lt, Int.lt_irrefl, if_true, if_false]

theorem turn_moves (judges : Judges fails) (more : iIndex < iLen) (good : ¬ r.Fails fails)
    (ready : 0 < r.iResult) :
    0 ≤ r.answer (iLen - iIndex) ∧
      turn fails move iLen r iIndex iCount memory =
        .again (iIndex + r.answer (iLen - iIndex)) iCount
          (move memory iIndex.toNat (r.answer (iLen - iIndex)).toNat r) := by
  obtain ⟨marked, works⟩ : r.isSet = true ∧ fails r.ret = false := by
    simpa [Round.Fails, ready, Int.not_lt.mpr (Int.le_of_lt ready)] using good
  have works' : fails (r.answer (iLen - iIndex)) = false := by
    rw [Round.answer, judges.asked _ _ (by omega), works]
  constructor
  · refine Int.not_lt.mp fun low => ?_
    rw [judges.negative _ low] at works'
    cases works'
  · simp only [turn, marked, works', if_true, Bool.false_eq_true, if_false]
    rw [if_pos ready]

theorem Round.kinds (fails : Int → Bool) (r : Round) :
    r.Fails fails ∨ ¬ r.Fails fails ∧
      (0 < r.iResult ∧ r.timeout = false ∨ r.iResult = 0 ∧ r.timeout = true) := by
  by_cases bad : r.Fails fails
  · exact .inl bad
  · refine .inr ⟨bad, ?_⟩
    rcases Int.lt_trichotomy r.iResult 0 with low | waited | ready
    · exact absurd (.inl low) bad
    · exact .inr ⟨waited, decide_eq_true waited⟩
    · exact .inl ⟨ready, decide_eq_false (Int.ne_of_gt ready)⟩

end Turn

/-- What the loop has done when it leaves with ret: a failure in its last round, or as many bytes
as ret says, and all its timeouts if they are less than iLen. -/
def Left {M : Type} (fails : Int → Bool) (Holds : M → Nat → Prop) (iLen iCount : Int) (used : List Round)
    (ret : Int) (memory : M) : Prop :=
  (ret = -1 ∧ ∃ r, used.getLast? = some r ∧ r.Fails fails) ∨
    (0 ≤ ret ∧ ret ≤ iLen ∧ Holds memory ret.toNat ∧ (ret < iLen → used.countP Round.timeout = iCount + 1))

section Run
variable {M : Type} {fails : Int → Bool} {move : M → Nat → Nat → Round → M} {Holds : M → Nat → Prop}
  {iLen iIndex iCount ret : Int} {memory memory' : M} {rounds used later : List Round} {r : Round}

end Run

/-- The first i bytes of the data are what was sent. -/
def Sent (pData : Nat → UInt8) (sent : List UInt8) (i : Nat) : Prop := (List.range i).map pData = sent

/-- The first i bytes of the buffer are what was received. -/
def Received (memory : CArray UInt8 × List UInt8) (i : Nat) : Prop := memory.1.contents i = memory.2

/-- After a failure -1 is returned, and otherwise how many bytes were moved, which stand in front;
they are less than iLen only after all timeouts. -/
def Told (failed : Int → Prop) (iLen iSecond : Int) (used : List Round) (ret : Int)
    (front moved : List UInt8) : Prop :=
  (ret = -1 ∧ ∃ r, used.getLast? = some r ∧ (r.iResult < 0 ∨ 0 < r.iResult ∧ failed r.ret)) ∨
    (0 ≤ ret ∧ ret ≤ iLen ∧ front = moved ∧
      (ret < iLen → used.countP Round.timeout = 2 * iSecond + 1))

theorem Left.told {M : Type} {fails : Int → Bool} {Holds : M → Nat → Prop} {iLen iSecond ret : Int}
    {used : List Round} {memory : M} (left : Left fails Holds iLen (iSecond * 2) used ret memory)
    (marked : ∀ r ∈ used, 0 < r.iResult → r.isSet = true) {front moved : List UInt8}
    (holds : Holds memory ret.toNat → front = moved) :
    Told (fun answer => fails answer = true) iLen iSecond used ret front moved := by
  rcases left with ⟨minus, r, last, low | ⟨ready, unmarked | failed⟩⟩ | ⟨low, high, stands, full⟩
  · exact .inl ⟨minus, r, last, .inl low⟩
  · have set := marked r (List.mem_of_getLast? last) ready
    exact absurd (unmarked.symm.trans set) Bool.false_ne_true
  · exact .inl ⟨minus, r, last, .inr ⟨ready, failed⟩⟩
  · refine .inr ⟨low, high, holds stands, fun less => ?_⟩
    rw [full less]
    omega

theorem waits_eq {iSecond : Int} (patience : 0 ≤ iSecond ∧ iSecond < 1073741824) :
    int32 (iSecond * 2) = iSecond * 2 := int32_of_range (by omega) (by omega)

def quiet : Round := ⟨0, false, 0, fun _ => 0⟩

end DevAccess.SocketAPI
