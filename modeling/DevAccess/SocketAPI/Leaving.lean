import DevAccess.SocketAPI.Timeout
import Mathlib.Algebra.Ring.Int.Defs

/-! How many rounds the two loops take. A timeout is counted, and bytes are; a call that moves
none is neither. -/
namespace DevAccess.SocketAPI
open Foundation

/-- The bytes that a round without a failure can move. -/
def Round.moved (r : Round) : Int := if 0 < r.iResult then r.ret else 0

def movedBytes (rounds : List Round) : Int := (rounds.map Round.moved).sum

section Rounds
variable {fails : Int → Bool} {r : Round} {rounds : List Round}

theorem moved_nonneg (judges : Judges fails) (good : ¬ r.Fails fails) : 0 ≤ r.moved := by
  rw [Round.moved]
  split
  · rename_i ready
    refine Int.not_lt.mp fun low => good (.inr ⟨ready, .inr (judges.negative _ low)⟩)
  · exact Int.le_refl 0

theorem movedBytes_cons (r : Round) (rounds : List Round) :
    movedBytes (r :: rounds) = r.moved + movedBytes rounds := by
  rw [movedBytes, List.map_cons, List.sum_cons]
  rfl

theorem movedBytes_nonneg (judges : Judges fails) (good : ∀ r ∈ rounds, ¬ r.Fails fails) :
    0 ≤ movedBytes rounds := by
  induction rounds with
  | nil => exact Int.le_refl 0
  | cons r rest ih =>
    obtain ⟨here, later⟩ := List.forall_mem_cons.mp good
    rw [movedBytes_cons]
    exact Int.add_nonneg (moved_nonneg judges here) (ih later)

theorem length_le_progress (good : ∀ r ∈ rounds, ¬ r.Fails fun iRecvLen => iRecvLen ≤ 0) :
    (rounds.length : Int) ≤ rounds.countP Round.timeout + movedBytes rounds := by
  induction rounds with
  | nil => exact Int.le_refl 0
  | cons r rest ih =>
    obtain ⟨here, later⟩ := List.forall_mem_cons.mp good
    have rest_progress := ih later
    rw [List.length_cons, List.countP_cons, movedBytes_cons, Round.moved]
    rcases r.kinds fun iRecvLen => iRecvLen ≤ 0 with bad | ⟨-, ⟨ready, other⟩ | ⟨waited, spent⟩⟩
    · exact absurd bad here
    · have positive : 0 < r.ret := Int.not_le.mp fun low => here (.inr ⟨ready, .inr (decide_eq_true low)⟩)
      rw [other, if_pos ready]
      simp only [Bool.false_eq_true, if_false]
      omega
    · rw [spent, waited]
      simp only [if_true, Int.lt_irrefl, if_false]
      omega

end Rounds

/-- The loop still runs after these rounds exactly if none failed and there are bytes left to
move and timeouts left to wait. -/
theorem timedLoop_none_iff {M : Type} {fails : Int → Bool} {move : M → Nat → Nat → Round → M}
    (judges : Judges fails) {iLen iIndex iCount : Int} {memory : M} {rounds : List Round}
    (inside : iIndex ≤ iLen) (patience : 0 ≤ iCount) :
    timedLoop fails move iLen rounds iIndex iCount memory = none ↔
      (∀ r ∈ rounds, ¬ r.Fails fails) ∧ iIndex + movedBytes rounds < iLen ∧
        rounds.countP Round.timeout ≤ iCount := by
  induction rounds generalizing iIndex iCount memory with
  | nil =>
    rw [timedLoop]
    simp [movedBytes, patience]
  | cons r rest ih =>
    rw [timedLoop, List.forall_mem_cons, movedBytes_cons, List.countP_cons]
    by_cases more : iIndex < iLen
    · rw [if_pos more]
      rcases r.kinds fails with bad | ⟨good, ⟨ready, other⟩ | ⟨waited, spent⟩⟩
      · rw [turn_fails judges more bad]
        exact iff_of_false (by simp) fun all => all.1.1 bad
      · obtain ⟨low, step⟩ := turn_moves judges more good ready
        have high : r.answer (iLen - iIndex) ≤ iLen - iIndex := Int.min_le_right _ _
        have told : r.moved = r.ret := if_pos ready
        rw [step, other, told]
        simp only [Bool.false_eq_true, if_false, Nat.add_zero]
        refine (ih (by omega) patience).trans ?_
        rw [and_iff_right good]
        refine and_congr_right fun later => and_congr_left' ?_
        -- what is cut from the answer would have been enough
        have rest_bytes := movedBytes_nonneg judges later
        rw [Round.answer]
        omega
      · have still : r.moved = 0 := if_neg (by omega)
        rw [turn_timeout waited, spent, still, if_pos rfl, Int.zero_add]
        by_cases last : iCount ≤ 0
        · rw [if_pos last]
          refine iff_of_false (by simp) ?_
          rintro ⟨-, -, count⟩
          omega
        · rw [if_neg last]
          refine (ih inside (by omega)).trans ?_
          rw [and_iff_right good]
          refine and_congr_right fun _ => and_congr_right fun _ => ?_
          omega
    · rw [if_neg more]
      refine iff_of_false (by simp) ?_
      rintro ⟨⟨here, later⟩, less, -⟩
      have low := moved_nonneg judges here
      have low' := movedBytes_nonneg judges later
      omega

/-- The first iLen + 2 * iSecond + 1 rounds. -/
def firstRounds (iLen iSecond : Int) (rounds : Nat → Round) : List Round :=
  (List.range (iLen + 2 * iSecond + 1).toNat).map rounds

/-- Both loops leave within these rounds. -/
def BothLeave (iSocket iLen iSecond : Int) (rounds : Nat → Round) : Prop :=
  (∀ pData, sendWithTimeout iSocket pData iLen iSecond (firstRounds iLen iSecond rounds) ≠ none) ∧
    ∀ pBuf, recvWithTimeout iSocket pBuf iLen iSecond (firstRounds iLen iSecond rounds) ≠ none

section Ends
variable {iSocket iLen iSecond : Int}

theorem send_none_iff (valid : iSocket ≠ INVALID_SOCKET) (length : 0 ≤ iLen)
    (patience : 0 ≤ iSecond ∧ iSecond < 1073741824) (pData : Nat → UInt8) (rounds : List Round) :
    sendWithTimeout iSocket pData iLen iSecond rounds = none ↔
      (∀ r ∈ rounds, ¬ r.Fails fun iSendLen => iSendLen < 0) ∧ movedBytes rounds < iLen ∧
        rounds.countP Round.timeout ≤ 2 * iSecond := by
  rw [sendWithTimeout, if_neg valid, waits_eq patience,
    timedLoop_none_iff send_judges length (by omega), Int.zero_add, Int.mul_comm]

theorem recv_leaves (valid : iSocket ≠ INVALID_SOCKET) (length : 0 ≤ iLen)
    (patience : 0 ≤ iSecond ∧ iSecond < 1073741824) (pBuf : CArray UInt8) {rounds : List Round}
    (enough : iLen + 2 * iSecond + 1 ≤ rounds.length) :
    recvWithTimeout iSocket pBuf iLen iSecond rounds ≠ none := by
  rw [recvWithTimeout, if_neg valid, waits_eq patience, Ne,
    timedLoop_none_iff recv_judges length (by omega), Int.zero_add]
  rintro ⟨good, less, few⟩
  have progress := length_le_progress good
  omega

end Ends

theorem firstRounds_length {iLen iSecond : Int} (length : 0 ≤ iLen) (patience : 0 ≤ iSecond)
    (rounds : Nat → Round) :
    ((firstRounds iLen iSecond rounds).length : Int) = iLen + 2 * iSecond + 1 := by
  rw [firstRounds, List.length_map, List.length_range]
  omega

/-- RecvWithTimeout always leaves. SendWithTimeout does exactly if some round fails, or the bytes
that are moved are enough, or the timeouts are. -/
theorem bothLeave_iff {iSocket iLen iSecond : Int} (valid : iSocket ≠ INVALID_SOCKET) (length : 0 ≤ iLen)
    (patience : 0 ≤ iSecond ∧ iSecond < 1073741824) (rounds : Nat → Round) :
    (BothLeave iSocket iLen iSecond rounds ↔
      (∃ r ∈ firstRounds iLen iSecond rounds, r.Fails fun iSendLen => iSendLen < 0) ∨
        iLen ≤ movedBytes (firstRounds iLen iSecond rounds) ∨
        2 * iSecond + 1 ≤ (firstRounds iLen iSecond rounds).countP Round.timeout) ∧
    ∀ pBuf, recvWithTimeout iSocket pBuf iLen iSecond (firstRounds iLen iSecond rounds) ≠ none := by
  have recv (pBuf : CArray UInt8) :=
    recv_leaves valid length patience pBuf
      (Int.le_of_eq (firstRounds_length length patience.1 rounds).symm)
  refine ⟨?_, recv⟩
  have send (pData : Nat → UInt8) :=
    not_congr (send_none_iff valid length patience pData (firstRounds iLen iSecond rounds))
  constructor
  · rintro ⟨leaves, -⟩
    have some_end := (send fun _ => 0).mp (leaves _)
    by_contra none_of
    rw [not_or, not_or] at none_of
    obtain ⟨good, less, few⟩ := none_of
    exact some_end ⟨fun r member bad => good ⟨r, member, bad⟩, by omega, by omega⟩
  · intro some_end
    refine ⟨fun pData => (send pData).mpr ?_, recv⟩
    rintro ⟨good, less, few⟩
    rcases some_end with ⟨r, member, bad⟩ | enough | waited
    · exact good r member bad
    · omega
    · omega

def nothingSent : Round := ⟨1, true, 0, fun _ => 0⟩

/-- One byte in one call. -/
theorem one_byte_leaves : BothLeave 5 1 0 fun _ => ⟨1, true, 1, fun _ => 0⟩ := by
  refine (bothLeave_iff (by decide) (by decide) (by decide) _).1.mpr (.inr (.inl ?_))
  decide

/-- A send that never takes anything keeps its loop running for ever. -/
theorem send_runs_on : ¬ BothLeave 5 1 0 (fun _ => nothingSent) ∧
    ∀ n pData, sendWithTimeout 5 pData 1 0 (List.replicate n nothingSent) = none := by
  have on (n : Nat) (pData : Nat → UInt8) :
      sendWithTimeout 5 pData 1 0 (List.replicate n nothingSent) = none := by
    rw [send_none_iff (by decide) (by decide) (by decide)]
    refine ⟨fun r member => ?_, ?_, ?_⟩
    · rw [List.eq_of_mem_replicate member]
      simp [Round.Fails, nothingSent]
    · simp [movedBytes, Round.moved, nothingSent]
    · simp [List.countP_replicate, Round.timeout, nothingSent]
  exact ⟨fun both => both.1 (fun _ => 0) (on 2 _), on⟩

end DevAccess.SocketAPI
