import Mathlib.Algebra.Group.Nat.Defs
import Mathlib.Algebra.Group.Int.Defs
import Mathlib.Data.List.Chain

/-! GetBootTickCount of LogData in its WIN32 branch, which makes of the 32-bit milliseconds
of GetTickCount a count that goes on when they start again. -/
namespace DevAccess.Log

structure Ticks where
  lastTickCount : UInt32
  cycles : UInt32

def Ticks.new : Ticks := ⟨0, 0⟩

def Ticks.getBootTickCount (s : Ticks) (curTickCount : UInt32) : Int64 × Ticks :=
  let ret : Int64 := curTickCount.toUInt64.toInt64
  let cycles := if s.lastTickCount > curTickCount then s.cycles + 1 else s.cycles
  (ret ||| (cycles.toUInt64.toInt64 <<< 32), ⟨curTickCount, cycles⟩)

/-- What the calls at these uptimes in milliseconds return. GetTickCount gives an uptime
modulo 2^32. -/
def Ticks.run (s : Ticks) : List Nat → List Int64
  | [] => []
  | uptime :: rest =>
    let (ret, s) := s.getBootTickCount (UInt32.ofNat uptime)
    ret :: s.run rest

/-- The next call is not earlier, and less than a whole cycle later. -/
def Follows (t u : Nat) : Prop := t ≤ u ∧ u - t < 2 ^ 32

/-- The statics after a call at t, with base cycles gone before the first one. -/
structure Ticks.Shows (s : Ticks) (base t : Nat) : Prop where
  last : s.lastTickCount.toNat = t % 2 ^ 32
  cycles : s.cycles.toNat + base = t / 2 ^ 32

theorem ticks_value (cycles cur : UInt32) (small : cycles.toNat < 2 ^ 31) :
    (cur.toUInt64.toInt64 ||| (cycles.toUInt64.toInt64 <<< 32)).toInt =
      cycles.toNat * 2 ^ 32 + cur.toNat := by
  have low := cur.toNat_lt
  have bits : (cur.toUInt64.toInt64 ||| (cycles.toUInt64.toInt64 <<< 32)).toBitVec.toNat =
      cycles.toNat * 2 ^ 32 + cur.toNat := by
    have shifted : (cycles.toUInt64.toBitVec <<< 32).toNat = cycles.toNat <<< 32 := by
      rw [BitVec.toNat_shiftLeft, Nat.shiftLeft_eq]
      simp
      omega
    have width : (32 : Int64).toBitVec.smod 64 = 32 := by decide
    rw [Int64.toBitVec_or, Int64.toBitVec_shiftLeft, width, BitVec.toNat_or, UInt64.toBitVec_toInt64,
      UInt64.toBitVec_toInt64]
    change (cur.toUInt64.toBitVec.toNat ||| (cycles.toUInt64.toBitVec <<< 32).toNat) = _
    rw [shifted, Nat.or_comm]
    change cycles.toNat <<< 32 ||| cur.toUInt64.toNat = _
    rw [UInt32.toNat_toUInt64, ← Nat.shiftLeft_add_eq_or_of_lt low, Nat.shiftLeft_eq]
  rw [Int64.toInt, BitVec.toInt_eq_toNat_of_lt (by omega), bits]
  omega

theorem getBootTickCount_spec {s : Ticks} {base t u : Nat} (shows : s.Shows base t)
    (follows : Follows t u) (few : u / 2 ^ 32 < base + 2 ^ 31) :
    (s.getBootTickCount (UInt32.ofNat u)).1.toInt = u - base * 2 ^ 32 ∧
      (s.getBootTickCount (UInt32.ofNat u)).2.Shows base u := by
  obtain ⟨last, cycles⟩ := shows
  obtain ⟨order, gap⟩ := follows
  have cur : (UInt32.ofNat u).toNat = u % 2 ^ 32 := UInt32.toNat_ofNat'
  -- less than a cycle has passed, so the count has wrapped exactly if it is smaller
  have wrapped : (if s.lastTickCount > UInt32.ofNat u then s.cycles + 1 else s.cycles).toNat + base =
      u / 2 ^ 32 := by
    split
    · rename_i smaller
      have less : u % 2 ^ 32 < t % 2 ^ 32 := by
        rw [← cur, ← last]
        exact UInt32.lt_iff_toNat_lt.mp smaller
      rw [UInt32.toNat_add]
      change (s.cycles.toNat + 1) % 2 ^ 32 + base = _
      omega
    · rename_i larger
      have more : t % 2 ^ 32 ≤ u % 2 ^ 32 := by
        rw [← cur, ← last]
        exact UInt32.not_lt.mp larger
      omega
  refine ⟨?_, cur, wrapped⟩
  rw [Ticks.getBootTickCount, ticks_value _ _ (by omega), cur]
  omega

/-- From the time that the statics show on, the results are the uptimes less the cycles
before the first call. -/
theorem run_exact {s : Ticks} {base t : Nat} (shows : s.Shows base t) {uptimes : List Nat}
    (chain : List.IsChain Follows (t :: uptimes)) (few : ∀ u ∈ uptimes, u / 2 ^ 32 < base + 2 ^ 31) :
    (s.run uptimes).map Int64.toInt = uptimes.map fun (u : Nat) => (u : Int) - base * 2 ^ 32 := by
  induction uptimes generalizing s t with
  | nil => rfl
  | cons u rest ih =>
    obtain ⟨follows, chain⟩ := List.isChain_cons_cons.mp chain
    obtain ⟨here, later⟩ := List.forall_mem_cons.mp few
    obtain ⟨value, shows⟩ := getBootTickCount_spec shows follows here
    rw [Ticks.run, List.map_cons, List.map_cons, value, ih shows chain later]

/-- While fewer than 2^31 cycles go by, the results differ as the uptimes do, and do not
go back. -/
theorem ticks_differ (uptimes : List Nat) (chain : List.IsChain Follows uptimes)
    (few : ∀ first ∈ uptimes.head?, ∀ u ∈ uptimes, u / 2 ^ 32 - first / 2 ^ 32 < 2 ^ 31)
    (i j : Nat) (order : i ≤ j) (inside : j < uptimes.length) :
    ∃ ri rj, (Ticks.new.run uptimes)[i]? = some ri ∧ (Ticks.new.run uptimes)[j]? = some rj ∧
      rj.toInt - ri.toInt = uptimes[j] - uptimes[i] ∧ ri.toInt ≤ rj.toInt := by
  have growing : uptimes[i] ≤ uptimes[j] := by
    have sorted := (chain.imp fun _ _ follows => follows.1).pairwise
    rcases Nat.eq_or_lt_of_le order with rfl | less
    · exact Nat.le_refl _
    · exact List.pairwise_iff_getElem.mp sorted i j (by omega) inside less
  cases uptimes with
  | nil => exact absurd inside (Nat.not_lt_zero j)
  | cons first rest =>
    -- the statics start as after a call at the beginning of the cycle of the first one
    have start : Ticks.new.Shows (first / 2 ^ 32) (first / 2 ^ 32 * 2 ^ 32) := by
      constructor
      · exact (Nat.mul_mod_left _ _).symm
      · change 0 + first / 2 ^ 32 = _
        omega
    have enters : Follows (first / 2 ^ 32 * 2 ^ 32) first := by
      unfold Follows
      omega
    have results := run_exact start (List.isChain_cons_cons.mpr ⟨enters, chain⟩) fun u member => by
      have bound := few first rfl u member
      omega
    have result (k : Nat) (within : k < (first :: rest).length) :
        ∃ r, (Ticks.new.run (first :: rest))[k]? = some r ∧
          r.toInt = (first :: rest)[k] - (first / 2 ^ 32 : Nat) * 2 ^ 32 := by
      have same := congrArg (·[k]?) results
      simp only [List.getElem?_map, List.getElem?_eq_getElem within, Option.map_some] at same
      exact Option.map_eq_some_iff.mp same
    obtain ⟨ri, at_i, value_i⟩ := result i (by omega)
    obtain ⟨rj, at_j, value_j⟩ := result j inside
    refine ⟨ri, rj, at_i, at_j, ?_, ?_⟩
    · rw [value_i, value_j]
      omega
    · rw [value_i, value_j]
      omega

theorem ticks_differ_three :
    ∃ ri rj, (Ticks.new.run [5, 4294967295, 4294967300])[0]? = some ri ∧
      (Ticks.new.run [5, 4294967295, 4294967300])[2]? = some rj ∧
      rj.toInt - ri.toInt = (4294967300 : Nat) - ((5 : Nat) : Int) ∧ ri.toInt ≤ rj.toInt :=
  ticks_differ [5, 4294967295, 4294967300]
    (List.isChain_cons_cons.mpr ⟨by unfold Follows; decide,
      List.isChain_cons_cons.mpr ⟨by unfold Follows; decide, List.isChain_singleton _⟩⟩)
    (by
      intro first head u member
      cases head
      simp only [List.mem_cons, List.not_mem_nil, or_false] at member
      omega)
    0 2 (by decide) (by decide)

end DevAccess.Log
