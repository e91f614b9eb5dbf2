import DevAccess.Log.Reserve

/-! CleanFile_ with the answers of DeleteFile_, which its loops do not look at. -/
namespace DevAccess.Log
open Foundation

structure Dropped where
  name : CText
  removed : Bool
  counted : Int

structure Sweep where
  drops : List Dropped
  left : List CText
  count : Int

/-- The two loops; the k-th call of DeleteFile_ returns deletes k. The first one asks for no
size. -/
def trimAnswered (iMinFiles iMaxFiles : Int) (deletes : Nat → Bool) :
    Nat → List CText → Int → Option Sweep
  | _, [], count =>
    if count ≥ iMaxFiles ∧ count > iMinFiles then none else some ⟨[], [], count⟩
  | k, strFileName :: rest, count =>
    if count ≥ iMaxFiles ∧ count > iMinFiles then
      (trimAnswered iMinFiles iMaxFiles deletes (k + 1) rest (count - 1)).map fun r =>
        { r with drops := ⟨strFileName, deletes k, 0⟩ :: r.drops }
    else some ⟨[], strFileName :: rest, count⟩

def reclaimAnswered (iMinFiles : Int) (size : Nat → Int) (deletes : Nat → Bool) :
    Nat → List CText → Int → Int → Sweep
  | _, [], count, _ => ⟨[], [], count⟩
  | k, strFileName :: rest, count, lNeedClean =>
    if count > iMinFiles then
      let iFileSize := size k
      let lNeedClean := lNeedClean - iFileSize
      let r := if lNeedClean ≤ 0 then ⟨[], rest, count - 1⟩
        else reclaimAnswered iMinFiles size deletes (k + 1) rest (count - 1) lNeedClean
      { r with drops := ⟨strFileName, deletes k, iFileSize⟩ :: r.drops }
    else ⟨[], strFileName :: rest, count⟩

def LogData.cleanAnswered (s : LogData) (c : Call) (deletes : Nat → Bool) :
    Option (LogData × List Dropped) :=
  if c.tick - s.m_lCleanTick > cleanTimeInterval then
    (trimAnswered s.m_iMinFiles s.m_iMaxFiles deletes 0 s.m_FileList s.m_iFileCount).map fun r =>
      let r' := if s.needClean c > 0 then
          reclaimAnswered s.m_iMinFiles c.size (fun k => deletes (r.drops.length + k)) 0 r.left r.count
            (s.needClean c)
        else ⟨[], r.left, r.count⟩
      ({ s with
        m_FileList := r'.left
        m_iFileCount := r'.count
        deleted := s.deleted ++ (r.drops ++ r'.drops).map Dropped.name
        m_lCleanTick := c.tick }, r.drops ++ r'.drops)
  else some (s, [])

/-- Of the entries that a call takes from the queue, and counts, each was really deleted. -/
def Honest (drops : List Dropped) : Prop := ∀ d ∈ drops, d.removed = true

def Sweep.forget (r : Sweep) : Swept := ⟨r.drops.map Dropped.name, r.left, r.count⟩

theorem trimAnswered_forget (iMinFiles iMaxFiles : Int) (deletes : Nat → Bool) (k : Nat) (q : List CText)
    (count : Int) : (trimAnswered iMinFiles iMaxFiles deletes k q count).map Sweep.forget =
      trim iMinFiles iMaxFiles q count := by
  induction q generalizing k count with
  | nil =>
    rw [trimAnswered, trim]
    split <;> rfl
  | cons f rest ih =>
    rw [trimAnswered, trim]
    split
    · rw [← ih (k + 1), Option.map_map, Option.map_map]
      rfl
    · rfl

theorem reclaimAnswered_forget (iMinFiles : Int) (size : Nat → Int) (deletes : Nat → Bool) (k : Nat)
    (q : List CText) (count lNeedClean : Int) :
    (reclaimAnswered iMinFiles size deletes k q count lNeedClean).forget =
      reclaim iMinFiles size k q count lNeedClean := by
  induction q generalizing k count lNeedClean with
  | nil => rfl
  | cons f rest ih =>
    rw [reclaimAnswered, reclaim]
    split
    · dsimp only
      split
      · rfl
      · rw [← ih]
        rfl
    · rfl

/-- Without the answers it is CleanFile_. -/
theorem cleanAnswered_forget (s : LogData) (c : Call) (deletes : Nat → Bool) :
    (s.cleanAnswered c deletes).map Prod.fst = s.cleanFile c := by
  rw [cleanFile_needs, LogData.cleanAnswered]
  split
  · rw [← trimAnswered_forget s.m_iMinFiles s.m_iMaxFiles deletes 0, Option.map_map, Option.map_map]
    congr 1
    funext r
    dsimp only [Function.comp_apply, Sweep.forget]
    split
    · rw [← reclaimAnswered_forget s.m_iMinFiles c.size (fun k => deletes (r.drops.length + k)) 0 r.left,
        List.map_append]
      rfl
    · simp
  · rfl

def LogData.surplus (s : LogData) : Nat :=
  (s.m_iFileCount - max (s.m_iMaxFiles - 1) s.m_iMinFiles).toNat

def total (size : Nat → Int) (k : Nat) : Nat → Int
  | 0 => 0
  | j + 1 => size k + total size (k + 1) j

def LogData.GoesForSpace (s : LogData) (c : Call) (k : Nat) : Prop :=
  (k < s.m_FileList.length - s.surplus ∧ k < s.m_iFileCount - s.surplus - s.m_iMinFiles) ∧
    ∀ j ≤ k, total c.size 0 j < s.needClean c

/-- When the time has come, DeleteFile_ succeeds for the surplus and for each entry that has
to go for space. -/
def LogData.Deletes (s : LogData) (c : Call) (deletes : Nat → Bool) : Prop :=
  c.tick - s.m_lCleanTick > cleanTimeInterval →
    (∀ k < s.surplus, deletes k = true) ∧
      ∀ k, s.GoesForSpace c k → deletes (s.surplus + k) = true

section Loops
variable {iMinFiles iMaxFiles count lNeedClean : Int} {deletes : Nat → Bool} {size : Nat → Int}

theorem surplus_none (enough : ¬ (count ≥ iMaxFiles ∧ count > iMinFiles)) :
    (count - max (iMaxFiles - 1) iMinFiles).toNat = 0 := by
  omega

theorem surplus_more (surplus : count ≥ iMaxFiles ∧ count > iMinFiles) :
    (count - max (iMaxFiles - 1) iMinFiles).toNat =
      (count - 1 - max (iMaxFiles - 1) iMinFiles).toNat + 1 := by
  omega

theorem trimAnswered_spec {k : Nat} {q : List CText} {r : Sweep}
    (run : trimAnswered iMinFiles iMaxFiles deletes k q count = some r) :
    r.drops.map Dropped.removed =
        (List.range' k (count - max (iMaxFiles - 1) iMinFiles).toNat).map deletes ∧
      q.length = r.drops.length + r.left.length ∧ r.count = count - r.drops.length := by
  induction q generalizing k count r with
  | nil =>
    rw [trimAnswered] at run
    split at run
    · cases run
    · rename_i enough
      cases run
      simp [surplus_none enough]
  | cons f rest ih =>
    rw [trimAnswered] at run
    split at run
    · rename_i surplus
      obtain ⟨r', later, rfl⟩ := Option.map_eq_some_iff.mp run
      obtain ⟨removed, length, counted⟩ := ih later
      refine ⟨?_, ?_, ?_⟩
      · rw [surplus_more surplus, List.range'_succ, List.map_cons, List.map_cons, removed]
      · simp only [List.length_cons]
        omega
      · simp only [List.length_cons]
        omega
    · rename_i enough
      cases run
      simp [surplus_none enough]

theorem total_zero {k : Nat} (short : 0 < lNeedClean) : ∀ j ≤ 0, total size k j < lNeedClean := by
  intro j first
  rw [Nat.le_zero.mp first]
  exact short

theorem total_succ {k i : Nat} (short : 0 < lNeedClean) :
    (∀ j ≤ i + 1, total size k j < lNeedClean) ↔ ∀ j ≤ i, total size (k + 1) j < lNeedClean - size k := by
  constructor
  · intro lacking j before
    have here := lacking (j + 1) (Nat.succ_le_succ before)
    rw [total] at here
    omega
  · intro lacking j before
    cases j with
    | zero => exact short
    | succ j =>
      have later := lacking j (Nat.le_of_succ_le_succ before)
      rw [total]
      omega

theorem reclaimAnswered_spec {k : Nat} (q : List CText) (count : Int) (short : 0 < lNeedClean) :
    ∃ n, (reclaimAnswered iMinFiles size deletes k q count lNeedClean).drops.map Dropped.removed =
        (List.range' k n).map deletes ∧
      ∀ i, i < n ↔ (i < q.length ∧ i < count - iMinFiles) ∧ ∀ j ≤ i, total size k j < lNeedClean := by
  induction q generalizing k count lNeedClean with
  | nil => exact ⟨0, rfl, by simp⟩
  | cons f rest ih =>
    rw [reclaimAnswered]
    split
    case isFalse minimum =>
      refine ⟨0, rfl, fun i => iff_of_false (Nat.not_lt_zero i) fun goes => ?_⟩
      have inside := goes.1.2
      omega
    case isTrue more =>
      dsimp only
      split
      case isTrue enough =>
        refine ⟨1, rfl, fun i => ?_⟩
        cases i with
        | zero => exact iff_of_true Nat.one_pos ⟨⟨Nat.succ_pos _, Int.sub_pos.mpr more⟩, total_zero short⟩
        | succ i =>
          refine iff_of_false (by omega) fun goes => ?_
          have first := (total_succ short).mp goes.2 0 (Nat.zero_le i)
          exact Int.not_le.mpr first enough
      case isFalse lacking =>
        obtain ⟨n, removed, upto⟩ := @ih _ (k + 1) (count - 1) (Int.not_le.mp lacking)
        refine ⟨n + 1, ?_, fun i => ?_⟩
        · rw [List.range'_succ, List.map_cons, List.map_cons, removed]
        · cases i with
          | zero =>
            exact iff_of_true (Nat.succ_pos n) ⟨⟨Nat.succ_pos _, Int.sub_pos.mpr more⟩, total_zero short⟩
          | succ i =>
            rw [Nat.succ_lt_succ_iff, upto i, total_succ short, List.length_cons]
            refine and_congr_left fun _ => ?_
            omega

end Loops

theorem honest_answers {drops : List Dropped} {deletes : Nat → Bool} {n : Nat}
    (removed : drops.map Dropped.removed = (List.range' 0 n).map deletes) :
    Honest drops ↔ ∀ k < n, deletes k = true := by
  have answers : Honest drops ↔ ∀ b ∈ drops.map Dropped.removed, b = true := by
    rw [List.forall_mem_map]
    rfl
  rw [answers, removed, List.forall_mem_map]
  simp [List.mem_range']

theorem honest_append {first second : List Dropped} :
    Honest (first ++ second) ↔ Honest first ∧ Honest second := List.forall_mem_append

theorem goesForSpace_spec {s : LogData} {c : Call} {r : Sweep} (deletes : Nat → Bool)
    (left : r.left.length = s.m_FileList.length - s.surplus) (count : r.count = s.m_iFileCount - s.surplus) :
    ∃ n, (if s.needClean c > 0 then
        reclaimAnswered s.m_iMinFiles c.size deletes 0 r.left r.count (s.needClean c)
      else ⟨[], r.left, r.count⟩).drops.map Dropped.removed = (List.range' 0 n).map deletes ∧
      ∀ k, k < n ↔ s.GoesForSpace c k := by
  split
  case isTrue short =>
    obtain ⟨n, removed, upto⟩ := reclaimAnswered_spec r.left r.count short
    refine ⟨n, removed, fun k => ?_⟩
    rw [upto k, left, count, LogData.GoesForSpace]
  case isFalse plenty =>
    refine ⟨0, rfl, fun k => iff_of_false (Nat.not_lt_zero k) fun goes => ?_⟩
    exact plenty (goes.2 0 (Nat.zero_le k))

/-- A call that gets through is honest exactly if DeleteFile_ succeeds for every entry that
is due. -/
theorem cleaning_honest_iff (s : LogData) (c : Call) (deletes : Nat → Bool) (t : LogData)
    (drops : List Dropped) (run : s.cleanAnswered c deletes = some (t, drops)) :
    Honest drops ↔ s.Deletes c deletes := by
  rw [LogData.cleanAnswered] at run
  split at run
  case isFalse early =>
    cases run
    exact iff_of_true (fun d member => absurd member List.not_mem_nil) fun due => absurd due early
  case isTrue due =>
    obtain ⟨r, trimmed, result⟩ := Option.map_eq_some_iff.mp run
    obtain ⟨removed, length, counted⟩ := trimAnswered_spec trimmed
    have many : r.drops.length = s.surplus := by
      have lengths := congrArg List.length removed
      rwa [List.length_map, List.length_map, List.length_range'] at lengths
    obtain ⟨n, later, goes⟩ := goesForSpace_spec (c := c) (fun k => deletes (r.drops.length + k))
      (by omega : r.left.length = s.m_FileList.length - s.surplus) (by rw [counted, many])
    obtain ⟨-, same⟩ := Prod.mk.inj result
    have upto : (∀ k < n, deletes (s.surplus + k) = true) ↔
        ∀ k, s.GoesForSpace c k → deletes (s.surplus + k) = true :=
      forall_congr' fun k => by rw [goes k]
    rw [← same, honest_append, honest_answers removed, honest_answers later, many, upto]
    exact ⟨fun answers _ => answers, fun answers => answers due⟩

def twoLogs : LogData :=
  { LogData.new with
    m_iMinFiles := 1
    m_iReserveByte := 1048576
    m_iFileCount := 2
    m_FileList := ["./Log/wlog1.log".toList, "./Log/wlog2.log".toList] }

def noSpace : Call := ⟨0, 60001, 0, fun _ => 2097152, 0, false⟩

theorem twoLogs_honest : Honest [⟨"./Log/wlog1.log".toList, true, 2097152⟩] ↔
    twoLogs.Deletes noSpace fun _ => true :=
  cleaning_honest_iff twoLogs noSpace (fun _ => true) _ _ rfl

/-- A log that cannot be deleted leaves the queue all the same, and its bytes are counted. -/
theorem kept_log_counted :
    (twoLogs.cleanAnswered noSpace fun _ => false).map Prod.snd =
        some [⟨"./Log/wlog1.log".toList, false, 2097152⟩] ∧
      ¬ Honest [⟨"./Log/wlog1.log".toList, false, 2097152⟩] := by
  refine ⟨rfl, fun honest => ?_⟩
  exact Bool.noConfusion (honest _ List.mem_cons_self)

end DevAccess.Log
