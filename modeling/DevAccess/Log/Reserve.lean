import DevAccess.Log.Bookkeeping

/-! The disk space that CleanFile_ keeps free: configured in megabytes, and kept in an int
of bytes. -/
namespace DevAccess.Log
open Foundation

def LogData.needClean (s : LogData) (c : Call) : Int := s.m_iReserveByte - c.free

theorem cleanFile_needs (s : LogData) (c : Call) : s.cleanFile c =
    if c.tick - s.m_lCleanTick > cleanTimeInterval then
      (trim s.m_iMinFiles s.m_iMaxFiles s.m_FileList s.m_iFileCount).map fun r =>
        let r' := if s.needClean c > 0 then
            reclaim s.m_iMinFiles c.size 0 r.left r.count (s.needClean c)
          else ⟨[], r.left, r.count⟩
        { s with
          m_FileList := r'.left
          m_iFileCount := r'.count
          deleted := s.deleted ++ (r.gone ++ r'.gone)
          m_lCleanTick := c.tick }
    else some s := rfl

def reserveMBytes (asked : Option Int) : Int := asked.getD 512

/-- An object and the iReserveMBytes of the last call of Init, over calls of Init and of
WriteLog in any order. -/
inductive Configured (matching : CText → CText → Bool) (localtime : Int → Tm) :
    Option Int → LogData → Prop
  | new : Configured matching localtime none LogData.new
  | init {asked : Option Int} {s : LogData} (before : Configured matching localtime asked s)
    (a : InitArgs) (d : Directory) (natural : 0 ≤ a.iReserveMBytes) :
    Configured matching localtime (some a.iReserveMBytes) (s.init matching a d).1
  | write {asked : Option Int} {s t : LogData} (before : Configured matching localtime asked s)
    (c : Call) (taken : s.step localtime c = some t) : Configured matching localtime asked t

/-- While logging is on, cleaning for space starts from what is missing to the reserve, and
exactly if something is missing. -/
def LogData.Reserves (asked : Option Int) (s : LogData) : Prop :=
  s.m_bInit = true → ∀ c : Call, s.needClean c = reserveMBytes asked * 1048576 - c.free ∧
    (s.needClean c > 0 ↔ c.free < reserveMBytes asked * 1048576)

section Configured
variable {matching : CText → CText → Bool} {localtime : Int → Tm} {asked : Option Int} {s : LogData}

theorem init_reserve (a : InitArgs) (d : Directory) (live : (s.init matching a d).1.m_bInit = true) :
    (s.init matching a d).1.m_iReserveByte = int32 (a.iReserveMBytes * 1024 * 1024) := by
  unfold LogData.init at live ⊢
  split
  · rename_i off
    rw [if_pos off] at live
    cases live
  · rename_i on
    rw [if_neg on] at live
    dsimp only at live ⊢
    split
    · rw [search_eq]
      rfl
    · split
      · rfl
      · rfl

theorem step_reserve {t : LogData} {c : Call} (taken : s.step localtime c = some t) :
    t.m_bInit = s.m_bInit ∧ t.m_iReserveByte = s.m_iReserveByte := by
  rcases step_cases taken with ⟨_, rfl⟩ | ⟨r, _, cleaned, size, rfl⟩
  · exact ⟨rfl, rfl⟩
  · obtain ⟨gone, left, count, tick, split, rfl⟩ := cleanFile_cuts cleaned
    rcases switchNewFile_cases localtime _ c with ⟨_, kept⟩ | ⟨_, _, failed⟩ | ⟨_, _, opened⟩
    · rw [kept]
      exact ⟨rfl, rfl⟩
    · rw [failed]
      exact ⟨rfl, rfl⟩
    · rw [opened]
      exact ⟨rfl, rfl⟩

theorem configured_reserve (configured : Configured matching localtime asked s)
    (live : s.m_bInit = true) :
    (asked = none ∧ s.m_iReserveByte = 512) ∨
      ∃ megabytes, asked = some megabytes ∧ 0 ≤ megabytes ∧
        s.m_iReserveByte = int32 (megabytes * 1024 * 1024) := by
  induction configured with
  | new => exact .inl ⟨rfl, rfl⟩
  | init before a d natural _ =>
    exact .inr ⟨a.iReserveMBytes, rfl, natural, init_reserve a d live⟩
  | write before c taken ih =>
    obtain ⟨still, same⟩ := step_reserve taken
    rw [same]
    exact ih (still ▸ live)

end Configured

theorem megabytes_exact_iff {megabytes : Int} (natural : 0 ≤ megabytes) :
    int32 (megabytes * 1024 * 1024) = megabytes * 1048576 ↔ megabytes ≤ 2047 := by
  unfold int32
  omega

/-- The reserve is kept as configured exactly while logging is off, or if Init was called,
with at most 2047 megabytes. -/
theorem reserves_iff (matching : CText → CText → Bool) (localtime : Int → Tm) (asked : Option Int)
    (s : LogData) (configured : Configured matching localtime asked s) :
    s.Reserves asked ↔ s.m_bInit = false ∨ ∃ megabytes, asked = some megabytes ∧ megabytes ≤ 2047 := by
  cases live : s.m_bInit with
  | false => exact iff_of_true (fun on => Bool.noConfusion (live.symm.trans on)) (.inl rfl)
  | true =>
    have bytes_iff : s.Reserves asked ↔ s.m_iReserveByte = reserveMBytes asked * 1048576 := by
      unfold LogData.Reserves LogData.needClean
      constructor
      · intro reserves
        have here := (reserves live ⟨0, 0, 0, fun _ => 0, 0, false⟩).1
        simpa using here
      · intro same _ c
        rw [same]
        exact ⟨rfl, Int.sub_pos⟩
    rw [bytes_iff]
    rcases configured_reserve configured live with ⟨rfl, default⟩ | ⟨megabytes, rfl, natural, bytes⟩
    · rw [default]
      simp [reserveMBytes]
    · rw [bytes]
      simpa [reserveMBytes] using megabytes_exact_iff natural

def newDirectory : Directory where
  present := false
  created := true
  entries := []
  distinct := List.nodup_nil
  plain := fun _ member => absurd member List.not_mem_nil

theorem devManager_reserves :
    (LogData.new.init windows devManagerInit newDirectory).1.Reserves (some 1000) ↔
      (LogData.new.init windows devManagerInit newDirectory).1.m_bInit = false ∨
        ∃ megabytes, some (1000 : Int) = some megabytes ∧ megabytes ≤ 2047 :=
  reserves_iff windows newYear (some 1000) _ (.init .new devManagerInit newDirectory (by decide))

/-- By default half a kilobyte is kept free, and of two gigabytes nothing. -/
theorem reserve_lost :
    ¬ LogData.new.Reserves none ∧
      ¬ (LogData.new.init windows { devManagerInit with iReserveMBytes := 2048 }
        newDirectory).1.Reserves (some 2048) := by
  constructor
  · intro reserves
    have exact_default := (reserves rfl ⟨0, 0, 1000, fun _ => 0, 0, false⟩).1
    exact absurd exact_default (by decide)
  · intro reserves
    have exact_two := (reserves rfl ⟨0, 0, 1000, fun _ => 0, 0, false⟩).1
    exact absurd exact_two (by decide)

end DevAccess.Log
