import DevAccess.Foundation.Calendar
import DevAccess.Foundation.Run

/-! LogData: the log files of a directory, the one being written, and the queue from which
CleanFile_ takes the files it deletes. The system is asked for directory entries, ticks,
free space, file sizes and the time, and whatever it answers is an argument here. The
buffers of 260 bytes are taken to hold their paths. -/
namespace DevAccess.Log
open Foundation

/-- CLEAN_TIME_INTERVAL, 1000*60*1. -/
def cleanTimeInterval : Int := 60000

structure Opening where
  time : Int
  name : CText

/-- The queue lies in memory, so m_iFileCount, an int, does not come near its bounds. -/
structure LogData where
  m_bInit : Bool
  m_iMinFiles : Int
  m_iMaxFiles : Int
  m_iReserveByte : Int
  m_file_bytes_limit : Int
  m_szDir : CText
  m_szFileName : CText
  m_iLogSize : Int
  m_iFileCount : Int
  m_FileList : List CText
  m_FileFD : Option CText  -- what the file was opened as, none for NULL
  m_lCleanTick : Int
  -- History: the names that SerarchLogsByDir recorded, the files opened, newest first,
  -- and the arguments of DeleteFile_.
  found : List CText
  opened : List Opening
  deleted : List CText

def LogData.new : LogData where
  m_bInit := true
  m_iMinFiles := 100
  m_iMaxFiles := 1000
  m_iReserveByte := 512
  m_file_bytes_limit := 5242880
  m_szDir := "./Log".toList
  m_szFileName := "wlog".toList
  m_iLogSize := 0
  m_iFileCount := 0
  m_FileList := []
  m_FileFD := none
  m_lCleanTick := 0
  found := []
  opened := []
  deleted := []

structure Entry where
  name : CText
  isDir : Bool

/-- What the system says of the directory. Its entries have different names without slashes. -/
structure Directory where
  present : Bool  -- IsExistDir
  created : Bool  -- CreateDirectory, or mkdir
  entries : List Entry
  distinct : (entries.map Entry.name).Nodup
  plain : ∀ e ∈ entries, '/' ∉ e.name

structure InitArgs where
  pDir : Option CText
  pFileName : Option CText
  iMinFiles : Int
  iMaxFiles : Int
  iReserveMBytes : Int
  bLog : Bool

section Init
variable (matching : CText → CText → Bool)  -- MatchingString, on either platform

def LogData.pathName (s : LogData) (filename : CText) : CText :=
  s.m_szDir ++ (if s.m_szDir.getLast? = some '/' then [] else ['/']) ++ filename

def LogData.searchFileName (s : LogData) : CText := s.m_szFileName ++ "*.log".toList

def LogData.record (s : LogData) (filename : CText) : LogData :=
  { s with
    m_iFileCount := s.m_iFileCount + 1
    m_FileList := s.m_FileList ++ [s.pathName filename]
    found := s.found ++ [filename] }

def LogData.serarchLogsByDir (s : LogData) (d : Directory) : LogData :=
  d.entries.foldl (fun s e =>
    if !e.isDir && matching e.name s.searchFileName then s.record e.name else s) s

def LogData.matched (s : LogData) (d : Directory) : List CText :=
  (d.entries.filter fun e => !e.isDir && matching e.name s.searchFileName).map Entry.name

theorem search_eq (s : LogData) (d : Directory) : s.serarchLogsByDir matching d =
    { s with
      m_iFileCount := s.m_iFileCount + (s.matched matching d).length
      m_FileList := s.m_FileList ++ (s.matched matching d).map s.pathName
      found := s.found ++ s.matched matching d } := by
  unfold LogData.serarchLogsByDir LogData.matched
  induction d.entries generalizing s with
  | nil => simp
  | cons e rest ih =>
    rw [List.foldl_cons, List.filter_cons]
    split
    case isTrue =>
      rw [ih]
      simp [LogData.record, LogData.searchFileName, LogData.pathName]
      omega
    case isFalse => exact ih s

def testDir (pDir : Option CText) (d : Directory) : Int :=
  match pDir with
  | none => -1
  | some _ => if d.present then 0 else if d.created then 1 else -1

def LogData.configure (s : LogData) (a : InitArgs) : LogData :=
  { s with
    m_szDir := a.pDir.getD s.m_szDir
    m_iMinFiles := a.iMinFiles
    m_iMaxFiles := a.iMaxFiles
    m_iReserveByte := int32 (a.iReserveMBytes * 1024 * 1024)
    m_szFileName := a.pFileName.getD s.m_szFileName }

def LogData.init (s : LogData) (a : InitArgs) (d : Directory) : LogData × Int :=
  if !a.bLog then ({ s with m_bInit := false }, 0)
  else
    let s := s.configure a
    let iRet := testDir a.pDir d
    if iRet = 0 then (s.serarchLogsByDir matching d, 0)
    else if iRet = -1 then ({ s with m_bInit := false }, -1)
    else (s, 0)

end Init

def devManagerInit : InitArgs := ⟨some "./log".toList, some "dev_".toList, 5, 128, 1000, true⟩

def oneLog : Directory where
  present := true
  created := false
  entries := [⟨"dev_20240101000000.log".toList, false⟩]
  distinct := by decide
  plain := by decide

/-- A call of WriteLog, with what GetBootTickCount, GetDiskFreeSpace_, GetFileSize_ at its
k-th call, time and fopen answer in it. -/
structure Call where
  iLen : Int
  tick : Int
  free : Int
  size : Nat → Int
  now : Int
  opens : Bool

structure Swept where
  gone : List CText
  left : List CText
  count : Int

/-- while(m_iFileCount >= m_iMaxFiles && m_iFileCount > m_iMinFiles): none for the front of
an empty queue. -/
def trim (iMinFiles iMaxFiles : Int) : List CText → Int → Option Swept
  | [], count =>
    if count ≥ iMaxFiles ∧ count > iMinFiles then none else some ⟨[], [], count⟩
  | strFileName :: rest, count =>
    if count ≥ iMaxFiles ∧ count > iMinFiles then
      (trim iMinFiles iMaxFiles rest (count - 1)).map fun r => { r with gone := strFileName :: r.gone }
    else some ⟨[], strFileName :: rest, count⟩

/-- while(m_FileList.size() > 0 && m_iFileCount > m_iMinFiles), from the k-th file on. -/
def reclaim (iMinFiles : Int) (size : Nat → Int) : Nat → List CText → Int → Int → Swept
  | _, [], count, _ => ⟨[], [], count⟩
  | k, strFileName :: rest, count, lNeedClean =>
    if count > iMinFiles then
      let lNeedClean := lNeedClean - size k
      let r := if lNeedClean ≤ 0 then ⟨[], rest, count - 1⟩
        else reclaim iMinFiles size (k + 1) rest (count - 1) lNeedClean
      { r with gone := strFileName :: r.gone }
    else ⟨[], strFileName :: rest, count⟩

def LogData.cleanFile (s : LogData) (c : Call) : Option LogData :=
  if c.tick - s.m_lCleanTick > cleanTimeInterval then
    (trim s.m_iMinFiles s.m_iMaxFiles s.m_FileList s.m_iFileCount).map fun r =>
      let lNeedClean := s.m_iReserveByte - c.free
      let r' := if lNeedClean > 0 then reclaim s.m_iMinFiles c.size 0 r.left r.count lNeedClean
        else ⟨[], r.left, r.count⟩
      { s with
        m_FileList := r'.left
        m_iFileCount := r'.count
        deleted := s.deleted ++ (r.gone ++ r'.gone)
        m_lCleanTick := c.tick }
  else some s

theorem trim_split {iMinFiles iMaxFiles count : Int} {q : List CText} {r : Swept}
    (run : trim iMinFiles iMaxFiles q count = some r) : q = r.gone ++ r.left := by
  induction q generalizing count r with
  | nil =>
    rw [trim] at run
    split at run
    · cases run
    · cases run; rfl
  | cons f rest ih =>
    rw [trim] at run
    split at run
    · obtain ⟨r', later, same⟩ := Option.map_eq_some_iff.mp run
      cases same
      exact congrArg (f :: ·) (ih later)
    · cases run; rfl

theorem reclaim_split (iMinFiles : Int) (size : Nat → Int) (k : Nat) (q : List CText)
    (count lNeedClean : Int) :
    q = (reclaim iMinFiles size k q count lNeedClean).gone ++
      (reclaim iMinFiles size k q count lNeedClean).left := by
  induction q generalizing k count lNeedClean with
  | nil => rfl
  | cons f rest ih =>
    rw [reclaim]
    split
    · dsimp only
      split
      · rfl
      · exact congrArg (f :: ·) (ih _ _ _)
    · rfl

theorem cleanFile_cuts {s t : LogData} {c : Call} (run : s.cleanFile c = some t) :
    ∃ gone left count tick, s.m_FileList = gone ++ left ∧
      t = { s with
        m_FileList := left
        m_iFileCount := count
        deleted := s.deleted ++ gone
        m_lCleanTick := tick } := by
  unfold LogData.cleanFile at run
  split at run
  · obtain ⟨r, trimmed, rfl⟩ := Option.map_eq_some_iff.mp run
    have first := trim_split trimmed
    dsimp only
    split
    · have second := reclaim_split s.m_iMinFiles c.size 0 r.left r.count (s.m_iReserveByte - c.free)
      refine ⟨_, _, _, c.tick, ?_, rfl⟩
      rw [List.append_assoc, ← second]
      exact first
    · refine ⟨_, _, _, c.tick, ?_, rfl⟩
      rw [List.append_nil]
      exact first
  · cases run
    exact ⟨[], s.m_FileList, s.m_iFileCount, s.m_lCleanTick, rfl, by simp⟩

section Write
variable (localtime : Int → Tm)

/-- %s/%s%04d%02d%02d%02d%02d%02d.log -/
def LogData.logName (s : LogData) (t : Tm) : CText :=
  s.m_szDir ++ '/' :: (s.m_szFileName ++ (t.stamp ++ ".log".toList))

def LogData.Rotates (s : LogData) : Prop := s.m_iLogSize > s.m_file_bytes_limit ∨ s.m_FileFD = none

instance (s : LogData) : Decidable s.Rotates := inferInstanceAs (Decidable (_ ∨ _))

def LogData.openFile (s : LogData) (now : Int) : LogData :=
  { s with
    m_FileFD := some (s.logName (localtime now))
    m_iFileCount := s.m_iFileCount + 1
    m_FileList := s.m_FileList ++ [s.logName (localtime now)]
    m_iLogSize := 0
    opened := ⟨now, s.logName (localtime now)⟩ :: s.opened }

def LogData.switchNewFile (s : LogData) (c : Call) : LogData × Bool :=
  let s := if s.m_iLogSize > s.m_file_bytes_limit then { s with m_FileFD := none } else s
  if s.m_FileFD = none then
    if c.opens then (s.openFile localtime c.now, true) else (s, false)
  else (s, true)

/-- The statement after the inner block, m_iLogSize = m_file_bytes_limit + 1, is not reached. -/
def LogData.writeLog (s : LogData) (c : Call) : Option (LogData × Bool) :=
  if !s.m_bInit then some (s, false)
  else
    (s.cleanFile c).map fun s =>
      match s.switchNewFile localtime c with
      | (s, true) => ({ s with m_iLogSize := int32 (s.m_iLogSize + c.iLen) }, true)
      | (s, false) => (s, false)

def LogData.step (s : LogData) (c : Call) : Option LogData := (s.writeLog localtime c).map Prod.fst

end Write

section Cases
variable {localtime : Int → Tm}

theorem switchNewFile_cases (localtime : Int → Tm) (s : LogData) (c : Call) :
    (¬ s.Rotates ∧ s.switchNewFile localtime c = (s, true)) ∨
    (s.Rotates ∧ c.opens = false ∧
      s.switchNewFile localtime c = ({ s with m_FileFD := none }, false)) ∨
    (s.Rotates ∧ c.opens = true ∧ s.switchNewFile localtime c = (s.openFile localtime c.now, true)) := by
  unfold LogData.switchNewFile LogData.Rotates
  by_cases full : s.m_iLogSize > s.m_file_bytes_limit
  · rw [if_pos full, if_pos rfl]
    cases opens : c.opens with
    | false => exact .inr (.inl ⟨.inl full, rfl, rfl⟩)
    | true => exact .inr (.inr ⟨.inl full, rfl, rfl⟩)
  · rw [if_neg full]
    by_cases closed : s.m_FileFD = none
    · rw [if_pos closed]
      cases opens : c.opens with
      | false =>
        refine .inr (.inl ⟨.inr closed, rfl, ?_⟩)
        rw [← closed]
        rfl
      | true => exact .inr (.inr ⟨.inr closed, rfl, rfl⟩)
    · rw [if_neg closed]
      exact .inl ⟨fun due => due.elim full closed, rfl⟩

theorem step_cases {s t : LogData} {c : Call} (taken : s.step localtime c = some t) :
    (s.m_bInit = false ∧ t = s) ∨
    ∃ r, s.m_bInit = true ∧ s.cleanFile c = some r ∧
      ∃ size, t = { (r.switchNewFile localtime c).1 with m_iLogSize := size } := by
  unfold LogData.step LogData.writeLog at taken
  cases live : s.m_bInit with
  | false =>
    rw [live] at taken
    exact .inl ⟨rfl, (Option.some.inj taken).symm⟩
  | true =>
    rw [live] at taken
    obtain ⟨⟨u, ok⟩, written, result⟩ := Option.map_eq_some_iff.mp taken
    obtain ⟨r, cleaned, switched⟩ := Option.map_eq_some_iff.mp written
    refine .inr ⟨r, rfl, cleaned, ?_⟩
    rw [← result]
    split at switched
    case h_1 v switch => cases switched; exact ⟨_, by rw [switch]⟩
    case h_2 v switch => cases switched; exact ⟨u.m_iLogSize, by rw [switch]⟩

end Cases

end DevAccess.Log
