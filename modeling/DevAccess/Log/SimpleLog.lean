import DevAccess.Foundation.Calendar
import DevAccess.Foundation.Run

/-! CSimpleLog: one log after another, each left when it has grown beyond 50 megabytes. The
bytes of a file are the characters that the printf functions have put into it. -/
namespace DevAccess.Log
open Foundation CText

structure LogFile where
  name : CText
  bytes : Nat

/-- g_file is what the open file was opened as, none for NULL. -/
structure SimpleLog where
  m_fname : CText
  m_lastTime : Int
  m_iFilesize : Int
  m_iNum : Int
  m_iId : Int
  m_isDisableTime : Bool
  g_file : Option CText
  -- History: the files opened, newest first.
  files : List LogFile

/-- The constructor and SetPrev. m_lastTime is not set by the constructor. -/
def SimpleLog.new (m_fname : CText) (m_lastTime : Int) : SimpleLog where
  m_fname := m_fname
  m_lastTime := m_lastTime
  m_iFilesize := 0
  m_iNum := 0
  m_iId := -1
  m_isDisableTime := false
  g_file := none
  files := []

/-- A call of PrintfV: what fopen and time answer in it, the length of the formatted text, and
how much of it vfprintf writes when no int can hold that length. -/
structure Print where
  opens : Bool
  now : Int
  length : Nat
  partly : Nat

/-- ./%s_%08d_%d.log -/
def logFileName (m_fname : CText) (m_iId m_iNum : Int) : CText :=
  "./".toList ++ m_fname ++ '_' :: CText.padded 8 m_iId.toNat ++ '_' :: signedDecimal m_iNum ++
    ".log".toList

def fileBase (m_fname : CText) : CText := if m_fname = [] then "./csimplelog".toList else m_fname

def SimpleLog.createFile (s : SimpleLog) (g_iNum : UInt8) (opens : Bool) : SimpleLog × UInt8 × Bool :=
  match s.g_file with
  | some _ => (s, g_iNum, true)
  | none =>
    let s := { s with m_fname := fileBase s.m_fname }
    let (s, g_iNum) :=
      if s.m_iId = -1 then ({ s with m_iId := g_iNum.toNat }, g_iNum + 1)
      else ({ s with m_iNum := int32 (s.m_iNum + 1) }, g_iNum)
    let buf := logFileName s.m_fname s.m_iId s.m_iNum
    if opens then ({ s with g_file := some buf, files := ⟨buf, 0⟩ :: s.files }, g_iNum, true)
    else (s, g_iNum, false)

/-- m_iFilesize += fprintf(g_file, ..), which returns ret and writes so many characters. -/
def SimpleLog.fprintf (s : SimpleLog) (ret : Int) (written : Nat) : SimpleLog :=
  { s with
    m_iFilesize := int32 (s.m_iFilesize + ret)
    files := match s.files with
      | [] => []
      | f :: rest => { f with bytes := f.bytes + written } :: rest }

/-- The format --- %04d-%02d-%02d %02d:%02d:%02d : and a newline. -/
def timeLine (t : Tm) : CText :=
  "--- ".toList ++ CText.padded 4 (t.tm_year + 1900) ++ '-' :: CText.padded 2 (t.tm_mon + 1) ++
    '-' :: CText.padded 2 t.tm_mday ++ ' ' :: CText.padded 2 t.tm_hour ++ ':' :: CText.padded 2 t.tm_min ++
    ':' :: CText.padded 2 t.tm_sec ++ " :\n".toList

section Print
variable (localtime : Int → Tm)

def SimpleLog.printTime (s : SimpleLog) (g_iNum : UInt8) (c : Print) : SimpleLog × UInt8 :=
  match s.createFile g_iNum c.opens with
  | (s, g_iNum, false) => (s, g_iNum)
  | (s, g_iNum, true) =>
    if c.now = s.m_lastTime then (s, g_iNum)
    else
      let line := (timeLine (localtime c.now)).length
      ({ s with m_lastTime := c.now }.fprintf line line, g_iNum)

def Print.ret (c : Print) : Int := if c.length < 2147483648 then c.length else -1
def Print.written (c : Print) : Nat := if c.length < 2147483648 then c.length else min c.partly c.length

def SimpleLog.printfV (s : SimpleLog) (g_iNum : UInt8) (c : Print) : SimpleLog × UInt8 :=
  match s.createFile g_iNum c.opens with
  | (s, g_iNum, false) => (s, g_iNum)
  | (s, g_iNum, true) =>
    let (s, g_iNum) := if s.m_isDisableTime then (s, g_iNum) else s.printTime localtime g_iNum c
    let s := s.fprintf c.ret c.written
    let s := s.fprintf 1 1
    if s.m_iFilesize > 52428800 then ({ s with g_file := none }, g_iNum) else (s, g_iNum)

def SimpleLog.step (s : SimpleLog) (a : UInt8 × Print) : Option SimpleLog :=
  some (s.printfV localtime a.1 a.2).1

end Print

def SimpleLog.closed (s : SimpleLog) : List LogFile :=
  match s.g_file with
  | some _ => s.files.tail
  | none => s.files

/-- m_iFilesize is the size of the open file, and a file was closed only with more than 50
megabytes in it. -/
structure SimpleLog.Metered (s : SimpleLog) : Prop where
  counted : ∀ name, s.g_file = some name →
    ∃ f rest, s.files = f :: rest ∧ f.name = name ∧ s.m_iFilesize = f.bytes
  filled : ∀ f ∈ s.closed, 52428800 < f.bytes

theorem createFile_cases (s : SimpleLog) (g_iNum : UInt8) (opens : Bool) :
    (∃ name, s.g_file = some name ∧ s.createFile g_iNum opens = (s, g_iNum, true)) ∨
    (s.g_file = none ∧ ∃ (id num : Int) (g : UInt8),
      ((s.m_iId = -1 ∧ id = g_iNum.toNat ∧ num = s.m_iNum ∧ g = g_iNum + 1) ∨
        (s.m_iId ≠ -1 ∧ id = s.m_iId ∧ num = int32 (s.m_iNum + 1) ∧ g = g_iNum)) ∧
      ((opens = true ∧ s.createFile g_iNum opens =
          ({ s with
            m_fname := fileBase s.m_fname
            m_iId := id
            m_iNum := num
            g_file := some (logFileName (fileBase s.m_fname) id num)
            files := ⟨logFileName (fileBase s.m_fname) id num, 0⟩ :: s.files }, g, true)) ∨
        (opens = false ∧ s.createFile g_iNum opens =
          ({ s with m_fname := fileBase s.m_fname, m_iId := id, m_iNum := num }, g, false)))) := by
  unfold SimpleLog.createFile
  cases here : s.g_file with
  | some name => exact .inl ⟨name, rfl, rfl⟩
  | none =>
    refine .inr ⟨rfl, ?_⟩
    by_cases fresh : s.m_iId = -1
    · refine ⟨g_iNum.toNat, s.m_iNum, g_iNum + 1, .inl ⟨fresh, rfl, rfl, rfl⟩, ?_⟩
      cases opens with
      | true => exact .inl ⟨rfl, by simp [fresh]⟩
      | false => exact .inr ⟨rfl, by simp [fresh]⟩
    · refine ⟨s.m_iId, int32 (s.m_iNum + 1), g_iNum, .inr ⟨fresh, rfl, rfl, rfl⟩, ?_⟩
      cases opens with
      | true => exact .inl ⟨rfl, by simp [fresh]⟩
      | false => exact .inr ⟨rfl, by simp [fresh]⟩

section Step
variable {localtime : Int → Tm} {s s' : SimpleLog} {g g' : UInt8} {c : Print}

theorem createFile_open {name : CText} (here : s.g_file = some name) (g : UInt8) (opens : Bool) :
    s.createFile g opens = (s, g, true) := by
  rw [SimpleLog.createFile, here]

theorem printfV_failed (failed : s.createFile g c.opens = (s', g', false)) :
    s.printfV localtime g c = (s', g') := by
  rw [SimpleLog.printfV, failed]

def SimpleLog.holding (s : SimpleLog) (f : LogFile) (rest : List LogFile) : SimpleLog :=
  { s with m_iFilesize := f.bytes, files := f :: rest }

end Step

structure SimpleLog.Ready (s : SimpleLog) : Prop where
  metered : s.Metered
  empty : s.files = [] → s.m_iFilesize = 0

end DevAccess.Log
