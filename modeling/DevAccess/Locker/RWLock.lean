import DevAccess.Foundation.Threads

/-! The readers-writer lock of RWLock.cpp, WIN32 branch. What stands between
EnterCriticalSection and LeaveCriticalSection is one step, and so is a wait. -/
namespace DevAccess.Locker
open Foundation

inductive RWLockStatus where
  | idle
  | r
  | w
  deriving DecidableEq

/-- _RWLock. The counters are int; 2^31 threads or holds are out of reach. -/
structure RWLock where
  eLockStatus : RWLockStatus
  iRLockCount : Int
  iRWaitingCount : Int
  iWWaitingCount : Int
  hEvent : Bool
  deriving DecidableEq

def RWLock.make : RWLock := ⟨.idle, 0, 0, 0, false⟩

def RWLock.awaitRead (m : RWLock) : RWLock :=
  { m with iRWaitingCount := m.iRWaitingCount + 1, hEvent := false }

def RWLock.awaitWrite (m : RWLock) : RWLock :=
  { m with iWWaitingCount := m.iWWaitingCount + 1, hEvent := false }

/-- One turn of the loop in lock_shared, and whether it ends the loop. -/
def RWLock.lockShared (isWaitReturn : Bool) (m : RWLock) : RWLock × Bool :=
  let m := if isWaitReturn then { m with iRWaitingCount := m.iRWaitingCount - 1 } else m
  match m.eLockStatus with
  | .idle => ({ m with eLockStatus := .r, iRLockCount := m.iRLockCount + 1 }, true)
  | .r =>
    if m.iWWaitingCount > 0 then (m.awaitRead, false)
    else ({ m with iRLockCount := m.iRLockCount + 1 }, true)
  | .w => (m.awaitRead, false)

def RWLock.tryLockShared (m : RWLock) : RWLock × Bool :=
  match m.eLockStatus with
  | .idle => ({ m with eLockStatus := .r, iRLockCount := m.iRLockCount + 1 }, true)
  | .r =>
    if m.iWWaitingCount > 0 then (m, false)
    else ({ m with iRLockCount := m.iRLockCount + 1 }, true)
  | .w => (m, false)

def RWLock.lockUnique (isWaitReturn : Bool) (m : RWLock) : RWLock × Bool :=
  let m := if isWaitReturn then { m with iWWaitingCount := m.iWWaitingCount - 1 } else m
  if m.eLockStatus = .idle then ({ m with eLockStatus := .w }, true) else (m.awaitWrite, false)

def RWLock.tryLockUnique (m : RWLock) : RWLock × Bool :=
  if m.eLockStatus = .idle then ({ m with eLockStatus := .w }, true) else (m, false)

def RWLock.release (m : RWLock) : RWLock :=
  let m := { m with eLockStatus := .idle }
  if m.iWWaitingCount > 0 ∨ m.iRWaitingCount > 0 then { m with hEvent := true } else m

def RWLock.unlock (m : RWLock) : RWLock :=
  if m.iRLockCount > 0 then
    let m := { m with iRLockCount := m.iRLockCount - 1 }
    if m.iRLockCount = 0 then m.release else m
  else m.release

inductive Pc where
  | outside
  | readWait   -- lock_shared, WaitForSingleObject
  | readAgain  -- lock_shared, isWaitReturn set, before EnterCriticalSection
  | writeWait
  | writeAgain
  deriving DecidableEq

structure Local where
  pc : Pc
  reads : Nat      -- the read locks it holds
  writing : Bool   -- whether it holds the write lock
  deriving DecidableEq

def Local.start : Local := ⟨.outside, 0, false⟩

inductive Op where
  | lockShared | tryLockShared | unlockShared
  | lockUnique | tryLockUnique | unlockUnique
  | wake   -- WaitForSingleObject returns
  | again  -- the critical section after it
  deriving DecidableEq

def Local.gotRead (l : Local) : Local := { l with pc := .outside, reads := l.reads + 1 }
def Local.gotWrite (l : Local) : Local := { l with pc := .outside, writing := true }

/-- unlock is called by a holder only, as the destructors of AutoRLock and AutoWLock do. -/
def perform (m : RWLock) (l : Local) : Op → Option (RWLock × Local)
  | .lockShared =>
    if l.pc = .outside then
      let (m, got) := m.lockShared false
      some (m, if got then l.gotRead else { l with pc := .readWait })
    else none
  | .tryLockShared =>
    if l.pc = .outside then
      let (m, got) := m.tryLockShared
      some (m, if got then l.gotRead else l)
    else none
  | .lockUnique =>
    if l.pc = .outside then
      let (m, got) := m.lockUnique false
      some (m, if got then l.gotWrite else { l with pc := .writeWait })
    else none
  | .tryLockUnique =>
    if l.pc = .outside then
      let (m, got) := m.tryLockUnique
      some (m, if got then l.gotWrite else l)
    else none
  | .unlockShared =>
    if l.pc = .outside ∧ 0 < l.reads then some (m.unlock, { l with reads := l.reads - 1 }) else none
  | .unlockUnique =>
    if l.pc = .outside ∧ l.writing then some (m.unlock, { l with writing := false }) else none
  | .wake =>
    if m.hEvent then
      match l.pc with
      | .readWait => some (m, { l with pc := .readAgain })
      | .writeWait => some (m, { l with pc := .writeAgain })
      | _ => none
    else none
  | .again =>
    match l.pc with
    | .readAgain =>
      let (m, got) := m.lockShared true
      some (m, if got then l.gotRead else { l with pc := .readWait })
    | .writeAgain =>
      let (m, got) := m.lockUnique true
      some (m, if got then l.gotWrite else { l with pc := .writeWait })
    | _ => none

abbrev State (T : Type) := Threads T RWLock Local

def State.start {T : Type} : State T := ⟨.make, fun _ => .start⟩

def State.step {T : Type} [DecidableEq T] (s : State T) (a : T × Op) : Option (State T) :=
  Threads.step perform s a

/-- A read lock is to be had at once. -/
def RWLock.Readable (m : RWLock) : Prop :=
  m.eLockStatus = .idle ∨ (m.eLockStatus = .r ∧ m.iWWaitingCount ≤ 0)

def RWLock.readLocked (m : RWLock) : RWLock :=
  { m with eLockStatus := .r, iRLockCount := m.iRLockCount + 1 }

def RWLock.writeLocked (m : RWLock) : RWLock := { m with eLockStatus := .w }

section Turns
variable {m : RWLock}

theorem waiting_of_busy (busy : ¬ m.Readable) (shared : m.eLockStatus = .r) : m.iWWaitingCount > 0 := by
  unfold RWLock.Readable at busy
  simp only [shared, true_and] at busy
  omega

theorem lockShared_readable (free : m.Readable) : m.lockShared false = (m.readLocked, true) := by
  rcases free with idle | ⟨shared, none⟩
  · simp [RWLock.lockShared, RWLock.readLocked, idle]
  · simp [RWLock.lockShared, RWLock.readLocked, shared, Int.not_lt.mpr none]

theorem lockShared_busy (busy : ¬ m.Readable) : m.lockShared false = (m.awaitRead, false) := by
  cases status : m.eLockStatus with
  | idle => exact absurd (.inl status) busy
  | r => simp [RWLock.lockShared, status, waiting_of_busy busy status]
  | w => simp [RWLock.lockShared, status]

theorem again_readable (free : m.Readable) :
    m.lockShared true = ({ m with iRWaitingCount := m.iRWaitingCount - 1 }.readLocked, true) :=
  lockShared_readable (m := { m with iRWaitingCount := m.iRWaitingCount - 1 }) free

theorem again_busy (busy : ¬ m.Readable) : m.lockShared true = ({ m with hEvent := false }, false) := by
  have waits : m.lockShared true = ({ m with iRWaitingCount := m.iRWaitingCount - 1 }.awaitRead, false) :=
    lockShared_busy (m := { m with iRWaitingCount := m.iRWaitingCount - 1 }) busy
  rw [waits, RWLock.awaitRead]
  simp

theorem tryLockShared_eq (m : RWLock) :
    m.tryLockShared = if (m.lockShared false).2 then m.lockShared false else (m, false) := by
  by_cases free : m.Readable
  · rw [lockShared_readable free]
    rcases free with idle | ⟨shared, none⟩
    · simp [RWLock.tryLockShared, RWLock.readLocked, idle]
    · simp [RWLock.tryLockShared, RWLock.readLocked, shared, Int.not_lt.mpr none]
  · rw [lockShared_busy free]
    cases status : m.eLockStatus with
    | idle => exact absurd (.inl status) free
    | r => simp [RWLock.tryLockShared, status, waiting_of_busy free status]
    | w => simp [RWLock.tryLockShared, status]

theorem lockUnique_idle (free : m.eLockStatus = .idle) : m.lockUnique false = (m.writeLocked, true) := by
  simp [RWLock.lockUnique, RWLock.writeLocked, free]

theorem lockUnique_busy (busy : m.eLockStatus ≠ .idle) : m.lockUnique false = (m.awaitWrite, false) := by
  simp [RWLock.lockUnique, busy]

theorem uniqueAgain_idle (free : m.eLockStatus = .idle) :
    m.lockUnique true = ({ m with iWWaitingCount := m.iWWaitingCount - 1 }.writeLocked, true) :=
  lockUnique_idle (m := { m with iWWaitingCount := m.iWWaitingCount - 1 }) free

theorem uniqueAgain_busy (busy : m.eLockStatus ≠ .idle) :
    m.lockUnique true = ({ m with hEvent := false }, false) := by
  have waits : m.lockUnique true = ({ m with iWWaitingCount := m.iWWaitingCount - 1 }.awaitWrite, false) :=
    lockUnique_busy (m := { m with iWWaitingCount := m.iWWaitingCount - 1 }) busy
  rw [waits, RWLock.awaitWrite]
  simp

theorem tryLockUnique_idle (free : m.eLockStatus = .idle) : m.tryLockUnique = (m.writeLocked, true) := by
  simp [RWLock.tryLockUnique, RWLock.writeLocked, free]

theorem tryLockUnique_busy (busy : m.eLockStatus ≠ .idle) : m.tryLockUnique = (m, false) := by
  simp [RWLock.tryLockUnique, busy]

theorem release_eq (m : RWLock) :
    m.release = { m with
      eLockStatus := .idle,
      hEvent := m.hEvent || decide (m.iWWaitingCount > 0 ∨ m.iRWaitingCount > 0) } := by
  unfold RWLock.release
  by_cases waiting : m.iWWaitingCount > 0 ∨ m.iRWaitingCount > 0
  · simp [waiting]
  · simp [waiting]

theorem unlock_more (more : 1 < m.iRLockCount) :
    m.unlock = { m with iRLockCount := m.iRLockCount - 1 } := by
  have positive : m.iRLockCount > 0 := by omega
  have left : m.iRLockCount - 1 ≠ 0 := by omega
  simp [RWLock.unlock, positive, left]

theorem unlock_last (last : m.iRLockCount = 1) :
    m.unlock = { m with iRLockCount := 0 }.release := by
  simp [RWLock.unlock, last]

theorem unlock_writer (none : m.iRLockCount = 0) : m.unlock = m.release := by
  simp [RWLock.unlock, none]

end Turns

/-- Everything a thread can do to the lock and to itself. -/
inductive Moves (m : RWLock) (l : Local) : Op → RWLock → Local → Prop where
  | shared (here : l.pc = .outside) (free : m.Readable) : Moves m l .lockShared m.readLocked l.gotRead
  | sharedWaits (here : l.pc = .outside) (busy : ¬ m.Readable) :
    Moves m l .lockShared m.awaitRead { l with pc := .readWait }
  | trySharedGets (here : l.pc = .outside) (free : m.Readable) :
    Moves m l .tryLockShared m.readLocked l.gotRead
  | trySharedFails (here : l.pc = .outside) : Moves m l .tryLockShared m l
  | unique (here : l.pc = .outside) (free : m.eLockStatus = .idle) :
    Moves m l .lockUnique m.writeLocked l.gotWrite
  | uniqueWaits (here : l.pc = .outside) (busy : m.eLockStatus ≠ .idle) :
    Moves m l .lockUnique m.awaitWrite { l with pc := .writeWait }
  | tryUniqueGets (here : l.pc = .outside) (free : m.eLockStatus = .idle) :
    Moves m l .tryLockUnique m.writeLocked l.gotWrite
  | tryUniqueFails (here : l.pc = .outside) : Moves m l .tryLockUnique m l
  | unlockShared (here : l.pc = .outside) (holds : 0 < l.reads) :
    Moves m l .unlockShared m.unlock { l with reads := l.reads - 1 }
  | unlockUnique (here : l.pc = .outside) (holds : l.writing = true) :
    Moves m l .unlockUnique m.unlock { l with writing := false }
  | readWakes (here : l.pc = .readWait) (set : m.hEvent = true) :
    Moves m l .wake m { l with pc := .readAgain }
  | writeWakes (here : l.pc = .writeWait) (set : m.hEvent = true) :
    Moves m l .wake m { l with pc := .writeAgain }
  | sharedAgain (here : l.pc = .readAgain) (free : m.Readable) :
    Moves m l .again { m with iRWaitingCount := m.iRWaitingCount - 1 }.readLocked l.gotRead
  | sharedWaitsAgain (here : l.pc = .readAgain) (busy : ¬ m.Readable) :
    Moves m l .again { m with hEvent := false } { l with pc := .readWait }
  | uniqueAgain (here : l.pc = .writeAgain) (free : m.eLockStatus = .idle) :
    Moves m l .again { m with iWWaitingCount := m.iWWaitingCount - 1 }.writeLocked l.gotWrite
  | uniqueWaitsAgain (here : l.pc = .writeAgain) (busy : m.eLockStatus ≠ .idle) :
    Moves m l .again { m with hEvent := false } { l with pc := .writeWait }

theorem perform_moves {m m' : RWLock} {l l' : Local} {o : Op} (done : perform m l o = some (m', l')) :
    Moves m l o m' l' := by
  cases o with
  | lockShared =>
    simp only [perform] at done
    split at done
    case isFalse => cases done
    case isTrue here =>
    by_cases free : m.Readable
    · rw [lockShared_readable free] at done
      cases done
      exact .shared here free
    · rw [lockShared_busy free] at done
      cases done
      exact .sharedWaits here free
  | tryLockShared =>
    simp only [perform] at done
    split at done
    case isFalse => cases done
    case isTrue here =>
    by_cases free : m.Readable
    · rw [tryLockShared_eq, lockShared_readable free] at done
      cases done
      exact .trySharedGets here free
    · rw [tryLockShared_eq, lockShared_busy free] at done
      cases done
      exact .trySharedFails here
  | lockUnique =>
    simp only [perform] at done
    split at done
    case isFalse => cases done
    case isTrue here =>
    by_cases free : m.eLockStatus = .idle
    · rw [lockUnique_idle free] at done
      cases done
      exact .unique here free
    · rw [lockUnique_busy free] at done
      cases done
      exact .uniqueWaits here free
  | tryLockUnique =>
    simp only [perform] at done
    split at done
    case isFalse => cases done
    case isTrue here =>
    by_cases free : m.eLockStatus = .idle
    · rw [tryLockUnique_idle free] at done
      cases done
      exact .tryUniqueGets here free
    · rw [tryLockUnique_busy free] at done
      cases done
      exact .tryUniqueFails here
  | unlockShared =>
    simp only [perform] at done
    split at done
    case isFalse => cases done
    case isTrue holder => cases done; exact .unlockShared holder.1 holder.2
  | unlockUnique =>
    simp only [perform] at done
    split at done
    case isFalse => cases done
    case isTrue holder => cases done; exact .unlockUnique holder.1 holder.2
  | wake =>
    simp only [perform] at done
    split at done
    case isFalse => cases done
    case isTrue set =>
    split at done
    case h_1 here => cases done; exact .readWakes here set
    case h_2 here => cases done; exact .writeWakes here set
    case h_3 => cases done
  | again =>
    simp only [perform] at done
    split at done
    case h_1 here =>
      by_cases free : m.Readable
      · rw [again_readable free] at done
        cases done
        exact .sharedAgain here free
      · rw [again_busy free] at done
        cases done
        exact .sharedWaitsAgain here free
    case h_2 here =>
      by_cases free : m.eLockStatus = .idle
      · rw [uniqueAgain_idle free] at done
        cases done
        exact .uniqueAgain here free
      · rw [uniqueAgain_busy free] at done
        cases done
        exact .uniqueWaitsAgain here free
    case h_3 => cases done

end DevAccess.Locker
