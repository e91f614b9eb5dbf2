import DevAccess.Locker.RWLock

/-! What the counters and the status of the lock say about the threads, in every
reachable state, and that a wake-up is never lost. -/
namespace DevAccess.Locker
open Foundation

def Local.WaitsToRead (l : Local) : Prop := l.pc = .readWait ∨ l.pc = .readAgain
def Local.WaitsToWrite (l : Local) : Prop := l.pc = .writeWait ∨ l.pc = .writeAgain
def Local.Writes (l : Local) : Prop := l.writing = true

instance : DecidablePred Local.WaitsToRead := fun _ => inferInstanceAs (Decidable (_ ∨ _))
instance : DecidablePred Local.WaitsToWrite := fun _ => inferInstanceAs (Decidable (_ ∨ _))
instance : DecidablePred Local.Writes := fun _ => inferInstanceAs (Decidable (_ = _))

def readHolds (l : Local) : Int := l.reads
def writeHolds : Local → Int := indicator Local.Writes
def readWaits : Local → Int := indicator Local.WaitsToRead
def writeWaits : Local → Int := indicator Local.WaitsToWrite

/-- The lock agrees with the numbers of read holds, write holds and waiting threads. -/
structure Fits (m : RWLock) (reads writes rWaiting wWaiting : Int) : Prop where
  iRLockCount : m.iRLockCount = reads
  iRWaitingCount : m.iRWaitingCount = rWaiting
  iWWaitingCount : m.iWWaitingCount = wWaiting
  idle : m.eLockStatus = .idle → reads = 0 ∧ writes = 0
  r : m.eLockStatus = .r → 0 < reads ∧ writes = 0
  w : m.eLockStatus = .w → reads = 0 ∧ writes = 1

section Fits
variable {m : RWLock} {reads writes rWaiting wWaiting : Int}

theorem fits_readLocked (fits : Fits m reads writes rWaiting wWaiting) (free : m.Readable) :
    Fits m.readLocked (reads + 1) writes rWaiting wWaiting := by
  have before : 0 ≤ reads ∧ writes = 0 := by
    rcases free with idle | ⟨shared, -⟩
    · have none := fits.idle idle
      omega
    · have some_read := fits.r shared
      omega
  have count := fits.iRLockCount
  refine ⟨?_, fits.iRWaitingCount, fits.iWWaitingCount, ?_, ?_, ?_⟩
  · simp only [RWLock.readLocked]
    omega
  · exact fun other => RWLockStatus.noConfusion other
  · intro _
    omega
  · exact fun other => RWLockStatus.noConfusion other

theorem fits_writeLocked (fits : Fits m reads writes rWaiting wWaiting)
    (free : m.eLockStatus = .idle) : Fits m.writeLocked reads (writes + 1) rWaiting wWaiting := by
  have before := fits.idle free
  refine ⟨fits.iRLockCount, fits.iRWaitingCount, fits.iWWaitingCount, ?_, ?_, ?_⟩
  · exact fun other => RWLockStatus.noConfusion other
  · exact fun other => RWLockStatus.noConfusion other
  · intro _
    omega

theorem fits_waiting (fits : Fits m reads writes rWaiting wWaiting) (rCount wCount : Int)
    (event : Bool) :
    Fits { m with iRWaitingCount := rCount, iWWaitingCount := wCount, hEvent := event }
      reads writes rCount wCount :=
  ⟨fits.iRLockCount, rfl, rfl, fits.idle, fits.r, fits.w⟩

theorem fits_release (count : m.iRLockCount = 0) (rCount : m.iRWaitingCount = rWaiting)
    (wCount : m.iWWaitingCount = wWaiting) : Fits m.release 0 0 rWaiting wWaiting := by
  rw [release_eq]
  refine ⟨count, rCount, wCount, fun _ => ⟨rfl, rfl⟩, ?_, ?_⟩
  · exact fun other => RWLockStatus.noConfusion other
  · exact fun other => RWLockStatus.noConfusion other

theorem fits_unlockShared (fits : Fits m reads writes rWaiting wWaiting) (held : 0 < reads) :
    Fits m.unlock (reads - 1) writes rWaiting wWaiting := by
  have count := fits.iRLockCount
  have shared : m.eLockStatus = .r := by
    cases status : m.eLockStatus with
    | idle => exact absurd (fits.idle status).1 (by omega)
    | r => rfl
    | w => exact absurd (fits.w status).1 (by omega)
  have nobody_writes := (fits.r shared).2
  by_cases last : reads = 1
  · rw [unlock_last (by omega), nobody_writes, last]
    exact fits_release rfl fits.iRWaitingCount fits.iWWaitingCount
  · rw [unlock_more (by omega)]
    refine ⟨?_, fits.iRWaitingCount, fits.iWWaitingCount, ?_, ?_, ?_⟩
    · simp only
      omega
    · exact fun other => by cases other.symm.trans shared
    · intro _
      omega
    · exact fun other => by cases other.symm.trans shared

theorem fits_unlockUnique (fits : Fits m reads writes rWaiting wWaiting) (held : 0 < writes) :
    Fits m.unlock reads (writes - 1) rWaiting wWaiting := by
  have count := fits.iRLockCount
  have exclusive : m.eLockStatus = .w := by
    cases status : m.eLockStatus with
    | idle => exact absurd (fits.idle status).2 (by omega)
    | r => exact absurd (fits.r status).2 (by omega)
    | w => rfl
  obtain ⟨nobody_reads, one⟩ := fits.w exclusive
  rw [nobody_reads, one]
  have none : m.iRLockCount = 0 := by omega
  rw [unlock_writer none]
  exact fits_release none fits.iRWaitingCount fits.iWWaitingCount

theorem Fits.cast {a b c d : Int} (fits : Fits m a b c d)
    (equal : a = reads ∧ b = writes ∧ c = rWaiting ∧ d = wWaiting) :
    Fits m reads writes rWaiting wWaiting := by
  obtain ⟨rfl, rfl, rfl, rfl⟩ := equal
  exact fits

end Fits

section Locals
variable {l : Local}

theorem waits_outside (here : l.pc = .outside) : readWaits l = 0 ∧ writeWaits l = 0 := by
  simp [readWaits, writeWaits, indicator, Local.WaitsToRead, Local.WaitsToWrite, here]

theorem waits_read (here : l.pc = .readWait ∨ l.pc = .readAgain) :
    readWaits l = 1 ∧ writeWaits l = 0 := by
  rcases here with here | here <;>
    simp [readWaits, writeWaits, indicator, Local.WaitsToRead, Local.WaitsToWrite, here]

theorem waits_write (here : l.pc = .writeWait ∨ l.pc = .writeAgain) :
    readWaits l = 0 ∧ writeWaits l = 1 := by
  rcases here with here | here <;>
    simp [readWaits, writeWaits, indicator, Local.WaitsToRead, Local.WaitsToWrite, here]

theorem holds_moved (l : Local) (pc : Pc) :
    readHolds { l with pc } = readHolds l ∧ writeHolds { l with pc } = writeHolds l := ⟨rfl, rfl⟩

theorem holds_gotRead (l : Local) :
    readHolds l.gotRead = readHolds l + 1 ∧ writeHolds l.gotRead = writeHolds l := ⟨rfl, rfl⟩

theorem holds_gotWrite (l : Local) :
    readHolds l.gotWrite = readHolds l ∧ writeHolds l.gotWrite = 1 := ⟨rfl, rfl⟩

end Locals

section Moves
variable {m m' : RWLock} {l l' : Local} {o : Op} {reads writes rWaiting wWaiting : Int}

/-- One operation of one thread, with the shares that the thread has before and after. -/
theorem fits_moves (fits : Fits m reads writes rWaiting wWaiting) (moves : Moves m l o m' l')
    (part : readHolds l ≤ reads ∧ writeHolds l ≤ writes) :
    Fits m' (reads - readHolds l + readHolds l') (writes - writeHolds l + writeHolds l')
      (rWaiting - readWaits l + readWaits l') (wWaiting - writeWaits l + writeWaits l') := by
  have rCount := fits.iRWaitingCount
  have wCount := fits.iWWaitingCount
  have mine : 0 ≤ writeHolds l := indicator_nonneg _ l
  cases moves with
  | shared here free | trySharedGets here free =>
    have before := waits_outside here
    have after := waits_outside (l := l.gotRead) rfl
    have held := holds_gotRead l
    exact (fits_readLocked fits free).cast (by omega)
  | sharedWaits here busy =>
    have before := waits_outside here
    have after := waits_read (l := { l with pc := .readWait }) (.inl rfl)
    have held := holds_moved l .readWait
    exact (fits_waiting fits (m.iRWaitingCount + 1) m.iWWaitingCount false).cast (by omega)
  | trySharedFails here | tryUniqueFails here => exact fits.cast (by omega)
  | unique here free | tryUniqueGets here free =>
    have before := waits_outside here
    have after := waits_outside (l := l.gotWrite) rfl
    have held := holds_gotWrite l
    have nobody := fits.idle free
    exact (fits_writeLocked fits free).cast (by omega)
  | uniqueWaits here busy =>
    have before := waits_outside here
    have after := waits_write (l := { l with pc := .writeWait }) (.inl rfl)
    have held := holds_moved l .writeWait
    exact (fits_waiting fits m.iRWaitingCount (m.iWWaitingCount + 1) false).cast (by omega)
  | unlockShared here holds =>
    have before := waits_outside here
    have after := waits_outside (l := { l with reads := l.reads - 1 }) here
    have held : readHolds { l with reads := l.reads - 1 } = readHolds l - 1 ∧ 0 < readHolds l := by
      simp only [readHolds]
      omega
    have same : writeHolds { l with reads := l.reads - 1 } = writeHolds l := rfl
    exact (fits_unlockShared fits (by omega)).cast (by omega)
  | unlockUnique here holds =>
    have before := waits_outside here
    have after := waits_outside (l := { l with writing := false }) here
    have held : writeHolds { l with writing := false } = 0 ∧ writeHolds l = 1 := by
      simp [writeHolds, indicator, Local.Writes, holds]
    have same : readHolds { l with writing := false } = readHolds l := rfl
    exact (fits_unlockUnique fits (by omega)).cast (by omega)
  | readWakes here set =>
    have before := waits_read (.inl here)
    have after := waits_read (l := { l with pc := .readAgain }) (.inr rfl)
    have held := holds_moved l .readAgain
    exact fits.cast (by omega)
  | writeWakes here set =>
    have before := waits_write (.inl here)
    have after := waits_write (l := { l with pc := .writeAgain }) (.inr rfl)
    have held := holds_moved l .writeAgain
    exact fits.cast (by omega)
  | sharedAgain here free =>
    have before := waits_read (.inr here)
    have after := waits_outside (l := l.gotRead) rfl
    have held := holds_gotRead l
    have left := fits_waiting fits (m.iRWaitingCount - 1) m.iWWaitingCount m.hEvent
    exact (fits_readLocked left free).cast (by omega)
  | sharedWaitsAgain here busy =>
    have before := waits_read (.inr here)
    have after := waits_read (l := { l with pc := .readWait }) (.inl rfl)
    have held := holds_moved l .readWait
    exact (fits_waiting fits m.iRWaitingCount m.iWWaitingCount false).cast (by omega)
  | uniqueAgain here free =>
    have before := waits_write (.inr here)
    have after := waits_outside (l := l.gotWrite) rfl
    have held := holds_gotWrite l
    have nobody := fits.idle free
    have left := fits_waiting fits m.iRWaitingCount (m.iWWaitingCount - 1) m.hEvent
    exact (fits_writeLocked left free).cast (by omega)
  | uniqueWaitsAgain here busy =>
    have before := waits_write (.inr here)
    have after := waits_write (l := { l with pc := .writeWait }) (.inl rfl)
    have held := holds_moved l .writeWait
    exact (fits_waiting fits m.iRWaitingCount m.iWWaitingCount false).cast (by omega)

end Moves

section Awake

/-- While the lock is free and somebody waits the event is set. -/
def Awake (m : RWLock) : Prop :=
  m.eLockStatus = .idle → 0 < m.iRWaitingCount ∨ 0 < m.iWWaitingCount → m.hEvent = true

theorem awake_start : Awake .make := by
  intro _ waiting
  simp [RWLock.make] at waiting

theorem awake_release (m : RWLock) : Awake m.release := by
  rw [release_eq]
  intro _ waiting
  simp only at waiting
  simp [waiting.symm]

theorem awake_unlock {m : RWLock} (awake : Awake m) : Awake m.unlock := by
  by_cases more : 1 < m.iRLockCount
  · rw [unlock_more more]
    exact awake
  · by_cases last : m.iRLockCount = 1
    · rw [unlock_last last]
      exact awake_release _
    · have rest : ¬ m.iRLockCount > 0 := by omega
      rw [RWLock.unlock, if_neg rest]
      exact awake_release m

theorem awake_moves {m m' : RWLock} {l l' : Local} {o : Op} (awake : Awake m)
    (moves : Moves m l o m' l') : Awake m' := by
  have taken (busy : m.eLockStatus ≠ .idle) (m' : RWLock) (same : m'.eLockStatus = m.eLockStatus) :
      Awake m' := fun idle => absurd (same.symm.trans idle) busy
  have busy_read (busy : ¬ m.Readable) : m.eLockStatus ≠ .idle := fun idle => busy (.inl idle)
  cases moves with
  | shared | trySharedGets | sharedAgain => exact fun idle => (nomatch idle)
  | unique | tryUniqueGets | uniqueAgain => exact fun idle => (nomatch idle)
  | sharedWaits here busy | sharedWaitsAgain here busy => exact taken (busy_read busy) _ rfl
  | uniqueWaits here busy | uniqueWaitsAgain here busy => exact taken busy _ rfl
  | trySharedFails | tryUniqueFails | readWakes | writeWakes => exact awake
  | unlockShared | unlockUnique => exact awake_unlock awake

end Awake

section Runs
variable {T : Type} [Fintype T]

def Balanced (s : State T) : Prop :=
  Fits s.shared (tally readHolds s.thread) (tally writeHolds s.thread)
    (tally readWaits s.thread) (tally writeWaits s.thread)

theorem balanced_start : Balanced (State.start : State T) := by
  have nothing (f : Local → Int) (zero : f .start = 0) :
      tally f (State.start : State T).thread = 0 := tally_const_zero (fun _ => zero)
  unfold Balanced
  rw [nothing readHolds rfl, nothing writeHolds rfl, nothing readWaits rfl, nothing writeWaits rfl]
  exact ⟨rfl, rfl, rfl, fun _ => ⟨rfl, rfl⟩, fun other => (nomatch other), fun other => (nomatch other)⟩

theorem readHolds_nonneg (l : Local) : 0 ≤ readHolds l := Int.natCast_nonneg _
theorem writeHolds_nonneg (l : Local) : 0 ≤ writeHolds l := indicator_nonneg _ l

/-- What the status and the three counters of the lock mean. -/
structure Consistent (s : State T) : Prop where
  w : s.shared.eLockStatus = .w ↔
    (∃! t, (s.thread t).Writes) ∧ ∀ t, (s.thread t).reads = 0
  r : s.shared.eLockStatus = .r ↔
    (∃ t, 0 < (s.thread t).reads) ∧ ∀ t, ¬ (s.thread t).Writes
  idle : s.shared.eLockStatus = .idle ↔ ∀ t, (s.thread t).reads = 0 ∧ ¬ (s.thread t).Writes
  iRLockCount : s.shared.iRLockCount = ∑ t, ((s.thread t).reads : Int)
  iRWaitingCount : s.shared.iRWaitingCount =
    (Finset.univ.filter (fun t => (s.thread t).WaitsToRead)).card
  iWWaitingCount : s.shared.iWWaitingCount =
    (Finset.univ.filter (fun t => (s.thread t).WaitsToWrite)).card

section Meaning
variable {s : State T}

theorem no_reads : tally readHolds s.thread = 0 ↔ ∀ t, (s.thread t).reads = 0 := by
  rw [tally_eq_zero readHolds_nonneg]
  exact forall_congr' fun t => Int.natCast_eq_zero

theorem some_reads : 0 < tally readHolds s.thread ↔ ∃ t, 0 < (s.thread t).reads := by
  rw [tally_pos readHolds_nonneg]
  exact exists_congr fun t => Int.natCast_pos

theorem no_writes : tally writeHolds s.thread = 0 ↔ ∀ t, ¬ (s.thread t).Writes := by
  rw [tally_eq_zero writeHolds_nonneg]
  exact forall_congr' fun t => by simp [writeHolds, indicator]

theorem one_writes : tally writeHolds s.thread = 1 ↔ ∃! t, (s.thread t).Writes :=
  tally_one Local.Writes s.thread

theorem balanced_consistent (h : Balanced s) : Consistent s := by
  have idle := h.idle
  have r := h.r
  have w := h.w
  refine ⟨?_, ?_, ?_, h.iRLockCount, ?_, ?_⟩
  · rw [← one_writes, ← no_reads]
    constructor
    · exact fun status => (w status).symm
    · rintro ⟨one, unread⟩
      cases status : s.shared.eLockStatus with
      | idle => exact absurd (idle status).2 (by omega)
      | r => exact absurd (r status).1 (by omega)
      | w => rfl
  · rw [← some_reads, ← no_writes]
    constructor
    · exact r
    · rintro ⟨read, unwritten⟩
      cases status : s.shared.eLockStatus with
      | idle => exact absurd (idle status).1 (by omega)
      | r => rfl
      | w => exact absurd (w status).1 (by omega)
  · rw [forall_and, ← no_reads, ← no_writes]
    constructor
    · exact idle
    · rintro ⟨unread, unwritten⟩
      cases status : s.shared.eLockStatus with
      | idle => rfl
      | r => exact absurd (r status).1 (by omega)
      | w => exact absurd (w status).2 (by omega)
  · rw [h.iRWaitingCount]
    exact tally_card Local.WaitsToRead s.thread
  · rw [h.iWWaitingCount]
    exact tally_card Local.WaitsToWrite s.thread

end Meaning

/-- No thread holds the lock. -/
def Free (s : State T) : Prop := ∀ t, (s.thread t).reads = 0 ∧ ¬ (s.thread t).Writes

/-- Counted as waiting, and not yet back in the critical section. -/
def Local.Waits (l : Local) : Prop := l.WaitsToRead ∨ l.WaitsToWrite

def NoLostWakeUp (s : State T) : Prop := Free s → ∀ t, (s.thread t).Waits → s.shared.hEvent = true

theorem awake_noLostWakeUp {s : State T} (h : Balanced s ∧ Awake s.shared) : NoLostWakeUp s := by
  obtain ⟨balanced, awake⟩ := h
  intro free t waits
  apply awake ((balanced_consistent balanced).idle.mpr free)
  rcases waits with read | write
  · left
    rw [balanced.iRWaitingCount]
    exact (tally_pos (indicator_nonneg _) s.thread).mpr ⟨t, (indicator_pos _).mpr read⟩
  · right
    rw [balanced.iWWaitingCount]
    exact (tally_pos (indicator_nonneg _) s.thread).mpr ⟨t, (indicator_pos _).mpr write⟩

variable [DecidableEq T]

theorem balanced_step (s : State T) (a : T × Op) (t : State T) (h : Balanced s)
    (taken : s.step a = some t) : Balanced t := by
  obtain ⟨l, done, thread⟩ := threads_step taken
  have part : readHolds (s.thread a.1) ≤ tally readHolds s.thread ∧
      writeHolds (s.thread a.1) ≤ tally writeHolds s.thread :=
    ⟨le_tally readHolds_nonneg s.thread a.1, le_tally writeHolds_nonneg s.thread a.1⟩
  unfold Balanced
  rw [thread, tally_update, tally_update, tally_update, tally_update]
  exact fits_moves h (perform_moves done) part

theorem always_balanced (as : List (T × Op)) : Always State.step Balanced (State.start : State T) as :=
  always_inductive balanced_step balanced_start as

/-- In every reachable state the lock's fields mean what their names say, and a writer is
alone. -/
theorem lock_consistent (as : List (T × Op)) :
    Always State.step Consistent (State.start : State T) as :=
  always_mono (fun _ => balanced_consistent) (always_balanced as)

theorem awake_step (s : State T) (a : T × Op) (t : State T) (h : Balanced s ∧ Awake s.shared)
    (taken : s.step a = some t) : Balanced t ∧ Awake t.shared := by
  obtain ⟨l, done, -⟩ := threads_step taken
  exact ⟨balanced_step s a t h.1 taken, awake_moves h.2 (perform_moves done)⟩

/-- A wake-up is never lost: in every reachable state without a holder the event is set as
long as a thread waits. -/
theorem no_lost_wakeUp (as : List (T × Op)) :
    Always State.step NoLostWakeUp (State.start : State T) as :=
  always_mono (fun _ => awake_noLostWakeUp)
    (always_inductive awake_step ⟨balanced_start, awake_start⟩ as)

end Runs

end DevAccess.Locker
