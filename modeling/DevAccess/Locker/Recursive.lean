import DevAccess.Locker.Invariant

/-! Read locks taken again by a thread that holds one already. -/
namespace DevAccess.Locker
open Foundation

theorem readable_shared {T : Type} [Fintype T] {s : State T} (balanced : Balanced s) {t : T}
    (holds : 0 < (s.thread t).reads) : s.shared.Readable ↔ s.shared.iWWaitingCount ≤ 0 := by
  have shared : s.shared.eLockStatus = .r := by
    have consistent := balanced_consistent balanced
    cases status : s.shared.eLockStatus with
    | idle => exact absurd (consistent.idle.mp status t).1 (Nat.ne_of_gt holds)
    | r => rfl
    | w => exact absurd ((consistent.w.mp status).2 t) (Nat.ne_of_gt holds)
  simp [RWLock.Readable, shared]

variable {T : Type} [DecidableEq T]

def Local.Holds (l : Local) : Prop := 0 < l.reads ∨ l.writing = true

instance : DecidablePred Local.Holds := fun _ => inferInstanceAs (Decidable (_ ∨ _))

def Op.AsksToWrite (o : Op) : Prop := o = .lockUnique ∨ o = .tryLockUnique

instance : DecidablePred Op.AsksToWrite := fun _ => inferInstanceAs (Decidable (_ ∨ _))

def State.politeStep (s : State T) (a : T × Op) : Option (State T) :=
  if a.2.AsksToWrite ∧ (s.thread a.1).Holds then none else s.step a

/-- A thread stands in lock_shared before an event that is not set. -/
def BlockedReading (s : State T) (t : T) : Prop :=
  (s.thread t).pc = .readWait ∧ s.shared.hEvent = false

/-- No thread that holds a read lock is blocked in lock_shared. -/
def Recursive (s : State T) : Prop := ∀ t, 0 < (s.thread t).reads → ¬ BlockedReading s t

def Unqueued (s : State T) : Prop :=
  ∀ t, 0 < (s.thread t).reads → (s.thread t).pc ≠ .readWait ∧ (s.thread t).pc ≠ .readAgain

def NoWriterBetween (s : State T) (a : T × Op) : Prop :=
  a.2 = .lockShared → 0 < (s.thread a.1).reads → s.shared.iWWaitingCount ≤ 0

theorem politeStep_step {s t : State T} {a : T × Op} (taken : s.politeStep a = some t) :
    s.step a = some t := by
  unfold State.politeStep at taken
  split at taken
  case isTrue => cases taken
  case isFalse => exact taken

/-- One operation puts its own thread to wait with a read lock in hand only if it is a
lock_shared that finds a writer waiting. -/
theorem recursive_moves {m m' : RWLock} {l l' : Local} {o : Op} (moves : Moves m l o m' l')
    (unqueued : 0 < l.reads → l.pc ≠ .readWait ∧ l.pc ≠ .readAgain) (holds : 0 < l'.reads) :
    (l'.pc ≠ .readWait ∧ l'.pc ≠ .readAgain) ∨
      (o = .lockShared ∧ 0 < l.reads ∧ ¬ m.Readable ∧ l'.pc = .readWait ∧ m'.hEvent = false) := by
  cases moves with
  | shared | trySharedGets | sharedAgain | unique | tryUniqueGets | uniqueAgain =>
    exact .inl ⟨nofun, nofun⟩
  | uniqueWaits | writeWakes | uniqueWaitsAgain => exact .inl ⟨nofun, nofun⟩
  | trySharedFails here | tryUniqueFails here | unlockUnique here | unlockShared here =>
    exact .inl (by simp [here])
  | sharedWaits here busy => exact .inr ⟨rfl, holds, busy, rfl, rfl⟩
  | readWakes here => exact absurd here (unqueued holds).1
  | sharedWaitsAgain here => exact absurd here (unqueued holds).2

variable [Fintype T]

theorem unqueued_step (s : State T) (a : T × Op) (t : State T) (h : Balanced s ∧ Unqueued s)
    (taken : s.politeStep a = some t) (good : Recursive t) : Balanced t ∧ Unqueued t := by
  have stepped := politeStep_step taken
  obtain ⟨l, done, thread⟩ := threads_step stepped
  refine ⟨balanced_step s a t h.1 stepped, fun u holds => ?_⟩
  by_cases mine : u = a.1
  · have here : t.thread u = l := by rw [thread, mine, Function.update_self]
    have blocked := good u holds
    rw [here] at holds ⊢
    rcases recursive_moves (perform_moves done) (h.2 a.1) holds with out | ⟨-, -, -, waits, clear⟩
    · exact out
    · exact absurd ⟨by rw [here]; exact waits, clear⟩ blocked
  · have same : t.thread u = s.thread u := by rw [thread, Function.update_of_ne mine]
    rw [same] at holds ⊢
    exact h.2 u holds

/-- A step leaves every read holder unblocked exactly if it is no lock_shared by a read
holder behind a waiting writer. -/
theorem recursive_step (s : State T) (a : T × Op) (t : State T) (h : Balanced s ∧ Unqueued s)
    (taken : s.politeStep a = some t) : Recursive t ↔ NoWriterBetween s a := by
  obtain ⟨l, done, thread⟩ := threads_step (politeStep_step taken)
  have moves := perform_moves done
  have mine : t.thread a.1 = l := by rw [thread, Function.update_self]
  constructor
  · intro good call holds
    by_contra waiting
    have busy : ¬ s.shared.Readable := fun free => waiting ((readable_shared h.1 holds).mp free)
    rw [call] at moves
    have blocked : BlockedReading t a.1 ∧ 0 < (t.thread a.1).reads := by
      unfold BlockedReading
      rw [mine]
      generalize t.shared = m' at moves
      cases moves with
      | shared _ free => exact absurd free busy
      | sharedWaits => exact ⟨⟨rfl, rfl⟩, holds⟩
    exact good a.1 blocked.2 blocked.1
  · intro guard u holds blocked
    by_cases same : u = a.1
    · rw [same, mine] at holds
      have waits : l.pc = .readWait := by
        rw [← mine, ← same]
        exact blocked.1
      rcases recursive_moves moves (h.2 a.1) holds with out | ⟨call, held, busy, -⟩
      · exact out.1 waits
      · exact busy ((readable_shared h.1 held).mpr (guard call held))
    · have kept : t.thread u = s.thread u := by rw [thread, Function.update_of_ne same]
      unfold BlockedReading at blocked
      rw [kept] at holds blocked
      exact (h.2 u holds).1 blocked.1

/-- No read holder is ever blocked in lock_shared exactly if no thread asks for a further
read lock while a writer waits. -/
theorem reads_recursive_iff (as : List (T × Op)) :
    Always State.politeStep Recursive (State.start : State T) as ↔
      Guarded State.politeStep NoWriterBetween (State.start : State T) as :=
  always_iff_guarded (fun s a t h _ taken good => unqueued_step s a t h taken good)
    (fun s a t h _ taken => recursive_step s a t h taken)
    ⟨balanced_start, fun _ holds => absurd holds (Nat.lt_irrefl 0)⟩
    (fun _ holds => absurd holds (Nat.lt_irrefl 0)) as

def writerBetween : List (Bool × Op) :=
  [(false, .lockShared), (true, .lockUnique), (false, .lockShared)]

/-- The reader waits behind the writer that waits for the reader: neither can go on. -/
theorem reader_blocked :
    ¬ Always State.politeStep Recursive (State.start : State Bool) writerBetween ∧
      ∀ t, exec State.politeStep (State.start : State Bool) writerBetween = some t →
        ∀ a : Bool × Op, t.politeStep a = none := by
  obtain ⟨t, run, blocked, stuck⟩ : ∃ t,
      exec State.politeStep (State.start : State Bool) writerBetween = some t ∧
        (0 < (t.thread false).reads ∧ BlockedReading t false) ∧
        ∀ a : Bool × Op, t.politeStep a = none := by
    refine ⟨_, rfl, ⟨by decide, by decide, rfl⟩, ?_⟩
    rintro ⟨u, o⟩
    cases u <;> cases o <;> rfl
  constructor
  · intro always
    exact always_end always run false blocked.1 blocked.2
  · intro t' run'
    cases Option.some.inj (run.symm.trans run')
    exact stuck

end DevAccess.Locker
