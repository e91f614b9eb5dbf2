import DevAccess.Foundation.Threads
import DevAccess.Foundation.Word

/-! COSSema of OSSem.h, WIN32 branch: a semaphore with a counter beside it. Each interlocked
operation, each release and each acquisition is one step. -/
namespace DevAccess.Locker
open Foundation

structure COSSema where
  _sema : Int
  _count : Int
  verified : Bool
  deriving DecidableEq

namespace COSSema

/-- Where a thread is: in Wait behind OSSemaWait, or in PostN in front of ReleaseSemaphore or of
the roll-back. -/
inductive Pc
  | outside
  | acquired
  | added (n : Nat)
  | failed (n : Nat)
  deriving DecidableEq

/-- A release is tried again after ERROR_TOO_MANY_POSTS, and refused for another reason. -/
inductive Op
  | acquire
  | timeout
  | decrement
  | add (n : Nat)
  | release
  | tooMany
  | refuse
  | rollBack
  deriving DecidableEq

def interlockedExchangeAdd (val addVal : Int) : Int × Int := (val, int32 (val + addVal))
def interlockedDecrement (val : Int) : Int × Int := (int32 (val - 1), int32 (val - 1))

def make (initValue : Nat) : COSSema := ⟨initValue, initValue, true⟩

def op (m : COSSema) : Pc → Op → Option (COSSema × Pc)
  | .outside, .acquire => if m._sema > 0 then some ({ m with _sema := m._sema - 1 }, .acquired) else none
  | .outside, .timeout => some (m, .outside)
  | .acquired, .decrement =>
    let (now, count) := interlockedDecrement m._count
    some ({ m with _count := count, verified := m.verified && decide (now ≥ 0) }, .outside)
  | .outside, .add n =>
    let (old, count) := interlockedExchangeAdd m._count n
    some ({ m with _count := count, verified := m.verified && decide (old ≥ 0) }, .added n)
  | .added n, .release =>
    if m._sema + n ≤ 0x7FFFFFFF then some ({ m with _sema := m._sema + n }, .outside) else none
  | .added n, .tooMany => some (m, .added n)
  | .added n, .refuse => some (m, .failed n)
  | .failed n, .rollBack =>
    let (old, count) := interlockedExchangeAdd m._count (-n)
    some ({ m with _count := count, verified := m.verified && decide (old ≥ n) }, .outside)
  | _, _ => none

abbrev State (T : Type) := Threads T COSSema Pc

def State.step {T : Type} [DecidableEq T] : State T → T × Op → Option (State T) := Threads.step op

def State.start {T : Type} (initValue : Nat) : State T := ⟨make initValue, fun _ => .outside⟩

def pending : Pc → Int
  | .added n | .failed n => n
  | _ => 0

def waiting : Pc → Int
  | .acquired => 1
  | _ => 0

theorem pending_nonneg (l : Pc) : 0 ≤ pending l := by
  cases l with
  | outside | acquired => exact Int.le_refl 0
  | added n | failed n => exact Int.natCast_nonneg n

theorem waiting_nonneg (l : Pc) : 0 ≤ waiting l := by
  cases l with
  | acquired => decide
  | outside | added n | failed n => exact Int.le_refl 0

/-- The counter is the value of the semaphore and what the threads are about to make of it. -/
structure Fits (m : COSSema) (pending waiting : Int) : Prop where
  count : m._count = m._sema + pending + waiting
  sema : 0 ≤ m._sema
  small : m._count < 2147483648
  verified : m.verified = true

section Step
variable {m m' : COSSema} {l l' : Pc} {o : Op} {sema count p w : Int} {n : Nat}

theorem fits_of (balance : count = sema + p + w) (low : 0 ≤ sema) (small : count < 2147483648) :
    Fits ⟨sema, count, true⟩ p w := ⟨balance, low, small, rfl⟩

theorem decrement_eq (positive : 0 < count) (small : count < 2147483648) :
    op ⟨sema, count, true⟩ .acquired .decrement = some (⟨sema, count - 1, true⟩, .outside) := by
  have next : int32 (count - 1) = count - 1 := int32_of_range (by omega) (by omega)
  simp only [op, interlockedDecrement, next, Bool.true_and, decide_eq_true (show count - 1 ≥ 0 by omega)]

theorem add_eq (low : 0 ≤ count) (small : count + n < 2147483648) :
    op ⟨sema, count, true⟩ .outside (.add n) = some (⟨sema, count + n, true⟩, .added n) := by
  have next : int32 (count + n) = count + n := int32_of_range (by omega) (by omega)
  simp only [op, interlockedExchangeAdd, next, Bool.true_and, decide_eq_true (show count ≥ 0 from low)]

theorem rollBack_eq (enough : n ≤ count) (small : count < 2147483648) :
    op ⟨sema, count, true⟩ (.failed n) .rollBack = some (⟨sema, count - n, true⟩, .outside) := by
  have next : int32 (count + -n) = count - n := int32_of_range (by omega) (by omega)
  simp only [op, interlockedExchangeAdd, next, Bool.true_and, decide_eq_true (show count ≥ n from enough)]

theorem op_fits (fits : Fits m p w) (part : pending l ≤ p ∧ waiting l ≤ w)
    (room : ∀ n, o = .add n → m._sema + p + w + n < 2147483648) (done : op m l o = some (m', l')) :
    Fits m' (p - pending l + pending l') (w - waiting l + waiting l') := by
  obtain ⟨sema, count, verified⟩ := m
  obtain ⟨balance, low, small, held⟩ := fits
  have mine := pending_nonneg l
  have mine' := waiting_nonneg l
  simp only at balance low small held room
  subst held
  unfold op at done
  split at done
  · -- acquire
    split at done
    · rename_i positive
      simp only at positive
      cases done
      simp only [pending, waiting]
      exact fits_of (by omega) (by omega) small
    · cases done
  · -- timeout
    cases done
    exact fits_of (by omega) low small
  · -- decrement: the share of this thread is 1
    simp only [pending, waiting] at part
    cases (decrement_eq (by omega) small).symm.trans done
    simp only [pending, waiting]
    exact fits_of (by omega) low (by omega)
  · -- add
    rename_i n
    have below := room n rfl
    simp only [pending, waiting] at part
    cases (add_eq (by omega) (by omega)).symm.trans done
    simp only [pending, waiting]
    exact fits_of (by omega) low (by omega)
  · -- release
    split at done
    · cases done
      simp only [pending, waiting] at mine ⊢
      exact fits_of (by omega) (by omega) small
    · cases done
  · -- tooMany
    cases done
    exact fits_of (by omega) low small
  · -- refuse
    cases done
    simp only [pending, waiting]
    exact fits_of (by omega) low small
  · -- rollBack: the share of this thread is n
    simp only [pending, waiting] at part mine
    cases (rollBack_eq (by omega) small).symm.trans done
    simp only [pending, waiting]
    exact fits_of (by omega) low (by omega)
  · cases done

end Step

section Runs
variable {T : Type} [Fintype T]

/-- PostN is called with at least 1, and all posts together stay below 2^31. -/
def Room (s : State T) (a : T × Op) : Prop :=
  ∀ n, a.2 = .add n →
    1 ≤ n ∧ s.shared._sema + tally pending s.thread + tally waiting s.thread + n < 2147483648

/-- The counter fits, is never negative, and no VERIFY has failed. -/
structure CountFits (s : State T) : Prop where
  count : s.shared._count = s.shared._sema + tally pending s.thread + tally waiting s.thread
  nonneg : 0 ≤ s.shared._count
  verified : s.shared.verified = true

def State.Fits (s : State T) : Prop := s.shared.Fits (tally pending s.thread) (tally waiting s.thread)

theorem start_fits {initValue : Nat} (small : initValue < 2147483648) :
    (State.start initValue : State T).Fits := by
  have nobody (f : Pc → Int) (zero : f .outside = 0) :
      tally f (State.start initValue : State T).thread = 0 := tally_const_zero fun _ => zero
  rw [State.Fits, nobody pending rfl, nobody waiting rfl]
  exact fits_of (by omega) (by omega) (by omega)

theorem State.Fits.countFits {s : State T} (fits : s.Fits) : CountFits s := by
  have pendings : 0 ≤ tally pending s.thread := Finset.sum_nonneg fun t _ => pending_nonneg _
  have waitings : 0 ≤ tally waiting s.thread := Finset.sum_nonneg fun t _ => waiting_nonneg _
  have low := fits.sema
  refine ⟨fits.count, ?_, fits.verified⟩
  rw [fits.count]
  omega

variable [DecidableEq T]

theorem step_fits {s t : State T} {a : T × Op} (fits : s.Fits) (room : Room s a)
    (taken : s.step a = some t) : t.Fits := by
  obtain ⟨l, done, thread⟩ := threads_step taken
  rw [State.Fits, thread, tally_update, tally_update]
  refine op_fits fits ⟨?_, ?_⟩ (fun n add => (room n add).2) done
  · exact le_tally pending_nonneg s.thread a.1
  · exact le_tally waiting_nonneg s.thread a.1

/-- In every state of every run the counter fits. -/
theorem count_always_fits {initValue : Nat} (small : initValue < 2147483648) {as : List (T × Op)}
    (room : Guarded State.step Room (State.start initValue : State T) as) :
    Always State.step CountFits (State.start initValue : State T) as :=
  always_mono (fun _ fits => State.Fits.countFits fits)
    (always_guarded (fun _ _ _ fits room taken => step_fits fits room taken) (start_fits small) room)

end Runs

/-- One thread waits while the post of another is refused and rolled back. -/
theorem refused_post_fits : Always State.step CountFits (State.start 1 : State Bool)
    [(false, .acquire), (true, .add 2), (true, .refuse), (false, .decrement), (true, .rollBack)] := by
  refine count_always_fits (by decide) ?_
  refine fun s taken => ⟨by simp [Room], ?_⟩
  cases taken
  refine fun s taken => ⟨fun n add => ?_, ?_⟩
  · cases add
    decide
  · cases taken
    refine fun s taken => ⟨by simp [Room], ?_⟩
    cases taken
    refine fun s taken => ⟨by simp [Room], ?_⟩
    cases taken
    exact fun s taken => ⟨by simp [Room], trivial⟩

end COSSema
end DevAccess.Locker
