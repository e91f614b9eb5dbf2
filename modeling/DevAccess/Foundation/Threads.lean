import DevAccess.Foundation.Run
import Mathlib.Algebra.BigOperators.Group.Finset.Basic
import Mathlib.Algebra.BigOperators.Ring.Finset
import Mathlib.Algebra.Order.BigOperators.Group.Finset
import Mathlib.Algebra.Order.Ring.Int
import Mathlib.Data.Fintype.BigOperators

/-! Any number of threads on one shared object. A step is one operation by one thread,
and changes the object and the local state of that thread. Facts about all threads
together are tallies, sums over the threads. -/
namespace Foundation

universe u v w x
variable {T : Type u} {S : Type v} {L : Type w} {O : Type x}

structure Threads (T : Type u) (S : Type v) (L : Type w) where
  shared : S
  thread : T → L

section Step
variable [DecidableEq T] (op : S → L → O → Option (S × L))

def Threads.step (s : Threads T S L) (a : T × O) : Option (Threads T S L) :=
  (op s.shared (s.thread a.1) a.2).map (fun r => ⟨r.1, Function.update s.thread a.1 r.2⟩)

theorem threads_step {op : S → L → O → Option (S × L)} {s t : Threads T S L} {a : T × O}
    (taken : s.step op a = some t) :
    ∃ l, op s.shared (s.thread a.1) a.2 = some (t.shared, l) ∧
      t.thread = Function.update s.thread a.1 l := by
  obtain ⟨⟨shared, l⟩, done, rfl⟩ := Option.map_eq_some_iff.mp taken
  exact ⟨l, done, rfl⟩

end Step

section OneThread
variable [DecidableEq T] {op : S → L → O → Option (S × L)}

/-- The invariant rule for one thread, whatever the others do to the object. -/
theorem always_thread {I : L → Prop} {G : S → L → O → Prop}
    (keeps : ∀ m l o m' l', I l → G m l o → op m l o = some (m', l') → I l') (t : T) {s : Threads T S L}
    (initial : I (s.thread t)) {as : List (T × O)}
    (allowed : Guarded (Threads.step op) (fun s a => a.1 = t → G s.shared (s.thread t) a.2) s as) :
    Always (Threads.step op) (fun s => I (s.thread t)) s as := by
  have each : ∀ (s : Threads T S L) (a : T × O) (r : Threads T S L), I (s.thread t) →
      (a.1 = t → G s.shared (s.thread t) a.2) → s.step op a = some r → I (r.thread t) := by
    rintro s ⟨u, o⟩ r holds allows taken
    obtain ⟨l, done, threads⟩ := threads_step taken
    rw [threads]
    by_cases same : u = t
    · subst same
      rw [Function.update_self]
      exact keeps _ _ _ _ _ holds (allows rfl) done
    · rw [Function.update_of_ne (Ne.symm same)]
      exact holds
  exact always_guarded (I := fun s => I (s.thread t)) each initial allowed

end OneThread

section SomeThreads
variable [DecidableEq T] {op : S → L → O → Option (S × L)} {R : S → S → Prop} {J : T → L → Prop}
  {p : T → Prop} [DecidablePred p]

/-- A run without the steps of the threads that are not in p. The steps left out keep R, between
the object of the whole run and that of the run without them; those of p can be taken on both. -/
theorem exec_filter (keeps : ∀ t m l o m' l', J t l → op m l o = some (m', l') → J t l')
    (others : ∀ t m l o m' l' m₁, ¬ p t → J t l → R m m₁ → op m l o = some (m', l') → R m' m₁)
    (own : ∀ t m l o m' l' m₁, p t → J t l → R m m₁ → op m l o = some (m', l') →
      ∃ m₁', op m₁ l o = some (m₁', l') ∧ R m' m₁')
    {s r : Threads T S L} {as : List (T × O)} (s₁ : Threads T S L) (each : ∀ t, J t (s.thread t))
    (related : R s.shared s₁.shared) (same : ∀ t, p t → s₁.thread t = s.thread t)
    (run : exec (Threads.step op) s as = some r) :
    ∃ r₁, exec (Threads.step op) s₁ (as.filter fun a => p a.1) = some r₁ ∧
      R r.shared r₁.shared ∧ ∀ t, p t → r₁.thread t = r.thread t := by
  induction as generalizing s s₁ with
  | nil =>
    obtain rfl := Option.some.inj run
    exact ⟨s₁, rfl, related, same⟩
  | cons a as ih =>
    obtain ⟨u, o⟩ := a
    obtain ⟨q, taken, run⟩ := exec_cons_some.mp run
    obtain ⟨l, done, threads⟩ := threads_step taken
    have each' : ∀ t, J t (q.thread t) := by
      rw [threads]
      exact (Function.forall_update_iff s.thread J).mpr
        ⟨keeps _ _ _ _ _ _ (each u) done, fun t _ => each t⟩
    by_cases inside : p u
    · obtain ⟨m₁, done₁, related'⟩ := own _ _ _ _ _ _ _ inside (each u) related done
      let q₁ : Threads T S L := ⟨m₁, Function.update s₁.thread u l⟩
      have taken₁ : s₁.step op (u, o) = some q₁ := by
        rw [Threads.step, same u inside, done₁]
        rfl
      have same' : ∀ t, p t → q₁.thread t = q.thread t := by
        intro t here
        show Function.update s₁.thread u l t = q.thread t
        rw [threads]
        by_cases it : t = u
        · rw [it, Function.update_self, Function.update_self]
        · rw [Function.update_of_ne it, Function.update_of_ne it, same t here]
      obtain ⟨r₁, later, ends⟩ := ih q₁ each' related' same' run
      rw [List.filter_cons_of_pos (by simpa using inside)]
      exact ⟨r₁, exec_cons_some.mpr ⟨_, taken₁, later⟩, ends⟩
    · have same' : ∀ t, p t → s₁.thread t = q.thread t := by
        intro t here
        have other : t ≠ u := fun it => inside (it ▸ here)
        rw [threads, Function.update_of_ne other, same t here]
      rw [List.filter_cons_of_neg (by simpa using inside)]
      exact ih s₁ each' (others _ _ _ _ _ _ _ inside (each u) related done) same' run

end SomeThreads

section Tally
variable [Fintype T]

/-- What all threads together have of f. -/
def tally (f : L → Int) (g : T → L) : Int := ∑ t, f (g t)

theorem tally_update [DecidableEq T] (f : L → Int) (g : T → L) (t : T) (l : L) :
    tally f (Function.update g t l) = tally f g - f (g t) + f l := by
  have before := Finset.add_sum_erase Finset.univ (fun u => f (g u)) (Finset.mem_univ t)
  have after := Finset.add_sum_erase Finset.univ (fun u => f (Function.update g t l u)) (Finset.mem_univ t)
  have others : ∑ u ∈ Finset.univ.erase t, f (Function.update g t l u) =
      ∑ u ∈ Finset.univ.erase t, f (g u) := by
    apply Finset.sum_congr rfl
    intro u other
    rw [Function.update_of_ne (Finset.ne_of_mem_erase other)]
  rw [others, Function.update_self] at after
  unfold tally
  omega

theorem tally_const_zero {f : L → Int} {g : T → L} (none : ∀ t, f (g t) = 0) : tally f g = 0 :=
  Finset.sum_eq_zero (fun t _ => none t)

section Counting
variable {f : L → Int} (counts : ∀ l, 0 ≤ f l) (g : T → L)
include counts

theorem le_tally (t : T) : f (g t) ≤ tally f g :=
  Finset.single_le_sum (f := fun t => f (g t)) (fun u _ => counts (g u)) (Finset.mem_univ t)

theorem tally_eq_zero : tally f g = 0 ↔ ∀ t, f (g t) = 0 := by
  have each := Finset.sum_eq_zero_iff_of_nonneg (s := Finset.univ) (f := fun t => f (g t))
    (fun t _ => counts (g t))
  unfold tally
  simpa using each

theorem tally_pos : 0 < tally f g ↔ ∃ t, 0 < f (g t) := by
  constructor
  · intro positive
    by_contra nobody
    have all : ∀ t, f (g t) = 0 := by
      intro t
      have zero : ¬ 0 < f (g t) := fun h => nobody ⟨t, h⟩
      have low := counts (g t)
      omega
    rw [(tally_eq_zero counts g).mpr all] at positive
    exact absurd positive (Int.lt_irrefl 0)
  · rintro ⟨t, some_of_it⟩
    exact Int.lt_of_lt_of_le some_of_it (le_tally counts g t)

end Counting

section Indicator
variable (p : L → Prop) [DecidablePred p]

def indicator (l : L) : Int := if p l then 1 else 0

theorem indicator_nonneg (l : L) : 0 ≤ indicator p l := by
  unfold indicator
  split <;> decide

theorem indicator_pos {l : L} : 0 < indicator p l ↔ p l := by
  unfold indicator
  split <;> simp_all

theorem tally_card (g : T → L) :
    tally (indicator p) g = ((Finset.univ.filter (fun t => p (g t))).card : Int) :=
  Finset.sum_boole (fun t => p (g t)) Finset.univ

theorem tally_one (g : T → L) : tally (indicator p) g = 1 ↔ ∃! t, p (g t) := by
  rw [tally_card, Nat.cast_eq_one, Finset.card_eq_one]
  constructor
  · rintro ⟨t, only⟩
    have holds (u : T) : p (g u) ↔ u = t := by
      have same := Finset.ext_iff.mp only u
      simpa using same
    exact ⟨t, (holds t).mpr rfl, fun u h => (holds u).mp h⟩
  · rintro ⟨t, here, only⟩
    refine ⟨t, Finset.ext fun u => ?_⟩
    simp only [Finset.mem_filter, Finset.mem_univ, true_and, Finset.mem_singleton]
    exact ⟨only u, fun same => same ▸ here⟩

end Indicator

end Tally

end Foundation
