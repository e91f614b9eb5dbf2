/-! OSSemaPostN of OSSem.h, Linux branch: n calls of sem_post, which may fail. -/
namespace DevAccess.Locker

/-- The loop: n calls to come, the number of the next one, ok, and how often the semaphore was
raised. A failure ends the loop in front of the first success only. -/
def postLoop (sem_post : Nat → Bool) : Nat → Nat → Bool → Nat → Bool × Nat
  | 0, _, ok, raised => (ok, raised)
  | n + 1, call, ok, raised =>
    let ok2 := sem_post call
    if ok2 then postLoop sem_post n (call + 1) ok2 (raised + 1)
    else if !ok then (ok, raised)
    else postLoop sem_post n (call + 1) ok raised

def osSemaPostN (sem_post : Nat → Bool) (n : Nat) : Bool × Nat := postLoop sem_post n 0 false 0

structure AllOrNothing (n : Nat) (result : Bool × Nat) : Prop where
  all : result.1 = true → result.2 = n
  nothing : result.1 = false → result.2 = 0

theorem postLoop_ok (sem_post : Nat → Bool) (n call raised : Nat) :
    postLoop sem_post n call true raised = (true, raised + (List.range' call n).countP sem_post) := by
  induction n generalizing call raised with
  | zero => rfl
  | succ n ih =>
    rw [postLoop, List.range'_succ, List.countP_cons]
    by_cases posted : sem_post call
    · rw [if_pos posted, posted, ih]
      simp only [if_true, Prod.mk.injEq, true_and]
      omega
    · rw [if_neg posted, ih]
      simp [posted]

/-- All or nothing is posted exactly if the first post fails or none does. -/
theorem osSemaPostN_iff {n : Nat} (atLeast : 1 ≤ n) (sem_post : Nat → Bool) :
    AllOrNothing n (osSemaPostN sem_post n) ↔ sem_post 0 = false ∨ ∀ call < n, sem_post call = true := by
  obtain ⟨more, rfl⟩ : ∃ more, n = more + 1 := ⟨n - 1, by omega⟩
  by_cases first : sem_post 0 = true
  · have result : osSemaPostN sem_post (more + 1) =
        (true, (List.range' 0 (more + 1)).countP sem_post) := by
      rw [osSemaPostN, postLoop, if_pos first, first, postLoop_ok, List.range'_succ, List.countP_cons,
        first]
      simp only [if_true, Prod.mk.injEq, true_and]
      omega
    have every : (List.range' 0 (more + 1)).countP sem_post = more + 1 ↔
        ∀ call < more + 1, sem_post call = true := by
      have whole := List.countP_eq_length (p := sem_post) (l := List.range' 0 (more + 1))
      simpa using whole
    rw [result, ← every]
    constructor
    · exact fun posted => .inr (posted.all rfl)
    · rintro (failed | posted)
      · exact absurd (first.symm.trans failed) (by decide)
      · exact ⟨fun _ => posted, by simp⟩
  · have failed : sem_post 0 = false := Bool.eq_false_iff.mpr first
    have result : osSemaPostN sem_post (more + 1) = (false, 0) := by
      rw [osSemaPostN, postLoop, failed]
      rfl
    rw [result]
    exact iff_of_true ⟨by simp, fun _ => rfl⟩ (.inl failed)

/-- Three posts of which none fails, and three of which the first does. -/
theorem posts_together : AllOrNothing 3 (osSemaPostN (fun _ => true) 3) ∧
    AllOrNothing 3 (osSemaPostN (fun call => decide (call ≠ 0)) 3) :=
  ⟨(osSemaPostN_iff (by decide) _).mpr (.inr fun _ _ => rfl),
    (osSemaPostN_iff (by decide) _).mpr (.inl rfl)⟩

/-- A failure behind a success costs a post and is not told. -/
theorem post_lost : osSemaPostN (fun call => decide (call = 0)) 2 = (true, 1) ∧
    ¬ AllOrNothing 2 (osSemaPostN (fun call => decide (call = 0)) 2) := by
  refine ⟨by decide, fun posted => ?_⟩
  exact absurd (posted.all rfl) (by decide)

end DevAccess.Locker
