import DevAccess.Manager.Rows

/-! What the poll threads have to do with each other: nothing but that any of them can end the
process. The threads that are left out of a run are not missed by the others. -/
namespace DevAccess.Manager
open Foundation Poll Mes Config

structure Restricts (K : Finset Nat) (m m₁ : Shared) : Prop where
  handles : m₁.handles ⊆ m.handles
  session : m₁.db.m_ses = m.db.m_ses
  running : m.fate = .running → m₁.fate = .running
  rows : m₁.rows = m.rows.filter (·.index ∈ K)

section Isolation
variable {gbkToUTF8 : CText → CText} {m m' m₁ : Shared} {w w' : Worker}
  {handles handles' : Finset Int}
  {K : Finset Nat}

theorem Polled.poll {d : Deed} (polled : Polled handles w d w') (fewer : handles' ⊆ handles) :
    w.poll handles' d = some w' := by
  have still : ∀ {o : ModbusTcp.Outcomes}, o.Fresh handles → o.Fresh handles' := fun fresh =>
    fresh.imp_right fun unused here => unused (fewer here)
  cases polled with
  | connecting fresh given taken =>
    rw [Worker.poll, if_pos (still fresh), given]
    exact Option.map_eq_some_iff.mpr ⟨_, taken, rfl⟩
  | reading more given taken =>
    rw [Worker.poll, dif_pos more, given]
    exact Option.map_eq_some_iff.mpr ⟨_, taken, rfl⟩
  | going taken => exact Option.map_eq_some_iff.mpr ⟨_, taken, rfl⟩

theorem insertToSvr_stops {now : Tm} {x : Executing} (cause : Stops m w (.insert now x)) :
    ∃ fate, insertToSvr gbkToUTF8 m w now x = some ({ m with fate }, w) := by
  rcases cause with foreign | ⟨i, rest, calls, trouble⟩
  · exact ⟨.stray, by simp only [insertToSvr, foreign]⟩
  · cases shown : val i.value with
    | none => exact ⟨.stray, by simp only [insertToSvr, calls, shown]⟩
    | some v =>
      have refused := trouble.resolve_left (by simp [shown])
      rcases insertData_cases gbkToUTF8 m.db now i.key.toList v x with
        ⟨session, quiet, -⟩ | ⟨-, ended, other, same⟩
      · exact absurd ⟨session, quiet⟩ refused
      · cases ended with
        | returned => exact absurd rfl other
        | threw e => exact ⟨.terminated e, by simp only [insertToSvr, calls, shown, same]⟩
        | nullSession => exact ⟨.nullSession, by simp only [insertToSvr, calls, shown, same]⟩

theorem turn_stops {o : Turn} (restricts : Restricts K m m₁) (running : m.fate = .running)
    (cause : Stops m w o) : ∃ fate, turn gbkToUTF8 m₁ w o = some ({ m₁ with fate }, w) := by
  have running₁ := restricts.running running
  cases o with
  | poll d =>
    obtain ⟨returned, overruns, w', step⟩ := cause
    refine ⟨.stray, ?_⟩
    rw [turn, if_pos ⟨running₁, returned⟩, step.poll restricts.handles, Option.map_some,
      if_pos overruns]
  | unstamped =>
    refine ⟨.stray, ?_⟩
    rw [turn, if_pos ⟨running₁, cause⟩]
  | insert now x =>
    have cause₁ : Stops m₁ w (.insert now x) := by
      unfold Stops
      rw [restricts.session]
      exact cause
    obtain ⟨fate, stops⟩ : ∃ fate, insertToSvr gbkToUTF8 m₁ w now x = some ({ m₁ with fate }, w) :=
      insertToSvr_stops cause₁
    refine ⟨fate, ?_⟩
    rw [turn, if_pos running₁, stops]

theorem restricts_own {o : Turn} (restricts : Restricts K m m₁) (inside : w.index ∈ K)
    (done : turn gbkToUTF8 m w o = some (m', w')) :
    ∃ m₁', turn gbkToUTF8 m₁ w o = some (m₁', w') ∧ Restricts K m' m₁' := by
  cases turn_turned done with
  | @polled d w' running returned within step =>
    refine ⟨{ m₁ with handles := m₁.handles ∪ w'.log.opened }, ?_,
      Finset.union_subset_union_left restricts.handles, restricts.session, restricts.running,
      restricts.rows⟩
    rw [turn, if_pos ⟨restricts.running running, returned⟩, step.poll restricts.handles,
      Option.map_some, if_neg within]
  | @stored now x i rest v running calls shown session quiet =>
    have session₁ := restricts.session.trans session
    rcases insertData_cases gbkToUTF8 m₁.db now i.key.toList v x with ⟨-, -, same⟩ | ⟨refused, -⟩
    · refine ⟨{ m₁ with
        db := { m₁.db with executed := m₁.db.executed ++ [insertSql gbkToUTF8 now i.key.toList v] }
        rows := m₁.rows ++ [⟨w.index, i, now⟩] }, ?_, restricts.handles, restricts.session,
        restricts.running, ?_⟩
      · rw [turn, if_pos (restricts.running running)]
        simp only [insertToSvr, calls, shown, same]
      · rw [List.filter_append, ← restricts.rows, List.filter_cons_of_pos (by simpa using inside)]
        rfl
    · exact absurd ⟨session₁, quiet⟩ refused
  | stopped running other cause =>
    obtain ⟨fate, stops⟩ : ∃ fate, turn gbkToUTF8 m₁ w o = some ({ m₁ with fate }, w) :=
      turn_stops restricts running cause
    exact ⟨{ m₁ with fate }, stops, restricts.handles, restricts.session,
      fun still => absurd still other, restricts.rows⟩

theorem restricts_other {o : Turn} (restricts : Restricts K m m₁) (outside : w.index ∉ K)
    (done : turn gbkToUTF8 m w o = some (m', w')) : Restricts K m' m₁ := by
  cases turn_turned done with
  | polled running returned within step =>
    exact ⟨restricts.handles.trans Finset.subset_union_left, restricts.session, restricts.running,
      restricts.rows⟩
  | stored running calls shown session quiet =>
    refine ⟨restricts.handles, restricts.session, restricts.running, ?_⟩
    rw [restricts.rows, List.filter_append, List.filter_cons_of_neg (by simpa using outside),
      List.filter_nil, List.append_nil]
  | stopped running other cause =>
    exact ⟨restricts.handles, restricts.session, fun still => absurd still other, restricts.rows⟩

theorem turn_index {o : Turn} (done : turn gbkToUTF8 m w o = some (m', w')) :
    w'.index = w.index := by
  cases turn_turned done with
  | polled running returned within step =>
    cases step with
    | connecting | reading | going => rfl
  | stored | stopped => rfl

/-- Any group of threads goes through its turns alone as it does among the others: every thread of
it ends in the same state, and the rows are those it has stored in the whole run. -/
theorem threads_isolated {file : Option CText} {c : Connecting} {db : DbHelper} {ws : List Worker}
    (started : start file c = .ok (some (.running db ws))) {as : List (Fin ws.length × Turn)}
    {r : Program ws.length} (run : exec (Threads.step (turn gbkToUTF8)) (launch db ws) as = some r)
    (K : Finset Nat) :
    ∃ r₁, exec (Threads.step (turn gbkToUTF8)) (launch db ws)
        (as.filter fun a => a.1.val ∈ K) = some r₁ ∧
      (∀ t : Fin ws.length, t.val ∈ K → r₁.thread t = r.thread t) ∧
      r₁.shared.rows = r.shared.rows.filter (·.index ∈ K) ∧
      (r.shared.fate = .running → r₁.shared.fate = .running) := by
  have fresh := (start_fresh started).1
  have keeps : ∀ (t : Fin ws.length) m w o m' w', w.index = t.val →
      turn gbkToUTF8 m w o = some (m', w') → w'.index = t.val :=
    fun t m w o m' w' here done => (turn_index done).trans here
  have own : ∀ (t : Fin ws.length) m w o m' w' m₁, t.val ∈ K → w.index = t.val → Restricts K m m₁ →
      turn gbkToUTF8 m w o = some (m', w') →
      ∃ m₁', turn gbkToUTF8 m₁ w o = some (m₁', w') ∧ Restricts K m' m₁' :=
    fun t m w o m' w' m₁ inside here restricts done => restricts_own restricts (here ▸ inside) done
  have others : ∀ (t : Fin ws.length) m w o m' w' m₁, t.val ∉ K → w.index = t.val → Restricts K m m₁ →
      turn gbkToUTF8 m w o = some (m', w') → Restricts K m' m₁ :=
    fun t m w o m' w' m₁ outside here restricts done =>
      restricts_other restricts (here ▸ outside) done
  obtain ⟨r₁, run₁, restricts, same⟩ := exec_filter keeps others own (launch db ws)
    (fun t => (fresh t).index) ⟨subset_rfl, rfl, id, rfl⟩ (fun _ _ => rfl) run
  exact ⟨r₁, run₁, same, restricts.rows, restricts.running⟩

theorem threads_isolated_part : ∃ r r₁,
    exec (Threads.step (turn id)) (launch plantDb plantWorkers) (bothPasses.take 31) = some r ∧
      r.shared.rows.length = 7 ∧
      exec (Threads.step (turn id)) (launch plantDb plantWorkers)
        ((bothPasses.take 31).filter fun a => a.1.val ∈ Finset.range 1) = some r₁ ∧
      (∀ t : Fin plantWorkers.length, t.val ∈ Finset.range 1 → r₁.thread t = r.thread t) ∧
      r₁.shared.rows = r.shared.rows.filter (·.index ∈ Finset.range 1) ∧
      (r.shared.fate = .running → r₁.shared.fate = .running) := by
  have seven : (exec (Threads.step (turn id)) (launch plantDb plantWorkers)
      (bothPasses.take 31)).map (fun r => r.shared.rows.length) = some 7 := by decide +kernel
  obtain ⟨r, run, rows⟩ := Option.map_eq_some_iff.mp seven
  obtain ⟨r₁, isolated⟩ := threads_isolated start_plantFile run (Finset.range 1)
  exact ⟨r, r₁, run, rows, isolated⟩

end Isolation

end DevAccess.Manager
