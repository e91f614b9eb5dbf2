import DevAccess.Manager.Starting

/-! What the threads store together: for each thread the rows of its events in their order, whichever
way the threads take turns. -/
namespace DevAccess.Manager
open Foundation Poll Mes Config

def Worker.reported (w : Worker) : List Insert :=
  w.state.events.reverse.flatMap fun e => (insertsOf e.data).getD []

def rowsOf (rows : List Row) (k : Nat) : List Insert := (rows.filter (·.index = k)).map Row.insert

def due {n : Nat} (s : Program n) (t : Fin n) : List Insert :=
  rowsOf s.shared.rows t ++ (s.thread t).calls.getD []

def Row.Executed (gbkToUTF8 : CText → CText) (row : Row) (sql : CText) : Prop :=
  ∃ v, val row.insert.value = some v ∧ sql = insertSql gbkToUTF8 row.now row.insert.key.toList v

section Rows
variable {gbkToUTF8 : CText → CText} {m m' : Shared} {w w' : Worker} {handles : Finset Int}

theorem polled_reports {d : Deed} (registered : w.driver.poller.registered = true)
    (returned : w.calls = some []) (polled : Polled handles w d w') :
    w'.reported = w.reported ++ w'.calls.getD [] ∧ w'.index = w.index ∧ w'.driver = w.driver := by
  have silent : ∀ {a : Act} {state : Poll.State Message}, a ≠ .proceed →
    w.driver.step w.state a = some state →
      state.events = w.state.events := by
    intro a state other taken
    rcases events_step registered taken with ⟨reporting, -⟩ | ⟨-, same⟩
    · exact absurd reporting.1 other
    · exact same
  cases polled with
  | connecting fresh given taken =>
    have same := silent (by simp) taken
    simp [Worker.reported, same, returned]
  | reading more given taken =>
    have same := silent (by simp) taken
    simp [Worker.reported, same, returned]
  | going taken =>
    rcases events_step registered taken with ⟨reporting, added⟩ | ⟨other, same⟩
    · have called : w.called = insertsOf (w.driver.poller.payload w.state.oldValue) :=
        if_pos ⟨reporting.2.1, reporting.2.2, registered⟩
      simp [Worker.reported, added, called]
    · have none_called : w.called = some [] := if_neg fun h => other ⟨rfl, h.1, h.2.1⟩
      simp [Worker.reported, same, none_called]

/-- What is kept by every turn of every thread. -/
structure Stored {n : Nat} (gbkToUTF8 : CText → CText) (s : Program n) : Prop where
  index : ∀ t, (s.thread t).index = t
  registered : ∀ t, (s.thread t).driver.poller.registered = true
  rows : ∀ t, due s t = (s.thread t).reported
  executed : List.Forall₂ (Row.Executed gbkToUTF8) s.shared.rows s.shared.db.executed

theorem rowsOf_append (rows : List Row) (row : Row) (k : Nat) :
    rowsOf (rows ++ [row]) k = rowsOf rows k ++ if row.index = k then [row.insert] else [] := by
  rw [rowsOf, List.filter_append, List.map_append]
  split
  · rename_i own
    rw [List.filter_cons_of_pos (by simpa using own)]
    rfl
  · rename_i other
    rw [List.filter_cons_of_neg (by simpa using other)]
    rfl

theorem stored_update {n : Nat} {s : Program n} (stored : Stored gbkToUTF8 s) {t : Fin n} (m : Shared)
    (index : w.index = (s.thread t).index) (driver : w.driver = (s.thread t).driver)
    (own : rowsOf m.rows t ++ w.calls.getD [] = w.reported)
    (others : ∀ u : Fin n, u ≠ t → rowsOf m.rows u = rowsOf s.shared.rows u)
    (executed : List.Forall₂ (Row.Executed gbkToUTF8) m.rows m.db.executed) :
    Stored gbkToUTF8 ⟨m, Function.update s.thread t w⟩ where
  index := (Function.forall_update_iff s.thread fun u w => w.index = u).mpr
    ⟨index.trans (stored.index t), fun u _ => stored.index u⟩
  registered := (Function.forall_update_iff s.thread fun _ w => w.driver.poller.registered = true).mpr
    ⟨driver ▸ stored.registered t, fun u _ => stored.registered u⟩
  rows := (Function.forall_update_iff s.thread
    fun u w => rowsOf m.rows u ++ w.calls.getD [] = w.reported).mpr
    ⟨own, fun u other => others u other ▸ stored.rows u⟩
  executed := executed

theorem stored_step {n : Nat} (s : Program n) (a : Fin n × Turn) (r : Program n)
    (stored : Stored gbkToUTF8 s)
    (taken : s.step (turn gbkToUTF8) a = some r) : Stored gbkToUTF8 r := by
  obtain ⟨t, o⟩ := a
  obtain ⟨w', done, threads⟩ := threads_step taken
  obtain ⟨m, thread⟩ := r
  subst threads
  have before := stored.rows t
  rw [due] at before
  have index := stored.index t
  cases turn_turned done with
  | polled running returned inside step =>
    obtain ⟨reported, index', driver⟩ := polled_reports (stored.registered t) returned step
    rw [returned, Option.getD_some, List.append_nil] at before
    exact stored_update stored _ index' driver (by rw [before, reported])
      (fun u _ => rfl) stored.executed
  | @stored now x i rest v running calls shown session quiet =>
    rw [calls, Option.getD_some] at before
    refine stored_update stored _ rfl rfl ?_ (fun u other => ?_)
      (List.rel_append stored.executed (.cons ⟨v, shown, rfl⟩ .nil))
    · rw [rowsOf_append, if_pos index, List.append_assoc]
      exact before
    · have elsewhere : ¬ (s.thread t).index = u := fun same => other (Fin.ext (same.symm.trans index))
      rw [rowsOf_append, if_neg elsewhere, List.append_nil]
  | stopped running other cause =>
    exact stored_update stored _ rfl rfl before (fun u _ => rfl) stored.executed

theorem stored_start {file : Option CText} {c : Connecting} {db : DbHelper} {ws : List Worker}
    (started : start file c = .ok (some (.running db ws))) : Stored gbkToUTF8 (launch db ws) := by
  obtain ⟨fresh, executed, -⟩ := start_fresh started
  refine ⟨fun t => (fresh t).index, fun t => ?_, fun t => ?_, ?_⟩
  · obtain ⟨kind, polls⟩ := (fresh t).polls
    exact pollerOf_registered polls
  · rw [due, Worker.reported, (fresh t).state, (fresh t).calls]
    rfl
  · show List.Forall₂ _ [] db.executed
    rw [executed]
    exact .nil

/-- However the threads take turns, and whatever ends them: the statements that were executed are
those of the rows, and the rows of a thread and the calls it has left are those of all its events,
each once and in order. -/
theorem rows_of_events {file : Option CText} {c : Connecting} {db : DbHelper} {ws : List Worker}
    (started : start file c = .ok (some (.running db ws))) {as : List (Fin ws.length × Turn)}
    {r : Program ws.length}
    (run : exec (Threads.step (turn gbkToUTF8)) (launch db ws) as = some r) :
    List.Forall₂ (Row.Executed gbkToUTF8) r.shared.rows r.shared.db.executed ∧
      ∀ t, due r t = (r.thread t).reported := by
  have stored : Stored gbkToUTF8 r := exec_inductive stored_step (stored_start started) run
  exact ⟨stored.executed, stored.rows⟩

theorem rows_of_events_part : ∃ r, exec (Threads.step (turn id))
    (launch plantDb plantWorkers) (bothPasses.take 31) = some r ∧ r.shared.rows.length = 7 ∧
    List.Forall₂ (Row.Executed id) r.shared.rows r.shared.db.executed ∧
      ∀ t, due r t = (r.thread t).reported := by
  have seven : (exec (Threads.step (turn id)) (launch plantDb plantWorkers)
      (bothPasses.take 31)).map (fun r => r.shared.rows.length) = some 7 := by decide +kernel
  obtain ⟨r, run, rows⟩ := Option.map_eq_some_iff.mp seven
  exact ⟨r, run, rows, rows_of_events start_plantFile run⟩

end Rows

end DevAccess.Manager
