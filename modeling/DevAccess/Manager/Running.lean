import DevAccess.Manager.Starting

/-! What the process depends on: as long as the database does what it is asked for and the PLCs say
statuses that have a text, no order of the threads ends it. -/
namespace DevAccess.Manager
open Foundation Poll Mes Config

def StatusAt (i : Nat) : Prop := i = 0 ∨ i = 4

def Spoken : Except ModbusTcp.Exn UInt16 → Prop
  | .ok v => v.toNat < 11
  | .error _ => True

instance : (r : Except ModbusTcp.Exn UInt16) → Decidable (Spoken r)
  | .ok v => inferInstanceAs (Decidable (v.toNat < 11))
  | .error _ => isTrue trivial

def Worker.Known (w : Worker) : Deed → Prop
  | .modbusStart o => ∀ more : w.state.i < 8, StatusAt w.state.i →
    Spoken (Poll.modbusStart (ModbusTcp.scripted o) intSet[w.state.i] w.mb w.log).1
  | _ => True

instance (i : Nat) : Decidable (StatusAt i) := inferInstanceAs (Decidable (_ ∨ _))

instance (w : Worker) : (d : Deed) → Decidable (w.Known d)
  | .modbusStart o =>
    if known : w.state.i < 8 ∧ StatusAt w.state.i then
      decidable_of_iff (Spoken (Poll.modbusStart (ModbusTcp.scripted o)
          (intSet.get ⟨w.state.i, known.1⟩) w.mb w.log).1)
        ⟨fun spoken _ _ => spoken, fun all => all known.1 known.2⟩
    else isTrue fun more status => absurd ⟨more, status⟩ known
  | .modbusInit _ | .proceed | .stop => isTrue trivial

def Worker.Told (w : Worker) : Turn → Prop
  | .poll d => w.Known d
  | _ => True

instance (w : Worker) : (o : Turn) → Decidable (w.Told o)
  | .poll d => inferInstanceAs (Decidable (w.Known d))
  | .unstamped | .insert _ _ => isTrue trivial

/-- What a turn may rely on: a reply fits, a status is known, a report gets its text and its time,
and a statement comes through. -/
def Worker.Granted (w : Worker) : Turn → Prop
  | .poll d => ¬ w.Overruns d ∧ w.Known d
  | .unstamped => False
  | .insert _ x => x.Quiet

instance (w : Worker) : (o : Turn) → Decidable (w.Granted o)
  | .poll d => inferInstanceAs (Decidable (¬ w.Overruns d ∧ w.Known d))
  | .unstamped => isFalse id
  | .insert _ x => inferInstanceAs (Decidable x.Quiet)

def StatusesInside (old : Vector UInt16 8) : Prop :=
  (Data.make old).stationStatus1.toNat < 11 ∧ (Data.make old).stationStatus2.toNat < 11

/-- An FX3U thread with known statuses, in a call of m_fn that can be completed. -/
structure Worker.Sound (w : Worker) : Prop where
  driver : w.driver = fx3u
  statuses : StatusesInside w.state.oldValue
  calls : ∃ l, w.calls = some l ∧ ∀ i ∈ l, (val i.value).isSome

section Running
variable {gbkToUTF8 : CText → CText} {m m' : Shared} {w w' : Worker} {handles : Finset Int}

theorem fx3u_inserts {old : Vector UInt16 8} (statuses : StatusesInside old) :
    ∃ l, insertsOf (fx3u.poller.payload old) = some l ∧ ∀ i ∈ l, (val i.value).isSome := by
  refine ⟨_, rfl, ?_⟩
  simp only [List.forall_mem_cons]
  exact ⟨(val_status _).mpr statuses.1, rfl, rfl, rfl, (val_status _).mpr statuses.2, rfl, rfl, rfl,
    List.forall_mem_nil _⟩

theorem called_known (driver : w.driver = fx3u) (statuses : StatusesInside w.state.oldValue) :
    ∃ l, w.called = some l ∧ ∀ i ∈ l, (val i.value).isSome := by
  rw [Worker.called]
  split
  · rw [driver]
    exact fx3u_inserts statuses
  · exact ⟨[], rfl, List.forall_mem_nil _⟩

theorem oldValue_moves {δ : Type} {d : Poller δ} {s r : Poll.State δ} {a : Act}
    (moved : Moves d s a r) :
    r.oldValue = s.oldValue ∨ r.oldValue = zeros ∨
      ∃ (more : s.i < 8) (v : UInt16), a = .modbusStart (some v) ∧
          r.oldValue = s.oldValue.set s.i v := by
  cases moved with
  | read here more v => exact .inr (.inr ⟨more, v, rfl, rfl⟩)
  | cleared => exact .inr (.inl rfl)
  | connected | failed | retried | entered | left | thrown | finished | caught | quiet | delivered
    | dropped | slept
    | reset | stopped => exact .inl rfl

theorem set_small {old : Vector UInt16 8} {i j : Nat} (inside : i < 8) (other : j < 8) {v : UInt16}
    (before : old[j].toNat < 11) (new : i = j → v.toNat < 11) : (old.set i v)[j].toNat < 11 := by
  rw [Vector.getElem_set]
  split
  · rename_i same
    exact new same
  · exact before

theorem zeros_known : StatusesInside zeros := ⟨by decide, by decide⟩

theorem sound_polled {d : Deed} (sound : w.Sound) (returned : w.calls = some []) (known : w.Known d)
    (polled : Polled handles w d w') : w'.Sound := by
  obtain ⟨driver, statuses, -⟩ := sound
  have none_left : ∃ l, w.calls = some l ∧ ∀ i ∈ l, (val i.value).isSome :=
    ⟨[], returned, List.forall_mem_nil _⟩
  have kept : ∀ {a : Act} {state : Poll.State Message}, w.driver.step w.state a = some state →
      (∀ (more : w.state.i < 8) v, a = .modbusStart (some v) → StatusAt w.state.i → v.toNat < 11) →
      StatusesInside state.oldValue := by
    intro a state taken small
    rw [driver] at taken
    have moved : Moves fx3u.poller w.state (fx3u.outcome a) state := step_moves taken
    rcases oldValue_moves moved with same | clear | ⟨more, v, read, set⟩
    · rwa [same]
    · rw [clear]
      exact zeros_known
    · have read' : a = .modbusStart (some v) := by
        cases a with
        | modbusStart v' => exact read
        | modbusInit ok => cases read
        | proceed => cases read
        | stop => cases read
      rw [set]
      exact ⟨set_small more (by decide) statuses.1 fun first => small more v read' (.inl first),
        set_small more (by decide) statuses.2 fun fifth => small more v read' (.inr fifth)⟩
  cases polled with
  | connecting fresh given taken => exact ⟨driver, kept taken (fun _ _ other => by cases other),
    none_left⟩
  | @reading o value mb log state more given taken =>
    refine ⟨driver, kept taken fun _ v read status => ?_, none_left⟩
    cases value with
    | error e => cases read
    | ok v' =>
      cases read
      have spoken := known more status
      rwa [given] at spoken
  | going taken =>
    exact ⟨driver, kept taken (fun _ _ other => by cases other), called_known driver statuses⟩

theorem sound_turn (m : Shared) (w : Worker) (o : Turn) (m' : Shared) (w' : Worker)
    (sound : w.Sound) (told : w.Told o) (done : turn gbkToUTF8 m w o = some (m', w')) :
    w'.Sound := by
  cases turn_turned done with
  | polled running returned inside step => exact sound_polled sound returned told step
  | @stored now x i rest v running calls shown session quiet =>
    refine ⟨sound.driver, sound.statuses, rest, rfl, ?_⟩
    obtain ⟨l, same, known⟩ := sound.calls
    rw [calls] at same
    cases same
    exact (List.forall_mem_cons.mp known).2
  | stopped => exact sound

/-- The process is running, on a database that is connected, and all its threads are sound. -/
structure Healthy {n : Nat} (s : Program n) : Prop where
  running : s.shared.fate = .running
  session : s.shared.db.m_ses = true
  sound : ∀ t, (s.thread t).Sound

theorem healthy_step {n : Nat} (s : Program n) (a : Fin n × Turn) (r : Program n)
    (healthy : Healthy s)
    (granted : (s.thread a.1).Granted a.2) (taken : s.step (turn gbkToUTF8) a = some r) :
    Healthy r := by
  obtain ⟨t, o⟩ := a
  obtain ⟨w', done, threads⟩ := threads_step taken
  obtain ⟨m, thread⟩ := r
  subst threads
  have each (sound : w'.Sound) : ∀ u, (Function.update s.thread t w' u).Sound :=
    (Function.forall_update_iff s.thread fun _ w => w.Sound).mpr ⟨sound, fun u _ => healthy.sound u⟩
  have own := healthy.sound t
  have told : (s.thread t).Told o := by
    cases o with
    | poll d => exact granted.2
    | unstamped => trivial
    | insert now x => trivial
  have next : w'.Sound := sound_turn _ _ _ _ _ own told done
  cases turn_turned done with
  | polled running returned inside step => exact ⟨running, healthy.session, each next⟩
  | stored running calls shown session quiet => exact ⟨running, session, each next⟩
  | stopped running other cause =>
    cases o with
    | poll d => exact absurd cause.2.1 granted.1
    | unstamped => exact absurd granted id
    | insert now x =>
      obtain ⟨l, same, known⟩ := own.calls
      rcases cause with foreign | ⟨i, rest, calls, outside | trouble⟩
      · rw [foreign] at same
        cases same
      · rw [calls] at same
        cases same
        have text := (List.forall_mem_cons.mp known).1
        rw [outside] at text
        cases text
      · exact absurd ⟨healthy.session, granted⟩ trouble

/-- With the database connected, no statement refused and only statuses that have a text, the
process of any number of FX3U threads goes on whatever happens between it and the PLCs. -/
theorem program_runs {file : Option CText} {c : Connecting} {db : DbHelper} {ws : List Worker}
    (started : start file c = .ok (some (.running db ws))) (connected : c.Succeeds)
    (all : ∀ w ∈ ws, w.driver = fx3u) (as : List (Fin ws.length × Turn))
    (granted : Guarded (Threads.step (turn gbkToUTF8)) (fun s a => (s.thread a.1).Granted a.2)
      (launch db ws) as) :
    Always (Threads.step (turn gbkToUTF8)) (fun s => s.shared.fate = .running)
      (launch db ws) as := by
  obtain ⟨fresh, -, session⟩ := start_fresh started
  have healthy : Healthy (launch db ws) := by
    refine ⟨rfl, session.mpr connected,
      fun t => ⟨all _ (List.get_mem ws t), ?_, [], (fresh t).calls, List.forall_mem_nil _⟩⟩
    rw [(fresh t).state]
    exact zeros_known
  exact always_mono (fun s healthy => healthy.running) (always_guarded healthy_step healthy granted)

theorem program_runs_passes :
    (∃ r, exec (Threads.step (turn id)) (launch plantDb plantWorkers) bothPasses = some r ∧
      r.shared.rows.length = 16) ∧
    Always (Threads.step (turn id)) (fun s => s.shared.fate = .running)
      (launch plantDb plantWorkers) bothPasses := by
  have sixteen : (exec (Threads.step (turn id)) (launch plantDb plantWorkers)
      bothPasses).map (fun r => r.shared.rows.length) = some 16 := by decide +kernel
  refine ⟨Option.map_eq_some_iff.mp sixteen,
    program_runs start_plantFile ⟨rfl, rfl⟩ ?_ bothPasses (by decide +kernel)⟩
  exact List.forall_mem_cons.mpr ⟨rfl, List.forall_mem_singleton.mpr rfl⟩

end Running

end DevAccess.Manager
