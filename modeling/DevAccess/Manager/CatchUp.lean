import DevAccess.Manager.Delivery
import DevAccess.Manager.Running

/-! What a poll thread makes up for. Behind lost connections, failed reads and insertions that
other threads held up, its own turns are enough to bring the registers into the database. -/
namespace DevAccess.Manager
open Foundation Poll Mes Config

def Serving (v : Vector UInt16 8) (d : Poll.State Data) : Act → Prop
  | .modbusInit ok => ok = true
  | .modbusStart x => ∃ more : d.i < 8, x = some v[d.i]
  | .proceed => True
  | .stop => False

structure Settled (v : Vector UInt16 8) (d : Poll.State Data) : Prop where
  pc : d.pc = .sleep
  oldValue : d.oldValue = v
  update : d.update = false

section Passes
variable {v : Vector UInt16 8} {d d' : Poll.State Data} {P : Poll.State Data → Prop}

theorem gets_move {a : Act} (serving : Serving v d a) (moves : Moves mitsubishi d a d')
    (later : ReachesBy mitsubishi.step (Serving v) d' P) :
    ReachesBy mitsubishi.step (Serving v) d P :=
  reachesBy_step a serving (moves_step moves) later

theorem gets_proceed (moves : Moves mitsubishi d .proceed d')
    (later : ReachesBy mitsubishi.step (Serving v) d' P) :
    ReachesBy mitsubishi.step (Serving v) d P :=
  gets_move (a := .proceed) trivial moves later

theorem gets_read (first n : Nat) (here : d.pc = .loop) (left : d.i + n = 8) (begun : first ≤ d.i)
    (before : ∀ j (inside : j < 8), first ≤ j → j < d.i → d.oldValue[j] = v[j]) :
    ReachesBy mitsubishi.step (Serving v) d fun r => r.pc = .report ∧
      ∀ j (inside : j < 8), first ≤ j → r.oldValue[j] = v[j] := by
  induction n generalizing d with
  | zero =>
    refine gets_proceed (.finished here (Nat.le_of_eq left.symm)) (reachesBy_here ⟨rfl, ?_⟩)
    exact fun j inside from_first => before j inside from_first (by omega)
  | succ n ih =>
    have more : d.i < 8 := by omega
    refine gets_move (a := .modbusStart (some v[d.i])) ⟨more, rfl⟩ (.read here more v[d.i])
      (ih here (by dsimp only; omega) (Nat.le_succ_of_le begun) fun j inside from_first early => ?_)
    dsimp only at early ⊢
    rw [Vector.getElem_set]
    split
    · rename_i same
      subst same
      rfl
    · exact before j inside from_first (by omega)

theorem gets_reported (here : d.pc = .report) :
    ReachesBy mitsubishi.step (Serving v) d fun r =>
      r.pc = .sleep ∧ r.oldValue = d.oldValue ∧ r.update = false := by
  cases changed : d.update with
  | false => exact gets_proceed (.quiet here changed) (reachesBy_here ⟨rfl, rfl, changed⟩)
  | true => exact gets_proceed (.delivered here changed rfl) (reachesBy_here ⟨rfl, rfl, rfl⟩)

theorem gets_pass (here : d.pc = .test) (running : d.bStop = false) :
    ReachesBy mitsubishi.step (Serving v) d (Settled v) := by
  refine gets_proceed (.entered here running) ?_
  refine reachesBy_trans (gets_read 0 8 rfl rfl (Nat.le_refl 0) fun j _ _ early =>
    absurd early (Nat.not_lt_zero j)) ?_
  rintro r ⟨report, values⟩
  refine reachesBy_trans (gets_reported report) ?_
  rintro q ⟨sleep, kept, quiet⟩
  refine reachesBy_here ⟨sleep, kept.trans (Vector.ext fun j inside => ?_), quiet⟩
  exact values j inside (Nat.zero_le j)

theorem gets_tested (here : d.pc = .test) :
    ReachesBy mitsubishi.step (Serving v) d (Settled v) := by
  cases stopped : d.bStop with
  | false => exact gets_pass here stopped
  | true =>
    -- the flag of a failed read: the connection is made anew
    refine gets_proceed (.left here stopped) ?_
    refine gets_proceed (.reset rfl) ?_
    refine gets_proceed (.cleared rfl) ?_
    refine gets_move (a := .modbusInit true) rfl (.connected rfl) ?_
    exact gets_pass rfl rfl

theorem gets_slept (here : d.pc = .sleep) : ReachesBy mitsubishi.step (Serving v) d (Settled v) :=
  gets_proceed (.slept here) (gets_tested rfl)

theorem gets_connected (here : d.pc = .connect) :
    ReachesBy mitsubishi.step (Serving v) d (Settled v) :=
  gets_move (a := .modbusInit true) rfl (.connected here) (gets_tested rfl)

theorem gets_cleared (here : d.pc = .clear) : ReachesBy mitsubishi.step (Serving v) d (Settled v) :=
  gets_proceed (.cleared here) (gets_connected rfl)

theorem gets_ended (here : d.pc = .report) : ReachesBy mitsubishi.step (Serving v) d (Settled v) :=
  reachesBy_trans (gets_reported here) fun _ reported => gets_slept reported.1

theorem gets_settled (pass : InPass d) : ReachesBy mitsubishi.step (Serving v) d (Settled v) := by
  cases here : d.pc with
  | connect => exact gets_connected here
  | retry => exact gets_proceed (.retried here) (gets_connected rfl)
  | test => exact gets_tested here
  | loop =>
    have left : d.i + (8 - d.i) = 8 := Nat.add_sub_cancel' pass.bound
    refine reachesBy_trans (gets_read d.i (8 - d.i) here left (Nat.le_refl _) fun j _ late early =>
      absurd early (Nat.not_lt.mpr late)) ?_
    exact fun r read => gets_ended read.1
  | caught => exact gets_proceed (.caught here) (gets_ended rfl)
  | report => exact gets_ended here
  | sleep => exact gets_slept here
  | reset => exact gets_proceed (.reset here) (gets_cleared rfl)
  | clear => exact gets_cleared here

end Passes

section Links
variable {w w' : Worker} {d d' : Poll.State Data} {handles : Finset Int}
  {host : String} {port : UInt16}

/-- The Modbus object of an FX3U thread keeps its address, and is connected behind ModbusInit. -/
structure Worker.Linked (host : String) (port : UInt16) (w : Worker) : Prop where
  driver : w.driver = fx3u
  host : w.mb.host = host
  port : w.mb.port = port
  state : ∃ d, w.state = sent d ∧ InPass d ∧ Tracks d ∧
    (d.pc ≠ .connect → d.pc ≠ .retry → w.mb.connected = true)

theorem linked_polled {deed : Deed} (linked : w.Linked host port)
    (polled : Polled handles w deed w') : w'.Linked host port := by
  obtain ⟨driver, at_host, at_port, d, state, pass, tracks, up⟩ := linked
  cases polled with
  | @connecting o ok mb log state' fresh given taken =>
    rw [driver, state] at taken
    obtain ⟨d', step, rfl⟩ := sent_step taken
    obtain ⟨same_host, same_port, linked⟩ := modbusInit_keeps given
    refine ⟨driver, same_host.trans at_host, same_port.trans at_port, d', rfl,
      inPass_step d _ d' pass step, tracks_step d _ d' tracks step, ?_⟩
    cases step_moves step with
    | connected => exact fun _ _ => linked rfl
    | failed => exact fun _ other => absurd rfl other
  | @reading o value mb log state' more given taken =>
    rw [driver, state] at taken
    obtain ⟨d', step, rfl⟩ := sent_step taken
    have reading := start_reading step
    have connected : w.mb.connected = true := up (by simp [reading]) (by simp [reading])
    have stamped : mb = w.mb.stamped := by
      have eq := modbusStart_eq (ModbusTcp.scripted o) w.log connected (intSet_within more)
      rw [given] at eq
      exact congrArg (fun r => r.2.1) eq
    refine ⟨driver, ?_, ?_, d', rfl, inPass_step d _ d' pass step,
      tracks_step d _ d' tracks step, ?_⟩
    · show mb.host = host
      rw [stamped]
      exact at_host
    · show mb.port = port
      rw [stamped]
      exact at_port
    · show _ → _ → mb.connected = true
      rw [stamped]
      exact fun _ _ => connected
  | @going state' taken =>
    rw [driver, state] at taken
    obtain ⟨d', step, rfl⟩ := sent_step taken
    refine ⟨driver, at_host, at_port, d', rfl, inPass_step d _ d' pass step,
      tracks_step d _ d' tracks step, ?_⟩
    cases step_moves step with
    | retried | cleared => exact fun other _ => absurd rfl other
    | entered here | left here | finished here | caught here | quiet here | delivered here
      | dropped here | slept here | reset here =>
      exact fun _ _ => up (by simp [here]) (by simp [here])

variable {gbkToUTF8 : CText → CText}

theorem linked_turn (m : Shared) (w : Worker) (o : Turn) (m' : Shared) (w' : Worker)
    (linked : w.Linked host port) (_ : True) (done : turn gbkToUTF8 m w o = some (m', w')) :
    w'.Linked host port := by
  cases turn_turned done with
  | polled running returned inside step => exact linked_polled linked step
  | stored => exact ⟨linked.driver, linked.host, linked.port, linked.state⟩
  | stopped => exact linked

end Links

def Worker.Served (v : Vector UInt16 8) (w : Worker) : Turn → Prop
  | .poll (.modbusInit o) => (modbusInit (ModbusTcp.scripted o) w.id.toNat w.mb w.log).1 = true
  | .poll (.modbusStart o) => ∀ more : w.state.i < 8, Holds v[w.state.i] w.mb intSet[w.state.i] o
  | .poll .proceed => True
  | .poll .stop => False
  | .unstamped => False
  | .insert _ x => x.Quiet

def Alone {n : Nat} (v : Vector UInt16 8) (t : Fin n) (s : Program n) (a : Fin n × Turn) : Prop :=
  a.1 = t ∧ (s.thread t).Served v a.2

structure Ready (d : Poll.State Data) (l : List Insert) (m : Shared) (w : Worker) : Prop where
  running : m.fate = .running
  session : m.db.m_ses = true
  driver : w.driver = fx3u
  state : w.state = sent d
  calls : w.calls = some l
  host : w.mb.host ≠ ""
  port : w.mb.port ≠ 0
  connected : d.pc ≠ .connect → d.pc ≠ .retry → w.mb.connected = true

section CatchUp
variable {gbkToUTF8 : CText → CText} {n : Nat} {v : Vector UInt16 8} {t : Fin n} {s : Program n}
  {d d' : Poll.State Data} {m : Shared} {w : Worker} {P : Program n → Prop}

theorem alone_turn {o : Turn} {m' : Shared} {w' : Worker}
    (done : turn gbkToUTF8 s.shared (s.thread t) o = some (m', w'))
    (served : (s.thread t).Served v o)
    (later : ∀ r : Program n, r.shared = m' → r.thread t = w' →
      ReachesBy (Threads.step (turn gbkToUTF8)) (Alone v t) r P) :
    ReachesBy (Threads.step (turn gbkToUTF8)) (Alone v t) s P := by
  have taken : s.step (turn gbkToUTF8) (t, o) = some ⟨m', Function.update s.thread t w'⟩ := by
    rw [Threads.step, done]
    rfl
  exact reachesBy_step (t, o) ⟨rfl, served⟩ taken (later _ rfl (Function.update_self ..))

theorem calls_drained (now : Tm) {l : List Insert} (known : ∀ i ∈ l, (val i.value).isSome)
    (ready : Ready d l s.shared (s.thread t)) :
    ReachesBy (Threads.step (turn gbkToUTF8)) (Alone v t) s
      fun r => Ready d [] r.shared (r.thread t) := by
  induction l generalizing s with
  | nil => exact reachesBy_here ready
  | cons i rest ih =>
    obtain ⟨text, shown⟩ := Option.isSome_iff_exists.mp (known i List.mem_cons_self)
    rcases insertData_cases gbkToUTF8 s.shared.db now i.key.toList text ⟨none, none⟩ with
      ⟨-, -, same⟩ | ⟨refused, -⟩
    · have done : turn gbkToUTF8 s.shared (s.thread t) (.insert now ⟨none, none⟩) = some
          ({ s.shared with
            db := { s.shared.db with executed := s.shared.db.executed ++
              [insertSql gbkToUTF8 now i.key.toList text] }
            rows := s.shared.rows ++ [⟨(s.thread t).index, i, now⟩] },
            { s.thread t with calls := some rest }) := by
        rw [turn, if_pos ready.running]
        simp only [insertToSvr, ready.calls, shown, same]
      refine alone_turn done ⟨rfl, rfl⟩ fun r shared thread => ?_
      apply ih (List.forall_mem_cons.mp known).2
      rw [shared, thread]
      exact ⟨ready.running, ready.session, ready.driver, ready.state, rfl, ready.host, ready.port,
        ready.connected⟩
    · exact absurd ⟨ready.session, rfl, rfl⟩ refused

theorem Ready.follows {a : Act} (ready : Ready d [] m w) (taken : mitsubishi.step d a = some d') :
    w.driver.step w.state a = some (sent d') := by
  rw [ready.driver, ready.state]
  exact (step_sent d a).trans (congrArg (Option.map sent) taken)

theorem ready_connects (ready : Ready d [] s.shared (s.thread t))
    (taken : mitsubishi.step d (.modbusInit true) = some d') :
    ReachesBy (Threads.step (turn gbkToUTF8)) (Alone v t) s
      fun r => Ready d' [] r.shared (r.thread t) := by
  obtain ⟨o, fresh, succeeds, -⟩ := modbusInit_succeeds (s.thread t).id.toNat (s.thread t).log
    s.shared.handles ready.host ready.port
  cases given : modbusInit (ModbusTcp.scripted o) (s.thread t).id.toNat (s.thread t).mb
      (s.thread t).log with
  | mk ok r =>
    obtain ⟨mb, log⟩ := r
    rw [given] at succeeds
    obtain rfl : ok = true := succeeds
    obtain ⟨host, port, up⟩ := modbusInit_keeps given
    have step := ready.follows taken
    have done : turn gbkToUTF8 s.shared (s.thread t) (.poll (.modbusInit o)) = some
        ({ s.shared with handles := s.shared.handles ∪ log.opened },
          { s.thread t with
            state := sent d', mb, log, connects := (s.thread t).connects + 1 }) := by
      rw [turn, if_pos ⟨ready.running, ready.calls⟩, Worker.poll, if_pos fresh, given]
      simp only [step, Option.map_some, if_true]
      exact congrArg some (if_neg id)
    refine alone_turn done (congrArg Prod.fst given) fun r shared thread => reachesBy_here ?_
    rw [shared, thread]
    exact ⟨ready.running, ready.session, ready.driver, rfl, ready.calls, host ▸ ready.host,
      port ▸ ready.port, fun _ _ => up rfl⟩

theorem holding_fits (w : Worker) (x : UInt16) (mb : ModbusTcp.Modbus) (address : Int) :
    ¬ w.Overruns (.modbusStart (holding x mb address)) := by
  rintro ⟨-, long⟩
  have short : ((holding x mb address).reply.take 1024).data.length = 11 := rfl
  rw [short] at long
  exact absurd long (by decide)

theorem ready_reads (more : d.i < 8) (ready : Ready d [] s.shared (s.thread t))
    (taken : mitsubishi.step d (.modbusStart (some v[d.i])) = some d') :
    ReachesBy (Threads.step (turn gbkToUTF8)) (Alone v t) s
      fun r => Ready d' [] r.shared (r.thread t) := by
  have index : (s.thread t).state.i = d.i := congrArg Poll.State.i ready.state
  have more' : (s.thread t).state.i < 8 := index ▸ more
  have reading := start_reading taken
  have connected := ready.connected (by simp [reading]) (by simp [reading])
  have got := modbusStart_holding v[(s.thread t).state.i] (s.thread t).log connected
    (intSet_within more')
  cases given : modbusStart (ModbusTcp.scripted
      (holding v[(s.thread t).state.i] (s.thread t).mb intSet[(s.thread t).state.i]))
      intSet[(s.thread t).state.i] (s.thread t).mb (s.thread t).log with
  | mk value r =>
    obtain ⟨mb, log⟩ := r
    rw [given] at got
    obtain ⟨rfl, rfl⟩ := got
    have step : (s.thread t).driver.step (s.thread t).state
        (.modbusStart (some v[(s.thread t).state.i])) = some (sent d') := by
      simp only [index]
      exact ready.follows taken
    have done : turn gbkToUTF8 s.shared (s.thread t) (.poll (.modbusStart
          (holding v[(s.thread t).state.i] (s.thread t).mb intSet[(s.thread t).state.i]))) = some
        ({ s.shared with handles := s.shared.handles ∪ log.opened },
          { s.thread t with
            state := sent d', mb := (s.thread t).mb.stamped, log
            reads := (s.thread t).reads + 1 }) := by
      rw [turn, if_pos ⟨ready.running, ready.calls⟩, Worker.poll, dif_pos more', given]
      have reads := congrArg (Option.map fun state => { s.thread t with
        state, mb := (s.thread t).mb.stamped, log, reads := (s.thread t).reads + 1 }) step
      exact (congrArg (Option.map _) reads).trans (congrArg some (if_neg (holding_fits _ _ _ _)))
    refine alone_turn done (fun _ => rfl) fun r shared thread => reachesBy_here ?_
    rw [shared, thread]
    exact ⟨ready.running, ready.session, ready.driver, rfl, ready.calls, ready.host, ready.port,
      fun _ _ => connected⟩

theorem ready_proceeds (now : Tm) (statuses : StatusesInside d.oldValue)
    (ready : Ready d [] s.shared (s.thread t)) (taken : mitsubishi.step d .proceed = some d') :
    ReachesBy (Threads.step (turn gbkToUTF8)) (Alone v t) s
      fun r => Ready d' [] r.shared (r.thread t) := by
  have old : StatusesInside (s.thread t).state.oldValue := by
    rw [ready.state]
    exact statuses
  obtain ⟨l, called, known⟩ := called_known ready.driver old
  have done : turn gbkToUTF8 s.shared (s.thread t) (.poll .proceed) = some
      ({ s.shared with handles := s.shared.handles ∪ (s.thread t).log.opened },
        { s.thread t with state := sent d', calls := some l }) := by
    rw [turn, if_pos ⟨ready.running, ready.calls⟩, Worker.poll, ready.follows taken, called]
    exact congrArg some (if_neg id)
  -- a connection is given up on the way to the next one only
  have connected : d'.pc ≠ .connect → d'.pc ≠ .retry → (s.thread t).mb.connected = true := by
    cases step_moves taken with
    | retried | cleared => exact fun other _ => absurd rfl other
    | entered here | left here | finished here | caught here | quiet here | delivered here
      | dropped here | slept here | reset here =>
      exact fun _ _ => ready.connected (by simp [here]) (by simp [here])
  refine alone_turn done trivial fun r shared thread => calls_drained now known ?_
  rw [shared, thread]
  exact ⟨ready.running, ready.session, ready.driver, rfl, rfl, ready.host, ready.port, connected⟩

theorem serving_statuses {a : Act} (inside : StatusesInside v)
    (statuses : StatusesInside d.oldValue) (serving : Serving v d a)
    (taken : mitsubishi.step d a = some d') : StatusesInside d'.oldValue := by
  rcases oldValue_moves (step_moves taken) with same | clear | ⟨more, x, read, set⟩
  · rwa [same]
  · rw [clear]
    exact zeros_known
  · subst read
    obtain ⟨_, value⟩ := serving
    obtain rfl := Option.some.inj value
    rw [set]
    refine ⟨set_small more (by decide) statuses.1 ?_, set_small more (by decide) statuses.2 ?_⟩
    · intro first
      simp only [first]
      exact inside.1
    · intro fifth
      simp only [fifth]
      exact inside.2

theorem ready_follows (now : Tm) (inside : StatusesInside v) (d : Poll.State Data) (a : Act)
    (d' : Poll.State Data) (s : Program n)
    (here : Ready d [] s.shared (s.thread t) ∧ StatusesInside d.oldValue) (serving : Serving v d a)
    (taken : mitsubishi.step d a = some d') :
    ReachesBy (Threads.step (turn gbkToUTF8)) (Alone v t) s
      fun r => Ready d' [] r.shared (r.thread t) ∧ StatusesInside d'.oldValue := by
  obtain ⟨ready, statuses⟩ := here
  have statuses' := serving_statuses inside statuses serving taken
  have still (r : Program n) (ready' : Ready d' [] r.shared (r.thread t)) :
      ReachesBy (Threads.step (turn gbkToUTF8)) (Alone v t) r
        fun r => Ready d' [] r.shared (r.thread t) ∧ StatusesInside d'.oldValue :=
    reachesBy_here ⟨ready', statuses'⟩
  cases a with
  | modbusInit ok =>
    obtain rfl : ok = true := serving
    exact reachesBy_trans (ready_connects ready taken) still
  | modbusStart x =>
    obtain ⟨more, rfl⟩ := serving
    exact reachesBy_trans (ready_reads more ready taken) still
  | proceed => exact reachesBy_trans (ready_proceeds now statuses ready taken) still
  | stop => exact absurd serving id

/-- From wherever the thread is, it makes its calls and settles. -/
theorem ready_settles {l : List Insert} (inside : StatusesInside v)
    (known : ∀ i ∈ l, (val i.value).isSome) (statuses : StatusesInside d.oldValue) (pass : InPass d)
    (tracks : Tracks d) (ready : Ready d l s.shared (s.thread t)) :
    ReachesBy (Threads.step (turn gbkToUTF8)) (Alone v t) s fun r =>
      ∃ d', (Ready d' [] r.shared (r.thread t) ∧ StatusesInside d'.oldValue) ∧
        Settled v d' ∧ Tracks d' := by
  obtain ⟨bs, e, polled, serving, settled⟩ := gets_settled (v := v) pass
  have tracks_e : Tracks e := exec_inductive tracks_step tracks polled
  have settles : ReachesBy mitsubishi.step (Serving v) d fun e => Settled v e ∧ Tracks e :=
    ⟨bs, e, polled, serving, settled, tracks_e⟩
  refine reachesBy_trans (calls_drained newYear known ready) fun q drained => ?_
  exact reachesBy_follows (ready_follows newYear inside) ⟨drained, statuses⟩ settles

theorem registers_inj {a b : Data} (same : a.registers = b.registers) : a = b := by
  obtain ⟨s1, ok1, total1, ng1, s2, ok2, total2, ng2⟩ := a
  obtain ⟨s1', ok1', total1', ng1', s2', ok2', total2', ng2'⟩ := b
  simpa [Data.registers] using same

theorem settled_reported (settled : Settled v d) (tracks : Tracks d) (some_value : v ≠ zeros) :
    ∃ e events, d.events = e :: events ∧ e.data = Data.make v := by
  have last : d.lastReported = v.toList := by
    rcases tracks settled.update with last | clear
    · rw [last, settled.oldValue]
    · exact absurd (settled.oldValue.symm.trans clear) some_value
  unfold State.lastReported at last
  cases events : d.events with
  | nil =>
    rw [events] at last
    exact absurd (Vector.toList_inj.mp last).symm some_value
  | cons e rest =>
    rw [events] at last
    exact ⟨e, rest, rfl, registers_inj (last.trans (make_registers v).symm)⟩

theorem reported_settled (state : w.state = sent d) (settled : Settled v d) (tracks : Tracks d)
    (some_value : v ≠ zeros) : ∃ before, w.reported = before ++ stationRows v := by
  obtain ⟨e, events, last, data⟩ := settled_reported settled tracks some_value
  have rows : insertsOf ⟨.mitsubishiFx3u32m, .mitsubishi e.data⟩ = some (stationRows v) := by
    rw [data]
    exact insertsOf_payload v
  refine ⟨events.reverse.flatMap fun e =>
    (insertsOf ⟨.mitsubishiFx3u32m, .mitsubishi e.data⟩).getD [], ?_⟩
  rw [reported_sent state, last, List.reverse_cons, List.flatMap_append, List.flatMap_singleton,
    rows]
  rfl

theorem turn_session {o : Turn} {m' : Shared} {w' : Worker}
    (done : turn gbkToUTF8 m w o = some (m', w')) : m'.db.m_ses = m.db.m_ses := by
  cases turn_turned done with
  | polled | stored | stopped => rfl

section Reached
variable {file : Option CText} {c : Connecting} {db : DbHelper} {ws : List Worker}
  {t : Fin ws.length} {as : List (Fin ws.length × Turn)} {s : Program ws.length}

theorem session_reached (started : start file c = .ok (some (.running db ws)))
    (connected : c.Succeeds)
    (reached : exec (Threads.step (turn gbkToUTF8)) (launch db ws) as = some s) :
    s.shared.db.m_ses = true := by
  obtain ⟨-, -, session⟩ := start_fresh started
  refine exec_inductive (I := fun s : Program ws.length => s.shared.db.m_ses = true)
    (fun s a r held taken => ?_) (session.mpr connected) reached
  obtain ⟨w, done, -⟩ := threads_step taken
  exact (turn_session done).trans held

theorem linked_reached (started : start file c = .ok (some (.running db ws)))
    (kind : (ws.get t).driver = fx3u)
    (reached : exec (Threads.step (turn gbkToUTF8)) (launch db ws) as = some s) :
    (s.thread t).Linked (ws.get t).mb.host (ws.get t).mb.port := by
  obtain ⟨fresh, -, -⟩ := start_fresh started
  have linked : ((launch db ws).thread t).Linked (ws.get t).mb.host (ws.get t).mb.port :=
    ⟨kind, rfl, rfl, State.start, (fresh t).state, inPass_start, fun _ => .inr rfl,
      fun other => absurd rfl other⟩
  have keeps : ∀ m w o m' w', w.Linked (ws.get t).mb.host (ws.get t).mb.port → True →
      turn gbkToUTF8 m w o = some (m', w') → w'.Linked (ws.get t).mb.host (ws.get t).mb.port :=
    linked_turn
  refine always_end (P := fun s : Program ws.length => (s.thread t).Linked _ _) ?_ reached
  exact always_thread (G := fun _ _ _ => True) keeps t linked
    (guarded_of_all (fun _ _ _ => trivial) _ as)

theorem sound_reached (started : start file c = .ok (some (.running db ws)))
    (kind : (ws.get t).driver = fx3u)
    (reached : exec (Threads.step (turn gbkToUTF8)) (launch db ws) as = some s)
    (told : Guarded (Threads.step (turn gbkToUTF8)) (fun s a => a.1 = t → (s.thread t).Told a.2)
      (launch db ws) as) : (s.thread t).Sound := by
  obtain ⟨fresh, -, -⟩ := start_fresh started
  have sound : ((launch db ws).thread t).Sound := by
    refine ⟨kind, ?_, [], (fresh t).calls, List.forall_mem_nil _⟩
    rw [(fresh t).state]
    exact zeros_known
  refine always_end (P := fun s : Program ws.length => (s.thread t).Sound) ?_ reached
  exact always_thread sound_turn t sound told

/-- Wherever the process is: once the registers of a PLC stay at v and nothing fails, turns of its
thread bring the rows of v into the database, as the last ones of the thread. -/
theorem rows_catch_up (started : start file c = .ok (some (.running db ws)))
    (connected : c.Succeeds) (kind : (ws.get t).driver = fx3u) (host : (ws.get t).mb.host ≠ "")
    (port : (ws.get t).mb.port ≠ 0)
    (reached : exec (Threads.step (turn gbkToUTF8)) (launch db ws) as = some s)
    (told : Guarded (Threads.step (turn gbkToUTF8)) (fun s a => a.1 = t → (s.thread t).Told a.2)
      (launch db ws) as)
    (running : s.shared.fate = .running) (inside : StatusesInside v) (some_value : v ≠ zeros) :
    ReachesBy (Threads.step (turn gbkToUTF8)) (Alone v t) s fun r =>
      r.shared.fate = .running ∧ (r.thread t).calls = some [] ∧
        ∃ before, rowsOf r.shared.rows t = before ++ stationRows v := by
  have session := session_reached started connected reached
  obtain ⟨driver, at_host, at_port, d, state, pass, tracks, up⟩ :=
    linked_reached started kind reached
  obtain ⟨-, statuses, l, calls, known⟩ := sound_reached started kind reached told
  have ready : Ready d l s.shared (s.thread t) :=
    ⟨running, session, driver, state, calls, at_host ▸ host, at_port ▸ port, up⟩
  have statuses_d : StatusesInside d.oldValue := by
    rw [state] at statuses
    exact statuses
  obtain ⟨bs, r, run, alone, d', ⟨ready', -⟩, settled, tracks'⟩ :=
    ready_settles inside known statuses_d pass tracks ready
  have stored : Stored gbkToUTF8 r :=
    exec_inductive stored_step (exec_inductive stored_step (stored_start started) reached) run
  -- no call is left, so all that was reported is stored
  have rows := stored.rows t
  rw [due, ready'.calls, Option.getD_some, List.append_nil] at rows
  exact ⟨bs, r, run, alone, ready'.running, ready'.calls,
    rows ▸ reported_settled ready'.state settled tracks' some_value⟩

theorem rows_catch_up_sevens :
    ∃ s, exec (Threads.step (turn id)) (launch plantDb plantWorkers) (bothPasses.take 31) = some s ∧
      ReachesBy (Threads.step (turn id)) (Alone (Vector.replicate 8 7) firstPlc) s fun r =>
        r.shared.fate = .running ∧ (r.thread firstPlc).calls = some [] ∧ ∃ before,
          rowsOf r.shared.rows firstPlc = before ++ stationRows (Vector.replicate 8 7) := by
  have still : (exec (Threads.step (turn id)) (launch plantDb plantWorkers)
      (bothPasses.take 31)).map (fun s => s.shared.fate) = some .running := by decide +kernel
  obtain ⟨s, run, running⟩ := Option.map_eq_some_iff.mp still
  exact ⟨s, run, rows_catch_up start_plantFile ⟨rfl, rfl⟩ rfl (by decide) (by decide) run
    (by decide +kernel) running ⟨by decide, by decide⟩ (by decide)⟩

end Reached

end CatchUp

end DevAccess.Manager
