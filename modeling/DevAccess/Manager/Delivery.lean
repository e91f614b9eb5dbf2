import DevAccess.Manager.Rows
import DevAccess.Poll.Changes

/-! From the registers of a PLC to the rows of the database: what an FX3U thread stores while a
server answers its reads, in any run of the program. -/
namespace DevAccess.Manager
open Foundation Poll Mes Config

def Holds (v : UInt16) (m : ModbusTcp.Modbus) (address : Int) (o : ModbusTcp.Outcomes) : Prop :=
  o.reply = .bytes (ModbusTcp.encodeReply
    ((ModbusTcp.readRequest o.memory m address 1 .readRegs).contents 12)
    (.registers [v]))

instance (v : UInt16) (m : ModbusTcp.Modbus) (address : Int) (o : ModbusTcp.Outcomes) :
    Decidable (Holds v m address o) := inferInstanceAs (Decidable (_ = _))

def Worker.Answered (plc : Nat → Int → UInt16) (w : Worker) : Turn → Prop
  | .poll (.modbusStart o) => ∀ more : w.state.i < 8,
    Holds (plc w.reads intSet[w.state.i]) w.mb intSet[w.state.i] o
  | _ => True

instance (plc : Nat → Int → UInt16) (w : Worker) : (o : Turn) → Decidable (w.Answered plc o)
  | .poll (.modbusStart o) =>
    if more : w.state.i < 8 then
      decidable_of_iff (Holds (plc w.reads (intSet.get ⟨w.state.i, more⟩)) w.mb
        (intSet.get ⟨w.state.i, more⟩) o) ⟨fun holds _ => holds, fun all => all more⟩
    else isTrue fun more' => absurd more' more
  | .poll (.modbusInit _) | .poll .proceed | .poll .stop | .unstamped | .insert _ _ => isTrue trivial

def stream (plc : Nat → Int → UInt16) (base n : Nat) : List UInt16 :=
  (List.range n).map fun k => plc (base + k) intSet[k % 8]

def stationRows (v : Vector UInt16 8) : List Insert :=
  [⟨"1号工位状态", .status (valueOf v 2020)⟩, ⟨"1号工位OK数量", .count (valueOf v 3000)⟩,
    ⟨"1号工位总测数量", .count (valueOf v 3004)⟩, ⟨"1号工位NG数量", .count (valueOf v 3002)⟩,
    ⟨"2号工位状态", .status (valueOf v 2022)⟩, ⟨"2号工位OK数量", .count (valueOf v 3100)⟩,
    ⟨"2号工位总测数量", .count (valueOf v 3104)⟩, ⟨"2号工位NG数量", .count (valueOf v 3102)⟩]

theorem insertsOf_payload (v : Vector UInt16 8) :
    insertsOf (fx3u.poller.payload v) = some (stationRows v) := by
  obtain ⟨s1, ok1, total1, ng1, s2, ok2, total2, ng2⟩ := make_carries v
  rw [stationRows, ← s1, ← ok1, ← total1, ← ng1, ← s2, ← ok2, ← total2, ← ng2]
  rfl

theorem modbusStart_held {o : ModbusTcp.Outcomes} {v : UInt16} {address : Int}
    {m : ModbusTcp.Modbus} (log : ModbusTcp.Log)
    (connected : m.connected = true) (within : address ≤ 65535) (holds : Holds v m address o) :
    (modbusStart (ModbusTcp.scripted o) address m log).1 = .ok v := by
  have eq := modbusStart_eq (ModbusTcp.scripted o) log connected within
  have got : (ModbusTcp.answer (ModbusTcp.scripted o) m log
    (ModbusTcp.readRequest o.memory m address 1 .readRegs) 12).1 =
      .bytes (ModbusTcp.encodeReply
        ((ModbusTcp.readRequest o.memory m address 1 .readRegs).contents 12) (.registers [v])) :=
    congrArg (ModbusTcp.Received.take 1024) holds
  have value := congrArg Prod.fst eq
  have memory : (ModbusTcp.scripted o).memory log = o.memory := rfl
  dsimp only at value
  rw [memory, got] at value
  have normal : (modbusStart (ModbusTcp.scripted o) address m log).1 =
      .ok (joined (hiByte v.toNat) (loByte v.toNat)) := value
  rwa [joined_bytes] at normal

def sent (d : Poll.State Data) : Poll.State Message :=
  { d with events := d.events.map fun e => ⟨⟨.mitsubishiFx3u32m, .mitsubishi e.data⟩, e.pass⟩ }

theorem step_sent (d : Poll.State Data) (a : Act) :
    fx3u.step (sent d) a = (mitsubishi.step d a).map sent := by
  have plain : fx3u.outcome a = a := by cases a <;> rfl
  rw [Driver.step, plain]
  cases a with
  | modbusInit ok =>
    simp only [Poller.step, apply_ite (Option.map sent)]
    rfl
  | modbusStart v =>
    by_cases here : d.pc = .loop ∧ d.i < 8
    · have here' : (sent d).pc = .loop ∧ (sent d).i < 8 := here
      cases v with
      | none =>
        rw [moves_step (.thrown here.1 here.2)]
        exact moves_step (.thrown here'.1 here'.2)
      | some v =>
        rw [moves_step (.read here.1 here.2 v)]
        exact moves_step (.read here'.1 here'.2 v)
    · simp only [Poller.step, dif_neg here]
      exact dif_neg here
  | proceed =>
    cases here : d.pc with
    | report =>
      have here' : (sent d).pc = .report := here
      cases changed : d.update with
      | true =>
        rw [moves_step (.delivered here changed rfl)]
        exact moves_step (.delivered here' changed rfl)
      | false =>
        rw [moves_step (.quiet here changed)]
        exact moves_step (.quiet here' changed)
    | _ =>
      simp only [Poller.step, Poller.proceed, here, show (sent d).pc = _ from here,
        apply_ite (Option.map sent)]
      rfl
  | stop =>
    simp only [Poller.step, apply_ite (Option.map sent)]
    rfl

theorem sent_step {d : Poll.State Data} {state : Poll.State Message} {a : Act}
    (taken : fx3u.step (sent d) a = some state) :
    ∃ d', mitsubishi.step d a = some d' ∧ state = sent d' := by
  rw [step_sent] at taken
  obtain ⟨d', taken, same⟩ := Option.map_eq_some_iff.mp taken
  exact ⟨d', taken, same.symm⟩

section Following
variable {plc : Nat → Int → UInt16} {base : Nat} {before : List (Event Data)} {w w' : Worker}
    {d d' : Poll.State Data}
  {handles : Finset Int}

def Calm (d : Poll.State Data) : Prop :=
  d.pc = .connect ∨ d.pc = .retry ∨ d.pc = .clear → d.bStop = false

/-- What an FX3U thread always has. -/
structure Steady (w : Worker) : Prop where
  driver : w.driver = fx3u
  state : ∃ d, w.state = sent d ∧ InPass d ∧ Idle d ∧ Calm d

theorem calm_step {a : Act} (calm : Calm d) (other : a ≠ .stop)
    (taken : mitsubishi.step d a = some d') : Calm d' := by
  cases step_moves taken with
  | failed here => exact fun _ => calm (.inl here)
  | retried here => exact fun _ => calm (.inr (.inl here))
  | cleared here => exact fun _ => calm (.inr (.inr here))
  | reset here => exact fun _ => rfl
  | stopped => exact absurd rfl other
  | read here => exact fun between => by simp [here] at between
  | connected | entered | left | thrown | finished | caught | quiet | delivered | dropped | slept =>
    exact fun between => by simp at between

theorem polled_step {deed : Deed} (driver : w.driver = fx3u) (state : w.state = sent d)
    (polled : Polled handles w deed w') :
    ∃ a d', a ≠ .stop ∧ mitsubishi.step d a = some d' ∧ w'.state = sent d' ∧ w'.driver = fx3u := by
  have taken_by {a : Act} {state' : Poll.State Message} (other : a ≠ .stop)
      (taken : w.driver.step w.state a = some state') :
      ∃ a d', a ≠ .stop ∧ mitsubishi.step d a = some d' ∧ state' = sent d' := by
    rw [driver, state] at taken
    obtain ⟨d', step, same⟩ := sent_step taken
    exact ⟨a, d', other, step, same⟩
  cases polled with
  | connecting fresh given taken =>
    obtain ⟨a, d', other, step, same⟩ := taken_by (by simp) taken
    exact ⟨a, d', other, step, same, driver⟩
  | reading more given taken =>
    obtain ⟨a, d', other, step, same⟩ := taken_by (by simp) taken
    exact ⟨a, d', other, step, same, driver⟩
  | going taken =>
    obtain ⟨a, d', other, step, same⟩ := taken_by (by simp) taken
    exact ⟨a, d', other, step, same, driver⟩

theorem steady_polled {deed : Deed} (steady : Steady w) (polled : Polled handles w deed w') :
    Steady w' := by
  obtain ⟨driver, d, state, pass, idle, calm⟩ := steady
  obtain ⟨a, d', other, step, state', driver'⟩ := polled_step driver state polled
  exact ⟨driver', d', state', inPass_step d a d' pass step, idle_step d a d' idle step,
    calm_step calm other step⟩

/-- Since it was about to connect, with a server behind it: the thread is still trying, or the
values read are those of whole passes and of a part of one more, and the passes have made the events. -/
inductive Phase (plc : Nat → Int → UInt16) (base : Nat) (before : List (Event Data)) (reads : Nat)
    (connected : Bool) (d : Poll.State Data) : Prop
  | trying (here : d.pc = .connect ∨ d.pc = .retry) (idle : Idle d) (running : d.bStop = false)
      (events : d.events = before) (first : reads = base)
  | polling {passes : List (Vector UInt16 8)}
      (here : d.pc = .test ∨ d.pc = .loop ∨ d.pc = .report ∨ d.pc = .sleep)
        (running : d.bStop = false)
      (up : connected = true) (later : base ≤ reads) (after : After before passes d)
      (values : passes.flatMap Vector.toList ++ d.current = stream plc base (reads - base))

structure Following (plc : Nat → Int → UInt16) (base : Nat) (before : List (Event Data))
    (w : Worker) : Prop where
  driver : w.driver = fx3u
  state : ∃ d, w.state = sent d ∧ InPass d ∧ Phase plc base before w.reads w.mb.connected d

theorem modbusInit_keeps {o : ModbusTcp.Outcomes} {id : Int} {m mb : ModbusTcp.Modbus}
    {log log' : ModbusTcp.Log} {ok : Bool}
    (given : modbusInit (ModbusTcp.scripted o) id m log = (ok, mb, log')) :
    mb.host = m.host ∧ mb.port = m.port ∧ (ok = true → mb.connected = true) := by
  rw [modbusInit] at given
  rcases ModbusTcp.modbusConnect_cases o (ModbusTcp.modbusSetSlaveId id m) log with
    failed | failed | ⟨-, made⟩
  · rw [failed] at given
    cases given
    exact ⟨rfl, rfl, fun none => by cases none⟩
  · rw [failed] at given
    cases given
    exact ⟨rfl, rfl, fun none => by cases none⟩
  · rw [made] at given
    cases given
    exact ⟨rfl, rfl, fun _ => rfl⟩

theorem modbusStart_connected {p : ModbusTcp.Platform ModbusTcp.Log} {address : Int}
    {m : ModbusTcp.Modbus}
    {log : ModbusTcp.Log} (connected : m.connected = true) (within : address ≤ 65535) :
    (modbusStart p address m log).2.1.connected = true := by
  rw [modbusStart_eq p log connected within]
  exact connected

theorem polling_step {a : Act} (here : d.pc = .test ∨ d.pc = .loop ∨ d.pc = .report ∨ d.pc = .sleep)
    (running : d.bStop = false) (unbroken : Unbroken a) (other : a ≠ .stop)
    (taken : mitsubishi.step d a = some d') :
    (d'.pc = .test ∨ d'.pc = .loop ∨ d'.pc = .report ∨ d'.pc = .sleep) ∧ d'.bStop = false := by
  cases step_moves taken with
  | connected | failed | thrown => cases unbroken
  | stopped => exact absurd rfl other
  | dropped _ _ unset => cases unset
  | left _ stopped =>
    rw [running] at stopped
    cases stopped
  | retried there | caught there | reset there | cleared there => simp [there] at here
  | entered => exact ⟨.inr (.inl rfl), running⟩
  | read there => exact ⟨.inr (.inl there), running⟩
  | finished => exact ⟨.inr (.inr (.inl rfl)), running⟩
  | quiet | delivered => exact ⟨.inr (.inr (.inr rfl)), running⟩
  | slept => exact ⟨.inl rfl, running⟩

theorem stream_succ (plc : Nat → Int → UInt16) (base n : Nat) :
    stream plc base (n + 1) = stream plc base n ++ [plc (base + n) intSet[n % 8]] := by
  rw [stream, List.range_succ, List.map_append]
  rfl

theorem passes_length (passes : List (Vector UInt16 8)) :
    (passes.flatMap Vector.toList).length = 8 * passes.length := by
  induction passes with
  | nil => rfl
  | cons v passes ih =>
    rw [List.flatMap_cons, List.length_append, ih, Vector.length_toList, List.length_cons]
    omega

theorem turn_of_read {passes : List (Vector UInt16 8)} {n : Nat} (pass : InPass d)
    (here : d.pc = .loop) (more : d.i < 8)
    (values : passes.flatMap Vector.toList ++ d.current = stream plc base n) : n % 8 = d.i := by
  have length := congrArg List.length values
  have current : d.current = d.seen := if_pos (.inl here)
  rw [List.length_append, passes_length, current, pass.length (.inl here), stream, List.length_map,
    List.length_range] at length
  omega

section Phases
variable {reads : Nat} {connected connected' : Bool}

theorem start_reading {x : Option UInt16} (taken : mitsubishi.step d (.modbusStart x) = some d') :
    d.pc = .loop := by
  cases step_moves taken with
  | read here => exact here
  | thrown here => exact here

theorem phase_connecting {ok : Bool} (phase : Phase plc base before reads connected d)
    (step : mitsubishi.step d (.modbusInit ok) = some d') (up : ok = true → connected' = true) :
    Phase plc base before reads connected' d' := by
  cases phase with
  | trying here idle running events first =>
    have still := idle_step d _ d' idle step
    cases step_moves step with
    | connected connecting =>
      have after : After before [] { d with pc := .test, inits := d.inits + 1 } :=
        events ▸ after_connected idle connecting
      refine .polling (.inl rfl) running (up rfl) (Nat.le_of_eq first.symm) after ?_
      rw [first, Nat.sub_self]
      rfl
    | failed connecting => exact .trying (.inr rfl) still running events first
  | polling here =>
    cases step_moves step with
    | connected connecting | failed connecting => simp [connecting] at here

theorem phase_reading {value : Option UInt16} (pass : InPass d)
    (phase : Phase plc base before reads connected d) (more : d.i < 8)
    (got : connected = true → value = some (plc reads intSet[d.i]))
    (still : connected = true → connected' = true)
    (step : mitsubishi.step d (.modbusStart value) = some d') :
    Phase plc base before (reads + 1) connected' d' := by
  have reading := start_reading step
  cases phase with
  | trying here => simp [reading] at here
  | polling here running up later after values =>
    obtain rfl := got up
    have unbroken : Unbroken (.modbusStart (some (plc reads intSet[d.i]))) := rfl
    obtain ⟨passes', after', passed⟩ := after_step pass after unbroken step
    obtain ⟨there, running'⟩ := polling_step here running unbroken (by simp) step
    refine .polling there running' (still up) (Nat.le_succ_of_le later) after' ?_
    have turn := turn_of_read pass reading more values
    have next : reads + 1 - base = (reads - base) + 1 := by omega
    have place : base + (reads - base) = reads := by omega
    rw [List.flatMap_append, List.append_assoc, passed, ← List.append_assoc, values, next,
      stream_succ, place]
    simp only [turn]
    rfl

theorem phase_going (pass : InPass d) (phase : Phase plc base before reads connected d)
    (step : mitsubishi.step d .proceed = some d') : Phase plc base before reads connected d' := by
  cases phase with
  | trying here idle running events first =>
    have still := idle_step d _ d' idle step
    cases step_moves step with
    | retried there => exact .trying (.inl rfl) still running events first
    | entered there | left there | finished there | caught there | quiet there | delivered there
      | slept there | reset there | cleared there => simp [there] at here
    | dropped _ _ unset => cases unset
  | polling here running up later after values =>
    have unbroken : Unbroken .proceed := trivial
    obtain ⟨passes', after', passed⟩ := after_step pass after unbroken step
    obtain ⟨there, running'⟩ := polling_step here running unbroken (by simp) step
    refine .polling there running' up later after' ?_
    rw [List.flatMap_append, List.append_assoc, passed, ← List.append_assoc, values]
    exact List.append_nil _

end Phases

theorem following_polled {deed : Deed} (following : Following plc base before w)
    (answered : w.Answered plc (.poll deed)) (polled : Polled handles w deed w') :
    Following plc base before w' := by
  obtain ⟨driver, d, state, pass, phase⟩ := following
  cases polled with
  | @connecting o ok mb log state' fresh given taken =>
    rw [driver, state] at taken
    obtain ⟨d', step, rfl⟩ := sent_step taken
    refine ⟨driver, d', rfl, inPass_step d _ d' pass step, phase_connecting phase step ?_⟩
    rintro rfl
    exact (modbusInit_keeps given).2.2 rfl
  | @reading o value mb log state' more given taken =>
    rw [driver, state] at taken
    obtain ⟨d', step, rfl⟩ := sent_step taken
    have within := intSet_within more
    have index : w.state.i = d.i := congrArg Poll.State.i state
    refine ⟨driver, d', rfl, inPass_step d _ d' pass step,
      phase_reading pass phase (index ▸ more) (fun up => ?_) (fun up => ?_) step⟩
    · have held := modbusStart_held w.log up within (answered more)
      rw [given] at held
      simp only [index] at held
      exact congrArg Except.toOption held
    · have still :
          (modbusStart (ModbusTcp.scripted o) intSet[w.state.i] w.mb w.log).2.1.connected = true :=
        modbusStart_connected up within
      rwa [given] at still
  | @going state' taken =>
    rw [driver, state] at taken
    obtain ⟨d', step, rfl⟩ := sent_step taken
    exact ⟨driver, d', rfl, inPass_step d _ d' pass step, phase_going pass phase step⟩

variable {gbkToUTF8 : CText → CText}

theorem steady_turn (m : Shared) (w : Worker) (o : Turn) (m' : Shared) (w' : Worker)
    (steady : Steady w) (_ : True) (done : turn gbkToUTF8 m w o = some (m', w')) : Steady w' := by
  cases turn_turned done with
  | polled running returned inside step => exact steady_polled steady step
  | stored => exact ⟨steady.driver, steady.state⟩
  | stopped => exact steady

theorem following_turn (m : Shared) (w : Worker) (o : Turn) (m' : Shared) (w' : Worker)
    (following : Following plc base before w)
    (answered : w.Answered plc o) (done : turn gbkToUTF8 m w o = some (m', w')) :
    Following plc base before w' := by
  cases turn_turned done with
  | polled running returned inside step => exact following_polled following answered step
  | stored => exact ⟨following.driver, following.state⟩
  | stopped => exact following

theorem reported_sent (state : w.state = sent d) : w.reported =
    d.events.reverse.flatMap fun e =>
      (insertsOf ⟨.mitsubishiFx3u32m, .mitsubishi e.data⟩).getD [] := by
  rw [Worker.reported, state, sent, ← List.map_reverse, List.flatMap_map]

theorem reported_after {s r : Worker} {d d' : Poll.State Data} {passes : List (Vector UInt16 8)}
    (here : s.state = sent d) (there : r.state = sent d') (after : After d.events passes d') :
    r.reported = s.reported ++ (changes zeros passes).flatMap stationRows := by
  have rows : ∀ v, (insertsOf ⟨.mitsubishiFx3u32m, .mitsubishi (Data.make v)⟩).getD [] =
      stationRows v := by
    intro v
    have made := insertsOf_payload v
    exact congrArg (Option.getD · []) made
  rw [reported_sent there, reported_sent here, after.events, List.reverse_append,
    List.reverse_reverse, List.flatMap_append, List.flatMap_map]
  simp only [rows]

/-- Of an FX3U thread that is about to connect, as long as a server answers its reads: what is
stored of it from there on, or due to be, are the eight rows of each pass that differs from the one
before it, the first one from zeros, with the values of the registers at their reads. -/
theorem changes_stored {file : Option CText} {c : Connecting} {db : DbHelper} {ws : List Worker}
    (started : start file c = .ok (some (.running db ws))) {t : Fin ws.length}
    (kind : (ws.get t).driver = fx3u)
    {pre as : List (Fin ws.length × Turn)} {s r : Program ws.length}
    (reached : exec (Threads.step (turn gbkToUTF8)) (launch db ws) pre = some s)
    (here : (s.thread t).state.pc = .connect)
    (run : exec (Threads.step (turn gbkToUTF8)) s as = some r)
    (answered : Guarded (Threads.step (turn gbkToUTF8)) (fun s a => a.1 = t →
      (s.thread t).Answered plc a.2) s as) :
    ∃ passes part, passes.flatMap Vector.toList ++ part =
        stream plc (s.thread t).reads ((r.thread t).reads - (s.thread t).reads) ∧ part.length ≤ 8 ∧
      ((r.thread t).state.pc ≠ .loop → (r.thread t).state.pc ≠ .report → part = []) ∧
      due r t = due s t ++ (changes zeros passes).flatMap stationRows := by
  have fresh := (start_fresh started).1 t
  have steady : Steady ((launch db ws).thread t) := by
    refine ⟨kind, State.start, fresh.state, inPass_start, ⟨fun _ => rfl, fun changed => ?_⟩,
      fun _ => rfl⟩
    cases changed
  have steady_s : Steady (s.thread t) := by
    have always : Always (Threads.step (turn gbkToUTF8)) (fun s => Steady (s.thread t))
        (launch db ws) pre :=
      always_thread (G := fun _ _ _ => True) steady_turn t steady
        (guarded_of_all (fun _ _ _ => trivial) _ pre)
    have steady_end := always_end always reached
    exact steady_end
  have stored_s : Stored gbkToUTF8 s := exec_inductive stored_step (stored_start started) reached
  have stored_r : Stored gbkToUTF8 r := exec_inductive stored_step stored_s run
  obtain ⟨driver, d, state, pass, idle, calm⟩ := steady_s
  rw [state] at here
  have following : Following plc (s.thread t).reads d.events (s.thread t) :=
    ⟨driver, d, state, pass, .trying (.inl here) idle (calm (.inl here)) rfl rfl⟩
  have always := always_thread following_turn t following answered
  obtain ⟨-, d', state', pass', phase⟩ := always_end always run
  rw [stored_r.rows t, stored_s.rows t, state']
  cases phase with
  | trying here' idle' running' events first =>
    refine ⟨[], [], ?_, Nat.zero_le 8, fun _ _ => rfl, ?_⟩
    · rw [first, Nat.sub_self]
      rfl
    · rw [reported_sent state', reported_sent state, events]
      exact (List.append_nil _).symm
  | @polling passes here' running' up later after values =>
    refine ⟨passes, d'.current, values, ?_, ?_, reported_after state state' after⟩
    · unfold State.current
      split
      · rename_i inside
        have within := pass'.length (inside.imp_right fun report => .inr (.inl report))
        exact Nat.le_trans (Nat.le_of_eq within) pass'.bound
      · exact Nat.zero_le 8
    · exact fun outside elsewhere => if_neg fun inside => inside.elim outside elsewhere

theorem changes_stored_pass : ∃ r, exec (Threads.step (turn id)) (launch plantDb plantWorkers)
      bothPasses = some r ∧ (r.thread firstPlc).reads = 8 ∧
    ∃ passes part, passes.flatMap Vector.toList ++ part =
        stream (fun _ _ => 5) ((launch plantDb plantWorkers).thread firstPlc).reads
          ((r.thread firstPlc).reads - ((launch plantDb plantWorkers).thread firstPlc).reads) ∧
            part.length ≤ 8 ∧
      ((r.thread firstPlc).state.pc ≠ .loop → (r.thread firstPlc).state.pc ≠ .report → part = []) ∧
      due r firstPlc = due (launch plantDb plantWorkers) firstPlc ++
          (changes zeros passes).flatMap stationRows := by
  have eight : (exec (Threads.step (turn id)) (launch plantDb plantWorkers)
      bothPasses).map (fun r => (r.thread firstPlc).reads) = some 8 := by decide +kernel
  obtain ⟨r, run, reads⟩ := Option.map_eq_some_iff.mp eight
  exact ⟨r, run, reads, changes_stored start_plantFile rfl (exec_nil _) rfl run (by decide +kernel)⟩

end Following

end DevAccess.Manager
