import DevAccess.Poll.Device

/-! What goes over the sockets while a poller runs: a request that the driver sends on a
socket after a Recv on it has returned 0 or an error. -/
namespace DevAccess.Poll
open Foundation ModbusTcp

inductive Transfer where
  | sent (socket : Int)
  | received (socket ret : Int)
  deriving DecidableEq

def Transfer.socket : Transfer → Int
  | sent s | received s _ => s

section Recording
variable {σ : Type}

def recorded (p : Platform σ) : Platform (σ × List Transfer) where
  initSocket w := ((p.initSocket w.1).1, (p.initSocket w.1).2, w.2)
  connect host port w := ((p.connect host port w.1).1, (p.connect host port w.1).2, w.2)
  close socket w := (p.close socket w.1, w.2)
  send socket frame w :=
    ((p.send socket frame w.1).1, (p.send socket frame w.1).2, w.2 ++ [.sent socket])
  recv socket len w :=
    let got := p.recv socket len w.1
    (got.1, got.2, w.2 ++ [.received socket got.1.ret])
  memory w := p.memory w.1
  recv_le socket len w := p.recv_le socket len w.1

end Recording

def Device.transfers (s : Device) : Deed → List Transfer
  | .modbusStart o =>
    if h : s.driver.i < 8 then
      (Poll.modbusStart (recorded (scripted o)) intSet[s.driver.i] s.mb (s.log, [])).2.2.2
    else []
  | _ => []

structure Watched where
  device : Device
  trace : List Transfer

def Watched.start (host : String) (port : UInt16) : Watched := ⟨Device.start host port, []⟩

def Watched.step (id : UInt8) (s : Watched) (a : Deed) : Option Watched :=
  (s.device.step id a).map (fun device => ⟨device, s.trace ++ s.device.transfers a⟩)

def Admits (a b : Transfer) : Prop := ∀ socket ret, a = .received socket ret → ret ≤ 0 → b ≠ .sent socket

/-- A Recv on the socket in use has returned 0 or an error. -/
def Watched.Gone (s : Watched) : Prop := ∃ ret ≤ 0, .received s.device.mb.socket ret ∈ s.trace

/-- No request has been sent on a socket that was gone, and while the socket in use is
gone the worker is not about to read a register. -/
structure Watched.Reconnects (s : Watched) : Prop where
  silent : s.trace.Pairwise Admits
  left : s.Gone → ¬ (s.device.driver.pc = .loop ∧ s.device.driver.i < 8)

theorem watched_step {id : UInt8} {s t : Watched} {a : Deed} (taken : s.step id a = some t) :
    s.device.step id a = some t.device ∧ t.trace = s.trace ++ s.device.transfers a := by
  obtain ⟨device, stepped, rfl⟩ := Option.map_eq_some_iff.mp taken
  exact ⟨stepped, rfl⟩

theorem transfers_read {s : Device} {o : Outcomes} (connected : s.mb.connected = true)
    (more : s.driver.i < 8) :
    s.transfers (.modbusStart o) =
      [.sent s.mb.socket, .received s.mb.socket (o.reply.take 1024).ret] := by
  have eq := modbusStart_eq (recorded (scripted o)) (s.log, []) connected (intSet_within more)
  simp only [Device.transfers, dif_pos more, eq]
  rfl

structure Watched.Read (s t : Watched) (ret : Int) : Prop where
  here : s.device.driver.pc = .loop ∧ s.device.driver.i < 8
  trace : t.trace = s.trace ++ [.sent s.device.mb.socket, .received s.device.mb.socket ret]
  mb : t.device.mb = s.device.mb.stamped
  opened : t.device.log.opened = s.device.log.opened
  failed : ret < 0 → t.device.driver.pc = .caught
  closed : ret = 0 → t.device.driver.pc = .loop ∧ t.device.driver.i = s.device.driver.i + 1
  ends : t.device.driver.pc = .loop ∨ t.device.driver.pc = .caught

theorem read_failed {address : Int} {m : Modbus} {w : Log} {o : Outcomes}
    (connected : m.connected = true) (within : address ≤ 65535) (failed : (o.reply.take 1024).ret < 0) :
    (Poll.modbusStart (scripted o) address m w).1.toOption = none := by
  have none_left : o.reply.take 1024 = .failed := by
    cases h : o.reply with
    | failed => rfl
    | bytes bs => simp [h, Received.take, Received.ret] at failed; omega
  have got : (answer (scripted o) m w (readRequest o.memory m address 1 .readRegs) 12).1 = .failed :=
    none_left
  rw [modbusStart_eq (scripted o) w connected within]
  dsimp only
  rw [show (scripted o).memory w = o.memory from rfl, got]
  rfl

/-- An orderly close looks like a reply to the driver: the read gives a value. -/
theorem read_closed {address : Int} {m : Modbus} {w : Log} {o : Outcomes}
    (connected : m.connected = true) (within : address ≤ 65535) (closed : (o.reply.take 1024).ret = 0) :
    ∃ v, (Poll.modbusStart (scripted o) address m w).1.toOption = some v := by
  have empty : o.reply.take 1024 = .bytes [] := by
    cases h : o.reply with
    | failed => simp [h, Received.take, Received.ret] at closed
    | bytes bs =>
      simp only [h, Received.take, Received.ret, Int.natCast_eq_zero, List.length_eq_zero_iff] at closed
      simp only [Received.take, closed]
  have got : (answer (scripted o) m w (readRequest o.memory m address 1 .readRegs) 12).1 = .bytes [] :=
    empty
  rw [modbusStart_eq (scripted o) w connected within]
  dsimp only
  rw [show (scripted o).memory w = o.memory from rfl, got]
  exact ⟨_, rfl⟩

theorem watched_read {id : UInt8} {s t : Watched} {o : Outcomes}
    (connected : s.device.driver.pc = .loop → s.device.mb.connected = true)
    (taken : s.step id (.modbusStart o) = some t) : s.Read t (o.reply.take 1024).ret := by
  obtain ⟨stepped, trace⟩ := watched_step taken
  simp only [Device.step] at stepped
  split at stepped
  case isFalse => cases stepped
  case isTrue more =>
  obtain ⟨driver, moved, device⟩ := Option.map_eq_some_iff.mp stepped
  obtain ⟨here, ends⟩ : s.device.driver.pc = .loop ∧ (driver.pc = .loop ∨ driver.pc = .caught) := by
    cases hv : (Poll.modbusStart (scripted o) intSet[s.device.driver.i] s.device.mb
      s.device.log).1.toOption with
    | none =>
      rw [hv] at moved
      cases step_moves moved with
      | thrown here => exact ⟨here, .inr rfl⟩
    | some v =>
      rw [hv] at moved
      cases step_moves moved with
      | read here => exact ⟨here, .inl here⟩
  have ready := connected here
  have within := intSet_within more
  have spec := modbusStart_eq (scripted o) s.device.log ready within
  have driven : t.device.driver = driver := by rw [← device]
  refine ⟨⟨here, more⟩, ?_, ?_, ?_, ?_, ?_, ?_⟩
  · rw [trace, transfers_read ready more]
  · rw [← device]
    exact congrArg (fun r => r.2.1) spec
  · rw [← device]
    exact congrArg (fun r => r.2.2.opened) spec
  · intro failed
    rw [read_failed ready within failed] at moved
    rw [driven]
    cases step_moves moved
    rfl
  · intro closed
    obtain ⟨v, value⟩ := read_closed (w := s.device.log) ready within closed
    rw [value] at moved
    rw [driven]
    cases step_moves moved
    exact ⟨here, rfl⟩
  · rw [driven]
    exact ends

inductive Watched.Init (s t : Watched) : Prop where
  | failed (pc : t.device.driver.pc = .retry)
      (opened : t.device.log.opened = s.device.log.opened)
  | made (connected : t.device.mb.connected = true)
      (new : t.device.mb.socket ∉ s.device.log.opened)
      (opened : t.device.log.opened = insert t.device.mb.socket s.device.log.opened)

theorem watched_init {id : UInt8} {s t : Watched} {o : Outcomes}
    (taken : s.step id (.modbusInit o) = some t) :
    t.trace = s.trace ∧ t.device.driver.pc ≠ .loop ∧ s.Init t := by
  obtain ⟨stepped, trace⟩ := watched_step taken
  have same : t.trace = s.trace := by rw [trace]; exact List.append_nil _
  simp only [Device.step] at stepped
  split at stepped
  case isFalse => cases stepped
  case isTrue fresh =>
  obtain ⟨driver, moved, device⟩ := Option.map_eq_some_iff.mp stepped
  have driven : t.device.driver = driver := by rw [← device]
  rcases modbusConnect_cases o (modbusSetSlaveId id.toNat s.device.mb) s.device.log with
    kept | failed | ⟨valid, made⟩
  · simp only [modbusInit, kept] at moved device
    cases step_moves moved
    exact ⟨same, by rw [driven]; simp, .failed (by rw [driven]) (by rw [← device])⟩
  · simp only [modbusInit, failed] at moved device
    cases step_moves moved
    exact ⟨same, by rw [driven]; simp, .failed (by rw [driven]) (by rw [← device])⟩
  · simp only [modbusInit, made] at moved device
    cases step_moves moved
    refine ⟨same, by rw [driven]; simp, .made ?_ ?_ ?_⟩
    · rw [← device]
    · rw [← device]
      exact fresh.resolve_left valid
    · rw [← device]

structure Watched.Local (s t : Watched) (a : Act) : Prop where
  moved : Moves mitsubishi s.device.driver a t.device.driver
  trace : t.trace = s.trace
  mb : t.device.mb = s.device.mb
  log : t.device.log = s.device.log

theorem watched_local {s t : Watched} {b : Act}
    (stepped : (mitsubishi.step s.device.driver b).map (fun driver => { s.device with driver }) =
      some t.device)
    (trace : t.trace = s.trace ++ []) : s.Local t b := by
  obtain ⟨driver, moved, device⟩ := Option.map_eq_some_iff.mp stepped
  refine ⟨?_, trace.trans (List.append_nil _), by rw [← device], by rw [← device]⟩
  rw [← device]
  exact step_moves moved

def Watched.Closed (s : Watched) : Prop :=
  s.trace.getLast? = some (.received s.device.mb.socket 0)

def Leaving (d : State Data) : Prop :=
  d.bStop = true ∨ d.pc = .caught ∨ d.pc = .clear ∨ d.pc = .connect ∨ d.pc = .retry

/-- Past ModbusInit the socket in use is open, and when it is gone without an orderly
close the worker leaves. -/
structure Watched.Linked (s : Watched) : Prop where
  known : ∀ e ∈ s.trace, e.socket ∈ s.device.log.opened
  ready : s.device.driver.pc ≠ .connect → s.device.driver.pc ≠ .retry →
    s.device.mb.connected = true ∧ s.device.mb.socket ∈ s.device.log.opened
  leaves : s.Gone → s.Closed ∨ Leaving s.device.driver

theorem Watched.Linked.up {s : Watched} (linked : s.Linked) (here : s.device.driver.pc = .loop) :
    s.device.mb.connected = true ∧ s.device.mb.socket ∈ s.device.log.opened :=
  linked.ready (by simp [here]) (by simp [here])

theorem leaving_step {d e : State Data} {a : Act} (leaving : Leaving d)
    (moved : Moves mitsubishi d a e) (passive : a = .proceed ∨ a = .stop) : Leaving e := by
  have flag (other : d.pc = .test ∨ d.pc = .loop ∨ d.pc = .report ∨ d.pc = .sleep) :
      d.bStop = true := by
    rcases leaving with flag | caught | clear | connect | retry
    · exact flag
    all_goals simp_all
  cases moved with
  | connected | failed | read | thrown => simp at passive
  | entered here running => exact absurd (flag (.inl here)) (by simp [running])
  | left here stopped => exact .inl stopped
  | retried | cleared => exact .inr (.inr (.inr (.inl rfl)))
  | finished here => exact .inl (flag (.inr (.inl here)))
  | quiet here | delivered here | dropped here => exact .inl (flag (.inr (.inr (.inl here))))
  | slept here => exact .inl (flag (.inr (.inr (.inr here))))
  | caught | stopped => exact .inl rfl
  | reset => exact .inr (.inr (.inl rfl))

theorem past_step {d e : State Data} {a : Act} (moved : Moves mitsubishi d a e)
    (passive : a = .proceed ∨ a = .stop) (connect : e.pc ≠ .connect) (retry : e.pc ≠ .retry) :
    d.pc ≠ .connect ∧ d.pc ≠ .retry := by
  cases moved with
  | connected | failed | read | thrown => simp at passive
  | retried | cleared => exact absurd rfl connect
  | stopped => exact ⟨connect, retry⟩
  | entered here | left here | finished here | caught here | quiet here | delivered here
    | dropped here | slept here | reset here => simp [here]

theorem starts_pass {d e : State Data} (moved : Moves mitsubishi d .proceed e) :
    (e.pc = .loop ∧ e.i < 8) ↔ (d.pc = .test ∧ d.bStop = false) := by
  cases moved with
  | entered here running => simp [here, running]
  | left here stopped => simp [stopped]
  | retried here | finished here | caught here | quiet here | delivered here | dropped here
    | slept here | reset here | cleared here => simp [here]

theorem stop_keeps_place {d e : State Data} (moved : Moves mitsubishi d .stop e) :
    e.pc = d.pc ∧ e.i = d.i := by
  cases moved
  exact ⟨rfl, rfl⟩

section Local
variable {s t : Watched} {a : Act}

theorem local_gone (h : s.Local t a) : t.Gone ↔ s.Gone := by
  unfold Watched.Gone
  rw [h.trace, h.mb]

theorem local_linked (linked : s.Linked) (h : s.Local t a) (passive : a = .proceed ∨ a = .stop) :
    t.Linked := by
  refine ⟨?_, ?_, ?_⟩
  · rw [h.trace, h.log]
    exact linked.known
  · rw [h.mb, h.log]
    intro connect retry
    have past := past_step h.moved passive connect retry
    exact linked.ready past.1 past.2
  · intro gone
    rcases linked.leaves ((local_gone h).mp gone) with closed | leaving
    · left
      unfold Watched.Closed
      rw [h.trace, h.mb]
      exact closed
    · exact .inr (leaving_step leaving h.moved passive)

end Local

theorem read_gone {s t : Watched} {ret : Int} (present : ¬ s.Gone) (h : s.Read t ret) :
    t.Gone ↔ ret ≤ 0 := by
  have socket : t.device.mb.socket = s.device.mb.socket := by rw [h.mb]; rfl
  unfold Watched.Gone
  rw [h.trace, socket]
  constructor
  · rintro ⟨other, low, member⟩
    rcases List.mem_append.mp member with old | new
    · exact absurd ⟨other, low, old⟩ present
    · simp at new
      exact new ▸ low
  · intro low
    exact ⟨ret, low, by simp⟩

theorem read_closes {s t : Watched} (h : s.Read t 0) : t.Closed := by
  unfold Watched.Closed
  rw [h.trace, h.mb]
  simp [Modbus.stamped]

theorem linked_step (id : UInt8) (s : Watched) (a : Deed) (t : Watched) (linked : s.Linked)
    (good : s.Reconnects) (taken : s.step id a = some t) : t.Linked := by
  cases a with
  | proceed =>
    obtain ⟨stepped, trace⟩ := watched_step taken
    exact local_linked linked (watched_local stepped trace) (.inl rfl)
  | stop =>
    obtain ⟨stepped, trace⟩ := watched_step taken
    exact local_linked linked (watched_local stepped trace) (.inr rfl)
  | modbusInit o =>
    obtain ⟨trace, -, made⟩ := watched_init taken
    cases made with
    | failed pc opened =>
      refine ⟨?_, fun _ other => absurd pc other, fun _ => .inr (by simp [Leaving, pc])⟩
      rw [trace, opened]
      exact linked.known
    | made connected new opened =>
      refine ⟨?_, fun _ _ => ⟨connected, ?_⟩, ?_⟩
      · intro e member
        rw [opened]
        exact Finset.mem_insert_of_mem (linked.known e (trace ▸ member))
      · rw [opened]
        exact Finset.mem_insert_self _ _
      · rintro ⟨ret, -, member⟩
        have old := linked.known _ (trace ▸ member)
        exact absurd old new
  | modbusStart o =>
    have h := watched_read (fun here => (linked.up here).1) taken
    have here := h.here
    obtain ⟨up, socket⟩ := linked.up here.1
    have present : ¬ s.Gone := fun gone => good.left gone here
    refine ⟨?_, fun _ _ => ?_, fun gone => ?_⟩
    · rw [h.trace, h.opened]
      intro e member
      rcases List.mem_append.mp member with old | new
      · exact linked.known e old
      · have same : e.socket = s.device.mb.socket := by
          simp at new
          rcases new with rfl | rfl <;> rfl
        exact same ▸ socket
    · rw [h.mb, h.opened]
      exact ⟨up, socket⟩
    · have low := (read_gone present h).mp gone
      rcases Int.lt_or_eq_of_le low with failed | closed
      · exact .inr (.inr (.inl (h.failed failed)))
      · exact .inl (read_closes (closed ▸ h))

def NoClose (s : Watched) : Deed → Prop
  | .modbusStart o => (o.reply.take 1024).ret = 0 → s.device.driver.i = 7
  | .proceed => s.device.driver.pc = .test → s.device.driver.bStop = false → ¬ s.Closed
  | _ => True

theorem read_silent {s t : Watched} {ret : Int} (silent : s.trace.Pairwise Admits)
    (present : ¬ s.Gone) (h : s.Read t ret) : t.trace.Pairwise Admits := by
  rw [h.trace, List.pairwise_append]
  refine ⟨silent, by simp [Admits], ?_⟩
  intro e old f new socket ret' is_received low
  simp only [List.mem_cons, List.not_mem_nil, or_false] at new
  rcases new with rfl | rfl
  · intro same
    obtain rfl := Transfer.sent.inj same
    exact present ⟨ret', low, is_received ▸ old⟩
  · simp

/-- One step keeps the driver off gone sockets exactly if the peer does not close at a
place where the driver goes on. -/
theorem reconnects_step (id : UInt8) (s : Watched) (a : Deed) (t : Watched) (linked : s.Linked)
    (good : s.Reconnects) (taken : s.step id a = some t) : t.Reconnects ↔ NoClose s a := by
  cases a with
  | modbusInit o =>
    obtain ⟨trace, out, -⟩ := watched_init taken
    refine ⟨fun _ => trivial, fun _ => ⟨?_, fun _ inside => out inside.1⟩⟩
    rw [trace]
    exact good.silent
  | stop =>
    obtain ⟨stepped, trace⟩ := watched_step taken
    have h := watched_local stepped trace
    refine ⟨fun _ => trivial, fun _ => ⟨h.trace ▸ good.silent, fun gone inside => ?_⟩⟩
    have before := good.left ((local_gone h).mp gone)
    obtain ⟨pc, i⟩ := stop_keeps_place h.moved
    exact before ⟨pc ▸ inside.1, i ▸ inside.2⟩
  | modbusStart o =>
    have h := watched_read (fun here => (linked.up here).1) taken
    have present : ¬ s.Gone := fun gone => good.left gone h.here
    constructor
    · intro after closed
      have gone : t.Gone := (read_gone present h).mpr (Int.le_of_eq closed)
      obtain ⟨pc, i⟩ := h.closed closed
      have out := after.left gone
      have more := h.here.2
      rw [pc, i] at out
      simp only [true_and] at out
      omega
    · intro guard
      refine ⟨read_silent good.silent present h, fun gone inside => ?_⟩
      have low := (read_gone present h).mp gone
      rcases Int.lt_or_eq_of_le low with failed | closed
      · exact absurd inside.1 (by simp [h.failed failed])
      · have last : s.device.driver.i = 7 := guard closed
        have more := inside.2
        rw [(h.closed closed).2, last] at more
        exact absurd more (Nat.lt_irrefl 8)
  | proceed =>
    obtain ⟨stepped, trace⟩ := watched_step taken
    have h := watched_local stepped trace
    have starts := starts_pass h.moved
    constructor
    · intro after test running closed
      have gone : s.Gone := ⟨0, Int.le_refl 0, List.mem_of_getLast? closed⟩
      exact after.left ((local_gone h).mpr gone) (starts.mpr ⟨test, running⟩)
    · intro guard
      refine ⟨h.trace ▸ good.silent, fun gone inside => ?_⟩
      obtain ⟨test, running⟩ := starts.mp inside
      rcases linked.leaves ((local_gone h).mp gone) with closed | leaving
      · exact guard test running closed
      · simp [Leaving, test, running] at leaving

theorem linked_start (host : String) (port : UInt16) : (Watched.start host port).Linked where
  known _ member := absurd member List.not_mem_nil
  ready other := absurd rfl other
  leaves := fun ⟨_, _, member⟩ => absurd member List.not_mem_nil

theorem reconnects_start (host : String) (port : UInt16) : (Watched.start host port).Reconnects where
  silent := .nil
  left := fun ⟨_, _, member⟩ => absurd member List.not_mem_nil

/-- A gone socket is never used again exactly if Recv returns 0 nowhere but for the last
register of a pass, with a stop request stored before the next test. -/
theorem gone_sockets_left_iff (id : UInt8) (host : String) (port : UInt16) (as : List Deed) :
    Always (Watched.step id) Watched.Reconnects (Watched.start host port) as ↔
      Guarded (Watched.step id) NoClose (Watched.start host port) as :=
  always_iff_guarded
    (fun s a t linked good taken _ => linked_step id s a t linked good taken)
    (reconnects_step id) (linked_start host port) (reconnects_start host port) as

def closedBetween : List Deed :=
  [.modbusInit (replied .failed), .proceed, .modbusStart (replied (.bytes [])),
    .modbusStart (replied (.bytes []))]

/-- The second register is asked for on the socket that the peer has closed. -/
theorem request_after_close :
    ¬ Always (Watched.step 1) Watched.Reconnects (Watched.start "192.168.1.10" 502) closedBetween := by
  intro always
  obtain ⟨t, run, trace⟩ : ∃ t,
      exec (Watched.step 1) (Watched.start "192.168.1.10" 502) closedBetween = some t ∧
        t.trace = [.sent 8, .received 8 0, .sent 8, .received 8 0] := ⟨_, rfl, rfl⟩
  have silent := (always_end always run).silent
  rw [trace] at silent
  have later := (List.pairwise_cons.mp (List.pairwise_cons.mp silent).2).1
  exact later (.sent 8) (by simp) 8 0 rfl (Int.le_refl 0) rfl

end DevAccess.Poll
