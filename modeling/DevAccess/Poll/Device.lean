import DevAccess.Poll.Driver
import DevAccess.ModbusTcp.Connection
import DevAccess.ModbusTcp.Server
import Mathlib.Data.Fintype.EquivFin

/-! A poller on its Modbus object: where the outcomes of ModbusInit and ModbusStart come
from. Every run of the two together is a run of the worker, and the socket layer can
give every outcome that the worker is analysed under. -/
namespace DevAccess.Poll
open Foundation ModbusTcp

variable {σ : Type}

def modbusInit (p : Platform σ) (id : Int) (m : Modbus) (w : σ) : Bool × Modbus × σ :=
  modbusConnect p (modbusSetSlaveId id m) w

/-- The catch throws a copy of the base part again. -/
def modbusStart (p : Platform σ) (address : Int) (m : Modbus) (w : σ) :
    Except Exn UInt16 × Modbus × σ :=
  let r := modbusReadHoldingRegisters p address 1 (CArray.fresh 1 (fun _ => 0)) m w
  match r.outcome with
  | .error e => (.error e.rethrown, r.modbus, r.world)
  | .ok _ => (.ok (r.buffer.cell 0), r.modbus, r.world)

structure Device where
  driver : State Data
  mb : Modbus
  log : Log

def Device.start (host : String) (port : UInt16) : Device :=
  ⟨State.start, Modbus.make host port, ⟨[], ∅⟩⟩

inductive Deed where
  | modbusInit (o : Outcomes)
  | modbusStart (o : Outcomes)
  | proceed
  | stop

def Device.step (id : UInt8) (s : Device) : Deed → Option Device
  | .modbusInit o =>
    if o.Fresh s.log.opened then
      let (ok, mb, log) := Poll.modbusInit (scripted o) id.toNat s.mb s.log
      (mitsubishi.step s.driver (.modbusInit ok)).map (fun driver => ⟨driver, mb, log⟩)
    else none
  | .modbusStart o =>
    if h : s.driver.i < 8 then
      let (value, mb, log) := Poll.modbusStart (scripted o) intSet[s.driver.i] s.mb s.log
      (mitsubishi.step s.driver (.modbusStart value.toOption)).map (fun driver => ⟨driver, mb, log⟩)
    else none
  | .proceed => (mitsubishi.step s.driver .proceed).map (fun driver => { s with driver })
  | .stop => (mitsubishi.step s.driver .stop).map (fun driver => { s with driver })

theorem device_step_driver (id : UInt8) (s : Device) (a : Deed) (t : Device)
    (taken : s.step id a = some t) : ∃ b, mitsubishi.step s.driver b = some t.driver := by
  have projected {b : Act} {build : State Data → Device} (same : ∀ q, (build q).driver = q)
      (h : (mitsubishi.step s.driver b).map build = some t) :
      ∃ b, mitsubishi.step s.driver b = some t.driver := by
    obtain ⟨q, matched, rfl⟩ := Option.map_eq_some_iff.mp h
    exact ⟨b, by rw [same]; exact matched⟩
  cases a with
  | modbusInit o =>
    simp only [Device.step] at taken
    split at taken
    case isTrue => exact projected (fun _ => rfl) taken
    case isFalse => cases taken
  | modbusStart o =>
    simp only [Device.step] at taken
    split at taken
    case isTrue => exact projected (fun _ => rfl) taken
    case isFalse => cases taken
  | proceed => exact projected (fun _ => rfl) taken
  | stop => exact projected (fun _ => rfl) taken

/-- Forgetting the Modbus object turns every run of the device into one of the worker. -/
theorem device_refines (id : UInt8) {s t : Device} {as : List Deed}
    (run : exec (Device.step id) s as = some t) :
    ∃ bs, exec mitsubishi.step s.driver bs = some t.driver :=
  exec_refines Device.driver (device_step_driver id) run

theorem modbusStart_eq (p : Platform σ) {address : Int} {m : Modbus} (w : σ)
    (connected : m.connected = true) (within : address ≤ 65535) :
    modbusStart p address m w =
      let got := answer p m w (readRequest (p.memory w) m address 1 .readRegs) 12
      (match verdict .readRegs got.1 with
        | .error e => .error e.rethrown
        | .ok _ => .ok (registerAt (examined (p.memory w) .readRegs got.1).cell 0),
        m.stamped, got.2) := by
  have bounds : address ≤ 65535 ∧ (1 : Int) ≤ 65535 := ⟨within, by decide⟩
  have eq := readOperation_eq p .readRegs takeRegister (CArray.fresh 1 (fun _ => (0 : UInt16))) w
    connected bounds
  simp only [modbusStart, modbusReadHoldingRegisters, eq]
  cases verdict .readRegs _ with
  | error e => rfl
  | ok u => rfl

def holding (v : UInt16) (m : Modbus) (address : Int) : Outcomes :=
  let request := (readRequest (replied .failed).memory m address 1 .readRegs).contents 12
  replied (.bytes (encodeReply request (.registers [v])))

theorem modbusStart_holding (v : UInt16) {address : Int} {m : Modbus} (w : Log)
    (connected : m.connected = true) (within : address ≤ 65535) :
    (modbusStart (scripted (holding v m address)) address m w).1 = .ok v ∧
      (modbusStart (scripted (holding v m address)) address m w).2.1 = m.stamped := by
  have eq := modbusStart_eq (scripted (holding v m address)) w connected within
  have value : (modbusStart (scripted (holding v m address)) address m w).1 =
      .ok (joined (hiByte v.toNat) (loByte v.toNat)) := congrArg Prod.fst eq
  rw [joined_bytes] at value
  exact ⟨value, congrArg (fun r => r.2.1) eq⟩

theorem modbusStart_failed {address : Int} {m : Modbus} (w : Log)
    (connected : m.connected = true) (within : address ≤ 65535) :
    (modbusStart (scripted (replied .failed)) address m w).1 = .error .stdException ∧
      (modbusStart (scripted (replied .failed)) address m w).2.1 = m.stamped := by
  have eq := modbusStart_eq (scripted (replied .failed)) w connected within
  exact ⟨congrArg Prod.fst eq, congrArg (fun r => r.2.1) eq⟩

theorem intSet_addresses : ∀ k : Fin 8, intSet.get k ≤ 65535 := by decide

theorem intSet_within {i : Nat} (h : i < 8) : intSet[i] ≤ 65535 := intSet_addresses ⟨i, h⟩

/-- The object has somewhere to connect to, and is connected whenever the worker is past
ModbusInit. -/
structure Usable (s : Device) : Prop where
  host : s.mb.host ≠ ""
  port : s.mb.port ≠ 0
  connected : s.driver.pc ≠ .connect → s.driver.pc ≠ .retry → s.mb.connected = true

theorem modbusInit_fails (id : Int) (m : Modbus) (w : Log) :
    modbusInit (scripted { replied .failed with ready := false, handle := -1 }) id m w =
      (false, modbusSetSlaveId id m, w) := by
  simp [modbusInit, modbusConnect, scripted]

theorem modbusInit_succeeds (id : Int) {m : Modbus} (w : Log) (busy : Finset Int)
    (host : m.host ≠ "") (port : m.port ≠ 0) :
    ∃ o : Outcomes, o.Fresh busy ∧ (modbusInit (scripted o) id m w).1 = true ∧
      (modbusInit (scripted o) id m w).2.1.host = m.host ∧
      (modbusInit (scripted o) id m w).2.1.port = m.port ∧
      (modbusInit (scripted o) id m w).2.1.connected = true := by
  obtain ⟨handle, free⟩ := Infinite.exists_notMem_finset (insert (-1) busy)
  rw [Finset.mem_insert, not_or] at free
  refine ⟨{ replied .failed with handle }, .inr free.2, ?_⟩
  simp [modbusInit, modbusConnect, modbusSetSlaveId, scripted, replied, host, port, free.1]

theorem step_init (id : UInt8) {s : Device} {o : Outcomes} {ok : Bool} {r : State Data}
    (fresh : o.Fresh s.log.opened) (given : (modbusInit (scripted o) id.toNat s.mb s.log).1 = ok)
    (taken : mitsubishi.step s.driver (.modbusInit ok) = some r) :
    s.step id (.modbusInit o) =
      some ⟨r, (modbusInit (scripted o) id.toNat s.mb s.log).2.1,
        (modbusInit (scripted o) id.toNat s.mb s.log).2.2⟩ := by
  simp only [Device.step, if_pos fresh, given, taken, Option.map_some]

theorem step_read (id : UInt8) {s : Device} {o : Outcomes} {v : Option UInt16} {r : State Data}
    (more : s.driver.i < 8)
    (given : (modbusStart (scripted o) intSet[s.driver.i] s.mb s.log).1.toOption = v)
    (taken : mitsubishi.step s.driver (.modbusStart v) = some r) :
    s.step id (.modbusStart o) =
      some ⟨r, (modbusStart (scripted o) intSet[s.driver.i] s.mb s.log).2.1,
        (modbusStart (scripted o) intSet[s.driver.i] s.mb s.log).2.2⟩ := by
  simp only [Device.step, dif_pos more, given, taken, Option.map_some]

theorem device_step_realised (id : UInt8) (s : Device) (b : Act) (r : State Data) (usable : Usable s)
    (taken : mitsubishi.step s.driver b = some r) :
    ∃ a t, s.step id a = some t ∧ t.driver = r ∧ Usable t := by
  obtain ⟨host, port, connected⟩ := usable
  have moves := step_moves taken
  cases b with
  | proceed =>
    refine ⟨.proceed, { s with driver := r }, by simp [Device.step, taken], rfl, host, port, ?_⟩
    cases moves with
    | retried | cleared => exact fun other _ => absurd rfl other
    | entered here | left here | finished here | caught here | quiet here | delivered here
      | dropped here | slept here | reset here =>
      exact fun _ _ => connected (by simp [here]) (by simp [here])
  | stop =>
    refine ⟨.stop, { s with driver := r }, by simp [Device.step, taken], rfl, host, port, ?_⟩
    cases moves
    exact connected
  | modbusInit ok =>
    cases ok with
    | false =>
      have failed := modbusInit_fails id.toNat s.mb s.log
      refine ⟨_, _, step_init id (.inl rfl) (congrArg Prod.fst failed) taken, rfl, ?_⟩
      rw [failed]
      refine ⟨host, port, ?_⟩
      cases moves
      exact fun _ other => absurd rfl other
    | true =>
      obtain ⟨o, fresh, ok, host', port', connected'⟩ :=
        modbusInit_succeeds id.toNat s.log s.log.opened host port
      refine ⟨_, _, step_init id fresh ok taken, rfl, ?_⟩
      exact ⟨by rw [host']; exact host, by rw [port']; exact port, fun _ _ => connected'⟩
  | modbusStart v =>
    have ⟨here, more⟩ : s.driver.pc = .loop ∧ s.driver.i < 8 := by
      cases moves with
      | read here more => exact ⟨here, more⟩
      | thrown here more => exact ⟨here, more⟩
    have ready : s.mb.connected = true := connected (by simp [here]) (by simp [here])
    have within := intSet_within more
    cases v with
    | none =>
      have got := modbusStart_failed s.log ready within
      refine ⟨_, _, step_read id more (congrArg Except.toOption got.1) taken, rfl, ?_⟩
      rw [got.2]
      exact ⟨host, port, fun _ _ => ready⟩
    | some v =>
      have got := modbusStart_holding v s.log ready within
      refine ⟨_, _, step_read id more (congrArg Except.toOption got.1) taken, rfl, ?_⟩
      rw [got.2]
      exact ⟨host, port, fun _ _ => ready⟩

/-- Every run of the worker is one of the device, for any host and port that are set. -/
theorem device_realises (id : UInt8) {host : String} {port : UInt16} (named : host ≠ "")
    (bound : port ≠ 0) {bs : List Act} {r : State Data}
    (run : exec mitsubishi.step State.start bs = some r) :
    ∃ as t, exec (Device.step id) (Device.start host port) as = some t ∧ t.driver = r := by
  have usable : Usable (Device.start host port) := ⟨named, bound, fun other => absurd rfl other⟩
  obtain ⟨as, t, made, same, -⟩ := exec_realises Device.driver Usable
    (device_step_realised id) usable (s := Device.start host port) run
  exact ⟨as, t, made, same⟩

end DevAccess.Poll
