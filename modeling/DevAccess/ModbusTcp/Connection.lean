import DevAccess.ModbusTcp.Replies
import DevAccess.Foundation.Run
import Mathlib.Data.Finset.Basic

/-! The life of one Modbus object: connecting, closing and calling in any order, and
the sockets it leaves open. -/
namespace DevAccess.ModbusTcp
open Foundation

inductive Op where
  | connect
  | close
  | call (c : Call)

structure Act where
  op : Op
  outcomes : Outcomes

/-- up is no field of the object. It records whether the last ModbusConnect or
ModbusClose was a ModbusConnect that succeeded. -/
structure Session where
  modbus : Modbus
  log : Log
  up : Bool

def Session.start (host : String) (port : UInt16) : Session := ⟨Modbus.make host port, ⟨[], ∅⟩, false⟩

def Outcomes.Fresh (o : Outcomes) (opened : Finset Int) : Prop := o.handle = -1 ∨ o.handle ∉ opened

instance (o : Outcomes) (opened : Finset Int) : Decidable (o.Fresh opened) :=
  inferInstanceAs (Decidable (_ ∨ _))

def Session.step (s : Session) (a : Act) : Option Session :=
  match a.op with
  | .connect =>
    if a.outcomes.Fresh s.log.opened then
      let (ok, modbus, log) := modbusConnect (scripted a.outcomes) s.modbus s.log
      some ⟨modbus, log, ok⟩
    else none
  | .close =>
    let (modbus, log) := modbusClose (scripted a.outcomes) s.modbus s.log
    some ⟨modbus, log, false⟩
  | .call c =>
    let r := c.perform (scripted a.outcomes) s.modbus s.log
    some ⟨r.modbus, r.world, s.up⟩

/-- The open sockets are the one in use while connected, and none otherwise. After a close
or a failed connect every operation is refused. -/
structure Session.Tidy (s : Session) : Prop where
  sockets : s.log.opened = if s.modbus.connected then {s.modbus.socket} else ∅
  refused : s.up = false → ∀ (c : Call) (o : Outcomes),
    (c.perform (scripted o) s.modbus s.log).outcome = .error .modbusConnectException

/-- An operation keeps the connection: of the object it changes the message id alone,
and it opens and closes nothing. -/
theorem Call.perform_keeps (o : Outcomes) (m : Modbus) (w : Log) (c : Call) :
    ((c.perform (scripted o) m w).modbus = m ∨ (c.perform (scripted o) m w).modbus = m.stamped) ∧
      (c.perform (scripted o) m w).world.opened = w.opened := by
  have still {e : Exn} (h : Aborted (scripted o) m w c e) :
      (c.perform (scripted o) m w).modbus = m ∧ (c.perform (scripted o) m w).world.opened = w.opened :=
    ⟨h.modbus, by rw [h.world]⟩
  cases connected : m.connected with
  | false =>
    have h := still (c.perform_disconnected (scripted o) w connected)
    exact ⟨.inl h.1, h.2⟩
  | true =>
    by_cases accepted : c.Accepted
    · have ends : c.Ends (scripted o) m w (c.request o.memory m) :=
        Call.perform_ends (scripted o) w connected accepted
      cases hr : c.request o.memory m with
      | error e =>
        rw [hr] at ends
        have h := still ends
        exact ⟨.inl h.1, h.2⟩
      | ok r =>
        rw [hr] at ends
        have h : Exchanged (scripted o) m w c r := ends
        have opened := congrArg Log.opened h.world
        exact ⟨.inr h.modbus, opened⟩
    · have h := still (Call.perform_rejected (scripted o) w connected accepted)
      exact ⟨.inl h.1, h.2⟩

theorem modbusConnect_cases (o : Outcomes) (m : Modbus) (w : Log) :
    modbusConnect (scripted o) m w = (false, m, w) ∨
      modbusConnect (scripted o) m w = (false, { m with socket := -1 }, w) ∨
      (o.handle ≠ -1 ∧ modbusConnect (scripted o) m w =
        (true, { m with socket := o.handle, connected := true },
          { w with opened := insert o.handle w.opened })) := by
  unfold modbusConnect
  by_cases missing : m.host = "" ∨ m.port = 0
  · exact .inl (if_pos missing)
  · cases ready : o.ready with
    | false => exact .inl (by simp [missing, scripted, ready])
    | true =>
      by_cases failed : o.handle = -1
      · exact .inr (.inl (by simp [missing, scripted, ready, failed]))
      · exact .inr (.inr ⟨failed, by simp [missing, scripted, ready, failed]⟩)

theorem refused_iff (m : Modbus) (w : Log) :
    (∀ (c : Call) (o : Outcomes),
        (c.perform (scripted o) m w).outcome = .error .modbusConnectException) ↔
      m.connected = false := by
  constructor
  · intro refused
    by_contra connected
    have amount := Call.perform_rejected (scripted (replied .failed)) w
      (c := .writeCoil 65536 true) (Bool.eq_true_of_not_eq_false connected) (by decide)
    have connect := refused (.writeCoil 65536 true) (replied .failed)
    rw [amount.outcome] at connect
    cases connect
  · intro disconnected c o
    exact (c.perform_disconnected (scripted o) w disconnected).outcome

theorem tidy_iff (s : Session) :
    s.Tidy ↔ s.log.opened = (if s.modbus.connected then {s.modbus.socket} else ∅) ∧
      (s.up = false → s.modbus.connected = false) := by
  have refused := refused_iff s.modbus s.log
  constructor
  · exact fun tidy => ⟨tidy.sockets, fun down => refused.mp (tidy.refused down)⟩
  · exact fun h => ⟨h.1, fun down => refused.mpr (h.2 down)⟩

theorem tidy_start (host : String) (port : UInt16) : (Session.start host port).Tidy :=
  (tidy_iff _).mpr ⟨rfl, fun _ => rfl⟩

def Session.Safe (s : Session) (a : Act) : Prop :=
  (∃ c, a.op = .call c) ∨ s.modbus.connected = false

/-- One step from a tidy state ends in a tidy state exactly if it is safe. -/
theorem tidy_step (s : Session) (a : Act) (t : Session) (tidy : s.Tidy)
    (taken : s.step a = some t) : t.Tidy ↔ s.Safe a := by
  obtain ⟨op, o⟩ := a
  obtain ⟨sockets, down⟩ := (tidy_iff s).mp tidy
  rw [tidy_iff]
  cases op with
  | call c =>
    obtain ⟨modbus, opened⟩ := c.perform_keeps o s.modbus s.log
    cases Option.some.inj taken
    have safe : s.Safe ⟨.call c, o⟩ := .inl ⟨c, rfl⟩
    refine ⟨fun _ => safe, fun _ => ?_⟩
    rcases modbus with same | stamped
    · simp only [same, opened]
      exact ⟨sockets, down⟩
    · simp only [stamped, opened]
      exact ⟨sockets, down⟩
  | close =>
    have exact_safe : s.Safe ⟨.close, o⟩ ↔ s.modbus.connected = false := by simp [Session.Safe]
    cases Option.some.inj taken
    rw [exact_safe]
    constructor
    · intro after
      exact after.2 rfl
    · intro disconnected
      simp only [disconnected, Bool.false_eq_true, if_false] at sockets
      simp [scripted, disconnected, sockets]
  | connect =>
    have exact_safe : s.Safe ⟨.connect, o⟩ ↔ s.modbus.connected = false := by simp [Session.Safe]
    simp only [Session.step] at taken
    split at taken
    case isFalse => cases taken
    case isTrue fresh =>
    cases Option.some.inj taken
    rw [exact_safe]
    rcases modbusConnect_cases o s.modbus s.log with same | failed | ⟨valid, made⟩
    · simp only [same]
      constructor
      · exact fun after => after.2 trivial
      · exact fun disconnected => ⟨sockets, fun _ => disconnected⟩
    · simp only [failed]
      constructor
      · exact fun after => after.2 trivial
      · intro disconnected
        simp only [disconnected, Bool.false_eq_true, if_false] at sockets ⊢
        exact ⟨sockets, fun _ => trivial⟩
    · simp only [made, if_true, Bool.true_eq_false, false_implies, and_true]
      constructor
      · intro after
        by_contra connected
        have connected : s.modbus.connected = true := Bool.eq_true_of_not_eq_false connected
        have new : o.handle ∉ s.log.opened := fresh.resolve_left valid
        have old : s.modbus.socket ∈ s.log.opened := by simp [sockets, connected]
        have both : s.modbus.socket ∈ ({o.handle} : Finset Int) := after ▸ Finset.mem_insert_of_mem old
        rw [Finset.mem_singleton] at both
        exact new (both ▸ old)
      · intro disconnected
        simp [sockets, disconnected]

/-- The connection invariant holds all along a run exactly if ModbusConnect and
ModbusClose are only called while the object is not connected. -/
theorem connection_tidy_iff (host : String) (port : UInt16) (as : List Act) :
    Always Session.step Session.Tidy (Session.start host port) as ↔
      Guarded Session.step Session.Safe (Session.start host port) as :=
  always_iff_guarded (I := fun _ => True) (fun _ _ _ _ _ _ _ => trivial)
    (fun s a t _ tidy taken => tidy_step s a t tidy taken) trivial (tidy_start host port) as

def connects (handle : Int) : Act := ⟨.connect, { replied .failed with handle }⟩

/-- A reconnection leaks the previous socket, and a closed object still counts as connected. -/
theorem reconnect_leaks :
    ¬ Always Session.step Session.Tidy (Session.start "192.168.1.10" 502) [connects 7, connects 8] ∧
      ¬ Always Session.step Session.Tidy (Session.start "192.168.1.10" 502)
        [connects 7, ⟨.close, replied .failed⟩] := by
  constructor
  · intro always
    have tidy := always_end (t := ⟨_, ⟨[], {8, 7}⟩, true⟩) always rfl
    have leak : ({8, 7} : Finset Int) = {8} := tidy.sockets
    exact absurd leak (by decide)
  · intro always
    have tidy := always_end (t := ⟨_, ⟨[], ∅⟩, false⟩) always rfl
    have gone : (∅ : Finset Int) = {7} := tidy.sockets
    exact absurd gone (by decide)

end DevAccess.ModbusTcp
