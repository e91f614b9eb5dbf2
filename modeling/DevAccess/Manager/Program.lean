import DevAccess.Config.Files
import DevAccess.Config.Numbers
import DevAccess.Foundation.Threads
import DevAccess.Mes.DbHelper

/-! The whole program: DevManager::Start, and after it the poll threads, which all report to the
one database. A step is one of DoStart, or one InsertToSvr of a DoEventProcess that m_fn is in. -/
namespace DevAccess.Manager
open Foundation Poll Mes Config

def fx3u : Driver Message := mitsubishiFx3u32m.messages .mitsubishi

/-- A poll thread: its driver with the Modbus object, and the calls of InsertToSvr that are left in
the call of m_fn it is in, none where the event is of a foreign structure. -/
structure Worker where
  index : Nat
  driver : Driver Message
  id : UInt8
  state : Poll.State Message
  mb : ModbusTcp.Modbus
  log : ModbusTcp.Log
  calls : Option (List Insert)
  -- The rest is history: how many registers were read, and how many connects came through.
  reads : Nat
  connects : Nat

def insertsOf (e : Message) : Option (List Insert) := doEventProcess e.type e.payload

def Worker.Reporting (w : Worker) : Prop :=
  w.state.pc = .report ∧ w.state.update = true ∧ w.driver.poller.registered = true

instance (w : Worker) : Decidable w.Reporting := inferInstanceAs (Decidable (_ ∧ _ ∧ _))

def Worker.called (w : Worker) : Option (List Insert) :=
  if w.Reporting then insertsOf (w.driver.poller.payload w.state.oldValue) else some []

/-- A step of DoStart. main never comes to m->Stop(). -/
def Worker.poll (handles : Finset Int) (w : Worker) : Deed → Option Worker
  | .modbusInit o =>
    if o.Fresh handles then
      let (ok, mb, log) := Poll.modbusInit (ModbusTcp.scripted o) w.id.toNat w.mb w.log
      (w.driver.step w.state (.modbusInit ok)).map fun state =>
        { w with state, mb, log, connects := if ok then w.connects + 1 else w.connects }
    else none
  | .modbusStart o =>
    if h : w.state.i < 8 then
      let (value, mb, log) := Poll.modbusStart (ModbusTcp.scripted o) intSet[w.state.i] w.mb w.log
      (w.driver.step w.state (.modbusStart value.toOption)).map fun state =>
        { w with state, mb, log, reads := w.reads + 1 }
    else none
  | .proceed => (w.driver.step w.state .proceed).map fun state => { w with state, calls := w.called }
  | .stop => none

/-- Recv takes up to 1024 bytes, and to_rec has room for 260. -/
def Worker.Overruns (w : Worker) : Deed → Prop
  | .modbusStart o => w.mb.connected = true ∧
      ModbusTcp.maxMsgLength < (o.reply.take 1024).data.length
  | _ => False

instance (w : Worker) (d : Deed) : Decidable (w.Overruns d) := by
  cases d <;> unfold Worker.Overruns <;> infer_instance

/-- What has become of the process: an exception that leaves a thread ends it, and so does a null
pointer. Nothing is known of it behind pSt or to_rec, in a foreign structure, or when the text or
the time of a report could not be made. -/
inductive Fate where
  | running
  | terminated (e : Thrown)
  | nullSession
  | stray
  deriving DecidableEq

structure Row where
  index : Nat
  insert : Insert
  now : Tm

structure Shared where
  db : DbHelper
  handles : Finset Int
  rows : List Row
  fate : Fate

section Step
variable (gbkToUTF8 : CText → CText)

def insertToSvr (m : Shared) (w : Worker) (now : Tm) (x : Executing) : Option (Shared × Worker) :=
  match w.calls with
  | none => some ({ m with fate := .stray }, w)
  | some [] => none
  | some (i :: rest) =>
    match val i.value with
    | none => some ({ m with fate := .stray }, w)
    | some v =>
      match m.db.insertData gbkToUTF8 now i.key.toList v x with
      | (db, .returned) => some ({ m with db, rows := m.rows ++ [⟨w.index, i, now⟩] },
        { w with calls := some rest })
      | (db, .threw e) => some ({ m with db, fate := .terminated e }, w)
      | (db, .nullSession) => some ({ m with db, fate := .nullSession }, w)

/-- A thread goes on with DoStart or with DoEventProcess. The DevInfo of a report has host as its
format, which points into a conf that is gone, and localtime may give no time: neither need come
back. -/
inductive Turn where
  | poll (d : Deed)
  | unstamped
  | insert (now : Tm) (x : Executing)

def turn (m : Shared) (w : Worker) : Turn → Option (Shared × Worker)
  | .poll d =>
    if m.fate = .running ∧ w.calls = some [] then
      (w.poll m.handles d).map fun w' =>
        if w.Overruns d then ({ m with fate := .stray }, w)
        else ({ m with handles := m.handles ∪ w'.log.opened }, w')
    else none
  | .unstamped =>
    if m.fate = .running ∧ w.calls = some [] ∧ w.Reporting then
      some ({ m with fate := .stray }, w)
    else none
  | .insert now x => if m.fate = .running then insertToSvr gbkToUTF8 m w now x else none

end Step

abbrev Program (n : Nat) := Threads (Fin n) Shared Worker

/-- A driver object with a thread, on the fields of the entry. It is not known what becomes of an
interval that is no int in milliseconds, or of an address without a zero behind it. -/
def Worker.new (index : Nat) (driver : Driver Message) (conf : PlcConf) : Option Worker := do
  let d ← ModbusDev.new conf
  let host ← CText.cString conf.szIpAddr
  return ⟨index, driver, d.id, State.start, ModbusTcp.Modbus.make (String.ofList host) d.PORT,
    ⟨[], ∅⟩, some [], 0, 0⟩

/-- CreatePlcDev and Start for the entries in turn: those that get a poll thread. -/
def workers : Nat → List PlcConf → Option (List Worker)
  | _, [] => some []
  | k, conf :: rest =>
    match (createDev conf).bind PlcDev.doStart with
    | none => workers k rest
    | some driver => do
      let w ← Worker.new k driver conf
      let ws ← workers (k + 1) rest
      return w :: ws

def launch (db : DbHelper) (ws : List Worker) : Program ws.length := ⟨⟨db, ∅, [], .running⟩, ws.get⟩

def mesSvrStart (conf : SqlConf) (c : Connecting) : Option (Except Thrown DbHelper) := do
  let user ← CText.cString conf.szUser
  let pwd ← CText.cString conf.szPwd
  let dbname ← CText.cString conf.szDbName
  let dns ← CText.cString conf.szDnsName
  return mesSvrInit user pwd dbname dns c

inductive Started where
  | failed (ret : Int)
  | threw (e : Thrown)
  | running (db : DbHelper) (ws : List Worker)

/-- DevManager::Start on a file with this content. The drivers of the sql section do nothing. -/
def start (file : Option CText) (c : Connecting) : Xml.Call (Option Started) := do
  let (config, ret) ← ConfigHelper.new.initFile file
  if ret ≠ 0 then return some (.failed ret)
  return do
    match ← mesSvrStart config.m_svrConf c with
    | .error e => some (.threw e)
    | .ok db => (workers 0 config.m_plcLst).map (.running db)

section Turns
variable {gbkToUTF8 : CText → CText} {m m' : Shared} {w w' : Worker} {handles : Finset Int}

/-- Everything a step of DoStart can do. -/
inductive Polled (handles : Finset Int) (w : Worker) : Deed → Worker → Prop
  | connecting {o : ModbusTcp.Outcomes} {ok : Bool} {mb : ModbusTcp.Modbus} {log : ModbusTcp.Log}
      {state : Poll.State Message} (fresh : o.Fresh handles)
      (given : Poll.modbusInit (ModbusTcp.scripted o) w.id.toNat w.mb w.log = (ok, mb, log))
      (taken : w.driver.step w.state (.modbusInit ok) = some state) :
      Polled handles w (.modbusInit o)
        { w with state, mb, log, connects := if ok then w.connects + 1 else w.connects }
  | reading {o : ModbusTcp.Outcomes} {value : Except ModbusTcp.Exn UInt16} {mb : ModbusTcp.Modbus}
      {log : ModbusTcp.Log} {state : Poll.State Message} (more : w.state.i < 8)
      (given : Poll.modbusStart (ModbusTcp.scripted o) intSet[w.state.i] w.mb w.log =
        (value, mb, log))
      (taken : w.driver.step w.state (.modbusStart value.toOption) = some state) :
      Polled handles w (.modbusStart o) { w with state, mb, log, reads := w.reads + 1 }
  | going {state : Poll.State Message} (taken : w.driver.step w.state .proceed = some state) :
      Polled handles w .proceed { w with state, calls := w.called }

theorem poll_polled {d : Deed} (polled : w.poll handles d = some w') : Polled handles w d w' := by
  cases d with
  | modbusInit o =>
    rw [Worker.poll] at polled
    split at polled
    · rename_i fresh
      obtain ⟨state, taken, rfl⟩ := Option.map_eq_some_iff.mp polled
      exact .connecting fresh rfl taken
    · cases polled
  | modbusStart o =>
    rw [Worker.poll] at polled
    split at polled
    · rename_i more
      obtain ⟨state, taken, rfl⟩ := Option.map_eq_some_iff.mp polled
      exact .reading more rfl taken
    · cases polled
  | proceed =>
    obtain ⟨state, taken, rfl⟩ := Option.map_eq_some_iff.mp polled
    exact .going taken
  | stop => cases polled

def Stops (m : Shared) (w : Worker) : Turn → Prop
  | .poll d => w.calls = some [] ∧ w.Overruns d ∧ ∃ w', Polled m.handles w d w'
  | .unstamped => w.calls = some [] ∧ w.Reporting
  | .insert _ x => w.calls = none ∨ ∃ i rest, w.calls = some (i :: rest) ∧
      (val i.value = none ∨ ¬ (m.db.m_ses = true ∧ x.Quiet))

/-- Everything a turn of a thread can do. -/
inductive Turned (gbkToUTF8 : CText → CText) (m : Shared) (w : Worker) : Turn → Shared → Worker → Prop
  | polled {d : Deed} {w' : Worker} (running : m.fate = .running) (returned : w.calls = some [])
      (inside : ¬ w.Overruns d) (step : Polled m.handles w d w') :
      Turned gbkToUTF8 m w (.poll d) { m with handles := m.handles ∪ w'.log.opened } w'
  | stored {now : Tm} {x : Executing} {i : Insert} {rest : List Insert} {v : CText}
      (running : m.fate = .running)
      (calls : w.calls = some (i :: rest)) (shown : val i.value = some v)
        (session : m.db.m_ses = true) (quiet : x.Quiet) :
      Turned gbkToUTF8 m w (.insert now x)
        { m with
          db := { m.db with executed := m.db.executed ++ [insertSql gbkToUTF8 now i.key.toList v] }
          rows := m.rows ++ [⟨w.index, i, now⟩] }
        { w with calls := some rest }
  | stopped {o : Turn} {fate : Fate} (running : m.fate = .running) (other : fate ≠ .running)
      (cause : Stops m w o) : Turned gbkToUTF8 m w o { m with fate } w

theorem insertData_cases (gbkToUTF8 : CText → CText) (db : DbHelper) (now : Tm) (key v : CText)
    (x : Executing) :
    (db.m_ses = true ∧ x.Quiet ∧ db.insertData gbkToUTF8 now key v x =
      ({ db with executed := db.executed ++ [insertSql gbkToUTF8 now key v] }, .returned)) ∨
    (¬ (db.m_ses = true ∧ x.Quiet) ∧ ∃ ended, ended ≠ .returned ∧
      db.insertData gbkToUTF8 now key v x = (db, ended)) := by
  obtain ⟨statement, execute⟩ := x
  unfold DbHelper.insertData DbHelper.inserting Executing.Quiet
  cases session : db.m_ses with
  | false => exact .inr ⟨(fun both => by cases both.1), .nullSession, by simp, rfl⟩
  | true =>
    cases statement with
    | some what => exact .inr ⟨(fun both => by cases both.2.1), .threw (.object what), by simp, rfl⟩
    | none =>
      cases execute with
      | some what => exact .inr ⟨(fun both => by cases both.2.2), .threw (.object what), by simp, rfl⟩
      | none => exact .inl ⟨rfl, ⟨rfl, rfl⟩, rfl⟩

theorem insertToSvr_turned {now : Tm} {x : Executing} (running : m.fate = .running)
    (inserted : insertToSvr gbkToUTF8 m w now x = some (m', w')) :
    Turned gbkToUTF8 m w (.insert now x) m' w' := by
  unfold insertToSvr at inserted
  split at inserted
  · rename_i foreign
    cases inserted
    exact .stopped running (by simp) (.inl foreign)
  · cases inserted
  · rename_i i rest calls
    split at inserted
    · rename_i outside
      cases inserted
      exact .stopped running (by simp) (.inr ⟨i, rest, calls, .inl outside⟩)
    · rename_i v shown
      rcases insertData_cases gbkToUTF8 m.db now i.key.toList v x with
        ⟨session, quiet, same⟩ | ⟨trouble, ended, other, same⟩
      · rw [same] at inserted
        cases inserted
        exact .stored running calls shown session quiet
      · have cause : Stops m w (.insert now x) := .inr ⟨i, rest, calls, .inr trouble⟩
        rw [same] at inserted
        cases ended with
        | returned => exact absurd rfl other
        | threw e =>
          cases inserted
          exact .stopped running (by simp) cause
        | nullSession =>
          cases inserted
          exact .stopped running (by simp) cause

theorem turn_turned {o : Turn} (turned : turn gbkToUTF8 m w o = some (m', w')) :
    Turned gbkToUTF8 m w o m' w' := by
  cases o with
  | poll d =>
    rw [turn] at turned
    split at turned
    · rename_i free
      obtain ⟨w', polled, same⟩ := Option.map_eq_some_iff.mp turned
      split at same
      · rename_i overruns
        cases same
        exact .stopped free.1 (by simp) ⟨free.2, overruns, w', poll_polled polled⟩
      · rename_i inside
        cases same
        exact .polled free.1 free.2 inside (poll_polled polled)
    · cases turned
  | unstamped =>
    rw [turn] at turned
    split at turned
    · rename_i free
      cases turned
      exact .stopped free.1 (by simp) free.2
    · cases turned
  | insert now x =>
    rw [turn] at turned
    split at turned
    · rename_i running
      exact insertToSvr_turned running turned
    · cases turned

end Turns

end DevAccess.Manager
