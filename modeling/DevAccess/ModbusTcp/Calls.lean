import DevAccess.ModbusTcp.Client
import Mathlib.Data.Finset.Insert
import Mathlib.Data.Finset.Erase

/-! The eight public operations as one type of calls, the outcomes the outside
world can give to one call, and one equation per operation: the request goes out
whole, one Recv is taken, and a verdict on what it gave decides how the call ends. -/
namespace DevAccess.ModbusTcp
open Foundation

inductive ReadCall where
  | holdingRegisters (address amount : Int) (buffer : CArray UInt16)
  | inputRegisters (address amount : Int) (buffer : CArray UInt16)
  | coils (address amount : Int) (buffer : CArray Bool)
  | inputBits (address amount : Int) (buffer : CArray Bool)

inductive Call where
  | read (c : ReadCall)
  | writeCoil (address : Int) (toWrite : Bool)
  | writeRegister (address : Int) (value : UInt16)
  | writeCoils (address amount : Int) (value : CArray Bool)
  | writeRegisters (address amount : Int) (value : CArray UInt16)

inductive Buffer where
  | words (a : CArray UInt16)
  | bits (a : CArray Bool)
  | none

def ReadCall.address : ReadCall → Int
  | holdingRegisters a _ _ | inputRegisters a _ _ | coils a _ _ | inputBits a _ _ => a

def ReadCall.amount : ReadCall → Int
  | holdingRegisters _ n _ | inputRegisters _ n _ | coils _ n _ | inputBits _ n _ => n

def ReadCall.func : ReadCall → Func
  | holdingRegisters .. => .readRegs
  | inputRegisters .. => .readInputRegs
  | coils .. => .readCoils
  | inputBits .. => .readInputBits

def ReadCall.limit : ReadCall → Int
  | holdingRegisters .. | inputRegisters .. => 65535
  | coils .. | inputBits .. => 2040

def ReadCall.dataBytes : ReadCall → Int
  | holdingRegisters _ n _ | inputRegisters _ n _ => 2 * n
  | coils _ n _ | inputBits _ n _ => (n + 7) / 8

def ReadCall.buffer : ReadCall → Buffer
  | holdingRegisters _ _ b | inputRegisters _ _ b => .words b
  | coils _ _ b | inputBits _ _ b => .bits b

def Call.func : Call → Func
  | read c => c.func
  | writeCoil .. => .writeCoil
  | writeRegister .. => .writeReg
  | writeCoils .. => .writeCoils
  | writeRegisters .. => .writeRegs

def Call.address : Call → Int
  | read c => c.address
  | writeCoil a _ | writeRegister a _ | writeCoils a _ _ | writeRegisters a _ _ => a

def Call.amount? : Call → Option Int
  | read c => some c.amount
  | writeCoil .. | writeRegister .. => none
  | writeCoils _ n _ | writeRegisters _ n _ => some n

def Call.limit : Call → Int
  | read c => c.limit
  | _ => 65535

def Call.buffer : Call → Buffer
  | read c => c.buffer
  | _ => .none

/-- The guards of the operation let the arguments pass. -/
def Call.Accepted (c : Call) : Prop := c.address ≤ 65535 ∧ ∀ n ∈ c.amount?, n ≤ c.limit

instance (c : Call) : Decidable c.Accepted := inferInstanceAs (Decidable (_ ∧ _))

variable {σ : Type}

def ReadCall.perform (p : Platform σ) (m : Modbus) (w : σ) : ReadCall → Result σ Buffer
  | holdingRegisters a n b => (modbusReadHoldingRegisters p a n b m w).map .words
  | inputRegisters a n b => (modbusReadInputRegisters p a n b m w).map .words
  | coils a n b => (modbusReadCoils p a n b m w).map .bits
  | inputBits a n b => (modbusReadInputBits p a n b m w).map .bits

def Call.perform (p : Platform σ) (m : Modbus) (w : σ) : Call → Result σ Buffer
  | read c => c.perform p m w
  | writeCoil a v => (modbusWriteCoil p a v m w).map (fun _ => .none)
  | writeRegister a v => (modbusWriteRegister p a v m w).map (fun _ => .none)
  | writeCoils a n v => (modbusWriteCoils p a n v m w).map (fun _ => .none)
  | writeRegisters a n v => (modbusWriteRegisters p a n v m w).map (fun _ => .none)

structure Log where
  sent : List (List UInt8)
  opened : Finset Int
  deriving DecidableEq

structure Outcomes where
  ready : Bool
  handle : Int
  sendRet : Int
  reply : Received
  memory : Memory

def Received.take (n : Nat) : Received → Received
  | .failed => .failed
  | .bytes bs => .bytes (bs.take n)

def scripted (o : Outcomes) : Platform Log where
  initSocket w := (o.ready, w)
  connect _ _ w :=
    (o.handle, if o.handle = -1 then w else { w with opened := insert o.handle w.opened })
  close socket w := { w with opened := w.opened.erase socket }
  send _ frame w := (o.sendRet, { w with sent := w.sent ++ [frame] })
  recv _ len w := (o.reply.take len, w)
  memory _ := o.memory
  recv_le _ len _ := by cases o.reply <;> simp [Received.take, Received.data, List.length_take]

def byteAt (bs : List UInt8) (i : Nat) : UInt8 := bs.getD i 0

/-- How a call ends after its only Recv, by the function code its error handler is given. -/
def verdict (func : Func) : Received → Except Exn Unit
  | .failed => .error .modbusConnectException
  | .bytes bs =>
    if (byteAt bs 7).toNat = func.code + 0x80 then
      match ExCode.ofByte (byteAt bs 8) with
      | some c => .error c.exn.rethrown
      | none => .ok ()
    else .ok ()

def examined (mem : Memory) (func : Func) : Received → CArray UInt8
  | .failed => newToRec mem
  | .bytes bs => (modbusErrorHandle ((newToRec mem).store bs) func).2

/-- The exception codes that the error handler knows, as a condition on the reply. -/
def Recognised (func : Func) (bs : List UInt8) : Prop :=
  (byteAt bs 7).toNat = func.code + 0x80 ∧ ∃ c : ExCode, byteAt bs 8 = c.value

theorem ofByte_value (c : ExCode) : ExCode.ofByte c.value = some c := by
  cases c <;> rfl

theorem ofByte_some {b : UInt8} {c : ExCode} (h : ExCode.ofByte b = some c) : b = c.value := by
  have found := List.find?_some h
  exact (eq_of_beq found).symm

theorem ofByte_isSome (b : UInt8) : (∃ c, ExCode.ofByte b = some c) ↔ ∃ c : ExCode, b = c.value := by
  constructor
  · rintro ⟨c, h⟩
    exact ⟨c, ofByte_some h⟩
  · rintro ⟨c, rfl⟩
    exact ⟨c, ofByte_value c⟩

theorem verdict_bytes (func : Func) (bs : List UInt8) :
    verdict func (.bytes bs) ≠ .ok () ↔ Recognised func bs := by
  simp only [verdict, Recognised, ← ofByte_isSome]
  by_cases kind : (byteAt bs 7).toNat = func.code + 0x80
  · cases code : ExCode.ofByte (byteAt bs 8) <;> simp [kind]
  · simp [kind]

def Modbus.stamped (m : Modbus) : Modbus := { m with msgId := int32 (m.msgId + 1) }

theorem modbusReceive_eq (p : Platform σ) (m : Modbus) (buffer : CArray UInt8) (w : σ) :
    modbusReceive p m buffer w =
      let got := p.recv m.socket 1024 w
      (got.1.ret, buffer.store got.1.data, got.2) := by
  have short := p.recv_le m.socket 1024 w
  have exact_ret : ¬ (p.recv m.socket 1024 w).1.ret > 1024 := by
    generalize (p.recv m.socket 1024 w).1 = r at short
    cases r with
    | failed => decide
    | bytes bs =>
      simp only [Received.data] at short
      simp only [Received.ret]
      omega
  simp only [modbusReceive, if_neg exact_ret]

theorem errorHandle_verdict (mem : Memory) (func : Func) (bs : List UInt8) :
    ((modbusErrorHandle ((newToRec mem).store bs) func).1.mapError Exn.rethrown) =
      verdict func (.bytes bs) := by
  have seven : ((newToRec mem).store bs).cell 7 = byteAt bs 7 := rfl
  have eight : ((newToRec mem).store bs).cell 8 = byteAt bs 8 := rfl
  simp only [modbusErrorHandle, verdict, CArray.read_value, CArray.read_cell, seven, eight]
  split
  · cases ExCode.ofByte (byteAt bs 8) <;> rfl
  · rfl

theorem receiveReply_eq (p : Platform σ) (mem : Memory) (func : Func) (m : Modbus) (w : σ) :
    receiveReply p mem func m w =
      let got := p.recv m.socket 1024 w
      (verdict func got.1, examined mem func got.1, got.2) := by
  simp only [receiveReply, modbusReceive_eq]
  generalize p.recv m.socket 1024 w = got
  obtain ⟨r, w'⟩ := got
  cases r with
  | failed => rfl
  | bytes bs =>
    simp only [Received.ret, Received.data, examined, ← errorHandle_verdict mem]
    rcases modbusErrorHandle ((newToRec mem).store bs) func with ⟨e | _, toRec⟩ <;> rfl

def answer (p : Platform σ) (m : Modbus) (w : σ) (toSend : CArray UInt8) (length : Int) :
    Received × σ :=
  p.recv m.socket 1024 (p.send m.socket (toSend.contents length.toNat) w).2

def ReadCall.decode (toRec : CArray UInt8) : ReadCall → CArray UInt8 × Buffer
  | holdingRegisters _ n b | inputRegisters _ n b =>
    (forUpTo takeRegister (toRec, b) n.toNat).map id .words
  | coils _ n b | inputBits _ n b => (forUpTo takeBit (toRec, b) n.toNat).map id .bits

def ReadCall.toSend (mem : Memory) (m : Modbus) (c : ReadCall) : CArray UInt8 :=
  readRequest mem m c.address c.amount c.func

theorem readOperation_eq {β : Type} (p : Platform σ) {limit : Int} (func : Func)
    (take : Nat → CArray UInt8 × CArray β → CArray UInt8 × CArray β) {address amount : Int}
    (buffer : CArray β) {m : Modbus} (w : σ) (connected : m.connected = true)
    (bounds : address ≤ 65535 ∧ amount ≤ limit) :
    readOperation p limit func take address amount buffer m w =
      let toSend := readRequest (p.memory w) m address amount func
      let got := answer p m w toSend 12
      let toRec := examined (p.memory w) func got.1
      match verdict func got.1 with
      | .error e => ⟨.error e, m.stamped, got.2, buffer, { toSend, toRec }⟩
      | .ok _ =>
        let d := forUpTo take (toRec, buffer) amount.toNat
        ⟨.ok (), m.stamped, got.2, d.2, { toSend, toRec := d.1 }⟩ := by
  have guard : ¬ (amount > limit ∨ address > 65535) := by omega
  simp only [readOperation, connected, if_true, if_neg guard, modbusRead, modbusSend,
    receiveReply_eq, answer, Modbus.stamped]
  generalize verdict func _ = v
  cases v <;> rfl

/-- One equation for the four read operations, from an accepted call to its end. -/
theorem ReadCall.perform_eq (p : Platform σ) {m : Modbus} (w : σ) {c : ReadCall}
    (connected : m.connected = true) (accepted : (Call.read c).Accepted) :
    c.perform p m w =
      let toSend := c.toSend (p.memory w) m
      let got := answer p m w toSend 12
      let toRec := examined (p.memory w) c.func got.1
      match verdict c.func got.1 with
      | .error e => ⟨.error e, m.stamped, got.2, c.buffer, { toSend, toRec }⟩
      | .ok _ => ⟨.ok (), m.stamped, got.2, (c.decode toRec).2,
          { toSend, toRec := (c.decode toRec).1 }⟩ := by
  have bounds : c.address ≤ 65535 ∧ c.amount ≤ c.limit := ⟨accepted.1, accepted.2 _ rfl⟩
  cases c with
  | holdingRegisters a n b =>
    have eq : readOperation p 65535 .readRegs takeRegister a n b m w = _ :=
      readOperation_eq p .readRegs takeRegister b w connected bounds
    simp only [perform, modbusReadHoldingRegisters, eq, func, decode, toSend, address, amount, buffer]
    generalize verdict .readRegs _ = v
    cases v <;> rfl
  | inputRegisters a n b =>
    have eq : readOperation p 65535 .readInputRegs takeRegister a n b m w = _ :=
      readOperation_eq p .readInputRegs takeRegister b w connected bounds
    simp only [perform, modbusReadInputRegisters, eq, func, decode, toSend, address, amount, buffer]
    generalize verdict .readInputRegs _ = v
    cases v <;> rfl
  | coils a n b =>
    have eq : readOperation p 2040 .readCoils takeBit a n b m w = _ :=
      readOperation_eq p .readCoils takeBit b w connected bounds
    simp only [perform, modbusReadCoils, eq, func, decode, toSend, address, amount, buffer]
    generalize verdict .readCoils _ = v
    cases v <;> rfl
  | inputBits a n b =>
    have eq : readOperation p 2040 .readInputBits takeBit a n b m w = _ :=
      readOperation_eq p .readInputBits takeBit b w connected bounds
    simp only [perform, modbusReadInputBits, eq, func, decode, toSend, address, amount, buffer]
    generalize verdict .readInputBits _ = v
    cases v <;> rfl

def Call.request (mem : Memory) (m : Modbus) : Call → Except Exn Request
  | read c => .ok ⟨c.toSend mem m, 12, CArray.fresh 0 mem.words⟩
  | writeCoil a v => singleRequest mem m a .writeCoil (coilWord v)
  | writeRegister a v => singleRequest mem m a .writeReg (CArray.fresh 1 (fun _ => v))
  | writeCoils a n v => do
    let temp ← newArray n mem.words
    coilsRequest mem m a n (forUpTo (copyFlag v) temp 4)
  | writeRegisters a n v => registersRequest mem m a n v

def Call.handled : Call → Func
  | read c => c.func
  | writeCoil .. => .writeCoil
  | writeRegister .. => .writeCoil
  | writeCoils .. => .writeCoils
  | writeRegisters .. => .writeRegs

def Call.temp (r : Request) : Call → Option (CArray UInt16)
  | writeCoils .. => some r.value
  | _ => none

/-- What an accepted call on a connected object does: one request, one Recv, and
the end its verdict gives. The buffer is only touched on the normal end. -/
structure Exchanged (p : Platform σ) (m : Modbus) (w : σ) (c : Call) (r : Request) : Prop where
  outcome : (c.perform p m w).outcome = verdict c.handled (answer p m w r.toSend r.length).1
  modbus : (c.perform p m w).modbus = m.stamped
  world : (c.perform p m w).world = (answer p m w r.toSend r.length).2
  toSend : (c.perform p m w).locals.toSend = some r.toSend
  temp : (c.perform p m w).locals.temp = c.temp r
  toRec : (c.perform p m w).outcome ≠ .ok () → (c.perform p m w).locals.toRec =
    some (examined (p.memory w) c.handled (answer p m w r.toSend r.length).1)
  kept : (c.perform p m w).outcome ≠ .ok () → (c.perform p m w).buffer = c.buffer

structure Aborted (p : Platform σ) (m : Modbus) (w : σ) (c : Call) (e : Exn) : Prop where
  outcome : (c.perform p m w).outcome = .error e
  modbus : (c.perform p m w).modbus = m
  world : (c.perform p m w).world = w
  buffer : (c.perform p m w).buffer = c.buffer
  locals : (c.perform p m w).locals = {}

theorem ReadCall.exchanged (p : Platform σ) {m : Modbus} (w : σ) {c : ReadCall}
    (connected : m.connected = true) (accepted : (Call.read c).Accepted) :
    Exchanged p m w (.read c) ⟨c.toSend (p.memory w) m, 12, CArray.fresh 0 (p.memory w).words⟩ := by
  have eq := c.perform_eq p w connected accepted
  cases hv : verdict c.func (answer p m w (c.toSend (p.memory w) m) 12).1 with
  | error e =>
    simp only [hv] at eq
    constructor <;> simp only [Call.perform, Call.handled, Call.buffer, Call.temp, eq, hv,
      implies_true]
  | ok u =>
    simp only [hv] at eq
    constructor <;> simp [Call.perform, Call.handled, Call.temp, eq, hv]

def exchange (p : Platform σ) (func : Func) (locals : Request → Locals) (m : Modbus) (w : σ) :
    Except Exn Request → Result σ Unit
  | .error e => ⟨.error e, m, w, (), {}⟩
  | .ok r =>
    let got := answer p m w r.toSend r.length
    ⟨verdict func got.1, m.stamped, got.2, (),
      { locals r with toRec := examined (p.memory w) func got.1 }⟩

section Writes
variable (p : Platform σ) {m : Modbus} (w : σ)

theorem awaitReply_eq (mem : Memory) (func : Func) (l : Locals) (m : Modbus) :
    awaitReply p mem func l m w =
      let got := p.recv m.socket 1024 w
      ⟨verdict func got.1, m, got.2, (), { l with toRec := examined mem func got.1 }⟩ := by
  simp only [awaitReply, receiveReply_eq]

theorem modbusWriteCoil_eq {address : Int} (v : Bool) (connected : m.connected = true)
    (within : address ≤ 65535) :
    modbusWriteCoil p address v m w =
      exchange p .writeCoil (fun r => { toSend := r.toSend }) m w
        ((Call.writeCoil address v).request (p.memory w) m) := by
  have guard : ¬ address > 65535 := by omega
  simp only [modbusWriteCoil, connected, if_true, if_neg guard, modbusWrite, writeRequest, Call.request]
  cases singleRequest (p.memory w) m address .writeCoil (coilWord v) with
  | error e => rfl
  | ok r => exact awaitReply_eq ..

theorem modbusWriteRegister_tail {address : Int} (v : UInt16) (connected : m.connected = true)
    (within : address ≤ 65535) :
    modbusWriteRegister p address v m w =
      match modbusWrite p address 1 .writeReg (CArray.fresh 1 (fun _ => v)) m w with
      | .error e => ⟨.error e, m, w, (), {}⟩
      | .ok s => awaitReply p (p.memory w) .writeCoil { toSend := s.toSend } s.modbus s.world := by
  have guard : ¬ address > 65535 := by omega
  simp only [modbusWriteRegister, connected, if_true, if_neg guard, awaitReply, receiveReply]
  cases modbusWrite p address 1 .writeReg (CArray.fresh 1 (fun _ => v)) m w with
  | error e => rfl
  | ok s =>
    dsimp only
    generalize modbusReceive p s.modbus (newToRec (p.memory w)) s.world = got
    obtain ⟨k, toRec, w'⟩ := got
    by_cases closed : k < 0
    · simp only [if_pos closed]
    · simp only [if_neg closed]
      rcases modbusErrorHandle toRec .writeCoil with ⟨e | _, toRec⟩ <;> rfl

theorem modbusWriteRegister_eq {address : Int} (v : UInt16) (connected : m.connected = true)
    (within : address ≤ 65535) :
    modbusWriteRegister p address v m w =
      exchange p .writeCoil (fun r => { toSend := r.toSend }) m w
        ((Call.writeRegister address v).request (p.memory w) m) := by
  simp only [modbusWriteRegister_tail p w v connected within, modbusWrite, writeRequest, Call.request]
  cases singleRequest (p.memory w) m address .writeReg (CArray.fresh 1 (fun _ => v)) with
  | error e => rfl
  | ok r => exact awaitReply_eq ..

theorem modbusWriteCoils_eq {address amount : Int} (v : CArray Bool) (connected : m.connected = true)
    (within : address ≤ 65535 ∧ amount ≤ 65535) :
    modbusWriteCoils p address amount v m w =
      exchange p .writeCoils (fun r => { toSend := r.toSend, temp := r.value }) m w
        ((Call.writeCoils address amount v).request (p.memory w) m) := by
  have guard : ¬ (address > 65535 ∨ amount > 65535) := by omega
  simp only [modbusWriteCoils, connected, if_true, if_neg guard, modbusWrite, writeRequest, Call.request]
  cases newArray amount (p.memory w).words with
  | error e => rfl
  | ok temp =>
    dsimp only [bind, Except.bind]
    cases coilsRequest (p.memory w) m address amount (forUpTo (copyFlag v) temp 4) with
    | error e => rfl
    | ok r => exact awaitReply_eq ..

theorem modbusWriteRegisters_eq {address amount : Int} (v : CArray UInt16)
    (connected : m.connected = true) (within : address ≤ 65535 ∧ amount ≤ 65535) :
    modbusWriteRegisters p address amount v m w =
      exchange p .writeRegs (fun r => { toSend := r.toSend }) m w
        ((Call.writeRegisters address amount v).request (p.memory w) m) := by
  have guard : ¬ (address > 65535 ∨ amount > 65535) := by omega
  simp only [modbusWriteRegisters, connected, if_true, if_neg guard, modbusWrite, writeRequest,
    Call.request]
  cases registersRequest (p.memory w) m address amount v with
  | error e => rfl
  | ok r => exact awaitReply_eq ..

end Writes

/-- The specification of the eight operations: an accepted call on a connected object
is aborted by the exception its request meets, or makes exactly one exchange. -/
def Call.Ends (p : Platform σ) (m : Modbus) (w : σ) (c : Call) : Except Exn Request → Prop
  | .error e => Aborted p m w c e
  | .ok r => Exchanged p m w c r

theorem exchange_ends {p : Platform σ} {m : Modbus} {w : σ} {c : Call} {run : Result σ Unit}
    (locals : Request → Locals)
    (sent : ∀ r, (locals r).toSend = some r.toSend ∧ (locals r).temp = c.temp r)
    (performed : c.perform p m w = run.map (fun _ => .none)) (nothing : c.buffer = .none)
    {request : Except Exn Request} (eq : run = exchange p c.handled locals m w request) :
    c.Ends p m w request := by
  subst eq
  cases request with
  | error e => constructor <;> simp only [performed, exchange, Result.map, nothing]
  | ok r => constructor <;> simp [performed, exchange, Result.map, nothing, sent]

theorem Call.perform_ends (p : Platform σ) {m : Modbus} (w : σ) {c : Call}
    (connected : m.connected = true) (accepted : c.Accepted) :
    c.Ends p m w (c.request (p.memory w) m) := by
  cases c with
  | read c => exact ReadCall.exchanged p w connected accepted
  | writeCoil a v =>
    have eq : modbusWriteCoil p a v m w = _ := modbusWriteCoil_eq p w v connected accepted.1
    exact exchange_ends _ (fun _ => ⟨rfl, rfl⟩) rfl rfl eq
  | writeRegister a v =>
    have eq : modbusWriteRegister p a v m w = _ := modbusWriteRegister_eq p w v connected accepted.1
    exact exchange_ends _ (fun _ => ⟨rfl, rfl⟩) rfl rfl eq
  | writeCoils a n v =>
    have within : a ≤ 65535 ∧ n ≤ 65535 := ⟨accepted.1, accepted.2 n rfl⟩
    exact exchange_ends _ (fun _ => ⟨rfl, rfl⟩) rfl rfl (modbusWriteCoils_eq p w v connected within)
  | writeRegisters a n v =>
    have within : a ≤ 65535 ∧ n ≤ 65535 := ⟨accepted.1, accepted.2 n rfl⟩
    exact exchange_ends _ (fun _ => ⟨rfl, rfl⟩) rfl rfl (modbusWriteRegisters_eq p w v connected within)

theorem Call.perform_disconnected (p : Platform σ) {m : Modbus} (w : σ) (c : Call)
    (disconnected : m.connected = false) : Aborted p m w c .modbusConnectException := by
  cases c with
  | read c =>
    cases c <;> constructor <;> simp [Call.perform, ReadCall.perform, modbusReadHoldingRegisters,
      modbusReadInputRegisters, modbusReadCoils, modbusReadInputBits, readOperation, Result.map,
      Call.buffer, ReadCall.buffer, disconnected]
  | writeCoil | writeRegister | writeCoils | writeRegisters =>
    constructor <;> simp [Call.perform, modbusWriteCoil, modbusWriteRegister, modbusWriteCoils,
      modbusWriteRegisters, Result.map, Call.buffer, disconnected]

theorem Call.perform_rejected (p : Platform σ) {m : Modbus} (w : σ) {c : Call}
    (connected : m.connected = true) (rejected : ¬ c.Accepted) :
    Aborted p m w c .modbusAmountException := by
  cases c with
  | read c =>
    have guard : c.amount > c.limit ∨ c.address > 65535 := by
      simp only [Accepted, Call.address, amount?, Option.mem_def, Option.some.injEq, forall_eq',
        Call.limit] at rejected
      omega
    cases c <;> simp only [ReadCall.amount, ReadCall.limit, ReadCall.address] at guard <;>
      constructor <;> simp [Call.perform, ReadCall.perform, modbusReadHoldingRegisters,
        modbusReadInputRegisters, modbusReadCoils, modbusReadInputBits, readOperation, Result.map,
        Call.buffer, ReadCall.buffer, connected, guard]
  | writeCoil a v | writeRegister a v =>
    have guard : a > 65535 := by
      simpa [Accepted, Call.address, amount?] using rejected
    constructor <;> simp [Call.perform, modbusWriteCoil, modbusWriteRegister, Result.map,
      Call.buffer, connected, guard]
  | writeCoils a n v | writeRegisters a n v =>
    have guard : a > 65535 ∨ n > 65535 := by
      simp only [Accepted, Call.address, amount?, Option.mem_def, Option.some.injEq, forall_eq',
        Call.limit] at rejected
      omega
    constructor <;> simp [Call.perform, modbusWriteCoils, modbusWriteRegisters, Result.map,
      Call.buffer, connected, guard]

end DevAccess.ModbusTcp
