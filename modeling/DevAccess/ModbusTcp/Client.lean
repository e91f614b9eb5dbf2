import DevAccess.Foundation.Memory
import DevAccess.Foundation.Word

/-! The Modbus TCP client of modbus.cpp. A public operation is a function of the
object, the socket layer and its arguments. It returns how it ended, the object
and the world after it, the caller's buffer and the local arrays it used. -/
namespace DevAccess.ModbusTcp
open Foundation

inductive Func where
  | readCoils | readInputBits | readRegs | readInputRegs
  | writeCoil | writeReg | writeCoils | writeRegs
  deriving DecidableEq, Repr

def Func.code : Func → Nat
  | .readCoils => 0x01
  | .readInputBits => 0x02
  | .readRegs => 0x03
  | .readInputRegs => 0x04
  | .writeCoil => 0x05
  | .writeReg => 0x06
  | .writeCoils => 0x0F
  | .writeRegs => 0x10

inductive ExCode where
  | illegalFunction | illegalAddress | illegalValue | serverFailure
  | acknowledge | serverBusy | gatewayProblemP | gatewayProblemF
  deriving DecidableEq, Repr

def ExCode.value : ExCode → UInt8
  | .illegalFunction => 0x01
  | .illegalAddress => 0x02
  | .illegalValue => 0x03
  | .serverFailure => 0x04
  | .acknowledge => 0x05
  | .serverBusy => 0x06
  | .gatewayProblemP => 0x0A
  | .gatewayProblemF => 0x0B

def ExCode.all : List ExCode :=
  [.illegalFunction, .illegalAddress, .illegalValue, .serverFailure,
    .acknowledge, .serverBusy, .gatewayProblemP, .gatewayProblemF]

def ExCode.ofByte (b : UInt8) : Option ExCode := ExCode.all.find? (fun c => c.value == b)

inductive Exn where
  | modbusConnectException | modbusAmountException
  | modbusIllegalFunctionException | modbusIllegalAddressException
  | modbusIllegalDataValueException | modbusServerFailureException
  | modbusAcknowledgeException | modbusServerBusyException | modbusGatewayException
  | badAlloc       -- what new throws for a negative count
  | stdException   -- a plain std::exception
  deriving DecidableEq, Repr

def ExCode.exn : ExCode → Exn
  | .illegalFunction => .modbusIllegalFunctionException
  | .illegalAddress => .modbusIllegalAddressException
  | .illegalValue => .modbusIllegalDataValueException
  | .serverFailure => .modbusServerFailureException
  | .acknowledge => .modbusAcknowledgeException
  | .serverBusy => .modbusServerBusyException
  | .gatewayProblemP => .modbusGatewayException
  | .gatewayProblemF => .modbusGatewayException

/-- catch (exception &e) { throw e; } throws a copy of the base part. -/
def Exn.rethrown : Exn → Exn := fun _ => .stdException

def maxMsgLength : Nat := 260

/-- What recv gives: SOCKET_ERROR, or the bytes it stored (none when the peer closed). -/
inductive Received where
  | failed
  | bytes (bs : List UInt8)
  deriving DecidableEq, Repr

def Received.ret : Received → Int
  | .failed => -1
  | .bytes bs => bs.length

def Received.data : Received → List UInt8
  | .failed => []
  | .bytes bs => bs

/-- Contents the code does not set: fresh heap arrays and the stack behind to_rec. -/
structure Memory where
  bytes : Nat → UInt8
  words : Nat → UInt16
  behind : Nat → UInt8

/-- The socket layer and the memory, seen from the client. recv stores at most
as many bytes as it was asked for. -/
structure Platform (σ : Type) where
  initSocket : σ → Bool × σ
  connect : String → UInt16 → σ → Int × σ
  close : Int → σ → σ
  send : Int → List UInt8 → σ → Int × σ
  recv : Int → Nat → σ → Received × σ
  memory : σ → Memory
  recv_le : ∀ socket len w, (recv socket len w).1.data.length ≤ len

structure Modbus where
  connected : Bool
  port : UInt16
  socket : Int
  msgId : Int
  slaveId : Int
  host : String
  deriving DecidableEq

def Modbus.make (host : String) (port : UInt16) : Modbus :=
  { connected := false, port, socket := -1, msgId := 1, slaveId := 1, host }

def modbusSetSlaveId (id : Int) (m : Modbus) : Modbus := { m with slaveId := id }

variable {σ β : Type}

def modbusConnect (p : Platform σ) (m : Modbus) (w : σ) : Bool × Modbus × σ :=
  if m.host = "" ∨ m.port = 0 then (false, m, w)
  else
    let (ready, w) := p.initSocket w
    if ready then
      let (socket, w) := p.connect m.host m.port w
      let m := { m with socket }
      if m.socket = -1 then (false, m, w)
      else (true, { m with connected := true }, w)
    else (false, m, w)

/-- _connected is left as it is. -/
def modbusClose (p : Platform σ) (m : Modbus) (w : σ) : Modbus × σ := (m, p.close m.socket w)

def newArray {α : Type} (n : Int) (contents : Nat → α) : Except Exn (CArray α) :=
  if n < 0 then .error .badAlloc else .ok (CArray.fresh n.toNat contents)

def modbusBuildRequest (m : Modbus) (toSend : CArray UInt8) (address : Int) (func : Func) :
    CArray UInt8 :=
  let toSend := toSend.write 0 (hiByte m.msgId)
  let toSend := toSend.write 1 (loByte m.msgId)
  let toSend := toSend.write 2 0
  let toSend := toSend.write 3 0
  let toSend := toSend.write 4 0
  let toSend := toSend.write 6 (UInt8.ofInt m.slaveId)
  let toSend := toSend.write 7 (UInt8.ofNat func.code)
  let toSend := toSend.write 8 (hiByte address)
  toSend.write 9 (loByte address)

def modbusSend (p : Platform σ) (toSend : CArray UInt8) (length : Int) (m : Modbus) (w : σ) :
    Int × Modbus × σ :=
  let m := { m with msgId := int32 (m.msgId + 1) }
  let (ret, w) := p.send m.socket (toSend.contents length.toNat) w
  (ret, m, w)

def modbusReceive (p : Platform σ) (m : Modbus) (buffer : CArray UInt8) (w : σ) :
    Int × CArray UInt8 × σ :=
  let (got, w) := p.recv m.socket 1024 w
  let buffer := buffer.store got.data
  (if got.ret > 1024 then -1 else got.ret, buffer, w)

def modbusErrorHandle (msg : CArray UInt8) (func : Func) : Except Exn Unit × CArray UInt8 :=
  let (kind, msg) := msg.read 7
  if kind.toNat = func.code + 0x80 then
    let (code, msg) := msg.read 8
    match ExCode.ofByte code with
    | some c => (.error c.exn, msg)
    | none => (.ok (), msg)
  else (.ok (), msg)

structure Request where
  toSend : CArray UInt8
  length : Int
  value : CArray UInt16

def singleRequest (mem : Memory) (m : Modbus) (address : Int) (func : Func)
    (value : CArray UInt16) : Except Exn Request := do
  let toSend ← newArray 12 mem.bytes
  let toSend := modbusBuildRequest m toSend address func
  let toSend := toSend.write 5 6
  let (v, value) := value.read 0
  let toSend := toSend.write 10 (hiByte v.toNat)
  let (v, value) := value.read 0
  let toSend := toSend.write 11 (loByte v.toNat)
  return ⟨toSend, 12, value⟩

/-- to_send[13 + 2 * i] = value[i] >> 8; to_send[14 + 2 * i] = value[i] & 0x00FF; -/
def putRegister (i : Nat) (s : CArray UInt8 × CArray UInt16) : CArray UInt8 × CArray UInt16 :=
  let (v, value) := s.2.read i
  let toSend := s.1.write (13 + 2 * i) (hiByte v.toNat)
  let (v, value) := value.read i
  (toSend.write (14 + 2 * i) (loByte v.toNat), value)

def registersHead (m : Modbus) (toSend : CArray UInt8) (address amount : Int) : CArray UInt8 :=
  let toSend := modbusBuildRequest m toSend address .writeRegs
  let toSend := toSend.write 5 (UInt8.ofInt (5 + 2 * amount))
  let toSend := toSend.write 10 (hiByte amount)
  let toSend := toSend.write 11 (loByte amount)
  toSend.write 12 (UInt8.ofInt (2 * amount))

def registersRequest (mem : Memory) (m : Modbus) (address amount : Int) (value : CArray UInt16) :
    Except Exn Request := do
  let toSend ← newArray (int32 (13 + 2 * amount)) mem.bytes
  let toSend := registersHead m toSend address amount
  let (toSend, value) := forUpTo putRegister (toSend, value) amount.toNat
  return ⟨toSend, int32 (13 + 2 * amount), value⟩

/-- to_send[13 + (i - 1) / 8] += (uint8_t)(value[i] << (i % 8)); -/
def putCoil (i : Nat) (s : CArray UInt8 × CArray UInt16) : CArray UInt8 × CArray UInt16 :=
  let (v, value) := s.2.read i
  let index := (13 + ((i : Int) - 1).tdiv 8).toNat
  let (old, toSend) := s.1.read index
  (toSend.write index (old + UInt8.ofNat (v.toNat <<< (i % 8))), value)

/-- Bytes 10 and 11 are both amount >> 8, as in the source. -/
def coilsHead (m : Modbus) (toSend : CArray UInt8) (address amount : Int) : CArray UInt8 :=
  let toSend := modbusBuildRequest m toSend address .writeCoils
  let toSend := toSend.write 5 (UInt8.ofInt (7 + (int32 (amount - 1)).tdiv 8))
  let toSend := toSend.write 10 (hiByte amount)
  let toSend := toSend.write 11 (hiByte amount)
  toSend.write 12 (UInt8.ofInt ((int32 (amount + 7)).tdiv 8))

def coilsRequest (mem : Memory) (m : Modbus) (address amount : Int) (value : CArray UInt16) :
    Except Exn Request := do
  let toSend ← newArray (14 + (int32 (amount - 1)).tdiv 8) mem.bytes
  let toSend := coilsHead m toSend address amount
  let (toSend, value) := forUpTo putCoil (toSend, value) amount.toNat
  return ⟨toSend, 14 + (int32 (amount - 1)).tdiv 8, value⟩

def writeRequest (mem : Memory) (m : Modbus) (address amount : Int) (func : Func)
    (value : CArray UInt16) : Except Exn (Option Request) :=
  match func with
  | .writeCoil => some <$> singleRequest mem m address .writeCoil value
  | .writeReg => some <$> singleRequest mem m address .writeReg value
  | .writeRegs => some <$> registersRequest mem m address amount value
  | .writeCoils => some <$> coilsRequest mem m address amount value
  | _ => .ok none

structure Locals where
  toSend : Option (CArray UInt8) := none
  temp : Option (CArray UInt16) := none
  toRec : Option (CArray UInt8) := none

structure Result (σ β : Type) where
  outcome : Except Exn Unit
  modbus : Modbus
  world : σ
  buffer : β
  locals : Locals

def Result.map {γ : Type} (f : β → γ) (r : Result σ β) : Result σ γ :=
  ⟨r.outcome, r.modbus, r.world, f r.buffer, r.locals⟩

/-- What ModbusWrite and ModbusRead leave. The value Send returned is dropped. -/
structure Sent (σ : Type) where
  modbus : Modbus
  world : σ
  toSend : Option (CArray UInt8)
  value : CArray UInt16

def modbusWrite (p : Platform σ) (address amount : Int) (func : Func) (value : CArray UInt16)
    (m : Modbus) (w : σ) : Except Exn (Sent σ) :=
  match writeRequest (p.memory w) m address amount func value with
  | .error e => .error e
  | .ok none => .ok ⟨m, w, none, value⟩
  | .ok (some r) =>
    let (_, m, w) := modbusSend p r.toSend r.length m w
    .ok ⟨m, w, some r.toSend, r.value⟩

def readRequest (mem : Memory) (m : Modbus) (address amount : Int) (func : Func) : CArray UInt8 :=
  let toSend := CArray.fresh 12 mem.bytes
  let toSend := modbusBuildRequest m toSend address func
  let toSend := toSend.write 5 6
  let toSend := toSend.write 10 (hiByte amount)
  toSend.write 11 (loByte amount)

/-- The catch in ModbusRead is left out: neither Send nor an array of 12 bytes throws. -/
def modbusRead (p : Platform σ) (address amount : Int) (func : Func) (m : Modbus) (w : σ) :
    Modbus × σ × CArray UInt8 :=
  let toSend := readRequest (p.memory w) m address amount func
  let (_, m, w) := modbusSend p toSend 12 m w
  (m, w, toSend)

def newToRec (mem : Memory) : CArray UInt8 :=
  CArray.fresh maxMsgLength (fun i => if i < maxMsgLength then 0 else mem.behind i)

/-- ssize_t k = ModbusReceive(to_rec), the test k < 0, and the error handler with the
catch around it: the text that every operation but ModbusWriteRegister ends with. -/
def receiveReply (p : Platform σ) (mem : Memory) (func : Func) (m : Modbus) (w : σ) :
    Except Exn Unit × CArray UInt8 × σ :=
  let (k, toRec, w) := modbusReceive p m (newToRec mem) w
  if k < 0 then (.error .modbusConnectException, toRec, w)
  else
    match modbusErrorHandle toRec func with
    | (.error e, toRec) => (.error e.rethrown, toRec, w)
    | (.ok _, toRec) => (.ok (), toRec, w)

/-- buffer[i] = to_rec[9 + 2 * i] << 8; buffer[i] += to_rec[10 + 2 * i]; -/
def takeRegister (i : Nat) (s : CArray UInt8 × CArray UInt16) : CArray UInt8 × CArray UInt16 :=
  let (hi, toRec) := s.1.read (9 + 2 * i)
  let buffer := s.2.write i (hi.toUInt16 <<< 8)
  let (lo, toRec) := toRec.read (10 + 2 * i)
  let (old, buffer) := buffer.read i
  (toRec, buffer.write i (old + lo.toUInt16))

/-- buffer[i] = (bool)((to_rec[9 + i / 8] >> (i % 8)) & 1); -/
def takeBit (i : Nat) (s : CArray UInt8 × CArray Bool) : CArray UInt8 × CArray Bool :=
  let (b, toRec) := s.1.read (9 + i / 8)
  (toRec, s.2.write i (bit b (i % 8)))

/-- The common text of the four read operations. They differ in the bound on the
amount, in the function code and in the body of the decoding loop. -/
def readOperation (p : Platform σ) (limit : Int) (func : Func)
    (take : Nat → CArray UInt8 × CArray β → CArray UInt8 × CArray β)
    (address amount : Int) (buffer : CArray β) (m : Modbus) (w : σ) : Result σ (CArray β) :=
  if m.connected then
    if amount > limit ∨ address > 65535 then
      ⟨.error .modbusAmountException, m, w, buffer, {}⟩
    else
      let mem := p.memory w
      let (m, w, toSend) := modbusRead p address amount func m w
      match receiveReply p mem func m w with
      | (.error e, toRec, w) => ⟨.error e, m, w, buffer, { toSend, toRec }⟩
      | (.ok _, toRec, w) =>
        let (toRec, buffer) := forUpTo take (toRec, buffer) amount.toNat
        ⟨.ok (), m, w, buffer, { toSend, toRec }⟩
  else
    ⟨.error .modbusConnectException, m, w, buffer, {}⟩

def modbusReadHoldingRegisters (p : Platform σ) (address amount : Int) (buffer : CArray UInt16)
    (m : Modbus) (w : σ) : Result σ (CArray UInt16) :=
  readOperation p 65535 .readRegs takeRegister address amount buffer m w

def modbusReadInputRegisters (p : Platform σ) (address amount : Int) (buffer : CArray UInt16)
    (m : Modbus) (w : σ) : Result σ (CArray UInt16) :=
  readOperation p 65535 .readInputRegs takeRegister address amount buffer m w

def modbusReadCoils (p : Platform σ) (address amount : Int) (buffer : CArray Bool)
    (m : Modbus) (w : σ) : Result σ (CArray Bool) :=
  readOperation p 2040 .readCoils takeBit address amount buffer m w

def modbusReadInputBits (p : Platform σ) (address amount : Int) (buffer : CArray Bool)
    (m : Modbus) (w : σ) : Result σ (CArray Bool) :=
  readOperation p 2040 .readInputBits takeBit address amount buffer m w

def awaitReply (p : Platform σ) (mem : Memory) (func : Func) (locals : Locals) (m : Modbus) (w : σ) :
    Result σ Unit :=
  let (outcome, toRec, w) := receiveReply p mem func m w
  ⟨outcome, m, w, (), { locals with toRec }⟩

/-- int value = to_write * 0xFF00, read through (uint16_t *)&value: its two halves. -/
def coilWord (toWrite : Bool) : CArray UInt16 :=
  let value : Int := toWrite.toNat * 0xFF00
  CArray.fresh 2 (fun i => UInt16.ofInt (value >>> (16 * i)))

def modbusWriteCoil (p : Platform σ) (address : Int) (toWrite : Bool) (m : Modbus) (w : σ) :
    Result σ Unit :=
  if m.connected then
    if address > 65535 then ⟨.error .modbusAmountException, m, w, (), {}⟩
    else
      match modbusWrite p address 1 .writeCoil (coilWord toWrite) m w with
      | .error e => ⟨.error e, m, w, (), {}⟩
      | .ok s => awaitReply p (p.memory w) .writeCoil { toSend := s.toSend } s.modbus s.world
  else ⟨.error .modbusConnectException, m, w, (), {}⟩

/-- Tests k < 0 twice, and hands WRITE_COIL to the error handler. -/
def modbusWriteRegister (p : Platform σ) (address : Int) (value : UInt16) (m : Modbus) (w : σ) :
    Result σ Unit :=
  if m.connected then
    if address > 65535 then ⟨.error .modbusAmountException, m, w, (), {}⟩
    else
      match modbusWrite p address 1 .writeReg (CArray.fresh 1 (fun _ => value)) m w with
      | .error e => ⟨.error e, m, w, (), {}⟩
      | .ok s =>
        let (k, toRec, w) := modbusReceive p s.modbus (newToRec (p.memory w)) s.world
        let locals : Locals := { toSend := s.toSend, toRec }
        if k < 0 then ⟨.error .modbusConnectException, s.modbus, w, (), locals⟩
        else if k < 0 then ⟨.error .modbusConnectException, s.modbus, w, (), locals⟩
        else
          match modbusErrorHandle toRec .writeCoil with
          | (.error e, toRec) => ⟨.error e.rethrown, s.modbus, w, (), { locals with toRec }⟩
          | (.ok _, toRec) => ⟨.ok (), s.modbus, w, (), { locals with toRec }⟩
  else ⟨.error .modbusConnectException, m, w, (), {}⟩

/-- for (int i = 0; i < 4; i++) temp[i] = (uint16_t)value[i]; -/
def copyFlag (value : CArray Bool) (i : Nat) (temp : CArray UInt16) : CArray UInt16 :=
  temp.write i (if value.cell i then 1 else 0)

def modbusWriteCoils (p : Platform σ) (address amount : Int) (value : CArray Bool) (m : Modbus)
    (w : σ) : Result σ Unit :=
  if m.connected then
    if address > 65535 ∨ amount > 65535 then ⟨.error .modbusAmountException, m, w, (), {}⟩
    else
      match newArray amount (p.memory w).words with
      | .error e => ⟨.error e, m, w, (), {}⟩
      | .ok temp =>
        let temp := forUpTo (copyFlag value) temp 4
        match modbusWrite p address amount .writeCoils temp m w with
        | .error e => ⟨.error e, m, w, (), {}⟩
        | .ok s =>
          awaitReply p (p.memory w) .writeCoils { toSend := s.toSend, temp := s.value } s.modbus s.world
  else ⟨.error .modbusConnectException, m, w, (), {}⟩

def modbusWriteRegisters (p : Platform σ) (address amount : Int) (value : CArray UInt16)
    (m : Modbus) (w : σ) : Result σ Unit :=
  if m.connected then
    if address > 65535 ∨ amount > 65535 then ⟨.error .modbusAmountException, m, w, (), {}⟩
    else
      match modbusWrite p address amount .writeRegs value m w with
      | .error e => ⟨.error e, m, w, (), {}⟩
      | .ok s => awaitReply p (p.memory w) .writeRegs { toSend := s.toSend } s.modbus s.world
  else ⟨.error .modbusConnectException, m, w, (), {}⟩

end DevAccess.ModbusTcp
