import DevAccess.ModbusTcp.Replies

/-! A conforming server: what it answers to a read, how the answer is laid out as a
reply to the request, and what the read operations make of a reply that one Recv
delivers whole. -/
namespace DevAccess.ModbusTcp
open Foundation

inductive Answer where
  | registers (vs : List UInt16)
  | bits (bs : List Bool)
  | exception (code : UInt8)
  deriving DecidableEq

def Answer.pdu (f : UInt8) : Answer → List UInt8
  | registers vs => f :: UInt8.ofNat (2 * vs.length) :: wordBytes vs
  | bits bs => f :: UInt8.ofNat ((bs.length + 7) / 8) :: packBits bs
  | exception code => [f + 0x80, code]

def encodeReply (request : List UInt8) (a : Answer) : List UInt8 :=
  let pdu := a.pdu (byteAt request 7)
  [byteAt request 0, byteAt request 1, 0, 0, hiByte (pdu.length + 1), loByte (pdu.length + 1),
    byteAt request 6] ++ pdu

/-- The answer is one that the protocol allows to the call. -/
def Answer.Answers : Answer → ReadCall → Prop
  | registers vs, .holdingRegisters _ n _ | registers vs, .inputRegisters _ n _ =>
    (vs.length : Int) = n
  | bits bs, .coils _ n _ | bits bs, .inputBits _ n _ => (bs.length : Int) = n
  | exception _, _ => True
  | _, _ => False

def Answer.Taken : Answer → Prop
  | registers vs => vs.length ≤ 125
  | bits bs => bs.length ≤ 2008
  | exception code => ∃ c : ExCode, code = c.value

/-- What the caller of a read operation gets to see. -/
inductive Observation where
  | words (vs : List UInt16)
  | bits (bs : List Bool)
  | threw (e : Exn)
  | nothing
  deriving DecidableEq

def Buffer.values (n : Nat) : Buffer → Observation
  | words a => .words (a.contents n)
  | bits a => .bits (a.contents n)
  | none => .nothing

def ReadCall.observe {σ : Type} (c : ReadCall) (r : Result σ Buffer) : Observation :=
  match r.outcome with
  | .error e => .threw e
  | .ok _ => r.buffer.values c.amount.toNat

def Answer.shown : Answer → Observation
  | registers vs => .words vs
  | bits bs => .bits bs
  | exception _ => .threw .stdException

theorem encodeReply_kind (request : List UInt8) (a : Answer) :
    byteAt (encodeReply request a) 7 = byteAt (a.pdu (byteAt request 7)) 0 := rfl

theorem encodeReply_code (request : List UInt8) (a : Answer) :
    byteAt (encodeReply request a) 8 = byteAt (a.pdu (byteAt request 7)) 1 := rfl

theorem examined_cell (mem : Memory) (func : Func) (bs : List UInt8) (i : Nat) :
    (examined mem func (.bytes bs)).cell i = bs.getD i ((newToRec mem).cell i) := by
  simp only [examined, modbusErrorHandle]
  split
  · cases ExCode.ofByte _ <;> rfl
  · rfl

theorem contents_eq {α : Type} {a : CArray α} {vs : List α}
    (h : ∀ i (hi : i < vs.length), a.cell i = vs[i]) : a.contents vs.length = vs := by
  apply List.ext_getElem (a.contents_length _)
  intro i _ hi
  simp only [CArray.contents, List.getElem_map, List.getElem_range]
  exact h i hi

theorem request_func (mem : Memory) (m : Modbus) (c : ReadCall) :
    byteAt ((c.toSend mem m).contents 12) 7 = UInt8.ofNat c.func.code := rfl

theorem func_small (c : ReadCall) : c.func.code < 5 := by
  cases c <;> simp [ReadCall.func, Func.code]

theorem encoded_recognised (c : ReadCall) {request : List UInt8}
    (func : byteAt request 7 = UInt8.ofNat c.func.code) (a : Answer) (answers : a.Answers c) :
    Recognised c.func (encodeReply request a) ↔
      ∃ code, a = .exception code ∧ ∃ e : ExCode, code = e.value := by
  have small := func_small c
  simp only [Recognised, encodeReply_kind, encodeReply_code, func]
  cases a with
  | registers vs | bits vs =>
    constructor
    · rintro ⟨kind, -⟩
      simp only [Answer.pdu, byteAt, List.getD_cons_zero, UInt8.toNat_ofNat'] at kind
      omega
    · rintro ⟨code, same, -⟩
      cases same
  | exception code =>
    have kind : (UInt8.ofNat c.func.code + 0x80).toNat = c.func.code + 0x80 := by
      simp only [UInt8.toNat_add, UInt8.toNat_ofNat', UInt8.toNat_ofNat]
      omega
    constructor
    · rintro ⟨-, e, known⟩
      exact ⟨code, rfl, e, known⟩
    · rintro ⟨code', same, e, known⟩
      cases same
      exact ⟨kind, e, known⟩

theorem reply_data {header : List UInt8} (seven : header.length = 7) (f : UInt8) (a : Answer)
    (k : Nat) (x : UInt8) :
    (header ++ a.pdu f).getD (k + 9) x = (a.pdu f).getD (k + 2) x := by
  have behind : header.length ≤ k + 9 := by omega
  have place : k + 9 - header.length = k + 2 := by omega
  rw [List.getD_eq_getElem?_getD, List.getElem?_append_right behind, place,
    ← List.getD_eq_getElem?_getD]

theorem registers_filled (mem : Memory) (func : Func) {header : List UInt8}
    (seven : header.length = 7) (f : UInt8) (vs : List UInt16) (buffer : CArray UInt16) :
    FilledWith buffer vs (forUpTo takeRegister
      (examined mem func (.bytes (header ++ (Answer.registers vs).pdu f)), buffer) vs.length).2 := by
  apply takeRegister_takes.filled takeRegister_fills
  intro i hi
  have high : 9 + 2 * i = 2 * i + 9 := by omega
  have low : 10 + 2 * i = 2 * i + 1 + 9 := by omega
  rw [registerAt, examined_cell, examined_cell, high, low, reply_data seven, reply_data seven]
  exact wordBytes_getD vs _ _ hi

theorem bits_filled (mem : Memory) (func : Func) {header : List UInt8}
    (seven : header.length = 7) (f : UInt8) (bs : List Bool) (buffer : CArray Bool) :
    FilledWith buffer bs (forUpTo takeBit
      (examined mem func (.bytes (header ++ (Answer.bits bs).pdu f)), buffer) bs.length).2 := by
  apply takeBit_takes.filled takeBit_fills
  intro i hi
  have place : 9 + i / 8 = i / 8 + 9 := Nat.add_comm ..
  rw [bitAt, examined_cell, place, reply_data seven]
  exact packBits_getD bs _ hi

theorem registers_decoded (mem : Memory) (func : Func) (request : List UInt8) (vs : List UInt16)
    (buffer : CArray UInt16) :
    (forUpTo takeRegister (examined mem func (.bytes (encodeReply request (.registers vs))), buffer)
      vs.length).2.contents vs.length = vs :=
  contents_eq (registers_filled mem func rfl _ vs buffer).values

theorem bits_decoded (mem : Memory) (func : Func) (request : List UInt8) (bs : List Bool)
    (buffer : CArray Bool) :
    (forUpTo takeBit (examined mem func (.bytes (encodeReply request (.bits bs))), buffer)
      bs.length).2.contents bs.length = bs :=
  contents_eq (bits_filled mem func rfl _ bs buffer).values

theorem Answer.Answers.registers_amount {c : ReadCall} {vs : List UInt16}
    (answers : (Answer.registers vs).Answers c) : c.amount.toNat = vs.length := by
  cases c with
  | coils | inputBits => exact answers.elim
  | holdingRegisters address n b | inputRegisters address n b =>
    have count : (vs.length : Int) = n := answers
    simp only [ReadCall.amount]
    omega

theorem Answer.Answers.bits_amount {c : ReadCall} {bs : List Bool}
    (answers : (Answer.bits bs).Answers c) : c.amount.toNat = bs.length := by
  cases c with
  | holdingRegisters | inputRegisters => exact answers.elim
  | coils address n b | inputBits address n b =>
    have count : (bs.length : Int) = n := answers
    simp only [ReadCall.amount]
    omega

/-- Decoding undoes the encoding, for any number of registers or bits. -/
theorem decode_encoded (mem : Memory) (c : ReadCall) (request : List UInt8) (a : Answer)
    (answers : a.Answers c) (plain : ∀ code, a ≠ .exception code) :
    (c.decode (examined mem c.func (.bytes (encodeReply request a)))).2.values c.amount.toNat =
      a.shown := by
  cases a with
  | exception code => exact absurd rfl (plain code)
  | registers vs =>
    cases c with
    | coils | inputBits => exact answers.elim
    | holdingRegisters address n b | inputRegisters address n b =>
      have same : n.toNat = vs.length := answers.registers_amount
      simp only [ReadCall.decode, ReadCall.amount, same, Prod.map, Buffer.values, Answer.shown,
        registers_decoded]
  | bits bs =>
    cases c with
    | holdingRegisters | inputRegisters => exact answers.elim
    | coils address n b | inputBits address n b =>
      have same : n.toNat = bs.length := answers.bits_amount
      simp only [ReadCall.decode, ReadCall.amount, same, Prod.map, Buffer.values, Answer.shown,
        bits_decoded]

theorem verdict_known {func : Func} {bs : List UInt8} (recognised : Recognised func bs) :
    verdict func (.bytes bs) = .error .stdException := by
  obtain ⟨kind, e, code⟩ := recognised
  rw [verdict, if_pos kind, code, ofByte_value]
  rfl

theorem ReadCall.read_back {σ : Type} (p : Platform σ) {m : Modbus} (w : σ) {c : ReadCall}
    {a : Answer} (connected : m.connected = true) (accepted : (Call.read c).Accepted)
    (answers : a.Answers c) (taken : a.Taken)
    (got : (answer p m w (c.toSend (p.memory w) m) 12).1 =
      .bytes (encodeReply ((c.toSend (p.memory w) m).contents 12) a)) :
    c.observe (c.perform p m w) = a.shown := by
  have eq := c.perform_eq p w connected accepted
  have known := encoded_recognised c (request_func (p.memory w) m c) a answers
  simp only [got] at eq
  by_cases plain : ∀ code, a ≠ .exception code
  · have other : ¬ Recognised c.func (encodeReply ((c.toSend (p.memory w) m).contents 12) a) := by
      intro recognised
      obtain ⟨code, same, -⟩ := known.mp recognised
      exact plain code same
    have normal : verdict c.func (.bytes (encodeReply ((c.toSend (p.memory w) m).contents 12) a)) =
        .ok () := by
      by_contra thrown
      exact other ((verdict_bytes _ _).mp thrown)
    simp only [normal] at eq
    simp only [observe, eq]
    exact decode_encoded _ c _ a answers plain
  · obtain ⟨code, same⟩ : ∃ code, a = .exception code := by
      by_contra none
      exact plain (fun code same => none ⟨code, same⟩)
    subst same
    have thrown := verdict_known (known.mpr ⟨code, rfl, taken⟩)
    simp only [thrown] at eq
    simp only [observe, eq, Answer.shown]

/-- The buffer after a read, against the buffer before it and the answer. -/
def Buffer.FilledBy : Buffer → Answer → Buffer → Prop
  | .words before, .registers vs, .words filled => FilledWith before vs filled
  | .bits before, .bits bs, .bits filled => FilledWith before bs filled
  | _, _, _ => False

theorem decode_fills (mem : Memory) (c : ReadCall) {header : List UInt8} (seven : header.length = 7)
    (f : UInt8) {a : Answer} (answers : a.Answers c) (plain : ∀ code, a ≠ .exception code) :
    c.buffer.FilledBy a (c.decode (examined mem c.func (.bytes (header ++ a.pdu f)))).2 := by
  cases a with
  | exception code => exact absurd rfl (plain code)
  | registers vs =>
    cases c with
    | coils | inputBits => exact answers.elim
    | holdingRegisters address n b | inputRegisters address n b =>
      have same : n.toNat = vs.length := answers.registers_amount
      simp only [ReadCall.decode, same]
      exact registers_filled mem _ seven f vs b
  | bits bs =>
    cases c with
    | holdingRegisters | inputRegisters => exact answers.elim
    | coils address n b | inputBits address n b =>
      have same : n.toNat = bs.length := answers.bits_amount
      simp only [ReadCall.decode, same]
      exact bits_filled mem _ seven f bs b

theorem answered_amount {c : ReadCall} {a : Answer} (answers : a.Answers c)
    (plain : ∀ code, a ≠ .exception code) {f : UInt8} (fits : 7 + (a.pdu f).length ≤ maxMsgLength) :
    c.amount ≤ c.limit := by
  cases a with
  | exception code => exact absurd rfl (plain code)
  | registers vs =>
    simp only [Answer.pdu, List.length_cons, wordBytes_length, maxMsgLength] at fits
    cases c with
    | coils | inputBits => exact answers.elim
    | holdingRegisters address n b | inputRegisters address n b =>
      have same : (vs.length : Int) = n := answers
      simp only [ReadCall.amount, ReadCall.limit]
      omega
  | bits bs =>
    simp only [Answer.pdu, List.length_cons, packBits_length, maxMsgLength] at fits
    cases c with
    | holdingRegisters | inputRegisters => exact answers.elim
    | coils address n b | inputBits address n b =>
      have same : (bs.length : Int) = n := answers
      simp only [ReadCall.amount, ReadCall.limit]
      omega

/-- A plain reply that one Recv gives whole is decoded to what the server encoded: the read
returns normally, the buffer holds the data, and nothing else in it is touched. -/
theorem reads_undo_encoding {σ : Type} (p : Platform σ) (m : Modbus) (w : σ) (c : ReadCall)
    (a : Answer) (header : List UInt8) (connected : m.connected = true) (reach : c.address ≤ 65535)
    (seven : header.length = 7) (answers : a.Answers c) (plain : ∀ code, a ≠ .exception code)
    (fits : (header ++ a.pdu (UInt8.ofNat c.func.code)).length ≤ maxMsgLength)
    (got : (answer p m w (c.toSend (p.memory w) m) 12).1 =
      .bytes (header ++ a.pdu (UInt8.ofNat c.func.code))) :
    (c.perform p m w).outcome = .ok () ∧ c.buffer.FilledBy a (c.perform p m w).buffer := by
  have accepted : (Call.read c).Accepted := by
    rw [List.length_append, seven] at fits
    refine ⟨reach, ?_⟩
    intro n same
    cases Option.some.inj same
    exact answered_amount answers plain fits
  have kind : byteAt (header ++ a.pdu (UInt8.ofNat c.func.code)) 7 = UInt8.ofNat c.func.code := by
    have first : byteAt (header ++ a.pdu (UInt8.ofNat c.func.code)) 7 =
        byteAt (a.pdu (UInt8.ofNat c.func.code)) 0 := by
      rw [byteAt, List.getD_eq_getElem?_getD, List.getElem?_append_right (Nat.le_of_eq seven), seven,
        Nat.sub_self, ← List.getD_eq_getElem?_getD, byteAt]
    rw [first]
    cases a with
    | exception code => exact absurd rfl (plain code)
    | registers vs | bits bs => rfl
  have normal : verdict c.func (.bytes (header ++ a.pdu (UInt8.ofNat c.func.code))) = .ok () := by
    have small := func_small c
    apply Decidable.byContradiction
    intro thrown
    obtain ⟨exception, -⟩ := (verdict_bytes _ _).mp thrown
    rw [kind, UInt8.toNat_ofNat'] at exception
    omega
  have eq := c.perform_eq p w connected accepted
  simp only [got, normal] at eq
  rw [eq]
  exact ⟨rfl, decode_fills _ c seven _ answers plain⟩

def threeRegisters : ReadCall := .holdingRegisters 3000 3 (CArray.fresh 3 (fun _ => 0))

theorem reads_undo_encoding_three :
    (threeRegisters.perform (scripted (replied
      (.bytes [0, 1, 0, 0, 0, 9, 1, 3, 6, 1, 44, 0, 0, 255, 254]))) plc unused).outcome = .ok () ∧
      threeRegisters.buffer.FilledBy (.registers [300, 0, 65534])
        (threeRegisters.perform (scripted (replied
          (.bytes [0, 1, 0, 0, 0, 9, 1, 3, 6, 1, 44, 0, 0, 255, 254]))) plc unused).buffer :=
  reads_undo_encoding _ plc unused threeRegisters (.registers [300, 0, 65534])
    [0, 1, 0, 0, 0, 9, 1] rfl (by decide) rfl rfl (by simp) (by decide) rfl

end DevAccess.ModbusTcp
