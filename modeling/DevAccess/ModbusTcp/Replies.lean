import DevAccess.ModbusTcp.Decode

/-! What the client makes of a reply. Every statement is about one accepted call on a
connected object and quantifies over all that Send and Recv can give. -/
namespace DevAccess.ModbusTcp
open Foundation

/-- The bytes are a complete reply to the request the call has just sent. -/
structure Complete (m : Modbus) (c : ReadCall) (bs : List UInt8) : Prop where
  transaction : (word (byteAt bs 0) (byteAt bs 1) : Int) = m.msgId % 65536
  unit : byteAt bs 6 = UInt8.ofInt m.slaveId
  func : (byteAt bs 7).toNat = c.func.code
  count : ((byteAt bs 8).toNat : Int) = c.dataBytes
  length : 9 + c.dataBytes ≤ bs.length

def plc : Modbus := { Modbus.make "192.168.1.10" 502 with connected := true, socket := 7 }
def oneRegister : ReadCall := .holdingRegisters 2020 1 (CArray.fresh 1 (fun _ => 0))
def replied (r : Received) : Outcomes := ⟨true, 8, 12, r, fun _ => 0, fun _ => 0, fun _ => 0⟩
def unused : Log := ⟨[], ∅⟩

/-- A read returns normally only on a complete reply to a request that Send took
whole. Everything else makes it throw and keep its hands off the buffer. -/
structure ReadContract (o : Outcomes) (m : Modbus) (w : Log) (c : ReadCall) (bs : List UInt8) :
    Prop where
  normal : (c.perform (scripted o) m w).outcome = .ok () → o.sendRet = 12 ∧ Complete m c bs
  otherwise : ¬ (o.sendRet = 12 ∧ Complete m c bs) →
    (c.perform (scripted o) m w).outcome ≠ .ok () ∧ (c.perform (scripted o) m w).buffer = c.buffer

theorem take_whole {bs : List UInt8} {n : Nat} (short : bs.length ≤ n) :
    (Received.bytes bs).take n = .bytes bs := by
  simp only [Received.take, List.take_of_length_le short]

theorem read_throws_iff {o : Outcomes} {m : Modbus} (w : Log) {c : ReadCall} {bs : List UInt8}
    (connected : m.connected = true) (accepted : (Call.read c).Accepted)
    (reply : o.reply = .bytes bs) (short : bs.length ≤ 1024) :
    (c.perform (scripted o) m w).outcome ≠ .ok () ↔ Recognised c.func bs := by
  have ends := ReadCall.exchanged (scripted o) w connected accepted
  have outcome : (c.perform (scripted o) m w).outcome = verdict c.func (o.reply.take 1024) :=
    ends.outcome
  rw [outcome, reply, take_whole short, verdict_bytes]

/-- The read operations keep their contract exactly where the reply is complete, or
is an exception reply with one of the codes that the error handler knows. -/
theorem read_contract_iff (o : Outcomes) (m : Modbus) (w : Log) (c : ReadCall) (bs : List UInt8)
    (connected : m.connected = true) (accepted : (Call.read c).Accepted)
    (reply : o.reply = .bytes bs) (short : bs.length ≤ maxMsgLength) :
    ReadContract o m w c bs ↔ (o.sendRet = 12 ∧ Complete m c bs) ∨ Recognised c.func bs := by
  have within : bs.length ≤ 1024 := Nat.le_trans short (by decide)
  have throws := read_throws_iff w connected accepted reply within
  have kept := (ReadCall.exchanged (scripted o) w connected accepted).kept
  constructor
  · intro contract
    by_cases recognised : Recognised c.func bs
    · exact .inr recognised
    · have normal : (c.perform (scripted o) m w).outcome = .ok () :=
        Decidable.not_not.mp (mt throws.mp recognised)
      exact .inl (contract.normal normal)
  · rintro (good | recognised)
    · exact ⟨fun _ => good, fun bad => absurd good bad⟩
    · have thrown := throws.mpr recognised
      exact ⟨fun normal => absurd normal thrown, fun _ => ⟨thrown, kept thrown⟩⟩

/-- The peer closed the connection: the read returns normally, with zeros. -/
theorem closed_peer_read : ¬ ReadContract (replied (.bytes [])) plc unused oneRegister [] := by
  intro contract
  have good := contract.normal rfl
  have length := good.2.length
  simp [oneRegister, ReadCall.dataBytes] at length

theorem read_contract_complete :
    ReadContract (replied (.bytes [0, 1, 0, 0, 0, 5, 1, 3, 2, 1, 44])) plc unused oneRegister
      [0, 1, 0, 0, 0, 5, 1, 3, 2, 1, 44] :=
  (read_contract_iff _ plc unused oneRegister _ rfl (by decide) rfl (by decide)).mpr
    (.inl ⟨rfl, by constructor <;> decide⟩)

def Call.Allocates : Call → Prop
  | writeCoils _ n _ => 0 ≤ n
  | writeRegisters _ n _ => 0 ≤ int32 (13 + 2 * n)
  | _ => True

theorem coils_length_nonneg {n : Int} (lower : 0 ≤ n) (upper : n ≤ 65535) :
    ¬ 14 + (int32 (n - 1)).tdiv 8 < 0 := by
  rw [int32_of_range (by omega) (by omega)]
  by_cases zero : n = 0
  · subst zero
    decide
  · rw [Int.tdiv_eq_ediv_of_nonneg (by omega)]
    omega

/-- A call is aborted before its request exactly where new refuses an array. -/
theorem request_error_iff (mem : Memory) (m : Modbus) {c : Call} (accepted : c.Accepted) :
    (∃ e, c.request mem m = .error e) ↔ ¬ c.Allocates := by
  cases c with
  | read c | writeCoil a v | writeRegister a v =>
    simp [Call.request, Call.Allocates, singleRequest, newArray, bind, Except.bind, pure, Except.pure]
  | writeCoils a n v =>
    have upper : n ≤ 65535 := accepted.2 n rfl
    by_cases negative : n < 0
    · simp [Call.request, Call.Allocates, newArray, negative, bind, Except.bind]
    · have lower : 0 ≤ n := by omega
      simp [Call.request, Call.Allocates, newArray, negative, coilsRequest,
        coils_length_nonneg lower upper, lower, bind, Except.bind, pure, Except.pure]
  | writeRegisters a n v =>
    by_cases negative : int32 (13 + 2 * n) < 0
    · simp [Call.request, Call.Allocates, newArray, negative, registersRequest, bind, Except.bind]
    · have lower : 0 ≤ int32 (13 + 2 * n) := by omega
      simp [Call.request, Call.Allocates, newArray, negative, registersRequest, lower, bind,
        Except.bind, pure, Except.pure]

def ReadCall.decodable : ReadCall → Int
  | holdingRegisters .. | inputRegisters .. => 125
  | coils .. | inputBits .. => 2008

/-- Every cell of to_rec that the call reads or writes exists. -/
def StaysInside (o : Outcomes) (m : Modbus) (w : Log) (c : ReadCall) : Prop :=
  ∀ a, (c.perform (scripted o) m w).locals.toRec = some a →
    ∀ j, j ∈ a.reads ∨ j ∈ a.writes → j < maxMsgLength

theorem indices_inside (c : ReadCall) :
    (∀ j, (∃ i < c.amount.toNat, j ∈ c.indices i) → j < maxMsgLength) ↔
      c.amount ≤ c.decodable := by
  cases c with
  | holdingRegisters a n b | inputRegisters a n b =>
    simp only [ReadCall.amount, ReadCall.indices, ReadCall.decodable, maxMsgLength]
    constructor
    · intro inside
      by_contra large
      have last := inside (10 + 2 * 125) ⟨125, by omega, by simp⟩
      omega
    · rintro small j ⟨i, hi, hj⟩
      have place : j = 9 + 2 * i ∨ j = 10 + 2 * i := by simpa using hj
      omega
  | coils a n b | inputBits a n b =>
    simp only [ReadCall.amount, ReadCall.indices, ReadCall.decodable, maxMsgLength]
    constructor
    · intro inside
      by_contra large
      have last := inside (9 + 2008 / 8) ⟨2008, by omega, by simp⟩
      omega
    · rintro small j ⟨i, hi, hj⟩
      have place : j = 9 + i / 8 := by simpa using hj
      omega

/-- Storing the reply touches as many cells as it has bytes, and the error handler
only cells 7 and 8. -/
theorem examined_accesses (mem : Memory) (func : Func) (bs : List UInt8) :
    (∀ j, j ∈ (examined mem func (.bytes bs)).writes ↔ j < bs.length) ∧
      ∀ j ∈ (examined mem func (.bytes bs)).reads, j < 9 := by
  simp only [examined, modbusErrorHandle]
  split
  · cases ExCode.ofByte _ <;> simp [newToRec]
  · simp [newToRec]

theorem range_inside {k n : Nat} : (∀ j, j < k → j < n) ↔ k ≤ n := by
  constructor
  · intro h
    by_contra large
    exact absurd (h n (by omega)) (Nat.lt_irrefl n)
  · exact fun h j hj => Nat.lt_of_lt_of_le hj h

/-- Where a read stays inside its 260 bytes: the reply has to fit, and the amount has
to be small enough unless the call throws before it decodes. -/
theorem read_inside_iff (o : Outcomes) (m : Modbus) (w : Log) (c : ReadCall)
    (connected : m.connected = true) (accepted : (Call.read c).Accepted)
    (short : o.reply.data.length ≤ 1024) :
    StaysInside o m w c ↔ o.reply.data.length ≤ maxMsgLength ∧
      (o.reply = .failed ∨ Recognised c.func o.reply.data ∨ c.amount ≤ c.decodable) := by
  have got : ∀ a n, (answer (scripted o) m w a n).1 = o.reply.take 1024 := fun _ _ => rfl
  have eq := c.perform_eq (scripted o) w connected accepted
  simp only [got] at eq
  cases hr : o.reply with
  | failed =>
    simp only [hr, Received.take, verdict, examined] at eq
    simp [StaysInside, eq, newToRec, Received.data]
  | bytes bs =>
    have whole : bs.length ≤ 1024 := by simpa only [hr, Received.data] using short
    have accesses := examined_accesses o.memory c.func bs
    have known := verdict_bytes c.func bs
    simp only [hr, take_whole whole] at eq
    simp only [Received.data, reduceCtorEq, false_or]
    cases hv : verdict c.func (.bytes bs) with
    | error e =>
      have recognised : Recognised c.func bs := known.mp (by rw [hv]; simp)
      simp only [hv] at eq
      simp only [StaysInside, eq, Option.some.injEq, forall_eq', recognised, true_or, and_true,
        ← range_inside]
      constructor
      · intro inside j hj
        exact inside j (.inr ((accesses.1 j).mpr hj))
      · rintro fits j (read | written)
        · exact Nat.lt_trans (accesses.2 j read) (by decide)
        · exact fits j ((accesses.1 j).mp written)
    | ok u =>
      have other : ¬ Recognised c.func bs := fun recognised => known.mpr recognised hv
      obtain ⟨a, here, writes, reads⟩ := ReadCall.toRec_decoded (scripted o) w connected accepted
        ((got _ _).trans (hr ▸ take_whole whole)) hv
      simp only [StaysInside, here, Option.some.injEq, forall_eq', other, false_or,
        ← range_inside, ← indices_inside]
      constructor
      · intro inside
        constructor
        · intro j hj
          exact inside j (.inr (writes ▸ (accesses.1 j).mpr hj))
        · intro j pass
          exact inside j (.inl ((reads j).mpr (.inr pass)))
      · rintro ⟨fits, decodes⟩ j (read | written)
        · rcases (reads j).mp read with handler | pass
          · exact Nat.lt_trans (accesses.2 j handler) (by decide)
          · exact decodes j pass
        · exact fits j ((accesses.1 j).mp (writes ▸ written))

def tooMany : ReadCall := .holdingRegisters 2020 126 (CArray.fresh 126 (fun _ => 0))

/-- An accepted amount of 126 registers makes the decoding loop read cell 260. -/
theorem read_outside : ¬ StaysInside (replied (.bytes [])) plc unused tooMany := by
  intro inside
  obtain ⟨a, here, -, reads⟩ : ∃ a, (tooMany.perform _ plc unused).locals.toRec = some a ∧ _ :=
    ReadCall.toRec_decoded (scripted (replied (.bytes []))) unused rfl (by decide) rfl rfl
  have last := (reads 260).mpr (.inr ⟨125, by decide, by decide⟩)
  exact absurd (inside a here 260 (.inl last)) (by decide)

theorem read_inside_largest :
    StaysInside (replied (.bytes [])) plc unused
      (.coils 0 2008 (CArray.fresh 2008 (fun _ => false))) :=
  (read_inside_iff _ plc unused _ rfl (by decide) (by decide)).mpr
    ⟨by decide, .inr (.inr (by decide))⟩

end DevAccess.ModbusTcp
