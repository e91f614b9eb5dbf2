import DevAccess.ModbusTcp.Requests

/-! What the frames carry: the fields that every request sets in its head, where the
guards make these the arguments of the call, and the data of a multiple-register write. -/
namespace DevAccess.ModbusTcp
open Foundation

/-- The fields that ModbusBuildRequest has set, whatever the request adds to them. -/
structure Headed (m : Modbus) (func : Func) (address : Int) (toSend : CArray UInt8) : Prop where
  id : toSend.cell 0 = hiByte m.msgId ∧ toSend.cell 1 = loByte m.msgId
  func : toSend.cell 7 = UInt8.ofNat func.code
  address : toSend.cell 8 = hiByte address ∧ toSend.cell 9 = loByte address

theorem Headed.of_head {m : Modbus} {func : Func} {address : Int} {a b : CArray UInt8}
    (headed : Headed m func address a) (same : ∀ j < 13, b.cell j = a.cell j) :
    Headed m func address b := by
  constructor
  · rw [same 0 (by decide), same 1 (by decide)]
    exact headed.id
  · rw [same 7 (by decide)]
    exact headed.func
  · rw [same 8 (by decide), same 9 (by decide)]
    exact headed.address

theorem readRequest_headed (mem : Memory) (m : Modbus) (address amount : Int) (func : Func) :
    Headed m func address (readRequest mem m address amount func) :=
  ⟨⟨rfl, rfl⟩, rfl, rfl, rfl⟩

theorem singleRequest_headed {mem : Memory} {m : Modbus} {address : Int} {func : Func}
    {value : CArray UInt16} {r : Request} (built : singleRequest mem m address func value = .ok r) :
    Headed m func address r.toSend ∧ r.length = 12 := by
  cases Except.ok.inj built
  exact ⟨⟨⟨rfl, rfl⟩, rfl, rfl, rfl⟩, rfl⟩

theorem newArray_ok {α : Type} {n : Int} {contents : Nat → α} {a : CArray α}
    (made : newArray n contents = .ok a) : 0 ≤ n ∧ a = CArray.fresh n.toNat contents := by
  unfold newArray at made
  split at made
  · cases made
  · cases made
    exact ⟨by omega, rfl⟩

theorem registersRequest_headed {mem : Memory} {m : Modbus} {address amount : Int}
    {value : CArray UInt16} {r : Request}
    (built : registersRequest mem m address amount value = .ok r) :
    Headed m .writeRegs address r.toSend ∧ r.length = int32 (13 + 2 * amount) ∧ 0 ≤ r.length := by
  cases made : newArray (int32 (13 + 2 * amount)) mem.bytes with
  | error e =>
    simp only [registersRequest, made] at built
    cases built
  | ok a =>
    simp only [registersRequest, made] at built
    cases Except.ok.inj built
    refine ⟨?_, rfl, (newArray_ok made).1⟩
    have head : Headed m .writeRegs address (registersHead m a address amount) :=
      ⟨⟨rfl, rfl⟩, rfl, rfl, rfl⟩
    exact head.of_head (loop_keeps_head putRegister_head _ _)

theorem coilsRequest_headed {mem : Memory} {m : Modbus} {address amount : Int}
    {value : CArray UInt16} {r : Request}
    (built : coilsRequest mem m address amount value = .ok r) :
    Headed m .writeCoils address r.toSend ∧ r.length = 14 + (int32 (amount - 1)).tdiv 8 := by
  cases made : newArray (14 + (int32 (amount - 1)).tdiv 8) mem.bytes with
  | error e =>
    simp only [coilsRequest, made] at built
    cases built
  | ok a =>
    simp only [coilsRequest, made] at built
    cases Except.ok.inj built
    refine ⟨?_, rfl⟩
    have head : Headed m .writeCoils address (coilsHead m a address amount) :=
      ⟨⟨rfl, rfl⟩, rfl, rfl, rfl⟩
    exact head.of_head (loop_keeps_head putCoil_head _ _)

theorem Call.request_headed {mem : Memory} {m : Modbus} {c : Call} {r : Request}
    (built : c.request mem m = .ok r) : Headed m c.func c.address r.toSend := by
  cases c with
  | read c =>
    cases Except.ok.inj built
    exact readRequest_headed mem m c.address c.amount c.func
  | writeCoil a v | writeRegister a v => exact (singleRequest_headed built).1
  | writeCoils a n v =>
    cases made : newArray n mem.words with
    | error e =>
      simp only [Call.request, made] at built
      cases built
    | ok temp =>
      simp only [Call.request, made] at built
      exact (coilsRequest_headed built).1
  | writeRegisters a n v => exact (registersRequest_headed built).1

section Fields

/-- What the guards are to see to: the call is refused before anything is sent, or the
fields of its frame are its arguments. -/
def FieldsKept (o : Outcomes) (m : Modbus) (w : Log) (c : Call) : Prop :=
  ((c.perform (scripted o) m w).outcome = .error .modbusAmountException ∧
      (c.perform (scripted o) m w).world.sent = w.sent) ∨
    ∃ frame, (c.perform (scripted o) m w).world.sent = w.sent ++ [frame] ∧
      (word (byteAt frame 8) (byteAt frame 9) : Int) = c.address ∧
      ∀ n ∈ c.amount?, (word (byteAt frame 10) (byteAt frame 11) : Int) = n

theorem single_frame (mem : Memory) (m : Modbus) {c : Call} (single : ¬ c.func.Multiple) :
    ∃ r, c.request mem m = .ok r ∧ r.length = 12 ∧
      ∀ n ∈ c.amount?, r.toSend.cell 10 = hiByte n ∧ r.toSend.cell 11 = loByte n := by
  cases c with
  | read c =>
    refine ⟨_, rfl, rfl, ?_⟩
    intro n same
    cases Option.some.inj same
    exact ⟨rfl, rfl⟩
  | writeCoil a v | writeRegister a v =>
    refine ⟨_, rfl, rfl, ?_⟩
    intro n same
    cases same
  | writeCoils a n v => exact absurd (.inl rfl) single
  | writeRegisters a n v => exact absurd (.inr rfl) single

theorem word_eq_iff {x : Int} (upper : x ≤ 65535) :
    (word (hiByte x) (loByte x) : Int) = x ↔ 0 ≤ x := by
  rw [word_bytes]
  omega

/-- The frame of an accepted read or single write carries the arguments exactly if none of
them is negative. -/
theorem accepted_fields (o : Outcomes) {m : Modbus} (w : Log) {c : Call}
    (connected : m.connected = true) (single : ¬ c.func.Multiple) (accepted : c.Accepted) :
    FieldsKept o m w c ↔ 0 ≤ c.address ∧ ∀ n ∈ c.amount?, 0 ≤ n := by
  obtain ⟨r, built, twelve, quantity⟩ := single_frame o.memory m single
  have sent := sent_frame o w connected accepted built
  have headed := Call.request_headed built
  have limit : ∀ n ∈ c.amount?, n ≤ 65535 := by
    intro n here
    have within := accepted.2 n here
    have bound : c.limit ≤ 65535 := by
      cases c with
      | read c => cases c <;> simp [Call.limit, ReadCall.limit]
      | writeCoil | writeRegister | writeCoils | writeRegisters => exact Int.le_refl _
    exact Int.le_trans within bound
  have field (i : Nat) (small : i < 12) : byteAt r.frame i = r.toSend.cell i := by
    rw [Request.frame, twelve]
    exact byteAt_contents _ small
  have start : (word (byteAt r.frame 8) (byteAt r.frame 9) : Int) = c.address ↔ 0 ≤ c.address := by
    rw [field 8 (by decide), field 9 (by decide), headed.address.1, headed.address.2]
    exact word_eq_iff accepted.1
  have amount : ∀ n ∈ c.amount?,
      (word (byteAt r.frame 10) (byteAt r.frame 11) : Int) = n ↔ 0 ≤ n := by
    intro n here
    rw [field 10 (by decide), field 11 (by decide), (quantity n here).1, (quantity n here).2]
    exact word_eq_iff (limit n here)
  constructor
  · rintro (⟨-, nothing⟩ | ⟨frame, one, address, rest⟩)
    · rw [sent] at nothing
      exact absurd (congrArg List.length nothing) (by simp)
    · rw [sent, List.append_cancel_left_eq, List.cons.injEq] at one
      rw [← one.1] at address rest
      exact ⟨start.mp address, fun n here => (amount n here).mp (rest n here)⟩
  · rintro ⟨low, rest⟩
    exact .inr ⟨r.frame, sent, start.mpr low, fun n here => (amount n here).mpr (rest n here)⟩

/-- The guards of the six operations are complete but for negative arguments. -/
theorem fields_kept_iff (o : Outcomes) (m : Modbus) (w : Log) (c : Call)
    (connected : m.connected = true) (single : ¬ c.func.Multiple) :
    FieldsKept o m w c ↔ ¬ c.Accepted ∨ (0 ≤ c.address ∧ ∀ n ∈ c.amount?, 0 ≤ n) := by
  by_cases accepted : c.Accepted
  · rw [accepted_fields o w connected single accepted]
    exact ⟨.inr, fun h => h.resolve_left (fun rejected => rejected accepted)⟩
  · have refused := Call.perform_rejected (scripted o) w connected accepted
    exact ⟨fun _ => .inl accepted, fun _ => .inl ⟨refused.outcome, by rw [refused.world]⟩⟩

/-- Address -1 passes the guard and goes out as 65535, amount -1 as well. -/
theorem negative_fields :
    ¬ FieldsKept (replied .failed) plc unused (.writeCoil (-1) true) ∧
      ¬ FieldsKept (replied .failed) plc unused
        (.read (.holdingRegisters 0 (-1) (CArray.fresh 1 (fun _ => 0)))) := by
  constructor
  · intro kept
    have carried := (accepted_fields _ unused rfl (by decide) (by decide)).mp kept
    exact absurd carried.1 (by decide)
  · intro kept
    have carried := (accepted_fields _ unused rfl (by decide) (by decide)).mp kept
    exact absurd (carried.2 (-1) rfl) (by decide)

theorem fields_kept_read : FieldsKept (replied .failed) plc unused (.read oneRegister) :=
  (fields_kept_iff _ plc unused _ rfl (by decide)).mpr
    (.inr ⟨by decide, by intro n same; cases same; decide⟩)

end Fields

section Registers

/-- The frame of a multiple-register write decodes to the call. -/
structure RegistersFrame (address amount : Int) (values : CArray UInt16) (frame : List UInt8) :
    Prop where
  func : byteAt frame 7 = 0x10
  start : (word (byteAt frame 8) (byteAt frame 9) : Int) = address
  quantity : (word (byteAt frame 10) (byteAt frame 11) : Int) = amount
  registers : ∀ i : Nat, i < amount →
    word (byteAt frame (13 + 2 * i)) (byteAt frame (14 + 2 * i)) = (values.cell i).toNat
  length : (frame.length : Int) = 13 + 2 * amount

/-- The call sends one frame, which decodes to it. The array it is built in is as long as the
frame, is filled from byte 6 on, and is not written past its end. -/
structure RegistersRoundTrip (o : Outcomes) (m : Modbus) (w : Log) (address amount : Int)
    (values : CArray UInt16) : Prop where
  frame : ∃ frame, RegistersFrame address amount values frame ∧
    ((Call.writeRegisters address amount values).perform (scripted o) m w).world.sent =
      w.sent ++ [frame]
  toSend : ∃ a,
    ((Call.writeRegisters address amount values).perform (scripted o) m w).locals.toSend = some a ∧
      (a.size : Int) = 13 + 2 * amount ∧ (∀ j, 6 ≤ j → j < a.size → j ∈ a.writes) ∧
      ∀ j ∈ a.writes, j < a.size

/-- What n passes of the loop have laid behind the head: the registers so far, in order and
without a gap. -/
structure Laid (start : CArray UInt8) (values : CArray UInt16) (n : Nat)
    (s : CArray UInt8 × CArray UInt16) : Prop where
  size : s.1.size = start.size
  kept : s.2.cell = values.cell
  registers : ∀ i < n, s.1.cell (13 + 2 * i) = hiByte (values.cell i).toNat ∧
    s.1.cell (14 + 2 * i) = loByte (values.cell i).toNat
  writes : ∀ j, j ∈ s.1.writes ↔ j ∈ start.writes ∨ (13 ≤ j ∧ j < 13 + 2 * n)

theorem putRegister_laid {start : CArray UInt8} {values : CArray UInt16} {n : Nat}
    {s : CArray UInt8 × CArray UInt16} (laid : Laid start values n s) :
    Laid start values (n + 1) (putRegister n s) := by
  constructor
  · exact laid.size
  · exact laid.kept
  · intro i hi
    have value : s.2.cell n = values.cell n := congrFun laid.kept n
    rcases Nat.lt_succ_iff_lt_or_eq.mp hi with earlier | rfl
    · have high : 13 + 2 * i ≠ 13 + 2 * n ∧ 13 + 2 * i ≠ 14 + 2 * n := by omega
      have low : 14 + 2 * i ≠ 13 + 2 * n ∧ 14 + 2 * i ≠ 14 + 2 * n := by omega
      simp only [putRegister, CArray.write_cell, if_neg high.1, if_neg high.2, if_neg low.1,
        if_neg low.2]
      exact laid.registers i earlier
    · have apart : 13 + 2 * i ≠ 14 + 2 * i := by omega
      simp only [putRegister, CArray.write_cell, if_neg apart, CArray.read_value, CArray.read_cell,
        value, if_true, and_self]
  · intro j
    have range : (13 ≤ j ∧ j < 13 + 2 * (n + 1)) ↔
        j = 14 + 2 * n ∨ j = 13 + 2 * n ∨ (13 ≤ j ∧ j < 13 + 2 * n) := by omega
    rw [range]
    simp only [putRegister, CArray.write_writes, List.mem_cons, laid.writes]
    grind

theorem registers_laid (start : CArray UInt8) (values : CArray UInt16) (n : Nat) :
    Laid start values n (forUpTo putRegister (start, values) n) := by
  apply forUpTo_invariant (Laid start values)
  · refine ⟨rfl, rfl, fun i hi => absurd hi (Nat.not_lt_zero i), fun j => ?_⟩
    have none : ¬ (13 ≤ j ∧ j < 13 + 2 * 0) := by omega
    exact (or_iff_left none).symm
  · exact fun i s _ laid => putRegister_laid laid

theorem registersHead_writes (m : Modbus) (toSend : CArray UInt8) (address amount : Int) (j : Nat) :
    j ∈ (registersHead m toSend address amount).writes ↔ j < 13 ∨ j ∈ toSend.writes := by
  have range : j < 13 ↔ j ∈ [12, 11, 10, 5, 9, 8, 7, 6, 4, 3, 2, 1, 0] := by
    simp only [List.mem_cons, List.not_mem_nil, or_false]
    omega
  rw [range, ← List.mem_append]
  rfl

structure Filled (address amount : Int) (values : CArray UInt16) (toSend : CArray UInt8) : Prop where
  size : toSend.size = (13 + 2 * amount).toNat
  writes : ∀ j, j ∈ toSend.writes ↔ j < 13 ∨ (13 ≤ j ∧ j < 13 + 2 * amount.toNat)
  quantity : toSend.cell 10 = hiByte amount ∧ toSend.cell 11 = loByte amount
  registers : ∀ i < amount.toNat, toSend.cell (13 + 2 * i) = hiByte (values.cell i).toNat ∧
    toSend.cell (14 + 2 * i) = loByte (values.cell i).toNat

theorem request_filled (mem : Memory) (m : Modbus) (address amount : Int) (values : CArray UInt16) :
    Filled address amount values (forUpTo putRegister
      (registersHead m (CArray.fresh (13 + 2 * amount).toNat mem.bytes) address amount, values)
      amount.toNat).1 := by
  have laid := registers_laid (registersHead m (CArray.fresh (13 + 2 * amount).toNat mem.bytes)
    address amount) values amount.toNat
  constructor
  · exact laid.size
  · intro j
    rw [laid.writes, registersHead_writes]
    simp
  · constructor
    · exact loop_keeps_head putRegister_head (registersHead m _ address amount, values) _ 10 (by decide)
    · exact loop_keeps_head putRegister_head (registersHead m _ address amount, values) _ 11 (by decide)
  · exact laid.registers

theorem Filled.frame {m : Modbus} {address amount : Int} {values : CArray UInt16} {toSend : CArray UInt8}
    (filled : Filled address amount values toSend) (headed : Headed m .writeRegs address toSend)
    (start : 0 ≤ address ∧ address ≤ 65535) (quantity : 0 ≤ amount ∧ amount ≤ 65535) :
    RegistersFrame address amount values (toSend.contents (13 + 2 * amount).toNat) := by
  have field (i : Nat) (inside : i < (13 + 2 * amount).toNat) :
      byteAt (toSend.contents (13 + 2 * amount).toNat) i = toSend.cell i := byteAt_contents _ inside
  constructor
  · exact (field 7 (by omega)).trans headed.func
  · rw [field 8 (by omega), field 9 (by omega), headed.address.1, headed.address.2]
    exact (word_eq_iff start.2).mpr start.1
  · rw [field 10 (by omega), field 11 (by omega), filled.quantity.1, filled.quantity.2]
    exact (word_eq_iff quantity.2).mpr quantity.1
  · intro i hi
    have placed := filled.registers i (by omega)
    have value := word_bytes (values.cell i).toNat
    have range := (values.cell i).toNat_lt
    rw [field (13 + 2 * i) (by omega), field (14 + 2 * i) (by omega), placed.1, placed.2]
    omega
  · have nonneg : 0 ≤ 13 + 2 * amount := by omega
    rw [CArray.contents_length]
    exact Int.toNat_of_nonneg nonneg

/-- Write-multiple-registers sends what it was given, for every amount its guard accepts. -/
theorem registers_round_trip (o : Outcomes) (m : Modbus) (w : Log) (address amount : Int)
    (values : CArray UInt16) (connected : m.connected = true)
    (start : 0 ≤ address ∧ address ≤ 65535) (quantity : 0 ≤ amount ∧ amount ≤ 65535) :
    RegistersRoundTrip o m w address amount values := by
  have built : (Call.writeRegisters address amount values).request o.memory m = _ :=
    registersRequest_ok o.memory m address values quantity.1 quantity.2
  have accepted : (Call.writeRegisters address amount values).Accepted := by
    refine ⟨start.2, ?_⟩
    intro n same
    cases Option.some.inj same
    exact quantity.2
  have sent := sent_frame o w connected accepted built
  have ends : (Call.writeRegisters address amount values).Ends (scripted o) m w
      ((Call.writeRegisters address amount values).request o.memory m) :=
    Call.perform_ends (scripted o) w connected accepted
  rw [built] at ends
  have filled := request_filled o.memory m address amount values
  have framed := filled.frame (Call.request_headed built) start quantity
  refine ⟨⟨_, framed, sent⟩, ⟨_, Exchanged.toSend ends, ?_, ?_, ?_⟩⟩
  · rw [filled.size]
    omega
  · intro j _ inside
    rw [filled.size] at inside
    rw [filled.writes]
    omega
  · intro j written
    rw [filled.writes] at written
    rw [filled.size]
    omega

theorem registers_round_trip_two :
    RegistersRoundTrip (replied .failed) plc unused 2020 2 (CArray.fresh 2 (fun i => 513 + i.toUInt16)) :=
  registers_round_trip _ plc unused 2020 2 _ rfl (by decide) (by decide)

end Registers

end DevAccess.ModbusTcp
