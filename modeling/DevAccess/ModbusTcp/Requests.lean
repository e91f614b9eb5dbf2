import DevAccess.ModbusTcp.Replies

/-! The frames that the operations hand to Send, checked against the Modbus TCP
layout: where a frame agrees with its own length fields, and what a multiple-coil
write puts on the wire. -/
namespace DevAccess.ModbusTcp
open Foundation

theorem byteAt_contents (a : CArray UInt8) {i n : Nat} (h : i < n) :
    byteAt (a.contents n) i = a.cell i := a.contents_getD i 0 h

theorem loop_keeps_head {body : Nat → CArray UInt8 × CArray UInt16 → CArray UInt8 × CArray UInt16}
    (keeps : ∀ i s, ∀ j < 13, (body i s).1.cell j = s.1.cell j)
    (s : CArray UInt8 × CArray UInt16) (n : Nat) :
    ∀ j < 13, (forUpTo body s n).1.cell j = s.1.cell j := by
  induction n with
  | zero => exact fun j _ => rfl
  | succ n ih => exact fun j hj => (keeps n _ j hj).trans (ih j hj)

theorem putRegister_head (i : Nat) (s : CArray UInt8 × CArray UInt16) :
    ∀ j < 13, (putRegister i s).1.cell j = s.1.cell j := by
  intro j hj
  have low : j ≠ 13 + 2 * i := by omega
  have high : j ≠ 14 + 2 * i := by omega
  simp only [putRegister, CArray.write_cell, if_neg low, if_neg high]

theorem coil_index (i : Nat) : (13 + ((i : Int) - 1).tdiv 8).toNat = 13 + (i - 1) / 8 := by
  cases i with
  | zero => rfl
  | succ i =>
    rw [Int.tdiv_eq_ediv_of_nonneg (by omega)]
    omega

theorem putCoil_cell (i j : Nat) (s : CArray UInt8 × CArray UInt16) :
    (putCoil i s).1.cell j =
      if j = 13 + (i - 1) / 8 then
        s.1.cell j + UInt8.ofNat ((s.2.cell i).toNat <<< (i % 8)) else s.1.cell j := by
  simp only [putCoil, CArray.write_cell, CArray.read_value, CArray.read_cell, coil_index]
  by_cases here : j = 13 + (i - 1) / 8
  · simp [here]
  · simp [here]

theorem putCoil_head (i : Nat) (s : CArray UInt8 × CArray UInt16) :
    ∀ j < 13, (putCoil i s).1.cell j = s.1.cell j := by
  intro j hj
  have below : j ≠ 13 + (i - 1) / 8 := by omega
  rw [putCoil_cell, if_neg below]

def Func.Multiple (f : Func) : Prop := f = .writeCoils ∨ f = .writeRegs

instance (f : Func) : Decidable f.Multiple := inferInstanceAs (Decidable (_ ∨ _))

/-- The length fields of a frame agree with the frame. -/
structure Consistent (func : Func) (frame : List UInt8) : Prop where
  protocol : byteAt frame 2 = 0 ∧ byteAt frame 3 = 0
  length : word (byteAt frame 4) (byteAt frame 5) = (frame.drop 6).length
  count : func.Multiple → (byteAt frame 12).toNat = (frame.drop 13).length

def Request.frame (r : Request) : List UInt8 := r.toSend.contents r.length.toNat

theorem twelve_consistent {func : Func} {toSend : CArray UInt8}
    (two : toSend.cell 2 = 0) (three : toSend.cell 3 = 0) (four : toSend.cell 4 = 0)
    (five : toSend.cell 5 = 6) (single : ¬ func.Multiple) :
    Consistent func (toSend.contents 12) := by
  constructor
  · rw [byteAt_contents _ (by decide), byteAt_contents _ (by decide)]
    exact ⟨two, three⟩
  · rw [byteAt_contents _ (by decide), byteAt_contents _ (by decide), four, five]
    simp [word]
  · exact fun multiple => absurd multiple single

theorem registersRequest_ok (mem : Memory) (m : Modbus) (address : Int) {amount : Int}
    (value : CArray UInt16) (lower : 0 ≤ amount) (upper : amount ≤ 65535) :
    let s := forUpTo putRegister
      (registersHead m (CArray.fresh (13 + 2 * amount).toNat mem.bytes) address amount, value)
      amount.toNat
    registersRequest mem m address amount value = .ok ⟨s.1, 13 + 2 * amount, s.2⟩ := by
  have fits : int32 (13 + 2 * amount) = 13 + 2 * amount := int32_of_range (by omega) (by omega)
  have positive : ¬ 13 + 2 * amount < 0 := by omega
  simp only [registersRequest, fits, newArray, if_neg positive]
  rfl

def coilsStart (mem : Memory) (m : Modbus) (address amount : Int) (flags : CArray Bool) :
    CArray UInt8 × CArray UInt16 :=
  (coilsHead m (CArray.fresh (14 + (amount - 1) / 8).toNat mem.bytes) address amount,
    forUpTo (copyFlag flags) (CArray.fresh amount.toNat mem.words) 4)

def coilsLoop (mem : Memory) (m : Modbus) (address amount : Int) (flags : CArray Bool) :
    CArray UInt8 × CArray UInt16 :=
  forUpTo putCoil (coilsStart mem m address amount flags) amount.toNat

theorem coilsRequest_ok (mem : Memory) (m : Modbus) (address : Int) {amount : Int}
    (flags : CArray Bool) (lower : 1 ≤ amount) (upper : amount ≤ 65535) :
    (Call.writeCoils address amount flags).request mem m =
      .ok ⟨(coilsLoop mem m address amount flags).1, 14 + (amount - 1) / 8,
        (coilsLoop mem m address amount flags).2⟩ := by
  have fits : int32 (amount - 1) = amount - 1 := int32_of_range (by omega) (by omega)
  have floor : (amount - 1).tdiv 8 = (amount - 1) / 8 := Int.tdiv_eq_ediv_of_nonneg (by omega)
  have positive : ¬ 14 + (amount - 1) / 8 < 0 := by omega
  have filled : ¬ amount < 0 := by omega
  simp only [Call.request, coilsRequest, fits, floor, newArray, if_neg positive, if_neg filled]
  rfl

theorem coilsLoop_head (mem : Memory) (m : Modbus) (address amount : Int) (flags : CArray Bool)
    (j : Nat) (hj : j < 13) :
    (coilsLoop mem m address amount flags).1.cell j =
      (coilsHead m (CArray.fresh (14 + (amount - 1) / 8).toNat mem.bytes) address amount).cell j :=
  loop_keeps_head putCoil_head _ _ j hj

theorem sent_frame (o : Outcomes) {m : Modbus} (w : Log) {c : Call} (connected : m.connected = true)
    (accepted : c.Accepted) {r : Request} (built : c.request o.memory m = .ok r) :
    (c.perform (scripted o) m w).world.sent = w.sent ++ [r.frame] := by
  have ends : c.Ends (scripted o) m w (c.request o.memory m) :=
    Call.perform_ends (scripted o) w connected accepted
  rw [built] at ends
  exact congrArg Log.sent (Exchanged.world ends)

theorem short_length {func : Func} {r : Request} {x : Int} (four : r.toSend.cell 4 = 0)
    (five : r.toSend.cell 5 = UInt8.ofInt x) (positive : 0 ≤ x) (short : x + 6 < r.length) :
    ¬ Consistent func r.frame := by
  intro consistent
  have length := consistent.length
  rw [Request.frame, byteAt_contents _ (by omega), byteAt_contents _ (by omega), four, five] at length
  have value := ofInt_toNat x
  simp only [word, UInt8.toNat_zero, List.length_drop, CArray.contents_length] at length
  omega

/-- The frames of the four reads and the two single writes agree with their length
fields. Those of the two multiple writes never do, for any address and amount. -/
theorem frame_consistent_iff (o : Outcomes) (m : Modbus) (w : Log) (c : Call)
    (connected : m.connected = true) (accepted : c.Accepted) (some_data : ∀ n ∈ c.amount?, 1 ≤ n) :
    ∃ frame, (c.perform (scripted o) m w).world.sent = w.sent ++ [frame] ∧
      (Consistent c.func frame ↔ ¬ c.func.Multiple) := by
  cases c with
  | read c =>
    have single : ¬ c.func.Multiple := by cases c <;> simp [ReadCall.func, Func.Multiple]
    refine ⟨_, sent_frame o w connected accepted rfl, fun _ => single, fun _ => ?_⟩
    exact twelve_consistent rfl rfl rfl rfl single
  | writeCoil a v =>
    have single : ¬ Func.writeCoil.Multiple := by decide
    refine ⟨_, sent_frame o w connected accepted rfl, fun _ => single, fun _ => ?_⟩
    exact twelve_consistent rfl rfl rfl rfl single
  | writeRegister a v =>
    have single : ¬ Func.writeReg.Multiple := by decide
    refine ⟨_, sent_frame o w connected accepted rfl, fun _ => single, fun _ => ?_⟩
    exact twelve_consistent rfl rfl rfl rfl single
  | writeCoils a n v =>
    have lower : 1 ≤ n := some_data n rfl
    have upper : n ≤ 65535 := accepted.2 n rfl
    have built := coilsRequest_ok o.memory m a v lower upper
    have fits : int32 (n - 1) = n - 1 := int32_of_range (by omega) (by omega)
    have floor : (n - 1).tdiv 8 = (n - 1) / 8 := Int.tdiv_eq_ediv_of_nonneg (by omega)
    refine ⟨_, sent_frame o w connected accepted built, fun consistent => ?_,
      fun single => absurd (.inl rfl) single⟩
    refine absurd consistent (short_length (x := 7 + (n - 1) / 8) ?_ ?_ (by omega) (by dsimp only; omega))
    · exact coilsLoop_head _ _ _ _ _ 4 (by decide)
    · rw [coilsLoop_head _ _ _ _ _ 5 (by decide), coilsHead, fits, floor]
      rfl
  | writeRegisters a n v =>
    have lower : 1 ≤ n := some_data n rfl
    have upper : n ≤ 65535 := accepted.2 n rfl
    have built := registersRequest_ok o.memory m a v (by omega) upper
    refine ⟨_, sent_frame o w connected accepted built, fun consistent => ?_,
      fun single => absurd (.inr rfl) single⟩
    refine absurd consistent (short_length (x := 5 + 2 * n) ?_ ?_ (by omega) (by dsimp only; omega))
    · exact loop_keeps_head putRegister_head _ _ 4 (by decide)
    · exact loop_keeps_head putRegister_head _ _ 5 (by decide)

/-- One register written: the frame has nine bytes after its length field, which says 7. -/
theorem write_registers_frame :
    ((Call.writeRegisters 0 1 (CArray.fresh 1 (fun _ => 5))).perform (scripted (replied .failed))
        plc unused).world.sent = [[0, 1, 0, 0, 0, 7, 1, 16, 0, 0, 0, 1, 2, 0, 5]] ∧
      ¬ Consistent .writeRegs [0, 1, 0, 0, 0, 7, 1, 16, 0, 0, 0, 1, 2, 0, 5] :=
  ⟨by decide, fun consistent => absurd consistent.length (by decide)⟩

theorem frame_consistent_read :
    ∃ frame, ((Call.read oneRegister).perform (scripted (replied .failed)) plc unused).world.sent =
        [] ++ [frame] ∧ (Consistent .readRegs frame ↔ ¬ Func.readRegs.Multiple) :=
  frame_consistent_iff _ plc unused (.read oneRegister) rfl (by decide)
    (by intro n h; cases h; decide)

/-- The frame of a multiple-coil write decodes to the call. -/
structure CoilsFrame (address amount : Int) (flags : CArray Bool) (frame : List UInt8) : Prop where
  func : byteAt frame 7 = 0x0F
  start : (word (byteAt frame 8) (byteAt frame 9) : Int) = address
  quantity : (word (byteAt frame 10) (byteAt frame 11) : Int) = amount
  coils : ∀ i : Nat, i < amount → bit (byteAt frame (13 + i / 8)) (i % 8) = flags.cell i
  padding : ∀ i : Nat, amount ≤ i → i < 8 * ((amount + 7) / 8) →
    bit (byteAt frame (13 + i / 8)) (i % 8) = false

/-- The call sends one frame, which decodes to it, and stays inside the temporary
array and the frame array while it builds that frame. -/
structure CoilsRoundTrip (o : Outcomes) (m : Modbus) (w : Log) (address amount : Int)
    (flags : CArray Bool) (mem : Memory) : Prop where
  frame : ∃ frame, CoilsFrame address amount flags frame ∧
    ((Call.writeCoils address amount flags).perform (scripted { o with memory := mem }) m w).world.sent =
      w.sent ++ [frame]
  temp : ∀ a, ((Call.writeCoils address amount flags).perform (scripted { o with memory := mem })
    m w).locals.temp = some a → a.InBounds
  toSend : ∀ a, ((Call.writeCoils address amount flags).perform (scripted { o with memory := mem })
    m w).locals.toSend = some a → a.InBounds

theorem coils_performed (o : Outcomes) {m : Modbus} (w : Log) {address amount : Int}
    (flags : CArray Bool) (connected : m.connected = true) (reach : address ≤ 65535)
    (lower : 1 ≤ amount) (upper : amount ≤ 65535) :
    let r : Result Log Buffer := (Call.writeCoils address amount flags).perform (scripted o) m w
    let s := coilsLoop o.memory m address amount flags
    r.world.sent = w.sent ++ [s.1.contents (14 + (amount - 1) / 8).toNat] ∧
      r.locals.temp = some s.2 ∧ r.locals.toSend = some s.1 := by
  have built := coilsRequest_ok o.memory m address flags lower upper
  have eq := modbusWriteCoils_eq (scripted o) w flags connected ⟨reach, upper⟩
  simp only [show (scripted o).memory w = o.memory from rfl, built] at eq
  simp only [Call.perform, eq, exchange, Result.map, and_true]
  rfl

theorem coilsLoop_temp (mem : Memory) (m : Modbus) (address amount : Int) (flags : CArray Bool) :
    (coilsLoop mem m address amount flags).2.size = amount.toNat ∧
      (coilsLoop mem m address amount flags).2.writes = [3, 2, 1, 0] := by
  apply forUpTo_invariant (fun (_ : Nat) (s : CArray UInt8 × CArray UInt16) =>
    s.2.size = amount.toNat ∧ s.2.writes = [3, 2, 1, 0])
  · exact ⟨rfl, rfl⟩
  · exact fun i s _ ih => ih

/-- Fewer than four coils: the copy of the flags runs past the temporary array. -/
theorem few_coils_outside (o : Outcomes) {m : Modbus} (w : Log) {address amount : Int}
    (flags : CArray Bool) (connected : m.connected = true) (reach : address ≤ 65535)
    (lower : 1 ≤ amount) (few : amount < 4) (mem : Memory) :
    ¬ CoilsRoundTrip o m w address amount flags mem := by
  intro good
  have performed := coils_performed { o with memory := mem } w flags connected reach lower (by omega)
  have temp := coilsLoop_temp mem m address amount flags
  have last := good.temp _ performed.2.1 3 (.inr (by simp only [temp.2]; decide))
  rw [temp.1] at last
  omega

/-- The quantity field repeats the high byte, so it is right for multiples of 257 only. -/
theorem quantity_repeats (o : Outcomes) {m : Modbus} (w : Log) {address amount : Int}
    (flags : CArray Bool) (connected : m.connected = true) (reach : address ≤ 65535)
    (lower : 1 ≤ amount) (upper : amount ≤ 65535) (mem : Memory)
    (good : CoilsRoundTrip o m w address amount flags mem) : amount % 257 = 0 := by
  obtain ⟨frame, decoded, sent⟩ := good.frame
  have performed := coils_performed { o with memory := mem } w flags connected reach lower upper
  rw [performed.1, List.append_cancel_left_eq, List.cons.injEq] at sent
  have quantity := decoded.quantity
  rw [← sent.1, byteAt_contents _ (by omega), byteAt_contents _ (by omega),
    coilsLoop_head _ _ _ _ _ 10 (by decide), coilsLoop_head _ _ _ _ _ 11 (by decide)] at quantity
  have ten : (coilsHead m (CArray.fresh (14 + (amount - 1) / 8).toNat mem.bytes) address amount).cell 10
      = hiByte amount := rfl
  have eleven : (coilsHead m (CArray.fresh (14 + (amount - 1) / 8).toNat mem.bytes) address
      amount).cell 11 = hiByte amount := rfl
  have high := hiByte_toNat amount
  simp only [ten, eleven, word] at quantity
  omega

def dirty (x : UInt8) : Memory := ⟨fun i => if i = 13 then x else 0, fun _ => 0, fun _ => 0⟩

theorem coilsStart_dirty (m : Modbus) (address amount : Int) (flags : CArray Bool) (x : UInt8) :
    (coilsStart (dirty x) m address amount flags).2 = (coilsStart (dirty 0) m address amount flags).2 ∧
      (coilsStart (dirty x) m address amount flags).1.cell 13 =
        (coilsStart (dirty 0) m address amount flags).1.cell 13 + x := by
  have data (mem : Memory) :
      (coilsStart mem m address amount flags).1.cell 13 = mem.bytes 13 := rfl
  refine ⟨rfl, ?_⟩
  rw [data, data]
  simp [dirty]

theorem putCoil_carries {x : UInt8} (i : Nat) (s t : CArray UInt8 × CArray UInt16)
    (h : s.2 = t.2 ∧ s.1.cell 13 = t.1.cell 13 + x) :
    (putCoil i s).2 = (putCoil i t).2 ∧ (putCoil i s).1.cell 13 = (putCoil i t).1.cell 13 + x := by
  refine ⟨by simp only [putCoil, h.1], ?_⟩
  rw [putCoil_cell, putCoil_cell, h.1]
  by_cases here : 13 = 13 + (i - 1) / 8
  · rw [if_pos here, if_pos here, h.2, UInt8.add_assoc, UInt8.add_comm x, ← UInt8.add_assoc]
  · rw [if_neg here, if_neg here, h.2]

/-- Byte 13 is added to, never set, so it carries over what the memory held. -/
theorem coilsLoop_carries (m : Modbus) (address amount : Int) (flags : CArray Bool) (x : UInt8) :
    (coilsLoop (dirty x) m address amount flags).1.cell 13 =
      (coilsLoop (dirty 0) m address amount flags).1.cell 13 + x := by
  have related := forUpTo_relation
    (fun (s t : CArray UInt8 × CArray UInt16) => s.2 = t.2 ∧ s.1.cell 13 = t.1.cell 13 + x)
    (coilsStart_dirty m address amount flags x) putCoil_carries amount.toNat
  exact related.2

theorem bit_zero_flips (x : UInt8) : bit (x + 1) 0 ≠ bit x 0 := by
  simp only [bit, Nat.testBit_zero, UInt8.toNat_add, UInt8.toNat_one]
  intro same
  have even := decide_eq_decide.mp same
  omega

/-- No multiple-coil write is right whatever the fresh memory held, and one whose
amount is no multiple of 257 is wrong whatever it held. -/
theorem coils_round_trip_never (o : Outcomes) (m : Modbus) (w : Log) (address amount : Int)
    (flags : CArray Bool) (connected : m.connected = true) (reach : address ≤ 65535)
    (lower : 1 ≤ amount) (upper : amount ≤ 65535) :
    (¬ ∀ mem, CoilsRoundTrip o m w address amount flags mem) ∧
      (amount % 257 ≠ 0 → ∀ mem, ¬ CoilsRoundTrip o m w address amount flags mem) := by
  have repeats := fun mem => quantity_repeats o w flags connected reach lower upper mem
  refine ⟨fun all => ?_, fun other mem good => other (repeats mem good)⟩
  have first (x : UInt8) : bit ((coilsLoop (dirty x) m address amount flags).1.cell 13) 0 =
      flags.cell 0 := by
    obtain ⟨frame, decoded, sent⟩ := (all (dirty x)).frame
    have performed := coils_performed { o with memory := dirty x } w flags connected reach lower upper
    rw [performed.1, List.append_cancel_left_eq, List.cons.injEq] at sent
    have coil := decoded.coils 0 (by omega)
    rw [← sent.1, byteAt_contents _ (by omega)] at coil
    exact coil
  have one := first 1
  rw [coilsLoop_carries, ← first 0] at one
  exact bit_zero_flips _ one

/-- Nine coils, all on: the quantity field of the frame says 0. -/
theorem nine_coils :
    ¬ CoilsRoundTrip (replied .failed) plc unused 0 9 (CArray.fresh 9 (fun _ => true)) (dirty 0) :=
  fun good => absurd (quantity_repeats _ unused _ rfl (by decide) (by decide) (by decide) _ good)
    (by decide)

theorem coils_257 :
    (¬ ∀ mem, CoilsRoundTrip (replied .failed) plc unused 0 257 (CArray.fresh 257 (fun _ => true)) mem) ∧
      ((257 : Int) % 257 ≠ 0 → ∀ mem, ¬ CoilsRoundTrip (replied .failed) plc unused 0 257
        (CArray.fresh 257 (fun _ => true)) mem) :=
  coils_round_trip_never _ plc unused 0 257 _ rfl (by decide) (by decide) (by decide)

end DevAccess.ModbusTcp
