import DevAccess.ModbusTcp.Frames

/-! Exception replies. An operation throws on one only if its handler looks for the right function
code and knows the exception code, and if neither the request nor the reply has run past its array
before: what is written there is some other memory, and nothing is known of the call from then on. -/
namespace DevAccess.ModbusTcp
open Foundation

/-- The local arrays are accessed inside their bounds only. -/
structure Locals.InBounds (l : Locals) : Prop where
  toSend : ∀ a, l.toSend = some a → a.InBounds
  temp : ∀ a, l.temp = some a → a.InBounds
  toRec : ∀ a, l.toRec = some a → a.InBounds

/-- The call throws, a read leaves the caller's buffer as it was, and no array is overrun. -/
structure Throws (o : Outcomes) (m : Modbus) (w : Log) (c : Call) : Prop where
  outcome : (c.perform (scripted o) m w).outcome ≠ .ok ()
  buffer : (c.perform (scripted o) m w).buffer = c.buffer
  inside : (c.perform (scripted o) m w).locals.InBounds

/-- The arrays for the request are large enough: four flags are always copied, and a frame with
values has a head of 13 bytes. -/
def Call.Fits : Call → Prop
  | writeCoils _ n _ => 4 ≤ n
  | writeRegisters _ n _ => 13 ≤ int32 (13 + 2 * n)
  | _ => True

theorem handled_code (c : Call) :
    c.func.code = c.handled.code ↔ ∀ a v, c ≠ .writeRegister a v := by
  cases c with
  | writeRegister a v =>
    constructor
    · intro same
      simp [Call.func, Call.handled, Func.code] at same
    · intro other
      exact absurd rfl (other a v)
  | read c | writeCoil a v | writeCoils a n v | writeRegisters a n v =>
    exact ⟨fun _ _ _ other => Call.noConfusion other, fun _ => rfl⟩

theorem examined_inBounds (mem : Memory) (func : Func) (bs : List UInt8) :
    (examined mem func (.bytes bs)).InBounds ↔ bs.length ≤ maxMsgLength := by
  have handled : (modbusErrorHandle ((newToRec mem).store bs) func).2.InBounds ↔
      ((newToRec mem).store bs).InBounds := by
    unfold modbusErrorHandle
    dsimp only
    split
    · cases ExCode.ofByte _ <;> simp [newToRec, maxMsgLength]
    · simp [newToRec, maxMsgLength]
  rw [examined, handled]
  simp [newToRec]

theorem putRegisters_inBounds {start : CArray UInt8} (value : CArray UInt16) {n : Nat}
    (inside : start.InBounds) (fits : n = 0 ∨ 13 + 2 * n ≤ start.size) :
    (forUpTo putRegister (start, value) n).1.InBounds := by
  have kept : (forUpTo putRegister (start, value) n).1.size = start.size ∧
      (forUpTo putRegister (start, value) n).1.InBounds := by
    apply forUpTo_invariant (fun _ (s : CArray UInt8 × CArray UInt16) =>
      s.1.size = start.size ∧ s.1.InBounds)
    · exact ⟨rfl, inside⟩
    · rintro i s early ⟨size, inside⟩
      refine ⟨size, ?_⟩
      simp only [putRegister, CArray.inBounds_write, CArray.write_size, size]
      exact ⟨by omega, by omega, inside⟩
  exact kept.2

theorem putCoils_inBounds {start : CArray UInt8 × CArray UInt16} {n : Nat}
    (inside : start.1.InBounds ∧ start.2.InBounds) (flags : n ≤ start.2.size)
    (frame : ∀ i < n, 13 + (i - 1) / 8 < start.1.size) :
    (forUpTo putCoil start n).1.InBounds ∧ (forUpTo putCoil start n).2.InBounds := by
  have kept : ((forUpTo putCoil start n).1.size = start.1.size ∧
      (forUpTo putCoil start n).2.size = start.2.size) ∧
      (forUpTo putCoil start n).1.InBounds ∧ (forUpTo putCoil start n).2.InBounds := by
    apply forUpTo_invariant (fun _ (s : CArray UInt8 × CArray UInt16) =>
      (s.1.size = start.1.size ∧ s.2.size = start.2.size) ∧ s.1.InBounds ∧ s.2.InBounds)
    · exact ⟨⟨rfl, rfl⟩, inside⟩
    · rintro i s early ⟨⟨size, size'⟩, inside, inside'⟩
      have here := frame i early
      refine ⟨⟨size, size'⟩, ?_, ?_⟩
      · simp only [putCoil, coil_index, CArray.inBounds_write, CArray.inBounds_read,
          CArray.read_size, size]
        exact ⟨here, here, inside⟩
      · simp only [putCoil, CArray.inBounds_read, size']
        exact ⟨by omega, inside'⟩
  exact kept.2

section Requests
variable {mem : Memory} {m : Modbus} {address amount : Int} {r : Request}

theorem single_inBounds {func : Func} {value : CArray UInt16}
    (built : singleRequest mem m address func value = .ok r) : r.toSend.InBounds := by
  cases Except.ok.inj built
  simp [modbusBuildRequest]

theorem registers_inBounds_iff {value : CArray UInt16} (upper : amount ≤ 65535)
    (built : registersRequest mem m address amount value = .ok r) :
    r.toSend.InBounds ↔ 13 ≤ int32 (13 + 2 * amount) := by
  cases made : newArray (int32 (13 + 2 * amount)) mem.bytes with
  | error e =>
    simp only [registersRequest, made] at built
    cases built
  | ok a =>
    obtain ⟨lower, rfl⟩ := newArray_ok made
    simp only [registersRequest, made] at built
    cases Except.ok.inj built
    generalize size : int32 (13 + 2 * amount) = k at *
    have head : (registersHead m (CArray.fresh k.toNat mem.bytes) address amount).size = k.toNat :=
      rfl
    constructor
    · intro inside
      have laid := registers_laid (registersHead m (CArray.fresh k.toNat mem.bytes) address amount)
        value amount.toNat
      have twelve := (registersHead_writes m (CArray.fresh k.toNat mem.bytes) address amount 12).mpr
        (.inl (by decide))
      have last := inside 12 (.inr ((laid.writes 12).mpr (.inl twelve)))
      rw [laid.size, head] at last
      omega
    · intro fits
      apply putRegisters_inBounds
      · simp [registersHead, modbusBuildRequest]
        omega
      · by_cases none : amount ≤ 0
        · exact .inl (by omega)
        · rw [int32_of_range (by omega) (by omega)] at size
          rw [head]
          omega

theorem coils_inBounds_iff {flags : CArray Bool} (upper : amount ≤ 65535)
    (built : (Call.writeCoils address amount flags).request mem m = .ok r) :
    (r.toSend.InBounds ∧ r.value.InBounds) ↔ 4 ≤ amount := by
  cases made : newArray amount mem.words with
  | error e =>
    simp only [Call.request, made] at built
    cases built
  | ok a =>
    obtain ⟨lower, rfl⟩ := newArray_ok made
    by_cases none : amount = 0
    · subst none
      cases Except.ok.inj built
      refine ⟨fun inside => ?_, fun fits => by omega⟩
      have last : 3 < 0 := inside.2 3 (.inr List.mem_cons_self)
      exact absurd last (by decide)
    · rw [coilsRequest_ok mem m address flags (by omega) upper] at built
      cases Except.ok.inj built
      have temp := coilsLoop_temp mem m address amount flags
      constructor
      · intro inside
        have last := inside.2 3 (.inr (by simp only [temp.2]; decide))
        simp only [temp.1] at last
        omega
      · intro fits
        apply putCoils_inBounds
        · constructor
          · simp [coilsStart, coilsHead, modbusBuildRequest]
            omega
          · simp [coilsStart, forUpTo, copyFlag]
            omega
        · exact Nat.le_refl _
        · intro i early
          simp [coilsStart, coilsHead, modbusBuildRequest]
          omega

end Requests

theorem request_inBounds_iff {mem : Memory} {m : Modbus} {c : Call} {r : Request}
    (accepted : c.Accepted) (built : c.request mem m = .ok r) :
    (r.toSend.InBounds ∧ ∀ a, c.temp r = some a → a.InBounds) ↔ c.Fits := by
  cases c with
  | read c =>
    cases Except.ok.inj built
    simp [Call.Fits, Call.temp, ReadCall.toSend, readRequest, modbusBuildRequest]
  | writeCoil a v | writeRegister a v =>
    simp [Call.Fits, Call.temp, single_inBounds built]
  | writeCoils a n v =>
    simpa [Call.Fits, Call.temp] using coils_inBounds_iff (accepted.2 n rfl) built
  | writeRegisters a n v =>
    simpa [Call.Fits, Call.temp] using registers_inBounds_iff (accepted.2 n rfl) built

theorem recognised_exception {c : Call} {bs : List UInt8}
    (exception : (byteAt bs 7).toNat = c.func.code + 0x80) :
    Recognised c.handled bs ↔
      (∀ a v, c ≠ .writeRegister a v) ∧ ∃ e : ExCode, byteAt bs 8 = e.value := by
  rw [← handled_code, Recognised, exception]
  constructor
  · rintro ⟨kind, code⟩
    exact ⟨by omega, code⟩
  · rintro ⟨kind, code⟩
    exact ⟨by omega, code⟩

section Ends
variable {o : Outcomes} {m : Modbus} {w : Log} {c : Call}

theorem Aborted.throws {e : Exn} (aborted : Aborted (scripted o) m w c e) : Throws o m w c := by
  have inside : (c.perform (scripted o) m w).locals.InBounds := by
    rw [aborted.locals]
    constructor
    all_goals
      intro a none
      cases none
  exact ⟨by rw [aborted.outcome]; simp, aborted.buffer, inside⟩

theorem Exchanged.inBounds_iff {r : Request} {bs : List UInt8} (accepted : c.Accepted)
    (built : c.request o.memory m = .ok r) (exchanged : Exchanged (scripted o) m w c r)
    (got : (answer (scripted o) m w r.toSend r.length).1 = .bytes bs)
    (threw : (c.perform (scripted o) m w).outcome ≠ .ok ()) :
    (c.perform (scripted o) m w).locals.InBounds ↔ c.Fits ∧ bs.length ≤ maxMsgLength := by
  have fits := request_inBounds_iff accepted built
  have toRec := exchanged.toRec threw
  rw [got] at toRec
  constructor
  · intro inside
    refine ⟨fits.mp ⟨inside.toSend _ exchanged.toSend, fun a here =>
      inside.temp a (exchanged.temp.trans here)⟩, ?_⟩
    exact (examined_inBounds _ _ _).mp (inside.toRec _ toRec)
  · rintro ⟨large, whole⟩
    obtain ⟨toSend, temp⟩ := fits.mpr large
    refine ⟨?_, fun a here => temp a (exchanged.temp.symm.trans here), ?_⟩
    · rintro a here
      cases exchanged.toSend.symm.trans here
      exact toSend
    · rintro a here
      cases toRec.symm.trans here
      exact (examined_inBounds _ _ _).mpr whole

end Ends

/-- Which exception replies make an operation throw: those that fit into to_rec and have a code of
the header file, in answer to a request whose arrays hold it. ModbusWriteRegister looks for the
wrong function code. -/
theorem exception_reply_iff (o : Outcomes) (m : Modbus) (w : Log) (c : Call) (bs : List UInt8)
    (connected : m.connected = true) (accepted : c.Accepted) (reply : o.reply = .bytes bs)
    (short : bs.length ≤ 1024) (exception : (byteAt bs 7).toNat = c.func.code + 0x80) :
    Throws o m w c ↔
      ¬ c.Allocates ∨ (c.Fits ∧ bs.length ≤ maxMsgLength ∧ (∀ a v, c ≠ .writeRegister a v) ∧
        ∃ e : ExCode, byteAt bs 8 = e.value) := by
  have ends : c.Ends (scripted o) m w (c.request o.memory m) :=
    Call.perform_ends (scripted o) w connected accepted
  have refused := request_error_iff o.memory m accepted
  cases built : c.request o.memory m with
  | error e =>
    have aborted : Aborted (scripted o) m w c e := by simpa only [Call.Ends, built] using ends
    exact ⟨fun _ => .inl (refused.mp ⟨e, built⟩), fun _ => aborted.throws⟩
  | ok r =>
    have made : c.Allocates := by
      by_contra unmade
      obtain ⟨e, failed⟩ := refused.mpr unmade
      cases built.symm.trans failed
    have exchanged : Exchanged (scripted o) m w c r := by simpa only [Call.Ends, built] using ends
    have got : (answer (scripted o) m w r.toSend r.length).1 = .bytes bs := by
      have taken : (answer (scripted o) m w r.toSend r.length).1 = o.reply.take 1024 := rfl
      rw [taken, reply, take_whole short]
    have thrown : (c.perform (scripted o) m w).outcome ≠ .ok () ↔ Recognised c.handled bs := by
      rw [exchanged.outcome, got, verdict_bytes]
    rw [recognised_exception exception] at thrown
    have inside := exchanged.inBounds_iff accepted built got
    constructor
    · intro throws
      obtain ⟨fits, whole⟩ := (inside throws.outcome).mp throws.inside
      exact .inr ⟨fits, whole, thrown.mp throws.outcome⟩
    · rintro (unmade | ⟨fits, whole, known⟩)
      · exact absurd made unmade
      · have threw := thrown.mpr known
        exact ⟨threw, exchanged.kept threw, (inside threw).mpr ⟨fits, whole⟩⟩

/-- ModbusWriteRegister takes the exception reply 0x86 for success. -/
theorem write_register_refusal :
    ¬ Throws (replied (.bytes [0, 1, 0, 0, 0, 3, 1, 0x86, 2])) plc unused (.writeRegister 100 7) :=
  fun throws => throws.outcome rfl

theorem exception_reply_busy :
    Throws (replied (.bytes [0, 1, 0, 0, 0, 3, 1, 0x83, 6])) plc unused (.read oneRegister) :=
  (exception_reply_iff _ plc unused (.read oneRegister) _ rfl (by decide) rfl (by decide)
    (by decide)).mpr
      (.inr ⟨trivial, by decide, fun _ _ other => Call.noConfusion other, .serverBusy, rfl⟩)

end DevAccess.ModbusTcp
