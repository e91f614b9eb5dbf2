import DevAccess.ModbusTcp.Frames
import DevAccess.ModbusTcp.Connection

/-! Transaction ids. ModbusBuildRequest reads the counter and ModbusSend moves it on, so
over any run of public operations the ids of the frames count the frames, as long as
every frame has room for its id. -/
namespace DevAccess.ModbusTcp
open Foundation

inductive PublicOp where
  | setSlaveId (id : Int)
  | connect
  | close
  | call (c : Call)

structure Client where
  modbus : Modbus
  log : Log

def Client.start (host : String) (port : UInt16) : Client := ⟨Modbus.make host port, ⟨[], ∅⟩⟩

/-- One public operation, with all that the system calls under it give. None is ever
disabled, and nothing is assumed of the handles that Connect gives. -/
def Client.step (s : Client) (a : PublicOp × Outcomes) : Option Client :=
  match a.1 with
  | .setSlaveId id => some { s with modbus := modbusSetSlaveId id s.modbus }
  | .connect =>
    let (_, modbus, log) := modbusConnect (scripted a.2) s.modbus s.log
    some ⟨modbus, log⟩
  | .close =>
    let (modbus, log) := modbusClose (scripted a.2) s.modbus s.log
    some ⟨modbus, log⟩
  | .call c =>
    let r := c.perform (scripted a.2) s.modbus s.log
    some ⟨r.modbus, r.world⟩

def frameId : List UInt8 → Option Nat
  | hi :: lo :: _ => some (word hi lo)
  | _ => none

/-- The frames sent so far are numbered from 1 on modulo 65536, so ids repeat only at that
distance, and a call that its guards refuse uses up no number. -/
structure Client.Numbered (s : Client) : Prop where
  ids : ∀ n frame, s.log.sent[n]? = some frame → frameId frame = some ((1 + n) % 65536)
  distinct : ∀ i j f g, s.log.sent[i]? = some f → s.log.sent[j]? = some g → i < j → j < i + 65536 →
    frameId f ≠ frameId g
  refused : ∀ (c : Call) (o : Outcomes), ¬ (s.modbus.connected = true ∧ c.Accepted) →
    (c.perform (scripted o) s.modbus s.log).modbus.msgId = s.modbus.msgId ∧
      (c.perform (scripted o) s.modbus s.log).world.sent = s.log.sent

/-- The counter and the frames agree. -/
def Client.Counted (s : Client) : Prop := s.modbus.msgId % 65536 = (1 + s.log.sent.length : Int) % 65536

/-- The operation does not send the one-byte frame of a register write with amount -6. -/
def Client.Roomy (s : Client) (a : PublicOp × Outcomes) : Prop :=
  ∀ address amount values, a.1 = .call (.writeRegisters address amount values) →
    s.modbus.connected = true → (Call.writeRegisters address amount values).Accepted →
    int32 (13 + 2 * amount) ≠ 1

theorem refused_keeps (p : Platform Log) (m : Modbus) (w : Log) (c : Call)
    (refused : ¬ (m.connected = true ∧ c.Accepted)) :
    (c.perform p m w).modbus = m ∧ (c.perform p m w).world = w := by
  by_cases connected : m.connected = true
  · have rejected : ¬ c.Accepted := fun accepted => refused ⟨connected, accepted⟩
    have aborted := Call.perform_rejected p w connected rejected
    exact ⟨aborted.modbus, aborted.world⟩
  · have aborted := c.perform_disconnected p w (Bool.eq_false_of_not_eq_true connected)
    exact ⟨aborted.modbus, aborted.world⟩

theorem numbered_iff (s : Client) : s.Numbered ↔
    ∀ n frame, s.log.sent[n]? = some frame → frameId frame = some ((1 + n) % 65536) := by
  constructor
  · exact fun numbered => numbered.ids
  · intro ids
    refine ⟨ids, ?_, ?_⟩
    · intro i j f g first second order near same
      rw [ids i f first, ids j g second, Option.some.injEq] at same
      omega
    · intro c o refused
      have kept := refused_keeps (scripted o) s.modbus s.log c refused
      exact ⟨by rw [kept.1], by rw [kept.2]⟩

theorem numbered_append {sent : List (List UInt8)} {frame : List UInt8}
    (ids : ∀ n f, sent[n]? = some f → frameId f = some ((1 + n) % 65536)) :
    (∀ n f, (sent ++ [frame])[n]? = some f → frameId f = some ((1 + n) % 65536)) ↔
      frameId frame = some ((1 + sent.length) % 65536) := by
  constructor
  · intro all
    exact all sent.length frame (by simp)
  · intro last n f here
    rcases Nat.lt_trichotomy n sent.length with before | rfl | behind
    · rw [List.getElem?_append_left before] at here
      exact ids n f here
    · simp only [List.getElem?_concat_length, Option.some.injEq] at here
      exact here ▸ last
    · have none : (sent ++ [frame])[n]? = none := by
        apply List.getElem?_eq_none
        rw [List.length_append, List.length_singleton]
        omega
      cases none.symm.trans here

theorem frameId_request {mem : Memory} {m : Modbus} {c : Call} {r : Request}
    (built : c.request mem m = .ok r) (room : 2 ≤ r.length.toNat) :
    frameId r.frame = some (m.msgId % 65536).toNat := by
  have headed := Call.request_headed built
  obtain ⟨k, len⟩ : ∃ k, r.length.toNat = k + 2 := ⟨r.length.toNat - 2, by omega⟩
  have split : r.frame = r.toSend.cell 0 :: r.toSend.cell 1 ::
      (List.range k).map (fun j => r.toSend.cell (j + 2)) := by
    simp only [Request.frame, CArray.contents, len, List.range_succ_eq_map, List.map_cons,
      List.map_map]
    rfl
  rw [split, frameId, headed.id.1, headed.id.2]
  have value := word_bytes m.msgId
  congr 1
  omega

theorem frameId_short {frame : List UInt8} (short : frame.length < 2) : frameId frame = none := by
  match frame with
  | [] => rfl
  | [_] => rfl
  | _ :: _ :: _ =>
    simp only [List.length_cons] at short
    omega

/-- Every request is long enough for its id, but for that of a register write whose length
13 + 2 * amount comes out as 1. -/
theorem request_room {mem : Memory} {m : Modbus} {c : Call} {r : Request} (accepted : c.Accepted)
    (built : c.request mem m = .ok r) :
    2 ≤ r.length.toNat ↔ ∀ a n v, c = .writeRegisters a n v → int32 (13 + 2 * n) ≠ 1 := by
  cases c with
  | read c =>
    cases Except.ok.inj built
    exact ⟨fun _ a n v other => Call.noConfusion other, fun _ => by simp⟩
  | writeCoil a v | writeRegister a v =>
    rw [(singleRequest_headed built).2]
    exact ⟨fun _ a n v other => Call.noConfusion other, fun _ => by decide⟩
  | writeCoils a n v =>
    refine ⟨fun _ a n v other => Call.noConfusion other, fun _ => ?_⟩
    cases made : newArray n mem.words with
    | error e =>
      simp only [Call.request, made] at built
      cases built
    | ok temp =>
      simp only [Call.request, made] at built
      have lower : 0 ≤ n := (newArray_ok made).1
      have upper : n ≤ 65535 := accepted.2 n rfl
      rw [(coilsRequest_headed built).2, int32_of_range (by omega) (by omega)]
      by_cases zero : n = 0
      · subst zero
        decide
      · rw [Int.tdiv_eq_ediv_of_nonneg (by omega)]
        omega
  | writeRegisters a n v =>
    obtain ⟨-, length, nonneg⟩ := registersRequest_headed built
    have odd : r.length % 2 = 1 := by rw [length, int32]; omega
    have room : 2 ≤ r.length.toNat ↔ int32 (13 + 2 * n) ≠ 1 := by rw [← length]; omega
    rw [room]
    constructor
    · intro longer a' n' v' same
      cases same
      exact longer
    · exact fun longer => longer a n v rfl

theorem stamped_counted {m : Modbus} {k : Nat} (counted : m.msgId % 65536 = (1 + k : Int) % 65536) :
    m.stamped.msgId % 65536 = (1 + (k + 1 : Nat) : Int) % 65536 := by
  simp only [Modbus.stamped, int32]
  omega

/-- A call either changes neither the counter nor the frames, or is made while connected,
passes its guards, moves the counter on and sends one frame. -/
theorem call_counts (o : Outcomes) (m : Modbus) (w : Log) (c : Call) :
    ((c.perform (scripted o) m w).modbus = m ∧ (c.perform (scripted o) m w).world = w ∧
        (m.connected = true → c.Accepted → ¬ c.Allocates)) ∨
      (m.connected = true ∧ c.Accepted ∧ ∃ r, c.request o.memory m = .ok r ∧
        (c.perform (scripted o) m w).modbus = m.stamped ∧
        (c.perform (scripted o) m w).world.sent = w.sent ++ [r.frame]) := by
  by_cases passes : m.connected = true ∧ c.Accepted
  · obtain ⟨connected, accepted⟩ := passes
    have ends : c.Ends (scripted o) m w (c.request o.memory m) :=
      Call.perform_ends (scripted o) w connected accepted
    cases built : c.request o.memory m with
    | error e =>
      rw [built] at ends
      have starved := (request_error_iff o.memory m accepted).mp ⟨e, built⟩
      exact .inl ⟨Aborted.modbus ends, Aborted.world ends, fun _ _ => starved⟩
    | ok r =>
      rw [built] at ends
      exact .inr ⟨connected, accepted, r, rfl, Exchanged.modbus ends,
        congrArg Log.sent (Exchanged.world ends)⟩
  · have kept := refused_keeps (scripted o) m w c passes
    exact .inl ⟨kept.1, kept.2, fun connected accepted => absurd ⟨connected, accepted⟩ passes⟩

theorem connect_counts (o : Outcomes) (m : Modbus) (w : Log) :
    (modbusConnect (scripted o) m w).2.1.msgId = m.msgId ∧
      (modbusConnect (scripted o) m w).2.2.sent = w.sent := by
  rcases modbusConnect_cases o m w with same | failed | ⟨-, made⟩
  · rw [same]
    exact ⟨rfl, rfl⟩
  · rw [failed]
    exact ⟨rfl, rfl⟩
  · rw [made]
    exact ⟨rfl, rfl⟩

/-- Whatever is done, the counter stays one ahead of the frames sent. -/
theorem counted_step (s : Client) (a : PublicOp × Outcomes) (t : Client) (counted : s.Counted)
    (taken : s.step a = some t) : t.Counted := by
  obtain ⟨op, o⟩ := a
  cases op with
  | setSlaveId id | close =>
    cases Option.some.inj taken
    exact counted
  | connect =>
    obtain ⟨msgId, sent⟩ := connect_counts o s.modbus s.log
    simp only [Client.step, Option.some.injEq] at taken
    subst taken
    simp only [Client.Counted, msgId, sent]
    exact counted
  | call c =>
    cases Option.some.inj taken
    rcases call_counts o s.modbus s.log c with ⟨modbus, world, -⟩ | ⟨-, -, r, -, modbus, sent⟩
    · simp only [Client.Counted, modbus, world]
      exact counted
    · simp only [Client.Counted, modbus, sent, List.length_append, List.length_singleton]
      exact stamped_counted counted

/-- One operation keeps the numbering exactly if it leaves room for the id. -/
theorem numbered_step (s : Client) (a : PublicOp × Outcomes) (t : Client) (counted : s.Counted)
    (numbered : s.Numbered) (taken : s.step a = some t) : t.Numbered ↔ s.Roomy a := by
  obtain ⟨op, o⟩ := a
  have ids := (numbered_iff s).mp numbered
  have kept (frames : t.log.sent = s.log.sent) : t.Numbered := by
    rw [numbered_iff, frames]
    exact ids
  cases op with
  | setSlaveId id | close =>
    cases Option.some.inj taken
    exact ⟨fun _ _ _ _ other => (by cases other), fun _ => kept rfl⟩
  | connect =>
    simp only [Client.step, Option.some.injEq] at taken
    subst taken
    exact ⟨fun _ _ _ _ other => (by cases other),
      fun _ => kept (connect_counts o s.modbus s.log).2⟩
  | call c =>
    cases Option.some.inj taken
    rcases call_counts o s.modbus s.log c with
      ⟨-, world, starved⟩ | ⟨connected, accepted, r, built, -, sent⟩
    · refine ⟨fun _ address amount values here connected accepted one => ?_,
        fun _ => kept (by rw [world])⟩
      cases here
      have allocates : 0 ≤ int32 (13 + 2 * amount) := by omega
      exact starved connected accepted allocates
    · have roomy : s.Roomy (.call c, o) ↔ 2 ≤ r.length.toNat := by
        rw [request_room accepted built]
        constructor
        · intro roomy a n v same
          exact roomy a n v (congrArg PublicOp.call same) connected (same ▸ accepted)
        · intro room a n v same _ _
          exact room a n v (PublicOp.call.inj same)
      rw [roomy, numbered_iff]
      simp only [sent]
      rw [numbered_append ids]
      constructor
      · intro id
        apply Decidable.byContradiction
        intro short
        have length : r.frame.length < 2 := by
          rw [Request.frame, CArray.contents_length]
          omega
        cases (frameId_short length).symm.trans id
      · intro room
        rw [frameId_request built room]
        have now : s.modbus.msgId % 65536 = (1 + s.log.sent.length : Int) % 65536 := counted
        congr 1
        omega

/-- The ids count the frames all along a run exactly if it leaves room for each of them. -/
theorem transaction_ids_iff (host : String) (port : UInt16) (as : List (PublicOp × Outcomes)) :
    Always Client.step Client.Numbered (Client.start host port) as ↔
      Guarded Client.step Client.Roomy (Client.start host port) as := by
  have fresh : (Client.start host port).Numbered :=
    (numbered_iff _).mpr (fun n frame none => by simp [Client.start] at none)
  have counted : (Client.start host port).Counted := rfl
  exact always_iff_guarded (fun s a t counted _ taken _ => counted_step s a t counted taken)
    numbered_step counted fresh as

/-- Amount -6 passes the guard, and its frame is one byte long. -/
theorem one_byte_frame :
    ¬ Always Client.step Client.Numbered (Client.start "192.168.1.10" 502)
      [(.connect, replied .failed),
        (.call (.writeRegisters 0 (-6) (CArray.fresh 0 (fun _ => 0))), replied .failed)] := by
  intro always
  have numbered := always_end (t := ⟨{ plc with socket := 8, msgId := 2 }, ⟨[[0]], {8}⟩⟩) always rfl
  exact absurd (numbered.ids 0 [0] rfl) (by decide)

end DevAccess.ModbusTcp
