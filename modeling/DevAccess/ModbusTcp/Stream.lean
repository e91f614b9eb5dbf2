import DevAccess.ModbusTcp.Server

/-! Reads over one connection. The server answers each request with one reply, and
TCP hands the reply stream to Recv in pieces of its own choosing. -/
namespace DevAccess.ModbusTcp
open Foundation

structure Exchange where
  call : ReadCall
  answer : Answer
  cut : Nat

def Exchange.Accepted (e : Exchange) : Prop := (Call.read e.call).Accepted

instance (e : Exchange) : Decidable e.Accepted := inferInstanceAs (Decidable (Call.Accepted _))

/-- The world is the part of the stream that is sent and not yet consumed. Recv takes at
least one byte of it, and at most the cut and what was asked for. -/
def served (mem : Memory) (a : Answer) (cut : Nat) : Platform (List UInt8) where
  initSocket pending := (true, pending)
  connect _ _ pending := (-1, pending)
  close _ pending := pending
  send _ frame pending := (frame.length, pending ++ encodeReply frame a)
  recv _ len pending :=
    (.bytes (pending.take (min len (max 1 cut))), pending.drop (min len (max 1 cut)))
  memory _ := mem
  recv_le _ len pending := by
    simp only [Received.data, List.length_take]
    omega

/-- What the operations of a run show, one after the other. -/
def observations (mem : Memory) : Modbus → List UInt8 → List Exchange → List Observation
  | _, _, [] => []
  | m, pending, e :: rest =>
    let r := e.call.perform (served mem e.answer e.cut) m pending
    e.call.observe r :: observations mem r.modbus r.world rest

def Exchange.meant (e : Exchange) : Observation :=
  if e.Accepted then e.answer.shown else .threw .modbusAmountException

def Answer.replyLength : Answer → Nat
  | registers vs => 9 + 2 * vs.length
  | bits bs => 9 + (bs.length + 7) / 8
  | exception _ => 9

theorem encodeReply_length (request : List UInt8) (a : Answer) :
    (encodeReply request a).length = a.replyLength := by
  cases a with
  | registers vs | bits vs =>
    simp only [encodeReply, Answer.pdu, List.length_append, List.length_cons, List.length_nil,
      wordBytes_length, packBits_length, Answer.replyLength]
    omega
  | exception code => rfl

theorem Answer.replyLength_le {a : Answer} (taken : a.Taken) : a.replyLength ≤ maxMsgLength := by
  cases a with
  | registers vs | bits vs =>
    simp only [Taken] at taken
    simp only [replyLength, maxMsgLength]
    omega
  | exception code => simp [replyLength, maxMsgLength]

/-- The server's answer fits the call and the client, and Recv delivers its reply whole. -/
structure Exchange.Delivered (e : Exchange) : Prop where
  answers : e.answer.Answers e.call
  taken : e.answer.Taken
  whole : e.answer.replyLength ≤ e.cut

def SameStream (es es' : List Exchange) : Prop :=
  es.map (fun e => (e.call, e.answer)) = es'.map (fun e => (e.call, e.answer))

theorem served_whole (mem : Memory) (m : Modbus) (toSend : CArray UInt8) {e : Exchange}
    (good : e.Delivered) :
    answer (served mem e.answer e.cut) m [] toSend 12 =
      (.bytes (encodeReply (toSend.contents 12) e.answer), []) := by
  have pieces : (encodeReply (toSend.contents 12) e.answer).length ≤ min 1024 (max 1 e.cut) := by
    have fits := Answer.replyLength_le good.taken
    have whole := good.whole
    simp only [maxMsgLength] at fits
    rw [encodeReply_length]
    omega
  have taken := List.take_of_length_le pieces
  have left := List.drop_eq_nil_of_le pieces
  exact Prod.ext (congrArg Received.bytes taken) left

/-- One operation: the reply is shown as the server meant it, and again nothing of the
stream is left over. -/
theorem delivered_step (mem : Memory) {m : Modbus} {e : Exchange} (connected : m.connected = true)
    (delivered : e.Accepted → e.Delivered) :
    let r := e.call.perform (served mem e.answer e.cut) m []
    e.call.observe r = e.meant ∧ r.modbus.connected = true ∧ r.world = [] := by
  by_cases accepted : e.Accepted
  · have good := delivered accepted
    have got := served_whole mem m (e.call.toSend mem m) good
    have ends := ReadCall.exchanged (served mem e.answer e.cut) [] connected accepted
    have modbus : (e.call.perform (served mem e.answer e.cut) m []).modbus = m.stamped := ends.modbus
    have world : (e.call.perform (served mem e.answer e.cut) m []).world = [] :=
      ends.world.trans (congrArg Prod.snd got)
    have shown := ReadCall.read_back (served mem e.answer e.cut) [] connected accepted good.answers
      good.taken (congrArg Prod.fst got)
    refine ⟨?_, by rw [modbus]; exact connected, world⟩
    rw [Exchange.meant, if_pos accepted]
    exact shown
  · have refused : Aborted (served mem e.answer e.cut) m [] (.read e.call) .modbusAmountException :=
      Call.perform_rejected (served mem e.answer e.cut) [] connected accepted
    have outcome : (e.call.perform (served mem e.answer e.cut) m []).outcome = _ := refused.outcome
    have modbus : (e.call.perform (served mem e.answer e.cut) m []).modbus = m := refused.modbus
    refine ⟨?_, by rw [modbus]; exact connected, refused.world⟩
    simp only [ReadCall.observe, outcome, Exchange.meant, if_neg accepted]

theorem delivered_run (mem : Memory) (es : List Exchange) {m : Modbus}
    (connected : m.connected = true) (delivered : ∀ e ∈ es, e.Accepted → e.Delivered) :
    observations mem m [] es = es.map Exchange.meant := by
  induction es generalizing m with
  | nil => rfl
  | cons e rest ih =>
    obtain ⟨shown, still, empty⟩ := delivered_step mem connected (delivered e List.mem_cons_self)
    have later := ih still (fun e' he => delivered e' (List.mem_cons_of_mem e he))
    simp only [observations, shown, empty, later, List.map_cons]

theorem meant_of_stream {es es' : List Exchange} (same : SameStream es es') :
    es.map Exchange.meant = es'.map Exchange.meant := by
  have factor (l : List Exchange) : l.map Exchange.meant =
      (l.map (fun e => (e.call, e.answer))).map (fun x => (Exchange.mk x.1 x.2 0).meant) := by
    rw [List.map_map]
    rfl
  rw [factor, factor, same]

/-- In every run whose replies are delivered whole the operations show what the
server sent, and every other such run over the same stream shows the same. -/
theorem whole_replies_shown (mem : Memory) (es : List Exchange) (m : Modbus)
    (connected : m.connected = true) (delivered : ∀ e ∈ es, e.Accepted → e.Delivered) :
    observations mem m [] es = es.map Exchange.meant ∧
      ∀ mem' es', SameStream es es' → (∀ e ∈ es', e.Accepted → e.Delivered) →
        observations mem' m [] es' = observations mem m [] es := by
  have first := delivered_run mem es connected delivered
  refine ⟨first, fun mem' es' same delivered' => ?_⟩
  rw [first, delivered_run mem' es' connected delivered', meant_of_stream same]

def twoReads (n : Nat) : List Exchange :=
  [⟨oneRegister, .registers [300], n⟩, ⟨oneRegister, .registers [300], 1024⟩]

def blank : Memory := ⟨fun _ => 0, fun _ => 0, fun _ => 0⟩

theorem twoReads_served (n : Nat) :
    ∀ e ∈ twoReads n, e.answer.Answers e.call ∧ e.answer.Taken := by
  intro e he
  simp only [twoReads, List.mem_cons, List.not_mem_nil, or_false] at he
  rcases he with rfl | rfl
  · exact ⟨rfl, Nat.le_of_ble_eq_true rfl⟩
  · exact ⟨rfl, Nat.le_of_ble_eq_true rfl⟩

/-- One byte of the first reply comes late: the first read shows 256, and the second
what the late byte makes of its own reply. -/
theorem split_reply :
    SameStream (twoReads 10) (twoReads 11) ∧
      (∀ e ∈ twoReads 10, e.answer.Answers e.call ∧ e.answer.Taken) ∧
      observations blank plc [] (twoReads 10) ≠ observations blank plc [] (twoReads 11) ∧
      observations blank plc [] (twoReads 10) ≠ (twoReads 10).map Exchange.meant :=
  ⟨rfl, twoReads_served 10, by decide, by decide⟩

theorem whole_two_reads :
    observations blank plc [] (twoReads 11) = (twoReads 11).map Exchange.meant ∧
      ∀ mem' es', SameStream (twoReads 11) es' → (∀ e ∈ es', e.Accepted → e.Delivered) →
        observations mem' plc [] es' = observations blank plc [] (twoReads 11) :=
  whole_replies_shown blank (twoReads 11) plc rfl (by
    intro e he _
    have good := twoReads_served 11 e he
    refine ⟨good.1, good.2, ?_⟩
    simp only [twoReads, List.mem_cons, List.not_mem_nil, or_false] at he
    rcases he with rfl | rfl <;> decide)

end DevAccess.ModbusTcp
