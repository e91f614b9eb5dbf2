import DevAccess.Poll.Reports
import DevAccess.Poll.XinJie

/-! From the pollers that CreatePlcDev builds to DevManager::DoEventProcess: an event type
and a payload that travel side by side through m_fn. -/
namespace DevAccess.Poll
open Foundation

inductive PlcDevType where
  | xinjieXc3_32tE
  | mitsubishiQ02uccpu
  | mitsubishiQ03udvcpu
  | mitsubishiFx3u32m
  deriving DecidableEq

inductive EventType where
  | mitsubishiQ03udvcpu
  | mitsubishiFx3u32m
  deriving DecidableEq

inductive Payload where
  | mitsubishi (data : Data)
  | xinJie (data : XinJieData)

/-- The structure an event type is named after. -/
inductive Denotes : EventType → Payload → Prop where
  | mitsubishiFx3u32m (data : Data) : Denotes .mitsubishiFx3u32m (.mitsubishi data)

structure Message where
  type : EventType
  payload : Payload

inductive Shown where
  | status (code : UInt16)
  | count (n : UInt16)
  deriving DecidableEq

def Shown.register : Shown → UInt16
  | status code => code
  | count n => n

structure Insert where
  key : String
  value : Shown
  deriving DecidableEq

/-- (stMitsubishi_FX3U_32M_Data *)(pData), which only makes sense for its own structure. -/
def Payload.cast : Payload → Option Data
  | mitsubishi data => some data
  | xinJie _ => none

/-- The InsertToSvr calls of DoEventProcess, none when it reads a foreign structure. -/
def doEventProcess (type : EventType) (payload : Payload) : Option (List Insert) :=
  match type with
  | .mitsubishiFx3u32m =>
    payload.cast.map (fun data =>
      [⟨"1号工位状态", .status data.stationStatus1⟩,
        ⟨"1号工位OK数量", .count data.stationOkAmount1⟩,
        ⟨"1号工位总测数量", .count data.stationTotalAmount1⟩,
        ⟨"1号工位NG数量", .count data.stationNgAmount1⟩,
        ⟨"2号工位状态", .status data.stationStatus2⟩,
        ⟨"2号工位OK数量", .count data.stationOkAmount2⟩,
        ⟨"2号工位总测数量", .count data.stationTotalAmount2⟩,
        ⟨"2号工位NG数量", .count data.stationNgAmount2⟩])
  | .mitsubishiQ03udvcpu => some []

def Driver.messages {δ : Type} (d : Driver δ) (wrap : δ → Payload) : Driver Message where
  poller := ⟨d.poller.registered, fun oldValue => ⟨.mitsubishiFx3u32m, wrap (d.poller.payload oldValue)⟩⟩
  modbusStart := d.modbusStart

inductive PlcDev where
  | xinJieXc3
  | mitsubishiQ02uucpu
  | mitsubishiFx3u32m
  deriving DecidableEq

def createPlcDev : PlcDevType → Option PlcDev
  | .xinjieXc3_32tE => some .xinJieXc3
  | .mitsubishiQ02uccpu => some .mitsubishiQ02uucpu
  | .mitsubishiFx3u32m => some .mitsubishiFx3u32m
  | .mitsubishiQ03udvcpu => none

/-- The thread that Start makes; the Start of the Q02 makes none. -/
def PlcDev.doStart : PlcDev → Option (Driver Message)
  | .xinJieXc3 => some (Poll.xinJieXc3.messages .xinJie)
  | .mitsubishiQ02uucpu => none
  | .mitsubishiFx3u32m => some (Poll.mitsubishiFx3u32m.messages .mitsubishi)

def pollerOf (t : PlcDevType) : Option (Driver Message) := (createPlcDev t).bind PlcDev.doStart

def Driver.outcome {δ : Type} (d : Driver δ) : Act → Act
  | .modbusStart v => .modbusStart (d.modbusStart v)
  | a => a

def Driver.step {δ : Type} (d : Driver δ) (s : State δ) (a : Act) : Option (State δ) :=
  d.poller.step s (d.outcome a)

/-- The payload is the one its type denotes, and DoEventProcess passes on the registers
that the pass has read. -/
structure Faithful (e : Event Message) : Prop where
  kind : Denotes e.data.type e.data.payload
  values : ∃ inserts, doEventProcess e.data.type e.data.payload = some inserts ∧
    inserts.map (fun i => i.value.register) = e.pass

def AllFaithful (s : State Message) : Prop := ∀ e ∈ s.events, Faithful e

theorem doEventProcess_registers (d : Data) :
    ∃ inserts, doEventProcess .mitsubishiFx3u32m (.mitsubishi d) = some inserts ∧
      inserts.map (fun i => i.value.register) = d.registers := ⟨_, rfl, rfl⟩

theorem faithful_mitsubishi (d : Data) (pass : List UInt16) :
    Faithful ⟨⟨.mitsubishiFx3u32m, .mitsubishi d⟩, pass⟩ ↔ d.registers = pass := by
  obtain ⟨inserts, made, shown⟩ := doEventProcess_registers d
  constructor
  · intro h
    obtain ⟨inserts', made', shown'⟩ := h.values
    cases Option.some.inj (made.symm.trans made')
    exact shown.symm.trans shown'
  · exact fun same => ⟨.mitsubishiFx3u32m d, inserts, made, shown.trans same⟩

theorem not_faithful_xinJie (d : XinJieData) (pass : List UInt16) :
    ¬ Faithful ⟨⟨.mitsubishiFx3u32m, .xinJie d⟩, pass⟩ := by
  intro h
  cases h.kind

section Step
variable {δ : Type} {d : Driver δ} {s r : State δ} {a : Act}

def Reporting (s : State δ) (a : Act) : Prop := a = .proceed ∧ s.pc = .report ∧ s.update = true

theorem events_step (registered : d.poller.registered = true) (taken : d.step s a = some r) :
    (Reporting s a ∧ r.events = ⟨d.poller.payload s.oldValue, s.seen⟩ :: s.events) ∨
      (¬ Reporting s a ∧ r.events = s.events) := by
  have moves : Moves d.poller s (d.outcome a) r := step_moves taken
  cases a with
  | modbusInit ok => cases moves <;> exact .inr ⟨fun h => Act.noConfusion h.1, rfl⟩
  | stop => cases moves; exact .inr ⟨fun h => Act.noConfusion h.1, rfl⟩
  | modbusStart v =>
    refine .inr ⟨fun h => Act.noConfusion h.1, ?_⟩
    simp only [Driver.outcome] at moves
    generalize d.modbusStart v = got at moves
    cases moves <;> rfl
  | proceed =>
    cases moves with
    | delivered here changed => exact .inl ⟨⟨rfl, here, changed⟩, rfl⟩
    | dropped _ _ unset => cases unset.symm.trans registered
    | quiet here same => exact .inr ⟨fun h => absurd h.2.2 (by simp [same]), rfl⟩
    | retried here | entered here | left here | finished here | caught here | slept here
      | reset here | cleared here => exact .inr ⟨fun h => absurd h.2.1 (by simp [here]), rfl⟩

theorem inPass_driver (pass : InPass s) (taken : d.step s a = some r) : InPass r :=
  inPass_step s _ r pass taken

end Step

def WholeFx3uReport (t : PlcDevType) (s : State Message) (a : Act) : Prop :=
  Reporting s a → t = .mitsubishiFx3u32m ∧ s.i = 8

/-- The event of a report is faithful exactly if the poller is of the right kind and its
pass is whole. -/
theorem faithful_report {t : PlcDevType} {d : Driver Message} (polls : pollerOf t = some d)
    {s : State Message} (pass : InPass s) (here : s.pc = .report) :
    Faithful ⟨d.poller.payload s.oldValue, s.seen⟩ ↔ t = .mitsubishiFx3u32m ∧ s.i = 8 := by
  have whole := pass.whole (.inr (.inr (.inl here)))
  cases t with
  | xinjieXc3_32tE =>
    cases Option.some.inj polls
    exact ⟨fun h => absurd h (not_faithful_xinJie _ _), fun h => (nomatch h.1)⟩
  | mitsubishiQ02uccpu => cases polls
  | mitsubishiQ03udvcpu => cases polls
  | mitsubishiFx3u32m =>
    cases Option.some.inj polls
    rw [← whole, ← make_registers]
    have event := faithful_mitsubishi (Data.make s.oldValue) s.seen
    exact ⟨fun h => ⟨rfl, event.mp h⟩, fun h => event.mpr h.2⟩

theorem pollerOf_registered {t : PlcDevType} {d : Driver Message} (polls : pollerOf t = some d) :
    d.poller.registered = true := by
  cases t with
  | xinjieXc3_32tE | mitsubishiFx3u32m => cases polls; rfl
  | mitsubishiQ02uccpu | mitsubishiQ03udvcpu => cases polls

theorem faithful_step {t : PlcDevType} {d : Driver Message} (polls : pollerOf t = some d)
    (s : State Message) (a : Act) (r : State Message) (pass : InPass s) (good : AllFaithful s)
    (taken : d.step s a = some r) : AllFaithful r ↔ WholeFx3uReport t s a := by
  unfold AllFaithful WholeFx3uReport
  rcases events_step (pollerOf_registered polls) taken with ⟨reporting, events⟩ | ⟨other, events⟩
  · have event := faithful_report polls pass reporting.2.1
    rw [events, List.forall_mem_cons, event]
    exact ⟨fun h _ => h.1, fun h => ⟨h reporting, good⟩⟩
  · rw [events]
    exact ⟨fun _ reporting => absurd reporting other, fun _ => good⟩

/-- No read of the FX3U fails behind a change of its pass, and no read of another poller finds
a change. -/
def Unspoilt (t : PlcDevType) (d : Driver Message) (s : State Message) (a : Act) : Prop :=
  if t = .mitsubishiFx3u32m then Uncut s a
  else ∀ (v : UInt16) (more : s.i < 8), d.outcome a = .modbusStart (some v) → s.oldValue[s.i] = v

/-- An event that is not faithful is to come. -/
def Spoilt (t : PlcDevType) (s : State Message) : Prop :=
  if t = .mitsubishiFx3u32m then CutShort s else s.update = true

theorem whole_unless_spoilt {t : PlcDevType} {d : Driver Message} (s : State Message) (a : Act)
    (r : State Message) (pass : InPass s) (clear : ¬ Spoilt t s) (_ : d.step s a = some r) :
    WholeFx3uReport t s a := by
  unfold Spoilt at clear
  rintro ⟨-, here, changed⟩
  by_cases fx3u : t = .mitsubishiFx3u32m
  · rw [if_pos fx3u] at clear
    exact ⟨fx3u, whole_unless_cut pass clear here changed⟩
  · rw [if_neg fx3u] at clear
    exact absurd changed clear

section Reads
variable {t : PlcDevType} {d : Driver Message} (polls : pollerOf t = some d)

include polls

theorem fx3u_outcome (fx3u : t = .mitsubishiFx3u32m) (a : Act) : d.outcome a = a := by
  subst fx3u
  cases Option.some.inj polls
  cases a <;> rfl

theorem spoilt_enters (s : State Message) (a : Act) (r : State Message) (pass : InPass s)
    (clear : ¬ Spoilt t s) (taken : d.step s a = some r) : Spoilt t r ↔ ¬ Unspoilt t d s a := by
  unfold Spoilt at clear ⊢
  unfold Unspoilt
  by_cases fx3u : t = .mitsubishiFx3u32m
  · rw [if_pos fx3u] at clear ⊢
    rw [if_pos fx3u]
    rw [Driver.step, fx3u_outcome polls fx3u] at taken
    exact cutShort_enters s a r pass clear taken
  · rw [if_neg fx3u] at clear ⊢
    rw [if_neg fx3u]
    have unchanged : s.update = false := Bool.of_not_eq_true clear
    have moves : Moves d.poller s (d.outcome a) r := step_moves taken
    generalize d.outcome a = got at moves
    cases moves with
    | read here more v => simp [unchanged, more]
    | connected | failed | retried | entered | left | thrown | finished | caught | quiet
      | delivered | dropped | slept | reset | cleared | stopped => simp [unchanged]

theorem spoilt_stays (s : State Message) (a : Act) (r : State Message) (_ : InPass s)
    (spoilt : Spoilt t s) (whole : WholeFx3uReport t s a) (taken : d.step s a = some r) :
    Spoilt t r := by
  have moves : Moves d.poller s (d.outcome a) r := step_moves taken
  unfold Spoilt at spoilt ⊢
  by_cases fx3u : t = .mitsubishiFx3u32m
  · rw [if_pos fx3u] at spoilt ⊢
    rw [fx3u_outcome polls fx3u] at moves
    exact spoilt.stays (pollerOf_registered polls)
      (fun going here changed => (whole ⟨going, here, changed⟩).2) moves
  · rw [if_neg fx3u] at spoilt ⊢
    have silent : ¬ Reporting s a := fun reporting => fx3u (whole reporting).1
    cases a with
    | modbusInit ok => cases moves <;> exact spoilt
    | stop => cases moves; exact spoilt
    | modbusStart v =>
      simp only [Driver.outcome] at moves
      generalize d.modbusStart v = got at moves
      cases moves with
      | read => simp [spoilt]
      | thrown => exact spoilt
    | proceed =>
      cases moves with
      | delivered here changed => exact absurd ⟨rfl, here, changed⟩ silent
      | dropped here changed => exact absurd ⟨rfl, here, changed⟩ silent
      | retried | entered | left | finished | caught | quiet | slept | reset | cleared =>
        exact spoilt

end Reads

/-- Whatever CreatePlcDev builds: the events of its poller all reach DoEventProcess as what
their type says, with the registers of one pass, exactly if every report is made by the
FX3U poller after a whole pass: in a run that leaves no report open, if no read of the FX3U fails
behind a change and no read of the XinJie finds one. -/
theorem payloads_match_iff {t : PlcDevType} {d : Driver Message} (polls : pollerOf t = some d)
    (as : List Act) :
    (Always d.step AllFaithful State.start as ↔
      Guarded d.step (WholeFx3uReport t) State.start as) ∧
    (Guarded d.step (Unspoilt t d) State.start as → Always d.step AllFaithful State.start as) ∧
    ∀ r, exec d.step State.start as = some r → r.update = false →
      (Always d.step AllFaithful State.start as ↔ Guarded d.step (Unspoilt t d) State.start as) := by
  have reports : Always d.step AllFaithful State.start as ↔
      Guarded d.step (WholeFx3uReport t) State.start as :=
    always_iff_guarded (fun _ _ _ pass _ taken _ => inPass_driver pass taken) (faithful_step polls)
      inPass_start (fun _ he => absurd he List.not_mem_nil) as
  have keeps : ∀ (s : State Message) (a : Act) r, InPass s → d.step s a = some r → InPass r :=
    fun _ _ _ => inPass_driver
  have open_report {s : State Message} (spoilt : Spoilt t s) : s.update = true := by
    unfold Spoilt at spoilt
    split at spoilt
    · exact spoilt.changed
    · exact spoilt
  have start : ¬ Spoilt t State.start := fun spoilt => by cases open_report spoilt
  refine ⟨reports, fun unspoilt => reports.mpr ?_, fun r run quiet => reports.trans ?_⟩
  · exact guarded_of_earlier keeps (spoilt_enters polls) whole_unless_spoilt inPass_start
      start unspoilt
  · exact guarded_iff_earlier keeps (spoilt_enters polls) whole_unless_spoilt
      (spoilt_stays polls) inPass_start start run fun spoilt =>
        absurd (open_report spoilt) (by simp [quiet])

def xinJieChange : List Act := .modbusInit true :: wholePass [5, 0, 0, 0, 0, 0, 0, 0]

theorem payloads_match_xinJie :
    (Always (xinJieXc3.messages Payload.xinJie).step AllFaithful State.start xinJieChange ↔
      Guarded (xinJieXc3.messages Payload.xinJie).step (WholeFx3uReport .xinjieXc3_32tE)
        State.start xinJieChange) ∧
    (Guarded (xinJieXc3.messages Payload.xinJie).step
        (Unspoilt .xinjieXc3_32tE (xinJieXc3.messages Payload.xinJie)) State.start xinJieChange →
      Always (xinJieXc3.messages Payload.xinJie).step AllFaithful State.start xinJieChange) ∧
    ∀ r, exec (xinJieXc3.messages Payload.xinJie).step State.start xinJieChange = some r →
      r.update = false →
      (Always (xinJieXc3.messages Payload.xinJie).step AllFaithful State.start xinJieChange ↔
        Guarded (xinJieXc3.messages Payload.xinJie).step
          (Unspoilt .xinjieXc3_32tE (xinJieXc3.messages Payload.xinJie)) State.start xinJieChange) :=
  payloads_match_iff rfl xinJieChange

/-- Its event is of type eEVENT_MITSUBISHI_FX3U_32M and carries a XinJieXc3_Data, which
DoEventProcess reads as a stMitsubishi_FX3U_32M_Data. -/
theorem xinJie_event_cast :
    ¬ Always (xinJieXc3.messages Payload.xinJie).step AllFaithful State.start xinJieChange := by
  intro always
  obtain ⟨r, run, events⟩ : ∃ r,
      exec (xinJieXc3.messages Payload.xinJie).step State.start xinJieChange = some r ∧
        r.events = [⟨⟨.mitsubishiFx3u32m, .xinJie .unassigned⟩, [5, 0, 0, 0, 0, 0, 0, 0]⟩] :=
    ⟨_, rfl, rfl⟩
  have faithful := always_end always run
  exact not_faithful_xinJie _ _ (faithful _ (by rw [events]; exact List.mem_cons_self))

end DevAccess.Poll
