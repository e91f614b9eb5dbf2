import DevAccess.Foundation.Run

/-! The worker thread of a polling driver, DoStart, beside the thread that calls Stop.
A step is one read or write of m_bStop, one ModbusInit, one register read, or one
statement that only the worker sees. -/
namespace DevAccess.Poll
open Foundation

def intSet : Vector Int 8 := #v[2020, 3000, 3004, 3002, 2022, 3100, 3104, 3102]

structure Data where
  stationStatus1 : UInt16
  stationOkAmount1 : UInt16
  stationTotalAmount1 : UInt16
  stationNgAmount1 : UInt16
  stationStatus2 : UInt16
  stationOkAmount2 : UInt16
  stationTotalAmount2 : UInt16
  stationNgAmount2 : UInt16
  deriving DecidableEq

def Data.make (oldValue : Vector UInt16 8) : Data where
  stationStatus1 := oldValue[0]
  stationOkAmount1 := oldValue[1]
  stationTotalAmount1 := oldValue[2]
  stationNgAmount1 := oldValue[3]
  stationStatus2 := oldValue[4]
  stationOkAmount2 := oldValue[5]
  stationTotalAmount2 := oldValue[6]
  stationNgAmount2 := oldValue[7]

def Data.registers (d : Data) : List UInt16 :=
  [d.stationStatus1, d.stationOkAmount1, d.stationTotalAmount1, d.stationNgAmount1,
    d.stationStatus2, d.stationOkAmount2, d.stationTotalAmount2, d.stationNgAmount2]

theorem make_registers (oldValue : Vector UInt16 8) :
    (Data.make oldValue).registers = oldValue.toList := by
  obtain ⟨⟨l⟩, size⟩ := oldValue
  match l, size with
  | [_, _, _, _, _, _, _, _], _ => rfl

/-- What tells one poller from another: whether m_fn is set, and what DoStart puts into
the data it hands to m_fn. -/
structure Poller (δ : Type) where
  registered : Bool
  payload : Vector UInt16 8 → δ

def mitsubishi : Poller Data := ⟨true, Data.make⟩

inductive Pc where
  | connect  -- while (!ModbusInit(id))
  | retry    -- Sleep(5000)
  | test     -- while (!m_bStop)
  | loop     -- for (i = 0; i < 8; i++)
  | caught   -- m_bStop = true; break;
  | report   -- if (Update)
  | sleep    -- Sleep(interval)
  | reset    -- m_bStop = false
  | clear    -- memset(OldValue, 0, sizeof(OldValue))
  deriving DecidableEq

structure Event (δ : Type) where
  data : δ
  pass : List UInt16

structure State (δ : Type) where
  pc : Pc
  i : Nat
  oldValue : Vector UInt16 8
  tempValue : UInt16
  update : Bool
  bStop : Bool
  stopping : Bool          -- Stop has stored true, and waits for the worker
  -- The rest is history: what this pass has read so far, the calls of m_fn with the
  -- newest first, and how many ModbusInits and passes were started.
  seen : List UInt16
  events : List (Event δ)
  inits : Nat
  passes : Nat

inductive Act where
  | modbusInit (ok : Bool)
  | modbusStart (v : Option UInt16)  -- none when it throws
  | proceed                          -- the worker's other steps
  | stop                             -- m_bStop = true in Stop
  deriving DecidableEq

def zeros : Vector UInt16 8 := Vector.replicate 8 0

variable {δ : Type}

def State.start : State δ where
  pc := .connect
  i := 0
  oldValue := zeros
  tempValue := 0
  update := false
  bStop := false
  stopping := false
  seen := []
  events := []
  inits := 0
  passes := 0

/-- if (OldValue[i] != TempValue) { OldValue[i] = TempValue; Update = true; } -/
def State.notice (s : State δ) (v : UInt16) (h : s.i < 8) : State δ :=
  if s.oldValue[s.i] ≠ v then { s with oldValue := s.oldValue.set s.i v, update := true } else s

def Poller.report (d : Poller δ) (s : State δ) : State δ :=
  if s.update then
    let s := { s with update := false }
    if d.registered then { s with events := ⟨d.payload s.oldValue, s.seen⟩ :: s.events } else s
  else s

def Poller.proceed (d : Poller δ) (s : State δ) : Option (State δ) :=
  match s.pc with
  | .connect => none
  | .retry => some { s with pc := .connect }
  | .test =>
    if s.bStop then some { s with pc := .reset }
    else some { s with pc := .loop, i := 0, seen := [], passes := s.passes + 1 }
  | .loop => if s.i < 8 then none else some { s with pc := .report }
  | .caught => some { s with bStop := true, pc := .report }
  | .report => some { d.report s with pc := .sleep }
  | .sleep => some { s with pc := .test }
  | .reset => some { s with bStop := false, pc := .clear }
  | .clear => some { s with oldValue := zeros, pc := .connect }

/-- The join in Stop never ends, since DoStart never returns, so ModbusClose is not reached. -/
def Poller.step (d : Poller δ) (s : State δ) : Act → Option (State δ)
  | .modbusInit ok =>
    if s.pc = .connect then
      some { s with pc := if ok then .test else .retry, inits := s.inits + 1 }
    else none
  | .modbusStart v =>
    if h : s.pc = .loop ∧ s.i < 8 then
      match v with
      | none => some { s with pc := .caught }
      | some v =>
        let s' := State.notice { s with tempValue := v } v h.2
        some { s' with i := s.i + 1, seen := s.seen ++ [v] }
    else none
  | .proceed => d.proceed s
  | .stop => if s.stopping then none else some { s with bStop := true, stopping := true }

/-- Everything a step can do. -/
inductive Moves (d : Poller δ) (s : State δ) : Act → State δ → Prop where
  | connected (here : s.pc = .connect) :
    Moves d s (.modbusInit true) { s with pc := .test, inits := s.inits + 1 }
  | failed (here : s.pc = .connect) :
    Moves d s (.modbusInit false) { s with pc := .retry, inits := s.inits + 1 }
  | retried (here : s.pc = .retry) : Moves d s .proceed { s with pc := .connect }
  | entered (here : s.pc = .test) (running : s.bStop = false) :
    Moves d s .proceed { s with pc := .loop, i := 0, seen := [], passes := s.passes + 1 }
  | left (here : s.pc = .test) (stopped : s.bStop = true) :
    Moves d s .proceed { s with pc := .reset }
  | read (here : s.pc = .loop) (more : s.i < 8) (v : UInt16) :
    Moves d s (.modbusStart (some v))
      { s with
        i := s.i + 1, tempValue := v, oldValue := s.oldValue.set s.i v,
        update := s.update || s.oldValue[s.i] != v, seen := s.seen ++ [v] }
  | thrown (here : s.pc = .loop) (more : s.i < 8) :
    Moves d s (.modbusStart none) { s with pc := .caught }
  | finished (here : s.pc = .loop) (done : 8 ≤ s.i) : Moves d s .proceed { s with pc := .report }
  | caught (here : s.pc = .caught) : Moves d s .proceed { s with bStop := true, pc := .report }
  | quiet (here : s.pc = .report) (same : s.update = false) :
    Moves d s .proceed { s with pc := .sleep }
  | delivered (here : s.pc = .report) (changed : s.update = true) (registered : d.registered = true) :
    Moves d s .proceed
      { s with update := false, events := ⟨d.payload s.oldValue, s.seen⟩ :: s.events, pc := .sleep }
  | dropped (here : s.pc = .report) (changed : s.update = true) (unset : d.registered = false) :
    Moves d s .proceed { s with update := false, pc := .sleep }
  | slept (here : s.pc = .sleep) : Moves d s .proceed { s with pc := .test }
  | reset (here : s.pc = .reset) : Moves d s .proceed { s with bStop := false, pc := .clear }
  | cleared (here : s.pc = .clear) : Moves d s .proceed { s with oldValue := zeros, pc := .connect }
  | stopped (first : s.stopping = false) :
    Moves d s .stop { s with bStop := true, stopping := true }

theorem notice_eq (s : State δ) (v : UInt16) (h : s.i < 8) :
    s.notice v h =
      { s with oldValue := s.oldValue.set s.i v, update := s.update || s.oldValue[s.i] != v } := by
  unfold State.notice
  by_cases same : s.oldValue[s.i] = v
  · have kept : s.oldValue.set s.i v = s.oldValue := by
      rw [← same]
      exact Vector.set_getElem_self ..
    rw [if_neg (not_not_intro same), kept, bne_eq_false_iff_eq.mpr same, Bool.or_false]
  · rw [if_pos same, bne_iff_ne.mpr same, Bool.or_true]

theorem report_quiet {d : Poller δ} {s : State δ} (same : s.update = false) : d.report s = s := by
  simp [Poller.report, same]

theorem report_dropped {d : Poller δ} {s : State δ} (changed : s.update = true)
    (unset : d.registered = false) : d.report s = { s with update := false } := by
  simp [Poller.report, changed, unset]

theorem report_delivered {d : Poller δ} {s : State δ} (changed : s.update = true)
    (registered : d.registered = true) :
    d.report s =
      { s with update := false, events := ⟨d.payload s.oldValue, s.seen⟩ :: s.events } := by
  simp [Poller.report, changed, registered]

@[simp] theorem report_bStop (d : Poller δ) (s : State δ) : (d.report s).bStop = s.bStop := by
  unfold Poller.report
  split
  · split <;> rfl
  · rfl

theorem proceed_moves {d : Poller δ} {s t : State δ} (taken : d.proceed s = some t) :
    Moves d s .proceed t := by
  unfold Poller.proceed at taken
  split at taken
  case h_1 => cases taken
  case h_2 here => cases taken; exact .retried here
  case h_3 here =>
    split at taken
    case isTrue stopped => cases taken; exact .left here stopped
    case isFalse running => cases taken; exact .entered here (Bool.of_not_eq_true running)
  case h_4 here =>
    split at taken
    case isTrue => cases taken
    case isFalse done => cases taken; exact .finished here (Nat.le_of_not_lt done)
  case h_5 here => cases taken; exact .caught here
  case h_6 here =>
    cases taken
    cases changed : s.update with
    | false =>
      rw [report_quiet changed]
      exact .quiet here changed
    | true =>
      cases registered : d.registered with
      | false =>
        rw [report_dropped changed registered]
        exact .dropped here changed registered
      | true =>
        rw [report_delivered changed registered]
        exact .delivered here changed registered
  case h_7 here => cases taken; exact .slept here
  case h_8 here => cases taken; exact .reset here
  case h_9 here => cases taken; exact .cleared here

theorem step_moves {d : Poller δ} {s t : State δ} {a : Act} (taken : d.step s a = some t) :
    Moves d s a t := by
  cases a with
  | modbusInit ok =>
    simp only [Poller.step] at taken
    split at taken
    case isTrue here =>
      cases taken
      cases ok
      · exact .failed here
      · exact .connected here
    case isFalse => cases taken
  | modbusStart v =>
    simp only [Poller.step] at taken
    split at taken
    case isTrue here =>
      cases v with
      | none => cases taken; exact .thrown here.1 here.2
      | some v =>
        cases taken
        rw [notice_eq]
        exact .read here.1 here.2 v
    case isFalse => cases taken
  | proceed => exact proceed_moves taken
  | stop =>
    simp only [Poller.step] at taken
    split at taken
    case isTrue => cases taken
    case isFalse first => cases taken; exact .stopped (Bool.of_not_eq_true first)

theorem moves_step {d : Poller δ} {s t : State δ} {a : Act} (moves : Moves d s a t) :
    d.step s a = some t := by
  cases moves with
  | connected here | failed here => simp [Poller.step, here]
  | read here more v =>
    simp only [Poller.step, dif_pos (And.intro here more), notice_eq]
  | thrown here more => simp only [Poller.step, dif_pos (And.intro here more)]
  | retried here | caught here | slept here | reset here | cleared here =>
    simp [Poller.step, Poller.proceed, here]
  | entered here running => simp [Poller.step, Poller.proceed, here, running]
  | left here stopped => simp [Poller.step, Poller.proceed, here, stopped]
  | finished here done => simp [Poller.step, Poller.proceed, here, Nat.not_lt.mpr done]
  | quiet here same => simp [Poller.step, Poller.proceed, here, report_quiet same]
  | delivered here changed registered =>
    simp [Poller.step, Poller.proceed, here, report_delivered changed registered]
  | dropped here changed unset =>
    simp [Poller.step, Poller.proceed, here, report_dropped changed unset]
  | stopped first => simp [Poller.step, first]

end DevAccess.Poll
