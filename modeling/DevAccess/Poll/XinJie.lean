import DevAccess.Poll.Device
import Mathlib.Tactic.SplitIfs
import Mathlib.Order.Basic

/-! The two polling drivers side by side: one DoStart, and a ModbusStart that either
throws what ModbusReadHoldingRegisters threw or returns 0 for it. -/
namespace DevAccess.Poll
open Foundation ModbusTcp

/-- The fields of XinJieXc3_Data between DevInfo and Timestamp; none is assigned by DoStart. -/
structure XinJieData where
  uniquelyIdentifies : Option Int
  compressiveStrength : Option UInt16
  leakageCurrent : Option UInt16
  groundingResistance : Option UInt16
  insulationResistance : Option UInt16
  deriving DecidableEq

def XinJieData.unassigned : XinJieData := ⟨none, none, none, none, none⟩

def xinJie : Poller XinJieData := ⟨true, fun _ => .unassigned⟩

/-- The catch prints the exception and goes on. -/
def XinJie.modbusStart {σ : Type} (p : Platform σ) (address : Int) (m : Modbus) (w : σ) :
    UInt16 × Modbus × σ :=
  let r := modbusReadHoldingRegisters p address 1 (CArray.fresh 1 (fun _ => 0)) m w
  match r.outcome with
  | .error _ => (r.buffer.cell 0, r.modbus, r.world)
  | .ok _ => (r.buffer.cell 0, r.modbus, r.world)

theorem read_failed_buffer {σ β : Type} (p : Platform σ) (limit : Int) (func : Func)
    (take : Nat → CArray UInt8 × CArray β → CArray UInt8 × CArray β) (address amount : Int)
    (buffer : CArray β) (m : Modbus) (w : σ) {e : Exn}
    (thrown : (readOperation p limit func take address amount buffer m w).outcome = .error e) :
    (readOperation p limit func take address amount buffer m w).buffer = buffer := by
  cases connected : m.connected with
  | false => simp only [readOperation, connected, Bool.false_eq_true, if_false]
  | true =>
    by_cases bounds : address ≤ 65535 ∧ amount ≤ limit
    · rw [readOperation_eq p func take buffer w connected bounds] at thrown ⊢
      dsimp only at thrown ⊢
      revert thrown
      cases verdict func _ with
      | error e => intro _; rfl
      | ok u => intro other; cases other
    · have rejected : amount > limit ∨ address > 65535 := by omega
      simp only [readOperation, connected, if_true, if_pos rejected]

/-- One helper is the other with 0 for whatever was thrown. -/
theorem modbusStart_swallows {σ : Type} (p : Platform σ) (address : Int) (m : Modbus) (w : σ) :
    XinJie.modbusStart p address m w =
      ((Poll.modbusStart p address m w).1.toOption.getD 0, (Poll.modbusStart p address m w).2) := by
  simp only [XinJie.modbusStart, Poll.modbusStart]
  cases outcome : (modbusReadHoldingRegisters p address 1 (CArray.fresh 1 fun _ => 0) m w).outcome with
  | error e =>
    have kept := read_failed_buffer p _ _ _ _ _ _ m w outcome
    simp only [modbusReadHoldingRegisters] at kept ⊢
    rw [kept]
    rfl
  | ok u => rfl

structure Driver (δ : Type) where
  poller : Poller δ
  modbusStart : Option UInt16 → Option UInt16

def mitsubishiFx3u32m : Driver Data := ⟨mitsubishi, id⟩
def xinJieXc3 : Driver XinJieData := ⟨xinJie, fun v => some (v.getD 0)⟩

structure Feed where
  conn : Nat → Bool
  reads : Nat → Option UInt16

structure Fed (δ : Type) where
  state : State δ
  reads : Nat

variable {δ : Type}

def Fed.Reading (s : Fed δ) : Prop := s.state.pc = .loop ∧ s.state.i < 8

instance (s : Fed δ) : Decidable s.Reading := inferInstanceAs (Decidable (_ ∧ _))

def Driver.act (d : Driver δ) (f : Feed) (s : Fed δ) : Act :=
  if s.state.pc = .connect then .modbusInit (f.conn s.state.inits)
  else if s.Reading then .modbusStart (d.modbusStart (f.reads s.reads))
  else .proceed

def Driver.next (d : Driver δ) (f : Feed) (s : Fed δ) : Fed δ :=
  match d.poller.step s.state (d.act f s) with
  | some t => ⟨t, if s.Reading then s.reads + 1 else s.reads⟩
  | none => s

def Driver.run (d : Driver δ) (f : Feed) : Nat → Fed δ
  | 0 => ⟨State.start, 0⟩
  | n + 1 => d.next f (d.run f n)

section Next
variable {d : Driver δ} {f : Feed} {s : Fed δ}

theorem act_connect (here : s.state.pc = .connect) :
    d.act f s = .modbusInit (f.conn s.state.inits) := by
  simp [Driver.act, here]

theorem act_read (here : s.state.pc = .loop) (more : s.state.i < 8) :
    d.act f s = .modbusStart (d.modbusStart (f.reads s.reads)) := by
  simp [Driver.act, Fed.Reading, here, more]

theorem act_proceed (connect : s.state.pc ≠ .connect) (reading : ¬ s.Reading) :
    d.act f s = .proceed := by
  simp [Driver.act, connect, reading]

theorem next_moves {t : State δ} (moves : Moves d.poller s.state (d.act f s) t) :
    d.next f s = ⟨t, if s.Reading then s.reads + 1 else s.reads⟩ := by
  simp only [Driver.next, moves_step moves]

theorem next_step (d : Driver δ) (f : Feed) (s : Fed δ) :
    Moves d.poller s.state (d.act f s) (d.next f s).state := by
  obtain ⟨t, moves⟩ : ∃ t, Moves d.poller s.state (d.act f s) t := by
    by_cases connect : s.state.pc = .connect
    · rw [act_connect connect]
      cases f.conn s.state.inits with
      | false => exact ⟨_, .failed connect⟩
      | true => exact ⟨_, .connected connect⟩
    by_cases reading : s.Reading
    · rw [act_read reading.1 reading.2]
      cases d.modbusStart (f.reads s.reads) with
      | none => exact ⟨_, .thrown reading.1 reading.2⟩
      | some v => exact ⟨_, .read reading.1 reading.2 v⟩
    rw [act_proceed connect reading]
    cases here : s.state.pc with
    | connect => exact absurd here connect
    | retry => exact ⟨_, .retried here⟩
    | test =>
      cases flag : s.state.bStop with
      | false => exact ⟨_, .entered here flag⟩
      | true => exact ⟨_, .left here flag⟩
    | loop => exact ⟨_, .finished here (Nat.le_of_not_lt fun more => reading ⟨here, more⟩)⟩
    | caught => exact ⟨_, .caught here⟩
    | report =>
      cases changed : s.state.update with
      | false => exact ⟨_, .quiet here changed⟩
      | true =>
        cases registered : d.poller.registered with
        | false => exact ⟨_, .dropped here changed registered⟩
        | true => exact ⟨_, .delivered here changed registered⟩
    | sleep => exact ⟨_, .slept here⟩
    | reset => exact ⟨_, .reset here⟩
    | clear => exact ⟨_, .cleared here⟩
  rw [next_moves moves]
  exact moves

theorem next_reads : (d.next f s).reads = if s.Reading then s.reads + 1 else s.reads :=
  congrArg Fed.reads (next_moves (next_step d f s))

end Next

/-- What an outsider can compare of two drivers: OldValue, the passes and ModbusInits
started, and the events delivered. -/
structure View where
  oldValue : Vector UInt16 8
  passes : Nat
  events : Nat
  inits : Nat
  deriving DecidableEq

def State.view (s : State δ) : View := ⟨s.oldValue, s.passes, s.events.length, s.inits⟩

def Driver.views (d : Driver δ) (f : Feed) (n : Nat) : View := (d.run f n).state.view

/-- A failed read leaves OldValue alone, and a ModbusInit comes before the next read. -/
def Driver.Recovers (d : Driver δ) (f : Feed) : Prop :=
  ∀ n, (d.run f n).Reading → f.reads (d.run f n).reads = none →
    (d.run f (n + 1)).state.oldValue = (d.run f n).state.oldValue ∧
      ∃ m, n < m ∧ (d.run f m).state.inits = (d.run f n).state.inits + 1 ∧
        (d.run f m).reads = (d.run f n).reads + 1

/-- The two drivers go through the same arrays, events and reconnections, and a failed
read does what it should in both. -/
structure Agree (f : Feed) : Prop where
  same : SameHistory (xinJieXc3.views f) (mitsubishiFx3u32m.views f)
  xinJie : xinJieXc3.Recovers f
  mitsubishi : mitsubishiFx3u32m.Recovers f

section Forget

def State.forget (s : State δ) : State Unit where
  pc := s.pc
  i := s.i
  oldValue := s.oldValue
  tempValue := s.tempValue
  update := s.update
  bStop := s.bStop
  stopping := s.stopping
  seen := s.seen
  events := s.events.map (fun e => ⟨(), e.pass⟩)
  inits := s.inits
  passes := s.passes

def Fed.forget (s : Fed δ) : Fed Unit := ⟨s.state.forget, s.reads⟩

def quiet : Poller Unit := ⟨true, fun _ => ()⟩

theorem forget_view (s : State δ) : s.forget.view = s.view := by
  simp [State.view, State.forget]

theorem forget_step {d : Poller δ} {s t : State δ} {a : Act} (registered : d.registered = true)
    (moves : Moves d s a t) : Moves quiet s.forget a t.forget := by
  cases moves with
  | connected here => exact .connected here
  | failed here => exact .failed here
  | retried here => exact .retried here
  | entered here running => exact .entered here running
  | left here stopped => exact .left here stopped
  | read here more v => exact .read (s := s.forget) here more v
  | thrown here more => exact .thrown here more
  | finished here done => exact .finished here done
  | caught here => exact .caught here
  | quiet here same => exact .quiet here same
  | delivered here changed => exact .delivered (s := s.forget) here changed rfl
  | dropped _ _ unset => cases unset.symm.trans registered
  | slept here => exact .slept here
  | reset here => exact .reset here
  | cleared here => exact .cleared here
  | stopped first => exact .stopped first

/-- Without the data of the events a driver's run is one of the bare loop with the same
ModbusStart. -/
theorem forget_run (d : Driver δ) (registered : d.poller.registered = true) (f : Feed) (n : Nat) :
    (d.run f n).forget = Driver.run ⟨quiet, d.modbusStart⟩ f n := by
  induction n with
  | zero => rfl
  | succ n ih =>
    have moves := forget_step registered (next_step d f (d.run f n))
    have act : d.act f (d.run f n) = Driver.act ⟨quiet, d.modbusStart⟩ f (d.run f n).forget := rfl
    rw [act] at moves
    have bare := next_moves (d := ⟨quiet, d.modbusStart⟩) (s := (d.run f n).forget) moves
    simp only [Driver.run, ← ih, bare]
    rw [Fed.forget, next_reads]
    rfl

end Forget

section Progress
variable {d : Driver δ} {f : Feed} {s : Fed δ}

def Driver.tick (d : Driver δ) (f : Feed) (s : Fed δ) (_ : Unit) : Option (Fed δ) := some (d.next f s)

theorem exec_tick (d : Driver δ) (f : Feed) (n : Nat) (as : List Unit) :
    exec (d.tick f) (d.run f n) as = some (d.run f (n + as.length)) := by
  induction as generalizing n with
  | nil => rfl
  | cons a rest ih =>
    have later := ih (n + 1)
    rw [List.length_cons, Nat.add_comm rest.length 1, ← Nat.add_assoc, ← later]
    rfl

theorem run_reaches {n : Nat} {P : Fed δ → Prop} (h : Reaches (d.tick f) (d.run f n) P) :
    ∃ m, n ≤ m ∧ P (d.run f m) := by
  obtain ⟨as, t, run, holds⟩ := h
  rw [exec_tick] at run
  cases run
  exact ⟨_, Nat.le_add_right n as.length, holds⟩

theorem reaches_moves {t : State δ} {P : Fed δ → Prop} (moves : Moves d.poller s.state (d.act f s) t)
    (later : Reaches (d.tick f) ⟨t, if s.Reading then s.reads + 1 else s.reads⟩ P) :
    Reaches (d.tick f) s P := by
  apply reaches_step () _ later
  rw [← next_moves moves]
  rfl

theorem reaches_proceed {t : State δ} {P : Fed δ → Prop} (moves : Moves d.poller s.state .proceed t)
    (connect : s.state.pc ≠ .connect) (reading : ¬ s.Reading)
    (later : Reaches (d.tick f) ⟨t, s.reads⟩ P) : Reaches (d.tick f) s P := by
  apply reaches_moves (t := t)
  · rw [act_proceed connect reading]
    exact moves
  · rw [if_neg reading]
    exact later

def Counts (inits reads : Nat) (s : Fed δ) : Prop := s.state.inits = inits ∧ s.reads = reads

theorem connect_counts (here : s.state.pc = .connect) :
    Reaches (d.tick f) s (Counts (s.state.inits + 1) s.reads) := by
  have idle : ¬ s.Reading := by simp [Fed.Reading, here]
  cases outcome : f.conn s.state.inits with
  | false =>
    apply reaches_moves (t := { s.state with pc := .retry, inits := s.state.inits + 1 })
    · rw [act_connect here, outcome]
      exact .failed here
    · exact reaches_here ⟨rfl, if_neg idle⟩
  | true =>
    apply reaches_moves (t := { s.state with pc := .test, inits := s.state.inits + 1 })
    · rw [act_connect here, outcome]
      exact .connected here
    · exact reaches_here ⟨rfl, if_neg idle⟩

theorem test_counts (here : s.state.pc = .test) (flag : s.state.bStop = true) :
    Reaches (d.tick f) s (Counts (s.state.inits + 1) s.reads) := by
  apply reaches_proceed (.left here flag) (by simp [here]) (by simp [Fed.Reading, here])
  apply reaches_proceed (.reset rfl) (by simp) (by simp [Fed.Reading])
  apply reaches_proceed (.cleared rfl) (by simp) (by simp [Fed.Reading])
  exact connect_counts rfl

theorem reaches_report {P : Fed δ → Prop} (here : s.state.pc = .report)
    (later : ∀ t : State δ, t.pc = .sleep → t.bStop = s.state.bStop → t.inits = s.state.inits →
      Reaches (d.tick f) ⟨t, s.reads⟩ P) : Reaches (d.tick f) s P := by
  have connect : s.state.pc ≠ .connect := by simp [here]
  have idle : ¬ s.Reading := by simp [Fed.Reading, here]
  cases changed : s.state.update with
  | false => exact reaches_proceed (.quiet here changed) connect idle (later _ rfl rfl rfl)
  | true =>
    cases registered : d.poller.registered with
    | false =>
      exact reaches_proceed (.dropped here changed registered) connect idle (later _ rfl rfl rfl)
    | true =>
      exact reaches_proceed (.delivered here changed registered) connect idle (later _ rfl rfl rfl)

theorem report_counts (here : s.state.pc = .report) (flag : s.state.bStop = true) :
    Reaches (d.tick f) s (Counts (s.state.inits + 1) s.reads) := by
  apply reaches_report here
  intro t asleep still same
  apply reaches_proceed (.slept asleep) (by simp [asleep]) (by simp [Fed.Reading, asleep])
  rw [← same]
  exact test_counts rfl (still.trans flag)

theorem thrown_counts (reading : s.Reading) (thrown : d.modbusStart (f.reads s.reads) = none) :
    Reaches (d.tick f) s (Counts (s.state.inits + 1) (s.reads + 1)) := by
  apply reaches_moves (t := { s.state with pc := .caught })
  · rw [act_read reading.1 reading.2, thrown]
    exact .thrown reading.1 reading.2
  · rw [if_pos reading]
    apply reaches_proceed (.caught rfl) (by simp) (by simp [Fed.Reading])
    exact report_counts rfl rfl

structure Ready (inits k : Nat) (s : Fed δ) : Prop where
  reading : s.Reading
  running : s.state.bStop = false
  counts : Counts inits k s

theorem test_ready {n k : Nat} (here : s.state.pc = .test) (running : s.state.bStop = false)
    (counts : Counts n k s) : Reaches (d.tick f) s (Ready n k) := by
  apply reaches_proceed (.entered here running) (by simp [here]) (by simp [Fed.Reading, here])
  exact reaches_here ⟨⟨rfl, Nat.zero_lt_succ 7⟩, running, counts⟩

theorem connect_ready {n : Nat} (down : ∀ j < n, f.conn j = false) (up : f.conn n = true)
    (here : s.state.pc = .connect) (running : s.state.bStop = false) (early : s.state.inits ≤ n) :
    Reaches (d.tick f) s (Ready (n + 1) s.reads) := by
  induction left : n - s.state.inits generalizing s with
  | zero =>
    have now : s.state.inits = n := by omega
    apply reaches_moves (t := { s.state with pc := .test, inits := s.state.inits + 1 })
    · rw [act_connect here, now, up]
      rw [← now]
      exact .connected here
    · rw [if_neg (by simp [Fed.Reading, here])]
      exact test_ready rfl running ⟨by simp only [now], rfl⟩
  | succ k ih =>
    have before : s.state.inits < n := by omega
    apply reaches_moves (t := { s.state with pc := .retry, inits := s.state.inits + 1 })
    · rw [act_connect here, down _ before]
      exact .failed here
    · rw [if_neg (by simp [Fed.Reading, here])]
      apply reaches_proceed (.retried rfl) (by simp) (by simp [Fed.Reading])
      exact ih rfl running before (by simp only; omega)

theorem full_ready {n k : Nat} (here : s.state.pc = .loop) (full : 8 ≤ s.state.i)
    (running : s.state.bStop = false) (counts : Counts n k s) : Reaches (d.tick f) s (Ready n k) := by
  apply reaches_proceed (.finished here full) (by simp [here])
    (fun reading => absurd reading.2 (Nat.not_lt.mpr full))
  apply reaches_report rfl
  intro t asleep still same
  apply reaches_proceed (.slept asleep) (by simp [asleep]) (by simp [Fed.Reading, asleep])
  exact test_ready rfl (still.trans running) ⟨same.trans counts.1, counts.2⟩

theorem ready_next {n k : Nat} {v : UInt16} (ready : Ready n k s)
    (value : d.modbusStart (f.reads k) = some v) : Reaches (d.tick f) s (Ready n (k + 1)) := by
  obtain ⟨⟨here, more⟩, running, inits, reads⟩ := ready
  apply reaches_moves (d := d)
  · rw [act_read here more, reads, value]
    exact .read here more v
  · rw [if_pos ⟨here, more⟩, reads]
    by_cases last : s.state.i + 1 < 8
    · exact reaches_here ⟨⟨here, last⟩, running, inits, rfl⟩
    · exact full_ready here (Nat.le_of_not_lt last) running ⟨inits, rfl⟩

theorem reaches_read {n : Nat} (down : ∀ j < n, f.conn j = false) (up : f.conn n = true) (k : Nat)
    (values : ∀ j < k, d.modbusStart (f.reads j) ≠ none) :
    Reaches (d.tick f) (d.run f 0) (Ready (n + 1) k) := by
  induction k with
  | zero => exact connect_ready down up rfl rfl (Nat.zero_le n)
  | succ k ih =>
    apply reaches_trans (ih fun j before => values j (Nat.lt_succ_of_lt before))
    intro s ready
    obtain ⟨v, value⟩ := Option.ne_none_iff_exists'.mp (values k (Nat.lt_succ_self k))
    exact ready_next ready value

end Progress

section Safety
variable {d : Driver δ} {f : Feed}

theorem down_idle (d : Driver δ) (down : ∀ n, f.conn n = false) (n : Nat) :
    (d.run f n).state.pc = .connect ∨ (d.run f n).state.pc = .retry := by
  induction n with
  | zero => exact .inl rfl
  | succ n ih =>
    simp only [Driver.run]
    have moves := next_step d f (d.run f n)
    rcases ih with here | here
    · rw [act_connect here, down] at moves
      generalize (d.next f (d.run f n)).state = t at moves
      cases moves
      exact .inr rfl
    · rw [act_proceed (by simp [here]) (by simp [Fed.Reading, here])] at moves
      generalize (d.next f (d.run f n)).state = t at moves
      cases moves with
      | retried => exact .inl rfl
      | _ => simp_all

def Steady (n : Nat) (s : State δ) : Prop :=
  s.bStop = false ∧
    ((s.pc = .connect ∨ s.pc = .retry) ∧ s.inits ≤ n ∨
      (s.pc = .test ∨ s.pc = .loop ∨ s.pc = .report ∨ s.pc = .sleep) ∧ s.inits ≤ n + 1)

theorem steady_run {n : Nat} (total : ∀ r, d.modbusStart r ≠ none) (up : f.conn n = true) (m : Nat) :
    Steady n (d.run f m).state := by
  induction m with
  | zero => exact ⟨rfl, .inl ⟨.inl rfl, Nat.zero_le n⟩⟩
  | succ m ih =>
    obtain ⟨running, place⟩ := ih
    simp only [Driver.run]
    have moves := next_step d f (d.run f m)
    generalize (d.next f (d.run f m)).state = t at moves
    generalize act : d.act f (d.run f m) = a at moves
    cases moves with
    | connected here =>
      have early : (d.run f m).state.inits ≤ n := by simpa [here] using place
      exact ⟨running, .inr ⟨.inl rfl, Nat.succ_le_succ early⟩⟩
    | failed here =>
      have early : (d.run f m).state.inits ≤ n := by simpa [here] using place
      -- ModbusInit n succeeds, so this one comes before it
      have other : (d.run f m).state.inits ≠ n := by
        intro now
        rw [act_connect here, now, up] at act
        cases act
      exact ⟨running, .inl ⟨.inr rfl, Nat.lt_of_le_of_ne early other⟩⟩
    | thrown here more =>
      rw [act_read here more] at act
      exact absurd (Act.modbusStart.inj act) (total _)
    | retried here =>
      have early : (d.run f m).state.inits ≤ n := by simpa [here] using place
      exact ⟨running, .inl ⟨.inl rfl, early⟩⟩
    | entered here | read here | finished here | quiet here | delivered here | dropped here
      | slept here =>
      have late : (d.run f m).state.inits ≤ n + 1 := by simpa [here] using place
      exact ⟨running, .inr ⟨by simp [here], late⟩⟩
    | left _ stopped => cases stopped.symm.trans running
    | caught here | reset here | cleared here => simp [here] at place
    | stopped =>
      unfold Driver.act at act
      split_ifs at act

theorem steady_inits {n : Nat} {s : State δ} (steady : Steady n s) : s.inits ≤ n + 1 := by
  rcases steady.2 with ⟨-, early⟩ | ⟨-, late⟩
  · exact Nat.le_succ_of_le early
  · exact late

def Driver.Unfailing (d : Driver δ) (f : Feed) : Prop :=
  ∀ n, (d.run f n).Reading → f.reads (d.run f n).reads ≠ none

theorem unfailing_of (d : Driver δ) (h : (∀ n, f.conn n = false) ∨ ∀ k, f.reads k ≠ none) :
    d.Unfailing f := by
  intro n reading
  rcases h with down | values
  · rcases down_idle d down n with here | here
    · exact absurd reading.1 (by simp [here])
    · exact absurd reading.1 (by simp [here])
  · exact values _

/-- As long as no read fails it makes no difference what ModbusStart does with failures. -/
theorem run_congr {g h : Option UInt16 → Option UInt16} (values : ∀ v, g (some v) = h (some v))
    (unfailing : Driver.Unfailing ⟨quiet, g⟩ f) (n : Nat) :
    Driver.run ⟨quiet, g⟩ f n = Driver.run ⟨quiet, h⟩ f n := by
  induction n with
  | zero => rfl
  | succ n ih =>
    have act : Driver.act ⟨quiet, g⟩ f (Driver.run ⟨quiet, g⟩ f n) =
        Driver.act ⟨quiet, h⟩ f (Driver.run ⟨quiet, g⟩ f n) := by
      unfold Driver.act
      split_ifs with connect reading
      · rfl
      · obtain ⟨v, value⟩ := Option.ne_none_iff_exists'.mp (unfailing n reading)
        rw [value]
        exact congrArg Act.modbusStart (values v)
      · rfl
    simp only [Driver.run, Driver.next, ← ih, act]

end Safety

theorem views_forget (d : Driver δ) (registered : d.poller.registered = true) (f : Feed) :
    d.views f = fun n => (Driver.run ⟨quiet, d.modbusStart⟩ f n).state.view := by
  funext n
  rw [← forget_run d registered f n]
  exact (forget_view _).symm

theorem mitsubishi_recovers (f : Feed) : mitsubishiFx3u32m.Recovers f := by
  intro n reading thrown
  constructor
  · have moves := next_step mitsubishiFx3u32m f (mitsubishiFx3u32m.run f n)
    rw [act_read reading.1 reading.2, thrown] at moves
    simp only [Driver.run]
    generalize (mitsubishiFx3u32m.next f (mitsubishiFx3u32m.run f n)).state = t at moves
    cases moves
    rfl
  · obtain ⟨m, later, inits, reads⟩ := run_reaches (thrown_counts reading thrown)
    refine ⟨m, ?_, inits, reads⟩
    rcases Nat.lt_or_eq_of_le later with after | same
    · exact after
    · rw [← same] at inits
      exact absurd inits (Nat.ne_of_lt (Nat.lt_succ_self _))

/-- The drivers agree exactly if no connection is ever made or no read ever fails. -/
theorem drivers_agree_iff (f : Feed) :
    Agree f ↔ (∀ n, f.conn n = false) ∨ ∀ k, f.reads k ≠ none := by
  constructor
  · intro agree
    by_contra other
    obtain ⟨connects, fails⟩ := not_or.mp other
    simp only [not_forall, Bool.not_eq_false, not_not] at connects fails
    -- the first success and the first failure
    have down : ∀ j < Nat.find connects, f.conn j = false := fun j before =>
      Bool.eq_false_iff.mpr (Nat.find_min connects before)
    have up : f.conn (Nat.find connects) = true := Nat.find_spec connects
    have values : ∀ j < Nat.find fails, mitsubishiFx3u32m.modbusStart (f.reads j) ≠ none :=
      fun j before => Nat.find_min fails before
    obtain ⟨n, -, ready⟩ := run_reaches (reaches_read down up (Nat.find fails) values)
    obtain ⟨inits, reads⟩ := ready.counts
    have failed : f.reads (mitsubishiFx3u32m.run f n).reads = none := by
      rw [reads]
      exact Nat.find_spec fails
    obtain ⟨-, m, -, again, -⟩ := agree.mitsubishi n ready.reading failed
    obtain ⟨k, same⟩ := agree.same.symm.reaches m
    have steady := steady_inits (steady_run (d := xinJieXc3) (fun _ => Option.some_ne_none _) up k)
    have equal : (xinJieXc3.run f k).state.inits = (mitsubishiFx3u32m.run f m).state.inits :=
      congrArg View.inits same
    omega
  · intro h
    have alike : xinJieXc3.views f = mitsubishiFx3u32m.views f := by
      rw [views_forget xinJieXc3 rfl, views_forget mitsubishiFx3u32m rfl]
      funext n
      have bare := run_congr (g := xinJieXc3.modbusStart) (h := mitsubishiFx3u32m.modbusStart)
        (fun _ => rfl) (unfailing_of _ h) n
      exact congrArg (fun s => s.state.view) bare
    refine ⟨alike ▸ sameHistory_refl _, ?_, mitsubishi_recovers f⟩
    intro n reading failed
    exact absurd failed (unfailing_of xinJieXc3 h n reading)

def oneGoodRead : Feed := ⟨fun _ => true, fun k => if k = 0 then some 5 else none⟩

/-- The Mitsubishi driver connects a second time and the XinJie driver never does. -/
theorem xinJie_stays : ¬ Agree oneGoodRead ∧
    (mitsubishiFx3u32m.run oneGoodRead 11).state.inits = 2 ∧
    ∀ n, (xinJieXc3.run oneGoodRead n).state.inits ≤ 1 := by
  refine ⟨fun agree => ?_, rfl, fun n => ?_⟩
  · obtain ⟨n, same⟩ := agree.same.symm.reaches 11
    have twice : (mitsubishiFx3u32m.run oneGoodRead 11).state.inits = 2 := rfl
    have once := steady_inits (steady_run (d := xinJieXc3) (f := oneGoodRead) (n := 0)
      (fun _ => Option.some_ne_none _) rfl n)
    have equal := congrArg View.inits same
    simp only [Driver.views, State.view] at equal
    omega
  · exact steady_inits (steady_run (fun _ => Option.some_ne_none _) rfl n)

end DevAccess.Poll
