import DevAccess.Poll.Driver

/-! Stop against the worker. The worker takes its own reconnect signal and the stop
request from one flag, and clears it, so every stop request ends in a reconnection. -/
namespace DevAccess.Poll
open Foundation

variable {δ : Type} {d : Poller δ}

/-- The stop request is honoured from here on: whatever follows, the flag stays set, and
no ModbusInit and no pass is started any more. -/
def Honoured (d : Poller δ) (s : State δ) : Prop :=
  ∀ as t, exec d.step s as = some t →
    t.bStop = true ∧ t.inits = s.inits ∧ t.passes = s.passes

theorem counts_step {s t : State δ} {a : Act} (taken : d.step s a = some t) :
    s.inits ≤ t.inits ∧ s.passes ≤ t.passes := by
  cases step_moves taken <;> simp

theorem counts_run {s t : State δ} {as : List Act} (run : exec d.step s as = some t) :
    s.inits ≤ t.inits ∧ s.passes ≤ t.passes :=
  exec_inductive (I := fun t => s.inits ≤ t.inits ∧ s.passes ≤ t.passes)
    (fun _ _ _ h taken =>
      ⟨Nat.le_trans h.1 (counts_step taken).1, Nat.le_trans h.2 (counts_step taken).2⟩)
    ⟨Nat.le_refl _, Nat.le_refl _⟩ run

section Test
variable {s : State δ}

def AtTest (s : State δ) : Prop := s.pc = .test

theorem sleep_test (here : s.pc = .sleep) : Reaches d.step s AtTest := by
  apply reaches_step .proceed
  · simp only [Poller.step, Poller.proceed, here]
    rfl
  · exact reaches_here rfl

theorem report_test (here : s.pc = .report) : Reaches d.step s AtTest := by
  apply reaches_step .proceed
  · simp only [Poller.step, Poller.proceed, here]
    rfl
  · exact sleep_test rfl

theorem caught_test (here : s.pc = .caught) : Reaches d.step s AtTest := by
  apply reaches_step .proceed
  · simp only [Poller.step, Poller.proceed, here]
    rfl
  · exact report_test rfl

theorem connect_test (here : s.pc = .connect) : Reaches d.step s AtTest := by
  apply reaches_step (.modbusInit true)
  · simp only [Poller.step, here]
    rfl
  · exact reaches_here rfl

theorem clear_test (here : s.pc = .clear) : Reaches d.step s AtTest := by
  apply reaches_step .proceed
  · simp only [Poller.step, Poller.proceed, here]
    rfl
  · exact connect_test rfl

theorem reaches_test (d : Poller δ) (s : State δ) : Reaches d.step s AtTest := by
  cases here : s.pc with
  | connect => exact connect_test here
  | retry =>
    apply reaches_step .proceed
    · simp only [Poller.step, Poller.proceed, here]
      rfl
    · exact connect_test rfl
  | test => exact reaches_here here
  | loop =>
    by_cases more : s.i < 8
    · apply reaches_step (.modbusStart none)
      · simp only [Poller.step, here, more, and_self, dite_true]
        rfl
      · exact caught_test rfl
    · apply reaches_step .proceed
      · simp only [Poller.step, Poller.proceed, here, if_neg more]
        rfl
      · exact report_test rfl
  | caught => exact caught_test here
  | report => exact report_test here
  | sleep => exact sleep_test here
  | reset =>
    apply reaches_step .proceed
    · simp only [Poller.step, Poller.proceed, here]
      rfl
    · exact clear_test rfl
  | clear => exact clear_test here

end Test

theorem reaches_counted {P : State δ → Prop} {s : State δ} (h : Reaches d.step s P) :
    Reaches d.step s (fun t => P t ∧ s.inits ≤ t.inits ∧ s.passes ≤ t.passes) := by
  obtain ⟨as, t, run, holds⟩ := h
  exact ⟨as, t, run, holds, counts_run run⟩

def GoneOn (s t : State δ) : Prop := t.bStop = false ∧ s.inits < t.inits ∧ s.passes < t.passes

/-- A set flag found at the test is taken for a lost connection: the worker clears it,
connects again and goes on polling. -/
theorem set_flag_run {s : State δ} (here : s.pc = .test) (flag : s.bStop = true) :
    ∃ t, exec d.step s [.proceed, .proceed, .proceed, .modbusInit true, .proceed] = some t ∧
      t.bStop = false ∧ t.inits = s.inits + 1 ∧ t.passes = s.passes + 1 := by
  simp [exec, Poller.step, Poller.proceed, here, flag]

theorem clear_flag_run {s : State δ} (here : s.pc = .test) (clear : s.bStop = false) :
    ∃ t, exec d.step s [.proceed, .modbusStart none, .proceed, .proceed, .proceed] = some t ∧
      t.pc = .test ∧ t.bStop = true := by
  simp [exec, Poller.step, Poller.proceed, here, clear]

/-- From every state the flag can come to be clear after a further ModbusInit and in a
further pass. -/
theorem reaches_lost (d : Poller δ) (s : State δ) : Reaches d.step s (GoneOn s) := by
  have set_flag (r : State δ) (here : r.pc = .test) (flag : r.bStop = true)
      (later : s.inits ≤ r.inits ∧ s.passes ≤ r.passes) : Reaches d.step r (GoneOn s) := by
    obtain ⟨t, run, clear, inits, passes⟩ := set_flag_run (d := d) here flag
    exact ⟨_, t, run, clear, by omega, by omega⟩
  apply reaches_trans (reaches_counted (reaches_test d s))
  intro r ⟨here, later⟩
  cases flag : r.bStop with
  | true => exact set_flag r here flag later
  | false =>
    have sets : Reaches d.step r (fun t => t.pc = .test ∧ t.bStop = true) := by
      obtain ⟨u, run, ready⟩ := clear_flag_run (d := d) here flag
      exact ⟨_, u, run, ready⟩
    apply reaches_trans (reaches_counted sets)
    intro u ⟨⟨here, flag⟩, inits, passes⟩
    exact set_flag u here flag ⟨Nat.le_trans later.1 inits, Nat.le_trans later.2 passes⟩

def State.toInit (s : State δ) : Nat :=
  match s.pc with
  | .connect => 1
  | .retry | .clear => 2
  | .reset => 3
  | .test => 4
  | .sleep => 5
  | .report => 6
  | .caught => 7
  | .loop => 7 + (8 - s.i)

theorem toInit_le (s : State δ) : s.toInit ≤ 15 := by
  unfold State.toInit
  cases s.pc <;> simp only <;> omega

def Pending (s : State δ) : Prop :=
  s.bStop = true ∨ s.pc = .clear ∨ s.pc = .connect ∨ s.pc = .retry

theorem pending_step {s t : State δ} {a : Act} (pending : Pending s) (stopping : s.stopping = true)
    (taken : d.step s a = some t) :
    s.inits < t.inits ∨ (Pending t ∧ t.stopping = true ∧ t.toInit < s.toInit) := by
  cases step_moves taken with
  | connected | failed => exact .inl (Nat.lt_succ_self _)
  | retried here => exact .inr ⟨.inr (.inr (.inl rfl)), stopping, by simp [State.toInit, here]⟩
  | entered here running => simp [Pending, here, running] at pending
  | left here flag => exact .inr ⟨.inl flag, stopping, by simp [State.toInit, here]⟩
  | read here more | thrown here more | finished here done =>
    have flag : s.bStop = true := by simpa [Pending, here] using pending
    refine .inr ⟨.inl flag, stopping, ?_⟩
    simp only [State.toInit, here]
    omega
  | caught here => exact .inr ⟨.inl rfl, stopping, by simp [State.toInit, here]⟩
  | quiet here | delivered here | dropped here | slept here =>
    have flag : s.bStop = true := by simpa [Pending, here] using pending
    exact .inr ⟨.inl flag, stopping, by simp [State.toInit, here]⟩
  | reset here => exact .inr ⟨.inr (.inl rfl), stopping, by simp [State.toInit, here]⟩
  | cleared here => exact .inr ⟨.inr (.inr (.inl rfl)), stopping, by simp [State.toInit, here]⟩
  | stopped first => cases first.symm.trans stopping

theorem pending_run {s t : State δ} {as : List Act} (pending : Pending s)
    (stopping : s.stopping = true) (run : exec d.step s as = some t) (long : s.toInit ≤ as.length) :
    s.inits < t.inits := by
  induction as generalizing s with
  | nil =>
    have positive : 0 < s.toInit := by
      unfold State.toInit
      cases s.pc <;> simp only <;> omega
    simp only [List.length_nil] at long
    omega
  | cons a rest ih =>
    obtain ⟨r, taken, run⟩ := exec_cons_some.mp run
    rcases pending_step pending stopping taken with now | ⟨pending, still, closer⟩
    · exact Nat.lt_of_lt_of_le now (counts_run run).1
    · have later := ih pending still run (by simp only [List.length_cons] at long; omega)
      exact Nat.lt_of_le_of_lt (counts_step taken).1 later

/-- No stop request is ever honoured. Some continuation clears the flag and polls on, and
every continuation starts a further ModbusInit within 15 steps of the worker. -/
theorem stop_never_honoured (d : Poller δ) (s t : State δ) (stored : d.step s .stop = some t) :
    ¬ Honoured d t ∧
      (∃ as u, exec d.step t as = some u ∧ u.bStop = false ∧ t.inits < u.inits ∧ t.passes < u.passes) ∧
      ∀ as u, exec d.step t as = some u → 15 ≤ as.length → t.inits < u.inits := by
  have lost := reaches_lost d t
  refine ⟨?_, lost, ?_⟩
  · intro honoured
    obtain ⟨as, u, run, clear, -⟩ := lost
    have kept := (honoured as u run).1
    cases kept.symm.trans clear
  · intro as u run long
    have fits : t.toInit ≤ as.length := Nat.le_trans (toInit_le t) long
    cases step_moves stored with
    | stopped first => exact pending_run (.inl rfl) rfl run fits

def stoppedOnce : List Act := [.modbusInit true, .stop]
def wentOn : List Act := [.proceed, .proceed, .proceed, .modbusInit true, .proceed]

/-- After Stop the worker clears the flag, connects again and starts a pass. -/
theorem stop_lost :
    ∃ t, exec mitsubishi.step State.start stoppedOnce = some t ∧ ¬ Honoured mitsubishi t := by
  refine ⟨_, rfl, fun honoured => ?_⟩
  have kept := (honoured wentOn _ rfl).1
  cases kept

theorem stop_at_start :
    ¬ Honoured mitsubishi { (State.start : State Data) with bStop := true, stopping := true } ∧
      (∃ as u, exec mitsubishi.step
          { (State.start : State Data) with bStop := true, stopping := true } as = some u ∧
        u.bStop = false ∧ 0 < u.inits ∧ 0 < u.passes) ∧
      ∀ as u, exec mitsubishi.step
          { (State.start : State Data) with bStop := true, stopping := true } as = some u →
        15 ≤ as.length → 0 < u.inits :=
  stop_never_honoured mitsubishi State.start _ rfl

end DevAccess.Poll
