import DevAccess.Poll.Driver

/-! What reaches the registered callback, in any run of the worker and of Stop: which
events mix passes, and when the last event is out of date. -/
namespace DevAccess.Poll
open Foundation

variable {δ : Type} {d : Poller δ}

theorem take_set (l : Vector UInt16 8) (v : UInt16) {i : Nat} (h : i < 8) :
    (l.set i v).toList.take (i + 1) = l.toList.take i ++ [v] := by
  have inside : i < (l.toList.set i v).length := by simpa using h
  have before : (l.toList.set i v).take i = l.toList.take i := by
    rw [List.take_set, List.set_eq_of_length_le (List.length_take_le i _)]
  rw [Vector.toList_set, List.take_succ_eq_append_getElem inside, before, List.getElem_set_self]

theorem set_same {l : Vector UInt16 8} {v : UInt16} {i : Nat} (h : i < 8) (value : l[i] = v) :
    l.set i v = l := by
  rw [← value]
  exact Vector.set_getElem_self ..

/-- The values read so far in the pass stand in the first i cells of OldValue. -/
structure InPass (s : State δ) : Prop where
  bound : s.i ≤ 8
  seen : s.pc = .loop ∨ s.pc = .caught ∨ s.pc = .report ∨ s.pc = .sleep →
    s.seen = s.oldValue.toList.take s.i

theorem inPass_start : InPass (State.start : State δ) := ⟨Nat.zero_le 8, fun h => by simp [State.start] at h⟩

theorem inPass_step (s : State δ) (a : Act) (t : State δ) (h : InPass s) (taken : d.step s a = some t) :
    InPass t := by
  have bound := h.bound
  cases step_moves taken with
  | read here more v =>
    refine ⟨more, fun _ => ?_⟩
    dsimp only
    rw [take_set _ v more, h.seen (.inl here)]
  | entered here => exact ⟨Nat.zero_le 8, fun _ => rfl⟩
  | thrown here => exact ⟨bound, fun _ => h.seen (.inl here)⟩
  | finished here => exact ⟨bound, fun _ => h.seen (.inl here)⟩
  | caught here => exact ⟨bound, fun _ => h.seen (.inr (.inl here))⟩
  | quiet here => exact ⟨bound, fun _ => h.seen (.inr (.inr (.inl here)))⟩
  | delivered here => exact ⟨bound, fun _ => h.seen (.inr (.inr (.inl here)))⟩
  | dropped here => exact ⟨bound, fun _ => h.seen (.inr (.inr (.inl here)))⟩
  | stopped => exact ⟨bound, h.seen⟩
  | connected | failed | retried | left | slept | reset | cleared => exact ⟨bound, by simp⟩

theorem InPass.length {s : State δ} (h : InPass s)
    (here : s.pc = .loop ∨ s.pc = .caught ∨ s.pc = .report ∨ s.pc = .sleep) : s.seen.length = s.i := by
  rw [h.seen here, List.length_take, Vector.length_toList]
  exact Nat.min_eq_left h.bound

theorem InPass.whole {s : State δ} (h : InPass s)
    (here : s.pc = .loop ∨ s.pc = .caught ∨ s.pc = .report ∨ s.pc = .sleep) :
    s.oldValue.toList = s.seen ↔ s.i = 8 := by
  have length := h.length here
  constructor
  · intro same
    rw [← length, ← same]
    exact s.oldValue.length_toList
  · intro done
    rw [h.seen here, done]
    exact (List.take_of_length_le (Nat.le_of_eq s.oldValue.length_toList)).symm

/-- Every event so far carries the values that the pass delivering it has read. -/
def Clean (s : State Data) : Prop := ∀ e ∈ s.events, e.data.registers = e.pass

def WholeReport (s : State Data) (a : Act) : Prop :=
  a = .proceed → s.pc = .report → s.update = true → s.i = 8

theorem clean_step (s : State Data) (a : Act) (t : State Data) (h : InPass s) (clean : Clean s)
    (taken : mitsubishi.step s a = some t) : Clean t ↔ WholeReport s a := by
  cases step_moves taken with
  | delivered here changed =>
    have whole := h.whole (.inr (.inr (.inl here)))
    constructor
    · intro after _ _ _
      have event := after _ List.mem_cons_self
      exact whole.mp ((make_registers s.oldValue).symm.trans event)
    · intro guard e he
      rcases List.mem_cons.mp he with rfl | old
      · exact (make_registers s.oldValue).trans (whole.mpr (guard rfl here changed))
      · exact clean e old
  | dropped _ _ unset => cases unset
  | quiet here same =>
    exact ⟨fun _ _ _ changed => absurd changed (by simp [same]), fun _ => clean⟩
  | connected | failed | read | thrown | stopped =>
    exact ⟨fun _ other => Act.noConfusion other, fun _ => clean⟩
  | retried here | entered here | left here | finished here | caught here | slept here
    | reset here | cleared here =>
    exact ⟨fun _ _ report => absurd report (by simp [here]), fun _ => clean⟩

/-- No read fails after one of the same pass that has found a change. -/
def Uncut (s : State δ) (a : Act) : Prop := a = .modbusStart none → s.update = false

/-- A read has failed behind a change of its pass, and the report is to come. -/
structure CutShort (s : State δ) : Prop where
  here : s.pc = .caught ∨ s.pc = .report
  changed : s.update = true
  early : s.i < 8

theorem cutShort_enters (s : State δ) (a : Act) (t : State δ) (_ : InPass s) (clear : ¬ CutShort s)
    (taken : d.step s a = some t) : CutShort t ↔ ¬ Uncut s a := by
  have same (other : a ≠ .modbusStart none) (not_there : ¬ CutShort t) : CutShort t ↔ ¬ Uncut s a :=
    iff_of_false not_there (not_not_intro fun thrown => absurd thrown other)
  cases step_moves taken with
  | thrown here more =>
    constructor
    · exact fun cut uncut => absurd cut.changed (by simp [uncut rfl])
    · intro against
      refine ⟨.inl rfl, ?_, more⟩
      exact Bool.of_not_eq_false fun unchanged => against fun _ => unchanged
  | finished here done => exact same (by simp) fun cut => Nat.not_lt.mpr done cut.early
  | caught here => exact same (by simp) fun cut => clear ⟨.inl here, cut.changed, cut.early⟩
  | read here => exact same (by simp) fun cut => by simpa [here] using cut.here
  | stopped => exact same (by simp) fun cut => clear ⟨cut.here, cut.changed, cut.early⟩
  | connected | failed | retried | entered | left | quiet | delivered | dropped | slept | reset
    | cleared => exact same (by simp) fun cut => by simpa using cut.here

theorem whole_unless_cut {s : State δ} (pass : InPass s) (clear : ¬ CutShort s)
    (here : s.pc = .report) (changed : s.update = true) : s.i = 8 := by
  refine Nat.le_antisymm pass.bound (Nat.not_lt.mp fun early => ?_)
  exact clear ⟨.inr here, changed, early⟩

theorem CutShort.stays {s t : State δ} {a : Act} (cut : CutShort s) (registered : d.registered = true)
    (whole : a = .proceed → s.pc = .report → s.update = true → s.i = 8)
    (moves : Moves d s a t) : CutShort t := by
  cases moves with
  | caught => exact ⟨.inr rfl, cut.changed, cut.early⟩
  | stopped => exact ⟨cut.here, cut.changed, cut.early⟩
  | delivered here changed => exact absurd (whole rfl here changed) (Nat.ne_of_lt cut.early)
  | quiet here same => exact absurd cut.changed (by simp [same])
  | dropped _ _ unset => cases unset.symm.trans registered
  | connected here | failed here | retried here | entered here | left here | read here | thrown here
    | finished here | slept here | reset here | cleared here => simpa [here] using cut.here

/-- No event ever mixes passes exactly if no pass that a failed read cuts short has found a
changed value before: in a run that leaves no report open, if no read fails behind a change. -/
theorem events_clean_iff (as : List Act) :
    (Always mitsubishi.step Clean State.start as ↔
      Guarded mitsubishi.step WholeReport State.start as) ∧
    (Guarded mitsubishi.step Uncut State.start as → Always mitsubishi.step Clean State.start as) ∧
    ∀ r, exec mitsubishi.step State.start as = some r → r.update = false →
      (Always mitsubishi.step Clean State.start as ↔
        Guarded mitsubishi.step Uncut State.start as) := by
  have reports : Always mitsubishi.step Clean State.start as ↔
      Guarded mitsubishi.step WholeReport State.start as :=
    always_iff_guarded (fun s a t h _ taken _ => inPass_step s a t h taken) clean_step inPass_start
      (fun _ he => absurd he List.not_mem_nil) as
  have start : ¬ CutShort (State.start : State Data) := fun cut => by cases cut.changed
  have closed (s : State Data) (a : Act) (t : State Data) (pass : InPass s) (clear : ¬ CutShort s)
      (_ : mitsubishi.step s a = some t) : WholeReport s a := fun _ => whole_unless_cut pass clear
  refine ⟨reports, fun uncut => reports.mpr ?_, fun r run quiet => reports.trans ?_⟩
  · exact guarded_of_earlier inPass_step cutShort_enters closed inPass_start start uncut
  · exact guarded_iff_earlier inPass_step cutShort_enters closed
      (fun s a t _ cut whole taken => cut.stays rfl whole (step_moves taken)) inPass_start start run
      fun cut => absurd cut.changed (by simp [quiet])

def cutShort : List Act :=
  [.modbusInit true, .proceed, .modbusStart (some 5), .modbusStart none, .proceed, .proceed]

/-- The event says 5 for the first register and the values from before for the rest. -/
theorem cut_short_event : ¬ Always mitsubishi.step Clean State.start cutShort := by
  intro always
  obtain ⟨t, run, events⟩ : ∃ t, exec mitsubishi.step State.start cutShort = some t ∧
      t.events = [⟨Data.make #v[5, 0, 0, 0, 0, 0, 0, 0], [5]⟩] := ⟨_, rfl, rfl⟩
  have event := always_end always run ⟨Data.make #v[5, 0, 0, 0, 0, 0, 0, 0], [5]⟩ (by simp [events])
  exact absurd event (by decide)

def State.lastReported (s : State Data) : List UInt16 :=
  match s.events with
  | [] => zeros.toList
  | e :: _ => e.data.registers

/-- After a pass with eight good reads the last event shows the values of that pass. -/
def UpToDate (s : State Data) : Prop :=
  s.pc = .sleep → s.seen.length = 8 → s.lastReported = s.seen

/-- Without a change on record, OldValue is what was reported last, or was cleared. -/
def Tracks (s : State Data) : Prop :=
  s.update = false → s.lastReported = s.oldValue.toList ∨ s.oldValue = zeros

theorem tracks_step (s : State Data) (a : Act) (t : State Data) (h : Tracks s)
    (taken : mitsubishi.step s a = some t) : Tracks t := by
  cases step_moves taken with
  | read here more v =>
    intro same
    obtain ⟨before, value⟩ : s.update = false ∧ s.oldValue[s.i] = v := by
      simpa using same
    dsimp only
    rw [set_same more value]
    exact h before
  | delivered here changed => exact fun _ => .inl (make_registers s.oldValue)
  | dropped _ _ unset => cases unset
  | cleared => exact fun _ => .inr rfl
  | connected | failed | retried | entered | left | thrown | finished | caught | quiet | slept
    | reset | stopped => exact h

/-- A whole pass that ends without a change while OldValue is all zero only follows a
last event that was all zero. -/
def NoHiddenZeros (s : State Data) (a : Act) : Prop :=
  a = .proceed → s.pc = .report → s.i = 8 → s.update = false → s.oldValue = zeros →
    s.lastReported = zeros.toList

theorem upToDate_step (s : State Data) (a : Act) (t : State Data) (h : InPass s ∧ Tracks s)
    (good : UpToDate s) (taken : mitsubishi.step s a = some t) : UpToDate t ↔ NoHiddenZeros s a := by
  obtain ⟨pass, tracks⟩ := h
  cases step_moves taken with
  | quiet here same =>
    have at_report : s.pc = .loop ∨ s.pc = .caught ∨ s.pc = .report ∨ s.pc = .sleep :=
      .inr (.inr (.inl here))
    have length := pass.length at_report
    have whole := pass.whole at_report
    constructor
    · intro after _ _ done _ cleared
      have last : s.lastReported = s.seen := after rfl (length.trans done)
      rw [last, ← whole.mpr done, cleared]
    · intro guard _ eight
      have done : s.i = 8 := length.symm.trans eight
      have last : s.lastReported = s.oldValue.toList := by
        rcases tracks same with last | cleared
        · exact last
        · rw [cleared]
          exact guard rfl here done same cleared
      exact last.trans (whole.mpr done)
  | delivered here changed =>
    have at_report : s.pc = .loop ∨ s.pc = .caught ∨ s.pc = .report ∨ s.pc = .sleep :=
      .inr (.inr (.inl here))
    constructor
    · intro _ _ _ _ same
      exact absurd changed (by simp [same])
    · intro _ _ eight
      have done : s.i = 8 := (pass.length at_report).symm.trans eight
      exact (make_registers s.oldValue).trans ((pass.whole at_report).mpr done)
  | dropped _ _ unset => cases unset
  | stopped => exact ⟨fun _ other => Act.noConfusion other, fun _ => good⟩
  | connected | failed | thrown => exact ⟨fun _ other => Act.noConfusion other,
    fun _ at_sleep => by simp at at_sleep⟩
  | read here =>
    refine ⟨fun _ other => Act.noConfusion other, fun _ at_sleep => ?_⟩
    simp [here] at at_sleep
  | retried here | entered here | left here | finished here | caught here | slept here
    | reset here | cleared here =>
    exact ⟨fun _ _ report => absurd report (by simp [here]), fun _ at_sleep => by simp at at_sleep⟩

/-- No pass reads its eighth zero against an OldValue of zeros, which a reconnection has cleared
since an event that was not all zero. -/
def Unhidden (s : State Data) (a : Act) : Prop :=
  a = .modbusStart (some 0) → s.pc = .loop → s.i = 7 → s.update = false → s.oldValue = zeros →
    s.lastReported = zeros.toList

/-- Such a pass is over, and is not going to be reported. -/
structure HiddenZeros (s : State Data) : Prop where
  here : s.pc = .loop ∨ s.pc = .report
  whole : s.i = 8
  unchanged : s.update = false
  zero : s.oldValue = zeros
  other : s.lastReported ≠ zeros.toList

structure Reading (s : State Data) : Prop where
  pass : InPass s
  early : s.pc = .caught → s.i < 8

theorem reading_step (s : State Data) (a : Act) (t : State Data) (reading : Reading s)
    (taken : mitsubishi.step s a = some t) : Reading t := by
  refine ⟨inPass_step s a t reading.pass taken, ?_⟩
  cases step_moves taken with
  | thrown _ more => exact fun _ => more
  | stopped => exact reading.early
  | read here => exact fun caught => by simp [here] at caught
  | connected | failed | retried | entered | left | finished | caught | quiet | delivered | dropped
    | slept | reset | cleared => exact fun caught => by simp at caught

theorem hidden_enters (s : State Data) (a : Act) (t : State Data) (reading : Reading s)
    (clear : ¬ HiddenZeros s) (taken : mitsubishi.step s a = some t) :
    HiddenZeros t ↔ ¬ Unhidden s a := by
  have same (other : a ≠ .modbusStart (some 0)) (not_there : ¬ HiddenZeros t) :
      HiddenZeros t ↔ ¬ Unhidden s a :=
    iff_of_false not_there (not_not_intro fun zero => absurd zero other)
  cases step_moves taken with
  | read here more v =>
    constructor
    · intro hidden unhidden
      obtain ⟨unchanged, value⟩ : s.update = false ∧ s.oldValue[s.i] = v := by
        simpa using hidden.unchanged
      have zero : s.oldValue = zeros := (set_same more value).symm.trans hidden.zero
      have last : s.i = 7 := Nat.succ.inj hidden.whole
      have none : v = 0 := by
        rw [← value]
        simp [zero, zeros]
      rw [none] at unhidden
      exact hidden.other (unhidden rfl here last unchanged zero)
    · intro against
      simp only [Unhidden, Act.modbusStart.injEq, Option.some.injEq, Classical.not_imp] at against
      obtain ⟨rfl, -, last, unchanged, zero, other⟩ := against
      refine ⟨.inl here, congrArg (· + 1) last, ?_, ?_, other⟩
      · simp [unchanged, zero, zeros]
      · rw [zero]
        exact Vector.ext fun j inside => by simp [zeros]
  | finished here =>
    exact same (by simp) fun hidden =>
      clear ⟨.inl here, hidden.whole, hidden.unchanged, hidden.zero, hidden.other⟩
  | caught here =>
    exact same (by simp) fun hidden => Nat.ne_of_lt (reading.early here) hidden.whole
  | stopped =>
    exact same (by simp) fun hidden =>
      clear ⟨hidden.here, hidden.whole, hidden.unchanged, hidden.zero, hidden.other⟩
  | entered => exact same (by simp) fun hidden => by cases hidden.whole
  | connected | failed | retried | left | thrown | quiet | delivered | dropped | slept | reset
    | cleared => exact same (by simp) fun hidden => by simpa using hidden.here

theorem shown_unless_hidden (s : State Data) (a : Act) (t : State Data) (_ : Reading s)
    (clear : ¬ HiddenZeros s) (_ : mitsubishi.step s a = some t) : NoHiddenZeros s a := by
  intro _ here whole unchanged zero
  exact Classical.byContradiction fun other => clear ⟨.inr here, whole, unchanged, zero, other⟩

theorem hidden_stays (s : State Data) (a : Act) (t : State Data) (_ : Reading s)
    (hidden : HiddenZeros s) (shown : NoHiddenZeros s a)
    (taken : mitsubishi.step s a = some t) : HiddenZeros t := by
  obtain ⟨there, whole, unchanged, zero, other⟩ := hidden
  cases step_moves taken with
  | finished => exact ⟨.inr rfl, whole, unchanged, zero, other⟩
  | stopped => exact ⟨there, whole, unchanged, zero, other⟩
  | quiet here => exact absurd (shown rfl here whole unchanged zero) other
  | delivered _ changed => exact absurd changed (by simp [unchanged])
  | dropped _ _ unset => cases unset
  | read _ more | thrown _ more => exact absurd more (by simp [whole])
  | connected here | failed here | retried here | entered here | left here | caught here
    | slept here | reset here | cleared here => simp [here] at there

/-- The last event never goes stale exactly if no whole pass reads eight zeros, against an
OldValue cleared by a reconnection, after an event that was not all zero: in a run that does not
end in a pass, if no eighth zero is read so. -/
theorem last_event_current_iff (as : List Act) :
    (Always mitsubishi.step UpToDate State.start as ↔
      Guarded mitsubishi.step NoHiddenZeros State.start as) ∧
    (Guarded mitsubishi.step Unhidden State.start as →
      Always mitsubishi.step UpToDate State.start as) ∧
    ∀ r, exec mitsubishi.step State.start as = some r → r.pc ≠ .loop → r.pc ≠ .report →
      (Always mitsubishi.step UpToDate State.start as ↔
        Guarded mitsubishi.step Unhidden State.start as) := by
  have shown : Always mitsubishi.step UpToDate State.start as ↔
      Guarded mitsubishi.step NoHiddenZeros State.start as :=
    always_iff_guarded
      (fun s a t h _ taken _ => ⟨inPass_step s a t h.1 taken, tracks_step s a t h.2 taken⟩)
      upToDate_step ⟨inPass_start, fun _ => .inr rfl⟩
      (fun at_sleep => by simp [State.start] at at_sleep) as
  have reading : Reading State.start := ⟨inPass_start, fun caught => by cases caught⟩
  have start : ¬ HiddenZeros State.start := fun hidden => by cases hidden.whole
  refine ⟨shown, fun unhidden => shown.mpr ?_, fun r run outside elsewhere => shown.trans ?_⟩
  · exact guarded_of_earlier reading_step hidden_enters shown_unless_hidden reading start unhidden
  · exact guarded_iff_earlier reading_step hidden_enters shown_unless_hidden hidden_stays reading
      start run fun hidden => hidden.here.elim outside elsewhere

def wholePass (vs : List UInt16) : List Act :=
  .proceed :: vs.map (fun v => .modbusStart (some v)) ++ [.proceed, .proceed]

def afterReconnect : List Act :=
  .modbusInit true :: wholePass [5, 0, 0, 0, 0, 0, 0, 0] ++
    [.proceed, .proceed, .modbusStart none, .proceed, .proceed, .proceed, .proceed, .proceed, .proceed] ++
    .modbusInit true :: wholePass [0, 0, 0, 0, 0, 0, 0, 0]

/-- The last event still says 5 when all eight registers have been read as zero. -/
theorem zeros_not_reported : ¬ Always mitsubishi.step UpToDate State.start afterReconnect := by
  intro always
  obtain ⟨t, run, here, seen, last⟩ : ∃ t, exec mitsubishi.step State.start afterReconnect = some t ∧
      t.pc = .sleep ∧ t.seen = [0, 0, 0, 0, 0, 0, 0, 0] ∧ t.lastReported = [5, 0, 0, 0, 0, 0, 0, 0] :=
    ⟨_, rfl, rfl, rfl, rfl⟩
  have current := always_end always run here (by simp [seen])
  rw [seen, last] at current
  exact absurd current (by decide)

end DevAccess.Poll
