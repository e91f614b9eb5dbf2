import Mathlib.Data.List.Forall2
import DevAccess.Poll.Reports

/-! The events of one connection as a function of its passes. A pass is the vector of the
eight values it has read, in the order of intSet. -/
namespace DevAccess.Poll
open Foundation

def changes (old : Vector UInt16 8) : List (Vector UInt16 8) → List (Vector UInt16 8)
  | [] => []
  | v :: rest => (if v = old then [] else [v]) ++ changes v rest

def valueOf (v : Vector UInt16 8) (register : Int) : UInt16 :=
  ((intSet.toList.zip v.toList).lookup register).getD 0

/-- Every field of the event is the value of its register. -/
structure Carries (d : Data) (v : Vector UInt16 8) : Prop where
  stationStatus1 : d.stationStatus1 = valueOf v 2020
  stationOkAmount1 : d.stationOkAmount1 = valueOf v 3000
  stationTotalAmount1 : d.stationTotalAmount1 = valueOf v 3004
  stationNgAmount1 : d.stationNgAmount1 = valueOf v 3002
  stationStatus2 : d.stationStatus2 = valueOf v 2022
  stationOkAmount2 : d.stationOkAmount2 = valueOf v 3100
  stationTotalAmount2 : d.stationTotalAmount2 = valueOf v 3104
  stationNgAmount2 : d.stationNgAmount2 = valueOf v 3102

theorem make_carries (v : Vector UInt16 8) : Carries (Data.make v) v := by
  obtain ⟨⟨l⟩, size⟩ := v
  match l, size with
  | [_, _, _, _, _, _, _, _], _ => constructor <;> rfl

def readings : List Act → List UInt16
  | [] => []
  | .modbusStart (some v) :: rest => v :: readings rest
  | _ :: rest => readings rest

def Unbroken : Act → Prop
  | .modbusInit _ => False
  | .modbusStart v => v.isSome
  | .proceed => True
  | .stop => True

abbrev lastPass (passes : List (Vector UInt16 8)) : Vector UInt16 8 := passes.getLastD zeros

theorem changes_concat (old : Vector UInt16 8) (passes : List (Vector UInt16 8)) (v : Vector UInt16 8) :
    changes old (passes ++ [v]) =
      changes old passes ++ if v = passes.getLastD old then [] else [v] := by
  induction passes generalizing old with
  | nil => simp [changes]
  | cons first rest ih =>
    simp only [List.cons_append, changes, ih, List.getLastD_cons, List.append_assoc]

structure Idle (s : State Data) : Prop where
  cleared : s.pc = .connect ∨ s.pc = .retry → s.oldValue = zeros
  still : s.update = true → s.pc = .loop ∨ s.pc = .caught ∨ s.pc = .report

theorem idle_step (s : State Data) (a : Act) (t : State Data) (h : Idle s)
    (taken : mitsubishi.step s a = some t) : Idle t := by
  have still := h.still
  cases step_moves taken with
  | connected here | failed here =>
    exact ⟨fun _ => h.cleared (.inl here), fun changed => absurd (still changed) (by simp [here])⟩
  | retried here =>
    exact ⟨fun _ => h.cleared (.inr here), fun changed => absurd (still changed) (by simp [here])⟩
  | cleared here => exact ⟨fun _ => rfl, fun changed => absurd (still changed) (by simp [here])⟩
  | entered here | left here | slept here | reset here =>
    exact ⟨fun before => by simp at before, fun changed => absurd (still changed) (by simp [here])⟩
  | read here => exact ⟨fun before => by simp [here] at before, fun _ => .inl here⟩
  | thrown => exact ⟨fun before => by simp at before, fun _ => .inr (.inl rfl)⟩
  | finished | caught => exact ⟨fun before => by simp at before, fun _ => .inr (.inr rfl)⟩
  | quiet here same => exact ⟨fun before => by simp at before, fun changed => by simp [same] at changed⟩
  | delivered | dropped => exact ⟨fun before => by simp at before, fun changed => by simp at changed⟩
  | stopped => exact ⟨h.cleared, h.still⟩

def State.current (s : State Data) : List UInt16 :=
  if s.pc = .loop ∨ s.pc = .report then s.seen else []

/-- The state of a connection after some whole passes: the events are those of the passes,
and the update flag compares OldValue, as far as this pass has come, with the last one. -/
structure After (before : List (Event Data)) (passes : List (Vector UInt16 8)) (s : State Data) : Prop where
  events : s.events = ((changes zeros passes).map fun v => ⟨Data.make v, v.toList⟩).reverse ++ before
  between : s.pc = .test ∨ s.pc = .sleep → s.oldValue = lastPass passes ∧ s.update = false
  rest : s.pc = .loop ∨ s.pc = .report →
    ∀ j (h : j < 8), s.i ≤ j → s.oldValue[j] = (lastPass passes)[j]
  flag : s.pc = .loop ∨ s.pc = .report → (s.update = true ↔ s.oldValue ≠ lastPass passes)
  whole : s.pc = .report → s.i = 8
  tried : s.pc ≠ .retry ∧ s.pc ≠ .caught

theorem after_connected {s : State Data} (idle : Idle s) (here : s.pc = .connect) :
    After s.events [] { s with pc := .test, inits := s.inits + 1 } where
  events := rfl
  between := fun _ => by
    refine ⟨idle.cleared (.inl here), Bool.eq_false_iff.mpr fun changed => ?_⟩
    exact absurd (idle.still changed) (by simp [here])
  rest := by simp
  flag := by simp
  whole := by simp
  tried := by simp

theorem set_eq_iff {old v : Vector UInt16 8} {i : Nat} (h : i < 8) (x : UInt16) (same : old[i] = v[i]) :
    old.set i x = v ↔ old = v ∧ x = v[i] := by
  constructor
  · intro equal
    have cell : x = v[i] := by rw [← equal, Vector.getElem_set_self]
    refine ⟨?_, cell⟩
    rw [← equal, cell, ← same, Vector.set_getElem_self]
  · rintro ⟨rfl, rfl⟩
    exact Vector.set_getElem_self ..

theorem flag_read {s : State Data} {last : Vector UInt16 8} (more : s.i < 8) (v : UInt16)
    (same : s.oldValue[s.i] = last[s.i]) (flag : s.update = true ↔ s.oldValue ≠ last) :
    (s.update || s.oldValue[s.i] != v) = true ↔ s.oldValue.set s.i v ≠ last := by
  have equal := set_eq_iff more v same
  rw [Bool.or_eq_true, flag, bne_iff_ne, same]
  constructor
  · rintro (other | other) whole
    · exact other (equal.mp whole).1
    · exact other (equal.mp whole).2.symm
  · intro new
    by_cases whole : s.oldValue = last
    · exact .inr fun cell => new (equal.mpr ⟨whole, cell.symm⟩)
    · exact .inl whole

section Step
variable {before : List (Event Data)} {passes : List (Vector UInt16 8)} {s t : State Data}

theorem After.outside (h : After before passes s) (events : t.events = s.events)
    (gone : t.pc = .reset ∨ t.pc = .clear ∨ t.pc = .connect) : After before passes t := by
  have off : ¬ (t.pc = .test ∨ t.pc = .sleep) ∧ ¬ (t.pc = .loop ∨ t.pc = .report) ∧
      t.pc ≠ .retry ∧ t.pc ≠ .caught := by
    rcases gone with here | here | here <;> simp [here]
  obtain ⟨between, inside, retry, caught⟩ := off
  exact ⟨events.trans h.events, fun here => absurd here between, fun here => absurd here inside,
    fun here => absurd here inside, fun here => absurd (.inr here) inside, retry, caught⟩

theorem After.reported (h : After before passes s)
    (events : t.events =
      (if s.oldValue = lastPass passes then [] else [⟨Data.make s.oldValue, s.oldValue.toList⟩]) ++ s.events)
    (there : t.pc = .sleep) (old : t.oldValue = s.oldValue) (still : t.update = false) :
    After before (passes ++ [s.oldValue]) t where
  events := by
    rw [events, changes_concat, h.events, List.map_append, List.reverse_append]
    split
    · rfl
    · rfl
  between := fun _ => ⟨old.trans (List.getLastD_concat ..).symm, still⟩
  rest := by simp [there]
  flag := by simp [there]
  whole := by simp [there]
  tried := by simp [there]

theorem After.same_passes {a : Act} (h : After before passes t)
    (current : t.current = s.current ++ readings [a]) :
    ∃ more, After before (passes ++ more) t ∧
      more.flatMap Vector.toList ++ t.current = s.current ++ readings [a] :=
  ⟨[], by rwa [List.append_nil], current⟩

/-- A step within a connection: what it reads is added to the pass under way, and a report
adds the pass to those before it. -/
theorem after_step {a : Act} (pass : InPass s) (h : After before passes s) (unbroken : Unbroken a)
    (taken : mitsubishi.step s a = some t) :
    ∃ more, After before (passes ++ more) t ∧
      more.flatMap Vector.toList ++ t.current = s.current ++ readings [a] := by
  cases step_moves taken with
  | connected | failed => exact unbroken.elim
  | thrown => cases unbroken
  | retried here => exact absurd here h.tried.1
  | caught here => exact absurd here h.tried.2
  | dropped _ _ unset => cases unset
  | entered here =>
    obtain ⟨last, still⟩ := h.between (.inl here)
    apply After.same_passes
    · refine ⟨h.events, by simp, ?_, ?_, by simp, by simp⟩
      · exact fun _ j bound _ => by simp [last]
      · exact fun _ => by simp [last, still]
    · simp [State.current, here, readings]
  | left here =>
    apply After.same_passes
    · exact h.outside rfl (.inl rfl)
    · simp [State.current, here, readings]
  | reset here =>
    apply After.same_passes
    · exact h.outside rfl (.inr (.inl rfl))
    · simp [State.current, here, readings]
  | cleared here =>
    apply After.same_passes
    · exact h.outside rfl (.inr (.inr rfl))
    · simp [State.current, here, readings]
  | slept here =>
    apply After.same_passes
    · exact ⟨h.events, fun _ => h.between (.inr here), by simp, by simp, by simp, by simp⟩
    · simp [State.current, here, readings]
  | finished here done =>
    have full : s.i = 8 := Nat.le_antisymm pass.bound done
    apply After.same_passes
    · exact ⟨h.events, by simp, fun _ => h.rest (.inl here), fun _ => h.flag (.inl here), fun _ => full,
        by simp⟩
    · simp [State.current, here, readings]
  | read here more v =>
    apply After.same_passes
    · refine ⟨h.events, by simp [here], fun _ j bound beyond => ?_, fun _ => ?_, by simp [here],
        by simp [here]⟩
      · have other : s.i ≠ j := Nat.ne_of_lt beyond
        simpa [Vector.getElem_set_ne _ bound other] using h.rest (.inl here) j bound
          (Nat.le_of_succ_le beyond)
      · exact flag_read more v (h.rest (.inl here) s.i more (Nat.le_refl _)) (h.flag (.inl here))
    · simp [State.current, here, readings]
  | quiet here same =>
    have last : s.oldValue = lastPass passes :=
      Decidable.byContradiction fun other => absurd ((h.flag (.inr here)).mpr other) (by simp [same])
    have seen := (pass.whole (.inr (.inr (.inl here)))).mpr (h.whole here)
    refine ⟨[s.oldValue], h.reported ?_ rfl rfl same, by simp [State.current, here, readings, seen]⟩
    rw [if_pos last, List.nil_append]
  | delivered here changed =>
    have new : s.oldValue ≠ lastPass passes := (h.flag (.inr here)).mp changed
    have seen := (pass.whole (.inr (.inr (.inl here)))).mpr (h.whole here)
    refine ⟨[s.oldValue], h.reported ?_ rfl rfl rfl, by simp [State.current, here, readings, seen]⟩
    rw [if_neg new, ← seen]
    rfl
  | stopped =>
    apply After.same_passes
    · exact ⟨h.events, h.between, h.rest, h.flag, h.whole, h.tried⟩
    · simp [State.current, readings]

end Step

theorem readings_cons (a : Act) (rest : List Act) :
    readings (a :: rest) = readings [a] ++ readings rest := by
  rcases a with _ | (_ | v) | _ | _ <;> rfl

theorem after_run {before : List (Event Data)} {passes : List (Vector UInt16 8)} {s t : State Data}
    {as : List Act} (pass : InPass s) (h : After before passes s) (unbroken : ∀ a ∈ as, Unbroken a)
    (run : exec mitsubishi.step s as = some t) :
    InPass t ∧ ∃ more, After before (passes ++ more) t ∧
      more.flatMap Vector.toList ++ t.current = s.current ++ readings as := by
  induction as generalizing s passes with
  | nil =>
    cases Option.some.inj run
    exact ⟨pass, [], by simpa using h, by simp [readings]⟩
  | cons a rest ih =>
    obtain ⟨r, taken, run⟩ := exec_cons_some.mp run
    obtain ⟨first, here, reads⟩ := after_step pass h (unbroken a List.mem_cons_self) taken
    obtain ⟨ends, later, there, more⟩ :=
      ih (inPass_step s a r pass taken) here (fun b member => unbroken b (List.mem_cons_of_mem a member)) run
    refine ⟨ends, first ++ later, by rwa [← List.append_assoc], ?_⟩
    rw [List.flatMap_append, List.append_assoc, more, ← List.append_assoc, reads, List.append_assoc,
      ← readings_cons]

/-- From one good ModbusInit on, as long as no read fails: the values read are those of
whole passes and of a part of one more, and the events delivered are the passes that
differ from the one before them, the first one from zeros, each with its own values. -/
theorem connection_events {pre as : List Act} {s t : State Data}
    (reached : exec mitsubishi.step State.start pre = some s) (unbroken : ∀ a ∈ as, Unbroken a)
    (run : exec mitsubishi.step s (.modbusInit true :: as) = some t) :
    ∃ passes part delivered, readings as = passes.flatMap Vector.toList ++ part ∧ part.length ≤ 8 ∧
      (t.pc ≠ .loop → t.pc ≠ .report → part = []) ∧ t.events = delivered.reverse ++ s.events ∧
      List.Forall₂ (fun e v => Carries e.data v) delivered (changes zeros passes) := by
  have idle : Idle s :=
    exec_inductive idle_step ⟨fun _ => rfl, fun changed => Bool.noConfusion changed⟩ reached
  have pass : InPass s := exec_inductive inPass_step inPass_start reached
  obtain ⟨r, taken, run⟩ := exec_cons_some.mp run
  have begun := inPass_step s _ r pass taken
  cases step_moves taken with
  | connected here =>
    obtain ⟨ends, passes, after, reads⟩ := after_run begun (after_connected idle here) unbroken run
    refine ⟨passes, t.current, _, ?_, ?_, ?_, after.events, ?_⟩
    · simpa [State.current] using reads.symm
    · unfold State.current
      split
      case isTrue inside =>
        have here : t.pc = .loop ∨ t.pc = .caught ∨ t.pc = .report ∨ t.pc = .sleep :=
          inside.imp_right fun report => .inr (.inl report)
        exact Nat.le_trans (Nat.le_of_eq (ends.length here)) ends.bound
      case isFalse => exact Nat.zero_le 8
    · exact fun outside elsewhere => if_neg fun inside => inside.elim outside elsewhere
    · exact List.forall₂_map_left_iff.mpr (List.forall₂_same.mpr fun v _ => make_carries v)

def samePassTwice : List Act :=
  wholePass [5, 0, 0, 0, 0, 0, 0, 0] ++ .proceed :: wholePass [5, 0, 0, 0, 0, 0, 0, 0]

theorem connection_events_twice : ∃ t,
    exec mitsubishi.step State.start (.modbusInit true :: samePassTwice) = some t ∧
    ∃ passes part delivered, readings samePassTwice = passes.flatMap Vector.toList ++ part ∧
      part.length ≤ 8 ∧ (t.pc ≠ .loop → t.pc ≠ .report → part = []) ∧ t.events = delivered.reverse ++ [] ∧
      List.Forall₂ (fun e v => Carries e.data v) delivered (changes zeros passes) :=
  ⟨_, rfl, connection_events (show exec mitsubishi.step State.start [] = some State.start from rfl)
    (by simp [samePassTwice, wholePass, Unbroken]) rfl⟩

end DevAccess.Poll
