/-! Runs of a partial step function, labelled by the actions taken. A step that
yields none is not enabled. Nothing here bounds the length of a run. -/
namespace Foundation

universe u v w x
variable {S : Type u} {A : Type v} {step : S → A → Option S}

def exec (step : S → A → Option S) : S → List A → Option S
  | s, [] => some s
  | s, a :: rest => (step s a).bind (fun t => exec step t rest)

/-- P holds in every state the run passes, its first and its last included. -/
def Always (step : S → A → Option S) (P : S → Prop) : S → List A → Prop
  | s, [] => P s
  | s, a :: rest => P s ∧ ∀ t, step s a = some t → Always step P t rest

/-- Every step the run takes is taken from a state and by an action that G allows. -/
def Guarded (step : S → A → Option S) (G : S → A → Prop) : S → List A → Prop
  | _, [] => True
  | s, a :: rest => ∀ t, step s a = some t → G s a ∧ Guarded step G t rest

instance decidableGuarded {G : S → A → Prop} [∀ s a, Decidable (G s a)] :
    (s : S) → (as : List A) → Decidable (Guarded step G s as)
  | _, [] => isTrue trivial
  | s, a :: rest =>
    match taken : step s a with
    | none => isTrue fun t other => by simp [taken] at other
    | some t =>
      have := decidableGuarded (G := G) t rest
      decidable_of_iff (G s a ∧ Guarded step G t rest)
        ⟨fun both r other => by rw [← Option.some.inj (taken.symm.trans other)]; exact both,
          fun all => all t taken⟩

@[simp] theorem exec_nil (s : S) : exec step s [] = some s := rfl

theorem exec_cons_some {s t : S} {a : A} {rest : List A} :
    exec step s (a :: rest) = some t ↔ ∃ r, step s a = some r ∧ exec step r rest = some t := by
  simp only [exec, Option.bind_eq_some_iff]

theorem exec_append (s : S) (as bs : List A) :
    exec step s (as ++ bs) = (exec step s as).bind (fun t => exec step t bs) := by
  induction as generalizing s with
  | nil => rfl
  | cons a rest ih =>
    simp only [List.cons_append, exec, Option.bind_assoc]
    exact congrArg _ (funext ih)

theorem exec_append_some {s t : S} {as bs : List A} :
    exec step s (as ++ bs) = some t ↔ ∃ r, exec step s as = some r ∧ exec step r bs = some t := by
  simp only [exec_append, Option.bind_eq_some_iff]

theorem always_start {P : S → Prop} {s : S} {as : List A} (h : Always step P s as) : P s := by
  cases as with
  | nil => exact h
  | cons a rest => exact h.1

/-- The meaning of Always in terms of the runs themselves. -/
theorem always_iff_reached (P : S → Prop) (s : S) (as : List A) :
    Always step P s as ↔ ∀ pre post t, as = pre ++ post → exec step s pre = some t → P t := by
  induction as generalizing s with
  | nil =>
    constructor
    · intro h pre post t split reached
      obtain ⟨rfl, _⟩ := List.append_eq_nil_iff.mp split.symm
      cases Option.some.inj reached
      exact h
    · exact fun h => h [] [] s rfl rfl
  | cons a rest ih =>
    constructor
    · intro h pre post t split reached
      cases pre with
      | nil =>
        cases Option.some.inj reached
        exact h.1
      | cons b pre =>
        obtain ⟨rfl, tail⟩ := List.cons.inj split
        obtain ⟨r, taken, reached⟩ := exec_cons_some.mp reached
        exact (ih r).mp (h.2 r taken) pre post t tail reached
    · intro h
      refine ⟨h [] _ s rfl rfl, fun r taken => (ih r).mpr ?_⟩
      intro pre post t split reached
      exact h (a :: pre) post t (by rw [split]; rfl) (exec_cons_some.mpr ⟨r, taken, reached⟩)

theorem always_end {P : S → Prop} {s t : S} {as : List A} (h : Always step P s as)
    (reached : exec step s as = some t) : P t :=
  (always_iff_reached P s as).mp h as [] t (List.append_nil as).symm reached

/-- The invariant rule: what every step keeps holds throughout a run, and at its end. -/
theorem always_inductive {I : S → Prop} (keeps : ∀ s a t, I s → step s a = some t → I t)
    {s : S} (initial : I s) (as : List A) : Always step I s as := by
  induction as generalizing s with
  | nil => exact initial
  | cons a rest ih => exact ⟨initial, fun t taken => ih (keeps s a t initial taken)⟩

theorem exec_inductive {I : S → Prop} (keeps : ∀ s a t, I s → step s a = some t → I t)
    {s t : S} {as : List A} (initial : I s) (reached : exec step s as = some t) : I t :=
  always_end (always_inductive keeps initial as) reached

theorem always_mono {P Q : S → Prop} (weaker : ∀ s, P s → Q s) {s : S} {as : List A}
    (h : Always step P s as) : Always step Q s as := by
  induction as generalizing s with
  | nil => exact weaker s h
  | cons a rest ih => exact ⟨weaker s h.1, fun t taken => ih (h.2 t taken)⟩

/-- What every allowed step keeps holds throughout a run of allowed steps. -/
theorem always_guarded {I : S → Prop} {G : S → A → Prop}
    (keeps : ∀ s a t, I s → G s a → step s a = some t → I t) {s : S} (initial : I s) {as : List A}
    (allowed : Guarded step G s as) : Always step I s as := by
  induction as generalizing s with
  | nil => exact initial
  | cons a rest ih =>
    refine ⟨initial, fun t taken => ?_⟩
    obtain ⟨here, later⟩ := allowed t taken
    exact ih (keeps s a t initial here taken) later

theorem guarded_of_all {G : S → A → Prop} (all : ∀ s a, G s a) (s : S) (as : List A) :
    Guarded step G s as := by
  induction as generalizing s with
  | nil => trivial
  | cons a rest ih => exact fun t _ => ⟨all s a, ih t⟩

theorem guarded_congr {G H : S → A → Prop} (same : ∀ s a, G s a ↔ H s a) (s : S) (as : List A) :
    Guarded step G s as ↔ Guarded step H s as := by
  induction as generalizing s with
  | nil => exact Iff.rfl
  | cons a rest ih => exact forall₂_congr fun t _ => and_congr (same s a) (ih t)

/-- When one step keeps P exactly if G allows it, a whole run keeps P exactly if G
allows each of its steps. I collects what else the exact step lemma needs. -/
theorem always_iff_guarded {I P : S → Prop} {G : S → A → Prop}
    (keeps : ∀ s a t, I s → P s → step s a = some t → P t → I t)
    (exact_step : ∀ s a t, I s → P s → step s a = some t → (P t ↔ G s a))
    {s : S} (hi : I s) (hp : P s) (as : List A) :
    Always step P s as ↔ Guarded step G s as := by
  induction as generalizing s with
  | nil => exact ⟨fun _ => trivial, fun _ => hp⟩
  | cons a rest ih =>
    constructor
    · intro h t taken
      have ht : P t := always_start (h.2 t taken)
      exact ⟨(exact_step s a t hi hp taken).mp ht,
        (ih (keeps s a t hi hp taken ht) ht).mp (h.2 t taken)⟩
    · intro h
      refine ⟨hp, fun t taken => ?_⟩
      have ht : P t := (exact_step s a t hi hp taken).mpr (h t taken).1
      exact (ih (keeps s a t hi hp taken ht) ht).mpr (h t taken).2

section Earlier
variable {I D : S → Prop} {G H : S → A → Prop}
  (keeps : ∀ s a t, I s → step s a = some t → I t)
  (enters : ∀ s a t, I s → ¬ D s → step s a = some t → (D t ↔ ¬ H s a))
  (outside : ∀ s a t, I s → ¬ D s → step s a = some t → G s a)

include keeps enters outside

/-- When only a step against H leads into D, and G can be broken there only, a run of steps
that H allows is one of steps that G allows. -/
theorem guarded_of_earlier {s : S} (initial : I s) (clear : ¬ D s) {as : List A}
    (allowed : Guarded step H s as) : Guarded step G s as := by
  induction as generalizing s with
  | nil => trivial
  | cons a rest ih =>
    intro t taken
    obtain ⟨here, later⟩ := allowed t taken
    have still : ¬ D t := fun doomed => (enters s a t initial clear taken).mp doomed here
    exact ⟨outside s a t initial clear taken, ih (keeps s a t initial taken) still later⟩

/-- When moreover D is left by a step against G only, the two are the same for the runs that do
not end in D. -/
theorem guarded_iff_earlier (inside : ∀ s a t, I s → D s → G s a → step s a = some t → D t)
    {s r : S} (initial : I s) (clear : ¬ D s) {as : List A} (run : exec step s as = some r)
    (settled : ¬ D r) : Guarded step G s as ↔ Guarded step H s as := by
  refine ⟨fun allowed => ?_, guarded_of_earlier keeps enters outside initial clear⟩
  have doomed {s : S} {as : List A} (initial : I s) (here : D s) (run : exec step s as = some r) :
      ¬ Guarded step G s as := by
    intro allowed
    induction as generalizing s with
    | nil => exact settled (Option.some.inj run ▸ here)
    | cons a rest ih =>
      obtain ⟨t, taken, run⟩ := exec_cons_some.mp run
      obtain ⟨now, later⟩ := allowed t taken
      exact ih (keeps s a t initial taken) (inside s a t initial here now taken) run later
  induction as generalizing s with
  | nil => trivial
  | cons a rest ih =>
    intro t taken
    obtain ⟨u, taken', run⟩ := exec_cons_some.mp run
    obtain rfl := Option.some.inj (taken.symm.trans taken')
    have next := keeps s a t initial taken
    have later := (allowed t taken).2
    have still : ¬ D t := fun here => doomed next here run later
    have here : H s a := Classical.byContradiction fun against =>
      still ((enters s a t initial clear taken).mpr against)
    exact ⟨here, ih next still run later⟩

end Earlier

section Reaching

/-- Some run from s ends in a state with P. -/
def Reaches (step : S → A → Option S) (s : S) (P : S → Prop) : Prop :=
  ∃ as t, exec step s as = some t ∧ P t

theorem reaches_here {P : S → Prop} {s : S} (holds : P s) : Reaches step s P := ⟨[], s, rfl, holds⟩

theorem reaches_step {P : S → Prop} {s r : S} (a : A) (taken : step s a = some r)
    (later : Reaches step r P) : Reaches step s P := by
  obtain ⟨as, t, run, holds⟩ := later
  exact ⟨a :: as, t, exec_cons_some.mpr ⟨r, taken, run⟩, holds⟩

theorem reaches_trans {P Q : S → Prop} {s : S} (first : Reaches step s P)
    (second : ∀ t, P t → Reaches step t Q) : Reaches step s Q := by
  obtain ⟨as, r, run, holds⟩ := first
  obtain ⟨bs, t, run', goal⟩ := second r holds
  exact ⟨as ++ bs, t, exec_append_some.mpr ⟨r, run, run'⟩, goal⟩

end Reaching

section ReachingBy
variable {G : S → A → Prop} {P Q : S → Prop} {s r : S}

/-- Some run from s, of steps that G allows, ends in a state with P. -/
def ReachesBy (step : S → A → Option S) (G : S → A → Prop) (s : S) (P : S → Prop) : Prop :=
  ∃ as t, exec step s as = some t ∧ Guarded step G s as ∧ P t

theorem guarded_append {as bs : List A} (run : exec step s as = some r)
    (first : Guarded step G s as) (second : Guarded step G r bs) : Guarded step G s (as ++ bs) := by
  induction as generalizing s with
  | nil =>
    obtain rfl := Option.some.inj run
    exact second
  | cons a rest ih =>
    obtain ⟨q, taken, run⟩ := exec_cons_some.mp run
    intro q' taken'
    obtain rfl := Option.some.inj (taken.symm.trans taken')
    obtain ⟨here, later⟩ := first q taken
    exact ⟨here, ih run later⟩

theorem reachesBy_here (holds : P s) : ReachesBy step G s P := ⟨[], s, rfl, trivial, holds⟩

theorem reachesBy_step (a : A) (allowed : G s a) (taken : step s a = some r)
    (later : ReachesBy step G r P) : ReachesBy step G s P := by
  obtain ⟨as, t, run, allowed', holds⟩ := later
  refine ⟨a :: as, t, exec_cons_some.mpr ⟨r, taken, run⟩, fun q taken' => ?_, holds⟩
  obtain rfl := Option.some.inj (taken.symm.trans taken')
  exact ⟨allowed, allowed'⟩

theorem reachesBy_trans (first : ReachesBy step G s P)
    (second : ∀ t, P t → ReachesBy step G t Q) : ReachesBy step G s Q := by
  obtain ⟨as, r, run, allowed, holds⟩ := first
  obtain ⟨bs, t, run', allowed', goal⟩ := second r holds
  have whole := exec_append_some.mpr ⟨r, run, run'⟩
  exact ⟨as ++ bs, t, whole, guarded_append run allowed allowed', goal⟩

/-- When a state follows every allowed step of the abstract one it is related to, by allowed
steps of its own, it follows every allowed run. -/
theorem reachesBy_follows {T : Type w} {B : Type x} {abstract : T → B → Option T}
    {H : T → B → Prop} {related : T → S → Prop} {P : T → Prop}
    (follows : ∀ d b d' s, related d s → H d b → abstract d b = some d' →
      ReachesBy step G s (related d'))
    {d : T} (here : related d s) (reaches : ReachesBy abstract H d P) :
    ReachesBy step G s (fun r => ∃ d', related d' r ∧ P d') := by
  obtain ⟨bs, e, run, allowed, holds⟩ := reaches
  induction bs generalizing d s with
  | nil =>
    obtain rfl := Option.some.inj run
    exact reachesBy_here ⟨d, here, holds⟩
  | cons b bs ih =>
    obtain ⟨d', taken, run⟩ := exec_cons_some.mp run
    obtain ⟨now, later⟩ := allowed d' taken
    exact reachesBy_trans (follows d b d' s here now taken) fun r there => ih there run later

end ReachingBy

section Refinement
variable {T : Type w} {B : Type x} {concrete : S → A → Option S} {abstract : T → B → Option T}
  (f : S → T)

/-- If every concrete step is an abstract one between the images, so is every run. -/
theorem exec_refines (forward : ∀ s a t, concrete s a = some t → ∃ b, abstract (f s) b = some (f t))
    {s t : S} {as : List A} (run : exec concrete s as = some t) :
    ∃ bs, exec abstract (f s) bs = some (f t) := by
  induction as generalizing s with
  | nil =>
    cases Option.some.inj run
    exact ⟨[], rfl⟩
  | cons a rest ih =>
    obtain ⟨r, taken, run⟩ := exec_cons_some.mp run
    obtain ⟨b, matched⟩ := forward s a r taken
    obtain ⟨bs, later⟩ := ih run
    exact ⟨b :: bs, exec_cons_some.mpr ⟨f r, matched, later⟩⟩

/-- If every abstract step from the image of a good state can be made concretely, so can
every run, and it stays among the good states. -/
theorem exec_realises (I : S → Prop)
    (backward : ∀ s b r, I s → abstract (f s) b = some r →
      ∃ a t, concrete s a = some t ∧ f t = r ∧ I t)
    {s : S} {r : T} {bs : List B} (good : I s) (run : exec abstract (f s) bs = some r) :
    ∃ as t, exec concrete s as = some t ∧ f t = r ∧ I t := by
  induction bs generalizing s with
  | nil => exact ⟨[], s, rfl, Option.some.inj run, good⟩
  | cons b rest ih =>
    obtain ⟨q, taken, run⟩ := exec_cons_some.mp run
    obtain ⟨a, t, made, rfl, still⟩ := backward s b q good taken
    obtain ⟨as, u, later, ends⟩ := ih still run
    exact ⟨a :: as, u, exec_cons_some.mpr ⟨t, made, later⟩, ends⟩

end Refinement

section History
variable {α : Type u} (f g : Nat → α)

def history [DecidableEq α] (f : Nat → α) : Nat → List α
  | 0 => [f 0]
  | n + 1 => if f (n + 1) = f n then history f n else history f n ++ [f (n + 1)]

/-- f and g go through the same values in the same order, at their own speeds. -/
def SameHistory [DecidableEq α] : Prop :=
  (∀ n, ∃ m, history f n = history g m) ∧ ∀ m, ∃ n, history g m = history f n

variable [DecidableEq α]

theorem mem_history {n : Nat} {v : α} : v ∈ history f n ↔ ∃ m, m ≤ n ∧ f m = v := by
  induction n with
  | zero =>
    rw [history, List.mem_singleton]
    constructor
    · exact fun same => ⟨0, Nat.le_refl 0, same.symm⟩
    · rintro ⟨m, early, same⟩
      rw [← same, Nat.le_zero.mp early]
  | succ n ih =>
    have last : (∃ m, m ≤ n + 1 ∧ f m = v) ↔ (∃ m, m ≤ n ∧ f m = v) ∨ f (n + 1) = v := by
      constructor
      · rintro ⟨m, early, same⟩
        rcases Nat.lt_or_eq_of_le early with before | now
        · exact .inl ⟨m, Nat.le_of_lt_succ before, same⟩
        · exact .inr (now ▸ same)
      · rintro (⟨m, early, same⟩ | now)
        · exact ⟨m, Nat.le_succ_of_le early, same⟩
        · exact ⟨n + 1, Nat.le_refl _, now⟩
    rw [last, ← ih, history]
    by_cases still : f (n + 1) = f n
    · rw [if_pos still]
      constructor
      · exact .inl
      · rintro (old | now)
        · exact old
        · exact ih.mpr ⟨n, Nat.le_refl n, still ▸ now⟩
    · rw [if_neg still, List.mem_append, List.mem_singleton]
      exact or_congr_right eq_comm

theorem SameHistory.reaches {f g : Nat → α} (same : SameHistory f g) (n : Nat) : ∃ m, g m = f n := by
  obtain ⟨m, equal⟩ := same.1 n
  have member : f n ∈ history g m := equal ▸ (mem_history f).mpr ⟨n, Nat.le_refl n, rfl⟩
  obtain ⟨k, -, value⟩ := (mem_history g).mp member
  exact ⟨k, value⟩

theorem SameHistory.symm {f g : Nat → α} (same : SameHistory f g) : SameHistory g f := And.symm same

theorem sameHistory_refl : SameHistory f f := ⟨fun n => ⟨n, rfl⟩, fun n => ⟨n, rfl⟩⟩

end History

end Foundation
