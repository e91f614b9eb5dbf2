/-! What computations that can fail give: results with a property, and two computations that end
alike. -/
namespace Foundation

universe u v w

/-- Both fail in the same way, or both give results, which are related. -/
inductive Alike {ε : Type w} {γ : Type u} {δ : Type v} (R : γ → δ → Prop) :
    Except ε γ → Except ε δ → Prop
  | ok {a : γ} {b : δ} (related : R a b) : Alike R (.ok a) (.ok b)
  | error (e : ε) : Alike R (.error e) (.error e)

section Alike
variable {ε : Type w} {γ γ' : Type u} {δ δ' : Type v} {R : γ → δ → Prop} {S : γ' → δ' → Prop}
  {x : Except ε γ} {y : Except ε δ}

theorem Alike.bind {f : γ → Except ε γ'} {g : δ → Except ε δ'} (first : Alike R x y)
    (next : ∀ a b, R a b → Alike S (f a) (g b)) : Alike S (x >>= f) (y >>= g) := by
  cases first with
  | ok related => exact next _ _ related
  | error e => exact .error e

theorem Alike.mono {Q : γ → δ → Prop} (alike : Alike R x y) (weaker : ∀ a b, R a b → Q a b) :
    Alike Q x y := by
  cases alike with
  | ok related => exact .ok (weaker _ _ related)
  | error e => exact .error e

theorem Alike.both {P : γ → Prop} {Q : δ → Prop} (alike : Alike R x y)
    (left : ∀ a, x = .ok a → P a) (right : ∀ b, y = .ok b → Q b) :
    Alike (fun a b => P a ∧ Q b ∧ R a b) x y := by
  cases alike with
  | ok related => exact .ok ⟨left _ rfl, right _ rfl, related⟩
  | error e => exact .error e

theorem Alike.map {f : γ → γ'} {g : δ → δ'} (alike : Alike R x y)
    (each : ∀ a b, R a b → S (f a) (g b)) :
    Alike S (f <$> x) (g <$> y) := by
  cases alike with
  | ok related => exact .ok (each _ _ related)
  | error e => exact .error e

end Alike

/-- The computation gives a result with the property, or fails in a way that is allowed. -/
def Returns {ε : Type w} {γ : Type u} (allowed : ε → Prop) (Q : γ → Prop) : Except ε γ → Prop
  | .ok a => Q a
  | .error e => allowed e

section Returns
variable {ε : Type w} {γ δ : Type u} {allowed : ε → Prop} {Q : γ → Prop} {R : δ → Prop}
    {x : Except ε γ}

theorem Returns.bind {f : γ → Except ε δ} (first : Returns allowed Q x)
    (next : ∀ a, Q a → Returns allowed R (f a)) :
    Returns allowed R (x >>= f) := by
  cases x with
  | ok a => exact next a first
  | error e => exact first

theorem Returns.mono {Q' : γ → Prop} (returns : Returns allowed Q x) (weaker : ∀ a, Q a → Q' a) :
    Returns allowed Q' x := by
  cases x with
  | ok a => exact weaker a returns
  | error e => exact returns

theorem returns_iff : Returns allowed Q x ↔
    (∃ e, x = .error e ∧ allowed e) ∨ ∃ a, x = .ok a ∧ Q a := by
  cases x with
  | ok a => simp [Returns]
  | error e => simp [Returns]

end Returns

end Foundation
