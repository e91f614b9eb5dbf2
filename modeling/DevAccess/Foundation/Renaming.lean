import DevAccess.Foundation.KeyedTree
import Mathlib.Logic.Equiv.Basic

/-! Forests that differ in their keys only. What is built with new keys stays so, since a
renaming can send a new key to any other. -/
namespace Foundation

universe u v

section Renamings
variable {ρ : Nat → Nat}

def sending (a b : Nat) (ρ : Nat → Nat) (k : Nat) : Nat := Equiv.swap (ρ a) b (ρ k)

theorem sending_injective (injective : Function.Injective ρ) (a b : Nat) :
    Function.Injective (sending a b ρ) := (Equiv.swap (ρ a) b).injective.comp injective

theorem sending_self (a b : Nat) : sending a b ρ a = b := Equiv.swap_apply_left (ρ a) b

theorem sending_other {a b k : Nat} (injective : Function.Injective ρ) (other : k ≠ a)
    (apart : ρ k ≠ b) :
    sending a b ρ k = ρ k :=
  Equiv.swap_apply_of_ne_of_ne (fun same => other (injective same)) apart

/-- Between lists of different numbers there is a renaming. -/
theorem exists_renaming {l l' : List Nat} (distinct : l.Nodup) (distinct' : l'.Nodup)
    (length : l.length = l'.length) : ∃ ρ : Nat → Nat, Function.Injective ρ ∧ l.map ρ = l' := by
  induction l generalizing l' with
  | nil =>
    obtain rfl := List.length_eq_zero_iff.mp length.symm
    exact ⟨id, Function.injective_id, rfl⟩
  | cons a l ih =>
    obtain ⟨b, l', rfl⟩ := List.exists_cons_of_length_eq_add_one length.symm
    obtain ⟨fresh, rest⟩ := List.nodup_cons.mp distinct
    obtain ⟨fresh', rest'⟩ := List.nodup_cons.mp distinct'
    obtain ⟨ρ, injective, mapped⟩ := ih rest rest' (Nat.succ.inj length)
    refine ⟨sending a b ρ, sending_injective injective a b, ?_⟩
    have others : l.map (sending a b ρ) = l.map ρ := by
      apply List.map_congr_left
      intro k member
      apply sending_other injective
      · rintro rfl
        exact fresh member
      · rintro rfl
        exact fresh' (mapped ▸ List.mem_map_of_mem member)
    rw [List.map_cons, sending_self, others, mapped]

end Renamings

namespace Forest
variable {α : Type u} {β : Type v}

def rename (ρ : Nat → Nat) : Forest α β → Forest α β
  | nil => nil
  | node key label kids rest => node (ρ key) label (kids.rename ρ) (rest.rename ρ)
  | leaf content rest => leaf content (rest.rename ρ)

def Child.rename (ρ : Nat → Nat) : Child α β → Child α β
  | .node key label => .node (ρ key) label
  | .leaf content => .leaf content

section Rename
variable {ρ σ : Nat → Nat} {f g : Forest α β} {k : Nat}

@[simp] theorem keys_rename (f : Forest α β) : (f.rename ρ).keys = f.keys.map ρ := by
  induction f with
  | nil => rfl
  | leaf content rest ih => exact ih
  | node key label kids rest kids_ih rest_ih => simp [rename, keys, kids_ih, rest_ih]

theorem children_rename (f : Forest α β) :
    (f.rename ρ).children = f.children.map (Child.rename ρ) := by
  induction f with
  | nil => rfl
  | leaf content rest ih => simp [rename, children, Child.rename, ih]
  | node key label kids rest kids_ih rest_ih => simp [rename, children, Child.rename, rest_ih]

theorem append_rename (f g : Forest α β) :
    (f.append g).rename ρ = (f.rename ρ).append (g.rename ρ) := by
  induction f with
  | nil => rfl
  | leaf content rest ih => simp [rename, append, ih]
  | node key label kids rest kids_ih rest_ih => simp [rename, append, rest_ih]

theorem rename_congr (same : ∀ k ∈ f.keys, ρ k = σ k) : f.rename ρ = f.rename σ := by
  induction f with
  | nil => rfl
  | leaf content rest ih => rw [rename, rename, ih same]
  | node key label kids rest kids_ih rest_ih =>
    obtain ⟨here, inside, beside⟩ :
        ρ key = σ key ∧ (∀ k ∈ kids.keys, ρ k = σ k) ∧ ∀ k ∈ rest.keys, ρ k = σ k := by
      simpa [keys, or_imp, forall_and] using same
    rw [rename, rename, here, kids_ih inside, rest_ih beside]

theorem number_rename (ρ : Nat → Nat) (f : Forest α β) (n : Nat) :
    (f.rename ρ).number n = f.number n := by
  induction f generalizing n with
  | nil => rfl
  | leaf content rest ih => simp [rename, number, ih]
  | node key label kids rest kids_ih rest_ih => simp [rename, number, kids_ih, rest_ih]

theorem number_length (f : Forest α β) (n : Nat) : (f.number n).1.keys.length = f.keys.length := by
  induction f generalizing n with
  | nil => rfl
  | leaf content rest ih => exact ih n
  | node key label kids rest kids_ih rest_ih => simp [number, keys, kids_ih, rest_ih]

theorem number_number (f : Forest α β) (n m : Nat) : (f.number n).1.number m = f.number m := by
  induction f generalizing n m with
  | nil => rfl
  | leaf content rest ih => simp [number, ih]
  | node key label kids rest kids_ih rest_ih => simp [number, kids_ih, rest_ih]

theorem number_eq_rename (f : Forest α β) (n : Nat) (numbered : (f.number n).1.keys = f.keys.map ρ) :
    (f.number n).1 = f.rename ρ := by
  induction f generalizing n with
  | nil => rfl
  | leaf content rest ih => exact congrArg (leaf content) (ih n numbered)
  | node key label kids rest kids_ih rest_ih =>
    simp only [number, keys, List.map_cons, List.map_append, List.cons.injEq] at numbered
    obtain ⟨here, others⟩ := numbered
    have length : (kids.number (n + 1)).1.keys.length = (kids.keys.map ρ).length := by
      rw [number_length, List.length_map]
    obtain ⟨inside, beside⟩ := List.append_inj others length
    have below := kids_ih (n + 1) inside
    have behind := rest_ih (kids.number (n + 1)).2 beside
    simp only [number, rename, below, behind]
    rw [← here]

variable (injective : Function.Injective ρ)
include injective

theorem find?_rename (f : Forest α β) (k : Nat) :
    (f.rename ρ).find? (ρ k) = (f.find? k).map fun r => (r.1, r.2.rename ρ) := by
  induction f with
  | nil => rfl
  | leaf content rest ih => exact ih
  | node key label kids rest kids_ih rest_ih =>
    simp only [rename, find?, injective.eq_iff, kids_ih, rest_ih]
    split
    · rfl
    · cases kids.find? k with
      | none => rfl
      | some r => rfl

theorem modify_rename {g g' : Forest α β → Forest α β} (alike : ∀ h, g' (h.rename ρ) = (g h).rename ρ)
    (f : Forest α β) (k : Nat) : (f.rename ρ).modify (ρ k) g' = (f.modify k g).rename ρ := by
  induction f with
  | nil => rfl
  | leaf content rest ih => exact congrArg (leaf content) ih
  | node key label kids rest kids_ih rest_ih =>
    simp only [rename, modify, injective.eq_iff, kids_ih, rest_ih]
    split
    · rw [rename, alike]
    · rw [rename]

theorem remove_rename (f : Forest α β) (k : Nat) :
    (f.rename ρ).remove (ρ k) = (f.remove k).rename ρ := by
  induction f with
  | nil => rfl
  | leaf content rest ih => exact congrArg (leaf content) ih
  | node key label kids rest kids_ih rest_ih =>
    simp only [rename, remove, injective.eq_iff, kids_ih, rest_ih]
    split
    · rfl
    · rw [rename]

theorem parentIn_rename (up : Option Nat) (f : Forest α β) (k : Nat) :
    (f.rename ρ).parentIn (up.map ρ) (ρ k) = (f.parentIn up k).map (Option.map ρ) := by
  induction f generalizing up with
  | nil => rfl
  | leaf content rest ih => exact ih up
  | node key label kids rest kids_ih rest_ih =>
    have below := kids_ih (some key)
    rw [Option.map_some] at below
    simp only [rename, parentIn, injective.eq_iff, below, rest_ih]
    split
    · rfl
    · cases kids.parentIn (some key) k with
      | none => rfl
      | some p => rfl

end Rename

end Forest

namespace KeyedTree
variable {α : Type u} {β : Type v}

/-- The second tree is the first one with other keys. -/
structure Renamed (ρ : Nat → Nat) (t t' : KeyedTree α β) : Prop where
  injective : Function.Injective ρ
  forest : t'.forest = t.forest.rename ρ

section Renamed
variable {ρ : Nat → Nat} {t t' : KeyedTree α β} {k : Nat} {p : Option Nat}

namespace Renamed

theorem live (renamed : Renamed ρ t t') (k : Nat) : t'.Live (ρ k) ↔ t.Live k := by
  rw [Live, renamed.forest, Forest.keys_rename, List.mem_map_of_injective renamed.injective]
  rfl

theorem place (renamed : Renamed ρ t t') (p : Option Nat) : t'.Place (p.map ρ) ↔ t.Place p := by
  cases p with
  | none => exact Iff.rfl
  | some k => exact renamed.live k

theorem label (renamed : Renamed ρ t t') (k : Nat) : t'.label? (ρ k) = t.label? k := by
  rw [label?, renamed.forest, Forest.find?_rename renamed.injective, Option.map_map]
  rfl

theorem kids (renamed : Renamed ρ t t') (k : Nat) : t'.kids (ρ k) = (t.kids k).rename ρ := by
  rw [KeyedTree.kids, KeyedTree.kids, renamed.forest, Forest.find?_rename renamed.injective]
  cases t.forest.find? k with
  | none => rfl
  | some r => rfl

theorem children (renamed : Renamed ρ t t') (p : Option Nat) :
    t'.childrenAt (p.map ρ) = (t.childrenAt p).map (Forest.Child.rename ρ) := by
  cases p with
  | none => rw [Option.map_none, childrenAt, childrenAt, renamed.forest, Forest.children_rename]
  | some k => rw [Option.map_some, childrenAt, childrenAt, renamed.kids, Forest.children_rename]

theorem parent (renamed : Renamed ρ t t') (k : Nat) :
    t'.parent? (ρ k) = (t.parent? k).map (Option.map ρ) := by
  rw [parent?, parent?, renamed.forest]
  exact Forest.parentIn_rename renamed.injective none t.forest k

theorem clear (renamed : Renamed ρ t t') (live : t.Live k) (live' : t'.Live (ρ k)) :
    Renamed ρ (t.clear k live) (t'.clear (ρ k) live') where
  injective := renamed.injective
  forest := by
    have emptied : ∀ h : Forest α β, Forest.nil = (Forest.nil : Forest α β).rename ρ := fun _ => rfl
    show t'.forest.modify (ρ k) (fun _ => .nil) = _
    rw [renamed.forest]
    exact Forest.modify_rename renamed.injective emptied t.forest k

theorem remove (renamed : Renamed ρ t t') (live : t.Live k) (live' : t'.Live (ρ k)) :
    Renamed ρ (t.remove k live) (t'.remove (ρ k) live') where
  injective := renamed.injective
  forest := by
    show t'.forest.remove (ρ k) = _
    rw [renamed.forest]
    exact Forest.remove_rename renamed.injective t.forest k

theorem graft (renamed : Renamed ρ t t') (p : Option Nat) (g : Forest α β) :
    graftForest t'.forest (p.map ρ) (g.rename ρ) = (graftForest t.forest p g).rename ρ := by
  rw [renamed.forest]
  cases p with
  | none => exact (Forest.append_rename t.forest g).symm
  | some k =>
    exact Forest.modify_rename renamed.injective (fun h => (Forest.append_rename h g).symm) t.forest k

theorem addLeaf (renamed : Renamed ρ t t') (place : t.Place p) (place' : t'.Place (p.map ρ))
    (content : β) :
    Renamed ρ (t.addLeaf p place content) (t'.addLeaf (p.map ρ) place' content) where
  injective := renamed.injective
  forest := renamed.graft p (.leaf content .nil)

theorem congr {σ : Nat → Nat} (renamed : Renamed ρ t t') (injective : Function.Injective σ)
    (same : ∀ k, t.Live k → σ k = ρ k) : Renamed σ t t' where
  injective := injective
  forest := by rw [renamed.forest, Forest.rename_congr fun k live => (same k live).symm]

def Known (ρ : Nat → Nat) (t t' : KeyedTree α β) (k : Nat) : Prop := k < t.next ∧ ρ k < t'.next

theorem known (renamed : Renamed ρ t t') (live : t.Live k) : Known ρ t t' k :=
  ⟨t.fresh k live, t'.fresh (ρ k) ((renamed.live k).mpr live)⟩

theorem sending_known (injective : Function.Injective ρ) (known : Known ρ t t' k) :
    sending t.next t'.next ρ k = ρ k := by
  obtain ⟨low, low'⟩ := known
  exact sending_other injective (Nat.ne_of_lt low) (Nat.ne_of_lt low')

theorem addNode (renamed : Renamed ρ t t') (place : t.Place p) (place' : t'.Place (p.map ρ))
    (label : α) :
    Renamed (sending t.next t'.next ρ) (t.addNode p place label)
        (t'.addNode (p.map ρ) place' label) := by
  have injective := sending_injective renamed.injective t.next t'.next
  have later := renamed.congr injective fun k live => sending_known renamed.injective
    (renamed.known live)
  have place_same : p.map (sending t.next t'.next ρ) = p.map ρ := by
    cases p with
    | none => rfl
    | some k => exact congrArg some (sending_known renamed.injective (renamed.known place))
  have grafted := later.graft p (.node t.next label .nil .nil)
  rw [place_same] at grafted
  simp only [Forest.rename, sending_self] at grafted
  exact ⟨injective, grafted⟩

end Renamed

theorem fill_renamed {l l' : List Nat} (f : Forest α β) (n n' : Nat) (distinct : l.Nodup)
    (distinct' : l'.Nodup)
    (length : l.length = l'.length) (old : ∀ k ∈ l, k < n) (old' : ∀ k ∈ l', k < n') :
    ∃ ρ, Renamed ρ (fill n f) (fill n' f) ∧ l.map ρ = l' := by
  obtain ⟨-, numbered, range⟩ := Forest.number_keys n f
  obtain ⟨-, numbered', range'⟩ := Forest.number_keys n' f
  have apart : (l ++ (f.number n).1.keys).Nodup :=
    List.nodup_append'.mpr ⟨distinct, numbered, fun k known new => by
      have := old k known
      have := range k new
      omega⟩
  have apart' : (l' ++ (f.number n').1.keys).Nodup :=
    List.nodup_append'.mpr ⟨distinct', numbered', fun k known new => by
      have := old' k known
      have := range' k new
      omega⟩
  have lengths : (l ++ (f.number n).1.keys).length = (l' ++ (f.number n').1.keys).length := by
    simp [Forest.number_length, length]
  obtain ⟨ρ, injective, mapped⟩ := exists_renaming apart apart' lengths
  rw [List.map_append] at mapped
  obtain ⟨known, new⟩ := List.append_inj mapped (by simpa using length)
  refine ⟨ρ, ⟨injective, ?_⟩, known⟩
  have again := Forest.number_eq_rename (f.number n).1 n'
    (by rw [Forest.number_number]; exact new.symm)
  rwa [Forest.number_number] at again

end Renamed

end KeyedTree

end Foundation
