import Mathlib.Data.List.Nodup

/-! Ordered forests whose inner nodes carry a key, as a program sees the nodes it holds
pointers to. A forest is described by its keys, by what stands under a key, and by the
list of its topmost members. -/
namespace Foundation

universe u v w

inductive Forest (α : Type u) (β : Type v) where
  | nil
  | node (key : Nat) (label : α) (kids rest : Forest α β)
  | leaf (content : β) (rest : Forest α β)

namespace Forest

variable {α : Type u} {β : Type v}

def keys : Forest α β → List Nat
  | nil => []
  | node key _ kids rest => key :: (kids.keys ++ rest.keys)
  | leaf _ rest => rest.keys

def find? (k : Nat) : Forest α β → Option (α × Forest α β)
  | nil => none
  | node key label kids rest =>
    if key = k then some (label, kids) else (kids.find? k).or (rest.find? k)
  | leaf _ rest => rest.find? k

inductive Child (α : Type u) (β : Type v) where
  | node (key : Nat) (label : α)
  | leaf (content : β)

def children : Forest α β → List (Child α β)
  | nil => []
  | node key label _ rest => .node key label :: rest.children
  | leaf content rest => .leaf content :: rest.children

def nodes : Forest α β → List (α × Forest α β)
  | nil => []
  | node _ label kids rest => (label, kids) :: rest.nodes
  | leaf _ rest => rest.nodes

def append : Forest α β → Forest α β → Forest α β
  | nil, g => g
  | node key label kids rest, g => node key label kids (rest.append g)
  | leaf content rest, g => leaf content (rest.append g)

def modify (k : Nat) (g : Forest α β → Forest α β) : Forest α β → Forest α β
  | nil => nil
  | node key label kids rest =>
    if key = k then node key label (g kids) rest
    else node key label (kids.modify k g) (rest.modify k g)
  | leaf content rest => leaf content (rest.modify k g)

def remove (k : Nat) : Forest α β → Forest α β
  | nil => nil
  | node key label kids rest =>
    if key = k then rest else node key label (kids.remove k) (rest.remove k)
  | leaf content rest => leaf content (rest.remove k)

/-- The parent of the node with key k, in a forest that stands under up. -/
def parentIn (up : Option Nat) (k : Nat) : Forest α β → Option (Option Nat)
  | nil => none
  | node key _ kids rest =>
    if key = k then some up else (kids.parentIn (some key) k).or (rest.parentIn up k)
  | leaf _ rest => rest.parentIn up k

def depthIn (d k : Nat) : Forest α β → Option Nat
  | nil => none
  | node key _ kids rest =>
    if key = k then some d else (kids.depthIn (d + 1) k).or (rest.depthIn d k)
  | leaf _ rest => rest.depthIn d k

def number (n : Nat) : Forest α β → Forest α β × Nat
  | nil => (nil, n)
  | node _ label kids rest =>
    let (kids, m) := kids.number (n + 1)
    let (rest, m) := rest.number m
    (node n label kids rest, m)
  | leaf content rest =>
    let (rest, m) := rest.number n
    (leaf content rest, m)

structure Apart (key : Nat) (kids rest : Forest α β) : Prop where
  in_kids : kids.keys.Nodup
  in_rest : rest.keys.Nodup
  key_kids : key ∉ kids.keys
  key_rest : key ∉ rest.keys
  disjoint : ∀ k, k ∈ kids.keys → k ∉ rest.keys

theorem apart_of_distinct {key : Nat} {label : α} {kids rest : Forest α β}
    (distinct : (node key label kids rest).keys.Nodup) : Apart key kids rest := by
  obtain ⟨fresh, parts⟩ := List.nodup_cons.mp distinct
  obtain ⟨kids_distinct, rest_distinct, disjoint⟩ := List.nodup_append.mp parts
  exact ⟨kids_distinct, rest_distinct, fun h => fresh (List.mem_append_left _ h),
    fun h => fresh (List.mem_append_right _ h), fun k inside beside => disjoint k inside k beside rfl⟩

section Find
variable {f : Forest α β} {k : Nat}

theorem searched_isSome {γ : Type w} {key k : Nat} (label : α) {kids rest : Forest α β}
    {inside beside : Option γ} (here : γ) (below : inside.isSome ↔ k ∈ kids.keys)
    (later : beside.isSome ↔ k ∈ rest.keys) :
    (if key = k then some here else inside.or beside).isSome ↔ k ∈ (node key label kids rest).keys := by
  simp only [keys, List.mem_cons, List.mem_append]
  by_cases same : key = k
  · simp [same]
  · have other : k ≠ key := fun e => same e.symm
    rw [if_neg same, Option.isSome_or, Bool.or_eq_true, below, later]
    simp [other]

theorem find?_isSome (f : Forest α β) (k : Nat) : (f.find? k).isSome ↔ k ∈ f.keys := by
  induction f with
  | nil => simp [find?, keys]
  | leaf content rest ih => exact ih
  | node key label kids rest kids_ih rest_ih => exact searched_isSome label (label, kids) kids_ih rest_ih

theorem find?_some (member : k ∈ f.keys) : ∃ label kids, f.find? k = some (label, kids) := by
  obtain ⟨⟨label, kids⟩, found⟩ := Option.isSome_iff_exists.mp ((find?_isSome f k).mpr member)
  exact ⟨label, kids, found⟩

theorem find?_none (absent : k ∉ f.keys) : f.find? k = none := by
  rw [← find?_isSome] at absent
  exact Option.not_isSome_iff_eq_none.mp absent

theorem mem_keys_of_find? {r : α × Forest α β} (found : f.find? k = some r) : k ∈ f.keys :=
  (find?_isSome f k).mp (by simp [found])

theorem find?_sublist {label : α} {kids : Forest α β} (found : f.find? k = some (label, kids)) :
    (k :: kids.keys).Sublist f.keys := by
  induction f with
  | nil => cases found
  | leaf content rest ih => exact ih found
  | node key label' kids' rest kids_ih rest_ih =>
    simp only [find?] at found
    simp only [keys]
    by_cases same : key = k
    · rw [if_pos same] at found
      cases found
      rw [same]
      exact (List.sublist_append_left kids.keys rest.keys).cons_cons k
    · rw [if_neg same, Option.or_eq_some_iff] at found
      apply List.Sublist.cons
      rcases found with inside | ⟨-, beside⟩
      · exact (kids_ih inside).trans (List.sublist_append_left _ _)
      · exact (rest_ih beside).trans (List.sublist_append_right _ _)

theorem not_mem_own_kids (distinct : f.keys.Nodup) {label : α} {kids : Forest α β}
    (found : f.find? k = some (label, kids)) : k ∉ kids.keys :=
  (List.nodup_cons.mp ((find?_sublist found).nodup distinct)).1

theorem find?_inside (distinct : f.keys.Nodup) {label : α} {kids : Forest α β}
    (found : f.find? k = some (label, kids)) {b : Nat} (below : b ∈ kids.keys) :
    f.find? b = kids.find? b := by
  induction f with
  | nil => cases found
  | leaf content rest ih => exact ih distinct found
  | node key label' kids' rest kids_ih rest_ih =>
    have apart := apart_of_distinct distinct
    simp only [find?] at found
    rw [find?]
    by_cases same : key = k
    · rw [if_pos same] at found
      cases found
      have other : key ≠ b := fun e => apart.key_kids (e ▸ below)
      rw [if_neg other, find?_none (apart.disjoint b below), Option.or_none]
    · rw [if_neg same, Option.or_eq_some_iff] at found
      rcases found with inside | ⟨-, beside⟩
      · have member := (find?_sublist inside).subset (List.mem_cons_of_mem _ below)
        have other : key ≠ b := fun e => apart.key_kids (e ▸ member)
        rw [if_neg other, kids_ih apart.in_kids inside, find?_none (apart.disjoint b member), Option.or_none]
      · have member := (find?_sublist beside).subset (List.mem_cons_of_mem _ below)
        have other : key ≠ b := fun e => apart.key_rest (e ▸ member)
        have absent : b ∉ kids'.keys := fun h => apart.disjoint b h member
        rw [if_neg other, find?_none absent, Option.none_or, rest_ih apart.in_rest beside]

end Find

section Append
variable (f g : Forest α β)

@[simp] theorem keys_append : (f.append g).keys = f.keys ++ g.keys := by
  induction f with
  | nil => rfl
  | node key label kids rest _ ih => simp [append, keys, ih]
  | leaf content rest ih => simp [append, keys, ih]

@[simp] theorem children_append : (f.append g).children = f.children ++ g.children := by
  induction f with
  | nil => rfl
  | node key label kids rest _ ih => simp [append, children, ih]
  | leaf content rest ih => simp [append, children, ih]

theorem find?_append (k : Nat) : (f.append g).find? k = (f.find? k).or (g.find? k) := by
  induction f with
  | nil => rfl
  | node key label kids rest _ ih =>
    by_cases same : key = k
    · simp [append, find?, same]
    · simp [append, find?, same, ih, Option.or_assoc]
  | leaf content rest ih => simp [append, find?, ih]

end Append

section Modify
variable {f : Forest α β} {k : Nat} {g : Forest α β → Forest α β}

@[simp] theorem children_modify (k : Nat) (g : Forest α β → Forest α β) (f : Forest α β) :
    (f.modify k g).children = f.children := by
  induction f with
  | nil => rfl
  | node key label kids rest _ ih =>
    simp only [modify]
    split
    · rfl
    · simp [children, ih]
  | leaf content rest ih => simp [modify, children, ih]

theorem modify_absent (absent : k ∉ f.keys) : f.modify k g = f := by
  induction f with
  | nil => rfl
  | node key label kids rest kids_ih rest_ih =>
    simp only [keys, List.mem_cons, List.mem_append, not_or] at absent
    obtain ⟨other, inside, beside⟩ := absent
    rw [modify, if_neg (fun e => other e.symm), kids_ih inside, rest_ih beside]
  | leaf content rest ih => rw [modify, ih absent]

theorem remove_absent (absent : k ∉ f.keys) : f.remove k = f := by
  induction f with
  | nil => rfl
  | node key label kids rest kids_ih rest_ih =>
    simp only [keys, List.mem_cons, List.mem_append, not_or] at absent
    obtain ⟨other, inside, beside⟩ := absent
    rw [remove, if_neg (fun e => other e.symm), kids_ih inside, rest_ih beside]
  | leaf content rest ih => rw [remove, ih absent]

/-- Where the keys under a node stand among all keys, and what the two operations do
there. -/
theorem keys_split (distinct : f.keys.Nodup) {label : α} {kids : Forest α β}
    (found : f.find? k = some (label, kids)) :
    ∃ p q, f.keys = p ++ k :: (kids.keys ++ q) ∧
      (∀ g, (f.modify k g).keys = p ++ k :: ((g kids).keys ++ q)) ∧ (f.remove k).keys = p ++ q := by
  induction f with
  | nil => cases found
  | leaf content rest ih => exact ih distinct found
  | node key label' kids' rest kids_ih rest_ih =>
    have apart := apart_of_distinct distinct
    simp only [find?] at found
    by_cases same : key = k
    · rw [if_pos same] at found
      cases found
      refine ⟨[], rest.keys, by simp [keys, same], fun g => ?_, by simp [remove, same]⟩
      simp [modify, keys, same]
    · rw [if_neg same, Option.or_eq_some_iff] at found
      rcases found with inside | ⟨-, beside⟩
      · obtain ⟨p, q, here, modified, removed⟩ := kids_ih apart.in_kids inside
        have absent := apart.disjoint k (mem_keys_of_find? inside)
        refine ⟨key :: p, q ++ rest.keys, ?_, fun g => ?_, ?_⟩
        · simp [keys, here]
        · simp [modify, same, keys, modified g, modify_absent absent]
        · simp [remove, same, keys, removed, remove_absent absent]
      · obtain ⟨p, q, here, modified, removed⟩ := rest_ih apart.in_rest beside
        have absent : k ∉ kids'.keys := fun h => apart.disjoint k h (mem_keys_of_find? beside)
        refine ⟨key :: (kids'.keys ++ p), q, ?_, fun g => ?_, ?_⟩
        · simp [keys, here]
        · simp [modify, same, keys, modified g, modify_absent absent]
        · simp [remove, same, keys, removed, remove_absent absent]

theorem find?_modify_self {label : α} {kids : Forest α β} (found : f.find? k = some (label, kids)) :
    (f.modify k g).find? k = some (label, g kids) := by
  induction f with
  | nil => cases found
  | leaf content rest ih => exact ih found
  | node key label' kids' rest kids_ih rest_ih =>
    simp only [find?] at found
    by_cases same : key = k
    · rw [if_pos same] at found
      cases found
      simp [modify, find?, same]
    · rw [if_neg same] at found
      rw [modify, if_neg same, find?, if_neg same]
      rcases Option.or_eq_some_iff.mp found with inside | ⟨none, beside⟩
      · rw [kids_ih inside, Option.some_or]
      · have absent : k ∉ kids'.keys := by
          rw [← find?_isSome, none]
          simp
        rw [modify_absent absent, none, Option.none_or, rest_ih beside]

theorem find?_modify_other (distinct : f.keys.Nodup) {b : Nat} (other : b ≠ k)
    (apart : ∀ label kids, f.find? k = some (label, kids) → b ∉ kids.keys ∧ b ∉ (g kids).keys) :
    (f.modify k g).find? b = (f.find? b).map (Prod.map id (modify k g)) := by
  induction f with
  | nil => rfl
  | leaf content rest ih => exact ih distinct apart
  | node key label' kids' rest kids_ih rest_ih =>
    have parts := apart_of_distinct distinct
    by_cases same : key = k
    · obtain ⟨outside, outside'⟩ := apart label' kids' (by simp [find?, same])
      have absent : k ∉ rest.keys := same ▸ parts.key_rest
      have rest_same := rest_ih parts.in_rest (fun _ _ found => absurd (mem_keys_of_find? found) absent)
      rw [modify_absent absent] at rest_same
      have different : key ≠ b := fun e => other (e.symm.trans same)
      rw [modify, if_pos same, find?, find?, if_neg different, if_neg different, find?_none outside,
        find?_none outside', Option.none_or]
      exact rest_same
    · rw [modify, if_neg same, find?, find?]
      by_cases here : key = b
      · simp [here]
      · rw [if_neg here, if_neg here, Option.map_or]
        have inside := kids_ih parts.in_kids (fun label kids found =>
          apart label kids (by simp [find?, same, found]))
        have beside := rest_ih parts.in_rest (fun label kids found => by
          have absent : k ∉ kids'.keys := fun h => parts.disjoint k h (mem_keys_of_find? found)
          exact apart label kids (by simp [find?, same, found, find?_none absent]))
        rw [inside, beside]

end Modify

section Heads

def Child.head? : Child α β → Option (Nat × α)
  | .node key label => some (key, label)
  | .leaf _ => none

variable {f : Forest α β} {k : Nat} {label : α}

theorem find?_of_child (distinct : f.keys.Nodup) (top : .node k label ∈ f.children) :
    ∃ kids, f.find? k = some (label, kids) := by
  induction f with
  | nil => cases top
  | leaf content rest ih =>
    simp only [children, List.mem_cons, reduceCtorEq, false_or] at top
    exact ih distinct top
  | node key label' kids' rest _ ih =>
    have apart := apart_of_distinct distinct
    simp only [children, List.mem_cons, Child.node.injEq] at top
    rcases top with ⟨rfl, rfl⟩ | later
    · exact ⟨kids', by simp [find?]⟩
    · obtain ⟨kids, found⟩ := ih apart.in_rest later
      have member := mem_keys_of_find? found
      have other : key ≠ k := fun e => apart.key_rest (e ▸ member)
      have absent : k ∉ kids'.keys := fun h => apart.disjoint k h member
      exact ⟨kids, by simp [find?, other, find?_none absent, found]⟩

theorem heads_sublist (f : Forest α β) :
    ((f.children.filterMap Child.head?).map Prod.fst).Sublist f.keys := by
  induction f with
  | nil => exact List.Sublist.refl []
  | leaf content rest ih => exact ih
  | node key label kids rest _ ih =>
    exact (ih.trans (List.sublist_append_right kids.keys rest.keys)).cons_cons key

end Heads

section Parent
variable {f : Forest α β} {k : Nat}

theorem parentIn_isSome (up : Option Nat) (f : Forest α β) (k : Nat) :
    (f.parentIn up k).isSome ↔ k ∈ f.keys := by
  induction f generalizing up with
  | nil => simp [parentIn, keys]
  | leaf content rest ih => exact ih up
  | node key label kids rest kids_ih rest_ih =>
    exact searched_isSome label up (kids_ih (some key)) (rest_ih up)

theorem parentIn_none (up : Option Nat) (absent : k ∉ f.keys) : f.parentIn up k = none := by
  rw [← Option.not_isSome_iff_eq_none, parentIn_isSome]
  exact absent

end Parent

section Place
variable {f : Forest α β} {k : Nat}

theorem parentIn_of_child (distinct : f.keys.Nodup) (up : Option Nat) {label : α}
    (top : .node k label ∈ f.children) : f.parentIn up k = some up := by
  induction f with
  | nil => cases top
  | leaf content rest ih =>
    simp only [children, List.mem_cons, reduceCtorEq, false_or] at top
    exact ih distinct top
  | node key label' kids rest _ ih =>
    have apart := apart_of_distinct distinct
    simp only [children, List.mem_cons, Child.node.injEq] at top
    rcases top with ⟨rfl, rfl⟩ | later
    · simp [parentIn]
    · obtain ⟨part, found⟩ := find?_of_child apart.in_rest later
      have member := mem_keys_of_find? found
      have other : key ≠ k := fun e => apart.key_rest (e ▸ member)
      have absent : k ∉ kids.keys := fun h => apart.disjoint k h member
      rw [parentIn, if_neg other, parentIn_none _ absent, Option.none_or]
      exact ih apart.in_rest later

theorem parentIn_inside (distinct : f.keys.Nodup) (up : Option Nat) {a : Nat} {label : α}
    {kids : Forest α β} (found : f.find? a = some (label, kids)) (below : k ∈ kids.keys) :
    f.parentIn up k = kids.parentIn (some a) k := by
  induction f generalizing up with
  | nil => cases found
  | leaf content rest ih => exact ih distinct up found
  | node key label' kids' rest kids_ih rest_ih =>
    have apart := apart_of_distinct distinct
    simp only [find?] at found
    rw [parentIn]
    by_cases same : key = a
    · rw [if_pos same] at found
      cases found
      have other : key ≠ k := fun e => apart.key_kids (e ▸ below)
      rw [if_neg other, parentIn_none up (apart.disjoint k below), Option.or_none, same]
    · rw [if_neg same, Option.or_eq_some_iff] at found
      rcases found with inside | ⟨-, beside⟩
      · have member := (find?_sublist inside).subset (List.mem_cons_of_mem _ below)
        have other : key ≠ k := fun e => apart.key_kids (e ▸ member)
        rw [if_neg other, parentIn_none up (apart.disjoint k member), Option.or_none,
          kids_ih apart.in_kids _ inside]
      · have member := (find?_sublist beside).subset (List.mem_cons_of_mem _ below)
        have other : key ≠ k := fun e => apart.key_rest (e ▸ member)
        have absent : k ∉ kids'.keys := fun h => apart.disjoint k h member
        rw [if_neg other, parentIn_none _ absent, Option.none_or, rest_ih apart.in_rest _ beside]

theorem child_of_parentIn (distinct : f.keys.Nodup) {up p : Option Nat}
    (found : f.parentIn up k = some p) :
    (p = up ∧ ∃ label, .node k label ∈ f.children) ∨
      ∃ q label kids, p = some q ∧ f.find? q = some (label, kids) ∧
        ∃ label, .node k label ∈ kids.children := by
  induction f generalizing up with
  | nil => cases found
  | leaf content rest ih =>
    rcases ih distinct found with ⟨here, label, top⟩ | deeper
    · exact .inl ⟨here, label, List.mem_cons_of_mem _ top⟩
    · exact .inr deeper
  | node key label' kids' rest kids_ih rest_ih =>
    have apart := apart_of_distinct distinct
    simp only [parentIn] at found
    by_cases same : key = k
    · rw [if_pos same] at found
      exact .inl ⟨(Option.some.inj found).symm, label', by simp [children, same]⟩
    · rw [if_neg same, Option.or_eq_some_iff] at found
      rcases found with inside | ⟨-, beside⟩
      · rcases kids_ih apart.in_kids inside with ⟨here, label, top⟩ | ⟨q, l, part, here, at_q, top⟩
        · exact .inr ⟨key, label', kids', here, by simp [find?], label, top⟩
        · have other : key ≠ q := fun e => apart.key_kids (e ▸ mem_keys_of_find? at_q)
          exact .inr ⟨q, l, part, here, by simp [find?, other, at_q], top⟩
      · rcases rest_ih apart.in_rest beside with ⟨here, label, top⟩ | ⟨q, l, part, here, at_q, top⟩
        · exact .inl ⟨here, label, List.mem_cons_of_mem _ top⟩
        · have member := mem_keys_of_find? at_q
          have other : key ≠ q := fun e => apart.key_rest (e ▸ member)
          have absent : q ∉ kids'.keys := fun h => apart.disjoint q h member
          exact .inr ⟨q, l, part, here, by simp [find?, other, find?_none absent, at_q], top⟩

end Place

section Depth
variable {f : Forest α β} {k : Nat}

theorem depthIn_isSome (d : Nat) (f : Forest α β) (k : Nat) : (f.depthIn d k).isSome ↔ k ∈ f.keys := by
  induction f generalizing d with
  | nil => simp [depthIn, keys]
  | leaf content rest ih => exact ih d
  | node key label kids rest kids_ih rest_ih =>
    exact searched_isSome label d (kids_ih (d + 1)) (rest_ih d)

theorem depthIn_none (d : Nat) (absent : k ∉ f.keys) : f.depthIn d k = none := by
  rw [← Option.not_isSome_iff_eq_none, depthIn_isSome]
  exact absent

theorem depthIn_parentIn (distinct : f.keys.Nodup) {up p : Option Nat} {d : Nat}
    (found : f.parentIn up k = some p) :
    (p = up ∧ f.depthIn d k = some d) ∨
      ∃ q e, p = some q ∧ f.depthIn d q = some e ∧ f.depthIn d k = some (e + 1) := by
  induction f generalizing up d with
  | nil => cases found
  | leaf content rest ih => exact ih distinct found
  | node key label kids rest kids_ih rest_ih =>
    have apart := apart_of_distinct distinct
    simp only [parentIn] at found
    by_cases same : key = k
    · rw [if_pos same] at found
      exact .inl ⟨(Option.some.inj found).symm, by simp [depthIn, same]⟩
    · rw [if_neg same, Option.or_eq_some_iff] at found
      rcases found with inside | ⟨-, beside⟩
      · right
        rcases kids_ih apart.in_kids (d := d + 1) inside with ⟨rfl, here⟩ | ⟨q, e, rfl, above, here⟩
        · exact ⟨key, d, rfl, by simp [depthIn], by simp [depthIn, same, here]⟩
        · have member := (depthIn_isSome (d + 1) kids q).mp (by simp [above])
          have other : key ≠ q := fun e => apart.key_kids (e ▸ member)
          exact ⟨q, e, rfl, by simp [depthIn, other, above], by simp [depthIn, same, here]⟩
      · have absent (b : Nat) (member : b ∈ rest.keys) : kids.depthIn (d + 1) b = none :=
          depthIn_none _ fun h => apart.disjoint b h member
        have member := (parentIn_isSome up rest k).mp (by simp [beside])
        rcases rest_ih apart.in_rest (d := d) beside with ⟨rfl, here⟩ | ⟨q, e, rfl, above, here⟩
        · exact .inl ⟨rfl, by simp [depthIn, same, absent k member, here]⟩
        · right
          have member' := (depthIn_isSome d rest q).mp (by simp [above])
          have other : key ≠ q := fun e => apart.key_rest (e ▸ member')
          exact ⟨q, e, rfl, by simp [depthIn, other, absent q member', above],
            by simp [depthIn, same, absent k member, here]⟩

end Depth

section Number

theorem number_keys (n : Nat) (f : Forest α β) :
    n ≤ (f.number n).2 ∧ (f.number n).1.keys.Nodup ∧
      ∀ k ∈ (f.number n).1.keys, n ≤ k ∧ k < (f.number n).2 := by
  induction f generalizing n with
  | nil => simp [number, keys]
  | leaf content rest ih => exact ih n
  | node key label kids rest kids_ih rest_ih =>
    obtain ⟨kids_le, kids_distinct, kids_range⟩ := kids_ih (n + 1)
    obtain ⟨rest_le, rest_distinct, rest_range⟩ := rest_ih (kids.number (n + 1)).2
    simp only [number, keys, List.nodup_cons, List.mem_cons, List.mem_append]
    refine ⟨by omega, ⟨?_, kids_distinct.append rest_distinct ?_⟩, ?_⟩
    · rintro (inside | beside)
      · have := kids_range n inside
        omega
      · have := rest_range n beside
        omega
    · intro k inside beside
      have := kids_range k inside
      have := rest_range k beside
      omega
    · rintro k (rfl | inside | beside)
      · omega
      · have := kids_range k inside
        omega
      · have := rest_range k beside
        omega

end Number

end Forest

end Foundation
