import DevAccess.Foundation.Forest

/-! A forest with distinct keys and a supply of new ones: what a document is to a program
that holds pointers into it. Keys are never given out twice, so a pointer to a removed
node stays invalid for ever. -/
namespace Foundation

universe u v

structure KeyedTree (α : Type u) (β : Type v) where
  forest : Forest α β
  next : Nat
  distinct : forest.keys.Nodup
  fresh : ∀ k ∈ forest.keys, k < next

namespace KeyedTree

variable {α : Type u} {β : Type v}

def Live (t : KeyedTree α β) (k : Nat) : Prop := k ∈ t.forest.keys

instance (t : KeyedTree α β) (k : Nat) : Decidable (t.Live k) := inferInstanceAs (Decidable (_ ∈ _))

def Place (t : KeyedTree α β) : Option Nat → Prop
  | none => True
  | some k => t.Live k

instance (t : KeyedTree α β) (p : Option Nat) : Decidable (t.Place p) :=
  match p with
  | none => inferInstanceAs (Decidable True)
  | some k => inferInstanceAs (Decidable (t.Live k))

def label? (t : KeyedTree α β) (k : Nat) : Option α := (t.forest.find? k).map Prod.fst

def kids (t : KeyedTree α β) (k : Nat) : Forest α β := ((t.forest.find? k).map Prod.snd).getD .nil

def below (t : KeyedTree α β) (k : Nat) : List Nat := (t.kids k).keys

def childrenAt (t : KeyedTree α β) : Option Nat → List (Forest.Child α β)
  | none => t.forest.children
  | some k => (t.kids k).children

def empty (next : Nat) : KeyedTree α β := ⟨.nil, next, List.nodup_nil, fun _ h => absurd h List.not_mem_nil⟩

section Below
variable {t : KeyedTree α β} {a b c : Nat}

theorem find?_kids (live : t.Live a) : ∃ label, t.forest.find? a = some (label, t.kids a) := by
  obtain ⟨label, part, found⟩ := Forest.find?_some live
  exact ⟨label, by rw [kids, found]; rfl⟩

theorem kids_dead (dead : ¬ t.Live a) : t.kids a = .nil := by
  rw [kids, Forest.find?_none dead]
  rfl

theorem kids_distinct (t : KeyedTree α β) (a : Nat) : (t.kids a).keys.Nodup := by
  by_cases live : t.Live a
  · obtain ⟨label, found⟩ := find?_kids live
    exact (List.nodup_cons.mp ((Forest.find?_sublist found).nodup t.distinct)).2
  · rw [kids_dead live]
    exact List.nodup_nil

theorem above_live (h : b ∈ t.below a) : t.Live a := by
  by_contra dead
  rw [below, kids_dead dead] at h
  cases h

theorem find?_below (h : b ∈ t.below a) : t.forest.find? b = (t.kids a).find? b := by
  obtain ⟨label, found⟩ := find?_kids (above_live h)
  exact Forest.find?_inside t.distinct found h

theorem below_live (h : b ∈ t.below a) : t.Live b := by
  obtain ⟨label, found⟩ := find?_kids (above_live h)
  exact (Forest.find?_sublist found).subset (List.mem_cons_of_mem _ h)

theorem not_below_self (t : KeyedTree α β) (a : Nat) : a ∉ t.below a := fun h => by
  obtain ⟨label, found⟩ := find?_kids (above_live h)
  exact Forest.not_mem_own_kids t.distinct found h

theorem below_trans (first : b ∈ t.below a) (second : c ∈ t.below b) : c ∈ t.below a := by
  obtain ⟨label, found⟩ := find?_kids (below_live first)
  rw [find?_below first] at found
  exact (Forest.find?_sublist found).subset (List.mem_cons_of_mem _ second)

theorem child_below {label : α} (child : .node b label ∈ t.childrenAt (some a)) : b ∈ t.below a := by
  obtain ⟨_, inside⟩ := Forest.find?_of_child (kids_distinct t a) child
  exact Forest.mem_keys_of_find? inside

theorem child_found {p : Option Nat} {label : α} (child : .node b label ∈ t.childrenAt p) :
    ∃ part, t.forest.find? b = some (label, part) := by
  cases p with
  | none => exact Forest.find?_of_child t.distinct child
  | some a =>
    rw [find?_below (child_below child)]
    exact Forest.find?_of_child (kids_distinct t a) child

theorem child_live {p : Option Nat} {label : α} (child : .node b label ∈ t.childrenAt p) : t.Live b := by
  obtain ⟨part, found⟩ := child_found child
  exact Forest.mem_keys_of_find? found

theorem child_label {p : Option Nat} {label : α} (child : .node b label ∈ t.childrenAt p) :
    t.label? b = some label := by
  obtain ⟨part, found⟩ := child_found child
  rw [label?, found]
  rfl

theorem siblings_distinct (t : KeyedTree α β) (p : Option Nat) :
    (((t.childrenAt p).filterMap Forest.Child.head?).map Prod.fst).Nodup := by
  cases p with
  | none => exact (Forest.heads_sublist t.forest).nodup t.distinct
  | some a => exact (Forest.heads_sublist (t.kids a)).nodup (kids_distinct t a)

end Below

section Graft

structure New (first next : Nat) (g : Forest α β) : Prop where
  distinct : g.keys.Nodup
  range : ∀ k ∈ g.keys, first ≤ k ∧ k < next
  le : first ≤ next

def graftForest (f : Forest α β) (p : Option Nat) (g : Forest α β) : Forest α β :=
  match p with
  | none => f.append g
  | some k => f.modify k (fun kids => kids.append g)

theorem graftForest_perm {f g : Forest α β} (distinct : f.keys.Nodup) {p : Option Nat}
    (place : ∀ k, p = some k → k ∈ f.keys) : (graftForest f p g).keys.Perm (f.keys ++ g.keys) := by
  cases p with
  | none => rw [graftForest, Forest.keys_append]
  | some k =>
    obtain ⟨label, kids, found⟩ := Forest.find?_some (place k rfl)
    obtain ⟨q, r, here, modified, -⟩ := Forest.keys_split distinct found
    rw [graftForest, modified, here, Forest.keys_append]
    have swap : (g.keys ++ r).Perm (r ++ g.keys) := List.perm_append_comm
    simpa using (swap.append_left kids.keys).cons k |>.append_left q

variable {t : KeyedTree α β} {p : Option Nat} {g : Forest α β} {next : Nat}

theorem place_live (place : t.Place p) : ∀ k, p = some k → k ∈ t.forest.keys := by
  rintro k rfl
  exact place

def graft (t : KeyedTree α β) (p : Option Nat) (place : t.Place p) (g : Forest α β) (next : Nat)
    (new : New t.next next g) : KeyedTree α β where
  forest := graftForest t.forest p g
  next := next
  distinct := by
    rw [(graftForest_perm t.distinct (place_live place)).nodup_iff]
    apply List.Nodup.append t.distinct new.distinct
    intro k old added
    exact Nat.lt_irrefl _ (Nat.lt_of_lt_of_le (t.fresh k old) (new.range k added).1)
  fresh := by
    intro k member
    rw [(graftForest_perm t.distinct (place_live place)).mem_iff] at member
    rcases List.mem_append.mp member with old | added
    · exact Nat.lt_of_lt_of_le (t.fresh k old) new.le
    · exact (new.range k added).2

theorem old_not_new (new : New t.next next g) {b : Nat} (live : t.Live b) : b ∉ g.keys := fun added =>
  Nat.lt_irrefl _ (Nat.lt_of_lt_of_le (t.fresh b live) (new.range b added).1)

variable (place : t.Place p) (new : New t.next next g)
include place new

theorem live_graft {b : Nat} : (t.graft p place g next new).Live b ↔ t.Live b ∨ b ∈ g.keys := by
  unfold Live
  rw [graft, (graftForest_perm t.distinct (place_live place)).mem_iff, List.mem_append]

theorem graft_find?_self {k : Nat} (here : p = some k) :
    ∃ label, t.forest.find? k = some (label, t.kids k) ∧
      (t.graft p place g next new).forest.find? k = some (label, (t.kids k).append g) := by
  subst here
  obtain ⟨label, found⟩ := find?_kids place
  exact ⟨label, found, Forest.find?_modify_self found⟩

theorem graft_find?_old {b : Nat} (live : t.Live b) (other : p ≠ some b) :
    ∃ h : Forest α β → Forest α β, (∀ f, (h f).children = f.children) ∧
      (t.graft p place g next new).forest.find? b = (t.forest.find? b).map (Prod.map id h) := by
  have apart := old_not_new new live
  obtain ⟨label, found⟩ := find?_kids live
  cases p with
  | none =>
    refine ⟨id, fun _ => rfl, ?_⟩
    simp [graft, graftForest, Forest.find?_append, found]
  | some k =>
    obtain ⟨label', here, grafted⟩ := graft_find?_self place new rfl
    by_cases inside : b ∈ (t.kids k).keys
    · refine ⟨id, fun _ => rfl, ?_⟩
      have part : (t.kids k).find? b = some (label, t.kids b) := by
        rw [← Forest.find?_inside t.distinct here inside, found]
      have member : b ∈ ((t.kids k).append g).keys := by
        rw [Forest.keys_append]
        exact List.mem_append_left _ inside
      rw [Forest.find?_inside (t.graft (some k) place g next new).distinct grafted member,
        Forest.find?_append, part, found]
      rfl
    · refine ⟨Forest.modify k (fun kids => kids.append g), Forest.children_modify _ _, ?_⟩
      apply Forest.find?_modify_other t.distinct (fun e => other (congrArg some e.symm))
      intro label'' kids found'
      cases Option.some.inj (here.symm.trans found')
      rw [Forest.keys_append, List.mem_append]
      exact ⟨inside, fun h => h.elim inside apart⟩

theorem graft_find?_new {b : Nat} (added : b ∈ g.keys) :
    (t.graft p place g next new).forest.find? b = g.find? b := by
  have apart : ¬ t.Live b := fun live => old_not_new new live added
  cases p with
  | none => simp [graft, graftForest, Forest.find?_append, Forest.find?_none apart]
  | some k =>
    obtain ⟨label, here, grafted⟩ := graft_find?_self place new rfl
    have member : b ∈ ((t.kids k).append g).keys := by
      rw [Forest.keys_append]
      exact List.mem_append_right _ added
    have absent : b ∉ (t.kids k).keys := fun h => apart (below_live h)
    rw [Forest.find?_inside (t.graft (some k) place g next new).distinct grafted member,
      Forest.find?_append, Forest.find?_none absent, Option.none_or]

theorem label?_graft {b : Nat} (live : t.Live b) :
    (t.graft p place g next new).label? b = t.label? b := by
  by_cases here : p = some b
  · obtain ⟨label, found, grafted⟩ := graft_find?_self place new here
    rw [label?, label?, found, grafted]
    rfl
  · obtain ⟨h, -, found⟩ := graft_find?_old place new live here
    rw [label?, label?, found, Option.map_map]
    rfl

theorem childrenAt_graft_self :
    (t.graft p place g next new).childrenAt p = t.childrenAt p ++ g.children := by
  cases p with
  | none => exact Forest.children_append t.forest g
  | some k =>
    obtain ⟨label, found, grafted⟩ := graft_find?_self place new rfl
    simp only [childrenAt]
    rw [kids, grafted]
    exact Forest.children_append _ _

theorem childrenAt_graft_other {q : Option Nat} (old : t.Place q) (other : p ≠ q) :
    (t.graft p place g next new).childrenAt q = t.childrenAt q := by
  cases q with
  | none =>
    cases p with
    | none => exact absurd rfl other
    | some k => exact Forest.children_modify k _ t.forest
  | some b =>
    obtain ⟨h, same, found⟩ := graft_find?_old place new old other
    obtain ⟨label, here⟩ := find?_kids old
    simp only [childrenAt]
    rw [kids, found, here]
    exact same _

theorem childrenAt_graft_new {b : Nat} (added : b ∈ g.keys) :
    (t.graft p place g next new).childrenAt (some b) =
      (((g.find? b).map Prod.snd).getD .nil).children := by
  simp only [childrenAt]
  rw [kids, graft_find?_new place new added]

end Graft

section Cut
variable {t : KeyedTree α β} {k b : Nat}

theorem keys_split (live : t.Live k) :
    ∃ p q, t.forest.keys = p ++ k :: (t.below k ++ q) ∧
      (∀ g, (t.forest.modify k g).keys = p ++ k :: ((g (t.kids k)).keys ++ q)) ∧
      (t.forest.remove k).keys = p ++ q := by
  obtain ⟨label, found⟩ := find?_kids live
  exact Forest.keys_split t.distinct found

theorem cleared_keys (live : t.Live k) :
    (t.forest.modify k (fun _ => .nil)).keys.Sublist t.forest.keys := by
  obtain ⟨p, q, here, modified, -⟩ := keys_split live
  rw [modified, here]
  exact ((List.sublist_append_right _ _).cons_cons k).append_left p

theorem removed_keys (live : t.Live k) : (t.forest.remove k).keys.Sublist t.forest.keys := by
  obtain ⟨p, q, here, -, removed⟩ := keys_split live
  rw [removed, here]
  exact ((List.sublist_append_right _ _).cons k).append_left p

def clear (t : KeyedTree α β) (k : Nat) (live : t.Live k) : KeyedTree α β where
  forest := t.forest.modify k (fun _ => .nil)
  next := t.next
  distinct := (cleared_keys live).nodup t.distinct
  fresh b member := t.fresh b ((cleared_keys live).subset member)

def remove (t : KeyedTree α β) (k : Nat) (live : t.Live k) : KeyedTree α β where
  forest := t.forest.remove k
  next := t.next
  distinct := (removed_keys live).nodup t.distinct
  fresh b member := t.fresh b ((removed_keys live).subset member)

theorem live_clear (live : t.Live k) : (t.clear k live).Live b ↔ t.Live b ∧ b ∉ t.below k := by
  obtain ⟨p, q, here, modified, -⟩ := keys_split live
  have distinct := t.distinct
  have cleared : (t.clear k live).forest.keys = p ++ k :: q := by
    rw [clear, modified]
    rfl
  unfold Live
  rw [cleared]
  rw [here] at distinct ⊢
  grind

theorem live_remove (live : t.Live k) :
    (t.remove k live).Live b ↔ t.Live b ∧ b ≠ k ∧ b ∉ t.below k := by
  obtain ⟨p, q, here, -, removed⟩ := keys_split live
  have distinct := t.distinct
  unfold Live
  rw [show (t.remove k live).forest.keys = p ++ q from removed]
  rw [here] at distinct ⊢
  grind

theorem clear_find?_other (live : t.Live k) (other : b ≠ k) (outside : b ∉ t.below k) :
    (t.clear k live).forest.find? b =
      (t.forest.find? b).map (Prod.map id (Forest.modify k (fun _ => .nil))) := by
  apply Forest.find?_modify_other t.distinct other
  intro label kids found
  obtain ⟨label', here⟩ := find?_kids live
  cases Option.some.inj (here.symm.trans found)
  exact ⟨outside, List.not_mem_nil⟩

theorem clear_find?_self (live : t.Live k) :
    ∃ label, t.forest.find? k = some (label, t.kids k) ∧
      (t.clear k live).forest.find? k = some (label, .nil) := by
  obtain ⟨label, found⟩ := find?_kids live
  exact ⟨label, found, Forest.find?_modify_self found⟩

theorem label?_clear (live : t.Live k) (outside : b ∉ t.below k) :
    (t.clear k live).label? b = t.label? b := by
  by_cases here : b = k
  · subst here
    obtain ⟨label, found, cleared⟩ := clear_find?_self live
    rw [label?, label?, found, cleared]
    rfl
  · rw [label?, label?, clear_find?_other live here outside, Option.map_map]
    rfl

theorem childrenAt_clear_self (live : t.Live k) : (t.clear k live).childrenAt (some k) = [] := by
  obtain ⟨label, -, cleared⟩ := clear_find?_self live
  simp only [childrenAt]
  rw [kids, cleared]
  rfl

def Outside (t : KeyedTree α β) (k : Nat) : Option Nat → Prop
  | none => True
  | some b => b ≠ k ∧ b ∉ t.below k

theorem childrenAt_clear_other (live : t.Live k) {q : Option Nat} (outside : t.Outside k q) :
    (t.clear k live).childrenAt q = t.childrenAt q := by
  cases q with
  | none => exact Forest.children_modify k _ t.forest
  | some b =>
    simp only [childrenAt]
    rw [kids, kids, clear_find?_other live outside.1 outside.2]
    cases t.forest.find? b with
    | none => rfl
    | some r => exact Forest.children_modify k _ r.2

end Cut

section Add

theorem new_node (next : Nat) (label : α) :
    New next (next + 1) (.node next label .nil .nil : Forest α β) where
  distinct := by simp [Forest.keys]
  range := by simp [Forest.keys]
  le := Nat.le_succ next

theorem new_leaf (next : Nat) (content : β) : New next next (.leaf content .nil : Forest α β) where
  distinct := by simp [Forest.keys]
  range := by simp [Forest.keys]
  le := Nat.le_refl next

def addNode (t : KeyedTree α β) (p : Option Nat) (place : t.Place p) (label : α) : KeyedTree α β :=
  t.graft p place (.node t.next label .nil .nil) (t.next + 1) (new_node t.next label)

def addLeaf (t : KeyedTree α β) (p : Option Nat) (place : t.Place p) (content : β) : KeyedTree α β :=
  t.graft p place (.leaf content .nil) t.next (new_leaf t.next content)

end Add

/-- t' comes from t by adding children behind those that are there: at the old places the
new nodes are new ones, and nothing else changes. -/
structure Grows (t t' : KeyedTree α β) : Prop where
  live : ∀ k, t.Live k → t'.Live k
  label : ∀ k, t.Live k → t'.label? k = t.label? k
  children : ∀ p, t.Place p → ∃ added, t'.childrenAt p = t.childrenAt p ++ added ∧
    ∀ k label, .node k label ∈ added → ¬ t.Live k

section Grows
variable {t t' t'' : KeyedTree α β}

theorem Grows.place (grows : Grows t t') {p : Option Nat} (place : t.Place p) : t'.Place p := by
  cases p with
  | none => trivial
  | some k => exact grows.live k place

theorem Grows.refl (t : KeyedTree α β) : Grows t t :=
  ⟨fun _ h => h, fun _ _ => rfl, fun _ _ => ⟨[], by simp, fun _ _ h => absurd h List.not_mem_nil⟩⟩

theorem Grows.trans (first : Grows t t') (second : Grows t' t'') : Grows t t'' := by
  refine ⟨fun k h => second.live k (first.live k h), fun k h => ?_, fun p place => ?_⟩
  · rw [second.label k (first.live k h), first.label k h]
  · obtain ⟨added, here, new⟩ := first.children p place
    obtain ⟨added', here', new'⟩ := second.children p (first.place place)
    refine ⟨added ++ added', by rw [here', here, List.append_assoc], fun k label member => ?_⟩
    rcases List.mem_append.mp member with old | late
    · exact new k label old
    · exact fun live => new' k label late (first.live k live)

theorem graft_grows {p : Option Nat} {g : Forest α β} {next : Nat} (place : t.Place p)
    (new : New t.next next g) : Grows t (t.graft p place g next new) := by
  refine ⟨fun k live => (live_graft place new).mpr (.inl live),
    fun k live => label?_graft place new live, fun q old => ?_⟩
  by_cases here : p = q
  · subst here
    refine ⟨g.children, childrenAt_graft_self place new, fun k label member live => ?_⟩
    obtain ⟨kids, found⟩ := Forest.find?_of_child new.distinct member
    exact old_not_new new live (Forest.mem_keys_of_find? found)
  · exact ⟨[], by rw [childrenAt_graft_other place new old here, List.append_nil],
      fun _ _ h => absurd h List.not_mem_nil⟩

theorem live_addLeaf {p : Option Nat} (place : t.Place p) (content : β) (k : Nat) :
    (t.addLeaf p place content).Live k ↔ t.Live k := by
  rw [addLeaf, live_graft]
  exact or_iff_left List.not_mem_nil

theorem addLeaf_grows {p : Option Nat} (place : t.Place p) (content : β) :
    Grows t (t.addLeaf p place content) :=
  graft_grows place (new_leaf t.next content)

end Grows

/-- t' comes from t by adding n nodes of one label, without children, behind the children
of p. -/
structure Copies (t t' : KeyedTree α β) (p : Option Nat) (label : α) (n : Nat) : Prop where
  next : t'.next = t.next + n
  live : ∀ b, t'.Live b ↔ t.Live b ∨ t.next ≤ b ∧ b < t.next + n
  labels : ∀ b, t.Live b → t'.label? b = t.label? b
  children : t'.childrenAt p = t.childrenAt p ++ (List.range' t.next n).map fun k => .node k label
  other : ∀ q, t.Place q → p ≠ q → t'.childrenAt q = t.childrenAt q
  childless : ∀ b, t.next ≤ b → b < t.next + n → t'.childrenAt (some b) = []

section Copies
variable {t t' t'' : KeyedTree α β} {p : Option Nat} {label : α} {n m : Nat}

theorem copies_zero (t : KeyedTree α β) (p : Option Nat) (label : α) : Copies t t p label 0 where
  next := rfl
  live b := (or_iff_left (by omega)).symm
  labels _ _ := rfl
  children := by simp
  other _ _ _ := rfl
  childless b low high := by omega

theorem copies_addNode (place : t.Place p) (label : α) : Copies t (t.addNode p place label) p label 1 where
  next := rfl
  live b := by
    rw [addNode, live_graft, Forest.keys, Forest.keys, List.append_nil, List.mem_singleton]
    exact or_congr_right (by omega)
  labels b live := label?_graft place _ live
  children := childrenAt_graft_self place _
  other q old different := childrenAt_graft_other place _ old different
  childless b low high := by
    have here : b = t.next := by omega
    subst here
    rw [addNode, childrenAt_graft_new place _ (by simp [Forest.keys])]
    simp [Forest.find?, Forest.children]

theorem Copies.place (copies : Copies t t' p label n) {q : Option Nat} (place : t.Place q) :
    t'.Place q := by
  cases q with
  | none => trivial
  | some k => exact (copies.live k).mpr (.inl place)

theorem Copies.trans (place : t.Place p) (first : Copies t t' p label n)
    (second : Copies t' t'' p label m) : Copies t t'' p label (n + m) where
  next := by rw [second.next, first.next, Nat.add_assoc]
  live b := by
    rw [second.live, first.live, first.next, or_assoc]
    exact or_congr_right (by omega)
  labels b live := by rw [second.labels b ((first.live b).mpr (.inl live)), first.labels b live]
  children := by
    rw [second.children, first.children, first.next, List.append_assoc, ← List.map_append,
      List.range'_append_1]
  other q old different := by
    rw [second.other q (first.place old) different, first.other q old different]
  childless b low high := by
    have different : p ≠ some b := by
      rintro rfl
      exact Nat.lt_irrefl _ (Nat.lt_of_lt_of_le (t.fresh b place) low)
    by_cases early : b < t.next + n
    · rw [second.other (some b) ((first.live b).mpr (.inr ⟨low, early⟩)) different]
      exact first.childless b low early
    · apply second.childless b
      · rw [first.next]
        omega
      · rw [first.next]
        omega

theorem Copies.grows (copies : Copies t t' p label n) : Grows t t' := by
  refine ⟨fun k live => (copies.live k).mpr (.inl live), copies.labels, fun q place => ?_⟩
  by_cases here : p = q
  · subst here
    refine ⟨_, copies.children, fun k name member live => ?_⟩
    obtain ⟨k', range, same⟩ := List.mem_map.mp member
    obtain ⟨rfl, -⟩ := Forest.Child.node.inj same
    have low := (List.mem_range'_1.mp range).1
    exact Nat.lt_irrefl _ (Nat.lt_of_lt_of_le (t.fresh _ live) low)
  · exact ⟨[], by rw [copies.other q place here, List.append_nil], fun _ _ h => absurd h List.not_mem_nil⟩

end Copies

def fill (next : Nat) (f : Forest α β) : KeyedTree α β where
  forest := (f.number next).1
  next := (f.number next).2
  distinct := (Forest.number_keys next f).2.1
  fresh k member := ((Forest.number_keys next f).2.2 k member).2

theorem fill_fresh {next : Nat} {f : Forest α β} {k : Nat} (live : (fill next f).Live k) : next ≤ k :=
  ((Forest.number_keys next f).2.2 k live).1

section Parent

def parent? (t : KeyedTree α β) (k : Nat) : Option (Option Nat) := t.forest.parentIn none k

def depth (t : KeyedTree α β) (k : Nat) : Nat := (t.forest.depthIn 0 k).getD 0

variable {t t' : KeyedTree α β} {k : Nat} {p : Option Nat}

theorem parent?_isSome (t : KeyedTree α β) (k : Nat) : (t.parent? k).isSome ↔ t.Live k :=
  Forest.parentIn_isSome none t.forest k

theorem parent?_some {k : Nat} (live : t.Live k) : ∃ p, t.parent? k = some p :=
  Option.isSome_iff_exists.mp ((parent?_isSome t k).mpr live)

theorem parent?_of_child {label : α} (child : .node k label ∈ t.childrenAt p) : t.parent? k = some p := by
  cases p with
  | none => exact Forest.parentIn_of_child t.distinct none child
  | some a =>
    have under := child_below child
    obtain ⟨_, found⟩ := find?_kids (above_live under)
    rw [parent?, Forest.parentIn_inside t.distinct none found under]
    exact Forest.parentIn_of_child (kids_distinct t a) (some a) child

theorem child_of_parent? (here : t.parent? k = some p) :
    t.Place p ∧ ∃ label, .node k label ∈ t.childrenAt p := by
  rcases Forest.child_of_parentIn t.distinct here with ⟨rfl, child⟩ | ⟨q, label, part, rfl, found, child⟩
  · exact ⟨trivial, child⟩
  · refine ⟨Forest.mem_keys_of_find? found, ?_⟩
    simp only [childrenAt]
    rw [kids, found]
    exact child

theorem Grows.parent (grows : Grows t t') (here : t.parent? k = some p) : t'.parent? k = some p := by
  obtain ⟨place, label, child⟩ := child_of_parent? here
  obtain ⟨added, there, -⟩ := grows.children p place
  have member : .node k label ∈ t'.childrenAt p := by
    rw [there]
    exact List.mem_append_left _ child
  exact parent?_of_child member

theorem Copies.parent {label : α} {n : Nat} (copies : Copies t t' p label n) (live : t'.Live k)
    (new : ¬ t.Live k) : t'.parent? k = some p := by
  obtain ⟨low, high⟩ := ((copies.live k).mp live).resolve_left new
  have member : .node k label ∈ t'.childrenAt p := by
    rw [copies.children]
    apply List.mem_append_right
    exact List.mem_map.mpr ⟨k, List.mem_range'_1.mpr ⟨low, high⟩, rfl⟩
  exact parent?_of_child member

theorem Copies.leaves {label : α} {n : Nat} (copies : Copies t t' p label n) {q : Option Nat} {content : β}
    (member : .leaf content ∈ t'.childrenAt q) : .leaf content ∈ t.childrenAt q := by
  by_cases here : p = q
  · subst here
    rw [copies.children] at member
    rcases List.mem_append.mp member with old | added
    · exact old
    · obtain ⟨k, -, other⟩ := List.mem_map.mp added
      cases other
  · cases q with
    | none =>
      rw [copies.other none trivial here] at member
      exact member
    | some a =>
      by_cases old : t.Live a
      · rw [copies.other (some a) old here] at member
        exact member
      · by_cases live : t'.Live a
        · obtain ⟨low, high⟩ := ((copies.live a).mp live).resolve_left old
          rw [copies.childless a low high] at member
          cases member
        · rw [childrenAt, kids_dead live] at member
          cases member

theorem Grows.new_below (grows : Grows t t') {a : Nat} {label : α} (new : ¬ t.Live a)
    (child : .node k label ∈ t'.childrenAt (some a)) : ¬ t.Live k := by
  intro live
  obtain ⟨p, above⟩ := parent?_some live
  have same := (grows.parent above).symm.trans (parent?_of_child child)
  cases same
  exact new (child_of_parent? above).1

theorem depth_top (here : t.parent? k = some none) : t.depth k = 0 := by
  rcases Forest.depthIn_parentIn t.distinct (d := 0) here with ⟨-, same⟩ | ⟨q, e, other, -, -⟩
  · rw [depth, same]
    rfl
  · cases other

theorem depth_under {q : Nat} (here : t.parent? k = some (some q)) : t.depth k = t.depth q + 1 := by
  rcases Forest.depthIn_parentIn t.distinct (d := 0) here with ⟨other, -⟩ | ⟨q', e, same, above, below⟩
  · cases other
  · cases same
    rw [depth, depth, above, below]
    rfl

theorem Grows.depth (grows : Grows t t') (live : t.Live k) : t'.depth k = t.depth k := by
  induction d : t.depth k generalizing k with
  | zero =>
    obtain ⟨p, here⟩ := parent?_some live
    cases p with
    | none => exact depth_top (grows.parent here)
    | some q =>
      rw [depth_under here] at d
      cases d
  | succ e ih =>
    obtain ⟨p, here⟩ := parent?_some live
    cases p with
    | none =>
      rw [depth_top here] at d
      cases d
    | some q =>
      rw [depth_under here] at d
      rw [depth_under (grows.parent here), ih (child_of_parent? here).1 (Nat.succ.inj d)]

end Parent

end KeyedTree

end Foundation
