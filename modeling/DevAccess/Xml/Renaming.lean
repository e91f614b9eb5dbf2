import DevAccess.Foundation.Outcome
import DevAccess.Foundation.Renaming
import DevAccess.Xml.Document

/-! The loops over a path in two documents that differ in their keys only. What they make keeps
the documents so. -/
namespace DevAccess.Xml
open Foundation KeyedTree

def Ref.rename (ρ : Nat → Nat) : Ref → Ref
  | null => null
  | document => document
  | element k => element (ρ k)

def Search.rename (ρ : Nat → Nat) (s : Search) : Search := { s with node := s.node.rename ρ }

def Ref.Held (ρ : Nat → Nat) (t t' : Doc) : Ref → Prop
  | element k => Renamed.Known ρ t t' k
  | _ => True

def Ref.Moved (ρ : Nat → Nat) (t t' : Doc) (r r' : Ref) : Prop := r' = r.rename ρ ∧ r.Held ρ t t'

def renameHead (ρ : Nat → Nat) (e : Nat × Text) : Nat × Text := (ρ e.1, e.2)

section Looking
variable {ρ : Nat → Nat} {t t' : Doc}

theorem findSibling_renamed (title : Text) (index i : Int) (l : List (Nat × Text)) :
    findSibling title index i (l.map (renameHead ρ)) =
      ((findSibling title index i l).1.map ρ, (findSibling title index i l).2) := by
  induction l generalizing i with
  | nil => rfl
  | cons e rest ih =>
    obtain ⟨key, value⟩ := e
    simp only [List.map_cons, renameHead, findSibling]
    split
    · split
      · rfl
      · exact ih (i + 1)
    · exact ih i

theorem findSibling_mem {title : Text} {index i : Int} {l : List (Nat × Text)} {key : Nat}
    (found : (findSibling title index i l).1 = some key) : ∃ value, (key, value) ∈ l := by
  induction l generalizing i with
  | nil => cases found
  | cons e rest ih =>
    obtain ⟨first, name⟩ := e
    simp only [findSibling] at found
    have later : ∀ i, (findSibling title index i rest).1 = some key →
        ∃ value, (key, value) ∈ (first, name) :: rest := by
      intro i found
      obtain ⟨value, member⟩ := ih found
      exact ⟨value, List.mem_cons_of_mem _ member⟩
    split at found
    · split at found
      · exact ⟨name, Option.some.inj found ▸ List.mem_cons_self⟩
      · exact later (i + 1) found
    · exact later i found

theorem start_renamed (curr : Ref) (path : Text) :
    start (curr.rename ρ) path = (start curr path).rename ρ := by
  unfold start
  split
  · rfl
  · rfl

theorem start_held {curr : Ref} (held : curr.Held ρ t t') (path : Text) :
    (start curr path).Held ρ t t' := by
  unfold start
  split
  · trivial
  · exact held

variable (renamed : Renamed ρ t t')
include renamed

theorem within_renamed (r : Ref) :
    Alike (fun p p' => p'.1 = p.1.map ρ) (within t r) (within t' (r.rename ρ)) := by
  cases r with
  | null => exact .ok rfl
  | document => exact .ok rfl
  | element k =>
    simp only [within, Ref.rename]
    by_cases live : t.Live k
    · rw [dif_pos live, dif_pos ((renamed.live k).mpr live)]
      exact .ok rfl
    · rw [dif_neg live, dif_neg fun live' => live ((renamed.live k).mp live')]
      exact .error _

theorem parentNode_renamed (r : Ref) :
    Alike (Ref.Moved ρ t t') (parentNode t r) (parentNode t' (r.rename ρ)) := by
  cases r with
  | null => exact .ok ⟨rfl, trivial⟩
  | document => exact .ok ⟨rfl, trivial⟩
  | element k =>
    simp only [parentNode, Ref.rename, renamed.parent]
    cases up : t.parent? k with
    | none => exact .error _
    | some p =>
      cases p with
      | none => exact .ok ⟨rfl, trivial⟩
      | some q =>
        obtain ⟨-, label, child⟩ := child_of_parent? up
        exact .ok ⟨rfl, renamed.known (above_live (child_below child))⟩

theorem elements_renamed (p : Option Nat) :
    elements t' (p.map ρ) = (elements t p).map (renameHead ρ) := by
  rw [elements, elements, renamed.children, List.filterMap_map, List.map_filterMap]
  congr 1
  funext child
  cases child with
  | node key label => rfl
  | leaf content => rfl

theorem getText_renamed (p : Option Nat) : getText t' (p.map ρ) = getText t p := by
  rw [getText, getText, renamed.children]
  cases t.childrenAt p with
  | nil => rfl
  | cons child rest =>
    cases child with
    | node key label => rfl
    | leaf content => cases content with
      | text value => rfl
      | other => rfl

theorem child_held {p : Option Nat} {e : Nat × Text} (member : e ∈ elements t p) :
    (Ref.element e.1).Held ρ t t' := by
  obtain ⟨child, among, head⟩ := List.mem_filterMap.mp member
  cases child with
  | leaf content => cases head
  | node key label =>
    obtain rfl := Option.some.inj head
    exact renamed.known (child_live among)

theorem findNode_renamed {parent : Ref} (held : parent.Held ρ t t') (title : Text) (index : Int) :
    Alike (fun s s' => s' = s.rename ρ ∧ s.node.Held ρ t t') (findNode t parent title index)
      (findNode t' (parent.rename ρ) title index) := by
  unfold findNode
  by_cases empty : title = []
  · rw [if_pos empty, if_pos empty]
    exact .ok ⟨rfl, held⟩
  by_cases dot : title = ['.']
  · rw [if_neg empty, if_neg empty, if_pos dot, if_pos dot]
    exact .ok ⟨rfl, held⟩
  by_cases up : title = ['.', '.']
  · rw [if_neg empty, if_neg empty, if_neg dot, if_neg dot, if_pos up, if_pos up]
    apply (parentNode_renamed renamed parent).bind
    rintro q q' ⟨rfl, above⟩
    exact .ok ⟨rfl, above⟩
  rw [if_neg empty, if_neg empty, if_neg dot, if_neg dot, if_neg up, if_neg up]
  apply (within_renamed renamed parent).bind
  rintro ⟨p, here⟩ ⟨p', here'⟩ rfl
  simp only [elements_renamed renamed, findSibling_renamed]
  cases search : findSibling title index 0 (elements t p) with
  | mk found i =>
    cases found with
    | none => exact .ok ⟨rfl, trivial⟩
    | some key =>
      obtain ⟨value, member⟩ := findSibling_mem (congrArg Prod.fst search)
      exact .ok ⟨rfl, child_held renamed member⟩

theorem walk_renamed {parent : Ref} (held : parent.Held ρ t t') (strs : List Text) :
    Alike (Option.Rel (Ref.Moved ρ t t')) (walk t parent strs) (walk t' (parent.rename ρ) strs) := by
  induction strs generalizing parent with
  | nil => exact .ok (.some ⟨rfl, held⟩)
  | cons str strs ih =>
    simp only [walk]
    split
    · exact ih held
    · apply (findNode_renamed renamed held _ _).bind
      rintro s s' ⟨rfl, below⟩
      show Alike _ (if s.isFind = true then _ else _) (if s.isFind = true then _ else _)
      split
      · exact ih below
      · exact .ok .none

theorem goto_renamed {curr : Ref} (held : curr.Held ρ t t') (path : Option Text) :
    Alike (Option.Rel (Ref.Moved ρ t t')) (goto t curr path) (goto t' (curr.rename ρ) path) := by
  cases path with
  | none => exact .ok (.some ⟨rfl, held⟩)
  | some path =>
    simp only [goto]
    split
    · exact .ok (.some ⟨rfl, held⟩)
    split
    · exact .ok (.some ⟨rfl, trivial⟩)
    · rw [start_renamed]
      exact walk_renamed renamed (start_held held path) _

end Looking

section Making
variable {ρ σ τ : Nat → Nat} {t t' u u' w w' : Doc} {r : Ref}

structure Follows (ρ σ : Nat → Nat) (t t' u u' : Doc) : Prop where
  renamed : Renamed σ u u'
  known : ∀ k, Renamed.Known ρ t t' k → Renamed.Known σ u u' k ∧ σ k = ρ k

theorem Follows.refl (renamed : Renamed ρ t t') : Follows ρ ρ t t' t t' :=
  ⟨renamed, fun _ known => ⟨known, rfl⟩⟩

theorem Follows.trans (first : Follows ρ σ t t' u u') (second : Follows σ τ u u' w w') :
    Follows ρ τ t t' w w' := by
  refine ⟨second.renamed, fun k known => ?_⟩
  obtain ⟨known', same⟩ := first.known k known
  obtain ⟨known'', same'⟩ := second.known k known'
  exact ⟨known'', same'.trans same⟩

theorem Follows.held (follows : Follows ρ σ t t' u u') (held : r.Held ρ t t') :
    r.Held σ u u' ∧ r.rename σ = r.rename ρ := by
  cases r with
  | null => exact ⟨trivial, rfl⟩
  | document => exact ⟨trivial, rfl⟩
  | element k =>
    obtain ⟨known, same⟩ := follows.known k held
    exact ⟨known, congrArg Ref.element same⟩

theorem addNode_follows (renamed : Renamed ρ t t') {p : Option Nat} (place : t.Place p)
    (place' : t'.Place (p.map ρ)) (label : Text) :
    Follows ρ (sending t.next t'.next ρ) t t' (t.addNode p place label)
        (t'.addNode (p.map ρ) place' label) := by
  refine ⟨renamed.addNode place place' label, fun k known => ?_⟩
  have same := Renamed.sending_known renamed.injective known
  refine ⟨⟨Nat.lt_succ_of_lt known.1, ?_⟩, same⟩
  rw [same]
  exact Nat.lt_succ_of_lt known.2

theorem addLeaf_follows (renamed : Renamed ρ t t') {p : Option Nat} (place : t.Place p)
    (place' : t'.Place (p.map ρ)) (content : Leaf) :
    Follows ρ ρ t t' (t.addLeaf p place content) (t'.addLeaf (p.map ρ) place' content) :=
  ⟨renamed.addLeaf place place' content, fun _ known => ⟨known, rfl⟩⟩

theorem new_held {p : Option Nat} (place : t.Place p) (place' : t'.Place (p.map ρ)) (label : Text) :
    (Ref.element t.next).Held (sending t.next t'.next ρ) (t.addNode p place label)
      (t'.addNode (p.map ρ) place' label) := by
  refine ⟨Nat.lt_succ_self t.next, ?_⟩
  rw [sending_self]
  exact Nat.lt_succ_self t'.next

def Made (ρ : Nat → Nat) (t t' : Doc) (made made' : Doc × Ref) : Prop :=
  ∃ σ, Follows ρ σ t t' made.1 made'.1 ∧ made'.2 = made.2.rename σ ∧ made.2.Held σ made.1 made'.1

theorem Made.later {made made' : Doc × Ref} (follows : Follows ρ σ t t' u u')
    (made_later : Made σ u u' made made') :
    Made ρ t t' made made' := by
  obtain ⟨τ, last, result, held⟩ := made_later
  exact ⟨τ, follows.trans last, result, held⟩

theorem createNodes_renamed (renamed : Renamed ρ t t') (title : Text) {parent : Ref}
    (parent_held : parent.Held ρ t t') (n : Nat) (held : r.Held ρ t t') :
    Alike (Made ρ t t') (createNodes title parent n t r)
        (createNodes title (parent.rename ρ) n t' (r.rename ρ)) := by
  induction n generalizing ρ t t' r with
  | zero => exact .ok ⟨ρ, .refl renamed, rfl, held⟩
  | succ n ih =>
    simp only [createNodes]
    apply (within_renamed renamed parent).bind
    rintro ⟨p, here⟩ ⟨p', here'⟩ rfl
    have follows := addNode_follows renamed here here' title
    obtain ⟨still, same⟩ := follows.held parent_held
    have rest := ih follows.renamed still (new_held here here' title)
    rw [same, Ref.rename, sending_self] at rest
    exact rest.mono fun made made' made_later => made_later.later follows

theorem findAndCreateNode_renamed (renamed : Renamed ρ t t') (held : r.Held ρ t t') (title : Text)
    (index : Int) :
    Alike (Made ρ t t') (findAndCreateNode t r title index)
        (findAndCreateNode t' (r.rename ρ) title index) := by
  unfold findAndCreateNode
  apply (findNode_renamed renamed held title index).bind
  rintro s s' ⟨rfl, found⟩
  by_cases isFind : s.isFind = true
  · simp only [Search.rename, isFind, if_true]
    exact .ok ⟨ρ, .refl renamed, rfl, found⟩
  by_cases largest : index = 2147483647
  · simp only [Search.rename, isFind, largest, if_true]
    exact .error _
  · simp only [Search.rename, isFind, largest, if_false]
    exact createNodes_renamed renamed title held _ trivial

theorem createParts_renamed (renamed : Renamed ρ t t') (held : r.Held ρ t t') (strs : List Text) :
    Alike (Made ρ t t') (createParts t r strs) (createParts t' (r.rename ρ) strs) := by
  induction strs generalizing ρ t t' r with
  | nil => exact .ok ⟨ρ, .refl renamed, rfl, held⟩
  | cons str strs ih =>
    simp only [createParts]
    apply (findAndCreateNode_renamed renamed held _ _).bind
    rintro ⟨u, next⟩ ⟨u', next'⟩ ⟨σ, follows, rfl, still⟩
    exact (ih follows.renamed still).mono fun made made' later => later.later follows

theorem createMultNode_renamed (renamed : Renamed ρ t t') (held : r.Held ρ t t') (path : Text) :
    Alike (Made ρ t t') (createMultNode t r path) (createMultNode t' (r.rename ρ) path) := by
  rw [createMultNode, createMultNode, start_renamed]
  exact createParts_renamed renamed (start_held held path) (splitStr path)

end Making

end DevAccess.Xml
