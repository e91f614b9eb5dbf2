import DevAccess.Xml.Goals

/-! AddValue puts a text behind the children of an element, and GetValue reads the first
child. The two agree on what has been added as long as all that stands behind the first
text is empty. -/
namespace DevAccess.Xml
open Foundation

def textNode (value : Text) : Forest.Child Text Leaf := .leaf (.text value)

def Leaf.text? : Forest.Child Text Leaf → Option Text
  | .leaf (.text value) => some value
  | _ => none

def Goal.OnlyText (t : Doc) : Goal → Prop
  | there (.element x) => ∀ c ∈ t.childrenAt (some x), ∃ v, c = textNode v
  | there _ => False
  | missing _ _ _ => True

def Goal.texts (t : Doc) : Goal → List Text
  | there r => (t.childrenAt r.place).filterMap Leaf.text?
  | missing _ _ _ => []

def Maker.goal (m : Maker) (path : Text) : Goal :=
  (steps (some path)).foldl (Goal.after m.opened.doc) (.there (start m.opened.curr path))

def Maker.texts (m : Maker) (path : Text) : List Text := (m.goal path).texts m.opened.doc

def Maker.Returns (m : Maker) (path : Text) : Prop :=
  m.goal path ∈ (Goal.there (start m.opened.curr path)).descents m.opened.doc (steps (some path))

instance (m : Maker) (path : Text) : Decidable (m.Returns path) := inferInstanceAs (Decidable (_ ∈ _))

section Texts
variable {t t' : Doc} {r : Ref} {g : Goal} {x : Nat}

theorem getText_head (t : Doc) (p : Option Nat) : getText t p = (t.childrenAt p).head?.bind Leaf.text? := by
  rw [getText]
  cases t.childrenAt p with
  | nil => rfl
  | cons c rest =>
    cases c with
    | node key label => rfl
    | leaf content =>
      cases content with
      | text value => rfl
      | other => rfl

theorem Goal.OnlyText.element (only : g.OnlyText t) (here : g.At t t' r) : ∃ x, r = .element x := by
  cases g with
  | there r₀ =>
    obtain ⟨rfl, -⟩ := here
    cases r with
    | null => exact absurd only id
    | document => exact absurd only id
    | element x => exact ⟨x, rfl⟩
  | missing base last above =>
    obtain ⟨-, k, same, -⟩ := here
    exact ⟨k, same⟩

theorem Goal.OnlyText.children (only : g.OnlyText t) (grows : KeyedTree.Grows t t')
    (here : g.At t t' (.element x)) : t.childrenAt (some x) = (g.texts t).map textNode := by
  cases g with
  | there r₀ =>
    obtain ⟨rfl, -⟩ := here
    have all : ∀ cs : List (Forest.Child Text Leaf), (∀ c ∈ cs, ∃ v, c = textNode v) →
        cs = (cs.filterMap Leaf.text?).map textNode := by
      intro cs texts
      induction cs with
      | nil => rfl
      | cons c rest ih =>
        obtain ⟨⟨v, rfl⟩, later⟩ := List.forall_mem_cons.mp texts
        exact congrArg _ (ih later)
    exact all _ only
  | missing base last above =>
    obtain ⟨place, k, same, stands⟩ := here
    cases same
    rw [KeyedTree.childrenAt, KeyedTree.kids_dead (stands.new grows place)]
    rfl

end Texts

section Made
variable {t t' : Doc} {g : Goal} {r : Ref} {x : Nat} {ss : List Step}

theorem made_empty (makes : MakesAll t r ss t' (.element x)) (start : g.At t t r) (sound : r.Sound t)
    (counted : ∀ s ∈ ss, s.Counted) (empty : t.childrenAt (some x) = []) :
    t'.childrenAt (some x) = [] ↔ ss.foldl (Goal.after t) g ∉ g.descents t ss := by
  have grows := (makes.spec sound).1
  have arrives := makes.at start (.refl t) sound
  constructor
  · intro nothing member
    obtain ⟨r', k, name, here, child⟩ := makes.descends start (.refl t) sound counted member
    cases arrives.same here
    have inside : .node k name ∈ t'.childrenAt (some x) := child
    rw [nothing] at inside
    cases inside
  · intro stays
    rw [List.eq_nil_iff_forall_not_mem]
    intro c member
    cases c with
    | leaf content =>
      have old := makes.leaves member
      rw [empty] at old
      cases old
    | node k name =>
      have above := KeyedTree.parent?_of_child member
      rcases makes.made start (.refl t) sound (KeyedTree.child_live member) with
        old | ⟨g', down, r', here, under⟩
      · obtain ⟨p, before⟩ := KeyedTree.parent?_some old
        cases (grows.parent before).symm.trans above
        obtain ⟨-, label, child⟩ := KeyedTree.child_of_parent? before
        rw [empty] at child
        cases child
      · have place : some x = r'.place := Option.some.inj (above.symm.trans under)
        cases r' with
        | null => cases place
        | document => cases place
        | element y =>
          cases place
          rw [arrives.unique here grows] at stays
          exact stays down

theorem made_head (makes : MakesAll t r ss t' (.element x)) (start : g.At t t r) (sound : r.Sound t)
    (counted : ∀ s ∈ ss, s.Counted) {texts : List Text}
    (children : t.childrenAt (some x) = texts.map textNode) (a b : Text) :
    (t'.childrenAt (some x) ++ [textNode a, textNode b]).head?.bind Leaf.text? =
      if texts = [] ∧ ss.foldl (Goal.after t) g ∈ g.descents t ss then none
      else (texts ++ [a, b]).head? := by
  cases texts with
  | nil =>
    have empty := made_empty makes start sound counted children
    by_cases returns : ss.foldl (Goal.after t) g ∈ g.descents t ss
    · rw [if_pos ⟨rfl, returns⟩]
      cases left : t'.childrenAt (some x) with
      | nil => exact absurd returns (empty.mp left)
      | cons c rest =>
        cases c with
        | node k name => rfl
        | leaf content =>
          have member : .leaf content ∈ t'.childrenAt (some x) := by
            rw [left]
            exact List.mem_cons_self
          have old := makes.leaves member
          rw [children] at old
          cases old
    · rw [if_neg fun both => returns both.2, empty.mpr returns]
      rfl
  | cons v rest =>
    have live : t.Live x := by
      by_contra dead
      rw [KeyedTree.childrenAt, KeyedTree.kids_dead dead] at children
      cases children
    obtain ⟨added, later, -⟩ := (makes.spec sound).1.children (some x) live
    rw [later, children, if_neg fun both => List.cons_ne_nil v rest both.1]
    rfl

end Made

section Appending
variable {m m₁ m₂ : Maker} {t : Doc} {curr : Ref} {value path a b v : Text}

theorem childrenAt_addLeaf {p : Option Nat} (place : t.Place p) (v : Text) :
    (t.addLeaf p place (.text v)).childrenAt p = t.childrenAt p ++ [textNode v] := by
  rw [KeyedTree.addLeaf, KeyedTree.childrenAt_graft_self]
  rfl

theorem childrenAt_twice {p : Option Nat} (place : t.Place p)
    (place' : (t.addLeaf p place (.text a)).Place p) :
    ((t.addLeaf p place (.text a)).addLeaf p place' (.text b)).childrenAt p =
      t.childrenAt p ++ [textNode a, textNode b] := by
  rw [childrenAt_addLeaf place', childrenAt_addLeaf place, List.append_assoc]
  rfl

theorem addValue_true (cursor : curr.Cursor t)
    (run : Maker.addValue ⟨some t, value, curr⟩ (some path) (some v) = .ok (m₁, true)) :
    ∃ t' r place, MakesAll t (start curr path) (steps (some path)) t' r ∧
      m₁ = ⟨some (t'.addLeaf r.place place (.text v)), value, curr⟩ ∧
      curr.Cursor (t'.addLeaf r.place place (.text v)) := by
  have sound := start_sound cursor.sound path
  rcases createParts_makes sound (splitStr path) with ⟨-, hangs⟩ | ⟨t', r, made, makes⟩
  · have made : createMultNode t curr path = .error .hang := hangs
    simp only [Maker.addValue, Maker.opened, made] at run
    cases run
  · have made : createMultNode t curr path = .ok (t', r) := made
    obtain ⟨grows, sound', -⟩ := makes.spec sound
    obtain ⟨place, here⟩ := within_sound sound'
    simp only [Maker.addValue, Maker.opened, made, bind, Except.bind, here, Option.getD_some] at run
    split at run
    · cases run
    · cases run
      exact ⟨t', r, place, makes, rfl, cursor.grows (grows.trans (KeyedTree.addLeaf_grows place _))⟩

theorem addValue_twice (valid : m.Valid) (only : (m.goal path).OnlyText m.opened.doc)
    (first : m.addValue (some path) (some a) = .ok (m₁, true))
    (second : m₁.addValue (some path) (some b) = .ok (m₂, true))
    (counted : ∀ s ∈ steps (some path), s.Counted) :
    m₂.getValue (some path) =
      .ok (if m.texts path = [] ∧ m.Returns path then none else (m.texts path ++ [a, b]).head?) := by
  have cursor := opened_cursor valid
  have sound := start_sound cursor.sound path
  have begins : (Goal.there (start m.opened.curr path)).At m.opened.doc m.opened.doc _ := ⟨rfl, sound⟩
  obtain ⟨t₁, r, place₁, makes₁, rfl, cursor₁⟩ := addValue_true cursor first
  have grows₁ := (makes₁.spec sound).1
  have arrives : (m.goal path).At m.opened.doc t₁ r := makes₁.at begins (.refl _) sound
  obtain ⟨x, rfl⟩ := only.element arrives
  have found₁ := lookup_grows (KeyedTree.addLeaf_grows place₁ (.text a)) (sound.grows grows₁)
    (makes₁.found sound counted)
  obtain ⟨t₂, r, place₂, makes₂, rfl, cursor₂⟩ := addValue_true cursor₁ second
  obtain ⟨rfl, rfl⟩ := makes₂.kept found₁
  have found₂ := lookup_grows (KeyedTree.addLeaf_grows place₂ (.text b))
    (start_sound cursor₁.sound path) found₁
  have children := childrenAt_twice (b := b) place₁ place₂
  have head := made_head makes₁ begins sound counted (only.children grows₁ arrives) a b
  rw [getValue_reads cursor₂ found₂, getText_head]
  exact congrArg Except.ok ((congrArg (fun cs => (List.head? cs).bind Leaf.text?) children).trans head)

theorem getValue_uncounted (cursor : curr.Cursor t) {s : Step} (member : s ∈ steps (some path))
    (uncounted : ¬ s.Counted) : Maker.getValue ⟨some t, value, curr⟩ (some path) = .ok none := by
  have found := goto_eq cursor.sound (some path)
  rw [lookup_uncounted member uncounted] at found
  simp only [Maker.getValue, found, bind, Except.bind]
  rfl

theorem head_eq_flatten (texts : List Text) (a b : Text) :
    (texts ++ [a, b]).head? = some (texts.flatten ++ a ++ b) ↔ ∀ v ∈ (texts ++ [a, b]).tail, v = [] := by
  have whole : texts.flatten ++ a ++ b = (texts ++ [a, b]).flatten := by simp
  obtain ⟨v, rest, split⟩ : ∃ v rest, texts ++ [a, b] = v :: rest := by
    cases texts with
    | nil => exact ⟨a, [b], rfl⟩
    | cons v rest => exact ⟨v, rest ++ [a, b], rfl⟩
  rw [whole, split, List.head?_cons, List.flatten_cons, Option.some.injEq, List.self_eq_append_right,
    List.flatten_eq_nil_iff, List.tail_cons]

/-- After two calls of AddValue GetValue reads all that the element holds exactly when the
texts behind the first are empty, GetValue can follow the path, and the path does not put
an element before the texts. -/
theorem addValue_appends_iff (valid : m.Valid) (only : (m.goal path).OnlyText m.opened.doc)
    (first : m.addValue (some path) (some a) = .ok (m₁, true))
    (second : m₁.addValue (some path) (some b) = .ok (m₂, true)) :
    m₂.getValue (some path) = .ok (some ((m.texts path).flatten ++ a ++ b)) ↔
      (∀ v ∈ (m.texts path ++ [a, b]).tail, v = []) ∧ (∀ s ∈ steps (some path), s.Counted) ∧
        (m.texts path = [] → ¬ m.Returns path) := by
  by_cases counted : ∀ s ∈ steps (some path), s.Counted
  · rw [addValue_twice valid only first second counted, Except.ok.injEq]
    by_cases before : m.texts path = [] ∧ m.Returns path
    · rw [if_pos before]
      exact iff_of_false nofun fun all => all.2.2 before.1 before.2
    · rw [if_neg before, head_eq_flatten]
      exact ⟨fun empty => ⟨empty, counted, not_and.mp before⟩, And.left⟩
  · refine iff_of_false (fun reads => ?_) fun all => counted all.2.1
    obtain ⟨s, uncounted⟩ := not_forall.mp counted
    obtain ⟨member, uncounted⟩ := Classical.not_imp.mp uncounted
    obtain ⟨t₁, r₁, place₁, -, rfl, cursor₁⟩ := addValue_true (opened_cursor valid) first
    obtain ⟨t₂, r₂, place₂, -, rfl, cursor₂⟩ := addValue_true cursor₁ second
    cases (getValue_uncounted cursor₂ member uncounted).symm.trans reads

theorem addValue_appends_sample :
    ∃ m₁ m₂, Maker.addValue ⟨none, [], .null⟩ (some ['a']) (some ['1']) = .ok (m₁, true) ∧
      m₁.addValue (some ['a']) (some []) = .ok (m₂, true) ∧
      m₂.getValue (some ['a']) =
        .ok (some ((Maker.texts ⟨none, [], .null⟩ ['a']).flatten ++ ['1'] ++ [])) := by
  have way : steps (some ['a']) = [.child ['a'] 0] := by decide
  have only : (Maker.goal ⟨none, [], .null⟩ ['a']).OnlyText (Maker.opened ⟨none, [], .null⟩).doc := trivial
  have stays : ¬ Maker.Returns ⟨none, [], .null⟩ ['a'] := by decide
  have valid : Maker.Valid ⟨none, [], .null⟩ := rfl
  refine ⟨_, _, rfl, rfl, (addValue_appends_iff valid only rfl rfl).mpr ⟨?_, ?_, fun _ => stays⟩⟩
  · exact fun v member => List.mem_singleton.mp member
  · rw [way]
    exact fun s member => List.mem_singleton.mp member ▸ Int.le_refl 0

theorem second_value_lost :
    ∃ m₁ m₂, Maker.Valid ⟨none, [], .null⟩ ∧
      (Maker.goal ⟨none, [], .null⟩ ['a']).OnlyText (Maker.opened ⟨none, [], .null⟩).doc ∧
      Maker.addValue ⟨none, [], .null⟩ (some ['a']) (some ['1']) = .ok (m₁, true) ∧
      m₁.addValue (some ['a']) (some ['2']) = .ok (m₂, true) ∧
      m₂.getValue (some ['a']) = .ok (some ['1']) ∧
      m₂.getValue (some ['a']) ≠
        .ok (some ((Maker.texts ⟨none, [], .null⟩ ['a']).flatten ++ ['1'] ++ ['2'])) := by
  refine ⟨_, _, rfl, trivial, rfl, rfl, rfl, ?_⟩
  decide

end Appending

end DevAccess.Xml
