import Mathlib.Data.List.TakeWhile
import DevAccess.Xml.Cursor

/-! UpdateValue and GetValue. The path is parsed twice, by the lookup and by the creation,
and both arrive at the same element; nothing else in the document changes but for the
elements that the path misses. -/
namespace DevAccess.Xml
open Foundation

def IsName (name : Text) : Prop :=
  IsTitle name ∧ '/' ∉ name ∧ ':' ∉ name

inductive NamePart : Text → Prop where
  | plain {name} (isName : IsName name) : NamePart name
  | indexed {name digits} (isName : IsName name) (decimal : CText.Decimal digits)
      (small : CText.digits 0 digits ≤ 2147483646) : NamePart (name ++ ':' :: digits)

/-- Names, "." and empty parts, at least one of them a name. -/
structure PlainPath (path : Text) : Prop where
  parts : ∀ str ∈ splitStr path, str = [] ∨ str = ['.'] ∨ NamePart str
  named : ∃ str ∈ splitStr path, NamePart str

def Step.Down : Step → Prop
  | up => False
  | child _ index => 0 ≤ index ∧ index < 2147483647

def Step.Counted : Step → Prop
  | up => True
  | child _ index => 0 ≤ index

/-- Nothing changed outside the part under x but that new elements were added at the end
of the children of some nodes. -/
structure Frame (t t' : Doc) (x : Nat) : Prop where
  live : ∀ k, t.Live k → k ∉ t.below x → t'.Live k
  label : ∀ k, t.Live k → k ∉ t.below x → t'.label? k = t.label? k
  text : ∀ p, t.Place p → t.Outside x p → getText t' p = getText t p
  children : ∀ p, t.Place p → t.Outside x p → ∃ added, t'.childrenAt p = t.childrenAt p ++ added ∧
    ∀ k name, .node k name ∈ added → ¬ t.Live k

def Missing (t t' : Doc) (r : Ref) (ss : List Step) (k : Nat) : Prop :=
  ∃ pre name index post q j, ss = pre ++ .child name index :: post ∧
    lookup t r (pre ++ [.child name index]) = none ∧ lookup t' r pre = some q ∧
    0 ≤ j ∧ j ≤ index ∧ child? t' q.place name j = some k

section Parts
variable {str name ds : Text}

theorem pass_name (noColon : ':' ∉ name) : ∀ c ∈ name, decide (c ≠ ':') = true := by
  intro c member
  have other : c ≠ ':' := by
    rintro rfl
    exact noColon member
  exact decide_eq_true other

theorem component_plain (noColon : ':' ∉ name) : component name = (name, 0) := by
  rw [component, List.dropWhile_eq_nil_iff.mpr (pass_name noColon)]

theorem component_indexed (noColon : ':' ∉ name) (decimal : CText.Decimal ds)
    (small : CText.digits 0 ds ≤ 2147483646) :
    component (name ++ ':' :: ds) = (name, (CText.digits 0 ds : Int)) := by
  have pass := pass_name noColon
  have value : CText.atoi ds = CText.digits 0 ds := by
    rw [CText.atoi, CText.scanInt_decimal decimal (by omega), Option.getD_some]
  rw [component, List.dropWhile_append_of_pos pass, List.takeWhile_append_of_pos pass]
  simp [value]

theorem stepOf_title {index : Int} (title : IsTitle name) (here : component str = (name, index)) :
    stepOf str = some (.child name index) := by
  obtain ⟨some_name, not_here, not_up⟩ := title
  simp [stepOf, here, some_name, not_here, not_up]

theorem NamePart.down (part : NamePart str) : ∃ s, stepOf str = some s ∧ s.Down := by
  cases part with
  | plain isName =>
    refine ⟨.child str 0, stepOf_title isName.1 (component_plain isName.2.2), ?_⟩
    exact ⟨Int.le_refl 0, by decide⟩
  | @indexed name ds isName decimal small =>
    refine ⟨_, stepOf_title isName.1 (component_indexed isName.2.2 decimal small), ?_⟩
    exact ⟨Int.natCast_nonneg _, by omega⟩

theorem PlainPath.down {path : Text} (plain : PlainPath path) : ∀ s ∈ steps (some path), s.Down := by
  intro s member
  obtain ⟨str, part, here⟩ := List.mem_filterMap.mp member
  rcases plain.parts str part with rfl | rfl | name
  · cases here
  · cases here
  · obtain ⟨s', same, down⟩ := name.down
    cases same.symm.trans here
    exact down

theorem PlainPath.nonempty {path : Text} (plain : PlainPath path) : steps (some path) ≠ [] := by
  obtain ⟨str, part, name⟩ := plain.named
  obtain ⟨s, here, -⟩ := name.down
  exact List.ne_nil_of_mem (List.mem_filterMap.mpr ⟨str, part, here⟩)

theorem plainPath_sample : PlainPath ['/', 'a', '/', 'b', ':', '1'] := by
  have split : splitStr ['/', 'a', '/', 'b', ':', '1'] = [[], ['a'], ['b', ':', '1']] := by decide
  have first : NamePart ['a'] := .plain (by unfold IsName IsTitle; decide)
  have one : CText.digits 0 ['1'] = 1 := rfl
  have decimal : CText.Decimal ['1'] := by
    refine ⟨List.cons_ne_nil _ _, fun c member => ?_⟩
    rw [List.mem_singleton.mp member]
    rfl
  have second : NamePart (['b'] ++ ':' :: ['1']) :=
    .indexed (by unfold IsName IsTitle; decide) decimal (by omega)
  constructor
  · rw [split]
    intro str member
    rcases List.mem_cons.mp member with rfl | member
    · exact .inl rfl
    · rcases List.mem_cons.mp member with rfl | member
      · exact .inr (.inr first)
      · rw [List.mem_singleton.mp member]
        exact .inr (.inr second)
  · exact ⟨['a'], by rw [split]; simp, first⟩

end Parts

section Make
variable {t t' : Doc} {r r' : Ref} {ss : List Step}

theorem up_grows (grows : KeyedTree.Grows t t') (sound : r.Sound t) : up t' r = up t r := by
  cases r with
  | null => rfl
  | document => rfl
  | element k =>
    obtain ⟨p, above⟩ := KeyedTree.parent?_some sound
    rw [up, up, above, grows.parent above]

theorem lookup_grows (grows : KeyedTree.Grows t t') (sound : r.Sound t) (here : lookup t r ss = some r') :
    lookup t' r ss = some r' := by
  induction ss generalizing r with
  | nil => exact here
  | cons s rest ih =>
    cases s with
    | up =>
      rw [lookup, up_grows grows sound]
      exact ih (up_sound sound) here
    | child name index =>
      obtain ⟨k, first, later⟩ := Option.bind_eq_some_iff.mp here
      rw [lookup, child?_grows grows sound.place first]
      exact ih (r := .element k) (child?_live first) later

theorem Step.Down.child {s : Step} (down : s.Down) : ∃ name index, s = .child name index ∧ 0 ≤ index := by
  cases s with
  | up => exact absurd down id
  | child name index => exact ⟨name, index, rfl, down.1⟩

theorem Step.Down.counted {s : Step} (down : s.Down) : s.Counted := by
  cases s with
  | up => trivial
  | child name index => exact down.1

theorem Makes.counted {name : Text} {index : Int} (makes : Makes t r (.child name index) t' r')
    (nonneg : 0 ≤ index) : ∃ k, r' = .element k ∧
      (child? t r.place name index = some k ∧ t' = t ∨ Added t t' r.place name index k) := by
  cases makes with
  | found here => exact ⟨_, rfl, .inl ⟨here, rfl⟩⟩
  | negative below => exact absurd below (Int.not_lt.mpr nonneg)
  | added added => exact ⟨_, rfl, .inr added⟩

theorem Makes.down {s : Step} (makes : Makes t r s t' r') (down : s.Down) :
    ∃ name index k, s = .child name index ∧ r' = .element k ∧
      (child? t r.place name index = some k ∧ t' = t ∨ Added t t' r.place name index k) := by
  obtain ⟨name, index, rfl, nonneg⟩ := down.child
  obtain ⟨k, same, made⟩ := makes.counted nonneg
  exact ⟨name, index, k, rfl, same, made⟩

theorem child?_made {t'' : Doc} {name : Text} {index : Int} {k : Nat} (sound : r.Sound t)
    (made : child? t r.place name index = some k ∧ t' = t ∨ Added t t' r.place name index k)
    (grows : KeyedTree.Grows t' t'') : child? t'' r.place name index = some k := by
  rcases made with ⟨here, rfl⟩ | added
  · exact child?_grows grows sound.place here
  · obtain ⟨n, copies⟩ := added.copies
    exact child?_grows grows (copies.place sound.place) added.found

theorem MakesAll.found (makes : MakesAll t r ss t' r') (sound : r.Sound t)
    (counted : ∀ s ∈ ss, s.Counted) : lookup t' r ss = some r' := by
  induction makes with
  | nil => rfl
  | @cons t r s t₁ r₁ rest t' r' first later ih =>
    obtain ⟨first_counted, rest_counted⟩ := List.forall_mem_cons.mp counted
    have sound' := first.sound sound
    have grows := (later.spec sound').1
    have found := ih sound' rest_counted
    cases s with
    | up =>
      cases first with
      | up =>
        rw [lookup, up_grows grows sound]
        exact found
    | child name index =>
      obtain ⟨k, rfl, made⟩ := first.counted first_counted
      rw [lookup, child?_made sound made grows]
      exact found

theorem lookup_down {s : Step} (down : ∀ s' ∈ s :: ss, s'.Down) (here : lookup t r (s :: ss) = some r') :
    (∃ name index k, s = .child name index ∧ child? t r.place name index = some k ∧
      lookup t (.element k) ss = some r') ∧ ∀ s' ∈ ss, s'.Down := by
  obtain ⟨first_down, rest_down⟩ := List.forall_mem_cons.mp down
  obtain ⟨name, index, rfl, -⟩ := first_down.child
  obtain ⟨k, first, later⟩ := Option.bind_eq_some_iff.mp here
  exact ⟨⟨name, index, k, rfl, first, later⟩, rest_down⟩

theorem lookup_childless {k : Nat} (childless : t.childrenAt (some k) = []) (down : ∀ s ∈ ss, s.Down)
    (here : lookup t (.element k) ss = some r) : r = .element k := by
  cases ss with
  | nil =>
    cases here
    rfl
  | cons s rest =>
    obtain ⟨⟨name, index, b, -, first, -⟩, -⟩ := lookup_down down here
    have member : _ ∈ t.childrenAt (some k) := child?_mem first
    rw [childless] at member
    cases member

theorem MakesAll.outcome (makes : MakesAll t r ss t' r') (sound : r.Sound t) (down : ∀ s ∈ ss, s.Down) :
    (lookup t r ss = some r' ∧ t' = t) ∨
      (lookup t r ss = none ∧ ∃ x, r' = .element x ∧ ¬ t.Live x ∧ t'.childrenAt (some x) = []) := by
  induction makes with
  | nil => exact .inl ⟨rfl, rfl⟩
  | cons first later ih =>
    obtain ⟨first_down, rest_down⟩ := List.forall_mem_cons.mp down
    have outcome := ih (first.sound sound) rest_down
    obtain ⟨name, index, k, rfl, rfl, made⟩ := first.down first_down
    rcases made with ⟨here, rfl⟩ | added
    · rw [lookup, here]
      exact outcome
    · refine .inr ⟨by rw [lookup, added.absent]; rfl, ?_⟩
      rcases outcome with ⟨found, rfl⟩ | ⟨-, x, rfl, new, childless⟩
      · exact ⟨k, lookup_childless added.childless rest_down found, added.fresh, added.childless⟩
      · obtain ⟨n, copies⟩ := added.copies
        exact ⟨x, rfl, fun live => new (copies.grows.live x live), childless⟩

theorem Missing.grows {k : Nat} {t'' : Doc} (missing : Missing t t' r ss k) (grows : KeyedTree.Grows t' t'')
    (sound : r.Sound t') : Missing t t'' r ss k := by
  obtain ⟨pre, name, index, post, q, j, split, absent, reached, low, high, here⟩ := missing
  exact ⟨pre, name, index, post, q, j, split, absent, lookup_grows grows sound reached, low, high,
    child?_grows grows (lookup_sound sound reached).place here⟩

theorem Missing.later {t₁ : Doc} {p : Ref} {name : Text} {index : Int} {b k : Nat}
    (missing : Missing t₁ t' (.element b) ss k) (here : child? t' p.place name index = some b)
    (made : child? t p.place name index = some b ∧ t₁ = t ∨ Added t t₁ p.place name index b) :
    Missing t t' p (.child name index :: ss) k := by
  obtain ⟨pre, name', index', post, q, j, rfl, absent, reached, low, high, there⟩ := missing
  refine ⟨.child name index :: pre, name', index', post, q, j, rfl, ?_, ?_, low, high, there⟩
  · rw [List.cons_append, lookup]
    rcases made with ⟨found, rfl⟩ | added
    · rw [found]
      exact absent
    · rw [added.absent]
      rfl
  · rw [lookup, here]
    exact reached

theorem MakesAll.only (makes : MakesAll t r ss t' r') (sound : r.Sound t) (down : ∀ s ∈ ss, s.Down) :
    ∀ k, t'.Live k → t.Live k ∨ Missing t t' r ss k := by
  induction makes with
  | nil => exact fun k live => .inl live
  | @cons t r s t₁ r₁ rest t' r' first later ih =>
    intro k live
    obtain ⟨first_down, rest_down⟩ := List.forall_mem_cons.mp down
    have sound' := first.sound sound
    have grows := (later.spec sound').1
    have rest_only := ih sound' rest_down k live
    obtain ⟨name, index, b, rfl, rfl, made⟩ := first.down first_down
    rcases rest_only with early | missing
    · rcases made with ⟨-, rfl⟩ | added
      · exact .inl early
      · rcases added.only k early with old | ⟨j, low, high, here⟩
        · exact .inl old
        · obtain ⟨n, copies⟩ := added.copies
          have there := child?_grows grows (copies.place sound.place) here
          refine .inr ⟨[], name, index, rest, r, j, rfl, ?_, rfl, low, high, there⟩
          rw [List.nil_append, lookup, added.absent]
          rfl
    · exact .inr (missing.later (child?_made sound made grows) made)

theorem getText_copies {p q : Option Nat} {name : Text} {n : Nat} (copies : KeyedTree.Copies t t' p name n)
    (place : t.Place q) : getText t' q = getText t q := by
  by_cases here : p = q
  · subst here
    rw [getText, getText, copies.children]
    cases t.childrenAt p with
    | cons c rest =>
      cases c with
      | node key label => rfl
      | leaf content =>
        cases content with
        | text value => rfl
        | other => rfl
    | nil =>
      cases n with
      | zero => rfl
      | succ n => rfl
  · rw [getText, getText, copies.other q place here]

theorem MakesAll.text (makes : MakesAll t r ss t' r') {p : Option Nat} (place : t.Place p) :
    getText t' p = getText t p := by
  induction makes with
  | nil => rfl
  | cons first later ih =>
    cases first with
    | up => exact ih place
    | found here => exact ih place
    | negative below => exact ih place
    | added added =>
      obtain ⟨n, copies⟩ := added.copies
      rw [ih (copies.place place), getText_copies copies place]

end Make

section Cut
variable {t : Doc} {x : Nat} {ss : List Step}

theorem lookup_below {a : Nat} (down : ∀ s ∈ ss, s.Down)
    (here : lookup t (.element a) ss = some (.element x)) : x = a ∨ x ∈ t.below a := by
  induction ss generalizing a with
  | nil =>
    cases here
    exact .inl rfl
  | cons s rest ih =>
    obtain ⟨⟨name, index, k, rfl, first, later⟩, rest_down⟩ := lookup_down down here
    have under : k ∈ t.below a := KeyedTree.child_below (child?_mem first)
    rcases ih rest_down later with rfl | deeper
    · exact .inr under
    · exact .inr (KeyedTree.below_trans under deeper)

theorem way_outside {a : Nat} (down : ∀ s ∈ ss, s.Down)
    (here : lookup t (.element a) ss = some (.element x)) : a ∉ t.below x := by
  intro under
  rcases lookup_below down here with rfl | above
  · exact KeyedTree.not_below_self t x under
  · exact KeyedTree.not_below_self t x (KeyedTree.below_trans under above)

theorem way_sound {r : Ref} (live : t.Live x) (sound : r.Sound t) (down : ∀ s ∈ ss, s.Down)
    (here : lookup t r ss = some (.element x)) : r.Sound (t.clear x live) := by
  cases r with
  | null => trivial
  | document => trivial
  | element a => exact (KeyedTree.live_clear live).mpr ⟨sound, way_outside down here⟩

theorem lookup_clear {r : Ref} (live : t.Live x) (down : ∀ s ∈ ss, s.Down)
    (here : lookup t r ss = some (.element x)) : lookup (t.clear x live) r ss = some (.element x) := by
  induction ss generalizing r with
  | nil => exact here
  | cons s rest ih =>
    obtain ⟨⟨name, index, k, rfl, first, later⟩, rest_down⟩ := lookup_down down here
    have outside : t.Outside x r.place := by
      cases r with
      | null => trivial
      | document => trivial
      | element a =>
        refine ⟨?_, way_outside down here⟩
        rintro rfl
        exact way_outside rest_down later (KeyedTree.child_below (child?_mem first))
    have same : child? (t.clear x live) r.place name index = child? t r.place name index := by
      rw [child?, child?, named, named, elements, elements, KeyedTree.childrenAt_clear_other live outside]
    rw [lookup, same, first]
    exact ih rest_down later

end Cut

section Update
variable {t t' : Doc} {r : Ref} {x : Nat} {v : Text}

theorem childrenAt_put (place : t.Place (some x)) (childless : t.childrenAt (some x) = []) :
    (t.addLeaf (some x) place (.text v)).childrenAt (some x) = [.leaf (.text v)] := by
  rw [KeyedTree.addLeaf, KeyedTree.childrenAt_graft_self, childless]
  rfl

theorem Frame.place (frame : Frame t t' x) {p : Option Nat} (place : t.Place p) (outside : t.Outside x p) :
    t'.Place p := by
  cases p with
  | none => trivial
  | some k => exact frame.live k place outside.2

theorem Frame.put (frame : Frame t t' x) (place : t'.Place (some x)) :
    Frame t (t'.addLeaf (some x) place (.text v)) x := by
  have grows := KeyedTree.addLeaf_grows place (.text v)
  have other (p : Option Nat) (here : t.Place p) (outside : t.Outside x p) :
      (t'.addLeaf (some x) place (.text v)).childrenAt p = t'.childrenAt p := by
    apply KeyedTree.childrenAt_graft_other place _ (frame.place here outside)
    rintro rfl
    exact outside.1 rfl
  refine ⟨?_, ?_, ?_, ?_⟩
  · exact fun k live outside => grows.live k (frame.live k live outside)
  · intro k live outside
    rw [grows.label k (frame.live k live outside), frame.label k live outside]
  · intro p here outside
    rw [getText, other p here outside]
    exact frame.text p here outside
  · intro p here outside
    rw [other p here outside]
    exact frame.children p here outside

theorem frame_clear (live : t.Live x) : Frame t (t.clear x live) x where
  live k live_k outside := (KeyedTree.live_clear live).mpr ⟨live_k, outside⟩
  label k _ outside := KeyedTree.label?_clear live outside
  text p _ outside := by rw [getText, getText, KeyedTree.childrenAt_clear_other live outside]
  children p _ outside := ⟨[], by rw [KeyedTree.childrenAt_clear_other live outside, List.append_nil],
    fun _ _ member => absurd member List.not_mem_nil⟩

theorem MakesAll.frame {ss : List Step} {r' : Ref} (makes : MakesAll t r ss t' r') (sound : r.Sound t) :
    Frame t t' x where
  live k live _ := (makes.spec sound).1.live k live
  label k live _ := (makes.spec sound).1.label k live
  text _ place _ := makes.text place
  children p place _ := (makes.spec sound).1.children p place

theorem lookup_element {ss : List Step} {r' : Ref} (down : ∀ s ∈ ss, s.Down) (some_step : ss ≠ [])
    (here : lookup t r ss = some r') : ∃ x, r' = .element x := by
  induction ss generalizing r with
  | nil => exact absurd rfl some_step
  | cons s rest ih =>
    obtain ⟨⟨name, index, k, rfl, -, later⟩, rest_down⟩ := lookup_down down here
    cases rest with
    | nil =>
      cases later
      exact ⟨k, rfl⟩
    | cons s' rest' => exact ih rest_down (List.cons_ne_nil _ _) later

theorem getValue_reads {value path : Text} {curr : Ref} (cursor : curr.Cursor t)
    (here : lookup t (start curr path) (steps (some path)) = some (.element x)) :
    Maker.getValue ⟨some t, value, curr⟩ (some path) = .ok (getText t (some x)) := by
  have found := goto_eq cursor.sound (some path)
  rw [origin, here] at found
  have live : t.Live x := lookup_sound (start_sound cursor.sound path) here
  simp only [Maker.getValue, found, bind, Except.bind, within, live, dite_true]
  rfl

theorem getValue_found {value path : Text} {curr : Ref} (cursor : curr.Cursor t)
    (here : lookup t (start curr path) (steps (some path)) = some (.element x))
    (children : t.childrenAt (some x) = [.leaf (.text v)]) :
    Maker.getValue ⟨some t, value, curr⟩ (some path) = .ok (some v) := by
  rw [getValue_reads cursor here, getText, children]

variable {m : Maker} {path : Text}

theorem updateValue_missing (valid : m.Valid) (target : m.target (some path) = none)
    (made : createMultNode m.opened.doc m.opened.curr path = .ok (t', .element x)) (live : t'.Live x) :
    ∃ place, m.updateValue (some path) (some v) =
      .ok (⟨some (t'.addLeaf (some x) place (.text v)), m.opened.value, m.opened.curr⟩, true) := by
  refine ⟨live, ?_⟩
  have made' : createMultNode m.opened.maker.opened.doc m.opened.maker.opened.curr path =
    .ok (t', .element x) := made
  simp only [Maker.updateValue, goto_target valid, target, bind, Except.bind, Maker.addValue, made',
    reduceCtorEq, if_false, within, live, dite_true, Option.getD_some]
  rfl

/-- UpdateValue on a path of names stores the value where GetValue reads it, and outside
the element that is written it only adds what the path misses. -/
theorem update_then_get (valid : m.Valid) (plain : PlainPath path) (v : Text) :
    ∃ t' x, m.updateValue (some path) (some v) =
        .ok (⟨some t', m.opened.value, m.opened.curr⟩, true) ∧
      (m.opened.curr.Cursor t' →
        Maker.getValue ⟨some t', m.opened.value, m.opened.curr⟩ (some path) = .ok (some v)) ∧
      (m.target (some path) = some (.element x) ∨
        m.target (some path) = none ∧ ¬ m.opened.doc.Live x) ∧
      Frame m.opened.doc t' x ∧
      ∀ k, t'.Live k → m.opened.doc.Live k ∨
        Missing m.opened.doc t' (start m.opened.curr path) (steps (some path)) k := by
  have down := plain.down
  have sound := start_sound (opened_cursor valid).sound path
  cases target : m.target (some path) with
  | some r =>
    obtain ⟨x, rfl⟩ := lookup_element down plain.nonempty target
    have live : m.opened.doc.Live x := target_sound valid target
    obtain ⟨stays, run⟩ := updateValue_found valid live target (some v)
    have way := lookup_clear live down target
    have grows := KeyedTree.addLeaf_grows stays (.text v)
    have way' := lookup_grows grows (way_sound live sound down target) way
    refine ⟨_, x, run, fun cursor => ?_, .inl rfl, (frame_clear live).put stays, fun k live_k => ?_⟩
    · exact getValue_found cursor way' (childrenAt_put stays (KeyedTree.childrenAt_clear_self live))
    · have cleared := (KeyedTree.live_addLeaf stays (.text v) k).mp live_k
      exact .inl ((KeyedTree.live_clear live).mp cleared).1
  | none =>
    rcases createParts_makes sound (splitStr path) with ⟨⟨name, member⟩, -⟩ | ⟨t', r', made, makes⟩
    · have := down _ member
      exact absurd this.2 (by omega)
    · rcases makes.outcome sound down with ⟨found, -⟩ | ⟨-, x, rfl, new, childless⟩
      · cases target.symm.trans found
      · obtain ⟨grows, live, -⟩ := makes.spec sound
        obtain ⟨place, run⟩ := updateValue_missing (v := v) valid target made live
        have later := KeyedTree.addLeaf_grows place (.text v)
        have found := makes.found sound fun s member => (down s member).counted
        have way := lookup_grows later (sound.grows grows) found
        refine ⟨_, x, run, fun cursor => ?_, .inr ⟨rfl, new⟩, (makes.frame sound).put place,
          fun k live_k => ?_⟩
        · exact getValue_found cursor way (childrenAt_put place childless)
        · rcases makes.only sound down k ((KeyedTree.live_addLeaf place (.text v) k).mp live_k) with
          old | missing
          · exact .inl old
          · exact .inr (missing.grows later (sound.grows grows))

theorem update_then_get_sample :
    ∃ t', Maker.updateValue ⟨none, [], .null⟩ (some ['/', 'a', '/', 'b', ':', '1']) (some ['x']) =
        .ok (⟨some t', [], .null⟩, true) ∧
      Maker.getValue ⟨some t', [], .null⟩ (some ['/', 'a', '/', 'b', ':', '1']) = .ok (some ['x']) := by
  have valid : Maker.Valid ⟨none, [], .null⟩ := rfl
  obtain ⟨t', x, run, reads, -⟩ := update_then_get valid plainPath_sample ['x']
  exact ⟨t', run, reads trivial⟩

end Update

end DevAccess.Xml
