import DevAccess.Xml.Maker
import DevAccess.Xml.Paths

/-! What the cursor of a maker points to. Every call keeps it null or a live element, but
for five ways of leaving it behind or of using a null pointer, and these are stated on the
state before the call. -/
namespace DevAccess.Xml
open Foundation

def Ref.Cursor (t : Doc) : Ref → Prop
  | .null => True
  | .document => False
  | .element k => t.Live k

def Maker.Valid (m : Maker) : Prop :=
  match m.doc with
  | none => m.curr = .null
  | some t => m.curr.Cursor t

def Session.Valid : Session → Prop
  | running m => m.Valid
  | crashed => False

inductive Level where
  | null
  | document
  | inside (depth : Nat)
deriving DecidableEq

def level (t : Doc) : Ref → Level
  | .null => .null
  | .document => .document
  | .element k => .inside (t.depth k)

def Level.after : Level → Step → Level
  | null, .up => null
  | document, .up => null
  | inside 0, .up => document
  | inside (d + 1), .up => inside d
  | l, .child _ index =>
    if index < 0 then null
    else match l with
      | null | document => inside 0
      | inside d => inside (d + 1)

def Maker.target (m : Maker) (path : Option Text) : Option Ref :=
  lookup m.opened.doc (origin m.opened.curr path) (steps path)

def Maker.landing (m : Maker) (path : Text) : Level :=
  (steps (some path)).foldl Level.after (level m.opened.doc (start m.opened.curr path))

def Ref.Under (t : Doc) (x : Nat) : Ref → Prop
  | .element k => k ∈ t.below x
  | _ => False

def Op.Safe (m : Maker) : Op → Prop
  | parse _ => m.curr = .null
  | parseFile _ _ => m.curr = .null
  | goto path => m.target path ≠ some .document
  | addNode (some path) => m.landing path ≠ .document
  | updateValue (some path) _ =>
    m.target (some path) ≠ some .null ∧ (m.target (some path) = some .document → m.curr = .null) ∧
      ∀ x, m.target (some path) = some (.element x) → ¬ m.curr.Under m.opened.doc x
  | eraseValue path =>
    m.target path ≠ some .null ∧
      ∀ x, m.target path = some (.element x) → ¬ m.curr.Under m.opened.doc x
  | _ => True

section Cursor
variable {t t' : Doc} {r : Ref}

theorem Ref.Cursor.sound (cursor : r.Cursor t) : r.Sound t := by
  cases r with
  | null => trivial
  | document => trivial
  | element k => exact cursor

theorem Ref.Cursor.grows (cursor : r.Cursor t) (grows : KeyedTree.Grows t t') : r.Cursor t' := by
  cases r with
  | null => trivial
  | document => exact cursor
  | element k => exact grows.live k cursor

theorem cursor_gone (cursor : r.Cursor t) (gone : ∀ k, t.Live k → ¬ t'.Live k) :
    r.Cursor t' ↔ r = .null := by
  cases r with
  | null => exact iff_of_true trivial rfl
  | document => exact absurd cursor id
  | element k => exact iff_of_false (gone k cursor) (by simp)

theorem cursor_cut {x : Nat} (cursor : r.Cursor t)
    (left : ∀ k, r = .element k → t.Live k → (t'.Live k ↔ k ∉ t.below x)) :
    r.Cursor t' ↔ ¬ r.Under t x := by
  cases r with
  | null => exact iff_of_true trivial id
  | document => exact absurd cursor id
  | element k => exact left k rfl cursor

theorem valid_cursor {m : Maker} (valid : m.Valid) (here : m.doc = some t) : m.curr.Cursor t := by
  simpa only [Maker.Valid, here] using valid

theorem opened_cursor {m : Maker} (valid : m.Valid) : m.opened.curr.Cursor m.opened.doc := by
  unfold Maker.Valid at valid
  unfold Maker.opened
  split at valid
  · rename_i none_yet
    rw [none_yet]
    trivial
  · rename_i t here
    rw [here]
    exact valid

theorem opened_curr {m : Maker} (valid : m.Valid) : m.opened.curr = m.curr := by
  unfold Maker.Valid at valid
  unfold Maker.opened
  split at valid
  · rename_i none_yet
    rw [none_yet, valid]
  · rename_i t here
    rw [here]

theorem goto_target {m : Maker} (valid : m.Valid) (path : Option Text) :
    goto m.opened.doc m.opened.curr path = .ok (m.target path) :=
  goto_eq (opened_cursor valid).sound path

theorem target_sound {m : Maker} (valid : m.Valid) {path : Option Text} (here : m.target path = some r) :
    r.Sound m.opened.doc :=
  lookup_sound (origin_sound (opened_cursor valid).sound path) here

end Cursor

section Level
variable {t t' : Doc} {r r' : Ref}

theorem level_child {p : Ref} {name : Text} {index : Int} {k : Nat}
    (here : child? t p.place name index = some k) :
    level t (.element k) = (level t p).after (.child name index) := by
  have nonneg : ¬ index < 0 := by
    intro below
    rw [child?, if_neg (by omega)] at here
    cases here
  have under := KeyedTree.parent?_of_child (child?_mem here)
  cases p with
  | null => simp [level, Level.after, nonneg, KeyedTree.depth_top under]
  | document => simp [level, Level.after, nonneg, KeyedTree.depth_top under]
  | element q => simp [level, Level.after, nonneg, KeyedTree.depth_under under]

theorem level_up (sound : r.Sound t) : level t (up t r) = (level t r).after .up := by
  cases r with
  | null => rfl
  | document => rfl
  | element k =>
    obtain ⟨p, here⟩ := KeyedTree.parent?_some sound
    cases p with
    | none => simp [up, here, level, KeyedTree.depth_top here, Level.after]
    | some q => simp [up, here, level, KeyedTree.depth_under here, Level.after]

theorem level_grows (grows : KeyedTree.Grows t t') (sound : r.Sound t) : level t' r = level t r := by
  cases r with
  | null => rfl
  | document => rfl
  | element k => rw [level, level, grows.depth sound]

theorem Makes.grows {s : Step} (makes : Makes t r s t' r') : KeyedTree.Grows t t' := by
  cases makes with
  | up => exact .refl t
  | found => exact .refl t
  | negative => exact .refl t
  | added added =>
    obtain ⟨n, copies⟩ := added.copies
    exact copies.grows

theorem Makes.level {s : Step} (makes : Makes t r s t' r') (sound : r.Sound t) :
    Xml.level t' r' = (Xml.level t r).after s := by
  cases makes with
  | up => exact level_up sound
  | found here => exact level_child here
  | negative below => simp [Xml.level, Level.after, below]
  | added added =>
    obtain ⟨n, copies⟩ := added.copies
    rw [← level_grows copies.grows sound]
    exact level_child added.found

theorem MakesAll.spec {ss : List Step} (makes : MakesAll t r ss t' r') (sound : r.Sound t) :
    KeyedTree.Grows t t' ∧ r'.Sound t' ∧ Xml.level t' r' = ss.foldl Level.after (Xml.level t r) := by
  induction makes with
  | nil => exact ⟨.refl _, sound, rfl⟩
  | cons first later ih =>
    obtain ⟨grows, sound', lands⟩ := ih (first.sound sound)
    exact ⟨first.grows.trans grows, sound', by rw [lands, first.level sound]; rfl⟩

end Level

def Ends (G : Prop) : Call Maker → Prop
  | .ok m => m.Valid ↔ G
  | .error .fault => ¬ G
  | .error .hang => True

section Calls
variable {m : Maker}

theorem load_valid {o : Opened} (cursor : o.curr.Cursor o.doc) (content : Option (Forest Text Leaf)) :
    (o.load content).1.maker.Valid ↔ o.curr = .null := by
  have gone (k : Nat) (live : o.doc.Live k) : ¬ (o.load content).1.doc.Live k := by
    have old := o.doc.fresh k live
    cases content with
    | none => exact List.not_mem_nil
    | some content => exact fun new => Nat.lt_irrefl _ (Nat.lt_of_lt_of_le old (KeyedTree.fill_fresh new))
  have kept : (o.load content).1.curr = o.curr := by
    cases content with
    | none => rfl
    | some content => rfl
  change (o.load content).1.curr.Cursor (o.load content).1.doc ↔ _
  rw [kept]
  exact cursor_gone cursor gone

theorem allocated_cursor (valid : m.Valid) : m.allocated.curr.Cursor m.allocated.doc := by
  unfold Maker.Valid at valid
  unfold Maker.allocated
  split at valid
  · rename_i none_yet
    simp [none_yet, valid, Ref.Cursor]
  · rename_i t here
    rw [here]
    exact valid

theorem allocated_curr (m : Maker) : m.allocated.curr = m.curr := by
  unfold Maker.allocated
  split
  · rfl
  · rfl

theorem opened_valid (valid : m.Valid) : m.opened.maker.Valid := opened_cursor valid

theorem goto_ends (valid : m.Valid) (path : Option Text) :
    Ends ((Op.goto path).Safe m) ((Op.goto path).run m) := by
  have found := goto_target valid path
  cases target : m.target path with
  | none =>
    rw [Op.run, Maker.goto]
    simp only [found, target]
    exact iff_of_true (opened_valid valid) (by simp [Op.Safe, target])
  | some r =>
    have sound := target_sound valid target
    rw [Op.run, Maker.goto]
    simp only [found, target]
    cases r with
    | null => exact iff_of_true trivial (by simp [Op.Safe, target])
    | document => exact iff_of_false id (by simp [Op.Safe, target])
    | element k => exact iff_of_true sound (by simp [Op.Safe, target])

theorem parse_ends (valid : m.Valid) (content : Option (Forest Text Leaf)) :
    Ends ((Op.parse content).Safe m) ((Op.parse content).run m) := by
  have loaded := load_valid (allocated_cursor valid) content
  rw [allocated_curr] at loaded
  exact loaded

theorem parseFile_ends (valid : m.Valid) (file : Text) (content : Option (Forest Text Leaf)) :
    Ends ((Op.parseFile file content).Safe m) ((Op.parseFile file content).run m) := by
  have loaded := load_valid (o := { m.allocated with value := file }) (allocated_cursor valid) content
  rw [allocated_curr] at loaded
  exact loaded

theorem gotoFirstChild_ends (valid : m.Valid) : Ends True (Op.gotoFirstChild.run m) := by
  rw [Op.run, Maker.gotoFirstChild]
  cases here : m.doc with
  | none => exact iff_of_true valid trivial
  | some t =>
    have cursor := valid_cursor valid here
    obtain ⟨place, at_place⟩ := within_sound cursor.sound
    simp only [at_place, bind, Except.bind]
    cases first : elements t m.curr.place with
    | nil => exact iff_of_true valid trivial
    | cons e rest =>
      have member : (e.1, e.2) ∈ elements t m.curr.place := by rw [first]; exact List.mem_cons_self
      exact iff_of_true (KeyedTree.child_live (mem_elements.mp member)) trivial

theorem next_ends (valid : m.Valid) (path : Option Text) : Ends True ((Op.next path).run m) := by
  rw [Op.run, Maker.next.eq_def]
  cases curr : m.curr with
  | null => exact iff_of_true valid trivial
  | document => exact iff_of_true valid trivial
  | element k =>
    cases here : m.doc with
    | none => simp [Maker.Valid, here, curr] at valid
    | some t =>
      have live : t.Live k := by
        have cursor := valid_cursor valid here
        rw [curr] at cursor
        exact cursor
      obtain ⟨p, above⟩ := KeyedTree.parent?_some live
      simp only [above]
      cases found : nextSibling k path (elements t p) with
      | none => exact iff_of_true valid trivial
      | some e =>
        have later := List.mem_of_find?_eq_some found
        have member : (e.1, e.2) ∈ elements t p :=
          (List.dropWhile_sublist _).subset (List.mem_of_mem_tail later)
        exact iff_of_true (KeyedTree.child_live (mem_elements.mp member)) trivial

theorem getValue_ends (valid : m.Valid) (title : Option Text) : Ends True ((Op.getValue title).run m) := by
  rw [Op.run, Maker.getValue]
  cases here : m.doc with
  | none => exact iff_of_true valid trivial
  | some t =>
    have cursor := valid_cursor valid here
    have found := goto_eq cursor.sound title
    simp only [found, bind, Except.bind]
    cases target : lookup t (origin m.curr title) (steps title) with
    | none => exact iff_of_true valid trivial
    | some r =>
      have sound : r.Sound t := lookup_sound (origin_sound cursor.sound title) target
      cases r with
      | null => exact iff_of_true valid trivial
      | document => exact iff_of_true valid trivial
      | element k =>
        obtain ⟨place, at_place⟩ := within_sound sound
        simp only [at_place]
        exact iff_of_true valid trivial

theorem getNodeName_ends (valid : m.Valid) (path : Option Text) :
    Ends True ((Op.getNodeName path).run m) := by
  rw [Op.run, Maker.getNodeName]
  simp only [goto_target valid path, bind, Except.bind]
  cases target : m.target path with
  | none => exact iff_of_true (opened_valid valid) trivial
  | some r =>
    cases r with
    | null => exact iff_of_true (opened_valid valid) trivial
    | document => exact iff_of_true (opened_valid valid) trivial
    | element k =>
      have live : m.opened.doc.Live k := target_sound valid target
      obtain ⟨label, found⟩ := KeyedTree.find?_kids live
      simp only [KeyedTree.label?, found, Option.map_some]
      exact iff_of_true (opened_valid valid) trivial

theorem cursor_iff_level {t : Doc} {r : Ref} (sound : r.Sound t) : r.Cursor t ↔ level t r ≠ .document := by
  cases r with
  | null => exact iff_of_true trivial (by simp [level])
  | document => exact iff_of_false id (by simp [level])
  | element k => exact iff_of_true sound (by simp [level])

theorem simpleAddNode_ends (valid : m.Valid) (path : Option Text) :
    Ends True ((Op.simpleAddNode path).run m) := by
  cases path with
  | none => exact iff_of_true valid trivial
  | some path =>
    obtain ⟨place, at_place⟩ := within_sound (opened_cursor valid).sound
    rw [Op.run, Maker.simpleAddNode]
    simp only [at_place, bind, Except.bind]
    have copies := KeyedTree.copies_addNode place path
    exact iff_of_true ((copies.live _).mpr (.inr ⟨Nat.le_refl _, Nat.lt_succ_self _⟩)) trivial

theorem addNode_ends (valid : m.Valid) (path : Option Text) :
    Ends ((Op.addNode path).Safe m) ((Op.addNode path).run m) := by
  cases path with
  | none => exact iff_of_true (opened_valid valid) trivial
  | some path =>
    have sound := start_sound (opened_cursor valid).sound path
    rw [Op.run, Maker.addNode]
    simp only [createMultNode]
    rcases createParts_makes sound (splitStr path) with ⟨-, hangs⟩ | ⟨t', r', run, makes⟩
    · rw [hangs]
      trivial
    · obtain ⟨-, sound', lands⟩ := makes.spec sound
      rw [run]
      exact (cursor_iff_level sound').trans (by rw [lands]; rfl)

theorem addValue_ends (valid : m.Valid) (title val : Option Text) :
    Ends True ((Op.addValue title val).run m) := by
  cases title with
  | none => exact iff_of_true valid trivial
  | some title =>
    have sound := start_sound (opened_cursor valid).sound title
    rw [Op.run, Maker.addValue.eq_def]
    simp only [createMultNode]
    rcases createParts_makes sound (splitStr title) with ⟨-, hangs⟩ | ⟨t', r', run, makes⟩
    · rw [hangs]
      trivial
    · obtain ⟨grows, sound', -⟩ := makes.spec sound
      have cursor := (opened_cursor valid).grows grows
      obtain ⟨place, at_place⟩ := within_sound sound'
      simp only [run, bind, Except.bind]
      by_cases null : r' = .null
      · rw [if_pos null]
        exact iff_of_true cursor trivial
      · rw [if_neg null, at_place]
        exact iff_of_true (cursor.grows (KeyedTree.addLeaf_grows place _)) trivial

theorem simpleAddValue_ends (valid : m.Valid) (title val : Option Text) :
    Ends True ((Op.simpleAddValue title val).run m) := by
  cases title with
  | none => exact iff_of_true valid trivial
  | some title =>
    obtain ⟨place, at_place⟩ := within_sound (opened_cursor valid).sound
    have copies := KeyedTree.copies_addNode place title
    have added : (Ref.element m.opened.doc.next).Sound (m.opened.doc.addNode _ place title) :=
      (copies.live _).mpr (.inr ⟨Nat.le_refl _, Nat.lt_succ_self _⟩)
    obtain ⟨place', at_added⟩ := within_sound added
    rw [Op.run, Maker.simpleAddValue.eq_def]
    simp only [at_place, bind, Except.bind, at_added]
    exact iff_of_true (((opened_cursor valid).grows copies.grows).grows
      (KeyedTree.addLeaf_grows place' _)) trivial

theorem updateValue_found {x : Nat} {title : Text} (valid : m.Valid) (live : m.opened.doc.Live x)
    (target : m.target (some title) = some (.element x)) (val : Option Text) :
    ∃ stays, m.updateValue (some title) val = .ok (⟨some ((m.opened.doc.clear x live).addLeaf (some x)
      stays (.text (val.getD []))), m.opened.value, m.opened.curr⟩, true) := by
  have stays : (m.opened.doc.clear x live).Live x :=
    (KeyedTree.live_clear live).mpr ⟨live, KeyedTree.not_below_self _ x⟩
  refine ⟨stays, ?_⟩
  simp only [Maker.updateValue, goto_target valid, target, bind, Except.bind, clearNode, live, within,
    stays, dite_true]
  rfl

theorem updateValue_ends (valid : m.Valid) (title val : Option Text) :
    Ends ((Op.updateValue title val).Safe m) ((Op.updateValue title val).run m) := by
  cases title with
  | none => exact iff_of_true valid trivial
  | some title =>
    have cursor := opened_cursor valid
    have found := goto_target valid (some title)
    rw [Op.run]
    cases target : m.target (some title) with
    | none =>
      have safe : (Op.updateValue (some title) val).Safe m := by simp [Op.Safe, target]
      have added := addValue_ends (opened_valid valid) (some title) val
      rw [Op.run] at added
      simpa [Maker.updateValue, found, target, bind, Except.bind, safe] using added
    | some r =>
      cases r with
      | null =>
        simp only [Maker.updateValue, found, target, bind, Except.bind]
        change ¬ _
        simp [Op.Safe, target]
      | document =>
        have safe : (Op.updateValue (some title) val).Safe m ↔ m.opened.curr = .null := by
          simp [Op.Safe, target, opened_curr valid]
        have gone (k : Nat) (_ : m.opened.doc.Live k) : ¬ ((KeyedTree.empty m.opened.doc.next : Doc).addLeaf
            none trivial (Leaf.text (val.getD []))).Live k := fun new =>
          List.not_mem_nil ((KeyedTree.live_addLeaf (t := KeyedTree.empty _) (p := none) trivial _ k).mp new)
        simp only [Maker.updateValue, found, target, bind, Except.bind]
        exact (cursor_gone cursor gone).trans safe.symm
      | element x =>
        have live : m.opened.doc.Live x := target_sound valid target
        obtain ⟨stays, run⟩ := updateValue_found valid live target val
        have safe : (Op.updateValue (some title) val).Safe m ↔ ¬ m.opened.curr.Under m.opened.doc x := by
          simp [Op.Safe, target, opened_curr valid]
        have left (k : Nat) (_ : m.opened.curr = .element k) (live_k : m.opened.doc.Live k) :
            ((m.opened.doc.clear x live).addLeaf (some x) stays (.text (val.getD []))).Live k ↔
              k ∉ m.opened.doc.below x :=
          (KeyedTree.live_addLeaf stays _ k).trans
            ((KeyedTree.live_clear live).trans (and_iff_right live_k))
        rw [run]
        exact (cursor_cut cursor left).trans safe.symm

theorem eraseValue_ends (valid : m.Valid) (title : Option Text) :
    Ends ((Op.eraseValue title).Safe m) ((Op.eraseValue title).run m) := by
  have cursor := opened_cursor valid
  rw [Op.run, Maker.eraseValue]
  simp only [goto_target valid, bind, Except.bind]
  cases target : m.target title with
  | none => exact iff_of_true (opened_valid valid) (by simp [Op.Safe, target])
  | some r =>
    cases r with
    | null =>
      change ¬ _
      simp [Op.Safe, target]
    | document =>
      have other : Ref.document ≠ m.opened.curr := by
        intro same
        rw [← same] at cursor
        exact cursor
      simp only [eraseNode, if_neg other]
      exact iff_of_true cursor (by simp [Op.Safe, target])
    | element x =>
      have live : m.opened.doc.Live x := target_sound valid target
      simp only [eraseNode, live, dite_true]
      by_cases same : Ref.element x = m.opened.curr
      · rw [if_pos same]
        have apart : ¬ m.curr.Under m.opened.doc x := by
          rw [← opened_curr valid, ← same]
          exact KeyedTree.not_below_self _ x
        exact iff_of_true trivial (by simpa [Op.Safe, target] using apart)
      · rw [if_neg same]
        have safe : (Op.eraseValue title).Safe m ↔ ¬ m.opened.curr.Under m.opened.doc x := by
          simp [Op.Safe, target, opened_curr valid]
        have left (k : Nat) (here : m.opened.curr = .element k) (live_k : m.opened.doc.Live k) :
            (m.opened.doc.remove x live).Live k ↔ k ∉ m.opened.doc.below x := by
          have other : k ≠ x := by
            rintro rfl
            exact same here.symm
          rw [KeyedTree.live_remove live]
          exact (and_iff_right live_k).trans (and_iff_right other)
        exact (cursor_cut cursor left).trans safe.symm

theorem run_ends (valid : m.Valid) (op : Op) : Ends (op.Safe m) (op.run m) := by
  cases op with
  | parse content => exact parse_ends valid content
  | parseFile file content => exact parseFile_ends valid file content
  | goto path => exact goto_ends valid path
  | gotoFirstChild => exact gotoFirstChild_ends valid
  | next path => exact next_ends valid path
  | getValue title => exact getValue_ends valid title
  | getNodeName path => exact getNodeName_ends valid path
  | addNode path => exact addNode_ends valid path
  | simpleAddNode path => exact simpleAddNode_ends valid path
  | addValue title val => exact addValue_ends valid title val
  | updateValue title val => exact updateValue_ends valid title val
  | simpleAddValue title val => exact simpleAddValue_ends valid title val
  | eraseValue title => exact eraseValue_ends valid title

end Calls

def Session.Safe : Session → Op → Prop
  | running m, op => op.Safe m
  | crashed, _ => False

theorem step_valid {s s' : Session} {op : Op} (valid : s.Valid) (taken : s.step op = some s') :
    s'.Valid ↔ s.Safe op := by
  cases s with
  | crashed => cases taken
  | running m =>
    have ends := run_ends valid op
    rw [Session.step] at taken
    split at taken
    · rename_i m' run
      cases taken
      rwa [run] at ends
    · rename_i run
      cases taken
      rw [run] at ends
      exact iff_of_false id ends
    · cases taken

/-- From a maker as its constructors leave it, the cursor stays good through a whole
sequence of calls exactly when each call is safe in the state it meets. -/
theorem cursor_stays_iff (doc : Option Doc) (value : Text) (ops : List Op) :
    Always Session.step Session.Valid (.running ⟨doc, value, .null⟩) ops ↔
      Guarded Session.step Session.Safe (.running ⟨doc, value, .null⟩) ops := by
  apply always_iff_guarded (I := fun _ => True)
  · exact fun _ _ _ _ _ _ _ => trivial
  · exact fun _ _ _ _ valid taken => step_valid valid taken
  · trivial
  · cases doc with
    | none => exact rfl
    | some t => trivial

/-- A text that does not parse leaves the cursor on an element that was deleted, and the
next use of the cursor reads it. -/
theorem parse_dangles :
    ¬ Always Session.step Session.Valid (.running ⟨none, [], .null⟩)
      [.simpleAddNode (some ['a']), .parse none, .getValue none] := by
  intro always
  exact always_end (t := .crashed) always rfl

end DevAccess.Xml
