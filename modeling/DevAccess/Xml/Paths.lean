import DevAccess.Xml.Document

/-! What a path means: a list of steps from a node, up or to a child of some name and
number. _goto follows them in the document as it is, _create_mult_node also makes the
children that a step misses. -/
namespace DevAccess.Xml
open Foundation

inductive Step where
  | up
  | child (name : Text) (index : Int)
deriving DecidableEq

def Ref.place : Ref → Option Nat
  | .null | .document => none
  | .element k => some k

def Ref.Sound (t : Doc) : Ref → Prop
  | .null | .document => True
  | .element k => t.Live k

def withName (name : Text) (es : List (Nat × Text)) : List Nat := (es.filter (·.2 = name)).map Prod.fst

def named (t : Doc) (p : Option Nat) (name : Text) : List Nat := withName name (elements t p)

def child? (t : Doc) (p : Option Nat) (name : Text) (index : Int) : Option Nat :=
  if 0 ≤ index then (named t p name)[index.toNat]? else none

def up (t : Doc) : Ref → Ref
  | .null | .document => .null
  | .element k =>
    match t.parent? k with
    | some (some q) => .element q
    | _ => .document

def lookup (t : Doc) : Ref → List Step → Option Ref
  | r, [] => some r
  | r, .up :: rest => lookup t (up t r) rest
  | r, .child name index :: rest =>
    (child? t r.place name index).bind fun k => lookup t (.element k) rest

def stepOf (str : Text) : Option Step :=
  let (name, index) := component str
  if name = [] ∨ name = ['.'] then none
  else if name = ['.', '.'] then some .up
  else some (.child name index)

def steps : Option Text → List Step
  | none => []
  | some path => (splitStr path).filterMap stepOf

def origin (curr : Ref) : Option Text → Ref
  | none => curr
  | some path => start curr path

structure Added (t t' : Doc) (p : Option Nat) (name : Text) (index : Int) (k : Nat) : Prop where
  absent : child? t p name index = none
  fresh : ¬ t.Live k
  copies : ∃ n, KeyedTree.Copies t t' p name n
  found : child? t' p name index = some k
  only : ∀ b, t'.Live b → t.Live b ∨ ∃ j, 0 ≤ j ∧ j ≤ index ∧ child? t' p name j = some b
  childless : t'.childrenAt (some k) = []

inductive Makes (t : Doc) (r : Ref) : Step → Doc → Ref → Prop where
  | up : Makes t r .up t (up t r)
  | found {name index k} (here : child? t r.place name index = some k) :
      Makes t r (.child name index) t (.element k)
  | negative {name index} (below : index < 0) : Makes t r (.child name index) t .null
  | added {t' name index k} (added : Added t t' r.place name index k) :
      Makes t r (.child name index) t' (.element k)

inductive MakesAll : Doc → Ref → List Step → Doc → Ref → Prop where
  | nil {t r} : MakesAll t r [] t r
  | cons {t r s t' r' rest t'' r''} (first : Makes t r s t' r') (later : MakesAll t' r' rest t'' r'') :
      MakesAll t r (s :: rest) t'' r''

section Children
variable {t t' : Doc} {p : Option Nat} {name : Text} {index : Int} {k : Nat}

theorem mem_elements : (k, name) ∈ elements t p ↔ .node k name ∈ t.childrenAt p := by
  rw [elements, List.mem_filterMap]
  constructor
  · rintro ⟨c, member, head⟩
    cases c with
    | node key label =>
      cases head
      exact member
    | leaf content => cases head
  · exact fun member => ⟨_, member, rfl⟩

theorem child?_mem (here : child? t p name index = some k) : .node k name ∈ t.childrenAt p := by
  rw [child?] at here
  split at here
  · obtain ⟨⟨key, label⟩, chosen, rfl⟩ := List.mem_map.mp (List.mem_of_getElem? here)
    obtain ⟨member, value⟩ := List.mem_filter.mp chosen
    rw [← of_decide_eq_true value]
    exact mem_elements.mp member
  · cases here

theorem child?_live (here : child? t p name index = some k) : t.Live k :=
  KeyedTree.child_live (child?_mem here)

theorem child?_grows (grows : KeyedTree.Grows t t') (place : t.Place p)
    (here : child? t p name index = some k) : child? t' p name index = some k := by
  obtain ⟨added, there, -⟩ := grows.children p place
  rw [child?] at here ⊢
  split at here
  · rename_i nonneg
    rw [if_pos nonneg, named, elements, there, List.filterMap_append, withName, List.filter_append,
      List.map_append]
    exact (List.getElem?_append_left (List.getElem?_eq_some_iff.mp here).1).trans here
  · cases here

end Children

section Walk
variable {t : Doc} {r : Ref} {name : Text} {index : Int}

theorem within_sound (sound : r.Sound t) : ∃ place, within t r = .ok ⟨r.place, place⟩ := by
  cases r with
  | null => exact ⟨trivial, rfl⟩
  | document => exact ⟨trivial, rfl⟩
  | element k => exact ⟨sound, by simp [within, Ref.place, show t.Live k from sound]⟩

theorem Ref.Sound.place (sound : r.Sound t) : t.Place r.place := by
  obtain ⟨place, -⟩ := within_sound sound
  exact place

theorem Ref.Sound.grows {t' : Doc} (sound : r.Sound t) (grows : KeyedTree.Grows t t') : r.Sound t' := by
  cases r with
  | null => trivial
  | document => trivial
  | element k => exact grows.live k sound

theorem parentNode_sound (sound : r.Sound t) : parentNode t r = .ok (up t r) := by
  cases r with
  | null => rfl
  | document => rfl
  | element k =>
    obtain ⟨p, here⟩ := KeyedTree.parent?_some sound
    cases p with
    | none => simp [parentNode, up, here]
    | some q => simp [parentNode, up, here]

theorem up_sound (sound : r.Sound t) : (up t r).Sound t := by
  cases r with
  | null => trivial
  | document => trivial
  | element k =>
    obtain ⟨p, here⟩ := KeyedTree.parent?_some sound
    cases p with
    | none => simp [up, here, Ref.Sound]
    | some q =>
      rw [up, here]
      exact (KeyedTree.child_of_parent? here).1

theorem findSibling_found {es : List (Nat × Text)} {n k : Nat} (i : Int)
    (here : (withName name es)[n]? = some k) : findSibling name (i + n) i es = (some k, i + n) := by
  induction es generalizing n i with
  | nil => simp [withName] at here
  | cons e rest ih =>
    obtain ⟨key, value⟩ := e
    by_cases same : name = value
    · subst same
      cases n with
      | zero =>
        simp only [withName, decide_true, List.filter_cons_of_pos, List.map_cons,
          List.getElem?_cons_zero, Option.some.injEq] at here
        simp [findSibling, here]
      | succ n =>
        simp only [withName, decide_true, List.filter_cons_of_pos, List.map_cons,
          List.getElem?_cons_succ] at here
        have later := ih (i + 1) here
        have passed : i ≠ i + ((n + 1 : Nat) : Int) := by omega
        have shift : i + 1 + (n : Int) = i + ((n + 1 : Nat) : Int) := by omega
        rw [findSibling, if_pos rfl, if_neg passed, ← shift, later]
    · have other : ¬ value = name := fun e => same e.symm
      simp only [withName, other, decide_false, Bool.false_eq_true, not_false_eq_true,
        List.filter_cons_of_neg] at here
      rw [findSibling, if_neg same, ih i here]

theorem findSibling_absent {es : List (Nat × Text)} (i : Int)
    (out : index < i ∨ i + (withName name es).length ≤ index) :
    findSibling name index i es = (none, i + (withName name es).length) := by
  induction es generalizing i with
  | nil => simp [findSibling, withName]
  | cons e rest ih =>
    obtain ⟨key, value⟩ := e
    by_cases same : name = value
    · subst same
      simp only [withName, decide_true, List.filter_cons_of_pos, List.map_cons, List.length_cons] at out ⊢
      have passed : i ≠ index := by omega
      rw [findSibling, if_pos rfl, if_neg passed, ih (i + 1) (by simp only [withName]; omega)]
      simp only [withName]
      congr 1
      omega
    · have other : ¬ value = name := fun e => same e.symm
      simp only [withName, other, decide_false, Bool.false_eq_true, not_false_eq_true,
        List.filter_cons_of_neg] at out ⊢
      rw [findSibling, if_neg same]
      exact ih i out

def IsTitle (name : Text) : Prop := name ≠ [] ∧ name ≠ ['.'] ∧ name ≠ ['.', '.']

theorem findNode_title (sound : r.Sound t) (title : IsTitle name) :
    findNode t r name index =
      match findSibling name index 0 (elements t r.place) with
      | (some key, i) => .ok ⟨.element key, i, true⟩
      | (none, i) => .ok ⟨.null, i, false⟩ := by
  obtain ⟨place, here⟩ := within_sound sound
  obtain ⟨some_name, not_here, not_up⟩ := title
  rw [findNode, if_neg some_name, if_neg not_here, if_neg not_up, here]
  rfl

theorem findNode_found {k : Nat} (sound : r.Sound t) (title : IsTitle name)
    (here : child? t r.place name index = some k) :
    findNode t r name index = .ok ⟨.element k, index, true⟩ := by
  rw [child?] at here
  split at here
  · rename_i nonneg
    have found : findSibling name (0 + (index.toNat : Int)) 0 (elements t r.place) = (some k, _) :=
      findSibling_found 0 here
    rw [Int.zero_add, Int.toNat_of_nonneg nonneg] at found
    rw [findNode_title sound title, found]
  · cases here

theorem findNode_absent (sound : r.Sound t) (title : IsTitle name)
    (absent : child? t r.place name index = none) :
    findNode t r name index = .ok ⟨.null, (named t r.place name).length, false⟩ := by
  have out : index < 0 ∨ 0 + ((withName name (elements t r.place)).length : Int) ≤ index := by
    rw [child?] at absent
    split at absent
    · have short : (withName name (elements t r.place)).length ≤ index.toNat :=
        List.getElem?_eq_none_iff.mp absent
      omega
    · omega
  rw [findNode_title sound title, findSibling_absent 0 out, Int.zero_add]
  rfl

theorem lookup_sound {ss : List Step} {r' : Ref} (sound : r.Sound t) (here : lookup t r ss = some r') :
    r'.Sound t := by
  induction ss generalizing r with
  | nil =>
    cases here
    exact sound
  | cons s rest ih =>
    cases s with
    | up => exact ih (up_sound sound) here
    | child name index =>
      obtain ⟨k, first, later⟩ := Option.bind_eq_some_iff.mp here
      exact ih (r := .element k) (child?_live first) later

theorem stepOf_cases (str : Text) :
    ((component str).1 = [] ∧ stepOf str = none) ∨ ((component str).1 = ['.'] ∧ stepOf str = none) ∨
      ((component str).1 = ['.', '.'] ∧ stepOf str = some .up) ∨
      (IsTitle (component str).1 ∧ stepOf str = some (.child (component str).1 (component str).2)) := by
  by_cases empty : (component str).1 = []
  · exact .inl ⟨empty, by simp [stepOf, empty]⟩
  · by_cases here : (component str).1 = ['.']
    · exact .inr (.inl ⟨here, by simp [stepOf, here]⟩)
    · by_cases up : (component str).1 = ['.', '.']
      · exact .inr (.inr (.inl ⟨up, by simp [stepOf, up]⟩))
      · exact .inr (.inr (.inr ⟨⟨empty, here, up⟩, by simp [stepOf, empty, here, up]⟩))

theorem walk_eq (sound : r.Sound t) (strs : List Text) :
    walk t r strs = .ok (lookup t r (strs.filterMap stepOf)) := by
  induction strs generalizing r with
  | nil => rfl
  | cons str rest ih =>
    rw [walk]
    rcases stepOf_cases str with ⟨empty, same⟩ | ⟨here, same⟩ | ⟨up_here, same⟩ | ⟨title, same⟩
    · rw [List.filterMap_cons_none same]
      simp only [empty, if_true]
      exact ih sound
    · rw [List.filterMap_cons_none same]
      simp only [here, findNode, reduceCtorEq, if_false, if_true]
      exact ih sound
    · rw [List.filterMap_cons_some same, lookup]
      simp only [up_here, findNode, parentNode_sound sound]
      exact ih (up_sound sound)
    · rw [List.filterMap_cons_some same, lookup]
      simp only [title.1, if_false]
      cases found : child? t r.place (component str).1 (component str).2 with
      | none =>
        rw [findNode_absent sound title found]
        rfl
      | some k =>
        rw [findNode_found sound title found]
        exact ih (r := .element k) (child?_live found)

theorem start_sound (sound : r.Sound t) (path : Text) : (start r path).Sound t := by
  rw [start]
  split
  · trivial
  · exact sound

theorem origin_sound (sound : r.Sound t) (path : Option Text) : (origin r path).Sound t := by
  cases path with
  | none => exact sound
  | some path => exact start_sound sound path

/-- _goto finds the node that the steps of the path lead to. -/
theorem goto_eq (sound : r.Sound t) (path : Option Text) :
    goto t r path = .ok (lookup t (origin r path) (steps path)) := by
  cases path with
  | none => rfl
  | some path =>
    rw [goto, origin, steps]
    split
    · rename_i here
      rcases here with rfl | rfl
      · rfl
      · rfl
    · split
      · rename_i top
        subst top
        rfl
      · exact walk_eq (start_sound sound path) (splitStr path)

end Walk

section Make
variable {t t' : Doc} {r r' : Ref} {name : Text} {index : Int}

theorem named_copies {p : Option Nat} {n : Nat} (copies : KeyedTree.Copies t t' p name n) :
    named t' p name = named t p name ++ List.range' t.next n := by
  rw [named, elements, copies.children, List.filterMap_append, withName, List.filter_append, List.map_append]
  congr 1
  simp [List.filterMap_map, Function.comp_def, Forest.Child.head?, List.filter_map]

theorem createNodes_eq (sound : r.Sound t) (name : Text) (n : Nat) (last : Ref) :
    ∃ t', createNodes name r n t last = .ok (t', if n = 0 then last else .element (t.next + n - 1)) ∧
      KeyedTree.Copies t t' r.place name n := by
  induction n generalizing t last with
  | zero => exact ⟨t, rfl, KeyedTree.copies_zero t r.place name⟩
  | succ n ih =>
    obtain ⟨place, here⟩ := within_sound sound
    have first := KeyedTree.copies_addNode place name
    have sound' : r.Sound (t.addNode r.place place name) := sound.grows first.grows
    obtain ⟨t', rest, later⟩ := ih sound' (.element t.next)
    refine ⟨t', ?_, Nat.add_comm 1 n ▸ first.trans place later⟩
    simp only [createNodes, here, bind, Except.bind, rest]
    rw [first.next, if_neg (Nat.succ_ne_zero n)]
    by_cases none_left : n = 0
    · simp [none_left]
    · rw [if_neg none_left]
      congr 3
      omega

theorem added_of_copies {n : Nat} (absent : child? t r.place name index = none)
    (copies : KeyedTree.Copies t t' r.place name n)
    (count : (n : Int) = index + 1 - (named t r.place name).length) (nonneg : 0 ≤ index) :
    Added t t' r.place name index (t.next + n - 1) := by
  have names := named_copies copies
  have short : (named t r.place name).length ≤ index := by
    rw [child?, if_pos nonneg] at absent
    have := List.getElem?_eq_none_iff.mp absent
    omega
  have at_number (j : Nat) (low : (named t r.place name).length ≤ j) (high : (j : Int) ≤ index) :
      child? t' r.place name j = some (t.next + (j - (named t r.place name).length)) := by
    rw [child?, if_pos (Int.natCast_nonneg j), names, Int.toNat_natCast,
      List.getElem?_append_right low, List.getElem?_range' (by omega), Nat.one_mul]
  have fresh : ¬ t.Live (t.next + n - 1) := fun live => by
    have := t.fresh _ live
    omega
  refine ⟨absent, fresh, ⟨n, copies⟩, ?_, fun b live => ?_, copies.childless _ (by omega) (by omega)⟩
  · have here := at_number index.toNat (by omega) (by omega)
    rw [Int.toNat_of_nonneg nonneg] at here
    rw [here]
    congr 1
    omega
  · rcases (copies.live b).mp live with old | ⟨low, high⟩
    · exact .inl old
    · right
      have here := at_number ((named t r.place name).length + (b - t.next)) (by omega) (by omega)
      refine ⟨_, by omega, ?_, here.trans ?_⟩
      · omega
      · congr 1
        omega

theorem findAndCreateNode_absent {i : Int} (absent : findNode t r name index = .ok ⟨.null, i, false⟩) :
    findAndCreateNode t r name index =
      if index = 2147483647 then .error .hang else createNodes name r (index + 1 - i).toNat t .null := by
  rw [findAndCreateNode, absent]
  simp only [bind, Except.bind, Bool.false_eq_true, if_false]
  split
  · rfl
  · rfl

theorem findAndCreateNode_title (sound : r.Sound t) (title : IsTitle name) (index : Int) :
    (index = 2147483647 ∧ findAndCreateNode t r name index = .error .hang) ∨
      ∃ t' r', findAndCreateNode t r name index = .ok (t', r') ∧ Makes t r (.child name index) t' r' := by
  cases here : child? t r.place name index with
  | some k =>
    refine .inr ⟨t, .element k, ?_, .found here⟩
    rw [findAndCreateNode, findNode_found sound title here]
    rfl
  | none =>
    have run := findAndCreateNode_absent (findNode_absent sound title here)
    by_cases last : index = 2147483647
    · exact .inl ⟨last, by rw [run, if_pos last]⟩
    · rw [if_neg last] at run
      obtain ⟨t', made, copies⟩ :=
        createNodes_eq sound name (index + 1 - (named t r.place name).length).toNat .null
      refine .inr ⟨t', _, run.trans made, ?_⟩
      by_cases below : index < 0
      · have nothing : (index + 1 - (named t r.place name).length).toNat = 0 := by omega
        rw [nothing] at copies made ⊢
        cases made
        exact .negative below
      · have short : (named t r.place name).length ≤ index := by
          rw [child?, if_pos (by omega)] at here
          have := List.getElem?_eq_none_iff.mp here
          omega
        rw [if_neg (by omega)]
        exact .added (added_of_copies here copies (by omega) (by omega))

theorem Makes.sound {s : Step} (makes : Makes t r s t' r') (sound : r.Sound t) : r'.Sound t' := by
  cases makes with
  | up => exact up_sound sound
  | found here => exact child?_live here
  | negative => trivial
  | added added => exact child?_live added.found

theorem createParts_cons {str : Text} {rest : List Text}
    (first : findAndCreateNode t r (component str).1 (component str).2 = .ok (t', r')) :
    createParts t r (str :: rest) = createParts t' r' rest := by
  rw [createParts]
  simp only [first]
  rfl

theorem createParts_makes (sound : r.Sound t) (strs : List Text) :
    ((∃ name, .child name (2147483647) ∈ strs.filterMap stepOf) ∧ createParts t r strs = .error .hang) ∨
      ∃ t' r', createParts t r strs = .ok (t', r') ∧ MakesAll t r (strs.filterMap stepOf) t' r' := by
  induction strs generalizing t r with
  | nil => exact .inr ⟨t, r, rfl, .nil⟩
  | cons str rest ih =>
    rcases stepOf_cases str with ⟨empty, same⟩ | ⟨here, same⟩ | ⟨up_here, same⟩ | ⟨title, same⟩
    · have first : findAndCreateNode t r (component str).1 (component str).2 = .ok (t, r) := by
        rw [empty]
        rfl
      rw [List.filterMap_cons_none same, createParts_cons first]
      exact ih sound
    · have first : findAndCreateNode t r (component str).1 (component str).2 = .ok (t, r) := by
        rw [here]
        rfl
      rw [List.filterMap_cons_none same, createParts_cons first]
      exact ih sound
    · have first : findAndCreateNode t r (component str).1 (component str).2 = .ok (t, up t r) := by
        rw [up_here, findAndCreateNode, findNode]
        simp only [parentNode_sound sound]
        rfl
      rw [List.filterMap_cons_some same, createParts_cons first]
      rcases ih (up_sound sound) with ⟨⟨name, member⟩, hangs⟩ | ⟨t', r', run, later⟩
      · exact .inl ⟨⟨name, List.mem_cons_of_mem _ member⟩, hangs⟩
      · exact .inr ⟨t', r', run, .cons .up later⟩
    · rw [List.filterMap_cons_some same]
      rcases findAndCreateNode_title sound title (component str).2 with
        ⟨last, hangs⟩ | ⟨t₁, r₁, run, makes⟩
      · refine .inl ⟨⟨(component str).1, by rw [last]; exact List.mem_cons_self⟩, ?_⟩
        rw [createParts]
        simp only [hangs]
        rfl
      · rw [createParts_cons run]
        rcases ih (makes.sound sound) with ⟨⟨name, member⟩, hangs⟩ | ⟨t', r', run', later⟩
        · exact .inl ⟨⟨name, List.mem_cons_of_mem _ member⟩, hangs⟩
        · exact .inr ⟨t', r', run', .cons makes later⟩

end Make

end DevAccess.Xml
