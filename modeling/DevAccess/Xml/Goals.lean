import DevAccess.Xml.Adding

/-! Where a path leads when all that it misses is made, read off the document as it is
before anything is made. -/
namespace DevAccess.Xml
open Foundation

inductive Goal where
  | there (r : Ref)
  | missing (base : Option Nat) (last : Text × Int) (above : List (Text × Int))
deriving DecidableEq

def holder : Option Nat → Ref
  | none => .document
  | some q => .element q

def Goal.after (t : Doc) : Goal → Step → Goal
  | there r, .up => there (up t r)
  | there r, .child name index =>
    match child? t r.place name index with
    | some k => there (.element k)
    | none => if index < 0 then there .null else missing r.place (name, index) []
  | missing base _ [], .up => there (holder base)
  | missing base _ (s :: above), .up => missing base s above
  | missing base last above, .child name index =>
    if index < 0 then there .null else missing base (name, index) (last :: above)

def Goal.descents (t : Doc) (g : Goal) : List Step → List Goal
  | [] => []
  | .up :: rest => descents t (g.after t .up) rest
  | .child name index :: rest => g :: descents t (g.after t (.child name index)) rest

inductive Stands (t t' : Doc) (base : Option Nat) : List (Text × Int) → Nat → Prop where
  | first {name index k} (absent : child? t base name index = none)
      (here : child? t' base name index = some k) : Stands t t' base [(name, index)] k
  | next {q name index k s above} (stands : Stands t t' base (s :: above) q)
      (here : child? t' (some q) name index = some k) :
      Stands t t' base ((name, index) :: s :: above) k

def Goal.At (t t' : Doc) : Goal → Ref → Prop
  | there r', r => r = r' ∧ r'.Sound t
  | missing base last above, r => t.Place base ∧ ∃ k, r = .element k ∧ Stands t t' base (last :: above) k

section Stands
variable {t t' t'' : Doc} {base base' : Option Nat} {way way' : List (Text × Int)} {k k' : Nat}

theorem Stands.grows (stands : Stands t t' base way k) (place : t'.Place base)
    (grows : KeyedTree.Grows t' t'') : Stands t t'' base way k := by
  induction stands with
  | first absent here => exact .first absent (child?_grows grows place here)
  | next above here ih =>
    refine .next ih (child?_grows grows ?_ here)
    exact KeyedTree.above_live (KeyedTree.child_below (child?_mem here))

theorem child?_new {name : Text} {index : Int} (grows : KeyedTree.Grows t t') (place : t.Place base)
    (absent : child? t base name index = none) (here : child? t' base name index = some k) : ¬ t.Live k := by
  obtain ⟨added, children, new⟩ := grows.children base place
  rw [child?] at here absent
  split at here
  · rename_i nonneg
    rw [if_pos nonneg, List.getElem?_eq_none_iff] at absent
    rw [named, elements, children, List.filterMap_append, withName, List.filter_append,
      List.map_append] at here
    have late := (List.getElem?_append_right absent).symm.trans here
    obtain ⟨⟨key, label⟩, chosen, rfl⟩ := List.mem_map.mp (List.mem_of_getElem? late)
    obtain ⟨c, member, head⟩ := List.mem_filterMap.mp (List.mem_of_mem_filter chosen)
    cases c with
    | leaf content => cases head
    | node key' label' =>
      cases head
      exact new key label member
  · cases here

theorem child?_nonneg {name : Text} {index : Int} (here : child? t base name index = some k) : 0 ≤ index := by
  by_contra below
  rw [child?, if_neg below] at here
  cases here

theorem child?_unique {name name' : Text} {index index' : Int}
    (here : child? t base name index = some k) (there : child? t base' name' index' = some k) :
    base = base' ∧ name = name' ∧ index = index' := by
  have above := KeyedTree.parent?_of_child (child?_mem here)
  rw [KeyedTree.parent?_of_child (child?_mem there)] at above
  obtain ⟨label, before⟩ := child?_before here
  obtain ⟨label', before'⟩ := child?_before there
  rw [label] at label'
  rw [before] at before'
  have nonneg := child?_nonneg here
  have nonneg' := child?_nonneg there
  have number := Option.some.inj before'
  exact ⟨(Option.some.inj above).symm, Option.some.inj label', by omega⟩

theorem Stands.new (stands : Stands t t' base way k) (grows : KeyedTree.Grows t t') (place : t.Place base) :
    ¬ t.Live k := by
  induction stands with
  | first absent here => exact child?_new grows place absent here
  | next above here ih => exact grows.new_below ih (child?_mem here)

theorem Stands.same (stands : Stands t t' base way k) (stands' : Stands t t' base way k') : k = k' := by
  induction stands generalizing k' with
  | first absent here =>
    cases stands' with
    | first _ here' => exact Option.some.inj (here.symm.trans here')
  | next above here ih =>
    cases stands' with
    | next above' here' =>
      cases ih above'
      exact Option.some.inj (here.symm.trans here')

theorem Stands.unique (stands : Stands t t' base way k) (stands' : Stands t t' base' way' k)
    (grows : KeyedTree.Grows t t') (place : t.Place base) (place' : t.Place base') :
    base = base' ∧ way = way' := by
  induction stands generalizing way' with
  | first absent here =>
    cases stands' with
    | first absent' here' =>
      obtain ⟨rfl, rfl, rfl⟩ := child?_unique here here'
      exact ⟨rfl, rfl⟩
    | next above' here' =>
      obtain ⟨rfl, -, -⟩ := child?_unique here here'
      exact absurd place (above'.new grows place')
  | next above here ih =>
    cases stands' with
    | first absent' here' =>
      obtain ⟨rfl, -, -⟩ := child?_unique here here'
      exact absurd place' (above.new grows place)
    | next above' here' =>
      obtain ⟨same, rfl, rfl⟩ := child?_unique here here'
      cases same
      obtain ⟨rfl, same⟩ := ih above'
      rw [same]
      exact ⟨rfl, rfl⟩

end Stands

section At
variable {t t' t'' : Doc} {g g' : Goal} {r r' : Ref}

theorem Goal.At.grows (here : g.At t t' r) (first : KeyedTree.Grows t t') (later : KeyedTree.Grows t' t'') :
    g.At t t'' r := by
  cases g with
  | there r₀ => exact here
  | missing base last above =>
    obtain ⟨place, k, same, stands⟩ := here
    exact ⟨place, k, same, stands.grows (first.place place) later⟩

theorem Goal.At.same (here : g.At t t' r) (here' : g.At t t' r') : r = r' := by
  cases g with
  | there r₀ => exact here.1.trans here'.1.symm
  | missing base last above =>
    obtain ⟨-, k, rfl, stands⟩ := here
    obtain ⟨-, k', rfl, stands'⟩ := here'
    rw [stands.same stands']

theorem Goal.At.unique (here : g.At t t' r) (here' : g'.At t t' r) (grows : KeyedTree.Grows t t') :
    g = g' := by
  cases g with
  | there r₀ =>
    obtain ⟨rfl, sound⟩ := here
    cases g' with
    | there r₁ => rw [here'.1]
    | missing base last above =>
      obtain ⟨place, k, rfl, stands⟩ := here'
      exact absurd sound (stands.new grows place)
  | missing base last above =>
    obtain ⟨place, k, rfl, stands⟩ := here
    cases g' with
    | there r₁ =>
      obtain ⟨rfl, sound⟩ := here'
      exact absurd sound (stands.new grows place)
    | missing base' last' above' =>
      obtain ⟨place', k', same, stands'⟩ := here'
      cases same
      obtain ⟨rfl, same⟩ := stands.unique stands' grows place place'
      cases same
      rfl

end At

section Walk
variable {t t₁ t' : Doc} {g : Goal} {r r' : Ref} {ss : List Step}

theorem up_child {p : Option Nat} {name : Text} {index : Int} {k : Nat}
    (here : child? t p name index = some k) :
    up t (.element k) = holder p := by
  rw [up, KeyedTree.parent?_of_child (child?_mem here)]
  cases p with
  | none => rfl
  | some q => rfl

theorem holder_sound {p : Option Nat} (place : t.Place p) : (holder p).Sound t := by
  cases p with
  | none => trivial
  | some q => exact place

theorem Makes.child {name : Text} {index : Int} (makes : Makes t₁ r (.child name index) t' r')
    (sound : r.Sound t₁) :
    (index < 0 ∧ r' = .null) ∨
      (0 ≤ index ∧ ∃ k, r' = .element k ∧ child? t' r.place name index = some k) := by
  by_cases below : index < 0
  · left
    refine ⟨below, ?_⟩
    cases makes with
    | found here => exact absurd (child?_nonneg here) (Int.not_le.mpr below)
    | negative => rfl
    | added added => exact absurd (child?_nonneg added.found) (Int.not_le.mpr below)
  · have nonneg : 0 ≤ index := Int.not_lt.mp below
    obtain ⟨k, same, made⟩ := makes.counted nonneg
    exact .inr ⟨nonneg, k, same, child?_made sound made (.refl t')⟩

theorem Makes.at {s : Step} (makes : Makes t₁ r s t' r') (here : g.At t t₁ r)
    (grows : KeyedTree.Grows t t₁) (sound : r.Sound t₁) : (g.after t s).At t t' r' := by
  cases s with
  | up =>
    cases makes with
    | up =>
      cases g with
      | there r₀ =>
        obtain ⟨rfl, old⟩ := here
        exact ⟨up_grows grows old, up_sound old⟩
      | missing base last above =>
        obtain ⟨place, k, rfl, stands⟩ := here
        cases stands with
        | first absent here =>
          rw [up_child here]
          exact ⟨rfl, holder_sound place⟩
        | next stands here =>
          rw [up_child here]
          exact ⟨place, _, rfl, stands⟩
  | child name index =>
    have later := makes.grows
    have arrives := makes.child sound
    cases g with
    | there r₀ =>
      obtain ⟨rfl, old⟩ := here
      rw [Goal.after]
      cases known : child? t r.place name index with
      | some k =>
        have still := child?_grows (grows.trans later) old.place known
        rcases arrives with ⟨below, -⟩ | ⟨-, k', rfl, found⟩
        · exact absurd (child?_nonneg known) (Int.not_le.mpr below)
        · cases still.symm.trans found
          exact ⟨rfl, child?_live known⟩
      | none =>
        rcases arrives with ⟨below, rfl⟩ | ⟨nonneg, k', rfl, found⟩
        · simp only [below, if_true]
          exact ⟨rfl, trivial⟩
        · simp only [Int.not_lt.mpr nonneg, if_false]
          exact ⟨old.place, k', rfl, .first known found⟩
    | missing base last above =>
      obtain ⟨place, k, rfl, stands⟩ := here
      rcases arrives with ⟨below, rfl⟩ | ⟨nonneg, k', rfl, found⟩
      · simp only [Goal.after, below, if_true]
        exact ⟨rfl, trivial⟩
      · simp only [Goal.after, Int.not_lt.mpr nonneg, if_false]
        exact ⟨place, k', rfl, (stands.grows (grows.place place) later).next found⟩

theorem MakesAll.at (makes : MakesAll t₁ r ss t' r') (here : g.At t t₁ r)
    (grows : KeyedTree.Grows t t₁) (sound : r.Sound t₁) : (ss.foldl (Goal.after t) g).At t t' r' := by
  induction makes generalizing g with
  | nil => exact here
  | cons first later ih =>
    exact ih (first.at here grows sound) (grows.trans first.grows) (first.sound sound)

theorem MakesAll.descends (makes : MakesAll t₁ r ss t' r') (here : g.At t t₁ r)
    (grows : KeyedTree.Grows t t₁) (sound : r.Sound t₁) (counted : ∀ s ∈ ss, s.Counted) {g' : Goal}
    (member : g' ∈ g.descents t ss) :
    ∃ r'' k name, g'.At t t' r'' ∧ .node k name ∈ t'.childrenAt r''.place := by
  induction makes generalizing g with
  | nil => cases member
  | @cons t₁ r s t₂ r₂ rest t' r' first later ih =>
    obtain ⟨first_counted, rest_counted⟩ := List.forall_mem_cons.mp counted
    have here' := first.at here grows sound
    have sound' := first.sound sound
    have grows' := grows.trans first.grows
    have rest := ih here' grows' sound' rest_counted
    cases s with
    | up => exact rest member
    | child name index =>
      rcases List.mem_cons.mp member with rfl | inside
      · rcases first.child sound with ⟨below, -⟩ | ⟨-, k, rfl, found⟩
        · exact absurd first_counted (Int.not_le.mpr below)
        · have last := (later.spec sound').1
          have place := (sound.grows first.grows).place
          exact ⟨r, k, name, here.grows grows (first.grows.trans last),
            child?_mem (child?_grows last place found)⟩
      · exact rest inside

theorem Makes.parent {s : Step} {k : Nat} (makes : Makes t r s t' r') (live : t'.Live k) (new : ¬ t.Live k) :
    (∃ name index, s = .child name index) ∧ t'.parent? k = some r.place := by
  cases makes with
  | up => exact absurd live new
  | found here => exact absurd live new
  | negative below => exact absurd live new
  | added added =>
    obtain ⟨n, copies⟩ := added.copies
    exact ⟨⟨_, _, rfl⟩, copies.parent live new⟩

theorem MakesAll.made (makes : MakesAll t₁ r ss t' r') (here : g.At t t₁ r)
    (grows : KeyedTree.Grows t t₁) (sound : r.Sound t₁) {k : Nat} (live : t'.Live k) :
    t₁.Live k ∨ ∃ g' ∈ g.descents t ss, ∃ r'', g'.At t t' r'' ∧ t'.parent? k = some r''.place := by
  induction makes generalizing g with
  | nil => exact .inl live
  | @cons t₁ r s t₂ r₂ rest t' r' first later ih =>
    have sound' := first.sound sound
    have last := (later.spec sound').1
    rcases ih (first.at here grows sound) (grows.trans first.grows) sound' live with
      early | ⟨g', member, made⟩
    · by_cases old : t₁.Live k
      · exact .inl old
      · obtain ⟨⟨name, index, rfl⟩, above⟩ := first.parent early old
        have still := here.grows grows (first.grows.trans last)
        exact .inr ⟨g, List.mem_cons_self, r, still, last.parent above⟩
    · refine .inr ⟨g', ?_, made⟩
      cases s with
      | up => exact member
      | child name index => exact List.mem_cons_of_mem g member

theorem MakesAll.leaves (makes : MakesAll t r ss t' r') {p : Option Nat} {content : Leaf}
    (member : .leaf content ∈ t'.childrenAt p) : .leaf content ∈ t.childrenAt p := by
  induction makes with
  | nil => exact member
  | cons first later ih =>
    have early := ih member
    cases first with
    | up => exact early
    | found here => exact early
    | negative below => exact early
    | added added =>
      obtain ⟨n, copies⟩ := added.copies
      exact copies.leaves early

theorem MakesAll.kept (makes : MakesAll t r ss t' r') {x : Ref} (here : lookup t r ss = some x) :
    t' = t ∧ r' = x := by
  induction makes with
  | nil => exact ⟨rfl, Option.some.inj here⟩
  | cons first later ih =>
    cases first with
    | up => exact ih here
    | found known =>
      rw [lookup, known] at here
      exact ih here
    | negative below =>
      rw [lookup, child?, if_neg (Int.not_le.mpr below)] at here
      cases here
    | added added =>
      rw [lookup, added.absent] at here
      cases here

theorem lookup_uncounted {s : Step} (member : s ∈ ss) (uncounted : ¬ s.Counted) : lookup t r ss = none := by
  induction ss generalizing r with
  | nil => cases member
  | cons s' rest ih =>
    cases s' with
    | up =>
      rcases List.mem_cons.mp member with rfl | inside
      · exact absurd trivial uncounted
      · exact ih inside
    | child name index =>
      rw [lookup]
      rcases List.mem_cons.mp member with rfl | inside
      · have below : ¬ 0 ≤ index := uncounted
        rw [child?, if_neg below]
        rfl
      · cases child? t r.place name index with
        | none => rfl
        | some k => exact ih inside

end Walk

end DevAccess.Xml
