import DevAccess.Xml.PutGet

/-! AddNode and Goto. Creation counts the siblings of a name in one loop and pads them in
another; what it comes to is the element that the lookup counts to. -/
namespace DevAccess.Xml
open Foundation

def sameNameBefore (t : Doc) (x : Nat) : Option Nat :=
  match t.parent? x, t.label? x with
  | some p, some name => some (withName name ((elements t p).takeWhile (·.1 ≠ x))).length
  | _, _ => none

inductive LastName (path : Text) : Text → Nat → Prop where
  | plain {pre name post} (split : splitStr path = pre ++ name :: post) (isName : IsName name)
      (after : ∀ str ∈ post, str = [] ∨ str = ['.']) : LastName path name 0
  | indexed {pre name digits post} (split : splitStr path = pre ++ (name ++ ':' :: digits) :: post)
      (isName : IsName name) (decimal : CText.Decimal digits)
      (small : CText.digits 0 digits ≤ 2147483646)
      (after : ∀ str ∈ post, str = [] ∨ str = ['.']) : LastName path name (CText.digits 0 digits)

section Number
variable {t t' : Doc} {r : Ref} {p : Option Nat} {name : Text} {index : Int} {k : Nat} {path : Text}

theorem withName_key {es : List (Nat × Text)} (member : k ∈ withName name es) : k ∈ es.map Prod.fst :=
  (List.filter_sublist.map Prod.fst).subset member

theorem withName_before {es : List (Nat × Text)} {n : Nat} (distinct : (es.map Prod.fst).Nodup)
    (here : (withName name es)[n]? = some k) : (withName name (es.takeWhile (·.1 ≠ k))).length = n := by
  induction es generalizing n with
  | nil => simp [withName] at here
  | cons e rest ih =>
    obtain ⟨key, value⟩ := e
    obtain ⟨apart, distinct_rest⟩ := List.nodup_cons.mp distinct
    have passed {n : Nat} (later : (withName name rest)[n]? = some k) : key ≠ k := by
      rintro rfl
      exact apart (withName_key (List.mem_of_getElem? later))
    by_cases same : value = name
    · subst same
      simp only [withName, decide_true, List.filter_cons_of_pos, List.map_cons] at here
      cases n with
      | zero =>
        cases here
        simp [withName]
      | succ n =>
        have count := ih distinct_rest here
        rw [List.takeWhile_cons_of_pos (by simpa using passed here)]
        simpa [withName] using count
    · simp only [withName, same, decide_false, Bool.false_eq_true, not_false_eq_true,
        List.filter_cons_of_neg] at here
      have count := ih distinct_rest here
      rw [List.takeWhile_cons_of_pos (by simpa using passed here)]
      simpa [withName, same] using count

theorem child?_before (here : child? t p name index = some k) :
    t.label? k = some name ∧ sameNameBefore t k = some index.toNat := by
  have child := child?_mem here
  have label := KeyedTree.child_label child
  refine ⟨label, ?_⟩
  rw [child?] at here
  split at here
  · rw [sameNameBefore, KeyedTree.parent?_of_child child, label]
    exact congrArg some (withName_before (KeyedTree.siblings_distinct t p) here)
  · cases here

theorem lookup_append (pre rest : List Step) :
    lookup t r (pre ++ rest) = (lookup t r pre).bind fun q => lookup t q rest := by
  induction pre generalizing r with
  | nil => rfl
  | cons s later ih =>
    cases s with
    | up => exact ih
    | child name index =>
      rw [List.cons_append, lookup, lookup, Option.bind_assoc]
      simp only [ih]

theorem last_part {α : Type} {P : α → Prop} {l : List α} (some_part : ∃ a ∈ l, P a) :
    ∃ pre a post, l = pre ++ a :: post ∧ P a ∧ ∀ b ∈ post, ¬ P b := by
  induction l with
  | nil =>
    obtain ⟨a, none, -⟩ := some_part
    cases none
  | cons a rest ih =>
    by_cases later : ∃ b ∈ rest, P b
    · obtain ⟨pre, b, post, split, here, after⟩ := ih later
      exact ⟨a :: pre, b, post, by rw [split]; rfl, here, after⟩
    · obtain ⟨b, member, here⟩ := some_part
      rcases List.mem_cons.mp member with rfl | inside
      · exact ⟨[], b, rest, rfl, here, fun c member here => later ⟨c, member, here⟩⟩
      · exact absurd ⟨b, inside, here⟩ later

theorem PlainPath.last (plain : PlainPath path) : ∃ name k above, LastName path name k ∧
    steps (some path) = above ++ [.child name (k : Int)] := by
  obtain ⟨pre, str, post, split, part, no_name⟩ := last_part plain.named
  have after : ∀ s ∈ post, s = [] ∨ s = ['.'] := by
    intro s member
    have inside : s ∈ splitStr path := by
      rw [split]
      exact List.mem_append_right pre (List.mem_cons_of_mem str member)
    rcases plain.parts s inside with empty | here | name
    · exact .inl empty
    · exact .inr here
    · exact absurd name (no_name s member)
  have nothing : post.filterMap stepOf = [] := by
    rw [List.filterMap_eq_nil_iff]
    intro s member
    rcases after s member with rfl | rfl
    · rfl
    · rfl
  have way {name : Text} {k : Nat} (step : stepOf str = some (.child name (k : Int))) :
      steps (some path) = pre.filterMap stepOf ++ [.child name (k : Int)] := by
    rw [steps, split, List.filterMap_append, List.filterMap_cons_some step, nothing]
  cases part with
  | plain isName =>
    exact ⟨str, 0, _, .plain split isName after, way (stepOf_title isName.1 (component_plain isName.2.2))⟩
  | indexed isName decimal small =>
    exact ⟨_, _, _, .indexed split isName decimal small after,
      way (stepOf_title isName.1 (component_indexed isName.2.2 decimal small))⟩

end Number

section Adding
variable {m : Maker} {t' : Doc} {path : Text}

theorem createMultNode_plain {t : Doc} {curr : Ref} (cursor : curr.Cursor t) (plain : PlainPath path) :
    ∃ t' x, createMultNode t curr path = .ok (t', .element x) ∧ KeyedTree.Grows t t' ∧
      lookup t' (start curr path) (steps (some path)) = some (.element x) ∧
      ∀ r, lookup t (start curr path) (steps (some path)) = some r → t' = t := by
  have down := plain.down
  have sound := start_sound cursor.sound path
  rcases createParts_makes sound (splitStr path) with ⟨⟨name, member⟩, -⟩ | ⟨t', r', made, makes⟩
  · have := down _ member
    exact absurd this.2 (by omega)
  · have found := makes.found sound fun s member => (down s member).counted
    obtain ⟨x, rfl⟩ := lookup_element down plain.nonempty found
    refine ⟨t', x, made, (makes.spec sound).1, found, fun r here => ?_⟩
    rcases makes.outcome sound down with ⟨-, same⟩ | ⟨absent, -⟩
    · exact same
    · cases absent.symm.trans here

theorem goto_reached {t : Doc} {value : Text} {curr node : Ref}
    (reached : goto t curr (some path) = .ok (some node)) :
    Maker.goto ⟨some t, value, curr⟩ (some path) = .ok (⟨some t, value, node⟩, true) := by
  simp only [Maker.goto, Maker.opened, reached]
  rfl

theorem addNode_made {t : Doc} {value : Text} {curr node : Ref}
    (made : createMultNode t curr path = .ok (t', node)) :
    Maker.addNode ⟨some t, value, curr⟩ (some path) = .ok (⟨some t', value, node⟩, true) := by
  simp only [Maker.addNode, Maker.opened, made]
  rfl

/-- AddNode comes to the element that Goto finds from then on, a second AddNode adds
nothing, and the element has the number its last name asks for. -/
theorem addNode_idempotent (valid : m.Valid) (plain : PlainPath path) :
    ∃ t' x name k,
      m.addNode (some path) = .ok (⟨some t', m.opened.value, .element x⟩, true) ∧
      Maker.goto ⟨some t', m.opened.value, m.curr⟩ (some path) =
        .ok (⟨some t', m.opened.value, .element x⟩, true) ∧
      Maker.addNode ⟨some t', m.opened.value, m.curr⟩ (some path) =
        .ok (⟨some t', m.opened.value, .element x⟩, true) ∧
      LastName path name k ∧ t'.label? x = some name ∧ sameNameBefore t' x = some k := by
  have cursor := opened_cursor valid
  obtain ⟨t', x, made, grows, found, -⟩ := createMultNode_plain cursor plain
  have later := cursor.grows grows
  obtain ⟨t'', x', again, -, found', kept⟩ := createMultNode_plain later plain
  cases kept _ found
  cases found.symm.trans found'
  have reached : goto t' m.opened.curr (some path) = .ok (some (.element x)) :=
    (goto_eq later.sound (some path)).trans (congrArg _ found)
  obtain ⟨name, k, above, last, way⟩ := plain.last
  rw [way, lookup_append] at found
  obtain ⟨q, -, here⟩ := Option.bind_eq_some_iff.mp found
  obtain ⟨k', child, same⟩ := Option.bind_eq_some_iff.mp here
  cases same
  obtain ⟨label, before⟩ := child?_before child
  rw [← opened_curr valid]
  refine ⟨t', x, name, k, ?_, goto_reached reached, addNode_made again, last, label, before⟩
  simp only [Maker.addNode, made]
  rfl

theorem addNode_idempotent_sample :
    ∃ t' x name k,
      Maker.addNode ⟨none, [], .null⟩ (some ['/', 'a', '/', 'b', ':', '1']) =
        .ok (⟨some t', [], .element x⟩, true) ∧
      Maker.goto ⟨some t', [], .null⟩ (some ['/', 'a', '/', 'b', ':', '1']) =
        .ok (⟨some t', [], .element x⟩, true) ∧
      Maker.addNode ⟨some t', [], .null⟩ (some ['/', 'a', '/', 'b', ':', '1']) =
        .ok (⟨some t', [], .element x⟩, true) ∧
      LastName ['/', 'a', '/', 'b', ':', '1'] name k ∧ t'.label? x = some name ∧
      sameNameBefore t' x = some k :=
  addNode_idempotent (m := ⟨none, [], .null⟩) rfl plainPath_sample

end Adding

end DevAccess.Xml
