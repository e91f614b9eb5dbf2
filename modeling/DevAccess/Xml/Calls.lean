import DevAccess.Xml.Maker
import DevAccess.Xml.Renaming

/-! The calls of a maker with what they return. None depends on the keys of the document: two
makers whose documents differ in their keys only answer every sequence of calls alike. -/
namespace DevAccess.Xml
open Foundation KeyedTree

inductive Reply where
  | told (done : Bool)
  | text (value : Option Text)
deriving DecidableEq

def told (r : Maker × Bool) : Maker × Reply := (r.1, .told r.2)

def Op.call (m : Maker) : Op → Call (Maker × Reply)
  | parse content => .ok (told (m.parse content))
  | parseFile file content => .ok (told (m.parseFile file content))
  | goto path => told <$> m.goto path
  | gotoFirstChild => told <$> m.gotoFirstChild
  | next path => told <$> m.next path
  | getValue title => (fun value => (m, .text value)) <$> m.getValue title
  | getNodeName path => (fun r => (r.1, .text r.2)) <$> m.getNodeName path
  | addNode path => told <$> m.addNode path
  | simpleAddNode path => told <$> m.simpleAddNode path
  | addValue title val => told <$> m.addValue title val
  | updateValue title val => told <$> m.updateValue title val
  | simpleAddValue title val => told <$> m.simpleAddValue title val
  | eraseValue title => told <$> m.eraseValue title

theorem told_fst (x : Call (Maker × Bool)) : Prod.fst <$> told <$> x = Prod.fst <$> x := by
  cases x with
  | ok r => rfl
  | error e => rfl

theorem call_run (m : Maker) (op : Op) : Prod.fst <$> op.call m = op.run m := by
  cases op with
  | parse content => rfl
  | parseFile file content => rfl
  | getValue title =>
    simp only [Op.call, Op.run]
    cases m.getValue title with
    | ok value => rfl
    | error e => rfl
  | getNodeName path =>
    simp only [Op.call, Op.run]
    cases m.getNodeName path with
    | ok r => rfl
    | error e => rfl
  | _ => exact told_fst _

def calls : Maker → List Op → List Reply × Call Maker
  | m, [] => ([], .ok m)
  | m, op :: ops =>
    match op.call m with
    | .error e => ([], .error e)
    | .ok (m, reply) => (reply :: (calls m ops).1, (calls m ops).2)

structure Related (ρ : Nat → Nat) (o o' : Opened) : Prop where
  renamed : Renamed ρ o.doc o'.doc
  value : o'.value = o.value
  curr : Ref.Moved ρ o.doc o'.doc o.curr o'.curr

/-- Makers that differ in the keys of their documents only. -/
def SameMakers (m m' : Maker) : Prop := ∃ o o' ρ, m = o.maker ∧ m' = o'.maker ∧ Related ρ o o'

def Answers {γ : Type} (r r' : Maker × γ) : Prop := SameMakers r.1 r'.1 ∧ r'.2 = r.2

section Calls
variable {ρ σ : Nat → Nat} {o o' : Opened} {t t' : Doc}

theorem told_answers {r r' : Maker × Bool} (answers : Answers r r') : Answers (told r) (told r') :=
  ⟨answers.1, congrArg Reply.told answers.2⟩

theorem Related.parts (related : Related ρ o o') : ∃ t t' value curr, o = ⟨t, value, curr⟩ ∧
    o' = ⟨t', value, curr.rename ρ⟩ ∧ Renamed ρ t t' ∧ curr.Held ρ t t' := by
  obtain ⟨t, value, curr⟩ := o
  obtain ⟨t', value', curr'⟩ := o'
  obtain ⟨renamed, same, moved, held⟩ := related
  exact ⟨t, t', value, curr, rfl, congrArg₂ (Opened.mk t') same moved, renamed, held⟩

theorem Related.follows (related : Related ρ o o') {u u' : Doc}
    (follows : Follows ρ σ o.doc o'.doc u u') :
    SameMakers ({ o with doc := u } : Opened).maker ({ o' with doc := u' } : Opened).maker := by
  obtain ⟨held, same⟩ := follows.held related.curr.2
  exact ⟨_, _, σ, rfl, rfl, follows.renamed, related.value, related.curr.1.trans same.symm, held⟩

theorem Related.moves (related : Related ρ o o') {r r' : Ref}
    (moved : Ref.Moved ρ o.doc o'.doc r r') :
    SameMakers ({ o with curr := r } : Opened).maker ({ o' with curr := r' } : Opened).maker :=
  ⟨_, _, ρ, rfl, rfl, related.renamed, related.value, moved⟩

theorem Related.same (related : Related ρ o o') : SameMakers o.maker o'.maker :=
  ⟨o, o', ρ, rfl, rfl, related⟩

theorem goto_alike (related : Related ρ o o') (path : Option Text) :
    Alike Answers (o.maker.goto path) (o'.maker.goto path) := by
  have gone := goto_renamed related.renamed related.curr.2 path
  rw [← related.curr.1] at gone
  apply gone.bind
  rintro r r' (moved | _)
  · exact .ok ⟨related.moves moved, rfl⟩
  · exact .ok ⟨related.same, rfl⟩

theorem gotoFirstChild_alike (related : Related ρ o o') :
    Alike Answers o.maker.gotoFirstChild o'.maker.gotoFirstChild := by
  have inside := within_renamed related.renamed o.curr
  rw [← related.curr.1] at inside
  apply inside.bind
  rintro ⟨p, here⟩ ⟨p', here'⟩ rfl
  simp only [elements_renamed related.renamed]
  cases found : elements o.doc p with
  | nil => exact .ok ⟨related.same, rfl⟩
  | cons e rest =>
    have held := child_held related.renamed (found ▸ List.mem_cons_self : e ∈ elements o.doc p)
    exact .ok ⟨related.moves ⟨rfl, held⟩, rfl⟩

theorem getValue_alike (related : Related ρ o o') (title : Option Text) :
    Alike (fun v v' => v' = v) (o.maker.getValue title) (o'.maker.getValue title) := by
  have gone := goto_renamed related.renamed related.curr.2 title
  rw [← related.curr.1] at gone
  apply gone.bind
  rintro r r' (⟨rfl, held⟩ | _)
  · rename_i r
    cases r with
    | null => exact .ok rfl
    | document =>
      apply (within_renamed related.renamed .document).bind
      rintro ⟨p, here⟩ ⟨p', here'⟩ rfl
      exact .ok (getText_renamed related.renamed p)
    | element k =>
      apply (within_renamed related.renamed (.element k)).bind
      rintro ⟨p, here⟩ ⟨p', here'⟩ rfl
      exact .ok (getText_renamed related.renamed p)
  · exact .ok rfl

theorem nextSibling_renamed (injective : Function.Injective ρ) (key : Nat) (path : Option Text)
    (l : List (Nat × Text)) : nextSibling (ρ key) path (l.map (renameHead ρ)) =
    (nextSibling key path l).map (renameHead ρ) := by
  have apart : (fun e : Nat × Text => decide (e.1 ≠ ρ key)) ∘ renameHead ρ =
      fun e => decide (e.1 ≠ key) := by
    funext e
    simp [renameHead, injective.eq_iff]
  rw [nextSibling, nextSibling, List.dropWhile_map, ← List.map_tail, List.find?_map, apart]
  rfl

theorem nextSibling_mem {key : Nat} {path : Option Text} {l : List (Nat × Text)} {e : Nat × Text}
    (found : nextSibling key path l = some e) : e ∈ l :=
  (List.dropWhile_subset _) (List.mem_of_mem_tail (List.mem_of_find?_eq_some found))

theorem next_alike (related : Related ρ o o') (path : Option Text) :
    Alike Answers (o.maker.next path) (o'.maker.next path) := by
  have same := related.same
  obtain ⟨t, t', value, curr, rfl, rfl, renamed, held⟩ := related.parts
  cases curr with
  | null => exact .ok ⟨same, rfl⟩
  | document => exact .ok ⟨same, rfl⟩
  | element key =>
    simp only [Maker.next, Opened.maker, Ref.rename, renamed.parent]
    cases t.parent? key with
    | none => exact .error _
    | some place =>
      simp only [Option.map_some, elements_renamed renamed, nextSibling_renamed renamed.injective]
      cases found : nextSibling key path (elements t place) with
      | none => exact .ok ⟨same, rfl⟩
      | some e =>
        have reached := child_held renamed (nextSibling_mem found)
        exact .ok ⟨⟨⟨t, value, .element e.1⟩, ⟨t', value, .element (ρ e.1)⟩, ρ, rfl, rfl, renamed,
          rfl, rfl, reached⟩, rfl⟩

theorem getNodeName_alike (related : Related ρ o o') (path : Option Text) :
    Alike Answers (o.maker.getNodeName path) (o'.maker.getNodeName path) := by
  have gone := goto_renamed related.renamed related.curr.2 path
  rw [← related.curr.1] at gone
  apply gone.bind
  rintro r r' (⟨rfl, held⟩ | _)
  · rename_i r
    cases r with
    | null => exact .ok ⟨related.same, rfl⟩
    | document => exact .ok ⟨related.same, congrArg some related.value⟩
    | element k =>
      simp only [Ref.rename, Maker.opened, Opened.maker, related.renamed.label]
      cases o.doc.label? k with
      | none => exact .error _
      | some name => exact .ok ⟨related.same, rfl⟩
  · exact .ok ⟨related.same, rfl⟩

theorem simpleAddNode_alike (related : Related ρ o o') (path : Option Text) :
    Alike Answers (o.maker.simpleAddNode path) (o'.maker.simpleAddNode path) := by
  cases path with
  | none => exact .ok ⟨related.same, rfl⟩
  | some name =>
    have inside := within_renamed related.renamed o.curr
    rw [← related.curr.1] at inside
    apply inside.bind
    rintro ⟨p, here⟩ ⟨p', here'⟩ rfl
    have follows := addNode_follows related.renamed here here' name
    refine .ok ⟨⟨⟨_, o.value, .element o.doc.next⟩, ⟨_, o'.value, .element o'.doc.next⟩, _, rfl, rfl,
      follows.renamed, related.value, ?_, new_held here here' name⟩, rfl⟩
    rw [Ref.rename, sending_self]

theorem addNode_alike (related : Related ρ o o') (path : Option Text) :
    Alike Answers (o.maker.addNode path) (o'.maker.addNode path) := by
  cases path with
  | none => exact .ok ⟨related.same, rfl⟩
  | some path =>
    have made := createMultNode_renamed related.renamed related.curr.2 path
    rw [← related.curr.1] at made
    apply made.bind
    rintro ⟨u, r⟩ ⟨u', r'⟩ ⟨σ, follows, moved, held⟩
    exact .ok ⟨⟨⟨u, o.value, r⟩, ⟨u', o'.value, r'⟩, σ, rfl, rfl, follows.renamed, related.value,
      moved, held⟩, rfl⟩

theorem addValue_alike (related : Related ρ o o') (title val : Option Text) :
    Alike Answers (o.maker.addValue title val) (o'.maker.addValue title val) := by
  cases title with
  | none => exact .ok ⟨related.same, rfl⟩
  | some title =>
    have made := createMultNode_renamed related.renamed related.curr.2 title
    rw [← related.curr.1] at made
    apply made.bind
    rintro ⟨u, r⟩ ⟨u', r'⟩ ⟨σ, follows, rfl, held⟩
    have inside := within_renamed follows.renamed r
    by_cases null : r = .null
    · subst null
      exact .ok ⟨related.follows follows, rfl⟩
    · have other : r.rename σ ≠ .null := by
        cases r with
        | null => exact absurd rfl null
        | document => exact fun same => by cases same
        | element k => exact fun same => by cases same
      simp only [if_neg null, if_neg other]
      apply inside.bind
      rintro ⟨p, here⟩ ⟨p', here'⟩ rfl
      exact .ok ⟨related.follows (follows.trans (addLeaf_follows follows.renamed here here' _)), rfl⟩

theorem clearNode_renamed (renamed : Renamed ρ t t') (r : Ref) :
    Alike (Follows ρ ρ t t') (clearNode t r) (clearNode t' (r.rename ρ)) := by
  cases r with
  | null => exact .error _
  | document => exact .ok ⟨⟨renamed.injective, rfl⟩, fun _ known => ⟨known, rfl⟩⟩
  | element k =>
    simp only [clearNode, Ref.rename]
    by_cases live : t.Live k
    · have live' := (renamed.live k).mpr live
      rw [dif_pos live, dif_pos live']
      exact .ok ⟨renamed.clear live live', fun _ known => ⟨known, rfl⟩⟩
    · rw [dif_neg live, dif_neg fun live' => live ((renamed.live k).mp live')]
      exact .error _

theorem updateValue_alike (related : Related ρ o o') (title val : Option Text) :
    Alike Answers (o.maker.updateValue title val) (o'.maker.updateValue title val) := by
  cases title with
  | none => exact .ok ⟨related.same, rfl⟩
  | some title =>
    have gone := goto_renamed related.renamed related.curr.2 (some title)
    rw [← related.curr.1] at gone
    apply gone.bind
    rintro r r' (⟨rfl, held⟩ | _)
    · apply (clearNode_renamed related.renamed _).bind
      rintro u u' follows
      apply (within_renamed follows.renamed _).bind
      rintro ⟨p, here⟩ ⟨p', here'⟩ rfl
      exact .ok ⟨related.follows (follows.trans (addLeaf_follows follows.renamed here here' _)), rfl⟩
    · exact addValue_alike related (some title) val

theorem simpleAddValue_alike (related : Related ρ o o') (title val : Option Text) :
    Alike Answers (o.maker.simpleAddValue title val) (o'.maker.simpleAddValue title val) := by
  cases title with
  | none => exact .ok ⟨related.same, rfl⟩
  | some name =>
    have inside := within_renamed related.renamed o.curr
    rw [← related.curr.1] at inside
    apply inside.bind
    rintro ⟨p, here⟩ ⟨p', here'⟩ rfl
    have follows := addNode_follows related.renamed here here' name
    have added := within_renamed follows.renamed (.element o.doc.next)
    rw [Ref.rename, sending_self] at added
    apply added.bind
    rintro ⟨q, there⟩ ⟨q', there'⟩ rfl
    exact .ok ⟨related.follows (follows.trans (addLeaf_follows follows.renamed there there' _)), rfl⟩

theorem eraseNode_renamed (renamed : Renamed ρ t t') (r : Ref) :
    Alike (Follows ρ ρ t t') (eraseNode t r) (eraseNode t' (r.rename ρ)) := by
  cases r with
  | null => exact .error _
  | document => exact .ok (.refl renamed)
  | element k =>
    simp only [eraseNode, Ref.rename]
    by_cases live : t.Live k
    · have live' := (renamed.live k).mpr live
      rw [dif_pos live, dif_pos live']
      exact .ok ⟨renamed.remove live live', fun _ known => ⟨known, rfl⟩⟩
    · rw [dif_neg live, dif_neg fun live' => live ((renamed.live k).mp live')]
      exact .error _

theorem rename_inj (injective : Function.Injective ρ) {r s : Ref} :
    r.rename ρ = s.rename ρ ↔ r = s := by
  cases r with
  | null => cases s <;> simp [Ref.rename]
  | document => cases s <;> simp [Ref.rename]
  | element k => cases s <;> simp [Ref.rename, injective.eq_iff]

theorem eraseValue_alike (related : Related ρ o o') (title : Option Text) :
    Alike Answers (o.maker.eraseValue title) (o'.maker.eraseValue title) := by
  have gone := goto_renamed related.renamed related.curr.2 title
  rw [← related.curr.1] at gone
  apply gone.bind
  rintro r r' (⟨rfl, held⟩ | _)
  · rename_i r
    apply (eraseNode_renamed related.renamed r).bind
    intro u u' follows
    refine .ok ⟨?_, rfl⟩
    show SameMakers ⟨some u, o.value, if r = o.curr then .null else o.curr⟩
      ⟨some u', o'.value, if r.rename ρ = o'.curr then .null else o'.curr⟩
    by_cases here : r = o.curr
    · have here' : r.rename ρ = o'.curr := by rw [related.curr.1, here]
      rw [if_pos here, if_pos here']
      exact ⟨⟨u, o.value, .null⟩, ⟨u', o'.value, .null⟩, ρ, rfl, rfl, follows.renamed,
        related.value, rfl, trivial⟩
    · have other : r.rename ρ ≠ o'.curr := by
        rw [related.curr.1]
        exact fun same => here ((rename_inj related.renamed.injective).mp same)
      rw [if_neg here, if_neg other]
      exact related.follows follows
  · exact .ok ⟨related.same, rfl⟩

theorem load_alike (related : Related ρ o o') (content : Option (Forest Text Leaf)) :
    SameMakers (o.load content).1.maker (o'.load content).1.maker := by
  cases content with
  | none => exact related.follows ⟨⟨related.renamed.injective, rfl⟩, fun _ known => ⟨known, rfl⟩⟩
  | some content =>
    obtain ⟨t, t', value, curr, rfl, rfl, renamed, held⟩ := related.parts
    cases curr with
    | null =>
      obtain ⟨σ, filled, -⟩ := fill_renamed content t.next t'.next List.nodup_nil List.nodup_nil rfl
        (List.forall_mem_nil _) (List.forall_mem_nil _)
      exact ⟨⟨_, value, .null⟩, ⟨_, value, .null⟩, σ, rfl, rfl, filled, rfl, rfl, trivial⟩
    | document =>
      obtain ⟨σ, filled, -⟩ := fill_renamed content t.next t'.next List.nodup_nil List.nodup_nil rfl
        (List.forall_mem_nil _) (List.forall_mem_nil _)
      exact ⟨⟨_, value, .document⟩, ⟨_, value, .document⟩, σ, rfl, rfl, filled, rfl, rfl, trivial⟩
    | element k =>
      obtain ⟨σ, filled, sent⟩ := fill_renamed content t.next t'.next (List.nodup_singleton k)
        (List.nodup_singleton (ρ k)) rfl (List.forall_mem_singleton.mpr held.1)
        (List.forall_mem_singleton.mpr held.2)
      have moved : ρ k = σ k := (List.singleton_inj.mp sent).symm
      obtain ⟨le, -, -⟩ := Forest.number_keys t.next content
      obtain ⟨le', -, -⟩ := Forest.number_keys t'.next content
      have low' : σ k < t'.next := moved ▸ held.2
      exact ⟨⟨_, value, .element k⟩, ⟨_, value, .element (ρ k)⟩, σ, rfl, rfl, filled, rfl,
        congrArg Ref.element moved, Nat.lt_of_lt_of_le held.1 le, Nat.lt_of_lt_of_le low' le'⟩

theorem call_alike (related : Related ρ o o') (op : Op) :
    Alike Answers (op.call o.maker) (op.call o'.maker) := by
  have tells : ∀ {x y : Call (Maker × Bool)}, Alike Answers x y →
      Alike Answers (told <$> x) (told <$> y) :=
    fun alike => alike.map fun _ _ answers => told_answers answers
  have loaded : ∀ content, (o'.load content).2 = (o.load content).2 := by
    intro content
    cases content with
    | none => rfl
    | some content => rfl
  cases op with
  | parse content => exact .ok ⟨load_alike related content, congrArg Reply.told (loaded content)⟩
  | parseFile file content =>
    have named : Related ρ { o with value := file } { o' with value := file } :=
      ⟨related.renamed, rfl, related.curr⟩
    refine .ok ⟨load_alike named content, congrArg Reply.told ?_⟩
    cases content with
    | none => rfl
    | some content => rfl
  | goto path => exact tells (goto_alike related path)
  | gotoFirstChild => exact tells (gotoFirstChild_alike related)
  | next path => exact tells (next_alike related path)
  | getValue title =>
    exact (getValue_alike related title).map fun _ _ same => ⟨related.same, congrArg Reply.text same⟩
  | getNodeName path =>
    exact (getNodeName_alike related path).map fun _ _ answers => ⟨answers.1,
      congrArg Reply.text answers.2⟩
  | addNode path => exact tells (addNode_alike related path)
  | simpleAddNode path => exact tells (simpleAddNode_alike related path)
  | addValue title val => exact tells (addValue_alike related title val)
  | updateValue title val => exact tells (updateValue_alike related title val)
  | simpleAddValue title val => exact tells (simpleAddValue_alike related title val)
  | eraseValue title => exact tells (eraseValue_alike related title)

theorem calls_alike {m m' : Maker} (same : SameMakers m m') (ops : List Op) :
    (calls m' ops).1 = (calls m ops).1 ∧ Alike SameMakers (calls m ops).2 (calls m' ops).2 := by
  induction ops generalizing m m' with
  | nil => exact ⟨rfl, .ok same⟩
  | cons op ops ih =>
    obtain ⟨o, o', ρ, rfl, rfl, related⟩ := same
    have first := call_alike related op
    simp only [calls]
    cases answer : op.call o.maker with
    | error e =>
      rw [answer] at first
      cases first' : op.call o'.maker with
      | error e' =>
        rw [first'] at first
        cases first
        exact ⟨rfl, .error e⟩
      | ok r =>
        rw [first'] at first
        cases first
    | ok r =>
      rw [answer] at first
      cases first' : op.call o'.maker with
      | error e' =>
        rw [first'] at first
        cases first
      | ok r' =>
        rw [first'] at first
        cases first with
        | ok answers =>
          obtain ⟨next, reply⟩ := answers
          obtain ⟨replies, left⟩ := ih next
          refine ⟨?_, left⟩
          show r'.2 :: (calls r'.1 ops).1 = r.2 :: (calls r.1 ops).1
          rw [reply, replies]

end Calls

end DevAccess.Xml
