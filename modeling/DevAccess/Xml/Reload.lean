import DevAccess.TinyXml.Elements
import DevAccess.TinyXml.Files
import DevAccess.Xml.Calls

/-! A document that was built by calls, printed by str and parsed again answers as the one that
was built. -/
namespace DevAccess.Xml
open Foundation KeyedTree TinyXml

def found (d : TinyXml.Document) : Option (Forest Text Leaf) :=
  if d.error = none then some d.children.seen else none

def Maker.parseText (m : Maker) (xml : Text) : Call (Maker × Bool) := do
  return m.parse (found (← TinyXml.Document.parse xml))

def gbkDeclaration : TinyXml.Leaf := .declaration ['1', '.', '0'] ['g', 'b', 'k'] []

/-- The nodes of a document that carry nothing but what its maker shows: no attributes, no sections,
and besides elements and texts only such declarations. -/
def BareNodes : TinyXml.Siblings → Prop
  | .nil => True
  | .element value attributes firstChild next =>
    '\x00' ∉ value ∧ attributes = [] ∧ BareNodes firstChild ∧ BareNodes next
  | .leaf (.text value cdata) next => '\x00' ∉ value ∧ cdata = false ∧ BareNodes next
  | .leaf content next => content = gbkDeclaration ∧ BareNodes next

/-- A call that brings no parsed text into the document. -/
def Op.Builds : Op → Prop
  | .parse _ | .parseFile _ _ => False
  | _ => True

/-- A maker whose document was built by calls, from nothing or from a text of bare nodes. -/
inductive Bare : Maker → Prop
  | new {value : Text} {curr : Ref} : Bare ⟨none, value, curr⟩
  | parsed {m : Maker} {d : TinyXml.Document} (bare : BareNodes d.children) :
      Bare (m.parse (found d)).1
  | called {m m' : Maker} {op : Op} (before : Bare m) (builds : op.Builds)
      (returned : op.run m = .ok m') : Bare m'

/-- The nodes of a bare document. -/
def nodesOf : Forest Text Leaf → TinyXml.Siblings
  | .nil => .nil
  | .node _ name kids rest => .element name [] (nodesOf kids) (nodesOf rest)
  | .leaf (.text value) rest => .leaf (.text value false) (nodesOf rest)
  | .leaf .other rest => .leaf gbkDeclaration (nodesOf rest)

def Maker.str (m : Maker) : Text :=
  match m.doc with
  | none => []
  | some t => TinyXml.Document.str ⟨nodesOf t.forest, false, none⟩

def CStrings : Forest Text Leaf → Prop
  | .nil => True
  | .node _ name kids rest => '\x00' ∉ name ∧ CStrings kids ∧ CStrings rest
  | .leaf (.text value) rest => '\x00' ∉ value ∧ CStrings rest
  | .leaf .other rest => CStrings rest

section Reload
variable {f : Forest Text Leaf} {t : Doc}

theorem nodesOf_rename (ρ : Nat → Nat) (f : Forest Text Leaf) : nodesOf (f.rename ρ) = nodesOf f := by
  induction f with
  | nil => rfl
  | node key name kids rest kids_ih rest_ih => simp [Forest.rename, nodesOf, kids_ih, rest_ih]
  | leaf content rest ih =>
    cases content with
    | text value => simp [Forest.rename, nodesOf, ih]
    | other => simp [Forest.rename, nodesOf, ih]

theorem nodesOf_number (f : Forest Text Leaf) (n : Nat) : nodesOf (f.number n).1 = nodesOf f := by
  induction f generalizing n with
  | nil => rfl
  | node key name kids rest kids_ih rest_ih => simp [Forest.number, nodesOf, kids_ih, rest_ih]
  | leaf content rest ih =>
    cases content with
    | text value => simp [Forest.number, nodesOf, ih]
    | other => simp [Forest.number, nodesOf, ih]

theorem seen_nodesOf (strings : CStrings f) : (nodesOf f).seen = f.rename fun _ => 0 := by
  induction f with
  | nil => rfl
  | node key name kids rest kids_ih rest_ih =>
    obtain ⟨noZero, inside, beside⟩ := strings
    rw [nodesOf, Siblings.seen, Forest.rename, CText.c_str_whole noZero, kids_ih inside,
      rest_ih beside]
  | leaf content rest ih =>
    cases content with
    | text value =>
      obtain ⟨noZero, beside⟩ := strings
      rw [nodesOf, Siblings.seen, Forest.rename, CText.c_str_whole noZero, ih beside]
    | other => exact congrArg (Forest.leaf Leaf.other) (ih strings)

theorem nodesOf_raw (strings : CStrings f) : (nodesOf f).Raw (· ≠ '\x00') := by
  induction f with
  | nil => trivial
  | node key name kids rest kids_ih rest_ih =>
    obtain ⟨noZero, inside, beside⟩ := strings
    exact ⟨fun c member same => noZero (same ▸ member), kids_ih inside, rest_ih beside⟩
  | leaf content rest ih =>
    cases content with
    | text value => exact ⟨trivial, ih strings.2⟩
    | other =>
      refine ⟨?_, ih strings⟩
      have noZero : '\x00' ∉ ['1', '.', '0'] ++ ['g', 'b', 'k'] ++ ([] : CText) := by decide
      exact fun c member same => noZero (same ▸ member)

theorem nodesOf_bare (strings : CStrings f) : BareNodes (nodesOf f) := by
  induction f with
  | nil => trivial
  | node key name kids rest kids_ih rest_ih =>
    exact ⟨strings.1, rfl, kids_ih strings.2.1, rest_ih strings.2.2⟩
  | leaf content rest ih =>
    cases content with
    | text value => exact ⟨strings.1, rfl, ih strings.2⟩
    | other => exact ⟨rfl, ih strings⟩

theorem nodesOf_seen {nodes : TinyXml.Siblings} (bare : BareNodes nodes) :
    nodesOf nodes.seen = nodes := by
  induction nodes with
  | nil => rfl
  | element value attributes firstChild next first_ih next_ih =>
    obtain ⟨noZero, rfl, inside, beside⟩ := bare
    rw [Siblings.seen, nodesOf, CText.c_str_whole noZero, first_ih inside, next_ih beside]
  | leaf content next ih =>
    cases content with
    | text value cdata =>
      obtain ⟨noZero, rfl, beside⟩ := bare
      rw [Siblings.seen, nodesOf, CText.c_str_whole noZero, ih beside]
    | comment value | unknown value | declaration version encoding standalone =>
      obtain ⟨same, beside⟩ := bare
      rw [same]
      exact congrArg (TinyXml.Siblings.leaf gbkDeclaration) (ih beside)

/-- After a bare text was parsed, str() prints the nodes that were made of it. -/
theorem str_parsed (m : Maker) {d : TinyXml.Document} (bare : BareNodes d.children)
    (valid : d.error = none) :
    (m.parse (found d)).1.str = TinyXml.Document.str ⟨d.children, false, none⟩ := by
  have printed : nodesOf (d.children.seen.number m.allocated.doc.next).1 = d.children := by
    rw [nodesOf_number, nodesOf_seen bare]
  rw [found, if_pos valid]
  exact congrArg (fun nodes => TinyXml.Document.str ⟨nodes, false, none⟩) printed

theorem calls_bare {m a : Maker} (bare : Bare m) {ops : List Op} (builds : ∀ op ∈ ops, op.Builds)
    (left : (calls m ops).2 = .ok a) : Bare a := by
  induction ops generalizing m with
  | nil =>
    cases left
    exact bare
  | cons op ops ih =>
    obtain ⟨here, later⟩ := List.forall_mem_cons.mp builds
    rw [calls] at left
    cases answer : op.call m with
    | error e =>
      rw [answer] at left
      cases left
    | ok r =>
      rw [answer] at left
      have returned : op.run m = .ok r.1 := by
        rw [← call_run, answer]
        rfl
      exact ih (.called bare here returned) later left

theorem fill_again (t : Doc) (strings : CStrings t.forest) (n : Nat) :
    ∃ ρ, Renamed ρ t (fill n (nodesOf t.forest).seen) := by
  have filled : (fill n (nodesOf t.forest).seen).forest = (t.forest.number n).1 := by
    rw [seen_nodesOf strings]
    exact congrArg Prod.fst (Forest.number_rename _ t.forest n)
  obtain ⟨-, numbered, -⟩ := Forest.number_keys n t.forest
  obtain ⟨ρ, injective, mapped⟩ :=
    exists_renaming t.distinct numbered (Forest.number_length t.forest n).symm
  exact ⟨ρ, injective, filled.trans (Forest.number_eq_rename t.forest n mapped.symm)⟩

theorem str_same {m m' : Maker} (same : SameMakers m m') : m'.str = m.str := by
  obtain ⟨o, o', ρ, rfl, rfl, related⟩ := same
  rw [Maker.str, Maker.str]
  simp only [Opened.maker, related.renamed.forest, nodesOf_rename]

/-- A bare maker and one that has parsed its str() answer every sequence of calls alike, and print
the same text after it, unless one of them parses another. -/
theorem parse_str_alike (m' : Opened) (value : Text) (bare : Bare ⟨some t, value, .null⟩)
    (printable : PrintableDocument .unknown (nodesOf t.forest))
    (strings : CStrings t.forest) (nonempty : t.forest ≠ .nil) (top : m'.curr = .null)
    (named : m'.value = value) (ops : List Op) :
    ∃ again, m'.maker.parseText (Maker.str ⟨some t, value, .null⟩) = .ok (again, true) ∧
      (calls again ops).1 = (calls ⟨some t, value, .null⟩ ops).1 ∧
      ((∀ op ∈ ops, op.Builds) → Alike (fun a b => Bare a ∧ Bare b ∧ b.str = a.str)
        (calls ⟨some t, value, .null⟩ ops).2 (calls again ops).2) := by
  have present : nodesOf t.forest ≠ .nil := by
    intro none
    cases forest : t.forest with
    | nil => exact nonempty forest
    | node key name kids rest => rw [forest] at none; cases none
    | leaf content rest =>
      rw [forest] at none
      cases content with
      | text value => cases none
      | other => cases none
  have written : WrittenDocument (startEncoding false) (nodesOf t.forest)
      (Maker.str ⟨some t, value, .null⟩) :=
    printed_written printable (nodesOf_raw strings) ⟨rfl, rfl⟩ new_white
  have read : TinyXml.Document.parse (Maker.str ⟨some t, value, .null⟩) =
      .ok ⟨nodesOf t.forest, false, none⟩ :=
    parse_written written present
  obtain ⟨ρ, renamed⟩ := fill_again t strings m'.doc.next
  have same : SameMakers ⟨some t, value, .null⟩ (m'.load (some (nodesOf t.forest).seen)).1.maker :=
    ⟨⟨t, value, .null⟩, _, ρ, rfl, rfl, renamed, named, top, trivial⟩
  have again : Bare (m'.load (some (nodesOf t.forest).seen)).1.maker :=
    .parsed (m := m'.maker) (d := ⟨nodesOf t.forest, false, none⟩) (nodesOf_bare strings)
  obtain ⟨replies, left⟩ := calls_alike same ops
  refine ⟨_, ?_, replies, fun builds => ?_⟩
  · rw [Maker.parseText, read]
    rfl
  · have printed := left.mono fun a b same => str_same same
    exact printed.both (fun _ => calls_bare bare builds) fun _ => calls_bare again builds

def shelf : Doc :=
  ((newDocument.addNode none trivial ['r']).addNode (some 0) (by decide) ['a']).addLeaf (some 1)
    (by decide)
    (.text ['1', ' ', '<', '2'])

theorem shelf_bare : Bare ⟨some shelf, [], .null⟩ := by
  have builds : (Op.addValue (some ['r', '/', 'a']) (some ['1', ' ', '<', '2'])).Builds := trivial
  have start : Bare ⟨none, [], .null⟩ := .new
  exact .called start builds rfl

theorem shelf_printable : PrintableDocument .unknown (nodesOf shelf.forest) := by
  have legacy : encodingAfter .unknown (.leaf gbkDeclaration .nil) = .legacy := by decide
  have whole : ∀ s, TinyXml.Whole .unknown s := whole_other (by decide)
  have whole' : ∀ s, TinyXml.Whole .legacy s := whole_other (by decide)
  have tag : ∀ c, TinyXml.nameStart c = true → PrintableTag .legacy [c] [] := by
    intro c start
    refine ⟨⟨by simpa using start, List.forall_mem_singleton.mpr (nameStart_part start),
      fun mark => ?_⟩, List.forall_mem_nil _, List.nodup_nil⟩
    cases mark.1
  have readable : Readable .legacy ['1', ' ', '<', '2'] :=
    ⟨⟨whole' _, by decide⟩, by decide, by decide, fun mark => by cases mark.1⟩
  refine ⟨⟨⟨whole _, by decide⟩, ⟨whole _, by decide⟩, ⟨whole _, by decide⟩⟩, rfl, ?_⟩
  rw [legacy]
  exact ⟨tag 'r' (by decide), ⟨tag 'a' (by decide), ⟨readable, rfl, fun _ => rfl, trivial⟩,
    trivial⟩, trivial⟩

theorem shelf_again : ∃ again,
    (⟨KeyedTree.empty 5, [], .null⟩ : Opened).maker.parseText (Maker.str ⟨some shelf, [], .null⟩) =
      .ok (again, true) ∧
      (calls again [.updateValue (some ['r', '/', 'b']) (some ['3']), .getValue
        (some ['/', 'r', '/', 'a'])]).1 =
        (calls ⟨some shelf, [], .null⟩
          [.updateValue (some ['r', '/', 'b']) (some ['3']), .getValue
            (some ['/', 'r', '/', 'a'])]).1 ∧
      ((∀ op ∈ [Op.updateValue (some ['r', '/', 'b']) (some ['3']), .getValue
          (some ['/', 'r', '/', 'a'])], op.Builds) →
        Alike (fun a b => Bare a ∧ Bare b ∧ b.str = a.str)
          (calls ⟨some shelf, [], .null⟩ [.updateValue (some ['r', '/', 'b']) (some ['3']), .getValue
            (some ['/', 'r', '/', 'a'])]).2
          (calls again [.updateValue (some ['r', '/', 'b']) (some ['3']), .getValue
            (some ['/', 'r', '/', 'a'])]).2) :=
  parse_str_alike ⟨KeyedTree.empty 5, [], .null⟩ [] shelf_bare shelf_printable ⟨by decide,
    ⟨by decide, ⟨by decide, trivial⟩, trivial⟩, trivial⟩
    (fun none => by cases none) rfl rfl _

end Reload

end DevAccess.Xml
