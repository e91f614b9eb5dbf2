import DevAccess.Foundation.Run
import DevAccess.Xml.Document

/-! The public operations of SimpleXMLParser and SimpleXMLMaker, and the sequences of
calls a program can make. -/
namespace DevAccess.Xml
open Foundation

/-- value is Value() of the document: the file it was last loaded from. -/
structure Maker where
  doc : Option Doc
  value : Text
  curr : Ref

structure Opened where
  doc : Doc
  value : Text
  curr : Ref

def Opened.maker (o : Opened) : Maker := ⟨some o.doc, o.value, o.curr⟩

def newDocument : Doc := (KeyedTree.empty 0).addLeaf none trivial .other

/-- The test of m_doc that comes before the work, with _create_xml_(NULL). -/
def Maker.opened (m : Maker) : Opened :=
  match m.doc with
  | some t => ⟨t, m.value, m.curr⟩
  | none => ⟨newDocument, [], .null⟩

def Maker.allocated (m : Maker) : Opened :=
  match m.doc with
  | some t => ⟨t, m.value, m.curr⟩
  | none => ⟨KeyedTree.empty 0, [], m.curr⟩

/-- Clear, then what TinyXML makes of the text, or Clear again after an error. -/
def Opened.load (o : Opened) : Option (Forest Text Leaf) → Opened × Bool
  | some content => ({ o with doc := KeyedTree.fill o.doc.next content }, true)
  | none => ({ o with doc := KeyedTree.empty o.doc.next }, false)

def Maker.parse (m : Maker) (content : Option (Forest Text Leaf)) : Maker × Bool :=
  let (o, ok) := m.allocated.load content
  (o.maker, ok)

def Maker.parseFile (m : Maker) (file : Text) (content : Option (Forest Text Leaf)) : Maker × Bool :=
  let (o, ok) := { m.allocated with value := file }.load content
  (o.maker, ok)

def Maker.goto (m : Maker) (path : Option Text) : Call (Maker × Bool) := do
  let o := m.opened
  match ← Xml.goto o.doc o.curr path with
  | some node => return ({ o with curr := node }.maker, true)
  | none => return (o.maker, false)

/-- The path that GotoFirstChild takes changes nothing. -/
def Maker.gotoFirstChild (m : Maker) : Call (Maker × Bool) := do
  match m.doc with
  | none => return (m, false)
  | some t =>
    let place ← within t m.curr
    match elements t place with
    | [] => return (m, false)
    | (key, _) :: _ => return ({ m with curr := .element key }, true)

def nextSibling (key : Nat) (path : Option Text) (siblings : List (Nat × Text)) : Option (Nat × Text) :=
  (siblings.dropWhile (·.1 ≠ key)).tail.find? fun sibling =>
    path = none ∨ path = some [] ∨ path = some sibling.2

def Maker.next (m : Maker) (path : Option Text) : Call (Maker × Bool) :=
  match m.curr, m.doc with
  | .null, _ => .ok (m, false)
  | .document, _ => .ok (m, false)
  | .element _, none => .error .fault
  | .element key, some t =>
    match t.parent? key with
    | none => .error .fault
    | some place =>
      match nextSibling key path (elements t place) with
      | none => .ok (m, false)
      | some (next, _) => .ok ({ m with curr := .element next }, true)

def Maker.getValue (m : Maker) (title : Option Text) : Call (Option Text) := do
  match m.doc with
  | none => return none
  | some t =>
    match ← Xml.goto t m.curr title with
    | none => return none
    | some .null => return none
    | some node => return getText t (← within t node)

def Maker.getNodeName (m : Maker) (path : Option Text) : Call (Maker × Option Text) := do
  let o := m.opened
  match ← Xml.goto o.doc o.curr path with
  | none => return (o.maker, none)
  | some .null => return (o.maker, none)
  | some .document => return (o.maker, some o.value)
  | some (.element key) =>
    match o.doc.label? key with
    | none => throw .fault
    | some name => return (o.maker, some name)

def Maker.simpleAddNode (m : Maker) : Option Text → Call (Maker × Bool)
  | none => .ok (m, false)
  | some path => do
    let o := m.opened
    let ⟨place, here⟩ ← within o.doc o.curr
    return (⟨some (o.doc.addNode place here path), o.value, .element o.doc.next⟩, true)

def Maker.addNode (m : Maker) (path : Option Text) : Call (Maker × Bool) :=
  let o := m.opened
  match path with
  | none => .ok (o.maker, false)
  | some path => do
    let (t, node) ← createMultNode o.doc o.curr path
    return (⟨some t, o.value, node⟩, true)

def Maker.addValue (m : Maker) (title val : Option Text) : Call (Maker × Bool) :=
  match title with
  | none => .ok (m, false)
  | some title => do
    let o := m.opened
    let (t, node) ← createMultNode o.doc o.curr title
    if node = .null then return ({ o with doc := t }.maker, false)
    let ⟨place, here⟩ ← within t node
    return ({ o with doc := t.addLeaf place here (.text (val.getD [])) }.maker, true)

def clearNode (t : Doc) : Ref → Call Doc
  | .null => .error .fault
  | .document => .ok (KeyedTree.empty t.next)
  | .element k => if live : t.Live k then .ok (t.clear k live) else .error .fault

def Maker.updateValue (m : Maker) (title val : Option Text) : Call (Maker × Bool) :=
  match title with
  | none => .ok (m, false)
  | some title => do
    let o := m.opened
    match ← Xml.goto o.doc o.curr (some title) with
    | none => o.maker.addValue (some title) val
    | some node =>
      let t ← clearNode o.doc node
      let ⟨place, here⟩ ← within t node
      return ({ o with doc := t.addLeaf place here (.text (val.getD [])) }.maker, true)

def Maker.simpleAddValue (m : Maker) (title val : Option Text) : Call (Maker × Bool) :=
  match title with
  | none => .ok (m, false)
  | some title => do
    let o := m.opened
    let ⟨place, here⟩ ← within o.doc o.curr
    let t := o.doc.addNode place here title
    let ⟨added, there⟩ ← within t (.element o.doc.next)
    return ({ o with doc := t.addLeaf added there (.text (val.getD [])) }.maker, true)

/-- RemoveChild of the parent. The document has none and is not its own child, so nothing is
removed when it is the target. -/
def eraseNode (t : Doc) : Ref → Call Doc
  | .null => .error .fault
  | .document => .ok t
  | .element k => if live : t.Live k then .ok (t.remove k live) else .error .fault

def Maker.eraseValue (m : Maker) (title : Option Text) : Call (Maker × Bool) := do
  let o := m.opened
  match ← Xml.goto o.doc o.curr title with
  | none => return (o.maker, false)
  | some node =>
    let t ← eraseNode o.doc node
    return (⟨some t, o.value, if node = o.curr then .null else o.curr⟩, true)

inductive Op where
  | parse (content : Option (Forest Text Leaf))
  | parseFile (file : Text) (content : Option (Forest Text Leaf))
  | goto (path : Option Text)
  | gotoFirstChild
  | next (path : Option Text)
  | getValue (title : Option Text)
  | getNodeName (path : Option Text)
  | addNode (path : Option Text)
  | simpleAddNode (path : Option Text)
  | addValue (title val : Option Text)
  | updateValue (title val : Option Text)
  | simpleAddValue (title val : Option Text)
  | eraseValue (title : Option Text)

def Op.run (m : Maker) : Op → Call Maker
  | parse content => .ok (m.parse content).1
  | parseFile file content => .ok (m.parseFile file content).1
  | goto path => Prod.fst <$> m.goto path
  | gotoFirstChild => Prod.fst <$> m.gotoFirstChild
  | next path => Prod.fst <$> m.next path
  | getValue title => (fun _ => m) <$> m.getValue title
  | getNodeName path => Prod.fst <$> m.getNodeName path
  | addNode path => Prod.fst <$> m.addNode path
  | simpleAddNode path => Prod.fst <$> m.simpleAddNode path
  | addValue title val => Prod.fst <$> m.addValue title val
  | updateValue title val => Prod.fst <$> m.updateValue title val
  | simpleAddValue title val => Prod.fst <$> m.simpleAddValue title val
  | eraseValue title => Prod.fst <$> m.eraseValue title

inductive Session where
  | running (m : Maker)
  | crashed

/-- A call that never ends has no state after it, and neither has one after a crash. -/
def Session.step : Session → Op → Option Session
  | crashed, _ => none
  | running m, op =>
    match op.run m with
    | .ok m' => some (running m')
    | .error .fault => some crashed
    | .error .hang => none

end DevAccess.Xml
