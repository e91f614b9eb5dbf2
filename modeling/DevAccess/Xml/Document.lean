import DevAccess.Foundation.CText
import DevAccess.Foundation.KeyedTree

/-! The document of a SimpleXMLParser and the two loops over a path: _goto, which only
looks, and _create_mult_node, which adds what is missing. The elements are the nodes of a
keyed forest, so a pointer is a key, and a pointer to a removed element is a key that no
node has any more. -/
namespace DevAccess.Xml
open Foundation

abbrev Text := CText

inductive Leaf where
  | text (value : Text)
  | other
deriving DecidableEq

abbrev Doc := KeyedTree Text Leaf

/-- What a TiXmlElement* can point to. _find_node casts the parent of an element, so the
document is among it. -/
inductive Ref where
  | null
  | document
  | element (key : Nat)
deriving DecidableEq

/-- A call that does not return: it uses a null pointer or a removed node, or it goes on
without end. -/
inductive Stop where
  | fault
  | hang
deriving DecidableEq

abbrev Call := Except Stop

/-- Where the children of a node are. The code takes those of m_doc for a null pointer. -/
def within (t : Doc) : Ref → Call { p : Option Nat // t.Place p }
  | .null | .document => .ok ⟨none, trivial⟩
  | .element k => if live : t.Live k then .ok ⟨some k, live⟩ else .error .fault

def parentNode (t : Doc) : Ref → Call Ref
  | .null => .ok .null
  | .document => .ok .null
  | .element k =>
    match t.parent? k with
    | none => .error .fault
    | some none => .ok .document
    | some (some q) => .ok (.element q)

def elements (t : Doc) (p : Option Nat) : List (Nat × Text) :=
  (t.childrenAt p).filterMap Forest.Child.head?

def getText (t : Doc) (p : Option Nat) : Option Text :=
  match t.childrenAt p with
  | .leaf (.text value) :: _ => some value
  | _ => none

def findSibling (title : Text) (index i : Int) : List (Nat × Text) → Option Nat × Int
  | [] => (none, i)
  | (key, value) :: rest =>
    if title = value then
      if i = index then (some key, i) else findSibling title index (i + 1) rest
    else findSibling title index i rest

structure Search where
  node : Ref
  i : Int
  isFind : Bool

def findNode (t : Doc) (parent : Ref) (title : Text) (index : Int) : Call Search := do
  if title = [] then return ⟨parent, 0, true⟩
  if title = ['.'] then return ⟨parent, 0, true⟩
  if title = ['.', '.'] then return ⟨← parentNode t parent, 0, true⟩
  let place ← within t parent
  match findSibling title index 0 (elements t place) with
  | (some key, i) => return ⟨.element key, i, true⟩
  | (none, i) => return ⟨.null, i, false⟩

def splitStr (s : Text) : List Text := if s = [] then [] else s.splitOn '/'

def component (str : Text) : Text × Int :=
  match str.dropWhile (· ≠ ':') with
  | [] => (str, 0)
  | _ :: index => (str.takeWhile (· ≠ ':'), CText.atoi index)

def start (curr : Ref) (path : Text) : Ref := if path.head? = some '/' then .null else curr

/-- The loop of _goto; none where a part of the path is not there. -/
def walk (t : Doc) : Ref → List Text → Call (Option Ref)
  | parent, [] => .ok (some parent)
  | parent, str :: strs =>
    let (title, iIndex) := component str
    if title = [] then walk t parent strs
    else do
      let found ← findNode t parent title iIndex
      if found.isFind then walk t found.node strs else return none

def goto (t : Doc) (curr : Ref) : Option Text → Call (Option Ref)
  | none => .ok (some curr)
  | some path =>
    if path = [] ∨ path = ['.'] then .ok (some curr)
    else if path = ['/'] then .ok (some .null)
    else walk t (start curr path) (splitStr path)

def createNodes (title : Text) (parent : Ref) : Nat → Doc → Ref → Call (Doc × Ref)
  | 0, t, p => .ok (t, p)
  | n + 1, t, _ => do
    let ⟨place, here⟩ ← within t parent
    createNodes title parent n (t.addNode place here title) (.element t.next)

/-- With the largest index the counter never passes it. -/
def findAndCreateNode (t : Doc) (parent : Ref) (title : Text) (index : Int) : Call (Doc × Ref) := do
  let found ← findNode t parent title index
  if found.isFind then return (t, found.node)
  if index = 2147483647 then throw .hang
  createNodes title parent (index + 1 - found.i).toNat t .null

def createParts : Doc → Ref → List Text → Call (Doc × Ref)
  | t, parent, [] => .ok (t, parent)
  | t, parent, str :: strs => do
    let (title, iIndex) := component str
    let (t, next) ← findAndCreateNode t parent title iIndex
    createParts t next strs

def createMultNode (t : Doc) (curr : Ref) (path : Text) : Call (Doc × Ref) :=
  createParts t (start curr path) (splitStr path)

end DevAccess.Xml
