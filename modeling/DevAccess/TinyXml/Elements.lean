import DevAccess.TinyXml.Parser

/-! The elements of a document, as those see them that look for elements and texts. -/
namespace DevAccess.TinyXml
open Foundation Xml

def Siblings.seen : Siblings → Forest CText Xml.Leaf
  | nil => .nil
  | element value _ firstChild next => .node 0 (CText.c_str value) firstChild.seen next.seen
  | leaf (.text value _) next => .leaf (.text (CText.c_str value)) next.seen
  | leaf _ next => .leaf .other next.seen

def Siblings.elements : Siblings → List (CText × Siblings)
  | nil => []
  | element value _ firstChild next => (CText.c_str value, firstChild) :: next.elements
  | leaf _ next => next.elements

theorem seen_nodes (nodes : Siblings) :
    nodes.seen.nodes = nodes.elements.map fun e => (e.1, e.2.seen) := by
  induction nodes with
  | nil => rfl
  | element value attributes firstChild next first_ih ih =>
    rw [Siblings.seen, Forest.nodes, Siblings.elements, List.map_cons, ih]
  | leaf content next ih =>
    cases content with
    | text value cdata => exact ih
    | _ => exact ih

end DevAccess.TinyXml
