import DevAccess.TinyXml.Written

/-! What the printers write, as one function of the nodes and the depth, and which documents
they write so that they are read again. -/
namespace DevAccess.TinyXml
open Foundation Xml

def firstText : Siblings → CText
  | .leaf (.text value _) _ => encodeString value
  | _ => []

def leafWord : Leaf → CText
  | .text value cdata => if cdata then cdataHeader ++ (CText.c_str value ++ cdataEnd)
    else encodeString value
  | .declaration version encoding standalone => Declared.print ⟨version, encoding, standalone⟩
  | .comment value => commentHeader ++ (CText.c_str value ++ commentEnd)
  | .unknown value => '<' :: (CText.c_str value ++ ['>'])

/-- What a TiXmlPrinter adds to its buffer for these nodes. -/
def layout (indent lineBreak : CText) (depth : Nat) : Siblings → CText
  | .nil => []
  | .element value attributes firstChild next =>
    (List.replicate depth indent).flatten ++
      '<' :: (CText.c_str value ++ (printAttributes attributes ++
      ((if firstChild = .nil then ' ' :: '/' :: '>' :: lineBreak
        else '>' :: ((if onlyText firstChild then firstText firstChild
          else lineBreak ++ (layout indent lineBreak (depth + 1) firstChild ++
            (List.replicate depth indent).flatten)) ++ (endTag (CText.c_str value) ++ lineBreak))) ++
        layout indent lineBreak depth next)))
  | .leaf content next =>
    (List.replicate depth indent).flatten ++ (leafWord content ++
      (lineBreak ++ layout indent lineBreak depth next))

section Printers
variable {q : Printer}

@[simp] theorem add_depth (q : Printer) (s : CText) : (q.add s).depth = q.depth := rfl
@[simp] theorem add_simpleTextPrint (q : Printer) (s : CText) :
    (q.add s).simpleTextPrint = q.simpleTextPrint := rfl
@[simp] theorem add_indent (q : Printer) (s : CText) : (q.add s).indent = q.indent := rfl
@[simp] theorem add_lineBreak (q : Printer) (s : CText) : (q.add s).lineBreak = q.lineBreak := rfl
@[simp] theorem add_add (q : Printer) (s t : CText) : (q.add s).add t = q.add (s ++ t) := by
  simp [Printer.add]

theorem visit_layout (content : Leaf) (next : Siblings) (outside : q.simpleTextPrint = false) :
    q.add (layout q.indent q.lineBreak q.depth (.leaf content next)) =
      (q.visit content).add (layout q.indent q.lineBreak q.depth next) := by
  cases content with
  | text value cdata =>
    cases cdata <;> simp [layout, leafWord, Printer.visit, Printer.doIndent, Printer.doLineBreak,
      outside]
  | declaration => simp [layout, leafWord, Printer.visit, Printer.doIndent, Printer.doLineBreak]
  | comment => simp [layout, leafWord, Printer.visit, Printer.doIndent, Printer.doLineBreak]
  | unknown => simp [layout, leafWord, Printer.visit, Printer.doIndent, Printer.doLineBreak]

theorem visit_fields (content : Leaf) (q : Printer) :
    (q.visit content).depth = q.depth ∧ (q.visit content).simpleTextPrint = q.simpleTextPrint ∧
      (q.visit content).indent = q.indent ∧ (q.visit content).lineBreak = q.lineBreak := by
  cases content with
  | text value cdata =>
    cases cdata with
    | true => exact ⟨rfl, rfl, rfl, rfl⟩
    | false => cases plain : q.simpleTextPrint <;> simp [Printer.visit, Printer.doIndent,
      Printer.doLineBreak, plain]
  | _ => exact ⟨rfl, rfl, rfl, rfl⟩

theorem onlyText_text {nodes : Siblings} (only : onlyText nodes = true) :
    ∃ text, nodes = .leaf (.text text false) .nil := by
  match nodes with
  | .leaf (.text text false) .nil => exact ⟨text, rfl⟩

variable {value : CText} {attributes : List Attribute} {firstChild : Siblings}

def opening (q : Printer) (value : CText) (attributes : List Attribute) : CText :=
  (List.replicate q.depth q.indent).flatten ++
    '<' :: (CText.c_str value ++ printAttributes attributes)

theorem visit_empty (q : Printer) (value : CText) (attributes : List Attribute) :
    (Siblings.nil.accept (q.visitEnter value attributes .nil)).visitExit value .nil =
      q.add (opening q value attributes ++ ' ' :: '/' :: '>' :: q.lineBreak) := by
  simp [Siblings.accept, Printer.visitEnter, Printer.visitExit, Printer.doIndent,
    Printer.doLineBreak, Printer.add, opening]

theorem visit_onlyText (outside : q.simpleTextPrint = false) {text : CText} :
    ((Siblings.leaf (.text text false) .nil).accept
      (q.visitEnter value attributes (.leaf (.text text false) .nil))).visitExit value
        (.leaf (.text text false) .nil) =
      q.add (opening q value attributes ++ '>' :: (encodeString text ++
        (endTag (CText.c_str value) ++ q.lineBreak))) := by
  simp [Siblings.accept, Printer.visitEnter, Printer.visitExit, Printer.visit, Printer.doIndent,
    Printer.doLineBreak, Printer.add, opening, onlyText, endTag, outside]

theorem visitEnter_nodes (some_child : firstChild ≠ .nil) (first : onlyText firstChild = false) :
    q.visitEnter value attributes firstChild =
      { q.add (opening q value attributes ++ '>' :: q.lineBreak) with depth := q.depth + 1 } := by
  simp [Printer.visitEnter, Printer.doIndent, Printer.doLineBreak, Printer.add, opening, some_child,
    first]

theorem visit_nodes (some_child : firstChild ≠ .nil) (first : onlyText firstChild = false)
    (outside : q.simpleTextPrint = false) :
    ((q.visitEnter value attributes firstChild).add
      (layout (q.visitEnter value attributes firstChild).indent
      (q.visitEnter value attributes firstChild).lineBreak
        (q.visitEnter value attributes firstChild).depth
      firstChild)).visitExit value firstChild =
      q.add (opening q value attributes ++
        '>' :: (q.lineBreak ++ (layout q.indent q.lineBreak (q.depth + 1) firstChild ++
        (List.replicate q.depth q.indent).flatten)) ++
            (endTag (CText.c_str value) ++ q.lineBreak)) := by
  rw [visitEnter_nodes some_child first]
  simp [Printer.visitExit, Printer.doIndent, Printer.doLineBreak, Printer.add, endTag, some_child,
    outside]

theorem accept_layout (nodes : Siblings) (outside : q.simpleTextPrint = false) :
    nodes.accept q = q.add (layout q.indent q.lineBreak q.depth nodes) := by
  induction nodes generalizing q with
  | nil => simp [Siblings.accept, layout, Printer.add]
  | leaf content next ih =>
    obtain ⟨depth, plain, indent, lineBreak⟩ := visit_fields content q
    rw [Siblings.accept, ih (plain.trans outside), visit_layout content next outside, depth, indent,
      lineBreak]
  | element value attributes firstChild next first_ih ih =>
    have deeper : ∀ s, (q.add s).simpleTextPrint = false := fun _ => outside
    cases first : onlyText firstChild with
    | true =>
      obtain ⟨text, rfl⟩ := onlyText_text first
      rw [Siblings.accept, visit_onlyText outside, ih (deeper _)]
      simp [layout, opening, onlyText, firstText]
    | false =>
      by_cases empty : firstChild = .nil
      · subst empty
        rw [Siblings.accept, visit_empty, ih (deeper _)]
        simp [layout, opening]
      · have below : (q.visitEnter value attributes firstChild).simpleTextPrint = false := by
          rw [visitEnter_nodes empty first]
          exact outside
        rw [Siblings.accept, first_ih below, visit_nodes empty first outside, ih (deeper _)]
        simp [layout, opening, empty, first]

end Printers

end DevAccess.TinyXml
