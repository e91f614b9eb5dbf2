import DevAccess.TinyXml.Parser

/-! How a document is written: by a TiXmlPrinter, which SimpleXMLParser::str uses, and by the
Print functions, which SaveFile uses. -/
namespace DevAccess.TinyXml
open Foundation Xml

def hexUpper (d : Nat) : Char := if d < 10 then Char.ofNat (48 + d) else Char.ofNat (55 + d)

def encodeChar (c : Char) : CText :=
  if c = '&' then ['&', 'a', 'm', 'p', ';']
  else if c = '<' then ['&', 'l', 't', ';']
  else if c = '>' then ['&', 'g', 't', ';']
  else if c = '"' then ['&', 'q', 'u', 'o', 't', ';']
  else if c = '\'' then ['&', 'a', 'p', 'o', 's', ';']
  else if c.toNat < 32 then ['&', '#', 'x', hexUpper (c.toNat / 16), hexUpper (c.toNat % 16), ';']
  else [c]

/-- EncodeString. Inside of what looks like a hexadecimal reference everything is copied, up to a
semicolon or the last character. -/
def encodeFrom : Bool → CText → CText
  | _, [] => []
  | inside, c :: s =>
    if s ≠ [] ∧ (inside ∨ c = '&' ∧
      ['#', 'x'].isPrefixOf s) then c :: encodeFrom (s.head? ≠ some ';') s
    else encodeChar c ++ encodeFrom false s

def encodeString (s : CText) : CText := encodeFrom false s

def Attribute.print (a : Attribute) : CText :=
  if '"' ∈ a.value then encodeString a.name ++ '=' :: '\'' :: encodeString a.value ++ ['\'']
  else encodeString a.name ++ '=' :: '"' :: encodeString a.value ++ ['"']

/-- The attributes that First() and Next() lead to. Without name and value one is taken for the
sentinel. -/
def shown : List Attribute → List Attribute
  | [] => []
  | a :: rest => a :: rest.takeWhile fun b => b.value ≠ [] ∨ b.name ≠ []

def printAttributes (attributes : List Attribute) : CText :=
  ((shown attributes).map fun a => ' ' :: a.print).flatten

def printField (word value : CText) : CText :=
  if value = [] then [] else word ++ '=' :: '"' :: value ++ ['"', ' ']

def Declared.print (d : Declared) : CText :=
  xmlHeader ++ ' ' :: (printField versionWord d.version ++ printField encodingWord d.encoding ++
    printField standaloneWord d.standalone) ++ ['?', '>']

structure Printer where
  depth : Nat
  simpleTextPrint : Bool
  buffer : CText
  indent : CText
  lineBreak : CText

def Printer.new : Printer := ⟨0, false, [], [' ', ' ', ' ', ' '], ['\n']⟩

def Printer.add (q : Printer) (s : CText) : Printer := { q with buffer := q.buffer ++ s }

def Printer.doIndent (q : Printer) : Printer := q.add (List.replicate q.depth q.indent).flatten

def Printer.doLineBreak (q : Printer) : Printer := q.add q.lineBreak

def onlyText : Siblings → Bool
  | .leaf (.text _ false) .nil => true
  | _ => false

def Printer.visitEnter (q : Printer) (value : CText) (attributes : List Attribute)
    (firstChild : Siblings) :
    Printer :=
  let q := q.doIndent.add ('<' :: CText.c_str value ++ printAttributes attributes)
  let q :=
    if firstChild = .nil then (q.add [' ', '/', '>']).doLineBreak
    else
      let q := q.add ['>']
      if onlyText firstChild then { q with simpleTextPrint := true } else q.doLineBreak
  { q with depth := q.depth + 1 }

def Printer.visitExit (q : Printer) (value : CText) (firstChild : Siblings) : Printer :=
  let q := { q with depth := q.depth - 1 }
  if firstChild = .nil then q
  else
    let q := if q.simpleTextPrint then { q with simpleTextPrint := false } else q.doIndent
    (q.add ('<' :: '/' :: CText.c_str value ++ ['>'])).doLineBreak

def Printer.visit (q : Printer) : Leaf → Printer
  | .text value cdata =>
    if cdata then (q.doIndent.add (cdataHeader ++ CText.c_str value ++ cdataEnd)).doLineBreak
    else if q.simpleTextPrint then q.add (encodeString value)
    else (q.doIndent.add (encodeString value)).doLineBreak
  | .declaration version encoding standalone =>
    (q.doIndent.add (Declared.print ⟨version, encoding, standalone⟩)).doLineBreak
  | .comment value => (q.doIndent.add (commentHeader ++ CText.c_str value ++ commentEnd)).doLineBreak
  | .unknown value => (q.doIndent.add ('<' :: CText.c_str value ++ ['>'])).doLineBreak

def Siblings.accept : Siblings → Printer → Printer
  | nil, q => q
  | element value attributes firstChild next, q =>
    next.accept
      ((firstChild.accept (q.visitEnter value attributes firstChild)).visitExit value firstChild)
  | leaf content next, q => next.accept (q.visit content)

def Document.str (d : Document) : CText := CText.c_str (d.children.accept Printer.new).buffer

def tabs (depth : Nat) : CText := (List.replicate depth [' ', ' ', ' ', ' ']).flatten

def isText : Leaf → Bool
  | .text _ _ => true
  | _ => false

def Leaf.print (depth : Nat) : Leaf → CText
  | .comment value => tabs depth ++ commentHeader ++ CText.c_str value ++ commentEnd
  | .unknown value => tabs depth ++ '<' :: CText.c_str value ++ ['>']
  | .text value cdata =>
    if cdata then '\n' :: tabs depth ++ cdataHeader ++ CText.c_str value ++ cdataEnd ++ ['\n']
    else encodeString value
  | .declaration version encoding standalone =>
    Declared.print ⟨CText.c_str version, CText.c_str encoding, CText.c_str standalone⟩

def onlyTextNode : Siblings → Bool
  | .leaf content .nil => isText content
  | _ => false

/-- The loops of Print of a document, with a line break behind each node, and of an element, with
one before each node that is no text. -/
def Siblings.print (document : Bool) (depth : Nat) : Siblings → CText
  | nil => []
  | element value attributes firstChild next =>
    (if document then [] else ['\n']) ++ tabs depth ++ '<' :: CText.c_str value ++
      printAttributes attributes ++
      (if firstChild = nil then [' ', '/', '>']
        else '>' :: firstChild.print false (depth + 1) ++
          (if onlyTextNode firstChild then [] else '\n' :: tabs depth) ++
          '<' :: '/' :: CText.c_str value ++ ['>']) ++
      (if document then ['\n'] else []) ++ next.print document depth
  | leaf content next =>
    (if document ∨ isText content then [] else ['\n']) ++ content.print depth ++
      (if document then ['\n'] else []) ++ next.print document depth

/-- What a text stream writes for these characters; on Windows a line ends with two. -/
def textStream (lineEnd : CText) (s : CText) : CText :=
  s.flatMap fun c => if c = '\n' then lineEnd else [c]

def Document.saveFile (d : Document) (lineEnd : CText) : CText :=
  textStream lineEnd ((if d.useMicrosoftBOM then byteOrderMark else []) ++ d.children.print true 0)

end DevAccess.TinyXml
