import DevAccess.TinyXml.Base

/-! The nodes of a TiXmlDocument and the Parse functions that read them. The rows and columns of
nodes and errors are left out; the Stamp that counts them, and may not end, is a module of its
own. -/
namespace DevAccess.TinyXml
open Foundation Xml

structure Attribute where
  name : CText
  value : CText
deriving DecidableEq

inductive Leaf where
  | comment (value : CText)
  | unknown (value : CText)
  | text (value : CText) (cdata : Bool)
  | declaration (version encoding standalone : CText)
deriving DecidableEq

inductive Siblings where
  | nil
  | element (value : CText) (attributes : List Attribute) (firstChild next : Siblings)
  | leaf (content : Leaf) (next : Siblings)
deriving DecidableEq

def Siblings.append : Siblings → Siblings → Siblings
  | nil, g => g
  | element value attributes firstChild next, g => element value attributes firstChild (next.append g)
  | leaf content next, g => leaf content (next.append g)

inductive Error where
  | openingFile
  | parsingElement
  | failedToReadElementName
  | readingElementValue
  | readingAttributes
  | parsingEmpty
  | readingEndTag
  | documentEmpty
deriving DecidableEq

/-- What a Parse function has read, where it stopped, and the error it has set if there was none
before. -/
structure Parsed (α : Type) where
  value : α
  p : Option CText
  error : Option Error

def upTo (tag : CText) : CText → CText × CText
  | [] => ([], [])
  | c :: p =>
    if stringEqual (c :: p) tag false then ([], c :: p)
    else (c :: (upTo tag p).1, (upTo tag p).2)

/-- An attribute value without quotes. A quote inside it is an error. -/
def readUnquoted : CText → CText × Option CText
  | [] => ([], some [])
  | c :: p =>
    if isWhiteSpace c || c = '/' || c = '>' then ([], some (c :: p))
    else if c = '\'' || c = '"' then ([], none)
    else (c :: (readUnquoted p).1, (readUnquoted p).2)

def readQuoted (encoding : Encoding) (quote : Char) (p : CText) : Call (CText × Option CText) := do
  let (value, stop) ← readText encoding false [quote] p
  match stop with
  | none => return (value, none)
  | some q => return (value, some (← pastTag [quote] q))

def attributeParse (encoding : Encoding) (p : CText) : Call (Parsed Attribute) :=
  match skipWhiteSpace encoding (some p) with
  | none | some [] => .ok ⟨⟨[], []⟩, none, none⟩
  | some p =>
    match readName p with
    | none => .ok ⟨⟨[], []⟩, none, some .readingAttributes⟩
    | some (name, p) =>
      match skipWhiteSpace encoding (some p) with
      | some ('=' :: p) =>
        match skipWhiteSpace encoding (some p) with
        | none | some [] => .ok ⟨⟨name, []⟩, none, some .readingAttributes⟩
        | some (c :: p) =>
          if c = '\'' || c = '"' then do
            let (value, stop) ← readQuoted encoding c p
            return ⟨⟨name, value⟩, stop, none⟩
          else
            match readUnquoted (c :: p) with
            | (value, none) => .ok ⟨⟨name, value⟩, none, some .readingAttributes⟩
            | (value, some q) => .ok ⟨⟨name, value⟩, some q, none⟩
      | _ => .ok ⟨⟨name, []⟩, none, some .readingAttributes⟩

inductive Kind where
  | declaration
  | comment
  | cdata
  | unknown
  | element
deriving DecidableEq

def xmlHeader : CText := ['<', '?', 'x', 'm', 'l']

def commentHeader : CText := ['<', '!', '-', '-']

def cdataHeader : CText := ['<', '!', '[', 'C', 'D', 'A', 'T', 'A', '[']

def commentEnd : CText := ['-', '-', '>']

def cdataEnd : CText := [']', ']', '>']

/-- What starts at a '<'. The headers of comments and sections are those of a dtd too. -/
def kindOf (p : CText) : Kind :=
  if stringEqual p xmlHeader true then .declaration
  else if stringEqual p commentHeader false then .comment
  else if stringEqual p cdataHeader false then .cdata
  else if stringEqual p ['<', '!'] false then .unknown
  else if p.tail.head?.any nameStart then .element
  else .unknown

def identify (encoding : Encoding) (p : CText) : Option Kind :=
  match skipWhiteSpace encoding (some p) with
  | some ('<' :: p) => some (kindOf ('<' :: p))
  | _ => none

inductive TagEnd where
  | fails
  | empty (p : CText)
  | opened (p : CText)

structure Tag where
  value : CText
  attributes : List Attribute
  ending : TagEnd
  error : Option Error

def setValue (attributes : List Attribute) (name value : CText) : List Attribute :=
  attributes.map fun a => if a.name = name then ⟨name, value⟩ else a

/-- The loop over the attributes. The value of a second attribute of one name goes through
Value(), and nothing is read behind it. -/
def readAttributes (encoding : Encoding) (value : CText) : Nat → List Attribute → CText → Call Tag
  | 0, _, _ => .error .hang
  | n + 1, attributes, p =>
    match skipWhiteSpace encoding (some p) with
    | none | some [] => .ok ⟨value, attributes, .fails, some .readingAttributes⟩
    | some (c :: q) =>
      if c = '/' then
        match q with
        | '>' :: q => .ok ⟨value, attributes, .empty q, none⟩
        | _ => .ok ⟨value, attributes, .fails, some .parsingEmpty⟩
      else if c = '>' then .ok ⟨value, attributes, .opened q, none⟩
      else do
        let r ← attributeParse encoding (c :: q)
        match r.p with
        | none | some [] => return ⟨value, attributes, .fails, r.error.or (some .parsingElement)⟩
        | some q =>
          if attributes.any (·.name = r.value.name) then
            return ⟨value, setValue attributes r.value.name (CText.c_str r.value.value), .fails, none⟩
          else readAttributes encoding value n (attributes ++ [r.value]) q

def readTag (encoding : Encoding) (p : CText) : Call Tag :=
  match skipWhiteSpace encoding (some p) with
  | none => .ok ⟨[], [], .fails, some .failedToReadElementName⟩
  | some p =>
    match readName p with
    | none => .ok ⟨[], [], .fails, some .failedToReadElementName⟩
    | some (value, []) => .ok ⟨value, [], .fails, some .failedToReadElementName⟩
    | some (value, p) => readAttributes encoding value (p.length + 1) [] p

def endTag (value : CText) : CText := '<' :: '/' :: value ++ ['>']

def elementParse (content : CText → Call (Parsed Siblings)) (encoding : Encoding) (p : CText) :
    Call (Parsed Siblings) := do
  let tag ← readTag encoding p.tail
  let made := fun kids => Siblings.element tag.value tag.attributes kids .nil
  match tag.ending with
  | .fails => return ⟨made .nil, none, tag.error⟩
  | .empty q => return ⟨made .nil, some q, none⟩
  | .opened q =>
    let r ← content q
    match r.p with
    | none | some [] => return ⟨made r.value, none, r.error.or (some .readingEndTag)⟩
    | some q =>
      if stringEqual q (endTag tag.value) false then
        return ⟨made r.value, some (q.drop (endTag tag.value).length), r.error⟩
      else return ⟨made r.value, none, r.error.or (some .readingEndTag)⟩

def unknownParse (p : CText) : Parsed Siblings :=
  let value := p.tail.takeWhile (· ≠ '>')
  ⟨.leaf (.unknown value) .nil, some (p.tail.drop (value.length + 1)), none⟩

def commentParse (p : CText) : Call (Parsed Siblings) := do
  let (value, stop) := upTo commentEnd (p.drop commentHeader.length)
  return ⟨.leaf (.comment value) .nil, some (← pastTag commentEnd stop), none⟩

def cdataParse (p : CText) : Call (Parsed Siblings) := do
  let (value, stop) := upTo cdataEnd (p.drop cdataHeader.length)
  return ⟨.leaf (.text value true) .nil, some (← pastTag cdataEnd stop), none⟩

def versionWord : CText := ['v', 'e', 'r', 's', 'i', 'o', 'n']

def encodingWord : CText := ['e', 'n', 'c', 'o', 'd', 'i', 'n', 'g']

def standaloneWord : CText := ['s', 't', 'a', 'n', 'd', 'a', 'l', 'o', 'n', 'e']

structure Declared where
  version : CText
  encoding : CText
  standalone : CText

def Declared.leaf (d : Declared) : Leaf := .declaration d.version d.encoding d.standalone

def Declared.set (d : Declared) (p value : CText) : Option Declared :=
  if stringEqual p versionWord true then some { d with version := value }
  else if stringEqual p encodingWord true then some { d with encoding := value }
  else if stringEqual p standaloneWord true then some { d with standalone := value }
  else none

/-- The loop of TiXmlDeclaration::Parse. Its attributes have no document to tell an error. -/
def readDeclaration (encoding : Encoding) : Nat → Declared → CText → Call (Declared × Option CText)
  | _, d, [] => .ok (d, none)
  | 0, _, _ :: _ => .error .hang
  | n + 1, d, c :: p =>
    if c = '>' then .ok (d, some p)
    else
      let q := skipBlanks encoding 0 (c :: p)
      match d.set q [] with
      | none => readDeclaration encoding n d (q.dropWhile fun c => c ≠ '>' && !isWhiteSpace c)
      | some _ => do
        let r ← attributeParse encoding q
        let d := (d.set q (CText.c_str r.value.value)).getD d
        match r.p with
        | none => return (d, none)
        | some p => readDeclaration encoding n d p

def declarationParse (encoding : Encoding) (p : CText) : Call (Parsed Siblings) := do
  let (d, stop) ← readDeclaration encoding p.length ⟨[], [], []⟩ (p.drop xmlHeader.length)
  return ⟨.leaf d.leaf .nil, stop, none⟩

def nodeParse (content : CText → Call (Parsed Siblings)) (encoding : Encoding) (kind : Kind)
    (p : CText) :
    Call (Parsed Siblings) :=
  match kind with
  | .declaration => declarationParse encoding p
  | .comment => commentParse p
  | .cdata => cdataParse p
  | .unknown => .ok (unknownParse p)
  | .element => elementParse content encoding p

def blank (value : CText) : Bool := value.all isWhiteSpace

/-- TiXmlText::Parse of text outside of a section, which goes back to the '<' or the end. -/
def textParse (encoding : Encoding) (p : CText) : Call (CText × Option CText) :=
  readText encoding true ['<'] p

def readValue (encoding : Encoding) : Nat → Option CText → Call (Parsed Siblings)
  | 0, _ => .error .hang
  | n + 1, p =>
    match skipWhiteSpace encoding p with
    | none => .ok ⟨.nil, none, some .readingElementValue⟩
    | some [] => .ok ⟨.nil, some [], none⟩
    | some (c :: q) =>
      if c = '<' then
        if stringEqual (c :: q) ['<', '/'] false then .ok ⟨.nil, some (c :: q), none⟩
        else
          match identify encoding (c :: q) with
          | none => .ok ⟨.nil, none, none⟩
          | some kind => do
            let node ← nodeParse (fun p => readValue encoding n (some p)) encoding kind (c :: q)
            let rest ← readValue encoding n node.p
            return ⟨node.value.append rest.value, rest.p, node.error.or rest.error⟩
      else do
        let (value, stop) ← textParse encoding (c :: q)
        let rest ← readValue encoding n stop
        return ⟨if blank value then rest.value
          else .leaf (.text value false) rest.value, rest.p, rest.error⟩

def encodingAfter (encoding : Encoding) : Siblings → Encoding
  | .leaf (.declaration _ enc _) _ =>
    if encoding ≠ .unknown then encoding
    else if enc = [] then .utf8
    else if stringEqual enc ['U', 'T', 'F', '-', '8'] true then .utf8
    else if stringEqual enc ['U', 'T', 'F', '8'] true then .utf8
    else .legacy
  | _ => encoding

def documentLoop : Nat → Encoding → Option CText → Call (Parsed Siblings)
  | 0, _, _ => .error .hang
  | n + 1, encoding, p =>
    match p with
    | none => .ok ⟨.nil, none, none⟩
    | some [] => .ok ⟨.nil, some [], none⟩
    | some p =>
      match identify encoding p with
      | none => .ok ⟨.nil, some p, none⟩
      | some kind => do
        let node ← nodeParse (fun p => readValue encoding n (some p)) encoding kind p
        let encoding := encodingAfter encoding node.value
        let rest ← documentLoop n encoding (skipWhiteSpace encoding node.p)
        return ⟨node.value.append rest.value, rest.p, node.error.or rest.error⟩

structure Document where
  children : Siblings
  useMicrosoftBOM : Bool
  error : Option Error
deriving DecidableEq

def byteOrderMark : CText := ['\xef', '\xbb', '\xbf']

def Document.parse (p : CText) : Call Document :=
  let bom := byteOrderMark.isPrefixOf p
  let encoding := if bom then .utf8 else .unknown
  match skipWhiteSpace encoding (some p) with
  | none => .ok ⟨.nil, false, some .documentEmpty⟩
  | some q => do
    let r ← documentLoop (p.length + 1) encoding (some q)
    return ⟨r.value, bom, if r.value = .nil then r.error.or (some .documentEmpty) else r.error⟩

def normalise : CText → CText → CText
  | pending, [] => pending
  | pending, '\n' :: p => pending ++ '\n' :: normalise [] p
  | pending, '\r' :: '\n' :: p => pending ++ '\n' :: normalise [] p
  | pending, '\r' :: p => pending ++ '\n' :: normalise [] p
  | pending, c :: p => normalise (pending ++ [c]) p

def Document.loadFile : Option CText → Call Document
  | none => .ok ⟨.nil, false, some .openingFile⟩
  | some [] => .ok ⟨.nil, false, some .documentEmpty⟩
  | some file => Document.parse (normalise [] (CText.c_str file))

end DevAccess.TinyXml
