import DevAccess.Foundation.CString
import DevAccess.Xml.Document

/-! TiXmlBase: white space, names, entities and the reading of text. A pointer into a text is
what is left of the text there, with none for the null pointer. Reading behind the end of the
text is a fault. -/
namespace DevAccess.TinyXml
open Foundation Xml

inductive Encoding where
  | unknown
  | utf8
  | legacy
deriving DecidableEq

def isWhiteSpace (c : Char) : Bool := CText.isSpace c

/-- Everything above ASCII is taken for a letter. -/
def isAlpha (c : Char) : Bool := if c.toNat < 127 then c.isAlpha else true

def isAlphaNum (c : Char) : Bool := if c.toNat < 127 then c.isAlphanum else true

/-- The marks of three bytes that are skipped with the white space. -/
def startsMark : CText → Bool
  | a :: b :: c :: _ =>
    a = '\xef' && ((b = '\xbb' && c = '\xbf') || (b = '\xbf' && (c = '\xbe' || c = '\xbf')))
  | _ => false

/-- The loops of SkipWhiteSpace, with the bytes of a mark that are still to skip. -/
def skipBlanks (encoding : Encoding) : Nat → CText → CText
  | _, [] => []
  | pending + 1, _ :: p => skipBlanks encoding pending p
  | 0, c :: p =>
    if encoding = .utf8 ∧ startsMark (c :: p) then skipBlanks encoding 2 p
    else if isWhiteSpace c then skipBlanks encoding 0 p
    else c :: p

def skipWhiteSpace (encoding : Encoding) : Option CText → Option CText
  | none => none
  | some [] => none
  | some p => some (skipBlanks encoding 0 p)

def nameStart (c : Char) : Bool := isAlpha c || c = '_'

def namePart (c : Char) : Bool := isAlphaNum c || c = '_' || c = '-' || c = '.' || c = ':'

def readName (p : CText) : Option (CText × CText) :=
  if p.head?.any nameStart then some (p.takeWhile namePart, p.dropWhile namePart) else none

/-- Both sides of the comparison are made small letters in ASCII only, whatever the encoding. -/
def stringEqual (p tag : CText) (ignoreCase : Bool) : Bool :=
  p ≠ [] && if ignoreCase then (tag.map Char.toLower).isPrefixOf (p.map Char.toLower)
    else tag.isPrefixOf p

def utf8ByteTable (byte : Nat) : Nat :=
  if byte < 0xc2 then 1
  else if byte < 0xe0 then 2
  else if byte < 0xf0 then 3
  else if byte < 0xf5 then 4
  else 1

def byte (n : Nat) : Char := Char.ofNat (n % 256)

def trail (input : Nat) : Char := byte ((input ||| 0x80) &&& 0xbf)

def convertUTF32ToUTF8 (input : Nat) : CText :=
  if input < 0x80 then [byte input]
  else if input < 0x800 then [byte ((input >>> 6) ||| 0xc0), trail input]
  else if input < 0x10000 then [byte ((input >>> 12) ||| 0xe0), trail (input >>> 6), trail input]
  else if input < 0x200000 then
    [byte ((input >>> 18) ||| 0xf0), trail (input >>> 12), trail (input >>> 6), trail input]
  else []

def decimalDigit (c : Char) : Option Nat := if c.isDigit then some (c.toNat - '0'.toNat) else none

def hexDigit (c : Char) : Option Nat :=
  if c.isDigit then some (c.toNat - '0'.toNat)
  else if 'a' ≤ c ∧ c ≤ 'f' then some (c.toNat - 'a'.toNat + 10)
  else if 'A' ≤ c ∧ c ≤ 'F' then some (c.toNat - 'A'.toNat + 10)
  else none

/-- The loops from the semicolon back to the x or the #. Both numbers have 32 bits. -/
def ucsBack (base : Nat) (digit : Char → Option Nat) (mult ucs : Nat) : CText → Option Nat
  | [] => some ucs
  | q :: back =>
    match digit q with
    | none => none
    | some d => ucsBack base digit (mult * base % 4294967296) ((ucs + mult * d) % 4294967296) back

/-- A number between a mark and the next semicolon, with what is behind it. The digits are those
behind the last mark. -/
def charRef (base : Nat) (digit : Char → Option Nat) (mark : Char) (q : CText) :
    Option (Nat × CText) :=
  match q.dropWhile (· ≠ ';') with
  | [] => none
  | _ :: after =>
    (ucsBack base digit 1 0 ((q.takeWhile (· ≠ ';')).reverse.takeWhile (· ≠ mark))).map (·, after)

def ucsValue (encoding : Encoding) (ucs : Nat) : CText :=
  if encoding = .utf8 then convertUTF32ToUTF8 ucs else [byte ucs]

def entity : List (CText × Char) :=
  [(['&', 'a', 'm', 'p', ';'], '&'), (['&', 'l', 't', ';'], '<'), (['&', 'g', 't', ';'], '>'),
    (['&', 'q', 'u', 'o', 't', ';'], '"'), (['&', 'a', 'p', 'o', 's', ';'], '\'')]

def getEntity (encoding : Encoding) (p : CText) : CText × Option CText :=
  match p with
  | _ :: '#' :: c :: q =>
    let found :=
      if c = 'x' then (if q = [] then none else charRef 16 hexDigit 'x' q)
      else charRef 10 decimalDigit '#' (c :: q)
    match found with
    | none => ([], none)
    | some (ucs, after) => (ucsValue encoding ucs, some after)
  | _ =>
    match entity.find? (fun e => e.1.isPrefixOf p) with
    | some e => ([e.2], some (p.drop e.1.length))
    | none => (p.take 1, some (p.drop 1))

def charLength (encoding : Encoding) (c : Char) : Nat :=
  if encoding = .utf8 then utf8ByteTable c.toNat else 1

/-- The loops that call it look at what is behind the character at once. -/
def getChar (encoding : Encoding) : CText → Call (CText × Option CText)
  | [] => .error .fault
  | c :: p =>
    if charLength encoding c = 1 then
      if c = '&' then .ok (getEntity encoding (c :: p)) else .ok ([c], some p)
    else if (c :: p).length < charLength encoding c then .error .fault
    else .ok ((c :: p).take (charLength encoding c), some ((c :: p).drop (charLength encoding c)))

def readKept (encoding : Encoding) (endTag : CText) : Nat → CText → Call (CText × Option CText)
  | _, [] => .ok ([], some [])
  | 0, _ :: _ => .error .hang
  | n + 1, c :: p =>
    if stringEqual (c :: p) endTag false then .ok ([], some (c :: p))
    else do
      let (value, next) ← getChar encoding (c :: p)
      match next with
      | none => return (value, none)
      | some q =>
        let (text, stop) ← readKept encoding endTag n q
        return (value ++ text, stop)

def readCondensed (encoding : Encoding) (endTag : CText) :
    Nat → Bool → CText → Call (CText × Option CText)
  | _, _, [] => .ok ([], some [])
  | 0, _, _ :: _ => .error .hang
  | n + 1, whitespace, c :: p =>
    if stringEqual (c :: p) endTag false then .ok ([], some (c :: p))
    else if isWhiteSpace c then readCondensed encoding endTag n true p
    else do
      let space := if whitespace then [' '] else []
      let (value, next) ← getChar encoding (c :: p)
      match next with
      | none => return (space ++ value, none)
      | some q =>
        let (text, stop) ← readCondensed encoding endTag n false q
        return (space ++ value ++ text, stop)

def readText (encoding : Encoding) (trimWhiteSpace : Bool) (endTag p : CText) :
    Call (CText × Option CText) :=
  if trimWhiteSpace then
    match skipWhiteSpace encoding (some p) with
    | none => .ok ([], none)
    | some p => readCondensed encoding endTag p.length false p
  else readKept encoding endTag p.length p

/-- The pointer that strlen(endTag) was added to is looked at next. -/
def pastTag (endTag : CText) : CText → Call CText
  | [] => .error .fault
  | p => .ok (p.drop endTag.length)

end DevAccess.TinyXml
