import DevAccess.Foundation.CText
import DevAccess.Foundation.Run

/-! The SimpleXmlMaker of myXmlParse, which writes XML as text, and a reader of tags that
tells whether what it has written is balanced. -/
namespace DevAccess.Xml
open Foundation

/-- m_nodelst has its top first. -/
structure SimpleXmlMaker where
  m_str : CText
  m_iSpace : Int
  m_nodelst : List CText
  deriving DecidableEq

def SimpleXmlMaker.make (iDefaultSpace : Int) (default_value : Option CText) : SimpleXmlMaker :=
  ⟨default_value.getD [], if iDefaultSpace < 0 then 0 else iDefaultSpace, []⟩

/-- The entries of _space are 0, 2, 4, .., 14 blanks. -/
def space (i : Int) : CText :=
  let i := if i < 0 then 0 else i
  let i := if i ≥ 8 then 7 else i
  List.replicate (2 * i.toNat) ' '

/-- What sprintf or vsprintf leaves in a buffer. A text that does not fit it with its zero is
written past its end, and nothing is said about the program then. -/
def formatted (size : Nat) (s : CText) : Option CText := if s.length < size then some s else none

def percentS (s : Option CText) : CText := s.getD "(null)".toList

def percentD (z : Int) : CText :=
  if z < 0 then '-' :: Nat.toDigits 10 z.natAbs else Nat.toDigits 10 z.natAbs

def crlf : CText := ['\r', '\n']

namespace SimpleXmlMaker

/-- line is a char[2048]. -/
def addLine (m : SimpleXmlMaker) (line : CText) : Option SimpleXmlMaker := do
  return { m with m_str := m.m_str ++ (← formatted 2048 line) }

def addNode (m : SimpleXmlMaker) (title : Option CText) : Option SimpleXmlMaker :=
  match title with
  | none => some m
  | some title => do
    let m ← m.addLine (space m.m_iSpace ++ '<' :: title ++ '>' :: crlf)
    return { m with m_iSpace := int32 (m.m_iSpace + 1), m_nodelst := title :: m.m_nodelst }

/-- fmt stands for the format with its arguments put in; it is none for NULL. -/
def addNodeFmt (m : SimpleXmlMaker) (title fmt : Option CText) : Option SimpleXmlMaker :=
  match fmt with
  | none => m.addNode title
  | some fmt =>
    match title with
    | none => some m
    | some title => do
      let param ← formatted 1024 fmt
      let m ← m.addLine (space m.m_iSpace ++ '<' :: title ++ ' ' :: param ++ '>' :: crlf)
      return { m with m_iSpace := int32 (m.m_iSpace + 1), m_nodelst := title :: m.m_nodelst }

def endNode (m : SimpleXmlMaker) : Option SimpleXmlMaker :=
  match m.m_nodelst with
  | [] => some m
  | s :: below => do
    let m_iSpace := if m.m_iSpace - 1 < 0 then 0 else m.m_iSpace - 1
    let m ← { m with m_iSpace }.addLine (space m_iSpace ++ '<' :: '/' :: s ++ '>' :: crlf)
    return { m with m_nodelst := below }

def valueLine (m : SimpleXmlMaker) (title val : CText) : CText :=
  space m.m_iSpace ++ '<' :: title ++ '>' :: val ++ '<' :: '/' :: title ++ '>' :: crlf

def addValue (m : SimpleXmlMaker) (title : CText) (val if_val_empty : Option CText) :
    Option SimpleXmlMaker :=
  let val := if val = none ∨ val = some [] then (if if_val_empty.isSome then if_val_empty else val) else val
  m.addLine (m.valueLine title (percentS val))

def addValueInt (m : SimpleXmlMaker) (title : CText) (val : Int) (if_val_empty : Option CText) :
    Option SimpleXmlMaker :=
  if val = 0 ∧ if_val_empty.isSome then m.addValue title if_val_empty none
  else m.addLine (m.valueLine title (percentD val))

def addValueV (m : SimpleXmlMaker) (title : CText) (fmt : Option CText) : Option SimpleXmlMaker :=
  match fmt with
  | some fmt => do m.addLine (m.valueLine title (← formatted 1024 fmt))
  | none => m.addValue title none none

def addText (m : SimpleXmlMaker) (txt : Option CText) (iSpace : Int) : Option SimpleXmlMaker :=
  match txt with
  | none => some m
  | some txt => m.addLine (space (if iSpace = -1 then m.m_iSpace else iSpace) ++ txt ++ crlf)

end SimpleXmlMaker

inductive Build where
  | addNode (title : Option CText)
  | addNodeFmt (title fmt : Option CText)
  | endNode
  | addValue (title : CText) (val if_val_empty : Option CText)
  | addValueInt (title : CText) (val : Int) (if_val_empty : Option CText)
  | addValueV (title : CText) (fmt : Option CText)
  | addText (txt : Option CText) (iSpace : Int)

def SimpleXmlMaker.step (m : SimpleXmlMaker) : Build → Option SimpleXmlMaker
  | .addNode title => m.addNode title
  | .addNodeFmt title fmt => m.addNodeFmt title fmt
  | .endNode => m.endNode
  | .addValue title val if_val_empty => m.addValue title val if_val_empty
  | .addValueInt title val if_val_empty => m.addValueInt title val if_val_empty
  | .addValueV title fmt => m.addValueV title fmt
  | .addText txt iSpace => m.addText txt iSpace

section Reader

inductive Reading where
  | outside (opened : List CText)
  | inside (content : CText) (opened : List CText)
  deriving DecidableEq

def isBlank (c : Char) : Bool := c ∈ [' ', '\t', '\r', '\n']

def tagName (content : CText) : CText := content.takeWhile (! isBlank ·)

/-- At the end of a tag: an end tag must close the innermost element, a tag with a slash at
its end is an element without content, and any other tag opens one. -/
def closeTag (content : CText) (opened : List CText) : Option (List CText) :=
  match content with
  | '/' :: name =>
    match opened with
    | [] => none
    | top :: below => if tagName name = top then some below else none
  | _ =>
    if content.getLast? = some '/' then some opened
    else if tagName content = [] then none
    else some (tagName content :: opened)

def readChar : Reading → Char → Option Reading
  | .outside opened, c => some (if c = '<' then .inside [] opened else .outside opened)
  | .inside content opened, c =>
    if c = '>' then (closeTag content opened).map .outside
    else if c = '<' then none
    else some (.inside (content ++ [c]) opened)

def readTags (r : Reading) (s : CText) : Option Reading := s.foldlM readChar r

theorem readTags_append (r : Reading) (s t : CText) :
    readTags r (s ++ t) = (readTags r s).bind fun r => readTags r t := List.foldlM_append

end Reader

/-- A letter, an underscore or a colon; all that is not ASCII is taken for letters. -/
def nameStart (c : Char) : Bool := c.isAlpha || c = '_' || c = ':' || 128 ≤ c.toNat

def nameChar (c : Char) : Bool := nameStart c || c.isDigit || c = '-' || c = '.'

def XmlName (s : CText) : Prop := ∃ c rest, s = c :: rest ∧ nameStart c ∧ ∀ d ∈ rest, nameChar d

/-- No character of markup. -/
def PlainText (s : CText) : Prop := ∀ c ∈ s, c ≠ '<' ∧ c ≠ '>' ∧ c ≠ '&'

/-- Titles are names, and attribute strings and texts are free of markup. -/
def Build.Plain : Build → Prop
  | addNode title => ∀ t ∈ title, XmlName t
  | addNodeFmt title fmt => (∀ t ∈ title, XmlName t) ∧ ∀ s ∈ fmt, PlainText s
  | endNode => True
  | addValue title val if_val_empty =>
    XmlName title ∧ (∀ s ∈ val, PlainText s) ∧ ∀ s ∈ if_val_empty, PlainText s
  | addValueInt title _ if_val_empty => XmlName title ∧ ∀ s ∈ if_val_empty, PlainText s
  | addValueV title fmt => XmlName title ∧ ∀ s ∈ fmt, PlainText s
  | addText txt _ => ∀ s ∈ txt, PlainText s

/-- The attribute string does not end in a slash, which would make the tag that of an
element without content. -/
def Build.Opens : Build → Prop
  | addNodeFmt _ fmt => ∀ s ∈ fmt, s.getLast? ≠ some '/'
  | _ => True

/-- The tags written so far match, and the elements left open are those of m_nodelst. -/
structure SimpleXmlMaker.Balanced (m : SimpleXmlMaker) : Prop where
  opened : readTags (.outside []) m.m_str = some (.outside m.m_nodelst)
  closed : m.m_nodelst = [] → readTags (.outside []) m.m_str = some (.outside [])

section Names
variable {name : CText}

theorem nameChar_ne {c d : Char} (isName : nameChar c) (other : nameChar d = false) : c ≠ d := by
  rintro rfl
  exact Bool.false_ne_true (other.symm.trans isName)

theorem XmlName.chars (h : XmlName name) : ∀ c ∈ name, nameChar c := by
  obtain ⟨c, rest, rfl, first, later⟩ := h
  intro d member
  rcases List.mem_cons.mp member with rfl | member
  · simp [nameChar, first]
  · exact later d member

theorem XmlName.ne_nil (h : XmlName name) : name ≠ [] := by
  obtain ⟨c, rest, rfl, -⟩ := h
  exact List.cons_ne_nil c rest

theorem XmlName.tagless (h : XmlName name) : ∀ c ∈ name, c ≠ '<' ∧ c ≠ '>' := fun c member =>
  ⟨nameChar_ne (h.chars c member) (by decide), nameChar_ne (h.chars c member) (by decide)⟩

theorem XmlName.solid (h : XmlName name) : ∀ c ∈ name, (! isBlank c) = true := by
  intro c member
  have other (d : Char) (no : nameChar d = false) : c ≠ d := nameChar_ne (h.chars c member) no
  simp [isBlank, other ' ' (by decide), other '\t' (by decide), other '\r' (by decide),
    other '\n' (by decide)]

theorem tagName_name (h : XmlName name) : tagName name = name := by
  have whole : (name ++ []).takeWhile (! isBlank ·) = name ++ [] := List.takeWhile_append_of_pos h.solid
  rwa [List.append_nil] at whole

theorem tagName_blank (h : XmlName name) (rest : CText) : tagName (name ++ ' ' :: rest) = name := by
  rw [tagName, List.takeWhile_append_of_pos h.solid]
  exact List.append_nil name

theorem close_open (h : XmlName name) {content : CText} (named : tagName content = name)
    (first : content.head? ≠ some '/') (last : content.getLast? ≠ some '/') (opened : List CText) :
    closeTag content opened = some (name :: opened) := by
  unfold closeTag
  split
  · exact absurd rfl first
  · rw [if_neg last, named, if_neg h.ne_nil]

theorem close_end (h : XmlName name) (opened : List CText) :
    closeTag ('/' :: name) (name :: opened) = some opened := by
  rw [closeTag, tagName_name h]
  exact if_pos rfl

end Names

section Lines
variable {name s : CText} {opened : List CText}

theorem read_text (noTag : ∀ c ∈ s, c ≠ '<') : readTags (.outside opened) s = some (.outside opened) := by
  induction s with
  | nil => rfl
  | cons c rest ih =>
    obtain ⟨first, later⟩ := List.forall_mem_cons.mp noTag
    rw [readTags, List.foldlM_cons, readChar, if_neg first]
    exact ih later

theorem read_inside (tagless : ∀ c ∈ s, c ≠ '<' ∧ c ≠ '>') (content : CText) :
    readTags (.inside content opened) s = some (.inside (content ++ s) opened) := by
  induction s generalizing content with
  | nil => rw [List.append_nil]; rfl
  | cons c rest ih =>
    obtain ⟨first, later⟩ := List.forall_mem_cons.mp tagless
    rw [readTags, List.foldlM_cons, readChar, if_neg first.2, if_neg first.1]
    have step := ih later (content ++ [c])
    rw [List.append_assoc, List.singleton_append] at step
    exact step

theorem read_tag (tagless : ∀ c ∈ s, c ≠ '<' ∧ c ≠ '>') {opened' : List CText}
    (closes : closeTag s opened = some opened') :
    readTags (.outside opened) ('<' :: s ++ ['>']) = some (.outside opened') := by
  have start : readTags (.outside opened) ['<'] = some (.inside [] opened) := rfl
  have finish : readTags (.inside s opened) ['>'] = some (.outside opened') := by
    rw [readTags, List.foldlM_cons, readChar, if_pos rfl, closes]
    rfl
  rw [List.cons_append, ← List.singleton_append, readTags_append, start, Option.bind_some,
    readTags_append, read_inside tagless, Option.bind_some, List.nil_append]
  exact finish

theorem read_two {t : CText} {opened' opened'' : List CText}
    (first : readTags (.outside opened) s = some (.outside opened'))
    (second : readTags (.outside opened') t = some (.outside opened'')) :
    readTags (.outside opened) (s ++ t) = some (.outside opened'') := by
  rw [readTags_append, first]
  exact second

theorem space_spaces (i : Int) : ∀ c ∈ space i, c = ' ' := fun _ member => List.eq_of_mem_replicate member

theorem space_blank (i : Int) : ∀ c ∈ space i, c ≠ '<' := by
  intro c member
  rw [space_spaces i c member]
  decide

theorem crlf_plain : ∀ c ∈ crlf, c ≠ '<' :=
  List.forall_mem_cons.mpr ⟨by decide, List.forall_mem_singleton.mpr (by decide)⟩

theorem read_line (i : Int) (tagless : ∀ c ∈ s, c ≠ '<' ∧ c ≠ '>') {opened' : List CText}
    (closes : closeTag s opened = some opened') :
    readTags (.outside opened) (space i ++ '<' :: s ++ '>' :: crlf) = some (.outside opened') := by
  have parts : space i ++ '<' :: s ++ '>' :: crlf = space i ++ ('<' :: s ++ ['>'] ++ crlf) := by simp
  rw [parts]
  exact read_two (read_text (space_blank i)) (read_two (read_tag tagless closes) (read_text crlf_plain))

theorem end_tagless (h : XmlName name) : ∀ c ∈ '/' :: name, c ≠ '<' ∧ c ≠ '>' :=
  List.forall_mem_cons.mpr ⟨by decide, h.tagless⟩

theorem name_first (h : XmlName name) (rest : CText) : (name ++ rest).head? ≠ some '/' := by
  obtain ⟨c, tail, rfl, first, -⟩ := h
  intro same
  cases same
  exact absurd first (by decide)

theorem name_last (h : XmlName name) : name.getLast? ≠ some '/' := by
  intro last
  exact nameChar_ne (h.chars '/' (List.mem_of_getLast? last)) (by decide) rfl

theorem read_value (m : SimpleXmlMaker) (h : XmlName name) (plain : PlainText s) :
    readTags (.outside opened) (m.valueLine name s) = some (.outside opened) := by
  have parts : m.valueLine name s =
      space m.m_iSpace ++ ('<' :: name ++ ['>'] ++ (s ++ ('<' :: ('/' :: name) ++ ['>'] ++ crlf))) := by
    simp [SimpleXmlMaker.valueLine]
  have opens : closeTag name opened = some (name :: opened) :=
    close_open h (tagName_name h) (by simpa using name_first h []) (name_last h) opened
  rw [parts]
  exact read_two (read_text (space_blank _)) (read_two (read_tag h.tagless opens)
    (read_two (read_text fun c member => (plain c member).1)
      (read_two (read_tag (end_tagless h) (close_end h opened)) (read_text crlf_plain))))

end Lines

section Builder
variable {m m' : SimpleXmlMaker}

def SimpleXmlMaker.Tagged (m : SimpleXmlMaker) : Prop :=
  readTags (.outside []) m.m_str = some (.outside m.m_nodelst) ∧ ∀ t ∈ m.m_nodelst, XmlName t

theorem formatted_eq_some {size : Nat} {s t : CText} :
    formatted size s = some t ↔ s.length < size ∧ s = t := by
  unfold formatted
  split
  · rename_i fits
    simp [fits]
  · rename_i long
    simp [long]

theorem formatted_some {size : Nat} {s t : CText} (fits : formatted size s = some t) : t = s :=
  (formatted_eq_some.mp fits).2.symm

theorem addLine_some {line : CText} (added : m.addLine line = some m') :
    m' = { m with m_str := m.m_str ++ line } := by
  obtain ⟨text, fits, same⟩ := Option.bind_eq_some_iff.mp added
  cases Option.some.inj same
  rw [formatted_some fits]

theorem line_tagged {line : CText} (tagged : m.Tagged) (added : m.addLine line = some m')
    (read : readTags (.outside m.m_nodelst) line = some (.outside m.m_nodelst)) : m'.Tagged := by
  rw [addLine_some added]
  exact ⟨read_two tagged.1 read, tagged.2⟩

theorem no_text : ∀ s ∈ (none : Option CText), PlainText s := by simp

theorem percentS_plain {s : Option CText} (plain : ∀ t ∈ s, PlainText t) : PlainText (percentS s) := by
  cases s with
  | none =>
    have null : percentS none = ['(', 'n', 'u', 'l', 'l', ')'] := rfl
    intro c member
    rw [null] at member
    simp only [List.mem_cons, List.not_mem_nil, or_false] at member
    rcases member with rfl | rfl | rfl | rfl | rfl | rfl
    all_goals exact ⟨by decide, by decide, by decide⟩
  | some t => exact plain t rfl

theorem percentD_plain (z : Int) : PlainText (percentD z) := by
  have digits (n : Nat) : PlainText (Nat.toDigits 10 n) := by
    intro c member
    have digit := Nat.isDigit_of_mem_toDigits (by decide) (by decide) member
    refine ⟨?_, ?_, ?_⟩
    · rintro rfl
      exact absurd digit (by decide)
    · rintro rfl
      exact absurd digit (by decide)
    · rintro rfl
      exact absurd digit (by decide)
  unfold percentD
  split
  · exact List.forall_mem_cons.mpr ⟨by decide, digits _⟩
  · exact digits _

theorem addNode_tagged (tagged : m.Tagged) {title : Option CText} (named : ∀ t ∈ title, XmlName t)
    (added : m.addNode title = some m') : m'.Tagged := by
  cases title with
  | none =>
    cases Option.some.inj added
    exact tagged
  | some t =>
    obtain ⟨lined, line, same⟩ := Option.bind_eq_some_iff.mp added
    cases Option.some.inj same
    have h := named t rfl
    have opens : closeTag t m.m_nodelst = some (t :: m.m_nodelst) :=
      close_open h (tagName_name h) (by simpa using name_first h []) (name_last h) _
    rw [addLine_some line]
    exact ⟨read_two tagged.1 (read_line m.m_iSpace h.tagless opens), List.forall_mem_cons.mpr ⟨h, tagged.2⟩⟩

theorem addNodeFmt_tagged (tagged : m.Tagged) {title fmt : Option CText}
    (named : ∀ t ∈ title, XmlName t) (plain : ∀ s ∈ fmt, PlainText s)
    (opens : ∀ s ∈ fmt, s.getLast? ≠ some '/') (added : m.addNodeFmt title fmt = some m') : m'.Tagged := by
  cases fmt with
  | none => exact addNode_tagged tagged named added
  | some s =>
    cases title with
    | none =>
      cases Option.some.inj added
      exact tagged
    | some t =>
      obtain ⟨param, fits, added⟩ := Option.bind_eq_some_iff.mp added
      obtain ⟨lined, line, same⟩ := Option.bind_eq_some_iff.mp added
      cases Option.some.inj same
      have h := named t rfl
      obtain rfl := formatted_some fits
      have tagless : ∀ c ∈ t ++ ' ' :: param, c ≠ '<' ∧ c ≠ '>' := by
        intro c member
        rcases List.mem_append.mp member with name | rest
        · exact h.tagless c name
        · rcases List.mem_cons.mp rest with rfl | behind
          · decide
          · exact ⟨(plain param rfl c behind).1, (plain param rfl c behind).2.1⟩
      have last : (t ++ ' ' :: param).getLast? ≠ some '/' := by
        cases param with
        | nil => simp
        | cons c rest =>
          have slash := opens (c :: rest) rfl
          simpa [List.getLast?_append, List.getLast?_cons_cons] using slash
      have line_parts : space m.m_iSpace ++ '<' :: t ++ ' ' :: param ++ '>' :: crlf =
          space m.m_iSpace ++ '<' :: (t ++ ' ' :: param) ++ '>' :: crlf := by simp
      have read := read_line m.m_iSpace tagless
        (close_open h (tagName_blank h param) (name_first h _) last m.m_nodelst)
      rw [addLine_some line, line_parts]
      exact ⟨read_two tagged.1 read, List.forall_mem_cons.mpr ⟨h, tagged.2⟩⟩

theorem endNode_tagged (tagged : m.Tagged) (ended : m.endNode = some m') : m'.Tagged := by
  unfold SimpleXmlMaker.endNode at ended
  split at ended
  · cases Option.some.inj ended
    exact tagged
  · rename_i t below stack
    obtain ⟨lined, line, same⟩ := Option.bind_eq_some_iff.mp ended
    cases Option.some.inj same
    obtain ⟨read, names⟩ := tagged
    rw [stack] at read names
    obtain ⟨h, later⟩ := List.forall_mem_cons.mp names
    rw [addLine_some line]
    exact ⟨read_two read (read_line _ (end_tagless h) (close_end h below)), later⟩

theorem addValue_tagged (tagged : m.Tagged) {title : CText} {val if_val_empty : Option CText}
    (h : XmlName title) (plain : ∀ s ∈ val, PlainText s) (default : ∀ s ∈ if_val_empty, PlainText s)
    (added : m.addValue title val if_val_empty = some m') : m'.Tagged := by
  apply line_tagged tagged added
  apply read_value m h
  apply percentS_plain
  split
  · split
    · exact default
    · exact plain
  · exact plain

theorem tagged_step {op : Build} (tagged : m.Tagged) (plain : op.Plain) (opens : op.Opens)
    (taken : m.step op = some m') : m'.Tagged := by
  cases op with
  | addNode title => exact addNode_tagged tagged plain taken
  | addNodeFmt title fmt => exact addNodeFmt_tagged tagged plain.1 plain.2 opens taken
  | endNode => exact endNode_tagged tagged taken
  | addValue title val if_val_empty => exact addValue_tagged tagged plain.1 plain.2.1 plain.2.2 taken
  | addValueInt title val if_val_empty =>
    simp only [SimpleXmlMaker.step, SimpleXmlMaker.addValueInt] at taken
    split at taken
    · exact addValue_tagged tagged plain.1 plain.2 no_text taken
    · exact line_tagged tagged taken (read_value m plain.1 (percentD_plain val))
  | addValueV title fmt =>
    cases fmt with
    | none => exact addValue_tagged tagged plain.1 no_text no_text taken
    | some s =>
      obtain ⟨param, fits, added⟩ := Option.bind_eq_some_iff.mp taken
      obtain rfl := formatted_some fits
      exact line_tagged tagged added (read_value m plain.1 (plain.2 param rfl))
  | addText txt iSpace =>
    cases txt with
    | none =>
      cases Option.some.inj taken
      exact tagged
    | some s =>
      apply line_tagged tagged taken
      exact read_two (read_two (read_text (space_blank _))
        (read_text fun c member => (plain s rfl c member).1))
        (read_text crlf_plain)

theorem tagged_run {ops : List Build} (plain : ∀ op ∈ ops, op.Plain) (opens : ∀ op ∈ ops, op.Opens)
    (tagged : m.Tagged) (run : exec SimpleXmlMaker.step m ops = some m') : m'.Tagged := by
  induction ops generalizing m with
  | nil =>
    cases Option.some.inj run
    exact tagged
  | cons op rest ih =>
    obtain ⟨next, taken, later⟩ := exec_cons_some.mp run
    obtain ⟨op_plain, rest_plain⟩ := List.forall_mem_cons.mp plain
    obtain ⟨op_opens, rest_opens⟩ := List.forall_mem_cons.mp opens
    exact ih rest_plain rest_opens (tagged_step tagged op_plain op_opens taken) later

/-- Over any calls the text stays balanced up to the elements on the stack. -/
theorem builder_balanced (iDefaultSpace : Int) (default_value : Option CText) (ops : List Build)
    (m : SimpleXmlMaker) (fresh : ∀ s ∈ default_value, PlainText s)
    (plain : ∀ op ∈ ops, op.Plain) (opens : ∀ op ∈ ops, op.Opens)
    (run : exec SimpleXmlMaker.step (.make iDefaultSpace default_value) ops = some m) : m.Balanced := by
  have start : (SimpleXmlMaker.make iDefaultSpace default_value).Tagged := by
    refine ⟨?_, fun t none => nomatch none⟩
    cases default_value with
    | none => rfl
    | some s => exact read_text fun c member => (fresh s rfl c member).1
  have tagged : m.Tagged := tagged_run plain opens start run
  refine ⟨tagged.1, fun empty => ?_⟩
  have read := tagged.1
  rwa [empty] at read

theorem builder_balanced_two :
    (⟨['<', 'a', ' ', 'n', '>', '\r', '\n', '<', '/', 'a', '>', '\r', '\n'], 0, []⟩ :
        SimpleXmlMaker).Balanced :=
  builder_balanced 0 none [.addNodeFmt (some ['a']) (some ['n']), .endNode] _ no_text
    (by
      intro op member
      rcases List.mem_cons.mp member with rfl | member
      · refine ⟨?_, ?_⟩
        · intro t same
          cases same
          exact ⟨'a', [], rfl, rfl, fun d none => nomatch none⟩
        · intro s same
          cases same
          exact List.forall_mem_singleton.mpr (by decide)
      · rw [List.mem_singleton.mp member]
        trivial)
    (by
      intro op member
      rcases List.mem_cons.mp member with rfl | member
      · intro s same
        cases same
        decide
      · rw [List.mem_singleton.mp member]
        trivial)
    rfl

/-- With a slash for its attributes the tag of an element is one without content. -/
theorem slash_attribute :
    (Build.addNodeFmt (some ['t']) (some ['/'])).Plain ∧
      ∃ m, exec SimpleXmlMaker.step (.make 0 none) [.addNodeFmt (some ['t']) (some ['/'])] = some m ∧
        ¬ m.Balanced := by
  refine ⟨⟨?_, ?_⟩, ⟨['<', 't', ' ', '/', '>', '\r', '\n'], 1, [['t']]⟩, rfl, ?_⟩
  · intro t same
    cases same
    exact ⟨'t', [], rfl, rfl, fun d none => nomatch none⟩
  · intro s same
    cases same
    exact List.forall_mem_singleton.mpr (by decide)
  · intro balanced
    exact absurd balanced.opened (by decide)

end Builder

end DevAccess.Xml
