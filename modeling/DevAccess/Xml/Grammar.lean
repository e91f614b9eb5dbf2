import DevAccess.Foundation.CText
import DevAccess.Xml.TextBuilder

/-! One element of XML in a text, with its name and the text that stands in it. The parts of
documents outside of elements are left out, and so are entities beyond the five predefined. -/
namespace DevAccess.Xml
open Foundation

/-- The characters of XML. Surrogates are no characters here in any case. -/
def xmlChar (c : Char) : Bool :=
  c = '\t' || c = '\n' || c = '\r' || (32 ≤ c.toNat && c.toNat ≠ 0xfffe && c.toNat ≠ 0xffff)

def lineEnds : CText → CText
  | [] => []
  | c :: s =>
    if c = '\r' then (if s.head? = some '\n' then lineEnds s else '\n' :: lineEnds s)
    else c :: lineEnds s

def Blank (s : CText) : Prop := ∀ c ∈ s, isBlank c

def sectionStart : CText := ['<', '!', '[', 'C', 'D', 'A', 'T', 'A', '[']

def sectionEnd : CText := [']', ']', '>']

def hexDigitValue (c : Char) : Option Nat :=
  if c.isDigit then some (c.toNat - '0'.toNat)
  else if 'a' ≤ c ∧ c ≤ 'f' then some (c.toNat - 'a'.toNat + 10)
  else if 'A' ≤ c ∧ c ≤ 'F' then some (c.toNat - 'A'.toNat + 10)
  else none

def hexNumber (s : CText) : Option Nat :=
  s.foldlM (fun n c => (hexDigitValue c).map fun d => 16 * n + d) 0

/-- What the reference between & and ; stands for. -/
inductive Reference : Char → CText → Prop
  | lt : Reference '<' ['l', 't']
  | gt : Reference '>' ['g', 't']
  | amp : Reference '&' ['a', 'm', 'p']
  | apos : Reference '\'' ['a', 'p', 'o', 's']
  | quot : Reference '"' ['q', 'u', 'o', 't']
  | decimal {s : CText} (number : s.Decimal) : Reference (Char.ofNat (CText.digits 0 s)) ('#' :: s)
  | hexadecimal {s : CText} {n : Nat} (nonempty : s ≠ []) (number : hexNumber s = some n) :
      Reference (Char.ofNat n) ('#' :: 'x' :: s)

/-- The attributes of a tag with the blanks between them. References in a value are not
looked into. -/
inductive Attributes : CText → Prop
  | done {b : CText} (blank : Blank b) : Attributes b
  | more {b name e f v rest : CText} {quote : Char} (apart : Blank b ∧ b ≠ []) (named : XmlName name)
      (equals : Blank e ∧ Blank f) (quoted : quote = '"' ∨ quote = '\'')
      (value : ∀ c ∈ v, xmlChar c ∧ c ≠ '<' ∧ c ≠ quote) (others : Attributes rest) :
      Attributes (b ++ name ++ e ++ '=' :: f ++ quote :: v ++ quote :: rest)

def startTag (name attributes : CText) : CText := '<' :: name ++ attributes ++ ['>']

def emptyTag (name attributes : CText) : CText := '<' :: name ++ attributes ++ ['/', '>']

def endTag (name blank : CText) : CText := '<' :: '/' :: name ++ blank ++ ['>']

/-- What may stand in an element, with the text that is left of it without the markup. -/
inductive Content : CText → CText → Prop
  | nil : Content [] []
  | char {c : Char} {text s : CText} (legal : xmlChar c) (noMarkup : c ≠ '<' ∧ c ≠ '&')
      (noEnd : ¬ sectionEnd <+: c :: s) (rest : Content text s) : Content (c :: text) (c :: s)
  | reference {c : Char} {r text s : CText} (stands : Reference c r) (legal : xmlChar c)
      (rest : Content text s) : Content (c :: text) ('&' :: r ++ ';' :: s)
  | charSection {d text s : CText} (legal : ∀ c ∈ d, xmlChar c) (noEnd : ¬ sectionEnd <:+: d)
      (rest : Content text s) : Content (d ++ text) (sectionStart ++ d ++ sectionEnd ++ s)
  | comment {d text s : CText} (legal : ∀ c ∈ d, xmlChar c) (noEnd : ¬ ['-', '-'] <:+: d ++ ['-'])
      (rest : Content text s) : Content text ('<' :: '!' :: '-' :: '-' :: d ++ '-' :: '-' :: '>' :: s)
  | instruction {target d text s : CText} (named : XmlName target) (apart : Blank (d.take 1))
      (legal : ∀ c ∈ d, xmlChar c) (noEnd : ¬ ['?', '>'] <:+: d) (rest : Content text s) :
      Content text ('<' :: '?' :: target ++ d ++ '?' :: '>' :: s)
  | emptyElement {name a text s : CText} (named : XmlName name) (attributes : Attributes a)
      (rest : Content text s) : Content text (emptyTag name a ++ s)
  | element {name a b inner e text s : CText} (named : XmlName name) (attributes : Attributes a)
      (blank : Blank b) (within : Content inner e) (rest : Content text s) :
      Content (inner ++ text) (startTag name a ++ e ++ endTag name b ++ s)

inductive Element (name : CText) : CText → CText → Prop
  | empty {a : CText} (named : XmlName name) (attributes : Attributes a) :
      Element name [] (emptyTag name a)
  | whole {a b text s : CText} (named : XmlName name) (attributes : Attributes a) (blank : Blank b)
      (content : Content text s) : Element name text (startTag name a ++ s ++ endTag name b)

/-- But for blanks around it, the line is one element with this name and this text. -/
def Reads (line name text : CText) : Prop :=
  ∃ before element after, lineEnds line = before ++ element ++ after ∧ Blank before ∧ Blank after ∧
    Element name text element

/-- The line is one element, and it can be read as no other. -/
def ReadsAs (line name text : CText) : Prop := ∀ n t, Reads line n t ↔ n = name ∧ t = text

/-- Character data without anything of markup, or what looks like the end of a section. -/
structure CharData (s : CText) : Prop where
  plain : ∀ c ∈ s, xmlChar c ∧ c ≠ '<' ∧ c ≠ '&'
  noEnd : ¬ sectionEnd <:+: s

/-- Text that XML gives back as it is written: no end of a line in it would be rewritten. -/
structure Legible (s : CText) : Prop extends CharData s where
  noReturn : ∀ c ∈ s, c ≠ '\r'

section Splitting
variable {α : Type*} {p : α → Prop} {a b s t : List α} {c d : α}

theorem split_first (front : ∀ x ∈ a, p x) (front' : ∀ x ∈ b, p x) (stop : ¬ p c) (stop' : ¬ p d)
    (same : a ++ c :: s = b ++ d :: t) : a = b ∧ c = d ∧ s = t := by
  induction a generalizing b with
  | nil =>
    cases b with
    | nil =>
      obtain ⟨rfl, rfl⟩ := List.cons.inj same
      exact ⟨rfl, rfl, rfl⟩
    | cons y rest =>
      have first : c = y := (List.cons.inj same).1
      exact absurd (front' y List.mem_cons_self) (first ▸ stop)
  | cons x rest ih =>
    cases b with
    | nil =>
      have first : x = d := (List.cons.inj same).1
      exact absurd (front x List.mem_cons_self) (first ▸ stop')
    | cons y rest' =>
      obtain ⟨rfl, later⟩ := List.cons.inj same
      obtain ⟨rfl, ends⟩ := ih (List.forall_mem_cons.mp front).2 (List.forall_mem_cons.mp front').2 later
      exact ⟨rfl, ends⟩

theorem split_last (back : ∀ x ∈ s, p x) (back' : ∀ x ∈ t, p x) (stop : ¬ p c) (stop' : ¬ p d)
    (same : a ++ c :: s = b ++ d :: t) : a = b ∧ c = d ∧ s = t := by
  have reversed : s.reverse ++ c :: a.reverse = t.reverse ++ d :: b.reverse := by
    simpa using congrArg List.reverse same
  obtain ⟨backs, stops, fronts⟩ := split_first (fun x member => back x (List.mem_reverse.mp member))
    (fun x member => back' x (List.mem_reverse.mp member)) stop stop' reversed
  exact ⟨List.reverse_inj.mp fronts, stops, List.reverse_inj.mp backs⟩

end Splitting

section Ends
variable {s t : CText} {c : Char}

theorem lineEnds_length (s : CText) : (lineEnds s).length ≤ s.length := by
  induction s with
  | nil => exact Nat.le_refl 0
  | cons c s ih =>
    simp only [lineEnds]
    split
    · split
      · exact Nat.le_succ_of_le ih
      · exact Nat.succ_le_succ ih
    · exact Nat.succ_le_succ ih

theorem lineEnds_no_return (s : CText) : ∀ c ∈ lineEnds s, c ≠ '\r' := by
  induction s with
  | nil => exact fun c none => nomatch none
  | cons c s ih =>
    simp only [lineEnds]
    split
    · split
      · exact ih
      · exact List.forall_mem_cons.mpr ⟨by decide, ih⟩
    · rename_i other
      exact List.forall_mem_cons.mpr ⟨other, ih⟩

theorem lineEnds_front (plain : ∀ c ∈ s, c ≠ '\r') (t : CText) : lineEnds (s ++ t) = s ++ lineEnds t := by
  induction s with
  | nil => rfl
  | cons c s ih =>
    obtain ⟨first, later⟩ := List.forall_mem_cons.mp plain
    rw [List.cons_append, lineEnds, if_neg first, ih later, List.cons_append]

theorem lineEnds_same (plain : ∀ c ∈ s, c ≠ '\r') : lineEnds s = s := by
  have whole := lineEnds_front plain []
  rwa [List.append_nil, lineEnds, List.append_nil] at whole

theorem lineEnds_append (apart : c ≠ '\n') (s t : CText) :
    lineEnds (s ++ c :: t) = lineEnds s ++ lineEnds (c :: t) := by
  induction s with
  | nil => rfl
  | cons d s ih =>
    have next : (s ++ c :: t).head? = some '\n' ↔ s.head? = some '\n' := by
      cases s with
      | nil => simp [apart]
      | cons e rest => rfl
    rw [List.cons_append, lineEnds, lineEnds, ih]
    simp only [next]
    split
    · split
      · rfl
      · rfl
    · rfl

end Ends

section Contents
variable {c : Char} {s text : CText}

theorem CharData.nil : CharData [] := ⟨by simp, by decide⟩

theorem charData_cons :
    CharData (c :: s) ↔ (xmlChar c ∧ c ≠ '<' ∧ c ≠ '&') ∧ ¬ sectionEnd <+: c :: s ∧ CharData s := by
  constructor
  · rintro ⟨plain, noEnd⟩
    rw [List.infix_cons_iff, not_or] at noEnd
    obtain ⟨first, later⟩ := List.forall_mem_cons.mp plain
    exact ⟨first, noEnd.1, later, noEnd.2⟩
  · rintro ⟨first, front, plain, noEnd⟩
    exact ⟨List.forall_mem_cons.mpr ⟨first, plain⟩, by rw [List.infix_cons_iff, not_or]; exact ⟨front, noEnd⟩⟩

theorem content_shorter (content : Content text s) :
    text.length < s.length ∨ text = s ∧ CharData s := by
  have at_most {a b : CText} (rest : a.length < b.length ∨ a = b ∧ CharData b) : a.length ≤ b.length :=
    rest.elim Nat.le_of_lt fun same => same.1 ▸ Nat.le_refl _
  induction content with
  | nil => exact .inr ⟨rfl, CharData.nil⟩
  | char legal noMarkup noEnd _ ih =>
    rcases ih with less | ⟨rfl, data⟩
    · exact .inl (Nat.succ_lt_succ less)
    · exact .inr ⟨rfl, charData_cons.mpr ⟨⟨legal, noMarkup⟩, noEnd, data⟩⟩
  | reference _ _ _ ih =>
    have rest := at_most ih
    left
    simp only [List.cons_append, List.length_cons, List.length_append]
    omega
  | charSection _ _ _ ih =>
    have rest := at_most ih
    have opening : 0 < sectionStart.length := by decide
    left
    simp only [List.length_append]
    omega
  | comment _ _ _ ih =>
    have rest := at_most ih
    left
    simp only [List.cons_append, List.length_cons, List.length_append]
    omega
  | instruction _ _ _ _ _ ih =>
    have rest := at_most ih
    left
    simp only [List.cons_append, List.length_cons, List.length_append]
    omega
  | emptyElement _ _ _ ih =>
    have rest := at_most ih
    left
    simp only [emptyTag, List.cons_append, List.length_cons, List.length_append]
    omega
  | element _ _ _ _ _ ih ih' =>
    have within := at_most ih
    have rest := at_most ih'
    left
    simp only [startTag, List.cons_append, List.length_cons, List.length_append]
    omega

theorem content_legal (content : Content text s) : ∀ c ∈ text, xmlChar c := by
  induction content with
  | nil => exact fun c none => nomatch none
  | char legal _ _ _ ih => exact List.forall_mem_cons.mpr ⟨legal, ih⟩
  | reference _ legal _ ih => exact List.forall_mem_cons.mpr ⟨legal, ih⟩
  | charSection legal _ _ ih => exact List.forall_mem_append.mpr ⟨legal, ih⟩
  | comment _ _ _ ih => exact ih
  | instruction _ _ _ _ _ ih => exact ih
  | emptyElement _ _ _ ih => exact ih
  | element _ _ _ _ _ ih ih' => exact List.forall_mem_append.mpr ⟨ih, ih'⟩

theorem CharData.content (data : CharData s) : Content s s := by
  induction s with
  | nil => exact .nil
  | cons c s ih =>
    obtain ⟨⟨legal, noMarkup⟩, noEnd, rest⟩ := charData_cons.mp data
    exact .char legal noMarkup noEnd (ih rest)

theorem CharData.only (data : CharData s) (content : Content text s) : text = s := by
  have no_open : '<' ∉ s := fun member => (data.plain '<' member).2.1 rfl
  have no_reference : '&' ∉ s := fun member => (data.plain '&' member).2.2 rfl
  clear data
  induction content with
  | nil => rfl
  | char _ _ _ _ ih =>
    rw [ih (fun member => no_open (List.mem_cons_of_mem _ member))
      fun member => no_reference (List.mem_cons_of_mem _ member)]
  | reference => exact absurd List.mem_cons_self no_reference
  | _ => exact absurd List.mem_cons_self no_open

end Contents

section OneElement
variable {name s : CText}

theorem Attributes.first {a : CText} (attributes : Attributes a) :
    a = [] ∨ ∃ c rest, a = c :: rest ∧ isBlank c := by
  cases attributes with
  | done blank =>
    cases a with
    | nil => exact .inl rfl
    | cons c rest => exact .inr ⟨c, rest, rfl, blank c List.mem_cons_self⟩
  | @more b n e f v rest quote apart =>
    obtain ⟨blank, nonempty⟩ := apart
    cases b with
    | nil => exact absurd rfl nonempty
    | cons c b => exact .inr ⟨c, _, rfl, blank c List.mem_cons_self⟩

theorem blank_not_name {c : Char} (blank : isBlank c) : ¬ nameChar c := by
  simp only [isBlank, List.mem_cons, List.not_mem_nil, or_false, decide_eq_true_eq] at blank
  rcases blank with rfl | rfl | rfl | rfl
  all_goals decide

theorem bare_tag {title a rest rest' : CText} {close : Char} (named : XmlName name)
    (titled : XmlName title) (attributes : Attributes a) (ends : ¬ nameChar close)
    (same : name ++ a ++ close :: rest = title ++ '>' :: rest') :
    name = title ∧ a = [] ∧ close = '>' ∧ rest = rest' := by
  rw [List.append_assoc] at same
  have stop : ¬ nameChar '>' := by decide
  rcases attributes.first with rfl | ⟨c, more, rfl, blank⟩
  · obtain ⟨names, closes, rests⟩ := split_first named.chars titled.chars ends stop same
    exact ⟨names, rfl, closes, rests⟩
  · obtain ⟨-, closes, -⟩ := split_first named.chars titled.chars (blank_not_name blank) stop same
    rw [closes] at blank
    exact absurd blank (by decide)

theorem bare_end {inner b : CText} (named : XmlName name) (blank : Blank b)
    (same : inner ++ endTag name b = s ++ endTag name []) : inner = s := by
  obtain ⟨init, last, rfl⟩ : ∃ init last, name = init ++ [last] :=
    ⟨name.dropLast, name.getLast named.ne_nil, (List.dropLast_concat_getLast named.ne_nil).symm⟩
  have ends : (inner ++ '<' :: '/' :: init ++ last :: b) ++ ['>'] =
      (s ++ '<' :: '/' :: init ++ last :: []) ++ ['>'] := by simpa [endTag] using same
  have solid : ¬ isBlank last := fun blank =>
    blank_not_name blank (named.chars last (List.mem_append_right _ (List.mem_singleton_self last)))
  have no_blank : Blank [] := fun c none => nomatch none
  obtain ⟨fronts, -, -⟩ := split_last blank no_blank solid solid (List.append_cancel_right ends)
  exact List.append_cancel_right fronts

theorem bare_element {title text element : CText} (titled : XmlName title)
    (same : element = startTag title [] ++ s ++ endTag title []) :
    Element name text element ↔ name = title ∧ Content text s := by
  constructor
  · intro read
    cases read with
    | @empty a named attributes =>
      have behind : name ++ a ++ '/' :: ['>'] = title ++ '>' :: (s ++ endTag title []) := by
        simpa [emptyTag, startTag] using same
      exact absurd (bare_tag named titled attributes (by decide) behind).2.2.1 (by decide)
    | @whole a b text inner named attributes blank content =>
      have behind : name ++ a ++ '>' :: (inner ++ endTag name b) = title ++
          '>' :: (s ++ endTag title []) := by
        simpa [startTag] using same
      obtain ⟨rfl, -, -, rests⟩ := bare_tag named titled attributes (by decide) behind
      rw [bare_end named blank rests] at content
      exact ⟨rfl, content⟩
  · rintro ⟨rfl, content⟩
    rw [same]
    have none : Blank [] := fun c none => nomatch none
    exact .whole titled (.done none) none content

theorem element_brackets {text element : CText} (read : Element name text element) :
    ∃ inner, element = '<' :: inner ++ ['>'] := by
  cases read with
  | @empty a => exact ⟨name ++ a ++ ['/'], by simp [emptyTag]⟩
  | @whole a b text s =>
    exact ⟨name ++ a ++ '>' :: s ++ '<' :: '/' :: name ++ b, by simp [startTag, endTag]⟩

theorem lineEnds_line {title blanks : CText} (titled : XmlName title) (indented : ∀ c ∈ blanks, c = ' ') :
    lineEnds (blanks ++ '<' :: title ++ '>' :: s ++ '<' :: '/' :: title ++ '>' :: crlf) =
      blanks ++ (startTag title [] ++ lineEnds s ++ endTag title []) ++ ['\n'] := by
  have no_return : ∀ c ∈ title, c ≠ '\r' := fun c member => nameChar_ne (titled.chars c member) (by decide)
  have tag_plain : ∀ c ∈ blanks ++ '<' :: title ++ ['>'], c ≠ '\r' := by
    intro c member
    simp only [List.mem_append, List.mem_cons, List.not_mem_nil, or_false] at member
    rcases member with (blank | rfl | named) | rfl
    · rw [indented c blank]
      decide
    · decide
    · exact no_return c named
    · decide
  have end_plain : ∀ c ∈ '<' :: '/' :: title ++ ['>'], c ≠ '\r' := by
    intro c member
    simp only [List.cons_append, List.mem_append, List.mem_cons, List.not_mem_nil, or_false] at member
    rcases member with rfl | rfl | named | rfl
    · decide
    · decide
    · exact no_return c named
    · decide
  have parts : blanks ++ '<' :: title ++ '>' :: s ++ '<' :: '/' :: title ++ '>' :: crlf =
      (blanks ++ '<' :: title ++ ['>']) ++ (s ++ '<' :: ('/' :: title ++ ['>'] ++ crlf)) := by simp
  have ends : lineEnds ('<' :: ('/' :: title ++ ['>'] ++ crlf)) = '<' :: '/' :: title ++ ['>'] ++ ['\n'] :=
    lineEnds_front end_plain crlf
  rw [parts, lineEnds_front tag_plain, lineEnds_append (by decide), ends]
  simp [startTag, endTag]

theorem reads_line {title blanks text : CText} (titled : XmlName title) (indented : ∀ c ∈ blanks, c = ' ') :
    Reads (blanks ++ '<' :: title ++ '>' :: s ++ '<' :: '/' :: title ++ '>' :: crlf) name text ↔
      name = title ∧ Content text (lineEnds s) := by
  have blank : Blank blanks := by
    intro c member
    rw [indented c member]
    decide
  have blank_end : Blank ['\n'] := List.forall_mem_singleton.mpr (by decide)
  rw [Reads, lineEnds_line titled indented]
  constructor
  · rintro ⟨before, element, after, same, blank', blank_end', read⟩
    obtain ⟨inner, rfl⟩ := element_brackets read
    have fronts : blanks ++ '<' :: ((title ++ '>' :: lineEnds s ++ '<' :: '/' :: title) ++ '>' :: ['\n']) =
        before ++ '<' :: (inner ++ '>' :: after) := by simpa [startTag, endTag] using same
    obtain ⟨-, -, behind⟩ := split_first blank blank' (by decide) (by decide) fronts
    obtain ⟨rfl, -, -⟩ := split_last blank_end blank_end' (by decide) (by decide) behind
    exact (bare_element titled (by simp [startTag, endTag])).mp read
  · intro read
    exact ⟨blanks, _, ['\n'], rfl, blank, blank_end, (bare_element titled rfl).mpr read⟩

theorem ReadsAs.legal {title blanks text : CText} (titled : XmlName title) (indented : ∀ c ∈ blanks, c = ' ')
    (read : ReadsAs (blanks ++ '<' :: title ++ '>' :: s ++ '<' :: '/' :: title ++ '>' :: crlf) title text) :
    ∀ c ∈ text, xmlChar c :=
  content_legal ((reads_line titled indented).mp ((read title text).mpr ⟨rfl, rfl⟩)).2

/-- The line of a text is read as that text where it is legible, and nowhere else. -/
theorem reads_as_iff {title blanks : CText} (titled : XmlName title) (indented : ∀ c ∈ blanks, c = ' ') :
    ReadsAs (blanks ++ '<' :: title ++ '>' :: s ++ '<' :: '/' :: title ++ '>' :: crlf) title s ↔
      Legible s := by
  constructor
  · intro read
    have content := ((reads_line titled indented).mp ((read title s).mpr ⟨rfl, rfl⟩)).2
    obtain ⟨same, data⟩ := (content_shorter content).resolve_left (Nat.not_lt.mpr (lineEnds_length s))
    rw [← same] at data
    refine ⟨data, ?_⟩
    rw [same]
    exact lineEnds_no_return s
  · intro legible n t
    rw [reads_line titled indented, lineEnds_same legible.noReturn]
    constructor
    · rintro ⟨rfl, content⟩
      exact ⟨rfl, legible.toCharData.only content⟩
    · rintro ⟨rfl, rfl⟩
      exact ⟨rfl, legible.toCharData.content⟩

end OneElement

end DevAccess.Xml
