import DevAccess.Foundation.CString
import DevAccess.Xml.Grammar

/-! The lines that AddValue and _xmlstrAddLine write for a value: when they say it, and not
something else. Neither escapes what it writes, or looks at the length of it. -/
namespace DevAccess.Xml
open Foundation Foundation.CText

def SimpleXmlMaker.addValueString (m : SimpleXmlMaker) (title val : CText) (if_val_empty : Option CText) :
    Option SimpleXmlMaker := m.addValue title (some (c_str val)) if_val_empty

/-- The array space of _xmlstrAddLine is indexed as it is, where the function space of the maker
takes the nearest entry. -/
def spaceAt (iSpaceSum : Int) : Option CText :=
  if 0 ≤ iSpaceSum ∧ iSpaceSum < 8 then some (space iSpaceSum) else none

/-- line is a char[8192]. -/
def xmlstrAddLine (out title : CText) (value : Option CText) (iSpaceSum : Int) : Option CText := do
  let blanks ← spaceAt iSpaceSum
  let line := blanks ++ '<' :: title ++ '>' :: percentS value ++ '<' :: '/' :: title ++ '>' :: crlf
  return out ++ (← formatted 8192 line)

def xmlstrAddLineString (out title value : CText) (iSpaceSum : Int) : Option CText :=
  xmlstrAddLine out title (some (c_str value)) iSpaceSum

def given (val : CText) (if_val_empty : Option CText) : CText :=
  if val = [] then if_val_empty.getD [] else val

/-- What stood there goes on with a line that is one element of that name with that value. -/
def Faithful (before title value : CText) (after : Option CText) : Prop :=
  ∃ line, after = some (before ++ line) ∧ ReadsAs line title value

section Lines
variable {m : SimpleXmlMaker} {before title written value : CText} {size : Nat}

theorem faithful_line {blanks : CText} (titled : XmlName title) (indented : ∀ c ∈ blanks, c = ' ')
    (same : written = value ∨ ∃ c ∈ value, ¬ xmlChar c) :
    Faithful before title value ((formatted size (blanks ++ '<' :: title ++ '>' :: written ++
      '<' :: '/' :: title ++ '>' :: crlf)).map (before ++ ·)) ↔
      Legible value ∧ blanks.length + 2 * title.length + value.length + 7 < size := by
  have length : (blanks ++ '<' :: title ++ '>' :: value ++ '<' :: '/' :: title ++ '>' :: crlf).length =
      blanks.length + 2 * title.length + value.length + 7 := by
    simp only [crlf, List.length_append, List.length_cons, List.length_nil]
    omega
  constructor
  · rintro ⟨line, grown, read⟩
    obtain ⟨_, fits, ends⟩ := Option.map_eq_some_iff.mp grown
    obtain rfl := List.append_cancel_left ends
    obtain ⟨short, rfl⟩ := formatted_eq_some.mp fits
    rcases same with rfl | ⟨c, member, illegal⟩
    · exact ⟨(reads_as_iff titled indented).mp read, length ▸ short⟩
    · exact absurd (read.legal titled indented c member) illegal
  · rintro ⟨legible, short⟩
    rcases same with rfl | ⟨c, member, illegal⟩
    · refine ⟨_, ?_, (reads_as_iff titled indented).mpr legible⟩
      rw [formatted_eq_some.mpr ⟨length.symm ▸ short, rfl⟩, Option.map_some]
    · exact absurd (legible.plain c member).1 illegal

theorem c_str_or (s : CText) : c_str s = s ∨ ∃ c ∈ s, ¬ xmlChar c := by
  by_cases zero : '\x00' ∈ s
  · exact .inr ⟨'\x00', zero, by decide⟩
  · exact .inl (c_str_whole zero)

theorem given_or (val : CText) (if_val_empty : Option CText) :
    given (c_str val) if_val_empty = given val if_val_empty ∨
      ∃ c ∈ given val if_val_empty, ¬ xmlChar c := by
  rcases c_str_or val with whole | ⟨c, member, illegal⟩
  · exact .inl (by rw [whole])
  · refine .inr ⟨c, ?_, illegal⟩
    rw [given, if_neg (List.ne_nil_of_mem member)]
    exact member

theorem addValue_eq (m : SimpleXmlMaker) (title val : CText) (if_val_empty : Option CText) :
    (m.addValue title (some val) if_val_empty).map (·.m_str) =
      (formatted 2048 (m.valueLine title (given val if_val_empty))).map (m.m_str ++ ·) := by
  have line : m.addValue title (some val) if_val_empty =
      m.addLine (m.valueLine title (given val if_val_empty)) := by
    cases val with
    | nil => cases if_val_empty <;> rfl
    | cons c rest => rfl
  rw [line, SimpleXmlMaker.addLine]
  cases formatted 2048 (m.valueLine title (given val if_val_empty)) <;> rfl

theorem addValue_faithful (titled : XmlName title) (val : CText) (if_val_empty : Option CText)
    (same : given val if_val_empty = value ∨ ∃ c ∈ value, ¬ xmlChar c) :
    Faithful m.m_str title value ((m.addValue title (some val) if_val_empty).map (·.m_str)) ↔
      Legible value ∧ (space m.m_iSpace).length + 2 * title.length + value.length + 7 < 2048 := by
  rw [addValue_eq]
  exact faithful_line titled (space_spaces m.m_iSpace) same

theorem xmlstrAddLine_faithful (titled : XmlName title) (iSpaceSum : Int)
    (same : written = value ∨ ∃ c ∈ value, ¬ xmlChar c) :
    Faithful before title value (xmlstrAddLine before title (some written) iSpaceSum) ↔
      Legible value ∧ (0 ≤ iSpaceSum ∧ iSpaceSum < 8) ∧
        (space iSpaceSum).length + 2 * title.length + value.length + 7 < 8192 := by
  by_cases entry : 0 ≤ iSpaceSum ∧ iSpaceSum < 8
  · have line : xmlstrAddLine before title (some written) iSpaceSum =
        (formatted 8192 (space iSpaceSum ++ '<' :: title ++ '>' :: written ++ '<' :: '/' :: title ++
          '>' :: crlf)).map (before ++ ·) := by
      rw [xmlstrAddLine, spaceAt, if_pos entry]
      exact Option.map_eq_bind.symm
    rw [line, faithful_line titled (space_spaces iSpaceSum) same]
    simp only [entry, and_self, true_and]
  · have no_line : xmlstrAddLine before title (some written) iSpaceSum = none := by
      rw [xmlstrAddLine, spaceAt, if_neg entry]
      rfl
    constructor
    · rintro ⟨line, grown, -⟩
      rw [no_line] at grown
      cases grown
    · rintro ⟨-, inside, -⟩
      exact absurd inside entry

end Lines

/-- A value is written faithfully where it is legible and its line fits the buffer; the string
objects are no exception, and neither function makes up for the other. -/
theorem values_faithful_iff (m : SimpleXmlMaker) (out title val : CText) (if_val_empty : Option CText)
    (iSpaceSum : Int) (titled : XmlName title) :
    ((Faithful m.m_str title (given val if_val_empty)
          ((m.addValue title (some val) if_val_empty).map (·.m_str)) ↔
        Legible (given val if_val_empty) ∧
          (space m.m_iSpace).length + 2 * title.length + (given val if_val_empty).length + 7 < 2048) ∧
      (Faithful m.m_str title (given val if_val_empty)
          ((m.addValueString title val if_val_empty).map (·.m_str)) ↔
        Legible (given val if_val_empty) ∧
          (space m.m_iSpace).length + 2 * title.length + (given val if_val_empty).length + 7 < 2048)) ∧
    ((Faithful out title val (xmlstrAddLine out title (some val) iSpaceSum) ↔
        Legible val ∧ (0 ≤ iSpaceSum ∧ iSpaceSum < 8) ∧
          (space iSpaceSum).length + 2 * title.length + val.length + 7 < 8192) ∧
      (Faithful out title val (xmlstrAddLineString out title val iSpaceSum) ↔
        Legible val ∧ (0 ≤ iSpaceSum ∧ iSpaceSum < 8) ∧
          (space iSpaceSum).length + 2 * title.length + val.length + 7 < 8192)) :=
  ⟨⟨addValue_faithful titled val if_val_empty (.inl rfl),
      addValue_faithful titled (c_str val) if_val_empty (given_or val if_val_empty)⟩,
    xmlstrAddLine_faithful titled iSpaceSum (.inl rfl), xmlstrAddLine_faithful titled iSpaceSum
      (c_str_or val)⟩

/-- A closing bracket is no markup in a text. -/
theorem bracket_faithful :
    Faithful [] ['t'] ['>'] (((SimpleXmlMaker.make 1 none).addValue ['t'] (some ['>']) none).map (·.m_str)) :=
  (values_faithful_iff (SimpleXmlMaker.make 1 none) [] ['t'] ['>'] none 0
    ⟨'t', [], rfl, rfl, fun d none => nomatch none⟩).1.1.mpr
    ⟨⟨⟨List.forall_mem_singleton.mpr (by decide), by decide⟩, List.forall_mem_singleton.mpr (by decide)⟩,
      by decide⟩

/-- An ampersand is written as it is, and a value of 2048 letters is written past the line. -/
theorem ampersand_unfaithful :
    XmlName ['t'] ∧
      (¬ Faithful [] ['t'] ['R', '&', 'D']
          (((SimpleXmlMaker.make 0 none).addValue ['t'] (some ['R', '&', 'D']) none).map (·.m_str)) ∧
        ¬ Faithful [] ['t'] ['R', '&', 'D'] (xmlstrAddLine [] ['t'] (some ['R', '&', 'D']) 0)) ∧
      ¬ Faithful [] ['t'] (List.replicate 2048 'a')
          (((SimpleXmlMaker.make 0 none).addValue ['t'] (some (List.replicate 2048 'a')) none).map
            (·.m_str)) := by
  have titled : XmlName ['t'] := ⟨'t', [], rfl, rfl, fun d none => nomatch none⟩
  have illegible : ¬ Legible ['R', '&', 'D'] := fun legible => (legible.plain '&' (by decide)).2.2 rfl
  refine ⟨titled, ⟨fun faithful => ?_, fun faithful => ?_⟩, fun faithful => ?_⟩
  · exact illegible ((addValue_faithful titled ['R', '&', 'D'] none (.inl rfl)).mp faithful).1
  · exact illegible ((xmlstrAddLine_faithful titled 0 (.inl rfl)).mp faithful).1
  · have letters : given (List.replicate 2048 'a') none = List.replicate 2048 'a' := if_neg (by simp)
    have short := ((addValue_faithful titled _ none (.inl letters)).mp faithful).2
    rw [List.length_replicate] at short
    omega

end DevAccess.Xml
