import DevAccess.TinyXml.Printing

/-! Documents that are read back as they were written, by str and by SaveFile. -/
namespace DevAccess.TinyXml
open Foundation Xml

/-- The value holds nothing that EncodeString takes for a reference, and no part of a character. -/
structure Encodable (encoding : Encoding) (value : CText) : Prop where
  whole : Whole encoding value
  noRef : ¬ refStart <:+: value

/-- A value that is written as it is, between double quotes. -/
structure Quotable (encoding : Encoding) (value : CText) : Prop where
  whole : Whole encoding value
  plain : '&' ∉ value ∧ '"' ∉ value

/-- Running text that the parser does not condense or drop. -/
structure Readable (encoding : Encoding) (value : CText) : Prop extends Encodable encoding value where
  condensed : condensedFrom true value = true
  visible : blank value = false
  noMark : ¬ (encoding = .utf8 ∧ startsMark value = true)

def PrintableLeaf (encoding : Encoding) : Leaf → Prop
  | .comment value => ¬ commentEnd <:+: value
  | .unknown value => '>' ∉ value ∧ kindOf ('<' :: value) = .unknown
  | .text value true => ¬ cdataEnd <:+: value
  | .text value false => Readable encoding value
  | .declaration version enc standalone =>
    Quotable encoding version ∧ Quotable encoding enc ∧ Quotable encoding standalone

structure PrintableTag (encoding : Encoding) (name : CText) (attributes : List Attribute) : Prop where
  named : ValidName encoding name
  encodable : ∀ a ∈ attributes, ValidName encoding a.name ∧ Encodable encoding a.value
  distinct : (attributes.map Attribute.name).Nodup

def startsEnd : Leaf → Bool
  | .unknown value => value.head? = some '/'
  | _ => false

/-- What stands in an element can be read back: no two texts stand beside each other. -/
def Printable (encoding : Encoding) : Siblings → Prop
  | .nil => True
  | .element name attributes firstChild next =>
    PrintableTag encoding name attributes ∧ Printable encoding firstChild ∧ Printable encoding next
  | .leaf content next =>
    PrintableLeaf encoding content ∧ startsEnd content = false ∧
      (isRunningText (.leaf content next) = true → isRunningText next = false) ∧
        Printable encoding next

/-- The nodes of a document can be read back: no text stands outside of an element. -/
def PrintableDocument : Encoding → Siblings → Prop
  | _, .nil => True
  | encoding, .element name attributes firstChild next =>
    PrintableTag encoding name attributes ∧ Printable encoding firstChild ∧
      PrintableDocument encoding next
  | encoding, .leaf content next =>
    PrintableLeaf encoding content ∧ isRunningText (.leaf content .nil) = false ∧
      PrintableDocument (encodingAfter encoding (.leaf content .nil)) next

/-- The characters that are written as they are. -/
def Leaf.Raw (P : Char → Prop) : Leaf → Prop
  | .comment value | .unknown value | .text value true => ∀ c ∈ value, P c
  | .text _ false => True
  | .declaration version encoding standalone => ∀ c ∈ version ++ encoding ++ standalone, P c

def Siblings.Raw (P : Char → Prop) : Siblings → Prop
  | nil => True
  | element name _ firstChild next => (∀ c ∈ name, P c) ∧ firstChild.Raw P ∧ next.Raw P
  | leaf content next => content.Raw P ∧ next.Raw P

section Words
variable {encoding : Encoding} {name value : CText} {c : Char} {attributes : List Attribute}

theorem part_plain (part : namePart c = true) : encodeChar c = [c] ∧ c ≠ '&' ∧ c ≠ '\x00' := by
  have other : ∀ d, namePart d = false → c ≠ d := by
    rintro d none rfl
    rw [part] at none
    cases none
  refine ⟨?_, other '&' (by decide), other '\x00' (by decide)⟩
  have control : ¬ c.toNat < 32 := by
    intro low
    have bound : ∀ n < 32, namePart (Char.ofNat n) = false := by decide
    have none := bound c.toNat low
    rw [Char.ofNat_toNat, part] at none
    cases none
  rw [encodeChar, if_neg (other '&' (by decide)), if_neg (other '<' (by decide)),
    if_neg (other '>' (by decide)), if_neg (other '"' (by decide)), if_neg (other '\'' (by decide)),
    if_neg control]

theorem encodeString_name (valid : ValidName encoding name) : encodeString name = name := by
  have plain : ¬ refStart <:+: name := by
    intro inside
    exact (part_plain (valid.parts '&' (inside.subset List.mem_cons_self))).2.1 rfl
  have each : ∀ s : CText, (∀ c ∈ s, namePart c = true) → s.flatMap encodeChar = s := by
    intro s parts
    induction s with
    | nil => rfl
    | cons c s ih =>
      obtain ⟨first, later⟩ := List.forall_mem_cons.mp parts
      rw [List.flatMap_cons, (part_plain first).1, ih later, List.singleton_append]
  rw [encodeString_flatMap plain, each name valid.parts]

theorem spelling_plain {stop : Char → Prop} (whole : Whole encoding value)
    (plain : ∀ c ∈ value, c ≠ '&' ∧ ¬ stop c) : Spelling encoding stop value value := by
  induction whole with
  | nil => exact .nil
  | @cons c trails rest length high later ih =>
    have here := plain c (List.mem_append_left _ List.mem_cons_self)
    have behind := ih fun d member => plain d (List.mem_append_right _ member)
    refine .cons ⟨fun t => ?_, ?_, List.cons_ne_nil _ _⟩ behind
    · rw [List.cons_append, getChar]
      by_cases single : charLength encoding c = 1
      · obtain rfl : trails = [] := List.length_eq_zero_iff.mp (by omega)
        rw [if_pos single, if_neg here.1, List.nil_append]
      · have enough : ¬ (c :: (trails ++ t)).length < charLength encoding c := by
          simp only [List.length_cons, List.length_append]
          omega
        rw [if_neg single, if_neg enough, ← length, List.take_succ_cons, List.drop_succ_cons,
          List.take_left, List.drop_left]
    · intro d first
      obtain rfl : c = d := Option.some.inj first
      exact here.2

theorem shown_named (named : ∀ a ∈ attributes, a.name ≠ []) : shown attributes = attributes := by
  cases attributes with
  | nil => rfl
  | cons a rest =>
    have each : ∀ b ∈ rest, decide (b.value ≠ [] ∨ b.name ≠ []) = true := fun b member =>
      decide_eq_true (.inr (named b (List.mem_cons_of_mem a member)))
    rw [shown, List.takeWhile_eq_self_iff.mpr each]

theorem attributes_print (good : ∀ a ∈ attributes, ValidName encoding a.name ∧
    Encodable encoding a.value) :
    Attributes encoding attributes (printAttributes attributes) := by
  rw [printAttributes, shown_named fun a member => (good a member).1.ne_nil]
  induction attributes with
  | nil => exact .nil
  | cons a rest ih =>
    obtain ⟨⟨named, whole, noRef⟩, later⟩ := List.forall_mem_cons.mp good
    have space : White [' '] := white_cons.mpr ⟨rfl, White.nil⟩
    have spelled : ∀ quote, quote = '"' ∨ quote = '\'' →
        Spelling encoding (· = quote) a.value (encodeString a.value) := by
      intro quote quoted
      rw [encodeString_flatMap noRef]
      apply spelling_encoded whole
      · rcases quoted with rfl | rfl
        all_goals decide
      · rintro c - double single - rfl
        rcases quoted with rfl | rfl
        · exact double rfl
        · exact single rfl
    have step : ∀ quote, quote = '"' ∨ quote = '\'' → Attributes encoding (a :: rest)
        ([' '] ++ (a.name ++ ([] ++ '=' :: ([] ++ quote :: (encodeString a.value ++ quote ::
          (rest.map fun a => ' ' :: a.print).flatten))))) := fun quote quoted =>
      .cons space (List.cons_ne_nil _ _) named ⟨White.nil, White.nil⟩ quoted (spelled quote quoted)
        (ih later)
    rw [List.map_cons, List.flatten_cons, Attribute.print, encodeString_name named]
    split
    · simpa using step '\'' (.inr rfl)
    · simpa using step '"' (.inl rfl)

end Words

section Leaves
variable {encoding : Encoding} {content : Leaf} {name value : CText}

def fieldWord (a : Attribute) : CText := a.name ++ '=' :: '"' :: a.value ++ ['"']

theorem blanks_shift (l : List CText) :
    ' ' :: l.flatMap (· ++ [' ']) = l.flatMap (' ' :: ·) ++ [' '] := by
  induction l with
  | nil => rfl
  | cons s l ih => simp [← ih]

def fields (d : Declared) : List Attribute :=
  [⟨versionWord, d.version⟩, ⟨encodingWord, d.encoding⟩, ⟨standaloneWord, d.standalone⟩].filter
    fun a => a.value ≠ []

theorem print_fields (d : Declared) :
    d.print = xmlHeader ++ (((fields d).map fieldWord).flatMap (' ' :: ·) ++
        ([' '] ++ ['?', '>'])) := by
  have shifted : ' ' :: (printField versionWord d.version ++ printField encodingWord d.encoding ++
      printField standaloneWord d.standalone) =
        ((fields d).map fieldWord).flatMap (' ' :: ·) ++ [' '] := by
    rw [← blanks_shift]
    unfold fields printField
    by_cases version : d.version = []
    all_goals by_cases enc : d.encoding = []
    all_goals by_cases standalone : d.standalone = []
    all_goals simp [version, enc, standalone, fieldWord]
  show xmlHeader ++ (' ' :: (printField versionWord d.version ++ printField encodingWord d.encoding ++
    printField standaloneWord d.standalone)) ++ ['?', '>'] = _
  rw [shifted, List.append_assoc, List.append_assoc]

theorem set_version (d : Declared) (v : CText) :
    d.set versionWord v = some { d with version := v } := rfl

theorem set_encoding (d : Declared) (v : CText) :
    d.set encodingWord v = some { d with encoding := v } := rfl

theorem set_standalone (d : Declared) (v : CText) :
    d.set standaloneWord v = some { d with standalone := v } := rfl

theorem fields_set (d : Declared)
    (noZero : '\x00' ∉ d.version ∧ '\x00' ∉ d.encoding ∧ '\x00' ∉ d.standalone) :
    (fields d).foldlM (fun (d : Declared) x =>
      if x.name ∈ [versionWord, encodingWord, standaloneWord] ∧
        '\x00' ∉ x.value then d.set x.name x.value
      else none) ⟨[], [], []⟩ = some d := by
  obtain ⟨version, enc, standalone⟩ := d
  unfold fields
  by_cases first : version = []
  all_goals by_cases second : enc = []
  all_goals by_cases third : standalone = []
  all_goals simp [first, second, third, noZero, set_version, set_encoding, set_standalone]

theorem word_valid {word : CText} (known : word ∈ [versionWord, encodingWord, standaloneWord]) :
    ValidName encoding word := by
  have noMark : startsMark word = false := by
    revert word
    decide
  have start : word.head?.any nameStart = true := by
    revert word
    decide
  have parts : word.all namePart = true := by
    revert word
    decide
  exact ⟨start, List.all_eq_true.mp parts, fun mark => by rw [noMark] at mark; cases mark.2⟩

theorem attributes_words {l : List Attribute}
    (good : ∀ a ∈ l, ValidName encoding a.name ∧ Quotable encoding a.value) :
    Attributes encoding l ((l.map fieldWord).flatMap (' ' :: ·)) := by
  induction l with
  | nil => exact .nil
  | cons a l ih =>
    obtain ⟨⟨named, whole, plain⟩, later⟩ := List.forall_mem_cons.mp good
    have space : White [' '] := white_cons.mpr ⟨rfl, White.nil⟩
    have spelled : Spelling encoding (· = '"') a.value a.value := spelling_plain whole fun c member =>
      ⟨fun amp => plain.1 (amp ▸ member), fun quote => plain.2 (quote ▸ member)⟩
    have step := Attributes.cons space (List.cons_ne_nil _ _) named ⟨White.nil, White.nil⟩
      (.inl rfl) spelled
      (ih later)
    simpa [fieldWord] using step

theorem attributes_fields (d : Declared) (version : Quotable encoding d.version)
    (enc : Quotable encoding d.encoding) (standalone : Quotable encoding d.standalone) :
    Attributes encoding (fields d) (((fields d).map fieldWord).flatMap (' ' :: ·)) := by
  apply attributes_words
  intro a member
  have among := (List.mem_filter.mp member).1
  simp only [List.mem_cons, List.not_mem_nil, or_false] at among
  rcases among with rfl | rfl | rfl
  · exact ⟨word_valid (show versionWord ∈ _ by decide), version⟩
  · exact ⟨word_valid (show encodingWord ∈ _ by decide), enc⟩
  · exact ⟨word_valid (show standaloneWord ∈ _ by decide), standalone⟩

theorem leafWord_single (printable : PrintableLeaf encoding content) (raw : content.Raw (· ≠ '\x00'))
    (noText : isRunningText (.leaf content .nil) = false) :
    Single encoding content (leafWord content) := by
  have whole : ∀ {s : CText}, (∀ c ∈ s, c ≠ '\x00') → CText.c_str s = s := fun plain =>
    CText.c_str_whole fun member => plain _ member rfl
  match content with
  | .comment value =>
    rw [leafWord, whole raw]
    exact .comment printable
  | .unknown value =>
    rw [leafWord, whole raw]
    exact .unknown printable.1 printable.2
  | .text value true =>
    rw [leafWord, if_pos rfl, whole raw]
    exact .cdata printable
  | .text value false => cases noText
  | .declaration version enc standalone =>
    have noZero : '\x00' ∉ version ∧ '\x00' ∉ enc ∧ '\x00' ∉ standalone := by
      have each : ∀ c ∈ version ++ enc ++ standalone, c ≠ '\x00' := raw
      simp only [List.mem_append, or_imp, forall_and] at each
      exact ⟨fun h => each.1.1 _ h rfl, fun h => each.1.2 _ h rfl, fun h => each.2 _ h rfl⟩
    obtain ⟨good_version, good_enc, good_standalone⟩ := printable
    rw [leafWord, print_fields]
    exact .declaration (attributes_fields ⟨version, enc,
      standalone⟩ good_version good_enc good_standalone)
      (white_cons.mpr ⟨rfl, White.nil⟩) (fields_set ⟨version, enc, standalone⟩ noZero)

end Leaves

section Contents
variable {encoding : Encoding} {nodes : Siblings} {name value w b : CText}
    {attributes : List Attribute}

theorem Written.white_front (white : White b) (written : Written encoding nodes w) :
    Written encoding nodes (b ++ w) := by
  cases written with
  | nil white' => exact .nil (white.append white')
  | empty white' tag rest =>
    rw [← List.append_assoc]
    exact .empty (white.append white') tag rest
  | element white' tag inside rest =>
    rw [← List.append_assoc]
    exact .element (white.append white') tag inside rest
  | single white' leaf noEnd rest =>
    rw [← List.append_assoc]
    exact .single (white.append white') leaf noEnd rest
  | text white' spaced solid visible rest last =>
    rw [← List.append_assoc]
    exact .text (white.append white') spaced solid visible rest last

theorem Written.white_back (written : Written encoding nodes w) (white : White b) :
    Written encoding nodes (w ++ b) := by
  induction written with
  | nil white' => exact .nil (white'.append white)
  | empty white' tag _ ih =>
    have step := Written.empty white' tag ih
    simpa using step
  | element white' tag inside _ _ ih =>
    have step := Written.element white' tag inside ih
    simpa using step
  | single white' leaf noEnd _ ih =>
    have step := Written.single white' leaf noEnd ih
    simpa using step
  | text white' spaced solid visible _ last ih =>
    have step := Written.text white' spaced solid visible ih last
    simpa using step

theorem WrittenDocument.white_front (white : White b) (written : WrittenDocument encoding nodes w) :
    WrittenDocument encoding nodes (b ++ w) := by
  cases written with
  | nil white' => exact .nil (white.append white')
  | empty white' tag rest =>
    rw [← List.append_assoc]
    exact .empty (white.append white') tag rest
  | element white' tag inside rest =>
    rw [← List.append_assoc]
    exact .element (white.append white') tag inside rest
  | single white' leaf rest =>
    rw [← List.append_assoc]
    exact .single (white.append white') leaf rest

theorem white_replicate (white : White b) (n : Nat) : White (List.replicate n b).flatten :=
  White.flatten fun _ member => (List.eq_of_mem_replicate member) ▸ white

theorem PrintableTag.start (tag : PrintableTag encoding name attributes) (white : White b) :
    StartTag encoding name attributes (name ++ (printAttributes attributes ++ b)) :=
  ⟨tag.named, tag.distinct, _, b, attributes_print tag.encodable, white, rfl⟩

theorem c_str_name (valid : ValidName encoding name) : CText.c_str name = name :=
  CText.c_str_whole fun zero => (part_plain (valid.parts _ zero)).2.2 rfl

theorem solid_encoded (readable : Readable encoding value) (t : CText) :
    Solid encoding (value.flatMap encodeChar ++ t) := by
  obtain ⟨⟨whole, -⟩, condensed, -, noMark⟩ := readable
  cases whole with
  | nil => cases condensed
  | @cons c trails rest length high =>
    have space : c ≠ ' ' := by
      rintro rfl
      cases condensed
    rw [List.cons_append, List.flatMap_cons]
    rcases encodeChar_cases c with ⟨same, -, lt, -, -, -, control⟩ | ⟨word, same⟩
    · rw [same, List.flatMap_append, flatMap_high high, List.append_assoc, List.singleton_append]
      refine ⟨by simpa using (not_or.mp (not_breaks space lt control)).2, ?_⟩
      rintro ⟨utf8, mark⟩
      apply noMark
      refine ⟨utf8, ?_⟩
      obtain rfl := startsMark_first mark
      -- the lead byte of a mark has two trails, so that the text itself starts with the mark
      subst utf8
      have three : trails.length = 2 := by
        have lead : charLength .utf8 '\xef' = 3 := by decide
        omega
      obtain ⟨x, y, rfl⟩ := List.length_eq_two.mp three
      exact mark
    · rw [same]
      exact solid_plain (by decide) (by decide)

theorem text_written {next : Siblings} (readable : Readable encoding value) (white : White b)
    (rest : Written encoding next w) (last : isRunningText next = false) :
    Written encoding (.leaf (.text value false) next) (b ++ (encodeString value ++ w)) := by
  rw [encodeString_flatMap readable.noRef]
  have spaced := (spaced_encoded readable.whole).1 ?_
  · exact .text white spaced (solid_encoded readable) readable.visible rest last
  · obtain ⟨⟨whole, -⟩, condensed, -, -⟩ := readable
    cases whole with
    | nil => cases condensed
    | @cons c trails rest length high =>
      have space : c ≠ ' ' := by
        rintro rfl
        cases condensed
      rw [List.cons_append, condensedFrom, if_neg space] at condensed ⊢
      exact condensed

theorem noEnd_single {content : Leaf} (single : Single encoding content w)
    (noEnd : startsEnd content = false) : ¬ ['<', '/'] <+: w := by
  have second : ∀ c rest, c ≠ '/' → ¬ ['<', '/'] <+: '<' :: c :: rest := by
    intro c rest other starts
    exact other (List.cons_prefix_cons.mp (List.cons_prefix_cons.mp starts).2).1.symm
  cases single with
  | comment => exact second _ _ (by decide)
  | cdata => exact second _ _ (by decide)
  | declaration => exact second _ _ (by decide)
  | @unknown value =>
    cases value with
    | nil => exact second _ _ (by decide)
    | cons c value =>
      apply second
      rintro rfl
      cases noEnd

theorem between_written {indent lineBreak : CText} {depth : Nat} (indented : White indent)
    (broken : White lineBreak) (inside : Printable encoding nodes)
    (below : Written encoding nodes (layout indent lineBreak (depth + 1) nodes)) :
    Written encoding nodes (if onlyText nodes then firstText nodes
      else lineBreak ++ (layout indent lineBreak (depth + 1) nodes ++
          (List.replicate depth indent).flatten)) := by
  cases only : onlyText nodes with
  | true =>
    obtain ⟨text, rfl⟩ := onlyText_text only
    have step := text_written inside.1 White.nil (.nil White.nil) rfl
    simpa [firstText] using step
  | false => exact (below.white_back (white_replicate indented depth)).white_front broken

end Contents

theorem running_leaf {content : Leaf} (text : isRunningText (.leaf content .nil) = true) :
    ∃ value, content = .text value false := by
  cases content with
  | text value cdata =>
    cases cdata with
    | false => exact ⟨value, rfl⟩
    | true => cases text
  | _ => cases text

section Layouts
variable {encoding : Encoding} {nodes : Siblings} {indent lineBreak : CText}

theorem layout_written (indented : White indent) (broken : White lineBreak) (depth : Nat)
    (printable : Printable encoding nodes) (raw : nodes.Raw (· ≠ '\x00')) :
    Written encoding nodes (layout indent lineBreak depth nodes) := by
  induction nodes generalizing depth with
  | nil => exact .nil White.nil
  | leaf content next ih =>
    obtain ⟨good, noEnd, last, others⟩ := printable
    have pad := white_replicate indented depth
    have rest := (ih depth others raw.2).white_front broken
    rw [layout]
    cases text : isRunningText (.leaf content .nil) with
    | true =>
      obtain ⟨value, rfl⟩ := running_leaf text
      exact text_written good pad rest (last rfl)
    | false =>
      have single := leafWord_single good raw.1 text
      exact .single pad single (noEnd_single single noEnd) rest
  | element name attributes firstChild next first_ih ih =>
    obtain ⟨tag, inside, others⟩ := printable
    obtain ⟨-, raw_first, raw_next⟩ := raw
    have pad := white_replicate indented depth
    have rest := (ih depth others raw_next).white_front broken
    have space : White [' '] := white_cons.mpr ⟨rfl, White.nil⟩
    rw [layout, c_str_name tag.named]
    by_cases empty : firstChild = .nil
    · subst empty
      have step := Written.empty pad (tag.start space) rest
      simpa using step
    · have content := between_written indented broken inside (first_ih (depth + 1) inside raw_first)
      have step := Written.element pad (tag.start White.nil) content rest
      simpa [empty] using step

theorem layout_writtenDocument (indented : White indent) (broken : White lineBreak) (depth : Nat)
    (printable : PrintableDocument encoding nodes) (raw : nodes.Raw (· ≠ '\x00')) :
    WrittenDocument encoding nodes (layout indent lineBreak depth nodes) := by
  induction nodes generalizing encoding with
  | nil => exact .nil White.nil
  | leaf content next ih =>
    obtain ⟨good, noText, others⟩ := printable
    rw [layout]
    exact .single (white_replicate indented depth) (leafWord_single good raw.1 noText)
      ((ih others raw.2).white_front broken)
  | element name attributes firstChild next first_ih ih =>
    obtain ⟨tag, inside, others⟩ := printable
    obtain ⟨-, raw_first, raw_next⟩ := raw
    have pad := white_replicate indented depth
    have rest := (ih others raw_next).white_front broken
    have space : White [' '] := white_cons.mpr ⟨rfl, White.nil⟩
    rw [layout, c_str_name tag.named]
    by_cases empty : firstChild = .nil
    · subst empty
      have step := WrittenDocument.empty pad (tag.start space) rest
      simpa using step
    · have below := layout_written indented broken (depth + 1) inside raw_first
      have content := between_written indented broken inside below
      have step := WrittenDocument.element pad (tag.start White.nil) content rest
      simpa [empty] using step

end Layouts

end DevAccess.TinyXml
