import DevAccess.TinyXml.RoundTrip

/-! What SaveFile writes is loaded again, with the ends of lines as the system writes them, and
what str gives is parsed again. -/
namespace DevAccess.TinyXml
open Foundation Xml

section Files
variable {encoding : Encoding} {nodes : Siblings} {content : Leaf}

theorem c_str_raw {s : CText} (raw : ∀ c ∈ s, c ≠ '\x00') : CText.c_str s = s :=
  CText.c_str_whole fun member => raw _ member rfl

/-- Spaces and line breaks, as Print writes them. -/
def Padding (s : CText) : Prop := ∀ c ∈ s, c = ' ' ∨ c = '\n'

theorem Padding.nil : Padding [] := List.forall_mem_nil _

theorem Padding.white {s : CText} (padding : Padding s) : White s := by
  intro c member
  rcases padding c member with rfl | rfl
  all_goals rfl

theorem tabs_padding (depth : Nat) : Padding (tabs depth) := by
  intro c member
  obtain ⟨s, listed, inside⟩ := List.mem_flatten.mp member
  rw [List.eq_of_mem_replicate listed] at inside
  exact .inl (by simpa using inside)

theorem leaf_print (raw : content.Raw (· ≠ '\x00')) (depth : Nat) :
    ∃ before after, Padding before ∧ Padding after ∧
        content.print depth = before ++ (leafWord content ++ after) := by
  have tabbed := tabs_padding depth
  have line : Padding ['\n'] := List.forall_mem_singleton.mpr (.inr rfl)
  match content with
  | .comment value => exact ⟨tabs depth, [], tabbed, Padding.nil, by simp [Leaf.print, leafWord]⟩
  | .unknown value => exact ⟨tabs depth, [], tabbed, Padding.nil, by simp [Leaf.print, leafWord]⟩
  | .text value true =>
    refine ⟨'\n' :: tabs depth, ['\n'], ?_, line, by simp [Leaf.print, leafWord]⟩
    exact List.forall_mem_cons.mpr ⟨.inr rfl, tabbed⟩
  | .text value false => exact ⟨[], [], Padding.nil, Padding.nil, by simp [Leaf.print, leafWord]⟩
  | .declaration version enc standalone =>
    have each : ∀ c ∈ version ++ enc ++ standalone, c ≠ '\x00' := raw
    simp only [List.forall_mem_append] at each
    refine ⟨[], [], Padding.nil, Padding.nil, ?_⟩
    rw [Leaf.print, c_str_raw each.1.1, c_str_raw each.1.2, c_str_raw each.2]
    simp [leafWord]

theorem print_written (depth : Nat) (printable : Printable encoding nodes)
    (raw : nodes.Raw (· ≠ '\x00')) :
    Written encoding nodes (nodes.print false depth) := by
  induction nodes generalizing depth with
  | nil => exact .nil White.nil
  | leaf content next ih =>
    obtain ⟨good, noEnd, last, others⟩ := printable
    have rest := ih depth others raw.2
    have line : White (if false = true ∨ isText content = true then [] else ['\n']) := by
      split
      · exact White.nil
      · exact white_cons.mpr ⟨rfl, White.nil⟩
    rw [Siblings.print]
    cases text : isRunningText (.leaf content .nil) with
    | true =>
      obtain ⟨value, rfl⟩ := running_leaf text
      have step := text_written good White.nil rest (last rfl)
      simpa [isText, Leaf.print] using step
    | false =>
      obtain ⟨before, after, front, back, printed⟩ := leaf_print raw.1 depth
      have single := leafWord_single good raw.1 text
      have step := Written.single (line.append front.white) single (noEnd_single single noEnd)
        (rest.white_front back.white)
      simpa [printed] using step
  | element name attributes firstChild next first_ih ih =>
    obtain ⟨tag, inside, others⟩ := printable
    obtain ⟨-, raw_first, raw_next⟩ := raw
    have rest := ih depth others raw_next
    have line : White ['\n'] := white_cons.mpr ⟨rfl, White.nil⟩
    have space : White [' '] := white_cons.mpr ⟨rfl, White.nil⟩
    have pad := line.append ((tabs_padding depth).white)
    rw [Siblings.print, c_str_name tag.named]
    by_cases empty : firstChild = .nil
    · subst empty
      have step := Written.empty pad (tag.start space) rest
      simpa using step
    · have back : White (if onlyTextNode firstChild then [] else '\n' :: tabs depth) := by
        split
        · exact White.nil
        · exact pad
      have step := Written.element pad (tag.start White.nil)
        ((first_ih (depth + 1) inside raw_first).white_back back)
        rest
      simpa [empty, endTag] using step

theorem print_writtenDocument (depth : Nat) (printable : PrintableDocument encoding nodes)
    (raw : nodes.Raw (· ≠ '\x00')) : WrittenDocument encoding nodes (nodes.print true depth) := by
  have line : White ['\n'] := white_cons.mpr ⟨rfl, White.nil⟩
  induction nodes generalizing encoding with
  | nil => exact .nil White.nil
  | leaf content next ih =>
    obtain ⟨good, noText, others⟩ := printable
    obtain ⟨before, after, front, back, printed⟩ := leaf_print raw.1 depth
    have rest := (ih others raw.2).white_front line
    have step := WrittenDocument.single front.white (leafWord_single good raw.1 noText)
      (rest.white_front back.white)
    rw [Siblings.print]
    simpa [printed] using step
  | element name attributes firstChild next first_ih ih =>
    obtain ⟨tag, inside, others⟩ := printable
    obtain ⟨-, raw_first, raw_next⟩ := raw
    have rest := (ih others raw_next).white_front line
    have space : White [' '] := white_cons.mpr ⟨rfl, White.nil⟩
    have pad := (tabs_padding depth).white
    rw [Siblings.print, c_str_name tag.named]
    by_cases empty : firstChild = .nil
    · subst empty
      have step := WrittenDocument.empty pad (tag.start space) rest
      simpa using step
    · have back : White (if onlyTextNode firstChild then [] else '\n' :: tabs depth) := by
        split
        · exact White.nil
        · exact line.append pad
      have below := (print_written (depth + 1) inside raw_first).white_back back
      have step := WrittenDocument.element pad (tag.start White.nil) below rest
      simpa [empty, endTag] using step

end Files

section Characters
variable {encoding : Encoding} {nodes : Siblings} {content : Leaf} {P : Char → Prop} {value : CText}
    {c : Char}
  {attributes : List Attribute}

theorem wide_all {s : CText} (all : s.all (fun c => decide (32 ≤ c.toNat)) = true) :
    ∀ c ∈ s, 32 ≤ c.toNat :=
  fun c member => of_decide_eq_true (List.all_eq_true.mp all c member)

theorem encodeChar_wide (c : Char) : ∀ d ∈ encodeChar c, 32 ≤ d.toNat := by
  rcases encodeChar_cases c with ⟨same, -, -, -, -, -, control⟩ | -
  · rw [same]
    exact List.forall_mem_singleton.mpr control
  · unfold encodeChar
    split
    · exact wide_all rfl
    split
    · exact wide_all rfl
    split
    · exact wide_all rfl
    split
    · exact wide_all rfl
    split
    · exact wide_all rfl
    split
    · rename_i control
      have bound : ∀ n < 32, ['&', '#', 'x', hexUpper (n / 16), hexUpper (n % 16), ';'].all
          (fun d => decide (32 ≤ d.toNat)) = true := by decide
      exact wide_all (bound c.toNat control)
    · rename_i control
      exact List.forall_mem_singleton.mpr (Nat.not_lt.mp control)

theorem encodeString_wide (encodable : Encodable encoding value) :
    ∀ c ∈ encodeString value, 32 ≤ c.toNat := by
  rw [encodeString_flatMap encodable.noRef]
  intro c member
  obtain ⟨d, _, inside⟩ := List.mem_flatMap.mp member
  exact encodeChar_wide d c inside

theorem part_wide (part : namePart c = true) : 32 ≤ c.toNat := by
  have same := (part_plain part).1
  exact encodeChar_wide c c (same ▸ List.mem_singleton_self c)

theorem printAttributes_wide
    (good : ∀ a ∈ attributes, ValidName encoding a.name ∧ Encodable encoding a.value) :
    ∀ c ∈ printAttributes attributes, 32 ≤ c.toNat := by
  rw [printAttributes, shown_named fun a member => (good a member).1.ne_nil]
  intro c member
  obtain ⟨s, listed, inside⟩ := List.mem_flatten.mp member
  obtain ⟨a, among, rfl⟩ := List.mem_map.mp listed
  obtain ⟨named, encodable⟩ := good a among
  have name_wide : ∀ c ∈ a.name, 32 ≤ c.toNat := fun c part => part_wide (named.parts c part)
  have value_wide := encodeString_wide encodable
  have whole : ∀ c ∈ ' ' :: a.print, 32 ≤ c.toNat := by
    rw [Attribute.print, encodeString_name named]
    split
    all_goals simp only [List.forall_mem_append, List.forall_mem_cons]
    all_goals exact ⟨by decide, ⟨name_wide, by decide, by decide, value_wide⟩, by decide,
      List.forall_mem_nil _⟩
  exact whole c inside

variable (wide : ∀ c : Char, 32 ≤ c.toNat → P c)
include wide

theorem printField_chars {word : CText} (known : word ∈ [versionWord, encodingWord, standaloneWord])
    (raw : ∀ c ∈ value, P c) : ∀ c ∈ printField word value, P c := by
  have word_wide : ∀ c ∈ word, 32 ≤ c.toNat := fun c member =>
    part_wide ((word_valid known : ValidName .unknown word).parts c member)
  unfold printField
  split
  · exact List.forall_mem_nil _
  · simp only [List.forall_mem_append, List.forall_mem_cons]
    exact ⟨⟨fun c member => wide c (word_wide c member), wide _ (by decide), wide _ (by decide), raw⟩,
      wide _ (by decide), wide _ (by decide), List.forall_mem_nil _⟩

theorem leafWord_chars (printable : PrintableLeaf encoding content) (raw : content.Raw P) :
    ∀ c ∈ leafWord content, P c := by
  have cut : ∀ {s : CText}, (∀ c ∈ s, P c) → ∀ c ∈ CText.c_str s, P c := fun all c member =>
    all c (List.takeWhile_subset _ member)
  have literal : ∀ {s : CText}, (∀ c ∈ s, 32 ≤ c.toNat) → ∀ c ∈ s, P c :=
    fun all c member => wide c (all c member)
  match content with
  | .comment value =>
    simp only [leafWord, List.forall_mem_append]
    exact ⟨literal (wide_all rfl), cut raw, literal (wide_all rfl)⟩
  | .unknown value =>
    simp only [leafWord, List.forall_mem_append, List.forall_mem_cons]
    exact ⟨wide _ (by decide), cut raw, wide _ (by decide), List.forall_mem_nil _⟩
  | .text value true =>
    simp only [leafWord, if_true, List.forall_mem_append]
    exact ⟨literal (wide_all rfl), cut raw, literal (wide_all rfl)⟩
  | .text value false =>
    exact literal (encodeString_wide printable.toEncodable)
  | .declaration version enc standalone =>
    have each : ∀ c ∈ version ++ enc ++ standalone, P c := raw
    simp only [List.forall_mem_append] at each
    simp only [leafWord, Declared.print, List.forall_mem_append, List.forall_mem_cons]
    exact ⟨⟨literal (wide_all rfl), wide _ (by decide), ⟨printField_chars wide (by decide) each.1.1,
      printField_chars wide (by decide) each.1.2⟩, printField_chars wide (by decide) each.2⟩,
      wide _ (by decide), wide _ (by decide), List.forall_mem_nil _⟩

omit wide in
theorem Leaf.Raw.mono {Q : Char → Prop} (raw : content.Raw P) (weaker : ∀ c, P c → Q c) :
    content.Raw Q := by
  match content with
  | .comment value => exact fun c member => weaker c (raw c member)
  | .unknown value => exact fun c member => weaker c (raw c member)
  | .text value true => exact fun c member => weaker c (raw c member)
  | .text value false => trivial
  | .declaration version enc standalone => exact fun c member => weaker c (raw c member)

omit wide in
theorem Siblings.Raw.mono {Q : Char → Prop} (raw : nodes.Raw P) (weaker : ∀ c, P c → Q c) :
    nodes.Raw Q := by
  induction nodes with
  | nil => trivial
  | leaf content next ih => exact ⟨raw.1.mono weaker, ih raw.2⟩
  | element name attributes firstChild next first_ih ih =>
    exact ⟨fun c member => weaker c (raw.1 c member), first_ih raw.2.1, ih raw.2.2⟩

def Siblings.Sane : Siblings → Prop
  | nil => True
  | element name attributes firstChild next =>
    (∃ encoding, PrintableTag encoding name attributes) ∧ firstChild.Sane ∧ next.Sane
  | leaf content next => (∃ encoding, PrintableLeaf encoding content) ∧ next.Sane

omit wide in
theorem Printable.sane (printable : Printable encoding nodes) : nodes.Sane := by
  induction nodes with
  | nil => trivial
  | leaf content next ih => exact ⟨⟨encoding, printable.1⟩, ih printable.2.2.2⟩
  | element name attributes firstChild next first_ih ih =>
    exact ⟨⟨encoding, printable.1⟩, first_ih printable.2.1, ih printable.2.2⟩

omit wide in
theorem PrintableDocument.sane (printable : PrintableDocument encoding nodes) : nodes.Sane := by
  induction nodes generalizing encoding with
  | nil => trivial
  | leaf content next ih => exact ⟨⟨encoding, printable.1⟩, ih printable.2.2⟩
  | element name attributes firstChild next first_ih ih =>
    exact ⟨⟨encoding, printable.1⟩, Printable.sane printable.2.1, ih printable.2.2⟩

omit wide in
theorem chars_name {name : CText} (raw : ∀ c ∈ name, P c) : ∀ c ∈ CText.c_str name, P c :=
  fun c member => raw c (List.takeWhile_subset _ member)

omit wide in
theorem chars_replicate {s : CText} (all : ∀ c ∈ s, P c) (n : Nat) :
    ∀ c ∈ (List.replicate n s).flatten, P c := by
  intro c member
  obtain ⟨t, listed, inside⟩ := List.mem_flatten.mp member
  rw [List.eq_of_mem_replicate listed] at inside
  exact all c inside

theorem endTag_chars {name : CText} (raw : ∀ c ∈ name, P c) :
    ∀ c ∈ endTag (CText.c_str name), P c := by
  simp only [endTag, List.forall_mem_append, List.forall_mem_cons]
  exact ⟨⟨wide _ (by decide), wide _ (by decide), chars_name raw⟩, wide _ (by decide),
    List.forall_mem_nil _⟩

theorem layout_chars {indent lineBreak : CText} (indented : ∀ c ∈ indent, P c)
    (broken : ∀ c ∈ lineBreak, P c) (depth : Nat) (sane : nodes.Sane) (raw : nodes.Raw P) :
    ∀ c ∈ layout indent lineBreak depth nodes, P c := by
  induction nodes generalizing depth with
  | nil => exact List.forall_mem_nil _
  | leaf content next ih =>
    obtain ⟨⟨encoding, printable⟩, others⟩ := sane
    simp only [layout, List.forall_mem_append]
    exact ⟨chars_replicate indented depth, leafWord_chars wide printable raw.1, broken,
      ih depth others raw.2⟩
  | element name attributes firstChild next first_ih ih =>
    obtain ⟨⟨encoding, tag⟩, inside, others⟩ := sane
    obtain ⟨raw_name, raw_first, raw_next⟩ := raw
    have pad := chars_replicate indented depth
    have attrs : ∀ c ∈ printAttributes attributes, P c := fun c member =>
      wide c (printAttributes_wide tag.encodable c member)
    have ends : ∀ c ∈ endTag (CText.c_str name), P c := endTag_chars wide raw_name
    have text : onlyText firstChild = true → ∀ c ∈ firstText firstChild, P c := by
      intro only c member
      obtain ⟨text, rfl⟩ := onlyText_text only
      obtain ⟨⟨encoding, readable⟩, -⟩ := inside
      exact wide c (encodeString_wide readable.toEncodable c member)
    simp only [layout, List.forall_mem_append, List.forall_mem_cons]
    refine ⟨pad, wide _ (by decide), chars_name raw_name, attrs, ?_, ih depth others raw_next⟩
    split
    · simp only [List.forall_mem_cons]
      exact ⟨wide _ (by decide), wide _ (by decide), wide _ (by decide), broken⟩
    · simp only [List.forall_mem_append, List.forall_mem_cons]
      refine ⟨wide _ (by decide), ?_, ends, broken⟩
      split
      · rename_i only
        exact text only
      · simp only [List.forall_mem_append]
        exact ⟨broken, first_ih (depth + 1) inside raw_first, pad⟩

theorem print_chars (line : P '\n') (noZero : ∀ c, P c → c ≠ '\x00') (document : Bool) (depth : Nat)
    (sane : nodes.Sane) (raw : nodes.Raw P) : ∀ c ∈ nodes.print document depth, P c := by
  have padded : ∀ {s : CText}, Padding s → ∀ c ∈ s, P c := by
    intro s padding c member
    rcases padding c member with rfl | rfl
    · exact wide _ (by decide)
    · exact line
  have breaks : ∀ p : Prop, [Decidable p] → ∀ c ∈ (if p then [] else ['\n']), P c := by
    intro p _
    split
    · exact List.forall_mem_nil _
    · exact List.forall_mem_singleton.mpr line
  have breaks' : ∀ c ∈ (if document = true then ['\n'] else []), P c := by
    split
    · exact List.forall_mem_singleton.mpr line
    · exact List.forall_mem_nil _
  induction nodes generalizing document depth with
  | nil => exact List.forall_mem_nil _
  | leaf content next ih =>
    obtain ⟨⟨encoding, printable⟩, others⟩ := sane
    obtain ⟨before, after, front, back, printed⟩ := leaf_print (raw.1.mono noZero) depth
    simp only [Siblings.print, printed, List.forall_mem_append]
    exact ⟨⟨⟨breaks _, padded front, leafWord_chars wide printable raw.1, padded back⟩, breaks'⟩,
      ih document depth others raw.2 breaks'⟩
  | element name attributes firstChild next first_ih ih =>
    obtain ⟨⟨encoding, tag⟩, inside, others⟩ := sane
    obtain ⟨raw_name, raw_first, raw_next⟩ := raw
    have pad := padded (tabs_padding depth)
    have attrs : ∀ c ∈ printAttributes attributes, P c := fun c member =>
      wide c (printAttributes_wide tag.encodable c member)
    have below := first_ih false (depth + 1) inside raw_first (List.forall_mem_nil _)
    simp only [Siblings.print, List.forall_mem_append, List.forall_mem_cons]
    refine ⟨⟨⟨⟨⟨⟨breaks _, pad⟩, wide _ (by decide), chars_name raw_name⟩, attrs⟩, ?_⟩, breaks'⟩,
      ih document depth others raw_next breaks'⟩
    split
    · exact fun c member => wide c (wide_all rfl c member)
    · simp only [List.forall_mem_append, List.forall_mem_cons]
      refine ⟨⟨⟨⟨wide _ (by decide), below⟩, ?_⟩, wide _ (by decide), wide _ (by decide),
        chars_name raw_name⟩, wide _ (by decide), List.forall_mem_nil _⟩
      split
      · exact List.forall_mem_nil _
      · exact List.forall_mem_cons.mpr ⟨line, pad⟩

end Characters

end DevAccess.TinyXml
