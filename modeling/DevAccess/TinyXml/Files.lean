import DevAccess.TinyXml.Saving

/-! What str and SaveFile make of a document is read back as that document, with the ends of
lines as the system writes them. -/
namespace DevAccess.TinyXml
open Foundation Xml

section Ends
variable {s lineEnd : CText}

/-- The loop of LoadFile does what is asked for the ends of lines before a text is parsed. -/
theorem normalise_lineEnds (pending s : CText) : normalise pending s = pending ++ lineEnds s := by
  fun_induction normalise pending s with
  | case1 pending => simp [lineEnds]
  | case2 pending p ih => simp [lineEnds, ih]
  | case3 pending p ih => simp [lineEnds, ih]
  | case4 pending p other ih =>
    have alone : p.head? ≠ some '\n' := by
      intro first
      obtain ⟨rest, rfl⟩ := List.head?_eq_some_iff.mp first
      exact other rest rfl
    simp [lineEnds, ih, alone]
  | case5 pending c p newline ends alone ih =>
    rw [ih, lineEnds, if_neg alone]
    simp

/-- A file is parsed up to its first zero, with its lines ended in one way. -/
theorem loadFile_eq (file : CText) :
    Document.loadFile (some file) = Document.parse (lineEnds (CText.c_str file)) := by
  cases file with
  | nil => rfl
  | cons c rest => exact congrArg Document.parse (normalise_lineEnds [] (CText.c_str (c :: rest)))

/-- How a system ends a line of a text file. -/
def Ends (lineEnd : CText) : Prop := lineEnd = ['\n'] ∨ lineEnd = ['\r', '\n']

theorem lineEnds_textStream (ends : Ends lineEnd) (plain : ∀ c ∈ s, c ≠ '\r') :
    lineEnds (textStream lineEnd s) = s := by
  induction s with
  | nil => rfl
  | cons c s ih =>
    obtain ⟨first, later⟩ := List.forall_mem_cons.mp plain
    have rest := ih later
    unfold textStream at rest ⊢
    rw [List.flatMap_cons]
    by_cases line : c = '\n'
    · rw [if_pos line, line]
      rcases ends with rfl | rfl
      · simp [lineEnds, rest]
      · simp [lineEnds, rest]
    · rw [if_neg line, List.singleton_append, lineEnds, if_neg first, rest]

theorem textStream_chars {P : Char → Prop} (written : ∀ c ∈ lineEnd, P c) (all : ∀ c ∈ s, P c) :
    ∀ c ∈ textStream lineEnd s, P c := by
  intro c member
  obtain ⟨d, among, inside⟩ := List.mem_flatMap.mp member
  split at inside
  · exact written c inside
  · rw [List.mem_singleton.mp inside]
    exact all d among

end Ends

section RoundTrips
variable {d : Document} {lineEnd : CText} {q : Printer}

theorem white_raw {s : CText} (white : White s) : ∀ c ∈ s, c ≠ '\x00' := by
  rintro c member rfl
  cases white _ member

theorem wide_raw (c : Char) (wide : 32 ≤ c.toNat) : c ≠ '\x00' ∧ c ≠ '\r' := by
  constructor
  all_goals
    rintro rfl
    exact absurd wide (by decide)

/-- What a TiXmlPrinter prints of a printable document is a document as it may be written. -/
theorem printed_written {nodes : Siblings} (printable : PrintableDocument .unknown nodes)
    (raw : nodes.Raw (· ≠ '\x00')) (fresh : q.buffer = [] ∧ q.simpleTextPrint = false)
    (white : White q.indent ∧ White q.lineBreak) :
    WrittenDocument .unknown nodes (CText.c_str (nodes.accept q).buffer) := by
  have printed : (nodes.accept q).buffer = layout q.indent q.lineBreak q.depth nodes := by
    rw [accept_layout nodes fresh.2, Printer.add, fresh.1, List.nil_append]
  have whole : ∀ c ∈ layout q.indent q.lineBreak q.depth nodes, c ≠ '\x00' :=
    layout_chars (fun c wide => (wide_raw c wide).1) (white_raw white.1)
      (white_raw white.2) q.depth printable.sane raw
  rw [printed, c_str_raw whole]
  exact layout_writtenDocument white.1 white.2 q.depth printable raw

theorem new_white : White Printer.new.indent ∧ White Printer.new.lineBreak := by
  constructor
  all_goals exact List.all_eq_true.mp rfl

/-- It is parsed to the same nodes. -/
theorem parse_printed (printable : PrintableDocument .unknown d.children)
    (raw : d.children.Raw (· ≠ '\x00'))
    (nonempty : d.children ≠ .nil) (fresh : q.buffer = [] ∧ q.simpleTextPrint = false)
    (white : White q.indent ∧ White q.lineBreak) :
    Document.parse (CText.c_str (d.children.accept q).buffer) = .ok ⟨d.children, false, none⟩ := by
  have written : WrittenDocument (startEncoding false) d.children
      (CText.c_str (d.children.accept q).buffer) :=
    printed_written printable raw fresh white
  exact parse_written written nonempty

def remarked : Document where
  children := .leaf (.comment ['a', '\n', 'b'])
    (.element ['r'] [⟨['q'], ['"', '<', '\t']⟩] (.leaf (.text ['1', ' ', '&', '2'] false) .nil) .nil)
  useMicrosoftBOM := false
  error := none

theorem remarked_printable : PrintableDocument .unknown remarked.children := by
  have encodable : ∀ s, ¬ refStart <:+: s → Encodable .unknown s :=
    fun s plain => ⟨whole_other (by decide) s, plain⟩
  have name : ∀ c, nameStart c = true → ValidName .unknown [c] := by
    intro c start
    refine ⟨by simpa using start, List.forall_mem_singleton.mpr (nameStart_part start),
      fun mark => ?_⟩
    cases mark.1
  have readable : Readable .unknown ['1', ' ', '&', '2'] :=
    ⟨encodable _ (by decide), by decide, by decide, fun mark => by cases mark.1⟩
  have tag : PrintableTag .unknown ['r'] [⟨['q'], ['"', '<', '\t']⟩] :=
    ⟨name 'r' (by decide), List.forall_mem_singleton.mpr ⟨name 'q' (by decide),
      encodable _ (by decide)⟩, by decide⟩
  exact ⟨show ¬ commentEnd <:+: ['a', '\n',
    'b'] by decide, rfl, tag, ⟨readable, rfl, fun _ => rfl, trivial⟩, trivial⟩

theorem remarked_raw : remarked.children.Raw fun c => c ≠ '\x00' ∧ c ≠ '\r' := by
  simp [remarked, Siblings.Raw, Leaf.Raw]

theorem parse_remarked : Document.parse
    (CText.c_str (remarked.children.accept { Printer.new with indent := ['\t'] }).buffer) =
      .ok ⟨remarked.children, false, none⟩ :=
  parse_printed remarked_printable (remarked_raw.mono fun _ raw => raw.1)
    (fun none => by cases none) ⟨rfl, rfl⟩
    ⟨List.all_eq_true.mp rfl, List.all_eq_true.mp rfl⟩

/-- The file is written as a document with these nodes may be, its lines ended in any way. -/
def Spelt (file : CText) (nodes : Siblings) (bom : Bool) : Prop :=
  ∃ w, lineEnds (CText.c_str file) = startMark bom ++ w ∧ WrittenDocument (startEncoding bom) nodes w

theorem loadFile_spelt {file : CText} {nodes : Siblings} {bom : Bool} (spelt : Spelt file nodes bom)
    (nonempty : nodes ≠ .nil) : Document.loadFile (some file) = .ok ⟨nodes, bom, none⟩ := by
  obtain ⟨w, marked, written⟩ := spelt
  rw [loadFile_eq, marked, parse_written written nonempty]

theorem saveFile_spelt (printable : PrintableDocument (startEncoding d.useMicrosoftBOM) d.children)
    (raw : d.children.Raw fun c => c ≠ '\x00' ∧ c ≠ '\r') (ends : Ends lineEnd) :
    Spelt (d.saveFile lineEnd) d.children d.useMicrosoftBOM := by
  have chars := print_chars wide_raw ⟨by decide, by decide⟩
    (fun _ raw => raw.1) true 0 printable.sane raw
  have marked : ∀ c ∈ startMark d.useMicrosoftBOM, c ≠ '\x00' ∧ c ≠ '\r' := by
    unfold startMark
    split
    · exact fun c member => wide_raw c (wide_all rfl c member)
    · exact List.forall_mem_nil _
  have whole := List.forall_mem_append.mpr ⟨marked, chars⟩
  have line : ∀ c ∈ lineEnd, c ≠ '\x00' := by
    rcases ends with rfl | rfl
    all_goals simp
  have noZero := textStream_chars line fun c member => (whole c member).1
  refine ⟨d.children.print true 0, ?_,
    print_writtenDocument 0 printable (raw.mono fun _ each => each.1)⟩
  have saved : CText.c_str (d.saveFile lineEnd) = d.saveFile lineEnd := c_str_raw noZero
  rw [saved]
  exact lineEnds_textStream ends fun c member => (whole c member).2

/-- A printable document is loaded from its file as it was saved. -/
theorem loadFile_saveFile (printable : PrintableDocument (startEncoding d.useMicrosoftBOM) d.children)
    (raw : d.children.Raw fun c => c ≠ '\x00' ∧ c ≠ '\r') (nonempty : d.children ≠ .nil)
    (ends : Ends lineEnd) :
    Document.loadFile (some (d.saveFile lineEnd)) = .ok ⟨d.children, d.useMicrosoftBOM, none⟩ :=
  loadFile_spelt (saveFile_spelt printable raw ends) nonempty

theorem load_remarked : Document.loadFile (some (remarked.saveFile ['\r', '\n'])) =
    .ok ⟨remarked.children, false, none⟩ :=
  loadFile_saveFile remarked_printable remarked_raw (fun none => by cases none) (.inr rfl)

end RoundTrips

end DevAccess.TinyXml
