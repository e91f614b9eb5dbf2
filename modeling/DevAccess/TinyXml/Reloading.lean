import DevAccess.TinyXml.Accepted

/-! A file that was loaded and saved again. -/
namespace DevAccess.TinyXml
open Foundation Xml

def FaithfulLeaf (encoding : Encoding) : Leaf → Prop
  | .text value false => Readable encoding value
  | .declaration version enc standalone =>
    (Quotable encoding version ∧ Quotable encoding enc ∧ Quotable encoding standalone) ∧
      '\r' ∉ version ++ enc ++ standalone
  | _ => True

/-- The values are printed as they were read. -/
def Faithful (encoding : Encoding) : Siblings → Prop
  | .nil => True
  | .element _ attributes firstChild next =>
    (∀ a ∈ attributes, Encodable encoding a.value) ∧ Faithful encoding firstChild ∧
      Faithful encoding next
  | .leaf content next => FaithfulLeaf encoding content ∧ Faithful encoding next

def FaithfulDocument : Encoding → Siblings → Prop
  | _, .nil => True
  | encoding, .element _ attributes firstChild next =>
    (∀ a ∈ attributes, Encodable encoding a.value) ∧ Faithful encoding firstChild ∧
      FaithfulDocument encoding next
  | encoding, .leaf content next =>
    FaithfulLeaf encoding content ∧
      FaithfulDocument (encodingAfter encoding (.leaf content .nil)) next

section Reload
variable {encoding : Encoding} {P : Char → Prop} {nodes : Siblings} {content : Leaf} {d : Document}
    {file lineEnd : CText}

theorem FormedLeaf.printable (formed : FormedLeaf P content)
    (faithful : FaithfulLeaf encoding content) :
    PrintableLeaf encoding content := by
  cases content with
  | comment value => exact formed.1
  | unknown value => exact formed.1
  | text value cdata =>
    cases cdata with
    | false => exact faithful
    | true => exact formed.1
  | declaration version enc standalone => exact faithful.1

theorem FormedTag.printable {sound : Prop} {name : CText} {attributes : List Attribute}
    (tag : FormedTag encoding sound name attributes) (holds : sound)
    (faithful : ∀ a ∈ attributes, Encodable encoding a.value) :
    PrintableTag encoding name attributes :=
  ⟨tag.named.resolve_right fun nameless => nameless.2 holds,
    fun a member => ⟨tag.valid a member, faithful a member⟩, tag.distinct⟩

theorem Formed.printable {sound : Prop} (formed : Formed encoding P sound nodes) (holds : sound)
    (faithful : Faithful encoding nodes) : Printable encoding nodes := by
  induction nodes with
  | nil => trivial
  | element name attributes firstChild next first_ih ih =>
    exact ⟨formed.1.printable holds faithful.1, first_ih formed.2.1 faithful.2.1,
      ih formed.2.2 faithful.2.2⟩
  | leaf content next ih =>
    exact ⟨formed.1.printable faithful.1, formed.2.1, formed.2.2.1, ih formed.2.2.2 faithful.2⟩

theorem FormedDocument.printable {sound : Prop} (formed : FormedDocument P sound encoding nodes)
    (holds : sound)
    (faithful : FaithfulDocument encoding nodes) : PrintableDocument encoding nodes := by
  induction nodes generalizing encoding with
  | nil => trivial
  | element name attributes firstChild next first_ih ih =>
    exact ⟨formed.1.printable holds faithful.1, formed.2.1.printable holds faithful.2.1,
      ih formed.2.2 faithful.2.2⟩
  | leaf content next ih => exact ⟨formed.1.printable faithful.1, formed.2.1,
    ih formed.2.2 faithful.2⟩

theorem FormedLeaf.raw (formed : FormedLeaf (fun c => c ≠ '\x00' ∧ c ≠ '\r') content)
    (faithful : FaithfulLeaf encoding content) : content.Raw fun c => c ≠ '\x00' ∧ c ≠ '\r' := by
  cases content with
  | comment value => exact formed.2
  | unknown value => exact formed.2
  | text value cdata =>
    cases cdata with
    | false => trivial
    | true => exact formed.2
  | declaration version enc standalone =>
    exact fun c member => ⟨fun zero => formed (zero ▸ member), fun ret => faithful.2 (ret ▸ member)⟩

theorem FormedTag.raw {sound : Prop} {name : CText} {attributes : List Attribute}
    (tag : FormedTag encoding sound name attributes) (holds : sound) :
    ∀ c ∈ name, c ≠ '\x00' ∧ c ≠ '\r' := by
  have valid := tag.named.resolve_right fun nameless => nameless.2 holds
  intro c member
  refine ⟨(part_plain (valid.parts c member)).2.2, ?_⟩
  rintro rfl
  cases valid.parts '\r' member

theorem Formed.raw {sound : Prop}
    (formed : Formed encoding (fun c => c ≠ '\x00' ∧ c ≠ '\r') sound nodes)
    (holds : sound) (faithful : Faithful encoding nodes) :
    nodes.Raw fun c => c ≠ '\x00' ∧ c ≠ '\r' := by
  induction nodes with
  | nil => trivial
  | element name attributes firstChild next first_ih ih =>
    exact ⟨formed.1.raw holds, first_ih formed.2.1 faithful.2.1, ih formed.2.2 faithful.2.2⟩
  | leaf content next ih => exact ⟨formed.1.raw faithful.1, ih formed.2.2.2 faithful.2⟩

theorem FormedDocument.raw {sound : Prop}
    (formed : FormedDocument (fun c => c ≠ '\x00' ∧ c ≠ '\r') sound encoding nodes) (holds : sound)
    (faithful : FaithfulDocument encoding nodes) : nodes.Raw fun c => c ≠ '\x00' ∧ c ≠ '\r' := by
  induction nodes generalizing encoding with
  | nil => trivial
  | element name attributes firstChild next first_ih ih =>
    exact ⟨formed.1.raw holds, formed.2.1.raw holds faithful.2.1, ih formed.2.2 faithful.2.2⟩
  | leaf content next ih => exact ⟨formed.1.raw faithful.1, ih formed.2.2 faithful.2⟩

theorem lineEnds_chars {s : CText} (noZero : '\x00' ∉ s) :
    ∀ c ∈ lineEnds s, c ≠ '\x00' ∧ c ≠ '\r' := by
  induction s with
  | nil => exact List.forall_mem_nil _
  | cons c s ih =>
    obtain ⟨other, later⟩ := not_or.mp fun either => noZero (List.mem_cons.mpr either)
    have rest := ih later
    rw [lineEnds]
    split
    · split
      · exact rest
      · exact List.forall_mem_cons.mpr ⟨⟨by decide, by decide⟩, rest⟩
    · rename_i noReturn
      exact List.forall_mem_cons.mpr ⟨⟨fun zero => other zero.symm, noReturn⟩, rest⟩

theorem parse_nonempty {p : CText} (parsed : Document.parse p = .ok d) (accepted : d.error = none) :
    d.children ≠ .nil := by
  unfold Document.parse at parsed
  dsimp only at parsed
  split at parsed
  · obtain rfl := Except.ok.inj parsed
    cases accepted
  · rename_i q skipped
    generalize documentLoop (p.length + 1) _ (some q) = looped at parsed
    cases looped with
    | error stop => cases parsed
    | ok r =>
      obtain rfl := Except.ok.inj parsed
      intro empty
      have failed : r.error.or (some Error.documentEmpty) = none := (if_pos empty).symm.trans accepted
      cases (or_none failed).2

/-- A file that was loaded without an error, saved and loaded again gives the same document. -/
theorem loadFile_again (loaded : Document.loadFile (some file) = .ok d) (accepted : d.error = none)
    (faithful : FaithfulDocument (startEncoding d.useMicrosoftBOM) d.children) (ends : Ends lineEnd) :
    Document.loadFile (some (d.saveFile lineEnd)) = .ok d := by
  rw [loadFile_eq] at loaded
  have chars := lineEnds_chars (c_str_noZero file)
  have formed := parse_formed chars
  rw [loaded] at formed
  have printable := FormedDocument.printable formed accepted faithful
  have raw := FormedDocument.raw formed accepted faithful
  have again := loadFile_spelt (saveFile_spelt printable raw ends) (parse_nonempty loaded accepted)
  rw [again, ← accepted]

theorem load_remarked_again : Document.loadFile (some (remarked.saveFile ['\n'])) = .ok remarked := by
  have spelt : Spelt (remarked.saveFile ['\r', '\n']) remarked.children false :=
    saveFile_spelt (d := remarked) remarked_printable remarked_raw (.inr rfl)
  have tag := remarked_printable.2.2.1
  have text := remarked_printable.2.2.2.1
  exact loadFile_again (loadFile_spelt spelt fun none => by cases none) rfl
    ⟨trivial, fun a member => (tag.encodable a member).2, ⟨text.1, trivial⟩, trivial⟩ (.inl rfl)

end Reload

end DevAccess.TinyXml
