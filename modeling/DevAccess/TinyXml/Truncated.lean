import DevAccess.TinyXml.Files
import DevAccess.TinyXml.Reading

/-! Texts that stop before the document is whole: in something that has an end of its own, which
is looked for behind the text, or before the end tags of elements, which are only missed. -/
namespace DevAccess.TinyXml
open Foundation Xml

/-- A comment, a section or a quoted value that never ends. -/
inductive Unended (encoding : Encoding) : CText → Prop
  | comment {s : CText} (noEnd : ¬ commentEnd <:+: s) : Unended encoding (commentHeader ++ s)
  | cdata {s : CText} (noEnd : ¬ cdataEnd <:+: s) : Unended encoding (cdataHeader ++ s)
  | value {element name w b e f value word : CText} {quote : Char} {attributes : List Attribute}
      (tag : StartTag encoding element attributes w) (white : White b) (apart : b ≠ [])
      (named : ValidName encoding name) (equals : White e ∧ White f)
        (quoted : quote = '"' ∨ quote = '\'')
      (spelled : Spelling encoding (· = quote) value word) :
      Unended encoding ('<' :: (w ++ (b ++ (name ++ (e ++ '=' :: (f ++ quote :: word))))))

/-- Content that stops there, in an element of any depth. -/
inductive Broken (encoding : Encoding) : CText → Prop
  | here {w s : CText} {nodes : Siblings} (before : Written encoding nodes w)
      (stops : Unended encoding s) :
      Broken encoding (w ++ s)
  | inside {w name t s : CText} {nodes : Siblings} {attributes : List Attribute}
      (before : Written encoding nodes w) (tag : StartTag encoding name attributes t)
      (within : Broken encoding s) : Broken encoding (w ++ '<' :: (t ++ '>' :: s))

inductive BrokenDocument (encoding : Encoding) : CText → Prop
  | here {w s : CText} {nodes : Siblings} (before : WrittenDocument encoding nodes w)
      (stops : Unended (encodingBehind encoding nodes) s) : BrokenDocument encoding (w ++ s)
  | inside {w name t s : CText} {nodes : Siblings} {attributes : List Attribute}
      (before : WrittenDocument encoding nodes w)
        (tag : StartTag (encodingBehind encoding nodes) name attributes t)
      (within : Broken (encodingBehind encoding nodes) s) :
        BrokenDocument encoding (w ++ '<' :: (t ++ '>' :: s))

section Faults
variable {encoding : Encoding} {w s b name word value : CText} {n : Nat}

theorem upTo_none {tag : CText} (noEnd : ¬ tag <:+: s) : upTo tag s = (s, []) := by
  induction s with
  | nil => rfl
  | cons c s ih =>
    obtain ⟨first, later⟩ := not_or.mp (mt List.infix_cons_iff.mpr noEnd)
    rw [upTo, if_neg (mt (stringEqual_exact (List.cons_ne_nil c s)).mp first), ih later]

theorem readKept_unended {quote : Char} (spelling : Spelling encoding (· = quote) value word)
    (fuel : word.length ≤ n) :
    readKept encoding [quote] n word = .ok (value, some []) := by
  induction spelling generalizing n with
  | nil =>
    cases n with
    | zero => rfl
    | succ n => rfl
  | @cons value word values words spells later ih =>
    obtain ⟨c, word, rfl⟩ := List.exists_cons_of_ne_nil spells.nonempty
    have other : ¬ stringEqual (c :: (word ++ words)) [quote] false = true := fun stops =>
      spells.first c rfl ((stringEqual_single c quote _).mp stops)
    have next := spells.read words
    simp only [List.length_append, List.length_cons] at fuel
    obtain ⟨n, rfl⟩ := Nat.exists_eq_succ_of_ne_zero (show n ≠ 0 by omega)
    rw [List.cons_append] at next
    have rest := ih (show words.length ≤ n by omega)
    rw [List.cons_append, readKept, if_neg other, next]
    simp only [bind, Except.bind, rest]
    rfl

theorem white_ends (white : White b) (apart : b ≠ []) (s : CText) :
    (b ++ s).head?.any namePart = false := by
  obtain ⟨c, b, rfl⟩ := List.exists_cons_of_ne_nil apart
  exact white_not_part (white_cons.mp white).1

theorem readTag_unended {element e f : CText} {quote : Char} {attributes : List Attribute}
    (tag : StartTag encoding element attributes w) (white : White b) (apart : b ≠ [])
    (named : ValidName encoding name)
    (equals : White e ∧ White f) (quoted : quote = '"' ∨ quote = '\'')
    (spelled : Spelling encoding (· = quote) value word) :
    readTag encoding (w ++ (b ++ (name ++ (e ++ '=' :: (f ++ quote :: word))))) = .error .fault := by
  apply readTag_written tag (List.append_ne_nil_of_left_ne_nil apart _) (white_ends white apart _)
  intro n c white'
  have parsed : attributeParse encoding (name ++ (e ++ '=' :: (f ++ quote :: word))) =
      .error .fault := by
    rw [attributeParse_quoted named equals quoted, readQuoted, readText, if_neg (by decide),
      readKept_unended spelled (Nat.le_refl _)]
    rfl
  obtain ⟨first, q, whole, skipped, slash, close⟩ := readAttributes_name (white'.append white) named
    (equals_ends equals.1 (f ++ quote :: word))
  rw [whole] at parsed
  rw [List.append_assoc] at skipped
  rw [readAttributes, skipped]
  simp only [if_neg slash, if_neg close, parsed]
  rfl

theorem Unended.faults (stops : Unended encoding s) : ∃ c rest kind, s = '<' :: c :: rest ∧ c ≠ '/' ∧
    identify encoding s = some kind ∧
        ∀ content, nodeParse content encoding kind s = .error .fault := by
  cases stops with
  | @comment s noEnd =>
    refine ⟨_, _, .comment, rfl, by decide, identify_lt encoding _, fun content => ?_⟩
    rw [nodeParse, commentParse, List.drop_left, upTo_none noEnd]
    rfl
  | @cdata s noEnd =>
    refine ⟨_, _, .cdata, rfl, by decide, identify_lt encoding _, fun content => ?_⟩
    rw [nodeParse, cdataParse, List.drop_left, upTo_none noEnd]
    rfl
  | value tag white apart named equals quoted spelled =>
    obtain ⟨c, rest, whole, start⟩ := tag.first
    refine ⟨c, _, .element, by rw [whole]; rfl, nameStart_ne start (by decide), tag.identify _,
      fun content => ?_⟩
    rw [nodeParse, elementParse, List.tail_cons,
      readTag_unended tag white apart named equals quoted spelled]
    rfl

theorem readValue_faults {t : CText} {kind : Kind} (white : White b)
    (notEnd : stringEqual ('<' :: t) ['<', '/'] false = false)
    (known : identify encoding ('<' :: t) = some kind)
    (faults :
      nodeParse (fun p => readValue encoding n (some p)) encoding kind ('<' :: t) = .error .fault) :
    readValue encoding (n + 1) (some (b ++ '<' :: t)) = .error .fault := by
  rw [readValue, skip_plain white (by decide) (by decide)]
  simp only [if_true, notEnd, Bool.false_eq_true, if_false, known, faults]
  rfl

theorem elementParse_faults {t : CText} {attributes : List Attribute}
    (tag : StartTag encoding name attributes t)
    (content : CText → Call (Parsed Siblings)) (faults : content s = .error .fault) :
    elementParse content encoding ('<' :: (t ++ '>' :: s)) = .error .fault := by
  have read := readTag_written tag (List.cons_ne_nil '>' s)
    (by exact (by decide : namePart '>' = false))
    (fun n b white => readAttributes_opened white attributes s)
  rw [elementParse, List.tail_cons, read]
  simp only [bind, Except.bind, faults]

theorem readValue_broken (broken : Broken encoding s) (fuel : s.length < n) :
    readValue encoding n (some s) = .error .fault := by
  induction broken generalizing n with
  | @here w s nodes before stops =>
    obtain ⟨c, rest, kind, rfl, other, known, faults⟩ := stops.faults
    have later : ∀ b n, White b → ('<' :: c :: rest).length < n →
        readValue encoding n (some (b ++ '<' :: c :: rest)) = .error .fault := by
      intro b n white enough
      obtain ⟨n, rfl⟩ := Nat.exists_eq_succ_of_ne_zero (Nat.ne_zero_of_lt enough)
      exact readValue_faults white (second_char other rest []) known (faults _)
    rw [List.length_append] at fuel
    obtain ⟨b, white, read⟩ := readValue_front before (.inr rfl) later
    exact read n fuel
  | @inside w name t s nodes attributes before tag within ih =>
    have later : ∀ b n, White b → s.length + 1 < n →
        readValue encoding n (some (b ++ '<' :: (t ++ '>' :: s))) = .error .fault := by
      intro b n white enough
      obtain ⟨n, rfl⟩ := Nat.exists_eq_succ_of_ne_zero (Nat.ne_zero_of_lt enough)
      exact readValue_faults white (tag.notEnd _) (tag.identify _)
        (elementParse_faults tag _ (ih (Nat.lt_of_succ_lt_succ enough)))
    simp only [List.length_append, List.length_cons] at fuel
    obtain ⟨b, white, read⟩ := readValue_front before (.inr rfl) later
    exact read n (by omega)

theorem documentLoop_faults {t : CText} {kind : Kind} (white : White b)
    (known : identify encoding ('<' :: t) = some kind)
    (faults :
      nodeParse (fun p => readValue encoding n (some p)) encoding kind ('<' :: t) = .error .fault) :
    documentLoop (n + 1) encoding (skipWhiteSpace encoding (some (b ++ '<' :: t))) =
        .error .fault := by
  rw [skip_plain white (by decide) (by decide)]
  simp only [documentLoop, known, faults]
  rfl

theorem documentLoop_broken (broken : BrokenDocument encoding s) (fuel : s.length < n) :
    documentLoop n encoding (skipWhiteSpace encoding (some s)) = .error .fault := by
  cases broken with
  | @here w s nodes before stops =>
    obtain ⟨c, rest, kind, rfl, other, known, faults⟩ := stops.faults
    have later : ∀ b n, White b → ('<' :: c :: rest).length < n →
      documentLoop n (encodingBehind encoding nodes)
        (skipWhiteSpace (encodingBehind encoding nodes) (some (b ++ '<' :: c :: rest))) =
            .error .fault := by
      intro b n white enough
      obtain ⟨n, rfl⟩ := Nat.exists_eq_succ_of_ne_zero (Nat.ne_zero_of_lt enough)
      exact documentLoop_faults white known (faults _)
    rw [List.length_append] at fuel
    obtain ⟨b, white, read⟩ := documentLoop_front before later
    exact read n fuel
  | @inside w name t s nodes attributes before tag within =>
    have later : ∀ b n, White b → s.length + 1 < n → documentLoop n (encodingBehind encoding nodes)
        (skipWhiteSpace (encodingBehind encoding nodes) (some (b ++ '<' :: (t ++ '>' :: s)))) =
            .error .fault := by
      intro b n white enough
      obtain ⟨n, rfl⟩ := Nat.exists_eq_succ_of_ne_zero (Nat.ne_zero_of_lt enough)
      exact documentLoop_faults white (tag.identify _)
        (elementParse_faults tag _ (readValue_broken within (Nat.lt_of_succ_lt_succ enough)))
    simp only [List.length_append, List.length_cons] at fuel
    obtain ⟨b, white, read⟩ := documentLoop_front before later
    exact read n (by omega)

theorem BrokenDocument.first (broken : BrokenDocument encoding s) :
    s ≠ [] ∧ s.head? ≠ some '\xef' := by
  cases broken with
  | @here w s nodes before stops =>
    obtain ⟨c, rest, kind, rfl, -⟩ := stops.faults
    exact ⟨List.append_ne_nil_of_right_ne_nil w (List.cons_ne_nil _ _), before.head (lt_head _)⟩
  | @inside w name t s nodes attributes before tag within =>
    exact ⟨List.append_ne_nil_of_right_ne_nil w (List.cons_ne_nil _ _), before.head (lt_head _)⟩

/-- A text that stops in a comment, a section or a quoted value, at any depth, is read behind its end. -/
theorem parse_broken {bom : Bool} (broken : BrokenDocument (startEncoding bom) w) :
    Document.parse (startMark bom ++ w) = .error .fault := by
  obtain ⟨nonempty, plain⟩ := broken.first
  obtain ⟨n, fuel, parsed⟩ := parse_looped bom nonempty plain
  rw [parsed, documentLoop_broken broken fuel]
  rfl

theorem bare_tag (named : name.head?.any nameStart = true ∧ name.all namePart = true ∧
    startsMark name = false) :
    StartTag encoding name [] name := by
  refine ⟨⟨named.1, List.all_eq_true.mp named.2.1, fun mark => ?_⟩, List.nodup_nil, [], [], .nil,
    White.nil, (List.append_nil name).symm⟩
  rw [named.2.2] at mark
  cases mark.2

theorem parse_open_comment : Document.parse ['<', 'r', '>', '<', '!', '-', '-', 'x', '-'] =
    .error .fault := by
  have tag : StartTag .unknown ['r'] [] ['r'] := bare_tag (by decide)
  have stops : Unended .unknown ['<', '!', '-', '-', 'x', '-'] :=
    .comment (show ¬ commentEnd <:+: ['x', '-'] by decide)
  have broken : BrokenDocument (startEncoding false) ['<', 'r', '>', '<', '!', '-', '-', 'x', '-'] :=
    .inside (.nil White.nil) tag (.here (.nil White.nil) stops)
  exact parse_broken broken

end Faults

/-- Content whose last elements are not closed: the nodes, the text, and the end tags that are
missing behind it. -/
inductive Unclosed (encoding : Encoding) : Siblings → CText → CText → Prop
  | here {w : CText} {nodes : Siblings} (written : Written encoding nodes w) :
      Unclosed encoding nodes w []
  | inside {w name t s missing : CText} {nodes kids : Siblings} {attributes : List Attribute}
      (before : Written encoding nodes w) (tag : StartTag encoding name attributes t)
      (within : Unclosed encoding kids s missing) :
      Unclosed encoding (nodes.append (.element name attributes kids .nil))
        (w ++ '<' :: (t ++ '>' :: s))
        (missing ++ endTag name)

inductive UnclosedDocument (encoding : Encoding) : Siblings → CText → CText → Prop
  | inside {w name t s missing : CText} {nodes kids : Siblings} {attributes : List Attribute}
      (before : WrittenDocument encoding nodes w)
        (tag : StartTag (encodingBehind encoding nodes) name attributes t)
      (within : Unclosed (encodingBehind encoding nodes) kids s missing) :
      UnclosedDocument encoding (nodes.append (.element name attributes kids .nil))
        (w ++ '<' :: (t ++ '>' :: s))
        (missing ++ endTag name)

section Closing
variable {encoding : Encoding} {nodes rest : Siblings} {w s missing : CText} {n : Nat}

theorem running_append (nodes : Siblings) (last : isRunningText nodes = false)
    (lead : isRunningText rest = false) :
    isRunningText (nodes.append rest) = false := by
  cases nodes with
  | nil => exact lead
  | element => rfl
  | leaf content next =>
    cases content with
    | text value cdata => cases cdata with
      | false => cases last
      | true => rfl
    | _ => rfl

theorem Written.append (before : Written encoding nodes w) (lead : isRunningText rest = false)
    (behind : Written encoding rest s) : Written encoding (nodes.append rest) (w ++ s) := by
  induction before with
  | nil white => exact behind.white_front white
  | empty white tag _ ih =>
    have step := Written.empty white tag ih
    simpa [Siblings.append] using step
  | element white tag inside _ _ ih =>
    have step := Written.element white tag inside ih
    simpa [Siblings.append] using step
  | single white leaf noEnd _ ih =>
    have step := Written.single white leaf noEnd ih
    simpa [Siblings.append] using step
  | text white spaced solid visible _ last ih =>
    have step := Written.text white spaced solid visible ih (running_append _ last lead)
    simpa [Siblings.append] using step

theorem WrittenDocument.append (before : WrittenDocument encoding nodes w)
    (behind : WrittenDocument (encodingBehind encoding nodes) rest s) :
    WrittenDocument encoding (nodes.append rest) (w ++ s) := by
  induction before with
  | nil white => exact behind.white_front white
  | empty white tag _ ih =>
    have step := WrittenDocument.empty white tag (ih behind)
    simpa [Siblings.append] using step
  | element white tag inside _ ih =>
    have step := WrittenDocument.element white tag inside (ih behind)
    simpa [Siblings.append] using step
  | single white leaf _ ih =>
    have step := WrittenDocument.single white leaf (ih behind)
    simpa [Siblings.append] using step

theorem endTag_plain {name : CText} (named : ValidName encoding name) :
    ∀ c ∈ endTag name, c ≠ '\x00' ∧ c ≠ '\r' := by
  have wide : ∀ c ∈ endTag name, 32 ≤ c.toNat := by
    unfold endTag
    intro c member
    simp only [List.cons_append, List.mem_cons, List.mem_append, List.not_mem_nil, or_false] at member
    rcases member with rfl | rfl | inside | rfl
    · decide
    · decide
    · exact part_wide (named.parts c inside)
    · decide
  exact fun c member => wide_raw c (wide c member)

theorem Unclosed.plain (unclosed : Unclosed encoding nodes w missing) :
    ∀ c ∈ missing, c ≠ '\x00' ∧ c ≠ '\r' := by
  induction unclosed with
  | here => exact List.forall_mem_nil _
  | inside before tag within ih => exact List.forall_mem_append.mpr ⟨ih, endTag_plain tag.named⟩

theorem UnclosedDocument.plain (unclosed : UnclosedDocument encoding nodes w missing) :
    ∀ c ∈ missing, c ≠ '\x00' ∧ c ≠ '\r' := by
  cases unclosed with
  | inside before tag within => exact List.forall_mem_append.mpr ⟨within.plain,
    endTag_plain tag.named⟩

theorem UnclosedDocument.lead (unclosed : UnclosedDocument encoding nodes w missing) :
    ∃ t, missing = '<' :: t := by
  have lead : ∀ {encoding : Encoding} {nodes : Siblings}
    {w missing : CText}, Unclosed encoding nodes w missing →
      ∀ name, ∃ u, missing ++ endTag name = '<' :: u := by
    intro encoding nodes w missing unclosed
    induction unclosed with
    | here => exact fun name => ⟨_, rfl⟩
    | inside before tag within ih =>
      intro name'
      obtain ⟨u, same⟩ := ih _
      exact ⟨u ++ endTag name', by rw [same]; rfl⟩
  cases unclosed with
  | inside before tag within => exact lead within _

theorem Unclosed.closed (unclosed : Unclosed encoding nodes w missing) :
    Written encoding nodes (w ++ missing) := by
  induction unclosed with
  | here written =>
    rw [List.append_nil]
    exact written
  | inside before tag within ih =>
    have step := before.append rfl (.element White.nil tag ih (.nil White.nil))
    simpa using step

theorem UnclosedDocument.closed (unclosed : UnclosedDocument encoding nodes w missing) :
    WrittenDocument encoding nodes (w ++ missing) := by
  cases unclosed with
  | inside before tag within =>
    have step := before.append (.element White.nil tag within.closed (.nil White.nil))
    simpa using step

theorem elementParse_unclosed {name t : CText} {attributes : List Attribute} {r : Parsed Siblings}
    (tag : StartTag encoding name attributes t) (content : CText → Call (Parsed Siblings))
    (read : content s = .ok r)
    (ends : r.p = none ∨ r.p = some []) : elementParse content encoding ('<' :: (t ++ '>' :: s)) =
      .ok ⟨.element name attributes r.value .nil, none, r.error.or (some .readingEndTag)⟩ := by
  have start := readTag_written tag (List.cons_ne_nil '>' s)
    (by exact (by decide : namePart '>' = false))
    (fun n b white => readAttributes_opened white attributes s)
  rw [elementParse, List.tail_cons, start]
  simp only [bind, Except.bind, read]
  rcases ends with none | empty
  · simp only [none]
    rfl
  · simp only [empty]
    rfl

theorem readValue_end {b : CText} (white : White b) (some_fuel : 0 < n) :
    readValue encoding n (some (b ++ [])) =
    .ok (if b = [] then ⟨.nil, none, some .readingElementValue⟩ else ⟨.nil, some [], none⟩) := by
  obtain ⟨n, rfl⟩ := Nat.exists_eq_succ_of_ne_zero some_fuel.ne'
  rw [List.append_nil]
  cases b with
  | nil => rfl
  | cons c b =>
    have skipped := (skipWhiteSpace_end white : skipWhiteSpace encoding (some (c :: b)) = none ∨ _)
    rw [readValue, skipped.resolve_left fun none => by cases none]
    rfl

theorem readValue_unclosed (unclosed : Unclosed encoding nodes w missing) :
    ∃ r : Parsed Siblings, r.value = nodes ∧ (r.p = none ∨ r.p = some []) ∧
      ∀ n, w.length < n → readValue encoding n (some w) = .ok r := by
  induction unclosed with
  | @here w nodes written =>
    obtain ⟨b, white, read⟩ := readValue_front written (.inl rfl) fun b n white some_fuel =>
      readValue_end white some_fuel
    rw [List.append_nil] at read
    split at read
    · exact ⟨⟨nodes, none, some .readingElementValue⟩, rfl, .inl rfl,
      fun n fuel => by rw [read n fuel, map_end]⟩
    · exact ⟨⟨nodes, some [], none⟩, rfl, .inr rfl, fun n fuel => by rw [read n fuel, map_end]⟩
  | @inside w name t s missing nodes kids attributes before tag within ih =>
    obtain ⟨r, rfl, ends, content⟩ := ih
    have later : ∀ b n, White b → s.length + 1 < n →
      readValue encoding n (some (b ++ '<' :: (t ++ '>' :: s))) =
        .ok ⟨.element name attributes r.value .nil, none, r.error.or (some .readingEndTag)⟩ := by
      intro b n white enough
      obtain ⟨n, rfl⟩ := Nat.exists_eq_succ_of_ne_zero (Nat.ne_zero_of_lt enough)
      have parsed := elementParse_unclosed tag (fun p => readValue encoding n (some p))
        (content n (by omega)) ends
      obtain ⟨n, rfl⟩ := Nat.exists_eq_succ_of_ne_zero (show n ≠ 0 by omega)
      rw [readValue, skip_plain white (by decide) (by decide)]
      simp only [if_true, tag.notEnd, Bool.false_eq_true, if_false, tag.identify, nodeParse, parsed,
        bind, Except.bind]
      cases r.error with
      | none => rfl
      | some error => rfl
    obtain ⟨b, white, read⟩ := readValue_front before (.inr rfl) later
    refine ⟨Parsed.behind nodes ⟨_, none, r.error.or (some .readingEndTag)⟩, rfl, .inl rfl,
      fun n fuel => ?_⟩
    simp only [List.length_append, List.length_cons] at fuel
    rw [read n (by omega)]
    rfl

theorem append_ne_nil (some_node : nodes ≠ .nil ∨ rest ≠ .nil) : nodes.append rest ≠ .nil := by
  intro empty
  cases nodes with
  | nil =>
    rcases some_node with nonempty | nonempty
    · exact nonempty rfl
    · exact nonempty empty
  | element => cases empty
  | leaf => cases empty

theorem UnclosedDocument.nonempty (unclosed : UnclosedDocument encoding nodes w missing) :
    nodes ≠ .nil := by
  cases unclosed with
  | inside => exact append_ne_nil (.inr fun none => by cases none)

/-- Where the end tags of elements are missing there is an error, and the nodes are those of the
text with the end tags. -/
theorem parse_unclosed {bom : Bool}
    (unclosed : UnclosedDocument (startEncoding bom) nodes w missing) :
    ∃ error, Document.parse (startMark bom ++ w) = .ok ⟨nodes, bom, some error⟩ := by
  cases unclosed with
  | @inside w name t s missing nodes kids attributes before tag within =>
    obtain ⟨r, rfl, ends, content⟩ := readValue_unclosed within
    obtain ⟨error, same⟩ : ∃ error, r.error.or (some Error.readingEndTag) = some error := by
      cases r.error with
      | none => exact ⟨_, rfl⟩
      | some error => exact ⟨error, rfl⟩
    have later : ∀ b n, White b → s.length + 1 < n →
      documentLoop n (encodingBehind (startEncoding bom) nodes)
        (skipWhiteSpace (encodingBehind (startEncoding bom) nodes)
          (some (b ++ '<' :: (t ++ '>' :: s)))) =
          .ok ⟨.element name attributes r.value .nil, none, some error⟩ := by
      intro b n white enough
      obtain ⟨n, rfl⟩ := Nat.exists_eq_succ_of_ne_zero (Nat.ne_zero_of_lt enough)
      have parsed := elementParse_unclosed tag (fun p => readValue _ n (some p))
        (content n (by omega)) ends
      obtain ⟨n, rfl⟩ := Nat.exists_eq_succ_of_ne_zero (show n ≠ 0 by omega)
      rw [skip_plain white (by decide) (by decide)]
      simp only [documentLoop, tag.identify, nodeParse, parsed, same, bind, Except.bind]
      rfl
    obtain ⟨b, white, read⟩ := documentLoop_front before later
    obtain ⟨n, fuel, parsed⟩ := parse_looped bom
      (List.append_ne_nil_of_right_ne_nil w (List.cons_ne_nil '<' (t ++ '>' :: s)))
      (before.head (lt_head _))
    simp only [List.length_append, List.length_cons] at fuel
    rw [read n (by omega)] at parsed
    refine ⟨error, parsed.trans ?_⟩
    show Except.ok (Parsed.document bom ⟨nodes.append (.element name attributes r.value .nil), none,
      some error⟩) = _
    rw [Parsed.document, if_neg (append_ne_nil (.inr fun none => by cases none))]

end Closing

/-- Where the document goes on with something that nothing is read behind: text outside of an
element, or an element with an attribute of a name it has. What is made of it stands in front. -/
inductive Lost (encoding : Encoding) : Siblings → CText → Prop
  | stray {s : CText} (solid : Solid encoding s) (other : s.head? ≠ some '<') : Lost encoding .nil s
  | twice {element name w b e f value word s : CText} {quote : Char} {attributes : List Attribute}
      (tag : StartTag encoding element attributes w) (white : White b) (apart : b ≠ [])
      (named : ValidName encoding name) (equals : White e ∧ White f)
        (quoted : quote = '"' ∨ quote = '\'')
      (spelled : Spelling encoding (· = quote) value word)
        (again : name ∈ attributes.map Attribute.name)
      (some_char : s ≠ []) :
      Lost encoding (.element element (setValue attributes name (CText.c_str value)) .nil .nil)
        ('<' :: (w ++ (b ++ (name ++ (e ++ '=' :: (f ++ quote :: (word ++ quote :: s)))))))

section Losing
variable {encoding : Encoding} {nodes lost : Siblings} {w s : CText} {n : Nat}

theorem identify_stray (solid : Solid encoding s) (other : s.head? ≠ some '<') :
    identify encoding s = none := by
  have same := skipWhiteSpace_solid White.nil solid
  rw [List.nil_append] at same
  rw [identify, same]
  cases s with
  | nil => rfl
  | cons c s =>
    split
    · rename_i here
      exact absurd (congrArg List.head? (Option.some.inj here)) other
    · rfl

theorem documentLoop_lost (losing : Lost encoding lost s) : ∃ p, ∀ b n, White b → 1 < n →
    documentLoop n encoding (skipWhiteSpace encoding (some (b ++ s))) = .ok ⟨lost, p, none⟩ := by
  cases losing with
  | stray solid other =>
    refine ⟨some s, fun b n white enough => ?_⟩
    obtain ⟨n, rfl⟩ := Nat.exists_eq_succ_of_ne_zero (Nat.ne_zero_of_lt enough)
    rw [skipWhiteSpace_solid white solid]
    cases s with
    | nil => cases solid
    | cons c s => simp only [documentLoop, identify_stray solid other]
  | @twice element name w b e f value word s quote attributes tag white apart named equals quoted
      spelled again some_char =>
    have read : readTag encoding (w ++
      (b ++ (name ++ (e ++ '=' :: (f ++ quote :: (word ++ quote :: s)))))) =
        .ok ⟨element, setValue attributes name (CText.c_str value), .fails, none⟩ := by
      apply readTag_written tag (List.append_ne_nil_of_left_ne_nil apart _) (white_ends white apart _)
      intro n c blank
      have parsed := attributeParse_written named equals quoted spelled s
      rw [← List.append_assoc, readAttributes_attribute (blank.append white) named
        (equals_ends equals.1 _) parsed
        some_char, if_pos]
      obtain ⟨a, member, same⟩ := List.mem_map.mp again
      exact List.any_eq_true.mpr ⟨a, member, decide_eq_true same⟩
    have parsed : ∀ content, elementParse content encoding
        ('<' :: (w ++ (b ++ (name ++ (e ++ '=' :: (f ++ quote :: (word ++ quote :: s))))))) =
          .ok ⟨.element element (setValue attributes name (CText.c_str value)) .nil .nil,
            none, none⟩ := by
      intro content
      rw [elementParse, List.tail_cons, read]
      rfl
    refine ⟨none, fun b n white enough => ?_⟩
    obtain ⟨n, rfl⟩ := Nat.exists_eq_succ_of_ne_zero (Nat.ne_zero_of_lt enough)
    obtain ⟨n, rfl⟩ := Nat.exists_eq_succ_of_ne_zero (show n ≠ 0 by omega)
    rw [skip_plain white (by decide) (by decide)]
    simp only [documentLoop, tag.identify, nodeParse, parsed, bind, Except.bind]
    rfl

theorem Lost.first (losing : Lost encoding lost s) : s ≠ [] := by
  rintro rfl
  cases losing with
  | stray solid => cases solid

theorem Lost.head {bom : Bool} (before : WrittenDocument (startEncoding bom) nodes w)
    (nonempty : nodes.append lost ≠ .nil)
    (losing : Lost (encodingBehind (startEncoding bom) nodes) lost s) :
    (w ++ s).head? ≠ some '\xef' := by
  cases losing with
  | stray solid other =>
    have some_node : nodes ≠ .nil := by rwa [Siblings.append_nil] at nonempty
    have head := before.head (s := []) (by decide)
    rw [List.append_nil] at head
    rwa [List.head?_append_of_ne_nil _ (before.ne_nil some_node)]
  | twice => exact before.head (by simp)

/-- Nothing is made of what stands behind, and there is no error unless there is no node at all. -/
theorem parse_lost {bom : Bool} (before : WrittenDocument (startEncoding bom) nodes w)
    (nonempty : nodes.append lost ≠ .nil)
    (losing : Lost (encodingBehind (startEncoding bom) nodes) lost s) :
    Document.parse (startMark bom ++ (w ++ s)) = .ok ⟨nodes.append lost, bom, none⟩ := by
  have some_char := losing.first
  obtain ⟨p, later⟩ := documentLoop_lost losing
  obtain ⟨b, white, read⟩ := documentLoop_front before later
  obtain ⟨n, fuel, parsed⟩ := parse_looped bom (List.append_ne_nil_of_right_ne_nil w some_char)
    (Lost.head before nonempty losing)
  have one_char := List.length_pos_iff.mpr some_char
  rw [List.length_append] at fuel
  rw [parsed, read n (by omega)]
  show Except.ok (Parsed.document bom ⟨nodes.append lost, p, none⟩) = _
  rw [Parsed.document, if_neg nonempty]

theorem parse_stray : Document.parse ['<', 'a', '/', '>', ' ', '&', '<', 'b', '/', '>'] =
    .ok ⟨.element ['a'] [] .nil .nil, false, none⟩ := by
  have before : WrittenDocument (startEncoding false) (.element ['a'] [] .nil .nil)
      ['<', 'a', '/', '>', ' '] :=
    .empty White.nil (bare_tag (by decide)) (.nil (List.all_eq_true.mp rfl))
  exact parse_lost before (fun none => by cases none)
    (.stray (solid_plain (by decide) (by decide)) (by decide))

end Losing

end DevAccess.TinyXml
