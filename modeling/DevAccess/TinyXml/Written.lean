import DevAccess.TinyXml.Texts

/-! Texts that a document is written as: tags and texts with white space between them, as it
may be. Whoever writes a document so is read. -/
namespace DevAccess.TinyXml
open Foundation Xml

/-- Attributes with their values between quotes. -/
inductive Attributes (encoding : Encoding) : List Attribute → CText → Prop
  | nil : Attributes encoding [] []
  | cons {b name e f value word rest : CText} {quote : Char} {others : List Attribute}
      (white : White b)
      (apart : b ≠ []) (named : ValidName encoding name) (equals : White e ∧ White f)
      (quoted : quote = '"' ∨ quote = '\'') (spelled : Spelling encoding (· = quote) value word)
      (later : Attributes encoding others rest) :
      Attributes encoding (⟨name, value⟩ :: others)
        (b ++ (name ++ (e ++ '=' :: (f ++ quote :: (word ++ quote :: rest)))))

/-- What stands in a start tag. -/
structure StartTag (encoding : Encoding) (name : CText) (attributes : List Attribute) (w : CText) :
    Prop where
  named : ValidName encoding name
  distinct : (attributes.map Attribute.name).Nodup
  written : ∃ a c, Attributes encoding attributes a ∧ White c ∧ w = name ++ (a ++ c)

/-- A node without children outside of running text. -/
inductive Single (encoding : Encoding) : Leaf → CText → Prop
  | comment {value : CText} (noEnd : ¬ commentEnd <:+: value) :
      Single encoding (.comment value) (commentHeader ++ (value ++ commentEnd))
  | cdata {value : CText} (noEnd : ¬ cdataEnd <:+: value) :
      Single encoding (.text value true) (cdataHeader ++ (value ++ cdataEnd))
  | unknown {value : CText} (noEnd : '>' ∉ value) (kind : kindOf ('<' :: value) = .unknown) :
      Single encoding (.unknown value) ('<' :: (value ++ ['>']))
  | declaration {attributes : List Attribute} {a c : CText} {d : Declared}
      (written : Attributes encoding attributes a) (white : White c)
      (fields : attributes.foldlM (fun (d : Declared) x =>
        if x.name ∈ [versionWord, encodingWord, standaloneWord] ∧
          '\x00' ∉ x.value then d.set x.name x.value
        else none) ⟨[], [], []⟩ = some d) :
      Single encoding d.leaf (xmlHeader ++ (a ++ (c ++ ['?', '>'])))

def isRunningText : Siblings → Bool
  | .leaf (.text _ false) _ => true
  | _ => false

/-- What stands in an element. -/
inductive Written (encoding : Encoding) : Siblings → CText → Prop
  | nil {b : CText} (white : White b) : Written encoding .nil b
  | empty {b name w s : CText} {attributes : List Attribute} {next : Siblings} (white : White b)
      (tag : StartTag encoding name attributes w) (rest : Written encoding next s) :
      Written encoding (.element name attributes .nil next) (b ++ '<' :: (w ++ '/' :: '>' :: s))
  | element {b name w inner s : CText} {attributes : List Attribute} {kids next : Siblings}
      (white : White b)
      (tag : StartTag encoding name attributes w) (inside : Written encoding kids inner)
      (rest : Written encoding next s) :
      Written encoding (.element name attributes kids next)
        (b ++ '<' :: (w ++ '>' :: (inner ++ (endTag name ++ s))))
  | single {b w s : CText} {content : Leaf} {next : Siblings} (white : White b)
      (leaf : Single encoding content w) (noEnd : ¬ ['<', '/'] <+: w)
        (rest : Written encoding next s) :
      Written encoding (.leaf content next) (b ++ (w ++ s))
  | text {b value w s : CText} {next : Siblings} (white : White b) (spaced : Spaced encoding value w)
      (solid : ∀ t, Solid encoding (w ++ t)) (visible : blank value = false)
        (rest : Written encoding next s)
      (last : isRunningText next = false) :
      Written encoding (.leaf (.text value false) next) (b ++ (w ++ s))

/-- A document. A declaration tells the encoding of what follows. -/
inductive WrittenDocument : Encoding → Siblings → CText → Prop
  | nil {encoding : Encoding} {b : CText} (white : White b) : WrittenDocument encoding .nil b
  | empty {encoding : Encoding} {b name w s : CText} {attributes : List Attribute} {next : Siblings}
      (white : White b) (tag : StartTag encoding name attributes w)
        (rest : WrittenDocument encoding next s) :
      WrittenDocument encoding (.element name attributes .nil next)
        (b ++ '<' :: (w ++ '/' :: '>' :: s))
  | element {encoding : Encoding} {b name w inner s : CText} {attributes : List Attribute}
      {kids next : Siblings} (white : White b) (tag : StartTag encoding name attributes w)
      (inside : Written encoding kids inner) (rest : WrittenDocument encoding next s) :
      WrittenDocument encoding (.element name attributes kids next)
        (b ++ '<' :: (w ++ '>' :: (inner ++ (endTag name ++ s))))
  | single {encoding : Encoding} {b w s : CText} {content : Leaf} {next : Siblings} (white : White b)
      (leaf : Single encoding content w)
      (rest : WrittenDocument (encodingAfter encoding (.leaf content .nil)) next s) :
      WrittenDocument encoding (.leaf content next) (b ++ (w ++ s))

section Tags
variable {encoding : Encoding} {b name value word rest s : CText} {quote : Char} {n : Nat}

theorem quote_char (quoted : quote = '"' ∨ quote = '\'') :
    quote ≠ '\xef' ∧ isWhiteSpace quote = false ∧ (quote = '\'' || quote = '"') = true := by
  rcases quoted with rfl | rfl
  all_goals decide

theorem readQuoted_spelling (spelled : Spelling encoding (· = quote) value word) (rest : CText) :
    readQuoted encoding quote (word ++ quote :: rest) = .ok (value, some rest) := by
  have read := readKept_spelling spelled (n := (word ++ quote :: rest).length) (by simp) rest
  rw [readQuoted, readText, if_neg (by decide), read]
  rfl

theorem equals_ends {e : CText} (white : White e) (s : CText) :
    (e ++ '=' :: s).head?.any namePart = false := by
  cases e with
  | nil => exact (by decide : namePart '=' = false)
  | cons c e => exact white_not_part (white_cons.mp white).1

theorem attributeParse_quoted {e f : CText} (named : ValidName encoding name)
    (equals : White e ∧ White f) (quoted : quote = '"' ∨ quote = '\'') (t : CText) :
    attributeParse encoding (name ++ (e ++ '=' :: (f ++ quote :: t))) = (do
      let (value, stop) ← readQuoted encoding quote t
      return ⟨⟨name, value⟩, stop, none⟩) := by
  obtain ⟨other, visible, isQuote⟩ := quote_char quoted
  have ends := equals_ends equals.1 (f ++ quote :: t)
  have start := skipWhiteSpace_solid White.nil (named.solid ends)
  rw [List.nil_append] at start
  rw [attributeParse, start]
  obtain ⟨c, tail, whole⟩ := List.exists_cons_of_ne_nil
    (List.append_ne_nil_of_left_ne_nil named.ne_nil
    (e ++ '=' :: (f ++ quote :: t)))
  have name_read := readName_append named ends
  rw [whole] at name_read ⊢
  simp only [name_read, skip_plain equals.1 (c := '=') (by decide) (by decide),
    skip_plain equals.2 other visible, isQuote, if_true]

theorem attributeParse_written {e f : CText} (named : ValidName encoding name)
    (equals : White e ∧ White f)
    (quoted : quote = '"' ∨ quote = '\'') (spelled : Spelling encoding (· = quote) value word)
    (rest : CText) :
    attributeParse encoding (name ++ (e ++ '=' :: (f ++ quote :: (word ++ quote :: rest)))) =
      .ok ⟨⟨name, value⟩, some rest, none⟩ := by
  rw [attributeParse_quoted named equals quoted, readQuoted_spelling spelled]
  rfl

theorem attributes_ends {attributes : List Attribute} {a : CText}
    (written : Attributes encoding attributes a)
    (ends : s.head?.any namePart = false) : (a ++ s).head?.any namePart = false := by
  cases written with
  | nil => exact ends
  | @cons b _ _ _ _ _ _ _ _ white apart =>
    obtain ⟨c, b, rfl⟩ := List.exists_cons_of_ne_nil apart
    exact white_not_part (white_cons.mp white).1

theorem readAttributes_name (white : White b) (named : ValidName encoding name)
    (ends : s.head?.any namePart = false) :
    ∃ c q, name ++ s = c :: q ∧ skipWhiteSpace encoding (some (b ++ (name ++ s))) = some
        (c :: q) ∧ c ≠ '/' ∧ c ≠ '>' := by
  have skipped := skipWhiteSpace_solid white (named.solid ends)
  obtain ⟨c, rest, rfl⟩ := List.exists_cons_of_ne_nil named.ne_nil
  have first : nameStart c = true := named.start
  refine ⟨c, rest ++ s, rfl, skipped, ?_, ?_⟩
  · rintro rfl
    cases first
  · rintro rfl
    cases first

theorem readAttributes_attribute {l : List Attribute} {a : Attribute} {rest : CText} (white : White b)
    (named : ValidName encoding name) (ends : s.head?.any namePart = false)
    (parsed : attributeParse encoding (name ++ s) = .ok ⟨a, some rest, none⟩) (nonempty : rest ≠ []) :
    readAttributes encoding value (n + 1) l (b ++ (name ++ s)) =
      if l.any (·.name = a.name) then
        .ok ⟨value, setValue l a.name (CText.c_str a.value), .fails, none⟩
      else readAttributes encoding value n (l ++ [a]) rest := by
  obtain ⟨c, q, whole, skipped, slash, close⟩ := readAttributes_name white named ends
  obtain ⟨d, more, rfl⟩ := List.exists_cons_of_ne_nil nonempty
  rw [whole] at parsed
  rw [readAttributes, skipped]
  simp only [if_neg slash, if_neg close, parsed, bind, Except.bind]
  rfl

theorem readAttributes_written {before attributes : List Attribute} {a tail : CText} {x : Call Tag}
    (written : Attributes encoding attributes a)
    (distinct : ((before ++ attributes).map Attribute.name).Nodup) (nonempty : tail ≠ [])
    (ends : ∀ n, readAttributes encoding value (n + 1) (before ++ attributes) tail = x)
    (fuel : a.length < n) :
    readAttributes encoding value n before (a ++ tail) = x := by
  induction written generalizing n before with
  | nil =>
    obtain ⟨n, rfl⟩ := Nat.exists_eq_succ_of_ne_zero (Nat.ne_zero_of_lt fuel)
    rw [List.append_nil] at ends
    exact ends n
  | @cons b name e f v word rest quote others white apart named equals quoted spelled later ih =>
    obtain ⟨n, rfl⟩ := Nat.exists_eq_succ_of_ne_zero (Nat.ne_zero_of_lt fuel)
    have fresh : ¬ before.any (fun x => decide (x.name = name)) = true := by
      rw [List.map_append, List.nodup_append] at distinct
      rw [List.any_eq_true]
      rintro ⟨x, member, same⟩
      exact distinct.2.2 x.name (List.mem_map_of_mem member) name List.mem_cons_self
        (of_decide_eq_true same)
    have parts : b ++ (name ++ (e ++ '=' :: (f ++ quote :: (word ++ quote :: rest)))) ++ tail =
        b ++ (name ++ (e ++ '=' :: (f ++ quote :: (word ++ quote :: (rest ++ tail))))) := by simp
    have parsed := attributeParse_written named equals quoted spelled (rest ++ tail)
    rw [parts, readAttributes_attribute white named (equals_ends equals.1 _) parsed
      (List.append_ne_nil_of_right_ne_nil rest nonempty), if_neg fresh]
    apply ih
    · simpa using distinct
    · simpa using ends
    · simp only [List.length_append, List.length_cons] at fuel
      omega

theorem readTag_written {attributes : List Attribute} {w tail : CText} {x : Call Tag}
    (tag : StartTag encoding name attributes w) (nonempty : tail ≠ [])
    (tailEnds : tail.head?.any namePart = false)
    (ends : ∀ n b, White b → readAttributes encoding name (n + 1) attributes (b ++ tail) = x) :
    readTag encoding (w ++ tail) = x := by
  obtain ⟨named, distinct, a, c, written, white, rfl⟩ := tag
  have blankEnds : (c ++ tail).head?.any namePart = false := by
    cases c with
    | nil => exact tailEnds
    | cons d c => exact white_not_part (white_cons.mp white).1
  have behind := attributes_ends written blankEnds
  have start := skipWhiteSpace_solid White.nil (named.solid behind)
  have name_read := readName_append named behind
  have nonempty' : c ++ tail ≠ [] := List.append_ne_nil_of_right_ne_nil c nonempty
  have fuel : a.length < (a ++ (c ++ tail)).length + 1 := by
    rw [List.length_append]
    omega
  have apart : (([] ++ attributes).map Attribute.name).Nodup := distinct
  have read := readAttributes_written written apart nonempty' (fun n => ends n c white) fuel
  obtain ⟨d, more, whole⟩ := List.exists_cons_of_ne_nil
    (List.append_ne_nil_of_right_ne_nil a nonempty')
  have parts : name ++ (a ++ c) ++ tail = name ++ (a ++ (c ++ tail)) := by simp
  rw [List.nil_append] at start
  rw [parts, readTag, start]
  rw [whole] at read name_read ⊢
  simp only [name_read, read]

theorem readAttributes_opened (white : White b) (l : List Attribute) (rest : CText) :
    readAttributes encoding name (n + 1) l
        (b ++ '>' :: rest) = .ok ⟨name, l, .opened rest, none⟩ := by
  rw [readAttributes, skip_plain white (by decide) (by decide)]
  rfl

theorem readAttributes_empty (white : White b) (l : List Attribute) (rest : CText) :
    readAttributes encoding name (n + 1) l
        (b ++ '/' :: '>' :: rest) = .ok ⟨name, l, .empty rest, none⟩ := by
  rw [readAttributes, skip_plain white (by decide) (by decide)]
  rfl

end Tags

section Kinds
variable {c : Char} {s t tag : CText}

theorem toLower_other {d : Char} (other : c ≠ d) (low : d.toNat < 97) : c.toLower ≠ d := by
  unfold Char.toLower
  split
  · rename_i upper
    intro same
    have bounds : 65 ≤ c.val.toNat ∧ c.val.toNat ≤ 90 := upper
    have far : ('a'.val - 'A'.val).toNat = 32 := by decide
    have sum : (c.val + ('a'.val - 'A'.val)).toNat = c.val.toNat + 32 := by
      rw [UInt32.toNat_add, far, Nat.mod_eq_of_lt (by omega)]
    have value : d.toNat = c.val.toNat + 32 := by
      rw [← same]
      exact sum
    omega
  · exact other

theorem nameStart_ne {d : Char} (start : nameStart c = true) (other : nameStart d = false) :
    c ≠ d := by
  rintro rfl
  rw [start] at other
  cases other

theorem stringEqual_exact (nonempty : s ≠ []) : stringEqual s tag false = true ↔ tag <+: s := by
  simp [stringEqual, nonempty]

theorem stringEqual_lower (nonempty : s ≠ []) :
    stringEqual s tag true = true ↔ tag.map Char.toLower <+: s.map Char.toLower := by
  simp [stringEqual, nonempty]

theorem second_char {d : Char} (other : c ≠ d) (s t : CText) :
    stringEqual ('<' :: c :: s) ('<' :: d :: t) false = false := by
  rw [Bool.eq_false_iff, ne_eq, stringEqual_exact (List.cons_ne_nil _ _), List.cons_prefix_cons,
    List.cons_prefix_cons]
  exact fun same => other same.2.1.symm

theorem second_lower {d : Char} (other : c.toLower ≠ d.toLower) (s t : CText) :
    stringEqual ('<' :: c :: s) ('<' :: d :: t) true = false := by
  rw [Bool.eq_false_iff, ne_eq, stringEqual_lower (List.cons_ne_nil _ _)]
  simp only [List.map_cons, List.cons_prefix_cons]
  exact fun same => other same.2.1.symm

theorem kindOf_element (start : nameStart c = true) (s : CText) :
    kindOf ('<' :: c :: s) = .element := by
  have mark : c ≠ '!' := nameStart_ne start (by decide)
  have question : c.toLower ≠ '?'.toLower :=
    toLower_other (nameStart_ne start (by decide)) (by decide)
  have named : ('<' :: c :: s).tail.head?.any nameStart = true := start
  unfold kindOf xmlHeader commentHeader cdataHeader
  rw [second_lower question, second_char mark, second_char mark, second_char mark, if_neg (by decide),
    if_neg (by decide), if_neg (by decide), if_neg (by decide), if_pos named]

theorem upTo_tag {x y : Char} (apart : x ≠ y) (noEnd : ¬ [x, x, y] <:+: s) (t : CText) :
    upTo [x, x, y] (s ++ ([x, x, y] ++ t)) = (s, [x, x, y] ++ t) := by
  induction s with
  | nil =>
    have here : stringEqual (x :: x :: y :: t) [x, x, y] false = true :=
      (stringEqual_exact (List.cons_ne_nil _ _)).mpr ⟨t, rfl⟩
    exact if_pos here
  | cons c s ih =>
    rw [List.infix_cons_iff, not_or] at noEnd
    have later : ¬ stringEqual (c :: (s ++ ([x, x, y] ++ t))) [x, x, y] false = true := by
      rw [stringEqual_exact (List.cons_ne_nil _ _)]
      intro here
      -- an end that starts here would lie in the text, or put y at the place of x
      match s with
      | [] => simp [apart.symm] at here
      | [d] => simp [apart.symm] at here
      | d :: e :: s =>
        apply noEnd.1
        simp only [List.cons_append, List.cons_prefix_cons] at here ⊢
        exact ⟨here.1, here.2.1, here.2.2.1, List.nil_prefix⟩
    rw [List.cons_append, upTo, if_neg later, ih noEnd.2]

theorem identify_lt (encoding : Encoding) (s : CText) :
    identify encoding ('<' :: s) = some (kindOf ('<' :: s)) := by
  have start : skipWhiteSpace encoding (some ('<' :: s)) = some ('<' :: s) :=
    skip_plain White.nil (by decide) (by decide) s
  rw [identify, start]
  rfl

theorem prefix_until {d : Char} (plain : d ∉ tag) : tag <+: s ++ d :: t ↔ tag <+: s := by
  constructor
  · intro starts
    rcases Nat.lt_or_ge s.length tag.length with longer | inside
    · have reaches : s ++ [d] <+: tag := by
        apply List.prefix_of_prefix_length_le _ starts
        · rw [List.length_append, List.length_singleton]
          exact longer
        · exact ⟨t, by simp⟩
      exact absurd (reaches.subset (by simp)) plain
    · exact List.prefix_of_prefix_length_le starts ⟨d :: t, rfl⟩ inside
  · exact fun starts => starts.trans ⟨d :: t, rfl⟩

theorem kindOf_until (s t : CText) : kindOf ('<' :: (s ++ '>' :: t)) = kindOf ('<' :: s) := by
  have exact_same : ∀ tag, '>' ∉ tag → stringEqual ('<' :: (s ++ '>' :: t)) tag false =
      stringEqual ('<' :: s) tag false := by
    intro tag plain
    rw [Bool.eq_iff_iff, stringEqual_exact (List.cons_ne_nil _ _),
      stringEqual_exact (List.cons_ne_nil _ _)]
    exact prefix_until (s := '<' :: s) plain
  have lower_same : stringEqual ('<' :: (s ++ '>' :: t)) xmlHeader true =
      stringEqual ('<' :: s) xmlHeader true := by
    rw [Bool.eq_iff_iff, stringEqual_lower (List.cons_ne_nil _ _),
      stringEqual_lower (List.cons_ne_nil _ _)]
    have parts : ('<' :: (s ++ '>' :: t)).map Char.toLower =
        ('<' :: s).map Char.toLower ++ '>' :: t.map Char.toLower := by
      simp only [List.map_cons, List.map_append, List.cons_append]
      rfl
    rw [parts]
    exact prefix_until (by decide)
  have start_same : (s ++ '>' :: t).head?.any nameStart = s.head?.any nameStart := by
    cases s with
    | nil => exact (by decide : nameStart '>' = false)
    | cons c s => rfl
  unfold kindOf
  simp only [List.tail_cons, exact_same commentHeader (by decide), exact_same cdataHeader (by decide),
    exact_same ['<', '!'] (by decide), lower_same, start_same]
  rfl

end Kinds

section Declarations
variable {encoding : Encoding} {s t : CText} {c : Char} {d d' : Declared} {n : Nat}

theorem first_lower {e : Char} (other : c.toLower ≠ e.toLower) (s t : CText) :
    stringEqual (c :: s) (e :: t) true = false := by
  rw [Bool.eq_false_iff, ne_eq, stringEqual_lower (List.cons_ne_nil _ _)]
  simp only [List.map_cons, List.cons_prefix_cons]
  exact fun same => other same.1.symm

theorem stringEqual_self (nonempty : s ≠ []) (t : CText) : stringEqual (s ++ t) s true = true := by
  rw [stringEqual_lower (List.append_ne_nil_of_left_ne_nil nonempty t), List.map_append]
  exact List.prefix_append _ _

theorem set_word (word : s ∈ [versionWord, encodingWord, standaloneWord]) (t value : CText) :
    (d.set (s ++ t) value).isSome = true ∧ d.set (s ++ t) value = d.set s value := by
  have whole : stringEqual s s true = true := by
    have same := stringEqual_self (s := s) (by
      rintro rfl
      exact absurd word (by decide)) []
    rwa [List.append_nil] at same
  simp only [List.mem_cons, List.not_mem_nil, or_false] at word
  rcases word with rfl | rfl | rfl
  · simp only [Declared.set, stringEqual_self (s := versionWord) (by decide), whole, if_true]
    exact ⟨rfl, trivial⟩
  · have other : ∀ t, stringEqual (encodingWord ++ t) versionWord true = false :=
    fun t => first_lower (by decide) _ _
    have other' : stringEqual encodingWord versionWord true = false := first_lower (by decide) _ _
    simp only [Declared.set, other, other', stringEqual_self (s := encodingWord) (by decide), whole,
      if_true, Bool.false_eq_true, if_false]
    exact ⟨rfl, trivial⟩
  · have other : ∀ t, stringEqual (standaloneWord ++ t) versionWord true = false :=
    fun t => first_lower (by decide) _ _
    have other' : stringEqual standaloneWord versionWord true = false := first_lower (by decide) _ _
    have next : ∀ t, stringEqual (standaloneWord ++ t) encodingWord true = false :=
      fun t => first_lower (by decide) _ _
    have next' : stringEqual standaloneWord encodingWord true = false := first_lower (by decide) _ _
    simp only [Declared.set, other, other', next, next',
      stringEqual_self (s := standaloneWord) (by decide), whole,
      if_true, Bool.false_eq_true, if_false]
    exact ⟨rfl, trivial⟩

theorem set_question (t value : CText) : d.set ('?' :: t) value = none := by
  have other : stringEqual ('?' :: t) versionWord true = false := first_lower (by decide) _ _
  have next : stringEqual ('?' :: t) encodingWord true = false := first_lower (by decide) _ _
  have last : stringEqual ('?' :: t) standaloneWord true = false := first_lower (by decide) _ _
  rw [Declared.set, other, next, last]
  rfl

theorem readDeclaration_end {b : CText} (white : White b) (t : CText) :
    readDeclaration encoding (n + 2) d (b ++ '?' :: '>' :: t) = .ok (d, some t) := by
  have skipped : skipBlanks encoding 0 (b ++ '?' :: '>' :: t) = '?' :: '>' :: t :=
    (skipBlanks_white white _).trans (skipBlanks_solid (solid_plain (by decide) (by decide)))
  have step : readDeclaration encoding (n + 2) d (b ++ '?' :: '>' :: t) =
      readDeclaration encoding (n + 1) d ('>' :: t) := by
    cases b with
    | nil =>
      rw [List.nil_append] at skipped ⊢
      rw [readDeclaration, if_neg (by decide), skipped]
      simp only [set_question]
      rfl
    | cons c b =>
      have close : c ≠ '>' := by
        rintro rfl
        exact absurd (white_cons.mp white).1 (by decide)
      rw [List.cons_append] at skipped ⊢
      rw [readDeclaration, if_neg close, skipped]
      simp only [set_question]
      rfl
  rw [step, readDeclaration, if_pos rfl]

theorem readDeclaration_written {attributes : List Attribute} {a b : CText}
    (written : Attributes encoding attributes a) (white : White b)
    (fields : attributes.foldlM (fun (d : Declared) x =>
      if x.name ∈ [versionWord, encodingWord, standaloneWord] ∧
        '\x00' ∉ x.value then d.set x.name x.value
      else none) d = some d') (fuel : a.length + 2 ≤ n) (t : CText) :
    readDeclaration encoding n d (a ++ (b ++ '?' :: '>' :: t)) = .ok (d', some t) := by
  induction written generalizing n d with
  | nil =>
    obtain ⟨n, rfl⟩ := Nat.exists_eq_add_of_le' fuel
    obtain rfl : d = d' := Option.some.inj fields
    exact readDeclaration_end white t
  | @cons b' name e f v word rest quote others white' apart named equals quoted spelled later ih =>
    obtain ⟨n, rfl⟩ : ∃ m, n = m + 1 := Nat.exists_eq_succ_of_ne_zero (by omega)
    rw [List.foldlM_cons] at fields
    split at fields
    · rename_i known
      cases next : d.set name v with
      | none => rw [next] at fields; cases fields
      | some d₁ =>
        rw [next, Option.bind_eq_bind, Option.bind_some] at fields
        obtain ⟨c, b', rfl⟩ := List.exists_cons_of_ne_nil apart
        have close : c ≠ '>' := by
          rintro rfl
          exact absurd (white_cons.mp white').1 (by decide)
        have parts : c :: b' ++ (name ++ (e ++ '=' :: (f ++ quote :: (word ++ quote :: rest)))) ++
            (b ++ '?' :: '>' :: t) = c :: b' ++ (name ++ (e ++ '=' :: (f ++ quote :: (word ++ quote ::
              (rest ++ (b ++ '?' :: '>' :: t)))))) := by simp
        have ends : (e ++ '=' :: (f ++
          quote :: (word ++ quote :: (rest ++ (b ++ '?' :: '>' :: t))))).head?.any
            namePart = false := by
          cases e with
          | nil => exact (by decide : namePart '=' = false)
          | cons c e => exact white_not_part (white_cons.mp equals.1).1
        have skipped := (skipBlanks_white white' _).trans (skipBlanks_solid (named.solid ends))
        have parsed := attributeParse_written named equals quoted spelled
          (rest ++ (b ++ '?' :: '>' :: t))
        have shown := fun value => (set_word (d := d) known.1
          (e ++ '=' :: (f ++ quote :: (word ++ quote :: (rest ++ (b ++ '?' :: '>' :: t))))) value)
        obtain ⟨d₀, start⟩ := Option.isSome_iff_exists.mp (shown []).1
        rw [parts, List.cons_append, readDeclaration, if_neg close, ← List.cons_append, skipped]
        simp only [start, parsed, bind, Except.bind, CText.c_str_whole known.2, (shown v).2, next,
          Option.getD_some]
        apply ih fields
        simp only [List.length_append, List.length_cons] at fuel
        omega
    · cases fields

end Declarations

section Singles
variable {encoding : Encoding} {content : Leaf} {w : CText}

theorem pastTag_append (tag s : CText) (nonempty : tag ≠ []) : pastTag tag (tag ++ s) = .ok s := by
  cases tag with
  | nil => exact absurd rfl nonempty
  | cons c tag =>
    show Except.ok ((c :: tag ++ s).drop (c :: tag).length) = _
    rw [List.drop_left]

theorem single_read (single : Single encoding content w) (children : CText → Call (Parsed Siblings))
    (t : CText) :
    ∃ kind, identify encoding (w ++ t) = some kind ∧
      nodeParse children encoding kind (w ++ t) = .ok ⟨.leaf content .nil, some t, none⟩ := by
  cases single with
  | @comment value noEnd =>
    have behind : (commentHeader ++ (value ++ commentEnd) ++ t).drop commentHeader.length =
        value ++ (commentEnd ++ t) := by
      rw [List.append_assoc, List.drop_left, List.append_assoc]
    have found : upTo commentEnd (value ++ (commentEnd ++ t)) = (value, commentEnd ++ t) :=
      upTo_tag (by decide) noEnd t
    refine ⟨.comment, identify_lt encoding _, ?_⟩
    rw [nodeParse, commentParse, behind, found]
    simp only [pastTag_append commentEnd t (by decide)]
    rfl
  | @cdata value noEnd =>
    have behind : (cdataHeader ++ (value ++ cdataEnd) ++ t).drop cdataHeader.length =
        value ++ (cdataEnd ++ t) := by
      rw [List.append_assoc, List.drop_left, List.append_assoc]
    have found : upTo cdataEnd (value ++ (cdataEnd ++ t)) = (value, cdataEnd ++ t) :=
      upTo_tag (by decide) noEnd t
    refine ⟨.cdata, identify_lt encoding _, ?_⟩
    rw [nodeParse, cdataParse, behind, found]
    simp only [pastTag_append cdataEnd t (by decide)]
    rfl
  | @unknown value noEnd kind =>
    have whole : '<' :: (value ++ ['>']) ++ t = '<' :: (value ++ '>' :: t) := by simp
    have before : ∀ c ∈ value, decide (c ≠ '>') = true := fun c member =>
      decide_eq_true fun close => noEnd (close ▸ member)
    have taken : (value ++ '>' :: t).takeWhile (· ≠ '>') = value := by
      rw [List.takeWhile_append_of_pos before]
      simp
    refine ⟨.unknown, ?_, ?_⟩
    · rw [whole, identify_lt, kindOf_until, kind]
    · rw [whole, nodeParse, unknownParse, List.tail_cons, taken]
      have dropped : (value ++ '>' :: t).drop (value.length + 1) = t := by
        rw [← List.drop_drop, List.drop_left, List.drop_succ_cons, List.drop_zero]
      rw [dropped]
  | @declaration attributes a c d written white fields =>
    have whole : xmlHeader ++ (a ++ (c ++ ['?', '>'])) ++ t = xmlHeader ++
      (a ++ (c ++ '?' :: '>' :: t)) := by simp
    have fuel : a.length + 2 ≤ (xmlHeader ++ (a ++ (c ++ '?' :: '>' :: t))).length := by
      simp only [List.length_append, List.length_cons]
      omega
    refine ⟨.declaration, identify_lt encoding _, ?_⟩
    rw [whole, nodeParse, declarationParse, List.drop_left,
      readDeclaration_written written white fields fuel]
    rfl

end Singles

def Parsed.behind (front : Siblings) (r : Parsed Siblings) : Parsed Siblings :=
  ⟨front.append r.value, r.p, r.error⟩

theorem Siblings.append_nil (f : Siblings) : f.append .nil = f := by
  induction f with
  | nil => rfl
  | element name attributes firstChild next first_ih ih => rw [append, ih]
  | leaf content next ih => rw [append, ih]

theorem Siblings.append_append (f g h : Siblings) :
    f.append (g.append h) = (f.append g).append h := by
  induction f with
  | nil => rfl
  | element name attributes firstChild next first_ih ih => rw [append, append, append, ih]
  | leaf content next ih => rw [append, append, append, ih]

theorem Parsed.behind_append (r : Parsed Siblings) (node kids : Siblings) :
    (r.behind kids).behind node = r.behind (node.append kids) := by
  simp only [Parsed.behind, Siblings.append_append]

theorem map_end (nodes : Siblings) (p : Option CText) (e : Option Error) :
    (.ok ⟨.nil, p, e⟩ : Call (Parsed Siblings)).map (Parsed.behind nodes) = .ok ⟨nodes, p, e⟩ := by
  show Except.ok (Parsed.behind nodes ⟨.nil, p, e⟩) = _
  rw [Parsed.behind, nodes.append_nil]

section Contents
variable {encoding : Encoding} {name w s : CText} {attributes : List Attribute}
    {kids nodes : Siblings} {n : Nat}
  {x : Call (Parsed Siblings)}

theorem endTag_ne_nil (name : CText) : endTag name ≠ [] := List.cons_ne_nil _ _

theorem StartTag.first (tag : StartTag encoding name attributes w) :
    ∃ c rest, w = c :: rest ∧ nameStart c = true := by
  obtain ⟨named, -, a, c, -, -, rfl⟩ := tag
  obtain ⟨d, rest, rfl⟩ := List.exists_cons_of_ne_nil named.ne_nil
  exact ⟨d, rest ++ (a ++ c), rfl, named.start⟩

theorem StartTag.identify (tag : StartTag encoding name attributes w) (t : CText) :
    TinyXml.identify encoding ('<' :: (w ++ t)) = some .element := by
  obtain ⟨c, rest, rfl, start⟩ := tag.first
  rw [identify_lt, List.cons_append, kindOf_element start]

theorem elementParse_empty (tag : StartTag encoding name attributes w)
    (children : CText → Call (Parsed Siblings)) (t : CText) :
    elementParse children encoding ('<' :: (w ++ '/' :: '>' :: t)) =
      .ok ⟨.element name attributes .nil .nil, some t, none⟩ := by
  have read := readTag_written tag (List.cons_ne_nil '/' ('>' :: t))
    (by exact (by decide : namePart '/' = false))
    (fun n b white => readAttributes_empty white attributes t)
  rw [elementParse, List.tail_cons, read]
  rfl

theorem elementParse_element (tag : StartTag encoding name attributes w)
    (children : CText → Call (Parsed Siblings)) (t : CText)
    (inside : children (s ++ (endTag name ++ t)) = .ok ⟨kids, some (endTag name ++ t), none⟩) :
    elementParse children encoding ('<' :: (w ++ '>' :: (s ++ (endTag name ++ t)))) =
      .ok ⟨.element name attributes kids .nil, some t, none⟩ := by
  have read := readTag_written tag (List.cons_ne_nil '>' (s ++ (endTag name ++ t)))
    (by exact (by decide : namePart '>' = false))
    (fun n b white => readAttributes_opened white attributes (s ++ (endTag name ++ t)))
  have closes : stringEqual (endTag name ++ t) (endTag name) false = true :=
    (stringEqual_exact (List.append_ne_nil_of_left_ne_nil (endTag_ne_nil name) t)).mpr
      (List.prefix_append _ _)
  rw [elementParse, List.tail_cons, read]
  simp only [bind, Except.bind, inside]
  show (if _ then _ else _) = _
  rw [if_pos closes, List.drop_left]
  rfl

theorem readValue_node {kind : Kind} {node : Siblings} {b t : CText} (white : White b)
    (notEnd : stringEqual ('<' :: w) ['<', '/'] false = false)
    (known : identify encoding ('<' :: w) = some kind)
    (parsed : nodeParse (fun p => readValue encoding n (some p)) encoding kind ('<' :: w) =
      .ok ⟨node, some t, none⟩)
    (later : readValue encoding n (some t) = x.map (Parsed.behind kids)) :
    readValue encoding (n + 1) (some (b ++ '<' :: w)) = x.map (Parsed.behind (node.append kids)) := by
  rw [readValue, skip_plain white (by decide) (by decide)]
  simp only [if_true, notEnd, Bool.false_eq_true, if_false, known, parsed, bind, Except.bind, later]
  cases x with
  | ok r => exact congrArg Except.ok (r.behind_append node kids)
  | error e => rfl

theorem StartTag.notEnd (tag : StartTag encoding name attributes w) (t : CText) :
    stringEqual ('<' :: (w ++ t)) ['<', '/'] false = false := by
  obtain ⟨c, rest, rfl, start⟩ := tag.first
  exact second_char (nameStart_ne start (by decide)) (rest ++ t) []

theorem Single.first {content : Leaf} (single : Single encoding content w) :
    ∃ c rest, w = '<' :: c :: rest := by
  cases single with
  | comment => exact ⟨_, _, rfl⟩
  | cdata => exact ⟨_, _, rfl⟩
  | @unknown value =>
    cases value with
    | nil => exact ⟨_, _, rfl⟩
    | cons => exact ⟨_, _, rfl⟩
  | declaration => exact ⟨_, _, rfl⟩

theorem readValue_white {b : CText} (white : White b) (t : CText) :
    readValue encoding n (some (b ++ '<' :: t)) = readValue encoding n (some ('<' :: t)) := by
  have same : skipWhiteSpace encoding (some ('<' :: t)) = some ('<' :: t) :=
    skip_plain White.nil (by decide) (by decide) t
  cases n with
  | zero => rfl
  | succ n => rw [readValue, readValue, skip_plain white (by decide) (by decide), same]

theorem Written.lead (written : Written encoding nodes w) (last : isRunningText nodes = false) :
    nodes = .nil ∧ White w ∨ ∃ b more, White b ∧ w = b ++ '<' :: more := by
  cases written with
  | nil white => exact .inl ⟨rfl, white⟩
  | @empty b => exact .inr ⟨b, _, ‹White b›, rfl⟩
  | @element b => exact .inr ⟨b, _, ‹White b›, rfl⟩
  | @single b w s content next white leaf =>
    obtain ⟨c, rest, rfl⟩ := leaf.first
    exact .inr ⟨b, _, white, rfl⟩
  | text => cases last

theorem Spaced.first {value : CText} (spaced : Spaced encoding value w) (solid : Solid encoding w) :
    w.head? ≠ some '<' := by
  cases spaced with
  | nil => cases solid
  | @word value word values words spells =>
    obtain ⟨c, word, rfl⟩ := List.exists_cons_of_ne_nil spells.nonempty
    intro same
    exact spells.first c rfl (.inl (Option.some.inj same))
  | @space b value word values words white apart =>
    obtain ⟨c, b, rfl⟩ := List.exists_cons_of_ne_nil apart
    intro same
    exact white_other (white_cons.mp white).1 (Option.some.inj same)

theorem textParse_spaced {value b t : CText} (spaced : Spaced encoding value w)
    (solid : ∀ t, Solid encoding (w ++ t)) (white : White b) (stops : Stops t) :
    textParse encoding (w ++ (b ++ t)) = .ok (value, some t) := by
  have start := skipWhiteSpace_solid White.nil (solid (b ++ t))
  rw [List.nil_append] at start
  rw [textParse, readText, if_pos rfl, start]
  apply readCondensed_spaced spaced white stops
  rw [List.length_append, List.length_append, Nat.add_assoc]

theorem readValue_close {b : CText} (white : White b) (t : CText) (n : Nat) (some_fuel : 0 < n) :
    readValue encoding n (some (b ++ '<' :: '/' :: t)) =
        .ok ⟨.nil, some ('<' :: '/' :: t), none⟩ := by
  obtain ⟨n, rfl⟩ := Nat.exists_eq_succ_of_ne_zero some_fuel.ne'
  rw [readValue, skip_plain white (by decide) (by decide)]
  rfl

theorem readValue_text {value b c t : CText} (white : White b) (spaced : Spaced encoding value w)
    (solid : ∀ t, Solid encoding (w ++ t)) (visible : blank value = false) (white' : White c)
    (stops : Stops t) (later : readValue encoding n (some t) = x.map (Parsed.behind kids)) :
    readValue encoding (n + 1) (some (b ++ (w ++ (c ++ t)))) =
      x.map (Parsed.behind (.leaf (.text value false) kids)) := by
  have nonempty : w ≠ [] := by
    rintro rfl
    exact solid []
  have start := skipWhiteSpace_solid white (solid (c ++ t))
  have noTag : (w ++ (c ++ t)).head? ≠ some '<' := by
    have solid' := solid []
    rw [List.append_nil] at solid'
    rw [List.head?_append_of_ne_nil _ nonempty]
    exact spaced.first solid'
  have parsed := textParse_spaced spaced solid white' stops
  obtain ⟨d, tail, whole⟩ := List.exists_cons_of_ne_nil
    (List.append_ne_nil_of_left_ne_nil nonempty (c ++ t))
  have other : d ≠ '<' := by
    rintro rfl
    rw [whole] at noTag
    exact noTag rfl
  rw [readValue, start]
  rw [whole] at parsed ⊢
  simp only [if_neg other, parsed, bind, Except.bind, later, visible, Bool.false_eq_true, if_false]
  cases x with
  | ok r => rfl
  | error e => rfl

theorem readValue_front {y : CText → Call (Parsed Siblings)} {m : Nat} {t : CText}
    (written : Written encoding nodes w)
    (stops : Stops t) (later : ∀ b n, White b → m < n → readValue encoding n (some (b ++ t)) = y b) :
    ∃ b, White b ∧ ∀ n, w.length + m < n →
      readValue encoding n (some (w ++ t)) = (y b).map (Parsed.behind nodes) := by
  induction written generalizing m t y with
  | @nil b white =>
    refine ⟨b, white, fun n fuel => ?_⟩
    rw [later b n white (by omega)]
    cases y b with
    | ok r => rfl
    | error e => rfl
  | @empty b name w s attributes next white tag rest ih =>
    obtain ⟨c, white', rest_read⟩ := ih stops later
    refine ⟨c, white', fun n fuel => ?_⟩
    obtain ⟨n, rfl⟩ := Nat.exists_eq_succ_of_ne_zero (Nat.ne_zero_of_lt fuel)
    simp only [List.length_append, List.length_cons] at fuel
    rw [show b ++ '<' :: (w ++ '/' :: '>' :: s) ++ t = b ++
      '<' :: (w ++ '/' :: '>' :: (s ++ t)) by simp]
    exact readValue_node white (tag.notEnd _) (tag.identify _) (elementParse_empty tag _ _)
      (rest_read n (by omega))
  | @element b name w inner s attributes kids next white tag inside rest inside_ih ih =>
    obtain ⟨c, white', rest_read⟩ := ih stops later
    obtain ⟨-, -, content⟩ := inside_ih (m := 0) (.inr rfl : Stops (endTag name ++ (s ++ t)))
      fun b n white some_fuel => readValue_close white (name ++ ['>'] ++ (s ++ t)) n some_fuel
    refine ⟨c, white', fun n fuel => ?_⟩
    obtain ⟨n, rfl⟩ := Nat.exists_eq_succ_of_ne_zero (Nat.ne_zero_of_lt fuel)
    simp only [List.length_append, List.length_cons] at fuel
    have content := content n (by omega)
    rw [map_end] at content
    rw [show b ++ '<' :: (w ++ '>' :: (inner ++ (endTag name ++ s))) ++ t =
      b ++ '<' :: (w ++ '>' :: (inner ++ (endTag name ++ (s ++ t)))) by simp]
    exact readValue_node white (tag.notEnd _) (tag.identify _) (elementParse_element tag _ _ content)
      (rest_read n (by omega))
  | @single b w s content next white leaf noEnd rest ih =>
    obtain ⟨d, white', rest_read⟩ := ih stops later
    refine ⟨d, white', fun n fuel => ?_⟩
    obtain ⟨n, rfl⟩ := Nat.exists_eq_succ_of_ne_zero (Nat.ne_zero_of_lt fuel)
    obtain ⟨kind, known, parsed⟩ := single_read leaf (fun p => readValue encoding n (some p)) (s ++ t)
    obtain ⟨c, more, rfl⟩ := leaf.first
    simp only [List.length_append, List.length_cons] at fuel
    have other : c ≠ '/' := by
      rintro rfl
      exact noEnd ⟨more, rfl⟩
    rw [show b ++ ('<' :: c :: more ++ s) ++ t = b ++ '<' :: (c :: more ++ (s ++ t)) by simp]
    exact readValue_node white (second_char other _ []) known parsed (rest_read n (by omega))
  | @text b value w s next white spaced solid visible rest last ih =>
    have some_char : 0 < w.length := List.length_pos_iff.mpr fun empty => by
      subst empty
      exact solid []
    rw [List.append_assoc, List.append_assoc]
    rcases rest.lead last with ⟨rfl, white'⟩ | ⟨after, more, white', rfl⟩
    · refine ⟨[], White.nil, fun n fuel => ?_⟩
      obtain ⟨n, rfl⟩ := Nat.exists_eq_succ_of_ne_zero (Nat.ne_zero_of_lt fuel)
      simp only [List.length_append] at fuel
      have last_read := later [] n White.nil (by omega)
      apply readValue_text white spaced solid visible white' stops
      rw [List.nil_append] at last_read
      rw [last_read]
      cases y [] with
      | ok r => rfl
      | error e => rfl
    · obtain ⟨c, white'', rest_read⟩ := ih stops later
      refine ⟨c, white'', fun n fuel => ?_⟩
      obtain ⟨n, rfl⟩ := Nat.exists_eq_succ_of_ne_zero (Nat.ne_zero_of_lt fuel)
      simp only [List.length_append] at fuel
      have rest_read := rest_read n (by rw [List.length_append]; omega)
      rw [List.append_assoc, List.cons_append, readValue_white white'] at rest_read
      rw [List.append_assoc, List.cons_append]
      exact readValue_text white spaced solid visible white' (.inr rfl) rest_read

theorem readValue_written (written : Written encoding nodes w) (fuel : w.length < n) (t : CText) :
    readValue encoding n (some (w ++ '<' :: '/' :: t)) =
        .ok ⟨nodes, some ('<' :: '/' :: t), none⟩ := by
  obtain ⟨-, -, read⟩ := readValue_front written (.inr rfl) fun b n white some_fuel =>
    readValue_close white t n some_fuel
  rw [read n fuel, map_end]

end Contents

section Documents
variable {encoding : Encoding} {nodes : Siblings} {w : CText} {n : Nat}

theorem documentLoop_node {x : Call (Parsed Siblings)} {kind : Kind} {node kids : Siblings}
    {b s t : CText} (white : White b) (known : identify encoding ('<' :: s) = some kind)
    (parsed : nodeParse (fun p => readValue encoding n (some p)) encoding kind ('<' :: s) =
      .ok ⟨node, some t, none⟩)
    (later : documentLoop n (encodingAfter encoding node)
      (skipWhiteSpace (encodingAfter encoding node) (some t)) =
      x.map (Parsed.behind kids)) :
    documentLoop (n + 1) encoding (skipWhiteSpace encoding (some (b ++ '<' :: s))) =
      x.map (Parsed.behind (node.append kids)) := by
  rw [skip_plain white (by decide) (by decide)]
  simp only [documentLoop, known, parsed, bind, Except.bind, later]
  cases x with
  | ok r => exact congrArg Except.ok (r.behind_append node kids)
  | error e => rfl

def encodingBehind : Encoding → Siblings → Encoding
  | encoding, .nil => encoding
  | encoding, .element _ _ _ next => encodingBehind encoding next
  | encoding, .leaf content next => encodingBehind (encodingAfter encoding (.leaf content .nil)) next

theorem documentLoop_front {x : CText → Call (Parsed Siblings)} {m : Nat} {t : CText}
    (written : WrittenDocument encoding nodes w)
    (later : ∀ b n, White b → m < n → documentLoop n (encodingBehind encoding nodes)
      (skipWhiteSpace (encodingBehind encoding nodes) (some (b ++ t))) = x b) :
    ∃ b, White b ∧ ∀ n, w.length + m < n →
      documentLoop n encoding (skipWhiteSpace encoding (some (w ++ t))) =
      (x b).map (Parsed.behind nodes) := by
  induction written with
  | @nil encoding b white =>
    refine ⟨b, white, fun n fuel => ?_⟩
    rw [encodingBehind] at later
    rw [later b n white (by omega)]
    cases x b with
    | ok r => rfl
    | error e => rfl
  | @empty encoding b name w s attributes next white tag rest ih =>
    obtain ⟨c, white', rest_read⟩ := ih later
    refine ⟨c, white', fun n fuel => ?_⟩
    obtain ⟨n, rfl⟩ := Nat.exists_eq_succ_of_ne_zero (Nat.ne_zero_of_lt fuel)
    simp only [List.length_append, List.length_cons] at fuel
    rw [show b ++ '<' :: (w ++ '/' :: '>' :: s) ++ t = b ++
      '<' :: (w ++ '/' :: '>' :: (s ++ t)) by simp]
    exact documentLoop_node white (tag.identify _) (elementParse_empty tag _ (s ++ t))
      (rest_read n (by omega))
  | @element encoding b name w inner s attributes kids next white tag inside rest ih =>
    obtain ⟨c, white', rest_read⟩ := ih later
    refine ⟨c, white', fun n fuel => ?_⟩
    obtain ⟨n, rfl⟩ := Nat.exists_eq_succ_of_ne_zero (Nat.ne_zero_of_lt fuel)
    simp only [List.length_append, List.length_cons] at fuel
    have content := readValue_written inside (n := n) (by omega) (name ++ ['>'] ++ (s ++ t))
    rw [show b ++ '<' :: (w ++ '>' :: (inner ++ (endTag name ++ s))) ++ t =
      b ++ '<' :: (w ++ '>' :: (inner ++ (endTag name ++ (s ++ t)))) by simp]
    exact documentLoop_node white (tag.identify _) (elementParse_element tag _ (s ++ t) content)
      (rest_read n (by omega))
  | @single encoding b w s content next white leaf rest ih =>
    obtain ⟨d, white', rest_read⟩ := ih later
    refine ⟨d, white', fun n fuel => ?_⟩
    obtain ⟨n, rfl⟩ := Nat.exists_eq_succ_of_ne_zero (Nat.ne_zero_of_lt fuel)
    obtain ⟨kind, known, parsed⟩ := single_read leaf (fun p => readValue encoding n (some p)) (s ++ t)
    obtain ⟨c, more, rfl⟩ := leaf.first
    simp only [List.length_append, List.length_cons] at fuel
    rw [show b ++ ('<' :: c :: more ++ s) ++ t = b ++ '<' :: (c :: more ++ (s ++ t)) by simp]
    exact documentLoop_node white known parsed (rest_read n (by omega))

theorem documentLoop_written (written : WrittenDocument encoding nodes w) (fuel : w.length < n) :
    ∃ p, documentLoop n encoding (skipWhiteSpace encoding (some w)) = .ok ⟨nodes, p, none⟩ := by
  have ends : ∀ b n, White b → 0 < n → documentLoop n (encodingBehind encoding nodes)
      (skipWhiteSpace (encodingBehind encoding nodes) (some (b ++ []))) =
        .ok ⟨.nil, skipWhiteSpace (encodingBehind encoding nodes) (some b), none⟩ := by
    intro b n white some_fuel
    obtain ⟨n, rfl⟩ := Nat.exists_eq_succ_of_ne_zero some_fuel.ne'
    rw [List.append_nil]
    generalize encodingBehind encoding nodes = encoding
    rcases skipWhiteSpace_end white with ends | ends
    · rw [ends]
      rfl
    · rw [ends]
      rfl
  obtain ⟨b, -, read⟩ := documentLoop_front written ends
  have whole := read n fuel
  rw [List.append_nil, map_end] at whole
  exact ⟨_, whole⟩

theorem noMark_head {s : CText} (plain : s.head? ≠ some '\xef') :
    byteOrderMark.isPrefixOf s = false := by
  cases s with
  | nil => rfl
  | cons c s =>
    have differs : ('\xef' == c) = false :=
      beq_eq_false_iff_ne.mpr fun same => plain (congrArg some same.symm)
    rw [byteOrderMark, List.isPrefixOf, differs, Bool.false_and]

theorem white_head {b s : CText} (white : White b) (plain : s.head? ≠ some '\xef') :
    (b ++ s).head? ≠ some '\xef' := by
  cases b with
  | nil => exact plain
  | cons c b =>
    intro mark
    obtain rfl := Option.some.inj mark
    exact absurd (white_cons.mp white).1 (by decide)

theorem lt_head (t : CText) : ('<' :: t).head? ≠ some '\xef' :=
  fun same => absurd (Option.some.inj same) (by decide)

theorem WrittenDocument.head {s : CText} (written : WrittenDocument encoding nodes w)
    (plain : s.head? ≠ some '\xef') :
    (w ++ s).head? ≠ some '\xef' := by
  cases written with
  | nil white => exact white_head white plain
  | empty white =>
    rw [List.append_assoc]
    exact white_head white (lt_head _)
  | element white =>
    rw [List.append_assoc]
    exact white_head white (lt_head _)
  | single white leaf =>
    obtain ⟨c, more, rfl⟩ := leaf.first
    rw [List.append_assoc]
    exact white_head white (lt_head _)

def startEncoding (useMicrosoftBOM : Bool) : Encoding := if useMicrosoftBOM then .utf8 else .unknown

def startMark (useMicrosoftBOM : Bool) : CText := if useMicrosoftBOM then byteOrderMark else []

def Parsed.document (useMicrosoftBOM : Bool) (r : Parsed Siblings) : Document :=
  ⟨r.value, useMicrosoftBOM, if r.value = .nil then r.error.or (some .documentEmpty) else r.error⟩

theorem parse_looped (bom : Bool) (nonempty : w ≠ []) (plain : w.head? ≠ some '\xef') :
    ∃ n, w.length < n ∧ Document.parse (startMark bom ++ w) =
      (documentLoop n (startEncoding bom) (skipWhiteSpace (startEncoding bom) (some w))).map
          (Parsed.document bom) := by
  obtain ⟨c, w, rfl⟩ := List.exists_cons_of_ne_nil nonempty
  cases bom with
  | false =>
    refine ⟨_, Nat.lt_succ_self _, ?_⟩
    show Document.parse (c :: w) = _
    rw [Document.parse, noMark_head plain]
    rfl
  | true =>
    refine ⟨(byteOrderMark ++ c :: w).length + 1, ?_, ?_⟩
    · rw [List.length_append]
      omega
    · have marked : byteOrderMark.isPrefixOf (byteOrderMark ++ c :: w) = true :=
        List.isPrefixOf_iff_prefix.mpr (List.prefix_append _ _)
      show Document.parse (byteOrderMark ++ c :: w) = _
      rw [Document.parse, marked]
      rfl

theorem WrittenDocument.ne_nil (written : WrittenDocument encoding nodes w)
    (nonempty : nodes ≠ .nil) : w ≠ [] := by
  rintro rfl
  obtain ⟨p, read⟩ := documentLoop_written written (Nat.zero_lt_one : ([] : CText).length < 1)
  exact nonempty (congrArg Parsed.value (Except.ok.inj read)).symm

/-- A document that is written as it may be is parsed without an error to its nodes. -/
theorem parse_written {bom : Bool} (written : WrittenDocument (startEncoding bom) nodes w)
    (nonempty : nodes ≠ .nil) :
    Document.parse (startMark bom ++ w) = .ok ⟨nodes, bom, none⟩ := by
  have plain : w.head? ≠ some '\xef' := by
    have head := written.head (s := []) (by decide)
    rwa [List.append_nil] at head
  obtain ⟨n, fuel, parsed⟩ := parse_looped bom (written.ne_nil nonempty) plain
  obtain ⟨p, read⟩ := documentLoop_written written fuel
  rw [parsed, read]
  show Except.ok (Parsed.document bom ⟨nodes, p, none⟩) = _
  rw [Parsed.document, if_neg nonempty]

end Documents

end DevAccess.TinyXml
