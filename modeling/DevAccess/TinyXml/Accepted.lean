import DevAccess.TinyXml.Files
import DevAccess.TinyXml.Reading
import DevAccess.TinyXml.Stamp

/-! What Parse can give for a text that nobody has looked at: unless the counting of columns holds it
up, it ends, and the nodes are in a form that only lacks conditions on their values to be printed
and read back. -/
namespace DevAccess.TinyXml
open Foundation Xml

def FormedLeaf (P : Char → Prop) : Leaf → Prop
  | .comment value => ¬ commentEnd <:+: value ∧ ∀ c ∈ value, P c
  | .unknown value => ('>' ∉ value ∧ kindOf ('<' :: value) = .unknown) ∧ ∀ c ∈ value, P c
  | .text value true => ¬ cdataEnd <:+: value ∧ ∀ c ∈ value, P c
  | .text value false => blank value = false
  | .declaration version enc standalone => '\x00' ∉ version ++ enc ++ standalone

/-- What the content of an element has, whatever was parsed. -/
def Formed (encoding : Encoding) (P : Char → Prop) (sound : Prop) : Siblings → Prop
  | .nil => True
  | .element name attributes firstChild next =>
    FormedTag encoding sound name attributes ∧ Formed encoding P sound firstChild ∧
      Formed encoding P sound next
  | .leaf content next =>
    FormedLeaf P content ∧ startsEnd content = false ∧
      (isRunningText (.leaf content next) = true → isRunningText next = false) ∧
        Formed encoding P sound next

/-- The same for the nodes of a document. -/
def FormedDocument (P : Char → Prop) (sound : Prop) : Encoding → Siblings → Prop
  | _, .nil => True
  | encoding, .element name attributes firstChild next =>
    FormedTag encoding sound name attributes ∧ Formed encoding P sound firstChild ∧
      FormedDocument P sound encoding next
  | encoding, .leaf content next =>
    FormedLeaf P content ∧ isRunningText (.leaf content .nil) = false ∧
      FormedDocument P sound (encodingAfter encoding (.leaf content .nil)) next

inductive Node (encoding : Encoding) (P : Char → Prop) (sound : Prop) : Siblings → Prop
  | element {name : CText} {attributes : List Attribute} {firstChild : Siblings}
      (tag : FormedTag encoding sound name attributes) (inside : Formed encoding P sound firstChild) :
      Node encoding P sound (.element name attributes firstChild .nil)
  | leaf {content : Leaf} (formed : FormedLeaf P content)
      (noText : isRunningText (.leaf content .nil) = false) :
      Node encoding P sound (.leaf content .nil)

section Nodes
variable {encoding : Encoding} {P : Char → Prop} {p q : CText} {n : Nat} {sound sound' : Prop}

theorem FormedTag.weaken {name : CText} {attributes : List Attribute}
    (tag : FormedTag encoding sound name attributes) (weaker : sound' → sound) :
    FormedTag encoding sound' name attributes :=
  ⟨tag.named.imp_right fun nameless => ⟨nameless.1, fun holds => nameless.2 (weaker holds)⟩,
    tag.valid, tag.distinct⟩

theorem Formed.weaken {nodes : Siblings} (formed : Formed encoding P sound nodes)
    (weaker : sound' → sound) :
    Formed encoding P sound' nodes := by
  induction nodes with
  | nil => trivial
  | element name attributes firstChild next first_ih ih =>
    exact ⟨formed.1.weaken weaker, first_ih formed.2.1, ih formed.2.2⟩
  | leaf content next ih => exact ⟨formed.1, formed.2.1, formed.2.2.1, ih formed.2.2.2⟩

theorem FormedDocument.weaken {nodes : Siblings} (formed : FormedDocument P sound encoding nodes)
    (weaker : sound' → sound) : FormedDocument P sound' encoding nodes := by
  induction nodes generalizing encoding with
  | nil => trivial
  | element name attributes firstChild next first_ih ih =>
    exact ⟨formed.1.weaken weaker, formed.2.1.weaken weaker, ih formed.2.2⟩
  | leaf content next ih => exact ⟨formed.1, formed.2.1, ih formed.2.2⟩

structure Made (encoding : Encoding) (P : Char → Prop) (p : CText) (r : Parsed Siblings) : Prop where
  node : Node encoding P (r.error = none) r.value
  past : ∀ q, r.p = some q → Past q p
  notEnd : p.tail.head? ≠ some '/' → ∀ content, r.value = .leaf content .nil →
    startsEnd content = false

structure Content (encoding : Encoding) (P : Char → Prop) (p : CText) (r : Parsed Siblings) :
    Prop where
  formed : Formed encoding P (r.error = none) r.value
  within : ∀ q, r.p = some q → q <:+ p

theorem or_none {e f : Option Error} (both : e.or f = none) : e = none ∧ f = none := by
  cases e with
  | none => exact ⟨rfl, both⟩
  | some e => cases both

theorem elementParse_gives {content : CText → Call (Parsed Siblings)} {c : Char}
    (inside : ∀ q, Past q p → Gives (Content encoding P q) (content q)) :
    Gives (Made encoding P (c :: p)) (elementParse content encoding (c :: p)) := by
  unfold elementParse
  apply (readTag_gives encoding p).bind
  rintro tag ⟨formed, ends⟩
  have named : ∀ {q}, tag.ending.left = some q →
      FormedTag encoding True tag.value tag.attributes := fun left =>
    ⟨.inl (ends _ left).2, formed.valid, formed.distinct⟩
  cases ending : tag.ending with
  | fails =>
    refine ⟨.element formed trivial, fun q left => ?_, fun _ content same => ?_⟩
    · cases left
    · cases same
  | empty q =>
    have left : tag.ending.left = some q := by rw [ending]; rfl
    refine ⟨.element ((named left).weaken fun _ => trivial) trivial, fun s left' => ?_,
      fun _ content same => ?_⟩
    · obtain rfl := Option.some.inj left'
      exact .cons (ends q left).1.1
    · cases same
  | opened q =>
    have left : tag.ending.left = some q := by rw [ending]; rfl
    have past := (ends q left).1
    apply (inside q past).bind
    rintro r ⟨content_formed, within⟩
    have node : ∀ error : Option Error, (error = none → r.error = none) →
        Node encoding P (error = none) (.element tag.value tag.attributes r.value .nil) := fun error weaker =>
      .element ((named left).weaken fun _ => trivial) (content_formed.weaken weaker)
    have failed : ∀ error, Made encoding P (c :: p)
        ⟨.element tag.value tag.attributes r.value .nil, none, r.error.or (some error)⟩ := by
      intro error
      refine ⟨node _ fun both => (or_none both).1, fun q left => ?_, fun _ content same => ?_⟩
      · cases left
      · cases same
    simp only []
    split
    · exact failed _
    · exact failed _
    · rename_i rest nonempty here
      split
      · refine ⟨node _ id, fun s left' => ?_, fun _ content same => ?_⟩
        · obtain rfl := Option.some.inj left'
          exact .cons (((List.drop_suffix _ _).trans (within rest here)).trans past.1)
        · cases same
      · exact failed _

theorem upTo_append (tag p : CText) : (upTo tag p).1 ++ (upTo tag p).2 = p := by
  induction p with
  | nil => rfl
  | cons c p ih =>
    rw [upTo]
    split
    · rfl
    · exact congrArg (c :: ·) ih

theorem upTo_front (tag p : CText) : (upTo tag p).1 <+: p := ⟨_, upTo_append tag p⟩

theorem upTo_left (tag p : CText) : (upTo tag p).2 <:+ p := ⟨_, upTo_append tag p⟩

theorem upTo_noTag {tag : CText} (some_tag : tag ≠ []) (p : CText) : ¬ tag <:+: (upTo tag p).1 := by
  induction p with
  | nil => exact fun inside => some_tag (List.infix_nil.mp inside)
  | cons c p ih =>
    rw [upTo]
    split
    · exact fun inside => some_tag (List.infix_nil.mp inside)
    · rename_i other
      rw [List.infix_cons_iff, not_or]
      have front := List.prefix_cons_inj c |>.mpr (upTo_front tag p)
      exact ⟨fun first => other ((stringEqual_exact (List.cons_ne_nil c p)).mpr
        (first.trans front)), ih⟩

theorem pastTag_gives {tag : CText} (some_tag : tag ≠ []) (p : CText) :
    Gives (fun q => Past q p) (pastTag tag p) := by
  cases p with
  | nil => rfl
  | cons c p =>
    obtain ⟨d, tag, rfl⟩ := List.exists_cons_of_ne_nil some_tag
    exact .cons (List.drop_suffix tag.length p)

/-- What is read between a header and the first end mark behind it. -/
theorem upTo_made {tag : CText} (some_tag : tag ≠ []) (k : Nat) (kind : CText → Leaf)
    (formed : ∀ value, ¬ tag <:+: value → (∀ c ∈ value, P c) → FormedLeaf P (kind value))
    (notEnd : ∀ value, startsEnd (kind value) = false)
    (noText : ∀ value, isRunningText (.leaf (kind value) .nil) = false) (chars : ∀ c ∈ p, P c) :
    Gives (Made encoding P p) (do
      let (value, stop) := upTo tag (p.drop k)
      return ⟨.leaf (kind value) .nil, some (← pastTag tag stop), none⟩) := by
  have behind := List.drop_suffix k p
  have noEnd := upTo_noTag some_tag (p.drop k)
  apply (pastTag_gives some_tag _).bind
  intro q past
  refine ⟨.leaf (formed _ noEnd fun c member => ?_) (noText _), fun s left => ?_,
    fun _ content same => ?_⟩
  · exact chars c (behind.subset ((upTo_front _ _).subset member))
  · obtain rfl := Option.some.inj left
    exact past.behind ((upTo_left _ _).trans behind)
  · obtain rfl := (Siblings.leaf.inj same).1.symm
    exact notEnd _

theorem commentParse_gives (chars : ∀ c ∈ p, P c) : Gives (Made encoding P p) (commentParse p) :=
  upTo_made (show commentEnd ≠ [] by decide) commentHeader.length .comment
    (fun _ noEnd chars => ⟨noEnd, chars⟩) (fun _ => rfl) (fun _ => rfl) chars

theorem cdataParse_gives (chars : ∀ c ∈ p, P c) : Gives (Made encoding P p) (cdataParse p) :=
  upTo_made (show cdataEnd ≠ [] by decide) cdataHeader.length (.text · true)
    (fun _ noEnd chars => ⟨noEnd, chars⟩) (fun _ => rfl) (fun _ => rfl) chars

theorem unknownParse_made {t : CText} (kind : kindOf ('<' :: t) = .unknown) (chars : ∀ c ∈ t, P c) :
    Made encoding P ('<' :: t) (unknownParse ('<' :: t)) := by
  have noEnd : '>' ∉ t.takeWhile (· ≠ '>') :=
    fun member => by simpa using List.mem_takeWhile_imp member
  have same_kind : kindOf ('<' :: t.takeWhile (· ≠ '>')) = .unknown := by
    have whole := List.takeWhile_append_dropWhile (p := fun c => decide (c ≠ '>')) (l := t)
    cases rest : t.dropWhile (· ≠ '>') with
    | nil =>
      rw [rest, List.append_nil] at whole
      rwa [whole]
    | cons d rest' =>
      have stops := List.head?_dropWhile_not (fun c => decide (c ≠ '>')) t
      rw [rest] at stops whole
      obtain rfl : d = '>' := by simpa using stops
      rwa [← kindOf_until _ rest', whole]
  have raw : ∀ c ∈ t.takeWhile (· ≠ '>'), P c :=
    fun c member => chars c ((List.takeWhile_prefix _).subset member)
  refine ⟨.leaf ⟨⟨noEnd, same_kind⟩, raw⟩ rfl, fun s left => ?_, fun first content same => ?_⟩
  · obtain rfl := Option.some.inj left
    exact .cons (List.drop_suffix _ t)
  · obtain rfl := (Siblings.leaf.inj same).1.symm
    cases t with
    | nil => rfl
    | cons d t =>
      refine decide_eq_false fun slash => first ?_
      rw [List.tail_cons, List.takeWhile_cons] at slash
      split at slash
      · exact slash
      · cases slash

def NoZero (d : Declared) : Prop := '\x00' ∉ d.version ++ d.encoding ++ d.standalone

theorem c_str_noZero (s : CText) : '\x00' ∉ CText.c_str s := fun member => by
  simpa using List.mem_takeWhile_imp member

theorem set_noZero {d d' : Declared} {s value : CText} (noZero : NoZero d) (plain : '\x00' ∉ value)
    (set : d.set s value = some d') : NoZero d' := by
  unfold NoZero at noZero ⊢
  simp only [List.mem_append, not_or] at noZero ⊢
  unfold Declared.set at set
  split at set
  · obtain rfl := Option.some.inj set
    exact ⟨⟨plain, noZero.1.2⟩, noZero.2⟩
  · split at set
    · obtain rfl := Option.some.inj set
      exact ⟨⟨noZero.1.1, plain⟩, noZero.2⟩
    · split at set
      · obtain rfl := Option.some.inj set
        exact ⟨noZero.1, plain⟩
      · cases set

theorem readDeclaration_gives {d : Declared} (noZero : NoZero d) (fuel : p.length ≤ n) :
    Gives (fun r => NoZero r.1 ∧ ∀ q, r.2 = some q → q <:+ p) (readDeclaration encoding n d p) := by
  induction n generalizing p d with
  | zero =>
    obtain rfl := List.length_eq_zero_iff.mp (Nat.le_zero.mp fuel)
    exact ⟨noZero, none_left⟩
  | succ n ih =>
    cases p with
    | nil => exact ⟨noZero, none_left⟩
    | cons c p =>
      have suffix := skipBlanks_suffix encoding 0 (c :: p)
      have again : ∀ {d : Declared} {q : CText}, NoZero d → q <:+ p →
          Gives (fun r => NoZero r.1 ∧ ∀ s, r.2 = some s →
              s <:+ c :: p) (readDeclaration encoding n d q) := by
        intro d q plain behind
        apply (ih plain (Nat.le_trans behind.length_le (Nat.le_of_succ_le_succ fuel))).mono
        rintro r ⟨plain', within⟩
        exact ⟨plain', fun s left => (Past.cons ((within s left).trans behind)).1⟩
      rw [readDeclaration]
      split
      · refine ⟨noZero, fun q left => ?_⟩
        obtain rfl := Option.some.inj left
        exact List.suffix_cons c _
      · rename_i other
        dsimp only
        split
        · apply again noZero
          rcases List.suffix_cons_iff.mp suffix with same | behind
          · have visible := (skipBlanks_visible encoding 0 (c :: p) c p same).1
            rw [same, List.dropWhile_cons, if_pos (by simp [other, visible])]
            exact List.dropWhile_suffix _
          · exact (List.dropWhile_suffix _).trans behind
        · rename_i d' set
          apply (attributeParse_gives encoding _).bind
          rintro ⟨a, stop, error⟩ read
          have plain :
              NoZero ((d.set (skipBlanks encoding 0 (c :: p)) (CText.c_str a.value)).getD d) := by
            cases set' : d.set (skipBlanks encoding 0 (c :: p)) (CText.c_str a.value) with
            | none => exact noZero
            | some d'' => exact set_noZero noZero (c_str_noZero a.value) set'
          cases stop with
          | none => exact ⟨plain, none_left⟩
          | some q => exact again plain ((read q rfl).1.behind suffix).tail

theorem declarationParse_gives (p : CText) :
    Gives (Made encoding P ('<' :: p)) (declarationParse encoding ('<' :: p)) := by
  have empty : NoZero ⟨[], [], []⟩ := List.not_mem_nil
  have behind : ('<' :: p).drop xmlHeader.length <:+ p := List.drop_suffix 4 p
  apply (readDeclaration_gives empty (Nat.le_succ_of_le behind.length_le)).bind
  rintro ⟨d, stop⟩ ⟨noZero, within⟩
  refine ⟨.leaf noZero rfl, fun q left => ?_, fun _ content same => ?_⟩
  · exact .cons ((within q left).trans behind)
  · obtain rfl := (Siblings.leaf.inj same).1.symm
    rfl

theorem nodeParse_gives {content : CText → Call (Parsed Siblings)} {kind : Kind}
    (chars : ∀ c ∈ '<' :: p, P c) (identified : kindOf ('<' :: p) = kind)
    (inside : ∀ q, Past q p → Gives (Content encoding P q) (content q)) :
    Gives (Made encoding P ('<' :: p)) (nodeParse content encoding kind ('<' :: p)) := by
  cases kind with
  | declaration => exact declarationParse_gives p
  | comment => exact commentParse_gives chars
  | cdata => exact cdataParse_gives chars
  | unknown => exact unknownParse_made identified fun c member => chars c (List.mem_cons_of_mem _ member)
  | element => exact elementParse_gives inside

theorem Node.append {node rest : Siblings} (made : Node encoding P sound node)
    (notEnd : ∀ content, node = .leaf content .nil → startsEnd content = false)
    (formed : Formed encoding P sound rest) :
    Formed encoding P sound (node.append rest) ∧ isRunningText (node.append rest) = false := by
  cases made with
  | element tag inside => exact ⟨⟨tag, inside, formed⟩, rfl⟩
  | @leaf content leaf noText =>
    have same : isRunningText (.leaf content rest) = false := by
      cases content with
      | text value cdata => cases cdata with
        | false => cases noText
        | true => rfl
      | _ => rfl
    exact ⟨⟨leaf, notEnd content rfl, fun text => absurd (text.symm.trans same) (by decide),
      formed⟩, same⟩

theorem Node.weaken {node : Siblings} (made : Node encoding P sound node) (weaker : sound' → sound) :
    Node encoding P sound' node := by
  cases made with
  | element tag inside => exact .element (tag.weaken weaker) (inside.weaken weaker)
  | leaf formed noText => exact .leaf formed noText

theorem Node.document {node rest : Siblings} (made : Node encoding P sound node)
    (formed : FormedDocument P sound (encodingAfter encoding node) rest) :
    FormedDocument P sound encoding (node.append rest) := by
  cases made with
  | element tag inside => exact ⟨tag, inside, formed⟩
  | leaf leaf noText => exact ⟨leaf, noText, formed⟩

end Nodes

section Values
variable {encoding : Encoding} {P : Char → Prop} {n : Nat}

theorem Past.fuel {q s : CText} (past : Past q s) (bound : s.length < n + 1) : q.length < n :=
  Nat.lt_of_lt_of_le past.2 (Nat.le_of_lt_succ bound)

structure ValueRead (encoding : Encoding) (P : Char → Prop) (p : Option CText)
    (r : Parsed Siblings) : Prop where
  formed : Formed encoding P (r.error = none) r.value
  within : ∀ q, r.p = some q → ∃ s, p = some s ∧ q <:+ s
  lead : (∀ s, p = some s → s = [] ∨ s.head? = some '<') → isRunningText r.value = false

def Resumes (encoding : Encoding) (P : Char → Prop) (s : CText)
    (later : Option CText → Call (Parsed Siblings)) : Prop :=
  ∀ stop, (∀ q, stop = some q → Past q s) → Gives (ValueRead encoding P stop) (later stop)

theorem ValueRead.behind {s t : CText} {stop : Option CText} {r : Parsed Siblings}
    (rest : ValueRead encoding P stop r) (past : ∀ q, stop = some q → Past q t) (suffix : t <:+ s) :
    ∀ q, r.p = some q → ∃ s', some s = some s' ∧ q <:+ s' := by
  intro q left
  obtain ⟨s', here, further⟩ := rest.within q left
  exact ⟨s, rfl, further.trans ((past s' here).1.trans suffix)⟩

theorem nodeFirst_gives {s t : CText} {content : CText → Call (Parsed Siblings)}
    {later : Option CText → Call (Parsed Siblings)} (suffix : '<' :: t <:+ s)
    (chars : ∀ c ∈ '<' :: t, P c) (notEnd : ¬ stringEqual ('<' :: t) ['<', '/'] false = true)
    (inside : ∀ q, Past q t → Gives (Content encoding P q) (content q))
    (resumes : Resumes encoding P ('<' :: t) later) :
    Gives (ValueRead encoding P (some s)) (do
      let node ← nodeParse content encoding (kindOf ('<' :: t)) ('<' :: t)
      let rest ← later node.p
      return ⟨node.value.append rest.value, rest.p, node.error.or rest.error⟩) := by
  apply (nodeParse_gives chars rfl inside).bind
  rintro node made
  apply (resumes node.p made.past).bind
  rintro rest read
  have noSlash : t.head? ≠ some '/' := by
    intro slash
    obtain ⟨u, rfl⟩ := List.head?_eq_some_iff.mp slash
    exact notEnd ((stringEqual_exact (List.cons_ne_nil _ _)).mpr ⟨u, rfl⟩)
  have sound := made.node.weaken fun both : node.error.or rest.error = none => (or_none both).1
  obtain ⟨whole, noText⟩ := sound.append (made.notEnd noSlash)
    (read.formed.weaken fun both => (or_none both).2)
  exact ⟨whole, read.behind made.past suffix, fun _ => noText⟩

theorem textFirst_gives {c : Char} {s t : CText} {later : Option CText → Call (Parsed Siblings)}
    (skipped : skipWhiteSpace encoding (some s) = some (c :: t)) (other : c ≠ '<')
    (resumes : Resumes encoding P (c :: t) later) :
    Gives (ValueRead encoding P (some s)) (do
      let (value, stop) ← textParse encoding (c :: t)
      let rest ← later stop
      return ⟨if blank value then rest.value
        else .leaf (.text value false) rest.value, rest.p, rest.error⟩) := by
  apply (textParse_gives encoding other).bind
  rintro ⟨value, stop⟩ ends
  have past : ∀ q, stop = some q → Past q (c :: t) := fun q left => (ends q left).1
  apply (resumes stop past).bind
  rintro rest read
  have last := read.lead fun s' left => (ends s' left).2
  have text_first : ¬ ∀ s', some s = some s' → s' = [] ∨ s'.head? = some '<' := by
    intro starts
    rcases starts s rfl with rfl | first
    · cases skipped
    · obtain ⟨u, rfl⟩ := List.head?_eq_some_iff.mp first
      have same : skipWhiteSpace encoding (some ('<' :: u)) = some ('<' :: u) :=
        skip_plain White.nil (by decide) (by decide) u
      rw [skipped] at same
      exact other (List.cons.inj (Option.some.inj same)).1
  refine ⟨?_, read.behind past (skipWhiteSpace_suffix skipped),
    fun starts => absurd starts text_first⟩
  show Formed encoding P (rest.error = none) (if blank value = true then _ else _)
  split
  · exact read.formed
  · rename_i visible
    exact ⟨Bool.eq_false_iff.mpr visible, rfl, fun _ => last, read.formed⟩

theorem ValueRead.content {q : CText} {r : Parsed Siblings}
    (read : ValueRead encoding P (some q) r) : Content encoding P q r := by
  refine ⟨read.formed, fun s left => ?_⟩
  obtain ⟨q', same, further⟩ := read.within s left
  obtain rfl := Option.some.inj same
  exact further

theorem readValue_gives {p : Option CText} (some_fuel : 0 < n) (fuel : ∀ q, p = some q → q.length < n)
    (chars : ∀ q, p = some q → ∀ c ∈ q, P c) :
    Gives (ValueRead encoding P p) (readValue encoding n p) := by
  induction n generalizing p with
  | zero => exact absurd some_fuel (Nat.lt_irrefl 0)
  | succ n ih =>
    rw [readValue]
    split
    · exact ⟨trivial, none_left, fun _ => rfl⟩
    · rename_i skipped
      refine ⟨trivial, fun q left => ?_, fun _ => rfl⟩
      obtain rfl := Option.some.inj left
      cases p with
      | none => cases skipped
      | some s => exact ⟨s, rfl, skipWhiteSpace_suffix skipped⟩
    · rename_i c t skipped
      cases p with
      | none => cases skipped
      | some s =>
        have suffix := skipWhiteSpace_suffix skipped
        have bound := fuel s rfl
        have all := chars s rfl
        have some_fuel' : 0 < n := by
          have short := suffix.length_le
          rw [List.length_cons] at short
          omega
        have resumes : Resumes encoding P (c :: t) (readValue encoding n) := fun stop past =>
          ih some_fuel' (fun q left => ((past q left).behind suffix).fuel bound)
            fun q left d member => all d (((past q left).1.trans suffix).subset member)
        split
        · rename_i first
          obtain rfl := first
          split
          · refine ⟨trivial, fun q left => ?_, fun _ => rfl⟩
            obtain rfl := Option.some.inj left
            exact ⟨s, rfl, suffix⟩
          · rename_i notEnd
            rw [identify_lt]
            have inside : ∀ q, Past q t → Gives (Content encoding P q)
                (readValue encoding n (some q)) := by
              intro q past
              have behind : ∀ q', some q = some q' → Past q' ('<' :: t) := fun q' same =>
                Option.some.inj same ▸ Past.cons past.1
              exact (resumes (some q) behind).mono fun _ => ValueRead.content
            exact nodeFirst_gives suffix (fun d member => all d (suffix.subset member)) notEnd inside
              resumes
        · rename_i other
          exact textFirst_gives skipped other resumes

theorem readValue_content {q : CText} (some_fuel : 0 < n) (fuel : q.length < n)
    (chars : ∀ c ∈ q, P c) :
    Gives (Content encoding P q) (readValue encoding n (some q)) := by
  have only : ∀ q', some q = some q' → q' = q := fun q' same => (Option.some.inj same).symm
  apply (readValue_gives some_fuel (fun q' same => only q' same ▸ fuel) fun q' same =>
    only q' same ▸ chars).mono
  exact fun _ => ValueRead.content

theorem skipWhiteSpace_next {p : Option CText} {s : CText}
    (skipped : skipWhiteSpace encoding p = some s) :
    s = [] ∨ Solid encoding s := by
  cases p with
  | none => cases skipped
  | some p =>
    have same := skipWhiteSpace_some skipped
    cases s with
    | nil => exact .inl rfl
    | cons c s => exact .inr (skipBlanks_visible encoding 0 p c s same.symm)

theorem documentLoop_gives {p : Option CText} (some_fuel : 0 < n)
    (fuel : ∀ q, p = some q → q.length < n)
    (next : ∀ q, p = some q → q = [] ∨ Solid encoding q) (chars : ∀ q, p = some q → ∀ c ∈ q, P c) :
    Gives (fun r => FormedDocument P (r.error = none) encoding r.value)
        (documentLoop n encoding p) := by
  induction n generalizing p encoding with
  | zero => exact absurd some_fuel (Nat.lt_irrefl 0)
  | succ n ih =>
    unfold documentLoop
    split
    · trivial
    · trivial
    · rename_i s nonempty
      have bound := fuel s rfl
      have all := chars s rfl
      have solid := (next s rfl).resolve_left nonempty
      have some_char : 0 < s.length := List.length_pos_iff.mpr nonempty
      have some_fuel' : 0 < n := by omega
      split
      · trivial
      · rename_i kind identified
        have same : skipWhiteSpace encoding (some s) = some s := skipWhiteSpace_solid White.nil solid
        rw [identify, same] at identified
        split at identified
        · rename_i t here
          obtain rfl := Option.some.inj here
          have inside : ∀ q, Past q t → Gives (Content encoding P q)
              (readValue encoding n (some q)) := fun q past =>
            readValue_content some_fuel' ((Past.cons past.1).fuel bound) fun c member =>
              all c (List.mem_cons_of_mem _ (past.1.subset member))
          apply (nodeParse_gives all (Option.some.inj identified) inside).bind
          rintro node made
          have left : ∀ q, skipWhiteSpace (encodingAfter encoding node.value) node.p = some q →
              Past q ('<' :: t) := by
            intro q skipped
            cases stop : node.p with
            | none =>
              rw [stop] at skipped
              cases skipped
            | some s' =>
              rw [stop] at skipped
              exact (made.past s' stop).beyond (skipWhiteSpace_suffix skipped)
          apply (ih some_fuel' (fun q skipped => (left q skipped).fuel bound)
            (fun q skipped => skipWhiteSpace_next skipped)
            fun q skipped c member => all c ((left q skipped).1.subset member)).bind
          rintro rest formed
          exact (made.node.weaken fun both => (or_none both).1).document
            (formed.weaken fun both => (or_none both).2)
        · cases identified

theorem parse_formed {p : CText} (chars : ∀ c ∈ p, P c) :
    Gives (fun d => FormedDocument P (d.error = none) (startEncoding d.useMicrosoftBOM) d.children)
      (Document.parse p) := by
  unfold Document.parse
  dsimp only
  split
  · trivial
  · rename_i q skipped
    have behind := skipWhiteSpace_suffix skipped
    have only : ∀ s, some q = some s → s = q := fun s same => (Option.some.inj same).symm
    apply (documentLoop_gives (Nat.succ_pos _)
      (fun s same => Nat.lt_succ_of_le (only s same ▸ behind.length_le))
      (fun s same => only s same ▸ skipWhiteSpace_next skipped)
      fun s same c member => chars c (behind.subset (only s same ▸ member))).bind
    intro r formed
    show FormedDocument _ ((if r.value = .nil then r.error.or (some .documentEmpty)
      else r.error) = none) _ r.value
    apply formed.weaken
    split
    · exact fun both => (or_none both).1
    · exact id

/-- Where each byte 0xEF is followed by two others, no Stamp holds Parse up, and Parse ends: it
reads behind the text, or the nodes it gives are formed of it. -/
theorem parse_gives (p : CText) (followed : Followed p) :
    (∀ (tabsize : Int) (encoding : Encoding) (cursor : TiXmlCursor) (q : CText) (n : Nat), q <:+ p →
      ∃ moved, stamp tabsize encoding n cursor q n = some moved) ∧
    (Document.parse p = .error .fault ∨ ∃ d, Document.parse p = .ok d ∧
      FormedDocument (· ∈ p) (d.error = none) (startEncoding d.useMicrosoftBOM) d.children) := by
  refine ⟨fun tabsize encoding cursor q n => stamp_ends tabsize encoding cursor n followed, ?_⟩
  rcases returns_iff.mp (parse_formed fun c (member : c ∈ p) => member) with ⟨_, failed, rfl⟩ | given
  · exact .inl failed
  · exact .inr given

/-- A mark and an element. -/
theorem parse_gives_marked :
    (∀ (tabsize : Int) (encoding : Encoding) (cursor : TiXmlCursor) (q : CText) (n : Nat),
      q <:+ ['\xef', '\xbb', '\xbf', '<', 'a', '/', '>'] →
        ∃ moved, stamp tabsize encoding n cursor q n = some moved) ∧
    (Document.parse ['\xef', '\xbb', '\xbf', '<', 'a', '/', '>'] = .error .fault ∨
      ∃ d, Document.parse ['\xef', '\xbb', '\xbf', '<', 'a', '/', '>'] = .ok d ∧
        FormedDocument (· ∈ ['\xef', '\xbb', '\xbf', '<', 'a', '/', '>']) (d.error = none)
          (startEncoding d.useMicrosoftBOM) d.children) :=
  parse_gives _ (by decide)

end Values

end DevAccess.TinyXml
