import DevAccess.TinyXml.Entities
import DevAccess.TinyXml.Printer

/-! Text as it is written and read. A word spells a value when GetChar makes the value of it
whatever follows; EncodeString spells every text that holds no start of a hexadecimal
reference. -/
namespace DevAccess.TinyXml
open Foundation Xml

/-- The word is read as the value, and does not start with one of the characters that stop. -/
structure Spells (encoding : Encoding) (stop : Char → Prop) (value word : CText) : Prop where
  read : ∀ rest, getChar encoding (word ++ rest) = .ok (value, some rest)
  first : ∀ c, word.head? = some c → ¬ stop c
  nonempty : word ≠ []

/-- Words, one after the other. -/
inductive Spelling (encoding : Encoding) (stop : Char → Prop) : CText → CText → Prop
  | nil : Spelling encoding stop [] []
  | cons {value word values words : CText} (spells : Spells encoding stop value word)
      (rest : Spelling encoding stop values words) :
      Spelling encoding stop (value ++ values) (word ++ words)

/-- What a word of trimmed text does not start with. -/
def Breaks (c : Char) : Prop := c = '<' ∨ isWhiteSpace c = true

/-- Words with white space between some of them, each of which is one space of the value. -/
inductive Spaced (encoding : Encoding) : CText → CText → Prop
  | nil : Spaced encoding [] []
  | word {value word values words : CText} (spells : Spells encoding Breaks value word)
      (rest : Spaced encoding values words) : Spaced encoding (value ++ values) (word ++ words)
  | space {b value word values words : CText} (white : White b) (apart : b ≠ [])
      (spells : Spells encoding Breaks value word)
      (rest : Spaced encoding values words) :
      Spaced encoding (' ' :: value ++ values) (b ++ word ++ words)

section Reading
variable {encoding : Encoding} {value word values words b rest : CText} {n : Nat} {c : Char}

theorem stringEqual_single (c d : Char) (p : CText) :
    stringEqual (c :: p) [d] false = true ↔ c = d := by
  have single : [d].isPrefixOf (c :: p) = (d == c) := by simp [List.isPrefixOf]
  simp only [stringEqual, single, ne_eq, reduceCtorEq, not_false_eq_true, decide_true, Bool.true_and,
    Bool.false_eq_true, if_false, beq_iff_eq]
  exact eq_comm

theorem readKept_spelling {q : Char} (spelling : Spelling encoding (· = q) values words)
    (fuel : words.length < n) (rest : CText) :
    readKept encoding [q] n (words ++ q :: rest) = .ok (values, some (q :: rest)) := by
  induction spelling generalizing n with
  | nil =>
    obtain ⟨n, rfl⟩ := Nat.exists_eq_succ_of_ne_zero (Nat.ne_of_gt fuel)
    rw [List.nil_append, readKept, if_pos ((stringEqual_single q q rest).mpr rfl)]
  | @cons value word values words spells later ih =>
    obtain ⟨n, rfl⟩ := Nat.exists_eq_succ_of_ne_zero (Nat.ne_zero_of_lt fuel)
    obtain ⟨c, word, rfl⟩ := List.exists_cons_of_ne_nil spells.nonempty
    have other : ¬ stringEqual (c :: (word ++ (words ++ q :: rest))) [q] false = true := fun stops =>
      spells.first c rfl ((stringEqual_single c q _).mp stops)
    have next := spells.read (words ++ q :: rest)
    simp only [List.length_append, List.length_cons] at fuel
    rw [List.cons_append] at next
    have later := ih (show words.length < n by omega)
    rw [List.append_assoc, List.cons_append, readKept, if_neg other, next]
    simp only [bind, Except.bind, later]
    rfl

theorem white_other (white : isWhiteSpace c = true) : c ≠ '<' := by
  rintro rfl
  cases white

theorem readCondensed_white (white : White b) (whitespace : Bool) (rest : CText) :
    readCondensed encoding ['<'] (b.length + n) whitespace (b ++ rest) =
      readCondensed encoding ['<'] n (whitespace || !b.isEmpty) rest := by
  induction b generalizing whitespace with
  | nil => simp
  | cons c b ih =>
    obtain ⟨first, later⟩ := white_cons.mp white
    have other : ¬ stringEqual (c :: (b ++ rest)) ['<'] false = true := fun stops =>
      white_other first ((stringEqual_single c '<' _).mp stops)
    have length : (c :: b).length + n = b.length + n + 1 := by
      rw [List.length_cons]
      omega
    rw [length, List.cons_append, readCondensed, if_neg other, if_pos first, ih later]
    simp

theorem readCondensed_word (spells : Spells encoding Breaks value word)
    (whitespace : Bool) (rest : CText) :
    readCondensed encoding ['<'] (n + 1) whitespace (word ++ rest) = (do
      let (text, stop) ← readCondensed encoding ['<'] n false rest
      return ((if whitespace then [' '] else []) ++ value ++ text, stop)) := by
  obtain ⟨c, word, rfl⟩ := List.exists_cons_of_ne_nil spells.nonempty
  have plain := not_or.mp (spells.first c rfl)
  have other : ¬ stringEqual (c :: (word ++ rest)) ['<'] false = true := fun stops =>
    plain.1 ((stringEqual_single c '<' _).mp stops)
  have next := spells.read rest
  rw [List.cons_append] at next
  rw [List.cons_append, readCondensed, if_neg other, if_neg plain.2, next]
  rfl

/-- Where running text ends. -/
def Stops (s : CText) : Prop := s = [] ∨ s.head? = some '<'

theorem readCondensed_end (whitespace : Bool) (stops : Stops rest) (fuel : rest.length ≤ n) :
    readCondensed encoding ['<'] n whitespace rest = .ok ([], some rest) := by
  rcases stops with rfl | first
  · cases n with
    | zero => rfl
    | succ n => rfl
  · obtain ⟨rest, rfl⟩ := List.head?_eq_some_iff.mp first
    obtain ⟨n, rfl⟩ := Nat.exists_eq_succ_of_ne_zero (Nat.ne_zero_of_lt fuel)
    rw [readCondensed, if_pos ((stringEqual_single '<' '<' rest).mpr rfl)]

theorem readCondensed_spaced {after : CText} (spaced : Spaced encoding values words)
    (white : White after)
    (stops : Stops rest) (fuel : words.length + after.length + rest.length ≤ n) :
    readCondensed encoding ['<'] n false (words ++ (after ++ rest)) = .ok (values, some rest) := by
  induction spaced generalizing n with
  | nil =>
    obtain ⟨m, rfl⟩ := Nat.exists_eq_add_of_le fuel
    have length : ([] : CText).length + after.length + rest.length + m =
        after.length + (rest.length + m) := by
      simp
      omega
    rw [length, List.nil_append, readCondensed_white white,
      readCondensed_end _ stops (Nat.le_add_right _ _)]
  | @word value word values words spells later ih =>
    have some_char : 0 < word.length := List.length_pos_iff.mpr spells.nonempty
    rw [List.length_append] at fuel
    obtain ⟨n, rfl⟩ := Nat.exists_eq_succ_of_ne_zero (show n ≠ 0 by omega)
    rw [List.append_assoc, readCondensed_word spells, ih (by omega)]
    rfl
  | @space b value word values words white' apart spells later ih =>
    have some_char : 0 < word.length := List.length_pos_iff.mpr spells.nonempty
    rw [List.length_append, List.length_append] at fuel
    obtain ⟨m, rfl⟩ := Nat.exists_eq_add_of_le (show b.length + 1 ≤ n by omega)
    have length : b.length + 1 + m = b.length + (m + 1) := by omega
    have seen : (!b.isEmpty) = true := by simpa using apart
    rw [length, List.append_assoc, List.append_assoc, readCondensed_white white',
      readCondensed_word spells, ih (by omega), seen]
    rfl

end Reading

/-- The text is made of whole characters of the encoding. -/
inductive Whole (encoding : Encoding) : CText → Prop
  | nil : Whole encoding []
  | cons {c : Char} {trails rest : CText} (length : trails.length + 1 = charLength encoding c)
      (high : ∀ d ∈ trails, 128 ≤ d.toNat) (later : Whole encoding rest) :
        Whole encoding (c :: trails ++ rest)

theorem charLength_low {encoding : Encoding} {c : Char} (low : c.toNat < 0xc2) :
    charLength encoding c = 1 := by
  rw [charLength, utf8ByteTable, if_pos low, ite_self]

theorem whole_single {encoding : Encoding} {s : CText} (single : ∀ c ∈ s, charLength encoding c = 1) :
    Whole encoding s := by
  induction s with
  | nil => exact .nil
  | cons c s ih =>
    obtain ⟨first, later⟩ := List.forall_mem_cons.mp single
    have length : ([] : CText).length + 1 = charLength encoding c := first.symm
    exact .cons length (List.forall_mem_nil _) (ih later)

theorem whole_other {encoding : Encoding} (other : encoding ≠ .utf8) (s : CText) : Whole encoding s :=
  whole_single fun c _ => by rw [charLength, if_neg other]

/-- What EncodeString takes for the start of a hexadecimal reference. -/
def refStart : CText := ['&', '#', 'x']

/-- No space stands at an end of the text or beside another, where space says what stands
before it. -/
def condensedFrom : Bool → CText → Bool
  | space, [] => !space
  | space, c :: s => if c = ' ' then !space && condensedFrom true s else condensedFrom false s

section Encoding
variable {encoding : Encoding} {c : Char} {s v : CText} {stop : Char → Prop}

theorem encodeString_flatMap (plain : ¬ refStart <:+: v) : encodeString v = v.flatMap encodeChar := by
  unfold encodeString
  induction v with
  | nil => rfl
  | cons c s ih =>
    rw [List.infix_cons_iff, not_or] at plain
    have noRef : ¬ (s ≠ [] ∧ (false = true ∨ c = '&' ∧ ['#', 'x'].isPrefixOf s = true)) := by
      rintro ⟨-, impossible | ⟨rfl, starts⟩⟩
      · cases impossible
      · exact plain.1 (List.prefix_cons_inj _ |>.mpr (List.isPrefixOf_iff_prefix.mp starts))
    rw [encodeFrom, if_neg noRef, ih plain.2, List.flatMap_cons]

theorem encodeChar_high (high : 128 ≤ c.toNat) : encodeChar c = [c] := by
  have other : ∀ d : Char, d.toNat < 128 → c ≠ d := by
    rintro d low rfl
    exact absurd low (Nat.not_lt.mpr high)
  rw [encodeChar, if_neg (other '&' (by decide)), if_neg (other '<' (by decide)),
    if_neg (other '>' (by decide)), if_neg (other '"' (by decide)), if_neg (other '\'' (by decide)),
    if_neg (by omega)]

theorem flatMap_high (high : ∀ d ∈ s, 128 ≤ d.toNat) : s.flatMap encodeChar = s := by
  induction s with
  | nil => rfl
  | cons d s ih =>
    obtain ⟨first, later⟩ := List.forall_mem_cons.mp high
    rw [List.flatMap_cons, encodeChar_high first, ih later, List.singleton_append]

theorem encodeChar_cases (c : Char) :
    encodeChar c = [c] ∧ c ≠ '&' ∧ c ≠ '<' ∧ c ≠ '>' ∧ c ≠ '"' ∧ c ≠ '\'' ∧ 32 ≤ c.toNat ∨
      ∃ word, encodeChar c = '&' :: word := by
  unfold encodeChar
  split
  · exact .inr ⟨_, rfl⟩
  split
  · exact .inr ⟨_, rfl⟩
  split
  · exact .inr ⟨_, rfl⟩
  split
  · exact .inr ⟨_, rfl⟩
  split
  · exact .inr ⟨_, rfl⟩
  split
  · exact .inr ⟨_, rfl⟩
  · rename_i amp lt gt quot apos control
    exact .inl ⟨rfl, amp, lt, gt, quot, apos, Nat.not_lt.mp control⟩

theorem getChar_amp (s : CText) :
    getChar encoding ('&' :: s) = .ok (getEntity encoding ('&' :: s)) := by
  rw [getChar, if_pos (charLength_low (by decide)), if_pos rfl]

theorem hexUpper_number : ∀ n < 32, hexNumber [hexUpper (n / 16), hexUpper (n % 16)] =
    some n := by decide

theorem ucsValue_low (low : c.toNat < 0x80) : ucsValue encoding c.toNat = [c] := by
  have same : byte c.toNat = c := by
    rw [byte, Nat.mod_eq_of_lt (Nat.lt_trans low (by decide)), Char.ofNat_toNat]
  unfold ucsValue convertUTF32ToUTF8
  rw [if_pos low, same, ite_self]

theorem getChar_encodeChar (single : charLength encoding c = 1) (rest : CText) :
    getChar encoding (encodeChar c ++ rest) = .ok ([c], some rest) := by
  unfold encodeChar
  split
  · rename_i amp
    rw [amp, List.cons_append, getChar_amp]
    rfl
  split
  · rename_i lt
    rw [lt, List.cons_append, getChar_amp]
    rfl
  split
  · rename_i gt
    rw [gt, List.cons_append, getChar_amp]
    rfl
  split
  · rename_i quot
    rw [quot, List.cons_append, getChar_amp]
    rfl
  split
  · rename_i apos
    rw [apos, List.cons_append, getChar_amp]
    rfl
  split
  · rename_i control
    have whole : c.toNat % 4294967296 = c.toNat := Nat.mod_eq_of_lt (Nat.lt_trans control (by decide))
    rw [List.cons_append, getChar_amp]
    refine congrArg Except.ok ((getEntity_hex (hexUpper_number c.toNat control) rest).trans ?_)
    rw [whole, ucsValue_low (Nat.lt_trans control (by decide))]
  · rename_i amp _ _ _ _ _
    rw [List.singleton_append, getChar, if_pos single, if_neg amp]

theorem charLength_high (several : charLength encoding c ≠ 1) : 128 ≤ c.toNat := by
  apply Nat.le_of_not_lt
  intro low
  exact several (charLength_low (Nat.lt_trans low (by decide)))

theorem spells_encoded {trails : CText} (length : trails.length + 1 = charLength encoding c)
    (high : ∀ d ∈ trails, 128 ≤ d.toNat) (noAmp : ¬ stop '&')
    (noStop : c ≠ '<' → c ≠ '"' → c ≠ '\'' → 32 ≤ c.toNat → ¬ stop c) :
    Spells encoding stop (c :: trails) ((c :: trails).flatMap encodeChar) := by
  have first : ∀ d, (encodeChar c).head? = some d → ¬ stop d := by
    intro d head
    rcases encodeChar_cases c with ⟨same, _, lt, _, quot, apos, control⟩ | ⟨word, same⟩
    · rw [same] at head
      obtain rfl : c = d := Option.some.inj head
      exact noStop lt quot apos control
    · rw [same] at head
      obtain rfl : '&' = d := Option.some.inj head
      exact noAmp
  have nonempty : encodeChar c ≠ [] := by
    rcases encodeChar_cases c with ⟨same, _⟩ | ⟨word, same⟩
    · rw [same]
      exact List.cons_ne_nil _ _
    · rw [same]
      exact List.cons_ne_nil _ _
  rw [List.flatMap_cons, flatMap_high high]
  by_cases single : charLength encoding c = 1
  · obtain rfl : trails = [] := List.length_eq_zero_iff.mp (by omega)
    rw [List.append_nil]
    exact ⟨getChar_encodeChar single, first, nonempty⟩
  · rw [encodeChar_high (charLength_high single), List.singleton_append] at *
    refine ⟨fun rest => ?_, first, List.cons_ne_nil _ _⟩
    have enough : ¬ (c :: (trails ++ rest)).length < charLength encoding c := by
      simp only [List.length_cons, List.length_append]
      omega
    rw [List.cons_append, getChar, if_neg single, if_neg enough, ← length, List.take_succ_cons,
      List.drop_succ_cons, List.take_left, List.drop_left]

theorem spelling_encoded (whole : Whole encoding v) (noAmp : ¬ stop '&')
    (noStop : ∀ c, c ≠ '<' → c ≠ '"' → c ≠ '\'' → 32 ≤ c.toNat → ¬ stop c) :
    Spelling encoding stop v (v.flatMap encodeChar) := by
  induction whole with
  | nil => exact .nil
  | cons length high later ih =>
    rw [List.flatMap_append]
    exact .cons (spells_encoded length high noAmp (noStop _)) ih

theorem not_breaks (space : c ≠ ' ') (lt : c ≠ '<') (control : 32 ≤ c.toNat) : ¬ Breaks c := by
  rintro (same | white)
  · exact lt same
  · simp only [isWhiteSpace, CText.isSpace, decide_eq_true_eq, List.mem_cons, List.not_mem_nil,
      or_false] at white
    rcases white with rfl | rfl | rfl | rfl | rfl | rfl
    · exact space rfl
    all_goals exact absurd control (by decide)

theorem condensedFrom_high {trails : CText} (high : ∀ d ∈ trails, 128 ≤ d.toNat) (s : CText) :
    condensedFrom false (trails ++ s) = condensedFrom false s := by
  induction trails with
  | nil => rfl
  | cons d trails ih =>
    obtain ⟨first, later⟩ := List.forall_mem_cons.mp high
    have other : d ≠ ' ' := by
      rintro rfl
      exact absurd first (by decide)
    rw [List.cons_append, condensedFrom, if_neg other, ih later]

theorem spaced_encoded (whole : Whole encoding v) :
    (condensedFrom false v = true → Spaced encoding v (v.flatMap encodeChar)) ∧
      (condensedFrom true v = true → Spaced encoding (' ' :: v) (' ' :: v.flatMap encodeChar)) := by
  induction whole with
  | nil => exact ⟨fun _ => .nil, fun impossible => by cases impossible⟩
  | @cons c trails rest length high later ih =>
    by_cases space : c = ' '
    · subst space
      obtain rfl : trails = [] := by
        rw [charLength_low (by decide)] at length
        exact List.length_eq_zero_iff.mp (by omega)
      refine ⟨fun condensed => ih.2 condensed, fun impossible => ?_⟩
      cases impossible
    · have start : ¬ Breaks '&' := by
        rintro (same | white)
        · cases same
        · cases white
      have spells := spells_encoded length high start
        (fun lt _ _ control => not_breaks space lt control)
      have behind : ∀ before, condensedFrom before
          (c :: trails ++ rest) = condensedFrom false rest := by
        intro before
        rw [List.cons_append, condensedFrom, if_neg space, condensedFrom_high high]
      simp only [behind, List.flatMap_append]
      refine ⟨fun condensed => .word spells (ih.1 condensed), fun condensed => ?_⟩
      have white : White [' '] := white_cons.mpr ⟨rfl, White.nil⟩
      exact .space white (List.cons_ne_nil _ _) spells (ih.1 condensed)

end Encoding

end DevAccess.TinyXml
