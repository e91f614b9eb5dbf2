import DevAccess.TinyXml.Written

/-! Values that are written with characters and references in any mix. In a document that is
in UTF-8 they are read as the bytes of their characters, in others as the low bytes. -/
namespace DevAccess.TinyXml
open Foundation Xml

def encodedChar (encoding : Encoding) (c : Char) : CText :=
  if encoding = .utf8 then utf8Bytes c else [byte c.toNat]

/-- A text of legal characters, each written as it is in the encoding or as a reference to it. -/
inductive Wording (encoding : Encoding) (stop : Char → Prop) : List Char → CText → Prop
  | nil : Wording encoding stop [] []
  | char {c : Char} {s w : CText} (plain : c ≠ '&' ∧ ¬ stop c) (legal : xmlChar c = true)
      (single : encoding ≠ .utf8 → c.toNat < 256) (rest : Wording encoding stop s w) :
      Wording encoding stop (c :: s) (encodedChar encoding c ++ w)
  | reference {c : Char} {r s w : CText} (stands : Reference c r) (legal : xmlChar c = true)
      (rest : Wording encoding stop s w) : Wording encoding stop (c :: s) ('&' :: r ++ ';' :: w)

section Reading
variable {encoding : Encoding} {stop : Char → Prop} {c : Char} {s w : CText}

theorem ucsValue_char (c : Char) : ucsValue encoding c.toNat = encodedChar encoding c := by
  rw [ucsValue, encodedChar, convert_char]

theorem byte_toNat {n : Nat} (small : n < 256) : (byte n).toNat = n := by
  have valid : n.isValidChar := .inl (Nat.lt_trans small (by decide))
  rw [byte, Nat.mod_eq_of_lt small, Char.ofNat, dif_pos valid]
  rfl

theorem byte_char (small : c.toNat < 256) : byte c.toNat = c := by
  rw [byte, Nat.mod_eq_of_lt small, Char.ofNat_toNat]

theorem toNat_lt (c : Char) : c.toNat < 0x110000 := by
  rcases c.valid with low | ⟨_, high⟩
  · exact Nat.lt_trans low (by decide)
  · exact high

theorem utf8Bytes_lead (c : Char) : ∃ lead trails, utf8Bytes c = lead :: trails ∧
    utf8ByteTable lead.toNat = trails.length + 1 ∧
        (c.toNat < 0x80 ∧ lead = c ∨ 0x80 ≤ lead.toNat) := by
  have inside := toNat_lt c
  have lead_of (n k : Nat) (small : n < 256) (same : utf8ByteTable n = k) :
      utf8ByteTable (byte n).toNat = k := (byte_toNat small).symm ▸ same
  rw [← convert_char, convertUTF32ToUTF8]
  by_cases one : c.toNat < 0x80
  · rw [if_pos one, byte_char (by omega)]
    refine ⟨c, [], rfl, ?_, .inl ⟨one, rfl⟩⟩
    rw [utf8ByteTable, if_pos (by omega)]
    rfl
  by_cases two : c.toNat < 0x800
  · have high : c.toNat >>> 6 < 2 ^ 5 := by rw [Nat.shiftRight_eq_div_pow]; omega
    have low : 2 ≤ c.toNat >>> 6 := by rw [Nat.shiftRight_eq_div_pow]; omega
    rw [if_neg one, if_pos two, first_eq 0xc0 _ 5 6 high rfl]
    refine ⟨_, _, rfl, lead_of _ _ (by omega) ?_, .inr (by rw [byte_toNat (by omega)]; omega)⟩
    rw [utf8ByteTable, if_neg (by omega), if_pos (by omega)]
    rfl
  by_cases three : c.toNat < 0x10000
  · have high : c.toNat >>> 12 < 2 ^ 4 := by rw [Nat.shiftRight_eq_div_pow]; omega
    rw [if_neg one, if_neg two, if_pos three, first_eq 0xe0 _ 4 14 high rfl]
    refine ⟨_, _, rfl, lead_of _ _ (by omega) ?_, .inr (by rw [byte_toNat (by omega)]; omega)⟩
    rw [utf8ByteTable, if_neg (by omega), if_neg (by omega), if_pos (by omega)]
    rfl
  · have high : c.toNat >>> 18 < 5 := by rw [Nat.shiftRight_eq_div_pow]; omega
    rw [if_neg one, if_neg two, if_neg three, if_pos (by omega), first_eq 0xf0 _ 3 30 (by omega) rfl]
    refine ⟨_, _, rfl, lead_of _ _ (by omega) ?_, .inr (by rw [byte_toNat (by omega)]; omega)⟩
    rw [utf8ByteTable, if_neg (by omega), if_neg (by omega), if_neg (by omega), if_pos (by omega)]
    rfl

theorem spells_char (plain : c ≠ '&' ∧ ¬ stop c) (ascii : ∀ d, stop d → d.toNat < 0x80)
    (single : encoding ≠ .utf8 → c.toNat < 256) :
    Spells encoding stop (encodedChar encoding c) (encodedChar encoding c) := by
  by_cases utf8 : encoding = .utf8
  · obtain ⟨lead, trails, bytes, length, first⟩ := utf8Bytes_lead c
    have measured : charLength encoding lead =
      trails.length + 1 := by rw [charLength, if_pos utf8, length]
    rw [encodedChar, if_pos utf8, bytes]
    refine ⟨fun rest => ?_, ?_, List.cons_ne_nil _ _⟩
    · rw [List.cons_append, getChar, measured]
      cases trails with
      | nil =>
        have one : ([] : CText).length + 1 = 1 := rfl
        rw [if_pos one, if_neg]
        · rfl
        · rintro rfl
          rcases first with ⟨-, same⟩ | high
          · exact plain.1 same.symm
          · exact absurd high (by decide)
      | cons d trails =>
        have several : ¬ (d :: trails).length + 1 = 1 := by simp
        have enough : ¬ (lead :: (d :: trails ++ rest)).length < (d :: trails).length + 1 := by
          simp only [List.length_cons, List.length_append]
          omega
        rw [if_neg several, if_neg enough, List.take_succ_cons, List.drop_succ_cons, List.take_left,
          List.drop_left]
    · rintro d same stops
      obtain rfl : lead = d := Option.some.inj same
      rcases first with ⟨-, rfl⟩ | high
      · exact plain.2 stops
      · exact absurd (ascii _ stops) (Nat.not_lt.mpr high)
  · rw [encodedChar, if_neg utf8, byte_char (single utf8)]
    refine ⟨fun rest => ?_, ?_, List.cons_ne_nil _ _⟩
    · rw [List.singleton_append, getChar, charLength, if_neg utf8, if_pos rfl, if_neg plain.1]
    · rintro d same stops
      obtain rfl : c = d := Option.some.inj same
      exact plain.2 stops

theorem spells_reference {r : CText} (stands : Reference c r) (legal : xmlChar c = true)
    (noAmp : ¬ stop '&') :
    Spells encoding stop (encodedChar encoding c) ('&' :: r ++ [';']) := by
  refine ⟨fun rest => ?_, ?_, List.cons_ne_nil _ _⟩
  · have read : getEntity encoding ('&' :: r ++ ';' :: rest) =
      (ucsValue encoding c.toNat, some rest) :=
      getEntity_reference stands legal rest
    rw [List.append_assoc, List.singleton_append]
    rw [List.cons_append] at read ⊢
    rw [getChar_amp, read, ucsValue_char]
  · rintro d same stops
    obtain rfl : '&' = d := Option.some.inj same
    exact noAmp stops

theorem wording_spelling (wording : Wording encoding stop s w) (noAmp : ¬ stop '&')
    (ascii : ∀ d, stop d → d.toNat < 0x80) :
    Spelling encoding stop (s.flatMap (encodedChar encoding)) w := by
  induction wording with
  | nil => exact .nil
  | char plain legal single rest ih => exact .cons (spells_char plain ascii single) ih
  | reference stands legal rest ih =>
    have step := Spelling.cons (spells_reference stands legal noAmp) ih
    rw [List.append_assoc, List.singleton_append] at step
    exact step

/-- An attribute is read as its characters, whichever of them are written as references. -/
theorem attribute_worded {name e f : CText} {quote : Char} (named : ValidName encoding name)
    (equals : White e ∧ White f)
    (quoted : quote = '"' ∨ quote = '\'') (wording : Wording encoding (· = quote) s w)
    (rest : CText) :
    attributeParse encoding (name ++ (e ++ '=' :: (f ++ quote :: (w ++ quote :: rest)))) =
      .ok ⟨⟨name, s.flatMap (encodedChar encoding)⟩, some rest, none⟩ := by
  have ascii : ∀ d, d = quote → d.toNat < 0x80 := by
    rcases quoted with rfl | rfl
    all_goals
      rintro d rfl
      decide
  have noAmp : '&' ≠ quote := by
    rcases quoted with rfl | rfl
    all_goals decide
  exact attributeParse_written named equals quoted (wording_spelling wording noAmp ascii) rest

theorem attribute_accented : attributeParse .utf8
    (['a'] ++ ([] ++ '=' :: ([] ++
      '"' :: ((['\xc3', '\xa9'] ++ ('&' :: '#' :: 'x' :: ['e', '9'] ++ ';' :: [])) ++
        '"' :: ['>'])))) =
      .ok ⟨⟨['a'], ['\xc3', '\xa9', '\xc3', '\xa9']⟩, some ['>'], none⟩ := by
  have named : ValidName .utf8 ['a'] :=
    ⟨by decide, List.forall_mem_singleton.mpr (by decide), fun mark => by cases mark.2⟩
  have bytes : encodedChar .utf8 '\xe9' = ['\xc3', '\xa9'] := by decide
  have letter : Reference '\xe9' ['#', 'x', 'e', '9'] :=
    .hexadecimal (n := 233) (List.cons_ne_nil _ _) (by decide)
  have wording : Wording .utf8 (· = '"') ['\xe9', '\xe9']
      (encodedChar .utf8 '\xe9' ++ ('&' :: '#' :: 'x' :: ['e', '9'] ++ ';' :: [])) :=
    .char (by decide) (by decide) (fun other => absurd rfl other) (.reference letter (by decide) .nil)
  have read := attribute_worded named ⟨White.nil, White.nil⟩ (.inl rfl) wording ['>']
  rw [bytes] at read
  exact read

end Reading

end DevAccess.TinyXml
