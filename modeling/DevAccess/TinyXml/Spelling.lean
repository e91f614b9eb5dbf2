import DevAccess.TinyXml.Parser

/-! How the words of a document can be written: white space, names, and text in which some
characters stand as they are and others as references. -/
namespace DevAccess.TinyXml
open Foundation Xml

def White (s : CText) : Prop := ∀ c ∈ s, isWhiteSpace c = true

/-- The text starts with something that is not skipped. -/
def Solid (encoding : Encoding) : CText → Prop
  | [] => False
  | c :: s => isWhiteSpace c = false ∧ ¬ (encoding = .utf8 ∧ startsMark (c :: s))

section Blanks
variable {encoding : Encoding} {b s t : CText} {c : Char}

theorem White.nil : White [] := List.forall_mem_nil _

theorem white_cons : White (c :: s) ↔ isWhiteSpace c = true ∧ White s := List.forall_mem_cons

theorem White.append (front : White s) (back : White t) : White (s ++ t) := by
  intro c member
  rcases List.mem_append.mp member with inside | inside
  · exact front c inside
  · exact back c inside

theorem White.flatten {l : List CText} (all : ∀ s ∈ l, White s) : White l.flatten := by
  intro c member
  obtain ⟨s, listed, inside⟩ := List.mem_flatten.mp member
  exact all s listed c inside

theorem startsMark_first (mark : startsMark (c :: s) = true) : c = '\xef' := by
  match s with
  | [] => cases mark
  | [_] => cases mark
  | _ :: _ :: _ =>
    simp only [startsMark, Bool.and_eq_true, decide_eq_true_eq] at mark
    exact mark.1

theorem startsMark_other (other : c ≠ '\xef') : startsMark (c :: s) = false :=
  Bool.eq_false_iff.mpr fun mark => other (startsMark_first mark)

theorem startsMark_append (mark : startsMark s = true) (t : CText) : startsMark (s ++ t) = true := by
  match s with
  | [] => cases mark
  | [_] => cases mark
  | [_, _] => cases mark
  | _ :: _ :: _ :: _ => exact mark

theorem solid_plain (other : c ≠ '\xef') (visible : isWhiteSpace c = false) :
    Solid encoding (c :: s) :=
  ⟨visible, fun mark => absurd mark.2 (by rw [startsMark_other other]; decide)⟩

theorem skipBlanks_white (white : White b) (s : CText) :
    skipBlanks encoding 0 (b ++ s) = skipBlanks encoding 0 s := by
  induction b with
  | nil => rfl
  | cons c b ih =>
    obtain ⟨first, later⟩ := white_cons.mp white
    have other : c ≠ '\xef' := by
      rintro rfl
      cases first
    rw [List.cons_append, skipBlanks, if_neg (by simp [startsMark_other other]), if_pos first]
    exact ih later

theorem skipBlanks_solid (solid : Solid encoding s) : skipBlanks encoding 0 s = s := by
  cases s with
  | nil => cases solid
  | cons c s => rw [skipBlanks, if_neg solid.2, if_neg (by simp [solid.1])]

theorem skipWhiteSpace_solid (white : White b) (solid : Solid encoding s) :
    skipWhiteSpace encoding (some (b ++ s)) = some s := by
  have skipped : skipBlanks encoding 0 (b ++ s) = s :=
    (skipBlanks_white white s).trans (skipBlanks_solid solid)
  cases whole : b ++ s with
  | nil =>
    obtain ⟨rfl, rfl⟩ := List.append_eq_nil_iff.mp whole
    cases solid
  | cons c rest =>
    rw [whole] at skipped
    exact congrArg some skipped

theorem skip_plain (white : White b) (other : c ≠ '\xef') (visible : isWhiteSpace c = false)
    (s : CText) :
    skipWhiteSpace encoding (some (b ++ c :: s)) = some (c :: s) :=
  skipWhiteSpace_solid white (solid_plain other visible)

theorem skipWhiteSpace_end (white : White b) :
    skipWhiteSpace encoding (some b) = none ∨ skipWhiteSpace encoding (some b) = some [] := by
  cases b with
  | nil => exact .inl rfl
  | cons c b =>
    have skipped : skipBlanks encoding 0 (c :: b ++ []) = [] := skipBlanks_white white []
    rw [List.append_nil] at skipped
    exact .inr (congrArg some skipped)

end Blanks

section Names
variable {encoding : Encoding} {name s : CText} {c : Char}

/-- A name as the parser reads one. -/
structure ValidName (encoding : Encoding) (name : CText) : Prop where
  start : name.head?.any nameStart = true
  parts : ∀ c ∈ name, namePart c = true
  noMark : ¬ (encoding = .utf8 ∧ startsMark name = true)

theorem isAlpha_alphaNum (letter : isAlpha c = true) : isAlphaNum c = true := by
  unfold isAlpha at letter
  unfold isAlphaNum
  split
  · rename_i small
    rw [if_pos small] at letter
    simp [Char.isAlphanum, letter]
  · rfl

theorem nameStart_part (start : nameStart c = true) : namePart c = true := by
  simp only [nameStart, Bool.or_eq_true, decide_eq_true_eq] at start
  simp only [namePart, Bool.or_eq_true, decide_eq_true_eq]
  rcases start with letter | line
  · exact .inl (.inl (.inl (.inl (isAlpha_alphaNum letter))))
  · exact .inl (.inl (.inl (.inr line)))

theorem white_not_part (white : isWhiteSpace c = true) : namePart c = false := by
  simp only [isWhiteSpace, CText.isSpace, decide_eq_true_eq, List.mem_cons, List.not_mem_nil,
    or_false] at white
  rcases white with rfl | rfl | rfl | rfl | rfl | rfl
  all_goals decide

theorem part_visible (part : namePart c = true) : isWhiteSpace c = false := by
  cases white : isWhiteSpace c with
  | false => rfl
  | true => rw [white_not_part white] at part; cases part

theorem ValidName.ne_nil (valid : ValidName encoding name) : name ≠ [] := by
  rintro rfl
  cases valid.start

theorem startsMark_name (ends : s.head?.any namePart = false) (mark : startsMark (name ++ s) = true) :
    startsMark name = true ∨ name = [] := by
  match name, s with
  | [], _ => exact .inr rfl
  | [a], [] => cases mark
  | [a], [_] => cases mark
  | [a], b :: c :: _ =>
    simp only [List.cons_append, List.nil_append, startsMark, Bool.and_eq_true, Bool.or_eq_true,
      decide_eq_true_eq] at mark
    rcases mark.2 with ⟨rfl, -⟩ | ⟨rfl, -⟩
    all_goals cases ends
  | [a, b], [] => cases mark
  | [a, b], c :: _ =>
    simp only [List.cons_append, List.nil_append, startsMark, Bool.and_eq_true, Bool.or_eq_true,
      decide_eq_true_eq] at mark
    rcases mark.2 with ⟨-, rfl⟩ | ⟨-, rfl | rfl⟩
    all_goals cases ends
  | _ :: _ :: _ :: _, _ => exact .inl mark

theorem ValidName.solid (valid : ValidName encoding name) (ends : s.head?.any namePart = false) :
    Solid encoding (name ++ s) := by
  obtain ⟨c, rest, rfl⟩ := List.exists_cons_of_ne_nil valid.ne_nil
  refine ⟨part_visible (valid.parts c List.mem_cons_self), ?_⟩
  rintro ⟨utf8, mark⟩
  exact valid.noMark ⟨utf8, (startsMark_name ends mark).resolve_right valid.ne_nil⟩

theorem readName_append (valid : ValidName encoding name) (ends : s.head?.any namePart = false) :
    readName (name ++ s) = some (name, s) := by
  have start : (name ++ s).head?.any nameStart = true := by
    obtain ⟨c, rest, rfl⟩ := List.exists_cons_of_ne_nil valid.ne_nil
    exact valid.start
  have stops : s.takeWhile namePart = [] ∧ s.dropWhile namePart = s := by
    cases s with
    | nil => exact ⟨rfl, rfl⟩
    | cons c s =>
      have other : namePart c = false := ends
      simp [other]
  rw [readName, if_pos start, List.takeWhile_append_of_pos valid.parts,
    List.dropWhile_append_of_pos valid.parts, stops.1, stops.2, List.append_nil]

end Names

end DevAccess.TinyXml
