import DevAccess.Foundation.CString
import Mathlib.Data.List.DropRight

/-! StrTrim, in its two versions: on a char array and on a string object. Positions and
lengths are natural numbers here, though ints in the source: no string of a 32-bit build has
2^31 characters. In the C locale nothing beyond ASCII is white space. -/
namespace DevAccess.StrUtilty
open Foundation CText

def trimStart : CText → Nat
  | [] => 0
  | c :: rest => if isSpace c then trimStart rest + 1 else 0

def trimEnd (s : CText) (iStart : Nat) : Nat → Nat
  | 0 => 0
  | iEnd + 1 =>
    if iStart < iEnd + 1 ∧ isSpace (s.getD iEnd '\x00') then trimEnd s iStart iEnd else iEnd + 1

/-- StrTrim on the cells of an array, with the zero that ends the text and what is behind it. An
empty text, which is left at once, is one whose loops have nothing to do. -/
def strTrimArray (pData : Option CText) (iLen : Int) : Option CText × Bool :=
  match pData with
  | none => (none, false)
  | some cells =>
    let iLen := if iLen = 0 then (c_str cells).length else iLen.toNat
    let iStart := trimStart (cells.take iLen)
    let iEnd := trimEnd cells iStart iLen
    let iCharLen := iEnd - iStart
    if iCharLen > 0 ∧ iCharLen ≠ iLen then
      (some ((cells.take iEnd).drop iStart ++ '\x00' :: cells.drop (iCharLen + 1)), true)
    else (some cells, false)

/-- StrTrim on a string object. The string that substr makes is dropped. -/
def strTrim (strData : CText) : CText × Bool :=
  let iStart := trimStart strData
  let iEnd := trimEnd strData iStart strData.length
  if iStart ≠ 0 ∨ iEnd ≠ strData.length then (strData, true) else (strData, false)

/-- The text without the white space at its ends. -/
def trimmed (s : CText) : CText := (s.dropWhile isSpace).rdropWhile isSpace

/-- What was to be trimmed has been, and it is told whether that made a difference. -/
structure Trims (before after : CText) (changed : Bool) : Prop where
  text : after = trimmed before
  told : changed = true ↔ after ≠ before

def ArrayTrims (s behind : CText) : Prop :=
  ∃ cells changed, strTrimArray (some (s ++ '\x00' :: behind)) 0 = (some cells, changed) ∧
    Trims s (c_str cells) changed

/-- Both versions leave the same text and return the same. -/
def TrimsAgree (s behind : CText) : Prop :=
  ∃ cells changed, strTrimArray (some (s ++ '\x00' :: behind)) 0 = (some cells, changed) ∧
    (c_str cells, changed) = strTrim s

section Loops
variable {s : CText}

theorem trimStart_le (s : CText) : trimStart s ≤ s.length := by
  induction s with
  | nil => exact Nat.le_refl 0
  | cons c rest ih =>
    rw [trimStart]
    split
    · exact Nat.succ_le_succ ih
    · exact Nat.zero_le _

theorem drop_trimStart (s : CText) : s.drop (trimStart s) = s.dropWhile isSpace := by
  induction s with
  | nil => rfl
  | cons c rest ih =>
    rw [trimStart, List.dropWhile_cons]
    split
    · exact ih
    · rfl

theorem trimEnd_le (s : CText) (iStart iEnd : Nat) : trimEnd s iStart iEnd ≤ iEnd := by
  induction iEnd with
  | zero => exact Nat.le_refl 0
  | succ iEnd ih =>
    rw [trimEnd]
    split
    · exact Nat.le_succ_of_le ih
    · exact Nat.le_refl _

theorem trimEnd_spec {iStart iEnd : Nat} (order : iStart ≤ iEnd) (inside : iEnd ≤ s.length) :
    iStart ≤ trimEnd s iStart iEnd ∧
      (s.take (trimEnd s iStart iEnd)).drop iStart = ((s.take iEnd).drop iStart).rdropWhile isSpace := by
  induction iEnd with
  | zero =>
    rw [Nat.le_zero.mp order]
    exact ⟨Nat.le_refl 0, by simp [trimEnd]⟩
  | succ iEnd ih =>
    have within : iEnd < s.length := inside
    rw [trimEnd]
    rcases Nat.lt_or_eq_of_le order with before | rfl
    · have last : (s.take (iEnd + 1)).drop iStart = (s.take iEnd).drop iStart ++ [s[iEnd]] := by
        rw [List.take_succ_eq_append_getElem within, List.drop_append_of_le_length]
        rw [List.length_take]
        omega
      have cell : s.getD iEnd '\x00' = s[iEnd] := by simp [within]
      rw [last, List.rdropWhile_concat, cell]
      by_cases blank : isSpace s[iEnd] = true
      · rw [if_pos ⟨before, blank⟩, if_pos blank]
        exact ih (Nat.le_of_lt_succ before) (Nat.le_of_lt within)
      · rw [if_neg fun both => blank both.2, if_neg blank]
        exact ⟨order, last⟩
    · rw [if_neg fun both => Nat.lt_irrefl _ both.1]
      exact ⟨Nat.le_refl _, by simp⟩

theorem trimEnd_append {t : CText} {iStart iEnd : Nat} (inside : iEnd ≤ s.length) :
    trimEnd (s ++ t) iStart iEnd = trimEnd s iStart iEnd := by
  induction iEnd with
  | zero => rfl
  | succ iEnd ih =>
    have within : iEnd < s.length := inside
    have cell : (s ++ t).getD iEnd '\x00' = s.getD iEnd '\x00' := by
      rw [List.getD_eq_getElem?_getD, List.getElem?_append_left within, List.getD_eq_getElem?_getD]
    rw [trimEnd, trimEnd, cell, ih (Nat.le_of_lt within)]

theorem trim_window (s : CText) :
    trimStart s ≤ trimEnd s (trimStart s) s.length ∧
      (s.take (trimEnd s (trimStart s) s.length)).drop (trimStart s) = trimmed s := by
  obtain ⟨order, window⟩ := trimEnd_spec (trimStart_le s) (Nat.le_refl _)
  rw [List.take_length, drop_trimStart] at window
  exact ⟨order, window⟩

theorem trimmed_length (s : CText) :
    (trimmed s).length = trimEnd s (trimStart s) s.length - trimStart s := by
  rw [← (trim_window s).2, List.length_drop, List.length_take,
    Nat.min_eq_left (trimEnd_le s (trimStart s) s.length)]

theorem trimmed_sublist (s : CText) : (trimmed s).Sublist s :=
  (List.rdropWhile_prefix isSpace _).sublist.trans (List.dropWhile_sublist isSpace)

theorem trimmed_eq_iff (s : CText) : trimmed s = s ↔ (trimmed s).length = s.length :=
  ⟨congrArg List.length, (trimmed_sublist s).eq_of_length⟩

end Loops

/-- The string object stays as it is, and what is told is that it has something to trim. -/
theorem strTrim_eq (s : CText) : strTrim s = (s, decide (trimmed s ≠ s)) := by
  have length := trimmed_length s
  have order := (trim_window s).1
  have bound := trimEnd_le s (trimStart s) s.length
  rw [strTrim]
  split
  · rename_i cut
    have other : trimmed s ≠ s := by
      rw [Ne, trimmed_eq_iff]
      omega
    rw [decide_eq_true other]
  · rename_i whole
    have same : trimmed s = s := by
      rw [trimmed_eq_iff]
      omega
    rw [decide_eq_false (not_not_intro same)]

/-- The array is trimmed, but for a text of nothing else than white space. -/
theorem strTrimArray_spec {s : CText} (plain : '\x00' ∉ s) (behind : CText) :
    ∃ cells changed, strTrimArray (some (s ++ '\x00' :: behind)) 0 = (some cells, changed) ∧
      c_str cells = (if trimmed s = [] then s else trimmed s) ∧
      (changed = true ↔ trimmed s ≠ [] ∧ trimmed s ≠ s) := by
  have text : c_str (s ++ '\x00' :: behind) = s := c_str_terminated plain behind
  have front : (s ++ '\x00' :: behind).take s.length = s := List.take_left
  have bound := trimEnd_le s (trimStart s) s.length
  have kept : ((s ++ '\x00' :: behind).take (trimEnd s (trimStart s) s.length)).drop (trimStart s) =
      trimmed s := by rw [List.take_append_of_le_length bound, (trim_window s).2]
  have due : trimmed s ≠ [] ∧ trimmed s ≠ s ↔
      (trimmed s).length > 0 ∧ (trimmed s).length ≠ s.length :=
    and_congr List.length_pos_iff.symm (not_congr (trimmed_eq_iff s))
  simp only [strTrimArray, if_true, text, front, trimEnd_append (Nat.le_refl s.length),
    ← trimmed_length, kept, ← due]
  by_cases cut : trimmed s ≠ [] ∧ trimmed s ≠ s
  · refine ⟨_, _, if_pos cut, ?_, iff_of_true rfl cut⟩
    rw [if_neg cut.1]
    exact c_str_terminated (fun zero => plain ((trimmed_sublist s).subset zero)) _
  · refine ⟨_, _, if_neg cut, ?_, iff_of_false Bool.false_ne_true cut⟩
    rw [text]
    by_cases nothing : trimmed s = []
    · exact (if_pos nothing).symm
    · have same : trimmed s = s := Decidable.byContradiction fun other => cut ⟨nothing, other⟩
      rw [if_neg nothing, same]

/-- The string object is trimmed exactly if there is nothing to trim, and then only do the
versions agree. The array is trimmed unless it has white space and nothing else. -/
theorem trims_iff (s : CText) :
    (Trims s (strTrim s).1 (strTrim s).2 ↔ trimmed s = s) ∧
      ∀ behind, '\x00' ∉ s →
        (ArrayTrims s behind ↔ s = [] ∨ trimmed s ≠ []) ∧ (TrimsAgree s behind ↔ trimmed s = s) := by
  refine ⟨?_, fun behind plain => ?_⟩
  · rw [strTrim_eq]
    constructor
    · exact fun trims => trims.text.symm
    · intro same
      exact ⟨same.symm, by simp [same]⟩
  · obtain ⟨cells, changed, run, text, told⟩ := strTrimArray_spec plain behind
    have array_iff : ArrayTrims s behind ↔ Trims s (c_str cells) changed := by
      constructor
      · rintro ⟨cells', changed', run', trims⟩
        cases run.symm.trans run'
        exact trims
      · exact fun trims => ⟨cells, changed, run, trims⟩
    have agree_iff : TrimsAgree s behind ↔ (c_str cells, changed) = strTrim s := by
      constructor
      · rintro ⟨cells', changed', run', same⟩
        cases run.symm.trans run'
        exact same
      · exact fun same => ⟨cells, changed, run, same⟩
    rw [array_iff, agree_iff, strTrim_eq, Prod.mk.injEq]
    by_cases nothing : trimmed s = []
    · -- a text of white space only, or an empty one
      have still : changed = false := Bool.eq_false_iff.mpr fun yes => (told.mp yes).1 nothing
      rw [if_pos nothing] at text
      rw [text, still, nothing]
      refine ⟨⟨fun trims => .inl (trims.text.trans nothing), ?_⟩, ?_⟩
      · rintro (empty | other)
        · exact ⟨empty.trans nothing.symm, by simp⟩
        · exact absurd rfl other
      · simp
    · have changed_iff : changed = true ↔ trimmed s ≠ s := told.trans (and_iff_right nothing)
      rw [if_neg nothing] at text
      rw [text]
      refine ⟨iff_of_true ⟨rfl, changed_iff⟩ (.inr nothing), and_iff_left_of_imp fun _ => ?_⟩
      rw [Bool.eq_iff_iff, decide_eq_true_iff]
      exact changed_iff

/-- Two texts with nothing at their ends. -/
theorem bare_trims : Trims ['a', ' ', 'b'] (strTrim ['a', ' ', 'b']).1 (strTrim ['a', ' ', 'b']).2 ∧
    TrimsAgree ['a', ' ', 'b'] [] :=
  ⟨(trims_iff ['a', ' ', 'b']).1.mpr rfl,
    ((trims_iff ['a', ' ', 'b']).2 [] (by decide)).2.mpr rfl⟩

/-- A blank in front stays in the string object, and so does the only blank in an array. -/
theorem blank_kept : ¬ Trims [' ', 'a'] (strTrim [' ', 'a']).1 (strTrim [' ', 'a']).2 ∧
    ¬ ArrayTrims [' '] [] ∧ ¬ TrimsAgree [' ', 'a'] [] := by
  refine ⟨fun trims => ?_, ?_, ?_⟩
  · exact absurd trims.text (by decide)
  · rintro ⟨cells, changed, run, trims⟩
    cases run
    exact absurd trims.text (by decide)
  · rintro ⟨cells, changed, run, same⟩
    cases run
    exact absurd same (by decide)

end DevAccess.StrUtilty
