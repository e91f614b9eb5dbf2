import DevAccess.Foundation.Literals
import DevAccess.Mes.DbHelper

/-! The statement of InsertData as SQL reads it. The texts stand between its quotes as they
are. -/
namespace DevAccess.Mes
open Foundation Literals

def quote : Char := '\x27'

section Parts
variable (gbkToUTF8 : CText → CText) (now : Tm) (key val : CText)

def statementParts : List (CText × CText) :=
  [("INSERT INTO TB_DEVICECJJL  VALUES (RAWTOHEX(sys_guid()), NULL, NULL, NULL, sysdate, ".toList ++
      "NULL, NULL, NULL, NULL, NULL, NULL, ".toList, []),
    (", NULL, NULL,".toList, gbkToUTF8 key), (" ,".toList, gbkToUTF8 val),
    (",NULL,".toList, gbkToUTF8 "万家乐_顺德".toList), (" ,NULL,".toList, gbkToUTF8 "灶具车间".toList),
    (" ,NULL,".toList, gbkToUTF8 "灶具".toList), (" ,".toList, now.clock)]

/-- The statement that is meant, token by token. -/
def meant : List (Token Char) := tokens (statementParts gbkToUTF8 now key val) " );".toList

theorem insertSql_render :
    insertSql gbkToUTF8 now key val = render quote (statementParts gbkToUTF8 now key val) " );".toList := by
  have opening : "'".toList = [quote] := by decide
  have empty : "'', NULL, NULL,".toList = quote :: quote :: ", NULL, NULL,".toList := by decide
  have closing : "' ,".toList = quote :: " ,".toList := by decide
  have closing' : "',".toList = quote :: ",".toList := by decide
  have ending : "' );".toList = quote :: " );".toList := by decide
  have joined : " ,NULL,".toList = " ,".toList ++ "NULL,".toList := by decide
  have joined' : ",NULL,".toList = ",".toList ++ "NULL,".toList := by decide
  unfold insertSql statementParts
  simp only [render, opening, empty, closing, closing', ending, joined, joined',
    List.append_assoc, List.cons_append, List.nil_append]

theorem statement_separated : Separated quote (statementParts gbkToUTF8 now key val) " );".toList where
  plain := by
    simp only [statementParts, List.forall_mem_cons]
    decide
  apart := by
    simp only [statementParts, List.forall_mem_cons]
    decide
  ending := by decide

end Parts

/-- The ASCII characters of a text stay, in their order, and no others are made. -/
def LeavesAscii (f : CText → CText) : Prop :=
  ∀ s, (f s).filter (fun c => c.toNat < 128) = s.filter (fun c => c.toNat < 128)

theorem LeavesAscii.quote_mem {f : CText → CText} (ascii : LeavesAscii f) (s : CText) :
    quote ∈ f s ↔ quote ∈ s := by
  have same : quote ∈ (f s).filter (fun c => c.toNat < 128) ↔ quote ∈ s.filter (fun c => c.toNat < 128) := by
    rw [ascii s]
  simpa [List.mem_filter, quote] using same

theorem clock_plain (now : Tm) : quote ∉ now.clock := by
  have plain (w n : Nat) : quote ∉ CText.padded w n := fun member =>
    absurd (CText.padded_isDigit _ member) (by decide)
  have year (n : Nat) : quote ∉ CText.decimal n := fun member =>
    absurd (CText.decimal_isDigit _ member) (by decide)
  have other (c : Char) (different : c ≠ quote) (s : CText) : quote ∈ c :: s ↔ quote ∈ s := by
    simp [different.symm]
  simp only [Tm.clock, List.mem_append, other '-' (by decide), other ' ' (by decide),
    other ':' (by decide), plain, year, or_self, not_false_eq_true]

/-- SQL reads the statement of InsertData as the one that is meant, with the key and the
value as its literals, if and only if there is an apostrophe in neither. -/
theorem statement_read_iff {gbkToUTF8 : CText → CText} (ascii : LeavesAscii gbkToUTF8) (now : Tm)
    (key val : CText) :
    scan quote .code (insertSql gbkToUTF8 now key val) = some (meant gbkToUTF8 now key val) ↔
      quote ∉ key ∧ quote ∉ val := by
  have factory : quote ∉ gbkToUTF8 "万家乐_顺德".toList := (ascii.quote_mem _).not.mpr (by decide)
  have workshop : quote ∉ gbkToUTF8 "灶具车间".toList := (ascii.quote_mem _).not.mpr (by decide)
  have line : quote ∉ gbkToUTF8 "灶具".toList := (ascii.quote_mem _).not.mpr (by decide)
  have time := clock_plain now
  rw [insertSql_render, meant, scan_render_iff (statement_separated gbkToUTF8 now key val),
    ← ascii.quote_mem key, ← ascii.quote_mem val]
  simp only [statementParts, List.forall_mem_cons, List.not_mem_nil, factory, workshop, line, time,
    not_false_eq_true, true_and, false_implies, implies_true, and_true]

theorem statement_read_plain :
    scan quote .code (insertSql id ⟨124, 0, 1, 0, 0, 0⟩ "key".toList "1".toList) =
        some (meant id ⟨124, 0, 1, 0, 0, 0⟩ "key".toList "1".toList) ↔
      quote ∉ "key".toList ∧ quote ∉ "1".toList :=
  statement_read_iff (fun _ => rfl) ⟨124, 0, 1, 0, 0, 0⟩ "key".toList "1".toList

/-- A value with an apostrophe ends its literal early, and the rest of it becomes code. -/
theorem apostrophe_breaks_out :
    scan quote .code (insertSql id ⟨124, 0, 1, 0, 0, 0⟩ "key".toList "O'K".toList) ≠
      some (meant id ⟨124, 0, 1, 0, 0, 0⟩ "key".toList "O'K".toList) := by
  intro read
  rw [insertSql_render, meant, scan_render_iff (statement_separated ..)] at read
  simp only [statementParts, List.forall_mem_cons] at read
  obtain ⟨-, -, value, -⟩ := read
  exact value (by decide)

end DevAccess.Mes
