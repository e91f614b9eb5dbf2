import DevAccess.Mes.DbHelper
import DevAccess.StrUtilty.Split

/-! The connection string of DbHelper, taken apart again. -/
namespace DevAccess.Mes
open Foundation StrUtilty

section Url
variable (usr pwd database dsn : CText)

def settings : StringMap :=
  [("DATABASE".toList, database), ("PWD".toList, pwd), ("UID".toList, usr), ("dsn".toList, dsn)]

def urlParts : List CText :=
  ["UID".toList ++ '=' :: usr, "PWD".toList ++ '=' :: pwd, "DATABASE".toList ++ '=' :: database,
    "dsn".toList ++ '=' :: dsn]

theorem url_joined :
    (DbHelper.new usr pwd database dsn).m_url = [';'].intercalate (urlParts usr pwd database dsn) := by
  have first : "UID=".toList = "UID".toList ++ ['='] := by decide
  have second : ";PWD=".toList = ';' :: "PWD".toList ++ ['='] := by decide
  have third : ";DATABASE=".toList = ';' :: "DATABASE".toList ++ ['='] := by decide
  have fourth : ";dsn=".toList = ';' :: "dsn".toList ++ ['='] := by decide
  unfold DbHelper.new urlParts
  simp only [first, second, third, fourth, List.intercalate, List.intersperse, List.flatten_cons,
    List.flatten_nil, List.append_assoc, List.cons_append, List.nil_append, List.append_nil]

theorem settings_of_parts :
    (urlParts usr pwd database dsn).foldl (splitParam ['=']) [] = settings usr pwd database dsn := by
  simp only [urlParts, List.foldl_cons, List.foldl_nil]
  rw [splitParam_setting (by decide) (by decide), splitParam_setting (by decide) (by decide),
    splitParam_setting (by decide) (by decide), splitParam_setting (by decide) (by decide)]
  rfl

theorem url_nonempty : (DbHelper.new usr pwd database dsn).m_url ≠ [] := by
  have opening : "UID=".toList ≠ [] := by decide
  simp only [DbHelper.new, ne_eq, List.append_eq_nil_iff, opening, false_and, not_false_eq_true]

end Url

theorem settings_plain {usr pwd database dsn : CText}
    (given : (splitParamStr (DbHelper.new usr pwd database dsn).m_url [] [] []).1 =
      settings usr pwd database dsn) :
    ';' ∉ usr ∧ ';' ∉ pwd ∧ ';' ∉ database ∧ ';' ∉ dsn := by
  rw [splitParamStr_default (url_nonempty usr pwd database dsn)] at given
  have plain := foldl_values ['='] (by decide)
    (separator_absent ';' (DbHelper.new usr pwd database dsn).m_url) (List.forall_mem_nil _)
  rw [given] at plain
  simp only [settings, List.forall_mem_cons] at plain
  obtain ⟨database_plain, pwd_plain, usr_plain, dsn_plain, -⟩ := plain
  exact ⟨usr_plain, pwd_plain, database_plain, dsn_plain⟩

/-- Taking the connection string apart gives back the four texts that it was made of, if and
only if none of them contains a semicolon. -/
theorem url_settings_iff (usr pwd database dsn : CText) :
    (splitParamStr (DbHelper.new usr pwd database dsn).m_url [] [] []).1 = settings usr pwd database dsn ↔
      ';' ∉ usr ∧ ';' ∉ pwd ∧ ';' ∉ database ∧ ';' ∉ dsn := by
  refine ⟨settings_plain, ?_⟩
  rintro ⟨usr_plain, pwd_plain, database_plain, dsn_plain⟩
  have kept (name : CText) (h : ';' ∉ name) (value : CText) (plain : ';' ∉ value) :
      ';' ∉ name ++ '=' :: value := by
    simp [h, plain]
  have plain : ∀ part ∈ urlParts usr pwd database dsn, ';' ∉ part := by
    simp only [urlParts, List.forall_mem_cons]
    exact ⟨kept _ (by decide) usr usr_plain, kept _ (by decide) pwd pwd_plain,
      kept _ (by decide) database database_plain, kept _ (by decide) dsn dsn_plain, List.forall_mem_nil _⟩
  rw [splitParamStr_default (url_nonempty usr pwd database dsn), url_joined,
    List.splitOn_intercalate ';' plain (List.cons_ne_nil _ _), settings_of_parts]

/-- A password with a semicolon does not come back. -/
theorem semicolon_cuts_password :
    (splitParamStr (DbHelper.new "u".toList "p;w".toList "d".toList "n".toList).m_url [] [] []).1 ≠
      settings "u".toList "p;w".toList "d".toList "n".toList :=
  fun given => absurd (settings_plain given).2.1 (by decide)

end DevAccess.Mes
