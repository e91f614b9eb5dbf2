import DevAccess.Foundation.Wildcard
import DevAccess.Log.LogData

/-! MatchingString as Windows has it, against wildcard matching, and what it lets
SerarchLogsByDir record. -/
namespace DevAccess.Log
open Foundation Wildcard

def cut : CText → Option (CText × CText)
  | [] => none
  | c :: p => if c = '*' then some ([], p) else (cut p).map fun (piece, rest) => (c :: piece, rest)

theorem cut_length {p piece rest : CText} (found : cut p = some (piece, rest)) : rest.length < p.length := by
  induction p generalizing piece with
  | nil => cases found
  | cons c p ih =>
    rw [cut] at found
    split at found
    · cases found
      exact Nat.lt_succ_self _
    · obtain ⟨⟨piece', rest'⟩, later, same⟩ := Option.map_eq_some_iff.mp found
      cases same
      exact Nat.lt_succ_of_lt (ih later)

def strstr (string piece : CText) : Bool := piece <:+: string

def matchLoop (string pPatternTmp : CText) : Bool :=
  match _found : cut pPatternTmp with
  | none => !(pPatternTmp.length > 0 && !strstr string pPatternTmp)
  | some (piece, rest) => if strstr string piece then matchLoop string rest else false
termination_by pPatternTmp.length
decreasing_by exact cut_length _found

/-- None when szTemp, of 260 characters, does not hold the pattern and a zero after it. -/
def matchingString (string pattern : CText) : Option Bool :=
  if pattern.length < 260 then some (matchLoop string pattern) else none

def windows (string pattern : CText) : Bool := matchingString string pattern = some true

theorem cut_none {p : CText} (whole : cut p = none) : pieces '*' p = (p, []) := by
  induction p with
  | nil => rfl
  | cons c p ih =>
    rw [cut] at whole
    split at whole
    case isTrue => cases whole
    case isFalse ordinary =>
      rw [pieces, if_neg ordinary, ih (Option.map_eq_none_iff.mp whole)]

theorem cut_some {p piece rest : CText} (found : cut p = some (piece, rest)) :
    allPieces '*' p = piece :: allPieces '*' rest := by
  induction p generalizing piece with
  | nil => cases found
  | cons c p ih =>
    rw [cut] at found
    split at found
    case isTrue wild =>
      cases found
      simp [allPieces, pieces, wild]
    case isFalse ordinary =>
      obtain ⟨⟨piece', rest'⟩, later, same⟩ := Option.map_eq_some_iff.mp found
      cases same
      obtain ⟨first, others⟩ := List.cons.inj (ih later)
      simp only [allPieces, pieces, if_neg ordinary, first, others]

theorem matchLoop_iff (string p : CText) :
    matchLoop string p = true ↔ ∀ piece ∈ allPieces '*' p, piece <:+: string := by
  fun_induction matchLoop string p with
  | case1 p whole =>
    rw [allPieces, cut_none whole]
    cases p <;> simp [strstr]
  | case2 p piece rest found here ih =>
    rw [ih, cut_some found, List.forall_mem_cons]
    exact (and_iff_right (of_decide_eq_true here)).symm
  | case3 p piece rest found missing =>
    rw [cut_some found, List.forall_mem_cons]
    exact ⟨fun h => Bool.noConfusion h, fun h => absurd (decide_eq_true h.1) missing⟩

theorem matchingString_true {string pattern : CText} (fits : pattern.length < 260) :
    matchingString string pattern = some true ↔ ∀ piece ∈ allPieces '*' pattern, piece <:+: string := by
  rw [matchingString, if_pos fits, Option.some.injEq, matchLoop_iff]

def Settled (name pattern : CText) : Prop :=
  (∃ piece ∈ allPieces '*' pattern, ¬ piece <:+: name) ∨ Placed '*' pattern name

theorem agrees_iff {name pattern : CText} (fits : pattern.length < 260) :
    (matchingString name pattern = some true ↔ Matches '*' pattern name) ↔ Settled name pattern := by
  rw [matchingString_true fits, Settled, ← matches_iff_placed]
  constructor
  · intro same
    by_cases all : ∀ piece ∈ allPieces '*' pattern, piece <:+: name
    · exact .inr (same.mp all)
    · obtain ⟨piece, missing⟩ := Classical.not_forall.mp all
      exact .inl ⟨piece, Classical.not_imp.mp missing⟩
  · rintro (⟨piece, member, missing⟩ | placed)
    · exact ⟨fun all => absurd (all piece member) missing,
        fun h => absurd (matches_occurs h piece member) missing⟩
    · exact ⟨fun _ => placed, fun _ => matches_occurs placed⟩

/-- The name of a log of this program. -/
def OwnLog (fileName name : CText) : Prop := fileName <+: name ∧ ".log".toList <:+ name

def LooksLike (fileName : CText) (e : Entry) : Prop :=
  e.isDir = false ∧ (∀ piece ∈ allPieces '*' fileName, piece <:+: e.name) ∧ ".log".toList <:+: e.name

theorem looksLike_iff (s : LogData) (fits : s.m_szFileName.length < 128) (e : Entry) :
    (!e.isDir && windows e.name s.searchFileName) = true ↔ LooksLike s.m_szFileName e := by
  have length : s.searchFileName.length < 260 := by
    simp only [LogData.searchFileName, List.length_append]
    have ending : "*.log".toList.length = 5 := by decide
    omega
  have cutting : allPieces '*' s.searchFileName = allPieces '*' s.m_szFileName ++ [".log".toList] :=
    allPieces_append s.m_szFileName ".log".toList
  rw [Bool.and_eq_true, Bool.not_eq_true', windows, decide_eq_true_eq, matchingString_true length,
    cutting, List.forall_mem_append, List.forall_mem_singleton]
  rfl

/-- The search queues logs of this program only if and only if no other file of the
directory has the pieces it asks for somewhere in its name. -/
theorem search_iff (a : InitArgs) (d : Directory) (s : LogData) (configured : s = LogData.new.configure a)
    (fits : s.m_szFileName.length < 128) :
    (∀ path ∈ (s.serarchLogsByDir windows d).m_FileList,
        ∃ name, path = s.pathName name ∧ OwnLog s.m_szFileName name) ↔
      ∀ e ∈ d.entries, LooksLike s.m_szFileName e → OwnLog s.m_szFileName e.name := by
  have empty : s.m_FileList = [] := configured ▸ rfl
  have queued (name : CText) : (∃ own, s.pathName name = s.pathName own ∧ OwnLog s.m_szFileName own) ↔
      OwnLog s.m_szFileName name := by
    constructor
    · rintro ⟨own, same, log⟩
      rwa [List.append_cancel_left same]
    · exact fun log => ⟨name, rfl, log⟩
  rw [search_eq]
  simp only [empty, List.nil_append, LogData.matched, List.forall_mem_map, List.mem_filter, and_imp, queued]
  exact forall₂_congr fun e _ => imp_congr_left (looksLike_iff s fits e)

/-- On which names and patterns MatchingString is wildcard matching, and in which
directories SerarchLogsByDir queues only what it should. -/
theorem matchingString_wildcard_iff (name pattern : CText) (fits : pattern.length < 260) (a : InitArgs)
    (d : Directory) (s : LogData) (configured : s = LogData.new.configure a)
    (short : s.m_szFileName.length < 128) :
    ((matchingString name pattern = some true ↔ Matches '*' pattern name) ↔ Settled name pattern) ∧
    ((∀ path ∈ (s.serarchLogsByDir windows d).m_FileList,
        ∃ own, path = s.pathName own ∧ OwnLog s.m_szFileName own) ↔
      ∀ e ∈ d.entries, LooksLike s.m_szFileName e → OwnLog s.m_szFileName e.name) :=
  ⟨agrees_iff fits, search_iff a d s configured short⟩

theorem matchingString_dev :
    ((matchingString "dev_1.log".toList "dev_*.log".toList = some true ↔
        Matches '*' "dev_*.log".toList "dev_1.log".toList) ↔
      Settled "dev_1.log".toList "dev_*.log".toList) ∧
    ((∀ path ∈ ((LogData.new.configure devManagerInit).serarchLogsByDir windows oneLog).m_FileList,
        ∃ own, path = (LogData.new.configure devManagerInit).pathName own ∧
          OwnLog (LogData.new.configure devManagerInit).m_szFileName own) ↔
      ∀ e ∈ oneLog.entries, LooksLike (LogData.new.configure devManagerInit).m_szFileName e →
        OwnLog (LogData.new.configure devManagerInit).m_szFileName e.name) :=
  matchingString_wildcard_iff _ _ (by decide) devManagerInit oneLog _ rfl (by decide)

/-- The pattern dev_*.log takes a copy of a log for a log, and the search queues it. -/
theorem backup_taken_for_log :
    (matchingString "dev_1.log.bak".toList "dev_*.log".toList = some true ∧
      ¬ Matches '*' "dev_*.log".toList "dev_1.log.bak".toList) ∧
    ∃ d : Directory, ∃ path ∈
      ((LogData.new.configure devManagerInit).serarchLogsByDir windows d).m_FileList,
      ¬ ".log".toList <:+ path := by
  have taken : matchingString "dev_1.log.bak".toList "dev_*.log".toList = some true :=
    (matchingString_true (by decide)).mpr (by decide)
  refine ⟨⟨taken, by decide⟩, ⟨true, false, [⟨"dev_1.log.bak".toList, false⟩], by decide, by decide⟩,
    "./log/dev_1.log.bak".toList, ?_, by decide⟩
  have asked : windows "dev_1.log.bak".toList
      (LogData.new.configure devManagerInit).searchFileName = true := decide_eq_true taken
  rw [search_eq, LogData.matched, List.filter_singleton, asked]
  decide

end DevAccess.Log
