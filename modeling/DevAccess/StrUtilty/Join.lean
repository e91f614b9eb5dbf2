import DevAccess.Foundation.CString
import DevAccess.StrUtilty.Split

/-! SplitStr and SplitParamStr undone: the items joined again, and a map written as a
parameter string and read back. -/
namespace DevAccess.StrUtilty
open Foundation

def splitStr_x (sStr sz_split : CText) (out_array : List CText) : List CText × Nat :=
  splitStr sStr sz_split out_array false

/-- The items of a text joined at the separator are the text, those kept with the flag are
the ones that are not empty, and of an empty text there are none. -/
structure Undone (s sep : CText) (out_array : List CText) : Prop where
  joined : s ≠ [] → sep ≠ [] → sep.intercalate (splitStr s sep out_array false).1 = s ∧
    sep.intercalate (splitStr_x s sep out_array).1 = s
  skipped : s ≠ [] → sep ≠ [] → (splitStr s sep out_array true).1 =
    (splitStr s sep out_array false).1.filter (· ≠ [])
  cleared : s = [] → ∀ isSkipEmptyItem, (splitStr s sep out_array isSkipEmptyItem).1 = []

def Clean (s sep : CText) (out_array : List CText) : Prop :=
  if s = [] then out_array = [] else sep = [] ∨ ¬ sep <:+: s ∨ (sep.length = 1 ∧ ¬ sep <:+ s)

theorem find_none_iff {sub s : CText} : find sub s = none ↔ ¬ sub <:+: s := by
  induction s with
  | nil =>
    rw [find, List.infix_nil]
    split <;> simp [*]
  | cons c rest ih =>
    rw [find, List.infix_cons_iff, not_or, ← ih]
    split
    · rename_i here
      simp [here]
    · rename_i elsewhere
      simp [elsewhere]

section Loop
variable {d : Char} {more : CText}

theorem splitLoop_ne_nil (s : CText) : splitLoop d more false s ≠ [] := by
  cases found : find (d :: more) s with
  | none =>
    rw [splitLoop_last found]
    exact List.cons_ne_nil s []
  | some index =>
    rw [splitLoop_more found, if_pos (.inr rfl)]
    exact List.cons_ne_nil _ _

theorem joined_length (s : CText) :
    ((d :: more).intercalate (splitLoop d more false s)).length + more.length =
      s.length + (splitLoop d more false s).length * more.length := by
  cases found : find (d :: more) s with
  | none => simp [splitLoop_last found]
  | some index =>
    have inside := find_lt (List.cons_ne_nil d more) found
    have later := joined_length (s.drop (index + 1))
    rw [splitLoop_more found, if_pos (.inr rfl),
      List.intercalate_cons_of_ne_nil (splitLoop_ne_nil _)]
    simp only [List.length_append, List.length_cons, List.length_take, List.length_drop,
      Nat.add_mul, Nat.one_mul] at later ⊢
    omega
termination_by s.length
decreasing_by
  rw [List.length_drop]
  omega

theorem splitLoop_skip (s : CText) : ∃ front last,
    splitLoop d more false s = front ++ [last] ∧
      splitLoop d more true s = front.filter (· ≠ []) ++ [last] := by
  cases found : find (d :: more) s with
  | none => exact ⟨[], s, splitLoop_last found, splitLoop_last found⟩
  | some index =>
    have inside := find_lt (List.cons_ne_nil d more) found
    obtain ⟨front, last, plain, skipping⟩ := splitLoop_skip (s.drop (index + 1))
    refine ⟨s.take index :: front, last, ?_, ?_⟩
    · rw [splitLoop_more found, if_pos (.inr rfl), plain]
      rfl
    · rw [splitLoop_more found, skipping]
      split
      · rename_i kept
        have some_text : s.take index ≠ [] := kept.resolve_right Bool.noConfusion
        simp [some_text]
      · rename_i dropped
        have no_text : s.take index = [] := Decidable.not_not.mp (not_or.mp dropped).1
        simp [no_text]
termination_by s.length
decreasing_by
  rw [List.length_drop]
  omega

theorem splitOn_last (d : Char) (s : CText) {last : CText} (ends : (s.splitOn d).getLast? = some last) :
    last = [] ↔ s = [] ∨ s.getLast? = some d := by
  rcases find_letter d s with ⟨absent, -⟩ | ⟨front, back, rfl, absent, -⟩
  · rw [List.splitOn_eq_singleton absent] at ends
    cases ends
    constructor
    · exact .inl
    · rintro (empty | letter)
      · exact empty
      · exact absurd (List.mem_of_getLast? letter) absent
  · have pieces : back.splitOn d ≠ [] := List.splitOn_ne_nil d back
    rw [List.splitOn_append_cons_self_of_not_mem absent, List.getLast?_cons_of_ne_nil pieces] at ends
    rw [splitOn_last d back ends]
    cases back with
    | nil => simp
    | cons c rest => simp [List.getLast?_append, List.getLast?_cons_cons]
termination_by s.length

theorem splitStr_loop {s : CText} (nonempty : s ≠ []) (out_array : List CText) (isSkipEmptyItem : Bool) :
    (splitStr s (d :: more) out_array isSkipEmptyItem).1 = splitLoop d more isSkipEmptyItem s := by
  cases s with
  | nil => exact absurd rfl nonempty
  | cons c rest => rfl

theorem skipped_letter {s : CText} (nonempty : s ≠ []) :
    splitLoop d [] true s = (splitLoop d [] false s).filter (· ≠ []) ↔ ¬ [d] <:+ s := by
  obtain ⟨front, last, plain, skipping⟩ := @splitLoop_skip d [] s
  have ends : (s.splitOn d).getLast? = some last := by
    rw [← splitLoop_letter, plain]
    exact List.getLast?_concat
  have end_iff : [d] <:+ s ↔ s.getLast? = some d := List.singleton_suffix_iff_getLast?_eq_some
  rw [plain, skipping, List.filter_append, List.append_cancel_left_eq, end_iff]
  have empty_last := splitOn_last d s ends
  by_cases empty : last = []
  · have letter := (empty_last.mp empty).resolve_left nonempty
    simp [empty, letter]
  · have other : ¬ s.getLast? = some d := fun letter => empty (empty_last.mpr (.inr letter))
    simp [empty, other]

end Loop

/-- Joining undoes the split exactly if there is nothing to cut, or the separator is a letter
that the text does not end in; and an empty text leaves what was in the array. -/
theorem splitStr_undone_iff (s sep : CText) (out_array : List CText) :
    Undone s sep out_array ↔ Clean s sep out_array := by
  unfold Clean
  split
  case isTrue empty =>
    subst empty
    constructor
    · exact fun undone => undone.cleared rfl false
    · exact fun nothing => ⟨absurd rfl, absurd rfl, fun _ _ => nothing⟩
  case isFalse nonempty =>
    cases sep with
    | nil =>
      refine iff_of_true ⟨?_, ?_, fun empty => absurd empty nonempty⟩ (.inl rfl)
      · exact fun _ other => absurd rfl other
      · exact fun _ other => absurd rfl other
    | cons d more =>
      have undone_iff : Undone s (d :: more) out_array ↔
          (d :: more).intercalate (splitLoop d more false s) = s ∧
            splitLoop d more true s = (splitLoop d more false s).filter (· ≠ []) := by
        rw [← splitStr_loop nonempty out_array false, ← splitStr_loop nonempty out_array true]
        constructor
        · intro undone
          have cut : d :: more ≠ [] := List.cons_ne_nil d more
          exact ⟨(undone.joined nonempty cut).1, undone.skipped nonempty cut⟩
        · rintro ⟨joined, skipped⟩
          exact ⟨fun _ _ => ⟨joined, joined⟩, fun _ _ => skipped, fun empty => absurd empty nonempty⟩
      rw [undone_iff]
      cases found : find (d :: more) s with
      | none =>
        refine iff_of_true ⟨?_, ?_⟩ (.inr (.inl (find_none_iff.mp found)))
        · rw [splitLoop_last found, List.intercalate_singleton]
        · simp [splitLoop_last found, nonempty]
      | some index =>
        have stands : ¬ find (d :: more) s = none := by simp [found]
        rw [find_none_iff] at stands
        cases more with
        | nil =>
          rw [skipped_letter nonempty, splitLoop_letter, List.intercalate_splitOn]
          simp [stands]
        | cons e rest =>
          -- every cut leaves the rest of the separator at the front of the next item
          refine iff_of_false ?_ (by simp [stands])
          rintro ⟨joined, -⟩
          have length := @joined_length d (e :: rest) s
          rw [joined, splitLoop_more found, if_pos (.inr rfl)] at length
          have later := List.length_pos_iff.mpr
            (@splitLoop_ne_nil d (e :: rest) (s.drop (index + 1)))
          simp only [List.length_cons, Nat.add_mul] at length
          have grows : 0 < (splitLoop d (e :: rest) false (s.drop (index + 1))).length * (rest.length + 1) :=
            Nat.mul_pos later (Nat.succ_pos _)
          omega

/-- The second letter of a separator stays in the item behind it. -/
theorem separator_left : ¬ Undone ['x', 'a', 'b', 'y'] ['a', 'b'] [] := by
  intro undone
  have items : (splitStr ['x', 'a', 'b', 'y'] ['a', 'b'] [] false).1 = [['x'], ['b', 'y']] := by
    rw [splitStr_loop (List.cons_ne_nil _ _), splitLoop_more (by decide : _ = some 1),
      if_pos (.inr rfl), splitLoop_last (by decide)]
    rfl
  have joined := (undone.joined (List.cons_ne_nil _ _) (List.cons_ne_nil _ _)).1
  rw [items] at joined
  exact absurd joined (by decide)

section Parameters

/-- A map of which the keys and the values can stand in a parameter string. -/
structure ParamMap where
  pairs : StringMap
  sorted : pairs.Pairwise fun p q => p.1 < q.1
  keys : ∀ p ∈ pairs, p.1 ≠ [] ∧ ';' ∉ p.1 ∧ '=' ∉ p.1 ∧ '\x00' ∉ p.1
  values : ∀ p ∈ pairs, ';' ∉ p.2 ∧ '\x00' ∉ p.2

def paramItem (p : CText × CText) : CText := p.1 ++ '=' :: p.2

def paramStr (pairs : List (CText × CText)) : CText := [';'].intercalate (pairs.map paramItem)

theorem assign_perm {key : CText} {out : StringMap} (fresh : ∀ p ∈ out, p.1 ≠ key) (value : CText) :
    (assign key value out).Perm ((key, value) :: out) := by
  induction out with
  | nil => exact List.Perm.refl _
  | cons first rest ih =>
    obtain ⟨other, later⟩ := List.forall_mem_cons.mp fresh
    rw [assign, if_neg (Ne.symm other)]
    split
    · exact List.Perm.refl _
    · exact ((ih later).cons first).trans (List.Perm.swap _ _ _)

theorem assign_sorted {out : StringMap} (sorted : out.Pairwise fun p q => p.1 < q.1) (key value : CText) :
    (assign key value out).Pairwise fun p q => p.1 < q.1 := by
  induction out with
  | nil => exact List.pairwise_singleton _ _
  | cons first rest ih =>
    obtain ⟨front, later⟩ := List.pairwise_cons.mp sorted
    rw [assign]
    split
    · exact List.pairwise_cons.mpr ⟨front, later⟩
    · split
      · rename_i less
        refine List.pairwise_cons.mpr ⟨?_, sorted⟩
        refine List.forall_mem_cons.mpr ⟨less, fun p member => ?_⟩
        exact List.lt_trans less (front p member)
      · rename_i other noless
        have greater : first.1 < key := by
          by_cases order : first.1 < key
          · exact order
          · exact absurd (List.le_antisymm (List.not_lt.mp order) (List.not_lt.mp noless)) other
        refine List.pairwise_cons.mpr ⟨fun p member => ?_, ih later⟩
        rcases assign_mem member with rfl | old
        · exact greater
        · exact front p old

theorem assign_all (pairs : List (CText × CText)) {out : StringMap}
    (distinct : ((pairs ++ out).map Prod.fst).Nodup) (sorted : out.Pairwise fun p q => p.1 < q.1) :
    (pairs.foldl (fun out p => assign p.1 p.2 out) out).Perm (pairs ++ out) ∧
      (pairs.foldl (fun out p => assign p.1 p.2 out) out).Pairwise fun p q => p.1 < q.1 := by
  induction pairs generalizing out with
  | nil => exact ⟨List.Perm.refl _, sorted⟩
  | cons p rest ih =>
    have moved : (rest ++ assign p.1 p.2 out).Perm (p :: rest ++ out) := by
      have fresh : ∀ q ∈ out, q.1 ≠ p.1 := by
        intro q member same
        rw [List.cons_append, List.map_cons, List.nodup_cons] at distinct
        exact distinct.1 (List.mem_map.mpr ⟨q, List.mem_append_right _ member, same⟩)
      exact ((assign_perm fresh p.2).append_left rest).trans List.perm_middle
    have distinct' := (moved.map Prod.fst).nodup_iff.mpr distinct
    obtain ⟨perm, sorted'⟩ := ih distinct' (assign_sorted sorted p.1 p.2)
    exact ⟨perm.trans moved, sorted'⟩

theorem splitParam_items {pairs : List (CText × CText)}
    (named : ∀ p ∈ pairs, p.1 ≠ [] ∧ '=' ∉ p.1) (out : StringMap) :
    (pairs.map paramItem).foldl (splitParam ['=']) out =
        pairs.foldl (fun out p => assign p.1 p.2 out) out := by
  induction pairs generalizing out with
  | nil => rfl
  | cons p rest ih =>
    obtain ⟨⟨nonempty, plain⟩, later⟩ := List.forall_mem_cons.mp named
    rw [List.map_cons, List.foldl_cons, List.foldl_cons, paramItem, splitParam_setting nonempty plain]
    exact ih later _

theorem ParamMap.eq_of_perm (m : ParamMap) {out : StringMap} (perm : out.Perm m.pairs)
    (sorted : out.Pairwise fun p q => p.1 < q.1) : out = m.pairs :=
  List.Perm.eq_of_pairwise (fun _ _ _ _ less more => absurd (List.lt_trans less more) (List.lt_irrefl _))
    sorted m.sorted perm

theorem paramStr_plain {pairs : List (CText × CText)} (plain : ∀ p ∈ pairs, '\x00' ∉ paramItem p) :
    '\x00' ∉ paramStr pairs := by
  induction pairs with
  | nil => exact List.not_mem_nil
  | cons p rest ih =>
    obtain ⟨first, later⟩ := List.forall_mem_cons.mp plain
    cases rest with
    | nil => simpa [paramStr] using first
    | cons q rest =>
      have behind := ih later
      rw [paramStr, List.map_cons] at behind
      rw [paramStr, List.map_cons, List.map_cons, List.intercalate_cons_cons]
      simp [first, behind]

/-- A map written as a parameter string, in any order, is read back whole. -/
theorem splitParamStr_paramStr (m : ParamMap) (pairs : List (CText × CText)) (order : pairs.Perm m.pairs) :
    splitParamStr (CText.c_str (paramStr pairs)) [] ";".toList "=".toList = (m.pairs, m.pairs.length) := by
  have keys (p : CText × CText) (member : p ∈ pairs) := m.keys p (order.mem_iff.mp member)
  have values (p : CText × CText) (member : p ∈ pairs) := m.values p (order.mem_iff.mp member)
  have whole : CText.c_str (paramStr pairs) = paramStr pairs :=
    CText.c_str_whole (paramStr_plain fun p member => by
      simp [paramItem, (keys p member).2.2.2, (values p member).2])
  have pieces (nonempty : pairs ≠ []) : (paramStr pairs).splitOn ';' = pairs.map paramItem := by
    refine List.splitOn_intercalate ';' ?_ (by simpa using nonempty)
    intro item member
    obtain ⟨p, inside, rfl⟩ := List.mem_map.mp member
    simp [paramItem, (keys p inside).2.1, (values p inside).1]
  have lst : (splitStr (paramStr pairs) [';'] [] false).1 = pairs.map paramItem := by
    cases pairs with
    | nil => rfl
    | cons p rest =>
      have nonempty : paramStr (p :: rest) ≠ [] := by
        intro empty
        have item := pieces (List.cons_ne_nil p rest)
        rw [empty, List.splitOn_nil] at item
        simp [paramItem] at item
      rw [splitStr_letter ';' nonempty, pieces (List.cons_ne_nil p rest)]
  have named : ∀ p ∈ pairs, p.1 ≠ [] ∧ '=' ∉ p.1 := fun p member =>
    ⟨(keys p member).1, (keys p member).2.2.1⟩
  have distinct : ((pairs ++ []).map Prod.fst).Nodup := by
    rw [List.append_nil, (order.map Prod.fst).nodup_iff]
    exact List.pairwise_map.mpr (m.sorted.imp fun less same => absurd (same ▸ less) (List.lt_irrefl _))
  obtain ⟨perm, sorted⟩ := assign_all pairs distinct List.Pairwise.nil
  rw [List.append_nil] at perm
  have read : (pairs.map paramItem).foldl (splitParam ['=']) [] = m.pairs := by
    rw [splitParam_items named]
    exact m.eq_of_perm (perm.trans order) sorted
  have separator : ";".toList = [';'] := by decide
  have equals : "=".toList = ['='] := by decide
  rw [whole, splitParamStr, separator, equals]
  simp only [if_neg (List.cons_ne_nil _ _), lst, read]

def twoParams : ParamMap where
  pairs := [(['a'], ['=', 'x']), (['b'], [])]
  sorted := List.pairwise_pair.mpr (by decide)
  keys := List.forall_mem_cons.mpr ⟨by decide, List.forall_mem_singleton.mpr (by decide)⟩
  values := List.forall_mem_cons.mpr ⟨by decide, List.forall_mem_singleton.mpr (by decide)⟩

theorem twoParams_read :
    splitParamStr (CText.c_str (paramStr [(['b'], []), (['a'], ['=', 'x'])])) [] ";".toList "=".toList =
      (twoParams.pairs, 2) :=
  splitParamStr_paramStr twoParams [(['b'], []), (['a'], ['=', 'x'])] (List.Perm.swap _ _ _)

end Parameters

end DevAccess.StrUtilty
