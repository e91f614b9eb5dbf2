import DevAccess.Foundation.CText

/-! SplitStr and SplitParamStr: a text taken apart at a separator, and its parts as names
with values. -/
namespace DevAccess.StrUtilty
open Foundation

def find (sub : CText) : CText → Option Nat
  | [] => if sub = [] then some 0 else none
  | c :: rest => if sub <+: c :: rest then some 0 else (find sub rest).map (· + 1)

theorem find_lt {sub s : CText} {pos : Nat} (nonempty : sub ≠ []) (found : find sub s = some pos) :
    pos < s.length := by
  induction s generalizing pos with
  | nil => simp [find, nonempty] at found
  | cons c rest ih =>
    rw [find] at found
    split at found
    · cases found
      exact Nat.zero_lt_succ _
    · obtain ⟨before, later, rfl⟩ := Option.map_eq_some_iff.mp found
      exact Nat.succ_lt_succ (ih later)

theorem find_letter (c : Char) (s : CText) :
    (c ∉ s ∧ find [c] s = none) ∨
      ∃ front back, s = front ++ c :: back ∧ c ∉ front ∧ find [c] s = some front.length := by
  induction s with
  | nil => exact .inl ⟨List.not_mem_nil, rfl⟩
  | cons d rest ih =>
    by_cases here : c = d
    · exact .inr ⟨[], rest, by rw [here]; rfl, List.not_mem_nil, by simp [find, here]⟩
    · rcases ih with ⟨absent, none_here⟩ | ⟨front, back, rfl, absent, found⟩
      · exact .inl ⟨by simp [here, absent], by simp [find, here, none_here]⟩
      · exact .inr ⟨d :: front, back, rfl, by simp [here, absent], by simp [find, here, found]⟩

theorem find_at {c : Char} {front : CText} (absent : c ∉ front) (back : CText) :
    find [c] (front ++ c :: back) = some front.length := by
  induction front with
  | nil => simp [find]
  | cons d front ih =>
    have other : c ≠ d := fun same => absent (same ▸ List.mem_cons_self)
    simp [find, other, ih fun later => absent (List.mem_cons_of_mem d later)]

/-- The loop of SplitStr on the text from ilastindex on; the separator is d :: more. The next
search starts one character behind the place that was found, whatever the separator's length. -/
def splitLoop (d : Char) (more : CText) (isSkipEmptyItem : Bool) (rest : CText) : List CText :=
  match found : find (d :: more) rest with
  | none => [rest]
  | some index =>
    let ss := rest.take index
    have shorter : (rest.drop (index + 1)).length < rest.length := by
      have inside := find_lt (List.cons_ne_nil d more) found
      rw [List.length_drop]
      omega
    let later := splitLoop d more isSkipEmptyItem (rest.drop (index + 1))
    if ss ≠ [] ∨ isSkipEmptyItem = false then ss :: later else later
termination_by rest.length

def splitStr (sStr sz_split : CText) (out_array : List CText) (isSkipEmptyItem : Bool) :
    List CText × Nat :=
  match sStr, sz_split with
  | [], _ => (out_array, 0)
  | _, [] => (out_array, 0)
  | _, d :: more =>
    let items := splitLoop d more isSkipEmptyItem sStr
    (items, items.length)

abbrev StringMap := List (CText × CText)

/-- out[key] = value -/
def assign (key value : CText) : StringMap → StringMap
  | [] => [(key, value)]
  | (k, v) :: rest =>
    if key = k then (k, value) :: rest
    else if key < k then (key, value) :: (k, v) :: rest
    else (k, v) :: assign key value rest

def splitParam (opt_str : CText) (out : StringMap) (s : CText) : StringMap :=
  if s = [] then out
  else
    match find opt_str s with
    | none => assign s "[set]".toList out
    | some 0 => out
    | some pos => assign (s.take pos) (s.drop (pos + 1)) out

/-- SplitParamStr; an empty spstr or opt_str stands for the default, as NULL does. -/
def splitParamStr (str : CText) (out : StringMap) (spstr opt_str : CText) : StringMap × Nat :=
  let spstr := if spstr = [] then ";".toList else spstr
  let opt_str := if opt_str = [] then "=".toList else opt_str
  let lst := (splitStr str spstr [] false).1
  let out := lst.foldl (splitParam opt_str) out
  (out, out.length)

section Loop
variable {d : Char} {more : CText} {isSkipEmptyItem : Bool} {rest : CText}

theorem splitLoop_last (absent : find (d :: more) rest = none) :
    splitLoop d more isSkipEmptyItem rest = [rest] := by
  rw [splitLoop]
  split
  · rfl
  · rename_i found
    rw [absent] at found
    cases found

theorem splitLoop_more {index : Nat} (found : find (d :: more) rest = some index) :
    splitLoop d more isSkipEmptyItem rest =
      if rest.take index ≠ [] ∨ isSkipEmptyItem = false then
        rest.take index :: splitLoop d more isSkipEmptyItem (rest.drop (index + 1))
      else splitLoop d more isSkipEmptyItem (rest.drop (index + 1)) := by
  rw [splitLoop]
  split
  · rename_i absent
    rw [absent] at found
    cases found
  · rename_i found'
    rw [found'] at found
    cases found
    rfl

end Loop

theorem splitLoop_letter (d : Char) (s : CText) : splitLoop d [] false s = s.splitOn d := by
  rcases find_letter d s with ⟨absent, found⟩ | ⟨front, back, rfl, absent, found⟩
  · rw [splitLoop_last found, List.splitOn_eq_singleton absent]
  · have behind : (front ++ d :: back).drop (front.length + 1) = back := by simp
    rw [splitLoop_more found, if_pos (.inr rfl), List.take_left, behind, splitLoop_letter d back,
      List.splitOn_append_cons_self_of_not_mem absent]
termination_by s.length

theorem splitStr_letter (d : Char) {s : CText} (nonempty : s ≠ []) (out_array : List CText) :
    splitStr s [d] out_array false = (s.splitOn d, (s.splitOn d).length) := by
  cases s with
  | nil => exact absurd rfl nonempty
  | cons c rest =>
    rw [splitStr, splitLoop_letter]
    exact nonempty

theorem separator_absent (d : Char) (s : CText) : ∀ piece ∈ s.splitOn d, d ∉ piece := by
  rcases find_letter d s with ⟨absent, -⟩ | ⟨front, back, rfl, absent, -⟩
  · rw [List.splitOn_eq_singleton absent]
    exact List.forall_mem_singleton.mpr absent
  · rw [List.splitOn_append_cons_self_of_not_mem absent]
    exact List.forall_mem_cons.mpr ⟨absent, separator_absent d back⟩
termination_by s.length

theorem assign_mem {key value : CText} {out : StringMap} {pair : CText × CText}
    (member : pair ∈ assign key value out) : pair = (key, value) ∨ pair ∈ out := by
  induction out with
  | nil => exact .inl (List.mem_singleton.mp member)
  | cons first rest ih =>
    rw [assign] at member
    split at member
    · rcases List.mem_cons.mp member with rfl | later
      · rename_i same
        exact .inl (by rw [same])
      · exact .inr (List.mem_cons_of_mem _ later)
    · split at member
      · exact List.mem_cons.mp member
      · rcases List.mem_cons.mp member with rfl | later
        · exact .inr List.mem_cons_self
        · exact (ih later).imp_right (List.mem_cons_of_mem _)

theorem splitParam_setting {opt : Char} {name : CText} (nonempty : name ≠ []) (plain : opt ∉ name)
    (value : CText) (out : StringMap) :
    splitParam [opt] out (name ++ opt :: value) = assign name value out := by
  have behind : (name ++ opt :: value).drop (name.length + 1) = value := by simp
  have somewhere : name.length ≠ 0 := fun none_left => nonempty (List.length_eq_zero_iff.mp none_left)
  rw [splitParam, if_neg (by simp), find_at plain]
  split
  · contradiction
  · rename_i start
    exact absurd (Option.some.inj start) somewhere
  · rename_i pos _ found
    cases found
    rw [List.take_left, behind]

theorem splitParam_values {d : Char} {opt_str s : CText} {out : StringMap} (plain : d ∉ s)
    (mark : d ∉ "[set]".toList) (before : ∀ pair ∈ out, d ∉ pair.2) :
    ∀ pair ∈ splitParam opt_str out s, d ∉ pair.2 := by
  have assigned {key value : CText} (absent : d ∉ value) : ∀ pair ∈ assign key value out, d ∉ pair.2 := by
    intro pair member
    rcases assign_mem member with rfl | old
    · exact absent
    · exact before pair old
  unfold splitParam
  split
  · exact before
  · split
    · exact assigned mark
    · exact before
    · exact assigned fun inside => plain (List.mem_of_mem_drop inside)

theorem splitParamStr_default {s : CText} (nonempty : s ≠ []) :
    (splitParamStr s [] [] []).1 = (s.splitOn ';').foldl (splitParam ['=']) [] := by
  have separator : ";".toList = [';'] := by decide
  have equals : "=".toList = ['='] := by decide
  simp only [splitParamStr, if_pos, separator, equals, splitStr_letter ';' nonempty]

theorem foldl_values {d : Char} (opt_str : CText) (mark : d ∉ "[set]".toList) {lst : List CText}
    (plain : ∀ s ∈ lst, d ∉ s) {out : StringMap} (before : ∀ pair ∈ out, d ∉ pair.2) :
    ∀ pair ∈ lst.foldl (splitParam opt_str) out, d ∉ pair.2 := by
  induction lst generalizing out with
  | nil => exact before
  | cons s rest ih =>
    obtain ⟨first, later⟩ := List.forall_mem_cons.mp plain
    exact ih later (splitParam_values first mark before)

end DevAccess.StrUtilty
