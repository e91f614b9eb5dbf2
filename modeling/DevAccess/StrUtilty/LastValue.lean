import DevAccess.StrUtilty.Numbers

/-! GetLastValueFromStr: the number behind the last place of a delimiter. The version for C
strings steps from place to place; the one for string objects looks for the last character that
the delimiter has. -/
namespace DevAccess.StrUtilty
open Foundation CText

def findLastOf (set : CText) : CText → Option Nat
  | [] => none
  | c :: rest =>
    match findLastOf set rest with
    | some pos => some (pos + 1)
    | none => if c ∈ set then some 0 else none

/-- The key with the text behind it, where none starts later. -/
def LastPlace (key s rest : CText) : Prop :=
  ∃ front, s = front ++ key ++ rest ∧ ∀ a b, s = a ++ key ++ b → a.length ≤ front.length

/-- The text behind the last place, where each is searched behind the one before it. -/
def LastInTurn (key s rest : CText) : Prop := ∃ n, Occurrence key n s rest ∧ find key rest = none

def told (iValue : Int) : Option Int → Bool × Int
  | some z => (true, z)
  | none => (false, iValue)

/-- What stands behind the last character of the data that belongs to the delimiter. -/
def LastCharacter (delim data behind : CText) : Prop :=
  ∃ front c, data = front ++ c :: behind ∧ c ∈ delim ∧ ∀ d ∈ behind, d ∉ delim

section Places
variable {key s rest other : CText}

theorem LastPlace.unique (place : LastPlace key s rest) (same : LastPlace key s other) :
    rest = other := by
  obtain ⟨front, split, last⟩ := place
  obtain ⟨front', split', last'⟩ := same
  have length : front.length = front'.length :=
    Nat.le_antisymm (last' front rest split) (last front' other split')
  have parts := split.symm.trans split'
  rw [List.append_assoc, List.append_assoc] at parts
  exact List.append_cancel_left (List.append_inj_right parts length)

theorem LastPlace.found (place : LastPlace key s rest) : find key s ≠ none := by
  obtain ⟨front, split, -⟩ := place
  rw [Ne, find_none_iff, not_not]
  exact ⟨front, rest, split.symm⟩

theorem LastInTurn.found (turn : LastInTurn key s rest) : find key s ≠ none :=
  turn.choose_spec.1.found

theorem LastInTurn.unique (turn : LastInTurn key s rest) (same : LastInTurn key s other) :
    rest = other := by
  obtain ⟨n, occurs, ends⟩ := turn
  obtain ⟨m, occurs', ends'⟩ := same
  induction occurs generalizing m with
  | first place =>
    cases occurs' with
    | first place' => exact place.unique place'
    | next place' later' =>
      rw [← place.unique place'] at later'
      exact absurd ends later'.found
  | next place later ih =>
    cases occurs' with
    | first place' =>
      rw [place.unique place'] at later
      exact absurd ends' later.found
    | next place' later' =>
      rw [← place.unique place'] at later'
      exact ih ends _ later'

theorem findLastOf_none {set : CText} (absent : findLastOf set s = none) : ∀ c ∈ s, c ∉ set := by
  induction s with
  | nil => simp
  | cons c s ih =>
    rw [findLastOf] at absent
    split at absent
    · cases absent
    · rename_i later
      split at absent
      · cases absent
      · rename_i other
        exact List.forall_mem_cons.mpr ⟨other, ih later⟩

end Places

section Loop
variable {data delim : CText} {rounds pSearch pStart q : Nat}

end Loop

section Versions
variable {data delim : CText} {iValue : Int}

theorem findLastOf_some_iff {pos : Nat} : findLastOf delim data = some pos ↔
    ∃ front c behind, data = front ++ c :: behind ∧ front.length = pos ∧ c ∈ delim ∧
      ∀ d ∈ behind, d ∉ delim := by
  induction data generalizing pos with
  | nil => simp [findLastOf]
  | cons c s ih =>
    rw [findLastOf]
    cases later : findLastOf delim s with
    | some k =>
      obtain ⟨front, d, behind, rfl, rfl, inside, others⟩ := ih.mp later
      dsimp only
      constructor
      · intro same
        exact ⟨c :: front, d, behind, rfl, Option.some.inj same, inside, others⟩
      · rintro ⟨front', d', behind', split, rfl, inside', others'⟩
        cases front' with
        | nil =>
          rw [List.nil_append] at split
          cases split
          exact absurd inside (others' d (by simp))
        | cons e front' =>
          rw [List.cons_append, List.cons.injEq] at split
          have found := ih.mpr ⟨front', d', behind', split.2, rfl, inside', others'⟩
          rw [later] at found
          rw [Option.some.inj found]
          rfl
    | none =>
      have absent := findLastOf_none later
      dsimp only
      constructor
      · intro found
        split at found
        · rename_i inside
          exact ⟨[], c, s, rfl, Option.some.inj found, inside, absent⟩
        · cases found
      · rintro ⟨front, d, behind, split, rfl, inside, -⟩
        cases front with
        | nil =>
          cases split
          exact if_pos inside
        | cons e front =>
          rw [List.cons_append, List.cons.injEq] at split
          exact absurd inside (absent d (by rw [split.2]; simp))

theorem LastCharacter.tail {behind : CText} (nonempty : delim ≠ [])
    (last : LastCharacter delim data behind) : ∃ pos, findLastOf delim data = some pos ∧
      data.drop (pos + delim.length) = behind.drop (delim.length - 1) ∧
      (pos + delim.length ≤ data.length ↔ delim.length ≤ behind.length + 1) := by
  obtain ⟨front, c, rfl, inside, others⟩ := last
  have positive := List.length_pos_iff.mpr nonempty
  refine ⟨front.length, findLastOf_some_iff.mpr ⟨front, c, behind, rfl, rfl, inside, others⟩, ?_, ?_⟩
  · obtain ⟨k, length⟩ : ∃ k, delim.length = k + 1 := ⟨delim.length - 1, by omega⟩
    rw [length, List.drop_append, Nat.add_sub_cancel_left, List.drop_eq_nil_of_le (by omega)]
    simp
  · simp only [List.length_append, List.length_cons]
    omega

section SingleCharacter
variable {c : Char}

end SingleCharacter

end Versions

end DevAccess.StrUtilty
