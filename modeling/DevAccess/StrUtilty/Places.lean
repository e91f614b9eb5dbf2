import DevAccess.StrUtilty.Join

/-! The places of a key in a text, as the readers of values count them: from the front, and
each behind the one before it. -/
namespace DevAccess.StrUtilty
open Foundation

/-- The loop on iCount, with so many rounds to come. It leaves the text from the place on. -/
def keyLoop (strKey : CText) : Nat → CText → Option CText
  | 0, s => (find strKey s).map fun pos => s.drop pos
  | more + 1, s => (find strKey s).bind fun pos => keyLoop strKey more (s.drop (pos + strKey.length))

def behindKey (strData strKey : CText) (iCount : Int) : Option CText :=
  (keyLoop strKey (iCount - 1).toNat strData).map fun s => s.drop strKey.length

/-- The key with what stands in front of it and behind it, where none starts earlier. -/
def FirstPlace (key s front rest : CText) : Prop :=
  s = front ++ key ++ rest ∧ ∀ a b, s = a ++ key ++ b → front.length ≤ a.length

/-- The text behind the n-th place of the key, no two of them sharing a character. -/
inductive Occurrence (key : CText) : Nat → CText → CText → Prop
  | first {s front rest : CText} (place : FirstPlace key s front rest) : Occurrence key 1 s rest
  | next {n : Nat} {s front mid rest : CText} (place : FirstPlace key s front mid)
      (later : Occurrence key n mid rest) : Occurrence key (n + 1) s rest

section Places
variable {key s front rest : CText}

theorem find_some_iff {pos : Nat} :
    find key s = some pos ↔ ∃ front rest, FirstPlace key s front rest ∧ front.length = pos := by
  induction s generalizing pos with
  | nil =>
    rw [find]
    constructor
    · intro found
      split at found
      · rename_i empty
        cases found
        exact ⟨[], [], ⟨by rw [empty]; rfl, fun a b _ => Nat.zero_le _⟩, rfl⟩
      · cases found
    · rintro ⟨front, rest, ⟨split, -⟩, rfl⟩
      obtain ⟨parts, -⟩ := List.append_eq_nil_iff.mp split.symm
      obtain ⟨rfl, rfl⟩ := List.append_eq_nil_iff.mp parts
      rfl
  | cons c s ih =>
    rw [find]
    by_cases here : key <+: c :: s
    · rw [if_pos here]
      obtain ⟨rest, split⟩ := here
      constructor
      · intro found
        cases found
        exact ⟨[], rest, ⟨split.symm, fun a b _ => Nat.zero_le _⟩, rfl⟩
      · rintro ⟨front, -, ⟨-, first⟩, rfl⟩
        rw [Nat.le_zero.mp (first [] rest split.symm)]
    · rw [if_neg here, Option.map_eq_some_iff]
      constructor
      · rintro ⟨pos, found, rfl⟩
        obtain ⟨front, rest, ⟨split, first⟩, rfl⟩ := ih.mp found
        refine ⟨c :: front, rest, ⟨by rw [split]; rfl, fun a b other => ?_⟩, rfl⟩
        cases a with
        | nil => exact absurd ⟨b, other.symm⟩ here
        | cons d a => exact Nat.succ_le_succ (first a b (List.cons.inj other).2)
      · rintro ⟨front, rest, ⟨split, first⟩, rfl⟩
        cases front with
        | nil => exact absurd ⟨rest, split.symm⟩ here
        | cons d front =>
          have place : FirstPlace key s front rest := by
            refine ⟨(List.cons.inj split).2, fun a b other => ?_⟩
            exact Nat.le_of_succ_le_succ (first (c :: a) b (by rw [other]; rfl))
          exact ⟨front.length, ih.mpr ⟨front, rest, place, rfl⟩, rfl⟩

theorem FirstPlace.found (place : FirstPlace key s front rest) : find key s = some front.length :=
  find_some_iff.mpr ⟨front, rest, place, rfl⟩

theorem FirstPlace.behind (place : FirstPlace key s front rest) :
    s.drop (front.length + key.length) = rest := by
  rw [place.1, ← List.length_append, List.drop_left]

theorem occurrence_iff {more : Nat} :
    Occurrence key (more + 1) s rest ↔ (keyLoop key more s).map (·.drop key.length) = some rest := by
  induction more generalizing s with
  | zero =>
    rw [keyLoop, Option.map_map]
    constructor
    · intro occurs
      cases occurs with
      | first place =>
        rw [place.found, Option.map_some, Function.comp_apply, List.drop_drop, place.behind]
      | next _ later => cases later
    · intro found
      obtain ⟨pos, here, rfl⟩ := Option.map_eq_some_iff.mp found
      obtain ⟨front, rest, place, rfl⟩ := find_some_iff.mp here
      rw [Function.comp_apply, List.drop_drop, place.behind]
      exact .first place
  | succ more ih =>
    rw [keyLoop]
    constructor
    · intro occurs
      cases occurs with
      | next place later =>
        rw [place.found, Option.bind_some, place.behind]
        exact ih.mp later
    · intro found
      cases here : find key s with
      | none =>
        rw [here] at found
        cases found
      | some pos =>
        obtain ⟨front, mid, place, rfl⟩ := find_some_iff.mp here
        rw [here, Option.bind_some, place.behind] at found
        exact .next place (ih.mpr found)

theorem FirstPlace.unique {front' rest' : CText} (place : FirstPlace key s front rest)
    (same : FirstPlace key s front' rest') : rest = rest' := by
  have length : front.length = front'.length := Option.some.inj (place.found.symm.trans same.found)
  rw [← place.behind, ← same.behind, length]

theorem Occurrence.found {n : Nat} (occurs : Occurrence key n s rest) : find key s ≠ none := by
  cases occurs with
  | first place => simp [place.found]
  | next place _ => simp [place.found]

theorem behindKey_iff {n : Nat} (natural : 1 ≤ n) :
    Occurrence key n s rest ↔ behindKey s key n = some rest := by
  obtain ⟨more, rfl⟩ : ∃ more, n = more + 1 := ⟨n - 1, by omega⟩
  have rounds : ((more + 1 : Nat) - 1 : Int).toNat = more := by omega
  rw [behindKey, rounds]
  exact occurrence_iff

end Places

end DevAccess.StrUtilty
