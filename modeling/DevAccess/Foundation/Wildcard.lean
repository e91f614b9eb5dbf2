import Mathlib.Data.List.Infix

/-! Patterns in which one letter, the star, stands for any string. A pattern is cut at its
stars into a first piece and the pieces after each star. -/
namespace Foundation.Wildcard

variable {α : Type} (star : α)

/-- The whole string matches the pattern. -/
inductive Matches : List α → List α → Prop
  | nil : Matches [] []
  | letter {c : α} {p s : List α} (ordinary : c ≠ star) : Matches p s → Matches (c :: p) (c :: s)
  | any {p s : List α} (skipped : List α) : Matches p s → Matches (star :: p) (skipped ++ s)

def Follow : List (List α) → List α → Prop
  | [], s => s = []
  | piece :: rest, s => ∃ before after, s = before ++ (piece ++ after) ∧ Follow rest after

variable {star}

theorem matches_nil {s : List α} : Matches star [] s ↔ s = [] := by
  constructor
  · rintro ⟨⟩
    rfl
  · rintro rfl
    exact .nil

theorem matches_star {p s : List α} :
    Matches star (star :: p) s ↔ ∃ skipped rest, s = skipped ++ rest ∧ Matches star p rest := by
  constructor
  · intro h
    cases h with
    | letter ordinary => exact absurd rfl ordinary
    | any skipped later => exact ⟨skipped, _, rfl, later⟩
  · rintro ⟨skipped, rest, rfl, later⟩
    exact .any skipped later

theorem matches_letter {c : α} {p s : List α} (ordinary : c ≠ star) :
    Matches star (c :: p) s ↔ ∃ rest, s = c :: rest ∧ Matches star p rest := by
  constructor
  · intro h
    cases h with
    | letter _ later => exact ⟨_, rfl, later⟩
    | any => exact absurd rfl ordinary
  · rintro ⟨rest, rfl, later⟩
    exact .letter ordinary later

theorem follow_occurs {ps : List (List α)} {s : List α} (h : Follow ps s) : ∀ p ∈ ps, p <:+: s := by
  induction ps generalizing s with
  | nil => exact fun _ member => absurd member List.not_mem_nil
  | cons piece rest ih =>
    obtain ⟨before, after, rfl, later⟩ := h
    intro p member
    rcases List.mem_cons.mp member with rfl | member
    · exact ⟨before, after, by rw [List.append_assoc]⟩
    · have inside := ih later p member
      exact inside.trans ⟨before ++ piece, [], by simp⟩

section Pieces
variable [DecidableEq α] (star)

def fnmatch : List α → List α → Bool
  | [], s => s.isEmpty
  | c :: p, s =>
    if c = star then s.tails.any (fnmatch p) else s.head? = some c && fnmatch p s.tail

def pieces : List α → List α × List (List α)
  | [] => ([], [])
  | c :: p =>
    if c = star then ([], (pieces p).1 :: (pieces p).2) else (c :: (pieces p).1, (pieces p).2)

def allPieces (p : List α) : List (List α) := (pieces star p).1 :: (pieces star p).2

/-- The first piece stands at the start of s, and the others follow it. -/
def Placed (p s : List α) : Prop := ∃ after, s = (pieces star p).1 ++ after ∧ Follow (pieces star p).2 after

variable {star}

theorem fnmatch_iff {p s : List α} : fnmatch star p s = true ↔ Matches star p s := by
  induction p generalizing s with
  | nil => rw [matches_nil, fnmatch, List.isEmpty_iff]
  | cons c p ih =>
    by_cases wild : c = star
    · rw [wild, matches_star, fnmatch, if_pos rfl, List.any_eq_true]
      simp only [List.mem_tails, ih]
      constructor
      · rintro ⟨rest, ⟨skipped, rfl⟩, later⟩
        exact ⟨skipped, rest, rfl, later⟩
      · rintro ⟨skipped, rest, rfl, later⟩
        exact ⟨rest, ⟨skipped, rfl⟩, later⟩
    · rw [matches_letter wild, fnmatch, if_neg wild]
      cases s with
      | nil => simp
      | cons d s =>
        simp only [List.head?_cons, List.tail_cons, Bool.and_eq_true, decide_eq_true_eq,
          Option.some.injEq, ih, List.cons.injEq]
        constructor
        · rintro ⟨rfl, later⟩
          exact ⟨s, ⟨rfl, rfl⟩, later⟩
        · rintro ⟨_, ⟨rfl, rfl⟩, later⟩
          exact ⟨rfl, later⟩

instance {p s : List α} : Decidable (Matches star p s) := decidable_of_iff _ fnmatch_iff

/-- A string matches a pattern if and only if the pieces of the pattern stand in it, in
order and without overlap, from its start to its end. -/
theorem matches_iff_placed {p s : List α} : Matches star p s ↔ Placed star p s := by
  induction p generalizing s with
  | nil => simp [matches_nil, Placed, pieces, Follow]
  | cons c p ih =>
    by_cases wild : c = star
    · rw [wild, matches_star]
      simp only [ih, Placed, pieces, if_pos, Follow, List.nil_append]
      constructor
      · rintro ⟨skipped, _, rfl, after, rfl, later⟩
        exact ⟨_, rfl, skipped, after, rfl, later⟩
      · rintro ⟨_, rfl, skipped, after, rfl, later⟩
        exact ⟨skipped, _, rfl, after, rfl, later⟩
    · rw [matches_letter wild]
      simp only [ih, Placed, pieces, if_neg wild, List.cons_append]
      constructor
      · rintro ⟨_, rfl, after, rfl, later⟩
        exact ⟨after, rfl, later⟩
      · rintro ⟨after, rfl, later⟩
        exact ⟨_, rfl, after, rfl, later⟩

theorem matches_occurs {p s : List α} (h : Matches star p s) : ∀ piece ∈ allPieces star p, piece <:+: s := by
  obtain ⟨after, rfl, later⟩ := matches_iff_placed.mp h
  intro piece member
  rcases List.mem_cons.mp member with rfl | member
  · exact ⟨[], after, rfl⟩
  · exact (follow_occurs later piece member).trans ⟨_, [], List.append_nil _⟩

theorem allPieces_append (p q : List α) :
    allPieces star (p ++ star :: q) = allPieces star p ++ allPieces star q := by
  induction p with
  | nil => simp [allPieces, pieces]
  | cons c p ih =>
    obtain ⟨first, later⟩ := List.cons.inj ih
    by_cases wild : c = star
    · simp [allPieces, pieces, wild, first, later]
    · simp [allPieces, pieces, wild, first, later]

end Pieces

end Foundation.Wildcard
