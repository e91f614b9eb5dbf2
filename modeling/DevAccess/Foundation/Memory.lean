/-! Counted loops and C arrays. An array remembers which of its cells were read
and written; the cells from its size on stand for the memory behind it, so a
program that runs past the end goes on and the fault is seen in the record. -/
namespace Foundation

universe u v

/-- for (i = 0; i < n; i++) s = body i s -/
def forUpTo {S : Type u} (body : Nat → S → S) (s : S) : Nat → S
  | 0 => s
  | n + 1 => body n (forUpTo body s n)

section Loop
variable {S : Type u} {T : Type v}

@[simp] theorem forUpTo_zero (body : Nat → S → S) (s : S) : forUpTo body s 0 = s := rfl

theorem forUpTo_invariant (P : Nat → S → Prop) {body : Nat → S → S} {s : S} (initial : P 0 s)
    {n : Nat} (keeps : ∀ i s, i < n → P i s → P (i + 1) (body i s)) : P n (forUpTo body s n) := by
  induction n with
  | zero => exact initial
  | succ n ih =>
    have earlier := ih (fun i s hi => keeps i s (Nat.lt_succ_of_lt hi))
    exact keeps n _ (Nat.lt_succ_self n) earlier

/-- Two loops side by side keep a relation that each pair of passes keeps. -/
theorem forUpTo_relation (R : S → T → Prop) {f : Nat → S → S} {g : Nat → T → T} {s : S} {t : T}
    (initial : R s t) (keeps : ∀ i s t, R s t → R (f i s) (g i t)) (n : Nat) :
    R (forUpTo f s n) (forUpTo g t n) := by
  induction n with
  | zero => exact initial
  | succ n ih => exact keeps n _ _ ih

end Loop

structure CArray (α : Type u) where
  size : Nat
  cell : Nat → α
  reads : List Nat
  writes : List Nat

namespace CArray
variable {α : Type u} (a : CArray α) (i j : Nat) (x : α)

def fresh (size : Nat) (cell : Nat → α) : CArray α := ⟨size, cell, [], []⟩
def read : α × CArray α := (a.cell i, { a with reads := i :: a.reads })
def write : CArray α :=
  { a with cell := fun j => if j = i then x else a.cell j, writes := i :: a.writes }

def store (xs : List α) : CArray α :=
  { a with
    cell := fun i => xs.getD i (a.cell i)
    writes := List.range xs.length ++ a.writes }

def storeAt (k : Nat) (xs : List α) : CArray α :=
  { a with
    cell := fun i => if k ≤ i then xs.getD (i - k) (a.cell i) else a.cell i
    writes := (List.range xs.length).map (k + ·) ++ a.writes }

def contents (n : Nat) : List α := (List.range n).map a.cell

/-- No access so far was outside the array. -/
def InBounds : Prop := ∀ i, i ∈ a.reads ∨ i ∈ a.writes → i < a.size

@[simp] theorem fresh_size (n : Nat) (f : Nat → α) : (fresh n f).size = n := rfl
@[simp] theorem fresh_cell (n : Nat) (f : Nat → α) : (fresh n f).cell = f := rfl
@[simp] theorem fresh_reads (n : Nat) (f : Nat → α) : (fresh n f).reads = [] := rfl
@[simp] theorem fresh_writes (n : Nat) (f : Nat → α) : (fresh n f).writes = [] := rfl
@[simp] theorem read_value : (a.read i).1 = a.cell i := rfl
@[simp] theorem read_size : (a.read i).2.size = a.size := rfl
@[simp] theorem read_cell : (a.read i).2.cell = a.cell := rfl
@[simp] theorem read_reads : (a.read i).2.reads = i :: a.reads := rfl
@[simp] theorem read_writes : (a.read i).2.writes = a.writes := rfl
@[simp] theorem write_size : (a.write i x).size = a.size := rfl
@[simp] theorem write_cell : (a.write i x).cell j = if j = i then x else a.cell j := rfl
@[simp] theorem write_reads : (a.write i x).reads = a.reads := rfl
@[simp] theorem write_writes : (a.write i x).writes = i :: a.writes := rfl
@[simp] theorem store_size (xs : List α) : (a.store xs).size = a.size := rfl
@[simp] theorem store_cell (xs : List α) : (a.store xs).cell i = xs.getD i (a.cell i) := rfl
@[simp] theorem store_reads (xs : List α) : (a.store xs).reads = a.reads := rfl
@[simp] theorem store_writes (xs : List α) :
    (a.store xs).writes = List.range xs.length ++ a.writes := rfl

@[simp] theorem inBounds_fresh (n : Nat) (f : Nat → α) : (fresh n f).InBounds :=
  fun _ access => by simp at access

@[simp] theorem inBounds_read : (a.read i).2.InBounds ↔ i < a.size ∧ a.InBounds := by
  simp only [InBounds, read_reads, read_writes, read_size, List.mem_cons]
  constructor
  · exact fun all => ⟨all i (.inl (.inl rfl)), fun j access => all j (access.imp_left .inr)⟩
  · rintro ⟨here, rest⟩ j ((rfl | read) | written)
    · exact here
    · exact rest j (.inl read)
    · exact rest j (.inr written)

@[simp] theorem inBounds_write : (a.write i x).InBounds ↔ i < a.size ∧ a.InBounds := by
  simp only [InBounds, write_reads, write_writes, write_size, List.mem_cons]
  constructor
  · exact fun all => ⟨all i (.inr (.inl rfl)), fun j access => all j (access.imp_right .inr)⟩
  · rintro ⟨here, rest⟩ j (read | rfl | written)
    · exact rest j (.inl read)
    · exact here
    · exact rest j (.inr written)

@[simp] theorem inBounds_store (xs : List α) :
    (a.store xs).InBounds ↔ xs.length ≤ a.size ∧ a.InBounds := by
  simp only [InBounds, store_reads, store_writes, store_size, List.mem_append, List.mem_range]
  constructor
  · intro all
    refine ⟨?_, fun j access => all j (access.imp_right .inr)⟩
    exact Nat.le_of_not_lt fun more => Nat.lt_irrefl _ (all a.size (.inr (.inl more)))
  · rintro ⟨fits, rest⟩ j (read | stored | written)
    · exact rest j (.inl read)
    · exact Nat.lt_of_lt_of_le stored fits
    · exact rest j (.inr written)

@[simp] theorem contents_length (n : Nat) : (a.contents n).length = n := by
  simp [contents]

theorem contents_getD {n : Nat} (h : i < n) : (a.contents n).getD i x = a.cell i := by
  simp [contents, List.getD_eq_getElem?_getD, h]

theorem contents_succ (n : Nat) : a.contents (n + 1) = a.contents n ++ [a.cell n] := by
  rw [contents, List.range_succ, List.map_append]
  rfl

theorem contents_congr {b : CArray α} {n : Nat} (same : ∀ i < n, a.cell i = b.cell i) :
    a.contents n = b.contents n :=
  List.map_congr_left fun i inside => same i (List.mem_range.mp inside)

theorem contents_write_behind {n : Nat} (behind : n ≤ i) : (a.write i x).contents n = a.contents n :=
  contents_congr _ fun _ inside => if_neg (Nat.ne_of_lt (Nat.lt_of_lt_of_le inside behind))

theorem contents_write_end (n : Nat) : (a.write n x).contents (n + 1) = a.contents n ++ [x] := by
  rw [contents_succ, contents_write_behind a n x (Nat.le_refl n), write_cell, if_pos rfl]

theorem contents_store (xs : List α) : (a.store xs).contents xs.length = xs := by
  apply List.ext_getElem
  · exact contents_length _ _
  · intro i _ inside
    simp [contents, inside]

theorem contents_storeAt (k : Nat) (xs : List α) :
    (a.storeAt k xs).contents (k + xs.length) = a.contents k ++ xs := by
  have front : (a.storeAt k xs).contents k = a.contents k :=
    contents_congr _ fun i inside => if_neg (Nat.not_le.mpr inside)
  rw [contents, List.range_add, List.map_append, List.map_map]
  change (a.storeAt k xs).contents k ++ _ = _
  rw [front, List.append_cancel_left_eq]
  apply List.ext_getElem
  · simp
  · intro i _ inside
    simp [storeAt, inside]

theorem contents_take {m n : Nat} (less : m ≤ n) : (a.contents n).take m = a.contents m := by
  rw [contents, ← List.map_take, List.take_range, Nat.min_eq_left less]
  rfl

theorem contents_prefix {n : Nat} {xs ys : List α} (stands : a.contents n = xs) (front : ys <+: xs) :
    a.contents ys.length = ys := by
  have less : ys.length ≤ n := by
    rw [← a.contents_length n, stands]
    exact front.length_le
  rw [← a.contents_take less, stands]
  exact (List.prefix_iff_eq_take.mp front).symm

end CArray

end Foundation
