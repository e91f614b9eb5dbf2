/-! Texts with literals between quotes, in which a doubled quote stands for one. -/
namespace Foundation.Literals

variable {α : Type}

inductive Token (α : Type) where
  | char (c : α)
  | literal (s : List α)
  deriving DecidableEq

/-- Where a reader stands: outside of literals, in one of which it has read s, or behind a
quote that ends it unless another follows. -/
inductive Mode (α : Type) where
  | code
  | literal (s : List α)
  | closing (s : List α)

def render (quote : α) : List (List α × List α) → List α → List α
  | [], last => last
  | (code, value) :: rest, last => code ++ quote :: (value ++ quote :: render quote rest last)

structure Separated (quote : α) (parts : List (List α × List α)) (last : List α) : Prop where
  plain : ∀ p ∈ parts, quote ∉ p.1
  apart : ∀ p ∈ parts, p.1 ≠ []
  ending : quote ∉ last

theorem Separated.head {quote : α} {parts : List (List α × List α)} {last : List α}
    (h : Separated quote parts last) : (render quote parts last).head? ≠ some quote := by
  cases parts with
  | nil => exact fun front => h.ending (List.mem_of_head? front)
  | cons p rest =>
    obtain ⟨c, code, first⟩ := List.exists_cons_of_ne_nil (h.apart p List.mem_cons_self)
    intro front
    rw [render, first] at front
    exact h.plain p List.mem_cons_self (Option.some.inj front ▸ first ▸ List.mem_cons_self)

theorem Separated.tail {quote : α} {p : List α × List α} {parts : List (List α × List α)} {last : List α}
    (h : Separated quote (p :: parts) last) : Separated quote parts last :=
  ⟨fun q member => h.plain q (List.mem_cons_of_mem p member),
    fun q member => h.apart q (List.mem_cons_of_mem p member), h.ending⟩

section Scan
variable [DecidableEq α] (quote : α)

def scan : Mode α → List α → Option (List (Token α))
  | .code, [] => some []
  | .code, c :: rest =>
    if c = quote then scan (.literal []) rest else (scan .code rest).map (.char c :: ·)
  | .literal _, [] => none
  | .literal s, c :: rest =>
    if c = quote then scan (.closing s) rest else scan (.literal (s ++ [c])) rest
  | .closing s, [] => some [.literal s]
  | .closing s, c :: rest =>
    if c = quote then scan (.literal (s ++ [c])) rest
    else (scan .code rest).map fun ts => .literal s :: .char c :: ts

def tokens : List (List α × List α) → List α → List (Token α)
  | [], last => last.map .char
  | (code, value) :: rest, last => code.map .char ++ .literal value :: tokens rest last

def cost : List (Token α) → Nat
  | [] => 0
  | .char _ :: ts => 1 + cost ts
  | .literal s :: ts => 2 + s.length + s.count quote + cost ts

def Mode.pending : Mode α → Nat
  | code => 0
  | literal s => 1 + s.length + s.count quote
  | closing s => 2 + s.length + s.count quote

def quotes : List (List α × List α) → Nat
  | [] => 0
  | (_, value) :: rest => value.count quote + quotes rest

variable {quote}

theorem pending_letter {c : α} (ordinary : c ≠ quote) (s : List α) :
    (Mode.literal (s ++ [c])).pending quote = (Mode.literal s).pending quote + 1 := by
  have single : [c].count quote = 0 := List.count_eq_zero.mpr (by simpa [eq_comm] using ordinary)
  simp only [Mode.pending, List.length_append, List.count_append, single, List.length_singleton]
  omega

theorem pending_quote (s : List α) :
    (Mode.literal (s ++ [quote])).pending quote = (Mode.closing s).pending quote + 1 := by
  simp only [Mode.pending, List.length_append, List.count_append, List.count_singleton_self,
    List.length_singleton]
  omega

theorem scan_cost {m : Mode α} {s : List α} {ts : List (Token α)} (read : scan quote m s = some ts) :
    cost quote ts = m.pending quote + s.length := by
  induction s generalizing m ts with
  | nil =>
    cases m with
    | code => cases read; rfl
    | literal s => cases read
    | closing s => cases read; rfl
  | cons c rest ih =>
    rw [List.length_cons]
    cases m with
    | code =>
      rw [scan] at read
      split at read
      · have later := ih read
        simp only [Mode.pending, List.length_nil, List.count_nil] at later ⊢
        omega
      · obtain ⟨us, later, rfl⟩ := Option.map_eq_some_iff.mp read
        rw [cost, ih later]
        omega
    | literal s =>
      rw [scan] at read
      split at read
      · have later := ih read
        simp only [Mode.pending] at later ⊢
        omega
      case isFalse ordinary =>
        rw [ih read, pending_letter ordinary]
        omega
    | closing s =>
      rw [scan] at read
      split at read
      case isTrue same =>
        rw [ih read, same, pending_quote]
        omega
      · obtain ⟨us, later, rfl⟩ := Option.map_eq_some_iff.mp read
        rw [cost, cost, ih later]
        simp only [Mode.pending]
        omega

theorem scan_code {s : List α} (plain : quote ∉ s) (rest : List α) :
    scan quote .code (s ++ rest) = (scan quote .code rest).map (s.map .char ++ ·) := by
  induction s with
  | nil => simp
  | cons c s ih =>
    obtain ⟨front, later⟩ := not_or.mp (mt List.mem_cons.mpr plain)
    rw [List.cons_append, scan, if_neg (Ne.symm front), ih later, Option.map_map]
    rfl

theorem scan_literal {s : List α} (plain : quote ∉ s) (start rest : List α) :
    scan quote (.literal start) (s ++ quote :: rest) = scan quote (.closing (start ++ s)) rest := by
  induction s generalizing start with
  | nil => rw [List.nil_append, scan, if_pos rfl, List.append_nil]
  | cons c s ih =>
    obtain ⟨front, later⟩ := not_or.mp (mt List.mem_cons.mpr plain)
    rw [List.cons_append, scan, if_neg (Ne.symm front), ih later, List.append_assoc]
    rfl

theorem scan_closing (s : List α) {rest : List α} (ends : rest.head? ≠ some quote) :
    scan quote (.closing s) rest = (scan quote .code rest).map (.literal s :: ·) := by
  cases rest with
  | nil => rfl
  | cons c rest =>
    have other : c ≠ quote := fun same => ends (congrArg some same)
    rw [scan, scan, if_neg other, if_neg other, Option.map_map]
    rfl

theorem cost_code (quote : α) (s : List α) (ts : List (Token α)) :
    cost quote (s.map .char ++ ts) = s.length + cost quote ts := by
  induction s with
  | nil => simp
  | cons c s ih =>
    simp only [List.map_cons, List.cons_append, cost, ih, List.length_cons]
    omega

theorem tokens_cost (quote : α) (parts : List (List α × List α)) (last : List α) :
    cost quote (tokens parts last) = (render quote parts last).length + quotes quote parts := by
  induction parts with
  | nil => simpa [tokens, render, quotes, cost] using cost_code quote last []
  | cons p rest ih =>
    simp only [tokens, render, quotes, cost_code, cost, ih, List.length_append, List.length_cons]
    omega

theorem quotes_eq_zero {parts : List (List α × List α)} (none_quoted : quotes quote parts = 0) :
    ∀ p ∈ parts, quote ∉ p.2 := by
  induction parts with
  | nil => exact fun p member => absurd member List.not_mem_nil
  | cons p rest ih =>
    obtain ⟨first, later⟩ := Nat.add_eq_zero_iff.mp none_quoted
    exact List.forall_mem_cons.mpr ⟨List.count_eq_zero.mp first, ih later⟩

/-- Literals put between quotes as they are read back as they are if and only if there is
no quote in any of them. -/
theorem scan_render_iff {parts : List (List α × List α)} {last : List α}
    (h : Separated quote parts last) :
    scan quote .code (render quote parts last) = some (tokens parts last) ↔ ∀ p ∈ parts, quote ∉ p.2 := by
  constructor
  · intro read
    have letters := scan_cost read
    rw [tokens_cost, Mode.pending] at letters
    exact quotes_eq_zero (by omega)
  · intro plain
    induction parts with
    | nil =>
      have whole := scan_code h.ending []
      rw [List.append_nil] at whole
      rw [render, whole]
      simp [scan, tokens]
    | cons p rest ih =>
      have later := ih h.tail fun q member => plain q (List.mem_cons_of_mem p member)
      rw [render, scan_code (h.plain p List.mem_cons_self), scan, if_pos rfl,
        scan_literal (plain p List.mem_cons_self), List.nil_append, scan_closing _ h.tail.head, later]
      rfl

end Scan

end Foundation.Literals
