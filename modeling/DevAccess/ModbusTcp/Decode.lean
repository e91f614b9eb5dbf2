import DevAccess.ModbusTcp.Calls

/-! The decoding loops of the read operations: which cells of to_rec they read and
what they leave in the buffer, for both kinds of loop body at once. -/
namespace DevAccess.ModbusTcp
open Foundation

/-- One pass of a decoding loop reads the given cells, stores one value that depends
on to_rec alone, and changes no other cell of either array. -/
structure TakesAt {β : Type} (take : Nat → CArray UInt8 × CArray β → CArray UInt8 × CArray β)
    (indices : Nat → List Nat) (value : (Nat → UInt8) → Nat → β) : Prop where
  cell : ∀ i s, (take i s).1.cell = s.1.cell
  writes : ∀ i s, (take i s).1.writes = s.1.writes
  reads : ∀ i s j, j ∈ (take i s).1.reads ↔ j ∈ indices i ∨ j ∈ s.1.reads
  stored : ∀ i s j, (take i s).2.cell j = if j = i then value s.1.cell i else s.2.cell j

/-- What a decoding loop of n passes leaves. -/
structure Decoded {β : Type} (indices : Nat → List Nat) (value : (Nat → UInt8) → Nat → β)
    (toRec : CArray UInt8) (buffer : CArray β) (n : Nat) (d : CArray UInt8 × CArray β) : Prop where
  cell : d.1.cell = toRec.cell
  writes : d.1.writes = toRec.writes
  reads : ∀ j, j ∈ d.1.reads ↔ j ∈ toRec.reads ∨ ∃ i < n, j ∈ indices i
  stored : ∀ j, d.2.cell j = if j < n then value toRec.cell j else buffer.cell j

theorem TakesAt.loop {β : Type} {take : Nat → CArray UInt8 × CArray β → CArray UInt8 × CArray β}
    {indices : Nat → List Nat} {value : (Nat → UInt8) → Nat → β} (h : TakesAt take indices value)
    (toRec : CArray UInt8) (buffer : CArray β) (n : Nat) :
    Decoded indices value toRec buffer n (forUpTo take (toRec, buffer) n) := by
  apply forUpTo_invariant (fun i d => Decoded indices value toRec buffer i d)
  · constructor <;> simp
  · intro i d _ ih
    constructor
    · rw [h.cell, ih.cell]
    · rw [h.writes, ih.writes]
    · intro j
      rw [h.reads, ih.reads]
      constructor
      · rintro (now | before | ⟨k, hk, earlier⟩)
        · exact .inr ⟨i, Nat.lt_succ_self i, now⟩
        · exact .inl before
        · exact .inr ⟨k, Nat.lt_succ_of_lt hk, earlier⟩
      · rintro (before | ⟨k, hk, pass⟩)
        · exact .inr (.inl before)
        · rcases Nat.lt_succ_iff_lt_or_eq.mp hk with earlier | rfl
          · exact .inr (.inr ⟨k, earlier, pass⟩)
          · exact .inl pass
    · intro j
      rw [h.stored, ih.stored, ih.cell]
      by_cases now : j = i
      · simp [now]
      · have same : j < i + 1 ↔ j < i := by omega
        simp [now, same]

def registerAt (cell : Nat → UInt8) (i : Nat) : UInt16 := joined (cell (9 + 2 * i)) (cell (10 + 2 * i))

def bitAt (cell : Nat → UInt8) (i : Nat) : Bool := bit (cell (9 + i / 8)) (i % 8)

theorem takeRegister_takes :
    TakesAt takeRegister (fun i => [9 + 2 * i, 10 + 2 * i]) registerAt := by
  constructor
  · intro i s; rfl
  · intro i s; rfl
  · intro i s j
    simp only [takeRegister, CArray.read_reads, List.mem_cons, List.not_mem_nil, or_false]
    constructor
    · rintro (low | high | old)
      · exact .inl (.inr low)
      · exact .inl (.inl high)
      · exact .inr old
    · rintro ((high | low) | old)
      · exact .inr (.inl high)
      · exact .inl low
      · exact .inr (.inr old)
  · intro i s j
    by_cases now : j = i <;> simp [takeRegister, registerAt, joined, now]

theorem takeBit_takes : TakesAt takeBit (fun i => [9 + i / 8]) bitAt := by
  constructor
  · intro i s; rfl
  · intro i s; rfl
  · intro i s j; simp [takeBit]
  · intro i s j; rfl

/-- Of the array, the first n cells have been written and no other has been touched. -/
structure Touched {β : Type} (before : CArray β) (n : Nat) (after : CArray β) : Prop where
  size : after.size = before.size
  writes : ∀ j, j ∈ after.writes ↔ j ∈ before.writes ∨ j < n
  reads : ∀ j ∈ after.reads, j ∈ before.reads ∨ j < n

/-- The buffer holds the values in front and is otherwise as before. -/
structure FilledWith {β : Type} (before : CArray β) (vs : List β) (after : CArray β) : Prop where
  touched : Touched before vs.length after
  values : ∀ i (hi : i < vs.length), after.cell i = vs[i]
  others : ∀ j, vs.length ≤ j → after.cell j = before.cell j

/-- One pass of a decoding loop touches one cell of the buffer. -/
structure FillsAt {β : Type} (take : Nat → CArray UInt8 × CArray β → CArray UInt8 × CArray β) :
    Prop where
  size : ∀ i s, (take i s).2.size = s.2.size
  writes : ∀ i s j, j ∈ (take i s).2.writes ↔ j = i ∨ j ∈ s.2.writes
  reads : ∀ i s, ∀ j ∈ (take i s).2.reads, j = i ∨ j ∈ s.2.reads

theorem takeRegister_fills : FillsAt takeRegister := by
  constructor
  · intro i s; rfl
  · intro i s j
    simp only [takeRegister, CArray.write_writes, CArray.read_writes, List.mem_cons]
    exact ⟨fun h => h.elim .inl id, .inr⟩
  · intro i s j touched
    simpa only [takeRegister, CArray.write_reads, CArray.read_reads, List.mem_cons] using touched

theorem takeBit_fills : FillsAt takeBit := by
  constructor
  · intro i s; rfl
  · intro i s j; simp only [takeBit, CArray.write_writes, List.mem_cons]
  · intro i s j touched; exact .inr touched

theorem FillsAt.loop {β : Type} {take : Nat → CArray UInt8 × CArray β → CArray UInt8 × CArray β}
    (h : FillsAt take) (toRec : CArray UInt8) (buffer : CArray β) (n : Nat) :
    Touched buffer n (forUpTo take (toRec, buffer) n).2 := by
  apply forUpTo_invariant (fun i (d : CArray UInt8 × CArray β) => Touched buffer i d.2)
  · exact ⟨rfl, fun j => (or_iff_left (Nat.not_lt_zero j)).symm, fun j read => .inl read⟩
  · intro i d _ ih
    constructor
    · rw [h.size, ih.size]
    · intro j
      have range : j < i + 1 ↔ j = i ∨ j < i := by omega
      rw [h.writes, ih.writes, range]
      exact or_left_comm
    · intro j touched
      rcases h.reads i d j touched with rfl | before
      · exact .inr (Nat.lt_succ_self j)
      · exact (ih.reads j before).imp_right Nat.lt_succ_of_lt

theorem TakesAt.filled {β : Type} {take : Nat → CArray UInt8 × CArray β → CArray UInt8 × CArray β}
    {indices : Nat → List Nat} {value : (Nat → UInt8) → Nat → β} (h : TakesAt take indices value)
    (fills : FillsAt take) {toRec : CArray UInt8} (buffer : CArray β) {vs : List β}
    (spelled : ∀ i (hi : i < vs.length), value toRec.cell i = vs[i]) :
    FilledWith buffer vs (forUpTo take (toRec, buffer) vs.length).2 := by
  have d := h.loop toRec buffer vs.length
  refine ⟨fills.loop toRec buffer vs.length, ?_, ?_⟩
  · intro i hi
    rw [d.stored, if_pos hi, spelled i hi]
  · intro j behind
    rw [d.stored, if_neg (Nat.not_lt.mpr behind)]

def ReadCall.indices : ReadCall → Nat → List Nat
  | holdingRegisters .. | inputRegisters .. => fun i => [9 + 2 * i, 10 + 2 * i]
  | coils .. | inputBits .. => fun i => [9 + i / 8]

theorem ReadCall.decode_scans (toRec : CArray UInt8) (c : ReadCall) :
    (c.decode toRec).1.writes = toRec.writes ∧
      ∀ j, j ∈ (c.decode toRec).1.reads ↔
        j ∈ toRec.reads ∨ ∃ i < c.amount.toNat, j ∈ c.indices i := by
  cases c with
  | holdingRegisters a n b | inputRegisters a n b =>
    have d := takeRegister_takes.loop toRec b n.toNat
    exact ⟨d.writes, d.reads⟩
  | coils a n b | inputBits a n b =>
    have d := takeBit_takes.loop toRec b n.toNat
    exact ⟨d.writes, d.reads⟩

theorem ReadCall.toRec_decoded {σ : Type} (p : Platform σ) {m : Modbus} (w : σ) {c : ReadCall}
    (connected : m.connected = true) (accepted : (Call.read c).Accepted) {r : Received}
    (got : (answer p m w (c.toSend (p.memory w) m) 12).1 = r) (normal : verdict c.func r = .ok ()) :
    ∃ a, (c.perform p m w).locals.toRec = some a ∧
      a.writes = (examined (p.memory w) c.func r).writes ∧
      ∀ j, j ∈ a.reads ↔ j ∈ (examined (p.memory w) c.func r).reads ∨
        ∃ i < c.amount.toNat, j ∈ c.indices i := by
  subst got
  obtain ⟨writes, reads⟩ := c.decode_scans (examined (p.memory w) c.func _)
  exact ⟨_, by simp only [c.perform_eq p w connected accepted, normal], writes, reads⟩

end DevAccess.ModbusTcp
