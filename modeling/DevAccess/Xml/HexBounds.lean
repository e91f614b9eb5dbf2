import DevAccess.Xml.Hex

/-! _Template_HexstrToArray for every element type: where it stays inside its text and
its output. The decoder of Hex.lean is its instance for unsigned char. -/
namespace DevAccess.Xml
open Foundation

/-- What the template uses of _hextype: sizeof, the value 0 and (hextmp << 4) | ctype. -/
structure HexType (H : Type) where
  size : Nat
  positive : 0 < size
  zero : H
  shiftIn : H → Int → H

def HexType.iSize {H : Type} (t : HexType H) : Nat := size t * 2

def unsignedChar : HexType UInt8 := ⟨1, by decide, 0, fun hextmp ctype => hextmp <<< 4 ||| UInt8.ofInt ctype⟩

structure Grouped (H : Type) where
  i : Nat
  j : Nat
  hextmp : H

variable {H : Type}

def digitLoop (t : HexType H) (str : CText) : Nat → Grouped H → Int → Except HexStop (Grouped H)
  | 0, g, _ => .ok g
  | left + 1, g, ctype =>
    if ctype < 0 then .ok g
    else do
      let ctype := toHexChar (← charAt str g.i)
      let i ← advance g.i 1
      let hextmp := if 0 ≤ ctype then t.shiftIn g.hextmp ctype else g.hextmp
      digitLoop t str left ⟨i, g.j + 1, hextmp⟩ ctype

def templateLoop (t : HexType H) (str : CText) (buflen : Int) :
    Nat → Nat → List H → Except HexStop (List H)
  | 0, _, _ => .error .steps
  | fuel + 1, i, out => do
    if (← charAt str i) = '\x00' then return out
    if buflen ≠ 0 ∧ buflen ≤ out.length then return out
    if ← at0x str i then
      templateLoop t str buflen fuel (← advance i 2) out
    else
      let g ← digitLoop t str t.iSize ⟨i, 0, t.zero⟩ 0
      if g.j = 1 then templateLoop t str buflen fuel g.i out
      else templateLoop t str buflen fuel g.i (out ++ [g.hextmp])

def templateHexstrToArray (t : HexType H) (str : CText) (buflen : Int) : Except HexStop (Nat × List H) := do
  let out ← templateLoop t str buflen (str.length + 1) 0 []
  return (out.length, out)

section Instance

theorem groupLoop_template (str : CText) (left : Nat) (g : Group) (ctype : Int) :
    (groupLoop str left g ctype).map (fun g => (⟨g.i, g.j, g.hextmp⟩ : Grouped UInt8)) =
      digitLoop unsignedChar str left ⟨g.i, g.j, g.hextmp⟩ ctype := by
  induction left generalizing g ctype with
  | zero => rfl
  | succ left ih =>
    rw [groupLoop, digitLoop]
    split
    · rfl
    · cases charAt str g.i with
      | error e => rfl
      | ok c =>
        cases advance g.i 1 with
        | error e => rfl
        | ok i => exact ih _ _

theorem hexLoop_template (str : CText) (buflen : Int) (fuel i : Nat) (out : List UInt8) :
    hexLoop str buflen fuel i out = templateLoop unsignedChar str buflen fuel i out := by
  induction fuel generalizing i out with
  | zero => rfl
  | succ fuel ih =>
    have inner := groupLoop_template str 2 ⟨i, 0, 0⟩ 0
    have bound : unsignedChar.iSize = 2 := rfl
    simp only [hexLoop, templateLoop, ih, bound]
    rw [show (⟨i, 0, unsignedChar.zero⟩ : Grouped UInt8) = ⟨i, 0, 0⟩ from rfl, ← inner]
    cases groupLoop str 2 ⟨i, 0, 0⟩ 0 with
    | error e => rfl
    | ok g => rfl

/-- The decoder for unsigned char is the template at that type. -/
theorem hexstrToArray_template (str : CText) (buflen : Int) :
    hexstrToArray str buflen = templateHexstrToArray unsignedChar str buflen := by
  rw [hexstrToArray, templateHexstrToArray, hexLoop_template]

end Instance

/-- The text up to a rest is made of whole tokens, k of them groups of digits: a mark 0x, a
single character that is no digit, a full group, or a shorter one with the character behind it. -/
inductive Whole (iSize : Nat) : CText → Nat → CText → Prop
  | done {s : CText} : Whole iSize s 0 s
  | mark {x : Char} {s r : CText} {k : Nat} (isX : x = 'x' ∨ x = 'X') :
      Whole iSize s k r → Whole iSize ('0' :: x :: s) k r
  | gap {c : Char} {s r : CText} {k : Nat} (other : toHexChar c < 0) :
      Whole iSize s k r → Whole iSize (c :: s) k r
  | full {ds s r : CText} {k : Nat} (digits : ∀ d ∈ ds, 0 ≤ toHexChar d) (size : ds.length = iSize) :
      Whole iSize s k r → Whole iSize (ds ++ s) (k + 1) r
  | short {ds s r : CText} {c : Char} {k : Nat} (digits : ∀ d ∈ ds, 0 ≤ toHexChar d) (some_digit : ds ≠ [])
      (size : ds.length < iSize) (other : toHexChar c < 0) (plain : ¬ (ds = ['0'] ∧ (c = 'x' ∨ c = 'X'))) :
      Whole iSize s k r → Whole iSize (ds ++ c :: s) (k + 1) r

theorem Whole.length_le {iSize k : Nat} {s r : CText} (whole : Whole iSize s k r) : r.length ≤ s.length := by
  induction whole with
  | done => exact Nat.le_refl _
  | mark _ _ ih | gap _ _ ih =>
    simp only [List.length_cons]
    omega
  | full _ _ _ ih =>
    rw [List.length_append]
    omega
  | short _ _ _ _ _ _ ih =>
    rw [List.length_append, List.length_cons]
    omega

/-- The text divides into whole tokens up to its end or up to where the buffer is full, and
that part of it is short enough for an int index. -/
def Divides (iSize : Nat) (str : CText) (buflen : Int) : Prop :=
  ∃ k rest, Whole iSize str k rest ∧ str.length < rest.length + 2147483648 ∧ k ≤ buflen ∧
    (rest = [] ∨ (buflen ≠ 0 ∧ (k : Int) = buflen))

/-- The decoder ends without a read behind the zero, and within the room it was given. -/
def StaysWithin (t : HexType H) (str : CText) (buflen : Int) : Prop :=
  ∃ out, templateHexstrToArray t str buflen = .ok (out.length, out) ∧ out.length ≤ buflen

section Digits
variable {t : HexType H} {str s : CText} {i : Nat}

theorem digitLoop_stop {g : Grouped H} {c : Char} {left : Nat} {ctype : Int} (goes_on : 0 ≤ ctype)
    (read : charAt str g.i = .ok c) (other : toHexChar c < 0) : digitLoop t str (left + 1) g ctype =
      if g.i + 1 < 2147483648 then .ok ⟨g.i + 1, g.j + 1, g.hextmp⟩ else .error .overflow := by
  have value : ¬ 0 ≤ toHexChar c := by omega
  have ended (g : Grouped H) : digitLoop t str left g (toHexChar c) = .ok g := by
    cases left with
    | zero => rfl
    | succ left => exact if_pos other
  rw [digitLoop, if_neg (by omega)]
  simp only [read, bind, Except.bind, if_neg value, ended, advance]
  by_cases fits : g.i + 1 < 2147483648
  · simp only [if_pos fits]
  · simp only [if_neg fits]

theorem digitLoop_digits {ds : CText} (digits : ∀ d ∈ ds, 0 ≤ toHexChar d) {g : Grouped H}
    {ctype : Int} (goes_on : 0 ≤ ctype) (here : At str g.i (ds ++ s)) (small : g.i < 2147483648) :
    ∃ hextmp ctype', 0 ≤ ctype' ∧ ∀ left, digitLoop t str (left + ds.length) g ctype =
      if g.i + ds.length < 2147483648 then
        digitLoop t str left ⟨g.i + ds.length, g.j + ds.length, hextmp⟩ ctype'
      else .error .overflow := by
  induction ds generalizing g ctype with
  | nil => exact ⟨g.hextmp, ctype, goes_on, fun left => (if_pos small).symm⟩
  | cons d ds ih =>
    obtain ⟨read, later⟩ := charAt_cons here
    have digit := digits d List.mem_cons_self
    have step (left : Nat) : digitLoop t str (left + 1) g ctype =
        (advance g.i 1).bind fun i => digitLoop t str left
          ⟨i, g.j + 1, t.shiftIn g.hextmp (toHexChar d)⟩ (toHexChar d) := by
      rw [digitLoop, if_neg (by omega)]
      simp only [read, bind, Except.bind, if_pos digit]
    by_cases fits : g.i + 1 < 2147483648
    · obtain ⟨hextmp, ctype', goes_on', run⟩ := ih (fun e member => digits e (List.mem_cons_of_mem d member))
        (g := ⟨g.i + 1, g.j + 1, t.shiftIn g.hextmp (toHexChar d)⟩) digit later fits
      refine ⟨hextmp, ctype', goes_on', fun left => ?_⟩
      rw [List.length_cons, ← Nat.add_assoc, step, advance, if_pos fits]
      have place : g.i + 1 + ds.length = g.i + (ds.length + 1) := by omega
      have count : g.j + 1 + ds.length = g.j + (ds.length + 1) := by omega
      rw [← place, ← count]
      exact run left
    · refine ⟨g.hextmp, 0, Int.le_refl 0, fun left => ?_⟩
      rw [List.length_cons, ← Nat.add_assoc, step, advance, if_neg fits, if_neg (by omega)]
      rfl

end Digits

section Rounds
variable {t : HexType H} {str s : CText} {i fuel : Nat} {buflen : Int} {out : List H}

def HasRoom (buflen : Int) (out : List H) : Prop := ¬ (buflen ≠ 0 ∧ buflen ≤ out.length)

theorem template_0x {c : Char} (first : charAt str i = .ok c) (more : c ≠ '\x00') (room : HasRoom buflen out)
    (starts : at0x str i = .ok true) : templateLoop t str buflen (fuel + 1) i out =
      (advance i 2).bind fun i => templateLoop t str buflen fuel i out := by
  rw [templateLoop]
  simp only [first, starts, bind, Except.bind, if_neg more, if_neg room]
  rfl

theorem template_group {c : Char} (first : charAt str i = .ok c) (more : c ≠ '\x00')
    (room : HasRoom buflen out) (starts : at0x str i = .ok false) :
    templateLoop t str buflen (fuel + 1) i out =
      (digitLoop t str t.iSize ⟨i, 0, t.zero⟩ 0).bind fun g =>
        if g.j = 1 then templateLoop t str buflen fuel g.i out
        else templateLoop t str buflen fuel g.i (out ++ [g.hextmp]) := by
  rw [templateLoop]
  simp only [first, starts, bind, Except.bind, if_neg more, if_neg room]
  rfl

theorem template_overflow {c : Char} (first : charAt str i = .ok c) (more : c ≠ '\x00')
    (room : HasRoom buflen out) (stops : at0x str i = .error .overflow) :
    templateLoop t str buflen (fuel + 1) i out = .error .overflow := by
  rw [templateLoop]
  simp only [first, stops, bind, Except.bind, if_neg more, if_neg room]

theorem at0x_plain {c : Char} (here : At str i (c :: s))
    (plain : c = '0' → ∀ x ∈ s.head?, ¬ (x = 'x' ∨ x = 'X')) :
    at0x str i = .ok false ∨ (c = '0' ∧ ¬ i + 1 < 2147483648 ∧ at0x str i = .error .overflow) := by
  obtain ⟨first, later⟩ := charAt_cons here
  by_cases zero : c = '0'
  · by_cases fits : i + 1 < 2147483648
    · left
      cases s with
      | nil => simp [at0x, first, zero, advance, fits, charAt_nil later, bind, Except.bind, pure, Except.pure]
      | cons x s =>
        have other := plain zero x rfl
        simp [at0x, first, zero, advance, fits, (charAt_cons later).1, other, bind, Except.bind, pure,
          Except.pure]
    · exact .inr ⟨zero, fits, by simp [at0x, first, zero, advance, fits, bind, Except.bind]⟩
  · exact .inl (by simp [at0x, first, zero, bind, Except.bind, pure, Except.pure])

theorem digit_char {c : Char} (digit : 0 ≤ toHexChar c) : c ≠ '\x00' ∧ c ≠ 'x' ∧ c ≠ 'X' := by
  refine ⟨?_, ?_, ?_⟩
  · rintro rfl
    exact absurd digit (by decide)
  · rintro rfl
    exact absurd digit (by decide)
  · rintro rfl
    exact absurd digit (by decide)

theorem round_mark {x : Char} (here : At str i ('0' :: x :: s)) (isX : x = 'x' ∨ x = 'X')
    (room : HasRoom buflen out) : templateLoop t str buflen (fuel + 1) i out =
      if i + 2 < 2147483648 then templateLoop t str buflen fuel (i + 2) out else .error .overflow := by
  obtain ⟨first, -⟩ := charAt_cons here
  by_cases fits : i + 1 < 2147483648
  · rw [template_0x first (by decide) room (at0x_mark here isX fits), advance]
    split
    · rfl
    · rfl
  · rw [template_overflow first (by decide) room (at0x_overflow here fits), if_neg (by omega)]

theorem round_gap {c : Char} (here : At str i (c :: s)) (more : c ≠ '\x00') (other : toHexChar c < 0)
    (room : HasRoom buflen out) : templateLoop t str buflen (fuel + 1) i out =
      if i + 1 < 2147483648 then templateLoop t str buflen fuel (i + 1) out else .error .overflow := by
  obtain ⟨first, -⟩ := charAt_cons here
  have starts : at0x str i = .ok false := by
    rcases at0x_plain here (by rintro rfl; exact absurd other (by decide)) with plain | ⟨zero, -, -⟩
    · exact plain
    · rw [zero] at other
      exact absurd other (by decide)
  obtain ⟨n, bound⟩ : ∃ n, t.iSize = n + 1 :=
    ⟨t.iSize - 1, by have := t.positive; unfold HexType.iSize; omega⟩
  rw [template_group first more room starts, bound, digitLoop_stop (Int.le_refl 0) first other]
  split <;> rfl

theorem round_digits (fuel : Nat) {ds : CText} (digits : ∀ d ∈ ds, 0 ≤ toHexChar d) (some_digit : ds ≠ [])
    (size : ds.length ≤ t.iSize) (here : At str i (ds ++ s)) (small : i < 2147483648)
    (plain : ds = ['0'] → ∀ x ∈ s.head?, ¬ (x = 'x' ∨ x = 'X')) (room : HasRoom buflen out) :
    ∃ hextmp ctype, 0 ≤ ctype ∧ templateLoop t str buflen (fuel + 1) i out =
      if i + ds.length < 2147483648 then
        (digitLoop t str (t.iSize - ds.length) ⟨i + ds.length, ds.length, hextmp⟩ ctype).bind fun g =>
          if g.j = 1 then templateLoop t str buflen fuel g.i out
          else templateLoop t str buflen fuel g.i (out ++ [g.hextmp])
      else .error .overflow := by
  obtain ⟨d, rest, rfl⟩ := List.exists_cons_of_ne_nil some_digit
  obtain ⟨first, -⟩ := charAt_cons here
  have more := (digit_char (digits d List.mem_cons_self)).1
  have unmarked : d = '0' → ∀ x ∈ (rest ++ s).head?, ¬ (x = 'x' ∨ x = 'X') := by
    rintro rfl
    cases rest with
    | nil => exact plain rfl
    | cons e rest =>
      intro x next isX
      cases next
      have other := (digit_char (digits e (by simp))).2
      exact isX.elim other.1 other.2
  rcases at0x_plain here unmarked with starts | ⟨-, large, stops⟩
  · obtain ⟨hextmp, ctype, goes_on, run⟩ :=
      digitLoop_digits (t := t) (g := ⟨i, 0, t.zero⟩) digits (Int.le_refl 0) here small
    have bound : t.iSize - (d :: rest).length + (d :: rest).length = t.iSize := Nat.sub_add_cancel size
    have run := run (t.iSize - (d :: rest).length)
    rw [bound, Nat.zero_add] at run
    refine ⟨hextmp, ctype, goes_on, ?_⟩
    rw [template_group first more room starts, run]
    split <;> rfl
  · refine ⟨t.zero, 0, Int.le_refl 0, ?_⟩
    rw [template_overflow first more room stops, if_neg (by rw [List.length_cons]; omega)]

theorem iSize_ge (t : HexType H) : 2 ≤ t.iSize := by
  have positive := t.positive
  unfold HexType.iSize
  omega

theorem round_full (fuel : Nat) {ds : CText} (digits : ∀ d ∈ ds, 0 ≤ toHexChar d) (size : ds.length = t.iSize)
    (here : At str i (ds ++ s)) (small : i < 2147483648) (room : HasRoom buflen out) :
    ∃ hextmp, templateLoop t str buflen (fuel + 1) i out =
      if i + ds.length < 2147483648 then templateLoop t str buflen fuel (i + ds.length) (out ++ [hextmp])
      else .error .overflow := by
  have two := iSize_ge t
  have some_digit : ds ≠ [] := List.ne_nil_of_length_pos (by omega)
  have plain : ds = ['0'] → ∀ x ∈ s.head?, ¬ (x = 'x' ∨ x = 'X') := by
    intro single
    rw [single, List.length_singleton] at size
    omega
  obtain ⟨hextmp, ctype, -, run⟩ :=
    round_digits fuel digits some_digit (Nat.le_of_eq size) here small plain room
  refine ⟨hextmp, run.trans ?_⟩
  have several : ds.length ≠ 1 := by omega
  rw [size, Nat.sub_self, ← size]
  simp only [digitLoop, Except.bind, if_neg several]

theorem round_short (fuel : Nat) {ds : CText} {c : Char} (digits : ∀ d ∈ ds, 0 ≤ toHexChar d)
    (some_digit : ds ≠ [])
    (size : ds.length < t.iSize) (other : toHexChar c < 0) (plain : ¬ (ds = ['0'] ∧ (c = 'x' ∨ c = 'X')))
    (here : At str i (ds ++ c :: s)) (small : i < 2147483648) (room : HasRoom buflen out) :
    ∃ hextmp, templateLoop t str buflen (fuel + 1) i out =
      if i + (ds.length + 1) < 2147483648 then
        templateLoop t str buflen fuel (i + (ds.length + 1)) (out ++ [hextmp])
      else .error .overflow := by
  have unmarked : ds = ['0'] → ∀ x ∈ (c :: s).head?, ¬ (x = 'x' ∨ x = 'X') := by
    intro single x next isX
    cases next
    exact plain ⟨single, isX⟩
  obtain ⟨hextmp, ctype, goes_on, run⟩ :=
    round_digits fuel digits some_digit (Nat.le_of_lt size) here small unmarked room
  obtain ⟨read, -⟩ := charAt_cons (at_append here)
  obtain ⟨left, bound⟩ : ∃ left, t.iSize - ds.length = left + 1 := ⟨t.iSize - ds.length - 1, by omega⟩
  refine ⟨hextmp, run.trans ?_⟩
  have several : ds.length + 1 ≠ 1 := by
    have := List.length_pos_iff.mpr some_digit
    omega
  rw [bound, digitLoop_stop goes_on read other, ← Nat.add_assoc]
  by_cases fits : i + ds.length + 1 < 2147483648
  · simp only [if_pos fits, if_pos (show i + ds.length < 2147483648 by omega), Except.bind, if_neg several]
  · simp only [if_neg fits, Except.bind]
    split <;> rfl

theorem round_cut (fuel : Nat) {ds : CText} (digits : ∀ d ∈ ds, 0 ≤ toHexChar d) (some_digit : ds ≠ [])
    (size : ds.length < t.iSize) (here : At str i ds) (small : i < 2147483648) (room : HasRoom buflen out)
    (out' : List H) : templateLoop t str buflen (fuel + 1) i out ≠ .ok out' := by
  rw [← List.append_nil ds] at here
  obtain ⟨hextmp, ctype, goes_on, run⟩ := round_digits fuel digits some_digit (Nat.le_of_lt size)
    here small (fun _ x none => nomatch none) room
  have ended := at_append here
  have last : i + ds.length = str.length := Nat.le_antisymm ended.1 (List.drop_eq_nil_iff.mp ended.2)
  obtain ⟨left, bound⟩ : ∃ left, t.iSize - ds.length = left + 1 := ⟨t.iSize - ds.length - 1, by omega⟩
  have behind (out : List H) : templateLoop t str buflen fuel (str.length + 1) out ≠ .ok out' := by
    cases fuel with
    | zero => simp [templateLoop]
    | succ fuel =>
      have outside : charAt str (str.length + 1) = .error .pastEnd := by simp [charAt]
      rw [templateLoop, outside]
      simp [bind, Except.bind]
  rw [run, bound, digitLoop_stop goes_on (charAt_nil ended) (by decide), last]
  split
  · split
    · simp only [Except.bind]
      split <;> exact behind _
    · simp [Except.bind]
  · simp

end Rounds

section Division
variable {t : HexType H} {str s : CText} {i fuel : Nat} {buflen : Int} {out : List H}

/-- What can stand next in a text: a whole token, or digits that the end cuts short. -/
inductive Next (iSize : Nat) : CText → Prop
  | mark {x : Char} {s : CText} (isX : x = 'x' ∨ x = 'X') : Next iSize ('0' :: x :: s)
  | gap {c : Char} {s : CText} (other : toHexChar c < 0) : Next iSize (c :: s)
  | full {ds s : CText} (digits : ∀ d ∈ ds, 0 ≤ toHexChar d) (size : ds.length = iSize) : Next iSize (ds ++ s)
  | short {ds s : CText} {c : Char} (digits : ∀ d ∈ ds, 0 ≤ toHexChar d) (some_digit : ds ≠ [])
      (size : ds.length < iSize) (other : toHexChar c < 0) (plain : ¬ (ds = ['0'] ∧ (c = 'x' ∨ c = 'X'))) :
      Next iSize (ds ++ c :: s)
  | cut {ds : CText} (digits : ∀ d ∈ ds, 0 ≤ toHexChar d) (some_digit : ds ≠ []) (size : ds.length < iSize) :
      Next iSize ds

theorem next_token (iSize : Nat) (nonempty : s ≠ []) : Next iSize s := by
  have parts := List.takeWhile_append_dropWhile (p := fun c => decide (0 ≤ toHexChar c)) (l := s)
  have digits : ∀ d ∈ s.takeWhile (fun c => decide (0 ≤ toHexChar c)), 0 ≤ toHexChar d := by
    intro d member
    simpa using List.all_eq_true.mp List.all_takeWhile d member
  generalize s.takeWhile (fun c => decide (0 ≤ toHexChar c)) = ds at parts digits
  cases behind : s.dropWhile (fun c => decide (0 ≤ toHexChar c)) with
  | nil =>
    rw [behind, List.append_nil] at parts
    subst parts
    rcases Nat.lt_or_ge ds.length iSize with few | many
    · exact .cut digits nonempty few
    · rw [← List.take_append_drop iSize ds]
      exact .full (fun d member => digits d (List.mem_of_mem_take member)) (List.length_take_of_le many)
  | cons c rest =>
    have other : toHexChar c < 0 := by
      have front := List.head?_dropWhile_not (fun c => decide (0 ≤ toHexChar c)) s
      rw [behind] at front
      simpa using front
    rw [behind] at parts
    subst parts
    rcases Nat.lt_or_ge ds.length iSize with few | many
    · by_cases none : ds = []
      · rw [none]
        exact .gap other
      · by_cases mark : ds = ['0'] ∧ (c = 'x' ∨ c = 'X')
        · rw [mark.1]
          exact .mark mark.2
        · exact .short digits none few other mark
    · have split : ds ++ c :: rest = ds.take iSize ++ (ds.drop iSize ++ c :: rest) := by
        rw [← List.append_assoc, List.take_append_drop]
      rw [split]
      exact .full (fun d member => digits d (List.mem_of_mem_take member)) (List.length_take_of_le many)

def Ended (iSize : Nat) (buflen : Int) (i : Nat) (s : CText) (before n : Nat) : Prop :=
  ∃ k rest, Whole iSize s k rest ∧ i + s.length < rest.length + 2147483648 ∧ n = before + k ∧
    (rest = [] ∨ (buflen ≠ 0 ∧ buflen ≤ n))

theorem Ended.token {iSize before n : Nat} (token : CText) (g : Nat)
    (whole : ∀ {k : Nat} {rest : CText}, Whole iSize s k rest → Whole iSize (token ++ s) (k + g) rest)
    (later : Ended iSize buflen (i + token.length) s (before + g) n) :
    Ended iSize buflen i (token ++ s) before n := by
  obtain ⟨k, rest, read, within, count, full⟩ := later
  refine ⟨k + g, rest, whole read, ?_, ?_, full⟩
  · rw [List.length_append]
    omega
  · omega

theorem loop_divides {out' : List H} (noNul : '\x00' ∉ s) (here : At str i s) (small : i < 2147483648)
    (run : templateLoop t str buflen fuel i out = .ok out') :
    Ended t.iSize buflen i s out.length out'.length := by
  induction fuel generalizing i s out with
  | zero => cases run
  | succ fuel ih =>
    by_cases ended : s = []
    · subst ended
      rw [templateLoop, charAt_nil here] at run
      cases Except.ok.inj run
      exact ⟨0, [], .done, by simpa using small, rfl, .inl rfl⟩
    have next := next_token t.iSize ended
    by_cases room : HasRoom buflen out
    · cases next with
      | @mark x rest isX =>
        rw [round_mark here isX room] at run
        split at run
        · rename_i fits
          have later := (charAt_cons (charAt_cons here).2).2
          exact (ih (fun nul => noNul (by simp [nul])) later fits run).token ['0', x] 0 (.mark isX)
        · cases run
      | @gap c rest other =>
        rw [round_gap here (fun nul => noNul (by simp [nul])) other room] at run
        split at run
        · rename_i fits
          have later := (charAt_cons here).2
          exact (ih (fun nul => noNul (by simp [nul])) later fits run).token [c] 0 (.gap other)
        · cases run
      | @full ds rest digits size =>
        obtain ⟨hextmp, round⟩ := round_full fuel digits size here small room
        rw [round] at run
        split at run
        · rename_i fits
          have read := ih (fun nul => noNul (by simp [nul])) (at_append here) fits run
          rw [List.length_append, List.length_singleton] at read
          exact read.token ds 1 (.full digits size)
        · cases run
      | @short ds rest c digits some_digit size other plain =>
        obtain ⟨hextmp, round⟩ :=
          round_short fuel digits some_digit size other plain here small room
        rw [round] at run
        split at run
        · rename_i fits
          have later := (charAt_cons (at_append here)).2
          rw [Nat.add_assoc] at later
          have read := ih (fun nul => noNul (by simp [nul])) later fits run
          rw [List.length_append, List.length_singleton] at read
          rw [List.append_cons]
          refine Ended.token (ds ++ [c]) 1 (fun whole => ?_) (by rw [List.length_append]; exact read)
          rw [← List.append_cons]
          exact .short digits some_digit size other plain whole
        · cases run
      | cut digits some_digit size =>
        exact absurd run (round_cut fuel digits some_digit size here small room out')
    · obtain ⟨c, rest, same⟩ := List.exists_cons_of_ne_nil ended
      have first := (charAt_cons (same ▸ here)).1
      have more : c ≠ '\x00' := fun nul => noNul (by simp [same, nul])
      have full := Decidable.not_not.mp room
      rw [templateLoop] at run
      simp only [first, bind, Except.bind, if_neg more, if_pos full] at run
      cases Except.ok.inj run
      exact ⟨0, s, .done, by omega, rfl, .inr full⟩

theorem loop_stops (noNul : '\x00' ∉ s) (here : At str i s)
    (finished : s = [] ∨ (buflen ≠ 0 ∧ buflen ≤ out.length)) :
    templateLoop t str buflen (fuel + 1) i out = .ok out := by
  cases s with
  | nil =>
    rw [templateLoop, charAt_nil here]
    rfl
  | cons c rest =>
    have more : c ≠ '\x00' := fun nul => noNul (by simp [nul])
    have full := finished.resolve_left (List.cons_ne_nil c rest)
    rw [templateLoop]
    simp only [(charAt_cons here).1, bind, Except.bind, if_neg more, if_pos full]
    rfl

theorem loop_whole {k : Nat} {rest : CText} (fuel : Nat) (out : List H)
    (whole : Whole t.iSize s k rest) (noNul : '\x00' ∉ s)
    (here : At str i s) (small : i < 2147483648) (short : i + s.length < rest.length + 2147483648)
    (enough : s.length < fuel) (fits : ((out.length + k : Nat) : Int) ≤ buflen)
    (ends : rest = [] ∨ (buflen ≠ 0 ∧ ((out.length + k : Nat) : Int) = buflen)) :
    ∃ out', templateLoop t str buflen fuel i out = .ok out' ∧ out'.length = out.length + k := by
  induction whole generalizing i fuel out with
  | done =>
    obtain ⟨fuel, rfl⟩ : ∃ n, fuel = n + 1 := ⟨fuel - 1, by omega⟩
    exact ⟨out, loop_stops noNul here (ends.imp_right fun full => ⟨full.1, by omega⟩), rfl⟩
  | @mark x s r k isX whole ih =>
    obtain ⟨fuel, rfl⟩ : ∃ n, fuel = n + 1 := ⟨fuel - 1, by omega⟩
    by_cases room : HasRoom buflen out
    · have length := whole.length_le
      simp only [List.length_cons] at short enough
      rw [round_mark here isX room, if_pos (by omega)]
      exact ih fuel out (fun nul => noNul (by simp [nul])) (charAt_cons (charAt_cons here).2).2 (by omega)
        (by omega) (by omega) fits ends
    · have full := Decidable.not_not.mp room
      exact ⟨out, loop_stops noNul here (.inr full), by omega⟩
  | @gap c s r k other whole ih =>
    obtain ⟨fuel, rfl⟩ : ∃ n, fuel = n + 1 := ⟨fuel - 1, by omega⟩
    by_cases room : HasRoom buflen out
    · have length := whole.length_le
      simp only [List.length_cons] at short enough
      rw [round_gap here (fun nul => noNul (by simp [nul])) other room, if_pos (by omega)]
      exact ih fuel out (fun nul => noNul (by simp [nul])) (charAt_cons here).2 (by omega) (by omega)
        (by omega) fits ends
    · have full := Decidable.not_not.mp room
      exact ⟨out, loop_stops noNul here (.inr full), by omega⟩
  | @full ds s r k digits size whole ih =>
    obtain ⟨fuel, rfl⟩ : ∃ n, fuel = n + 1 := ⟨fuel - 1, by omega⟩
    have room : HasRoom buflen out := by unfold HasRoom; omega
    have two := iSize_ge t
    have length := whole.length_le
    obtain ⟨hextmp, round⟩ := round_full fuel digits size here small room
    have count : (out ++ [hextmp]).length = out.length + 1 := by simp
    rw [List.length_append] at short enough
    rw [round, if_pos (by omega)]
    obtain ⟨out', run, total⟩ := ih fuel (out ++ [hextmp]) (fun nul => noNul (by simp [nul]))
      (at_append here) (by omega) (by omega) (by omega) (by omega)
      (ends.imp_right fun full => ⟨full.1, by omega⟩)
    exact ⟨out', run, by omega⟩
  | @short ds s r c k digits some_digit size other plain whole ih =>
    obtain ⟨fuel, rfl⟩ : ∃ n, fuel = n + 1 := ⟨fuel - 1, by omega⟩
    have room : HasRoom buflen out := by unfold HasRoom; omega
    have length := whole.length_le
    obtain ⟨hextmp, round⟩ := round_short fuel digits some_digit size other plain here small room
    have count : (out ++ [hextmp]).length = out.length + 1 := by simp
    have later := (charAt_cons (at_append here)).2
    rw [Nat.add_assoc] at later
    rw [List.length_append, List.length_cons] at short enough
    rw [round, if_pos (by omega)]
    obtain ⟨out', run, total⟩ := ih fuel (out ++ [hextmp]) (fun nul => noNul (by simp [nul])) later
      (by omega) (by omega) (by omega) (by omega) (ends.imp_right fun full => ⟨full.1, by omega⟩)
    exact ⟨out', run, by omega⟩

/-- The decoder stays within its text and its buffer exactly where the text divides into
whole groups, as far as the buffer reaches. -/
theorem hexstr_within_iff (t : HexType H) (str : CText) (buflen : Int)
    (noNul : '\x00' ∉ str) : StaysWithin t str buflen ↔ Divides t.iSize str buflen := by
  have start : At str 0 str := ⟨Nat.zero_le _, rfl⟩
  constructor
  · rintro ⟨out, run, room⟩
    cases decoded : templateLoop t str buflen (str.length + 1) 0 [] with
    | error e =>
      rw [templateHexstrToArray, decoded] at run
      cases run
    | ok got =>
      rw [templateHexstrToArray, decoded] at run
      have same : (got.length, got) = (out.length, out) := Except.ok.inj run
      obtain rfl : got = out := congrArg Prod.snd same
      obtain ⟨k, rest, whole, short, count, ended⟩ := loop_divides noNul start (by decide) decoded
      rw [List.length_nil, Nat.zero_add] at count
      refine ⟨k, rest, whole, by omega, by omega, ended.imp_right fun full => ⟨full.1, by omega⟩⟩
  · rintro ⟨k, rest, whole, short, fits, ends⟩
    obtain ⟨out, run, count⟩ := loop_whole (str.length + 1) ([] : List H) whole noNul start (by decide)
      (by omega) (Nat.lt_succ_self _) (by simpa using fits) (by simpa using ends)
    rw [List.length_nil, Nat.zero_add] at count
    exact ⟨out, by rw [templateHexstrToArray, run]; rfl, by omega⟩

/-- The sample of the header comment that ends in a single digit: the zero is stepped over. -/
theorem sample_reads_behind :
    ¬ StaysWithin unsignedChar "a b cc d 0xa".toList 16 := by
  rintro ⟨out, run, -⟩
  have stops : hexstrToArray "a b cc d 0xa".toList 16 = .error .pastEnd := by decide
  rw [← hexstrToArray_template, stops] at run
  cases run

theorem two_digits (d : Char) (digit : 0 ≤ toHexChar d) : ∀ e ∈ [d, d], 0 ≤ toHexChar e :=
  List.forall_mem_cons.mpr ⟨digit, List.forall_mem_singleton.mpr digit⟩

theorem sample_within : StaysWithin unsignedChar "aa bb".toList 2 :=
  (hexstr_within_iff unsignedChar "aa bb".toList 2 (by decide)).mpr
    ⟨2, [], .full (two_digits 'a' (by decide)) rfl
      (.gap (by decide) (.full (two_digits 'b' (by decide)) rfl .done)),
      by decide, by decide, .inl rfl⟩

end Division

end DevAccess.Xml
