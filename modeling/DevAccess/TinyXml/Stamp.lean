import DevAccess.TinyXml.Base

/-! TiXmlParsingData::Stamp, which counts rows and columns up to a place of the text. What it counts
is read by nothing, but its loop stands still at a byte 0xEF that two others do not follow. -/
namespace DevAccess.TinyXml
open Foundation

structure TiXmlCursor where
  row : Int
  col : Int
deriving DecidableEq

/-- The rounds of the loop from p, with n bytes left to now. The result is none inside where the
text is over before that. -/
def stampLoop (tabsize : Int) (encoding : Encoding) :
    Nat → TiXmlCursor → CText → Nat → Option (Option (TiXmlCursor × CText))
  | _, cursor, p, 0 => some (some (cursor, p))
  | 0, _, _, _ + 1 => none
  | rounds + 1, cursor, p, n + 1 =>
    match p with
    | [] => some none
    | '\r' :: '\n' :: p => stampLoop tabsize encoding rounds ⟨cursor.row + 1, 0⟩ p (n - 1)
    | '\r' :: p => stampLoop tabsize encoding rounds ⟨cursor.row + 1, 0⟩ p n
    | '\n' :: '\r' :: p => stampLoop tabsize encoding rounds ⟨cursor.row + 1, 0⟩ p (n - 1)
    | '\n' :: p => stampLoop tabsize encoding rounds ⟨cursor.row + 1, 0⟩ p n
    | '\t' :: p =>
      let col := (cursor.col.tdiv tabsize + 1) * tabsize
      stampLoop tabsize encoding rounds { cursor with col } p n
    | c :: p =>
      if encoding = .utf8 then
        if c = '\xef' then
          match p with
          -- nothing moves p here
          | [] | [_] => stampLoop tabsize encoding rounds cursor (c :: p) (n + 1)
          | _ :: _ :: q =>
            let col := if startsMark (c :: p) then cursor.col else cursor.col + 1
            stampLoop tabsize encoding rounds { cursor with col } q (n - 2)
        else
          let step := utf8ByteTable c.toNat
          stampLoop tabsize encoding rounds { cursor with col := cursor.col + 1 }
            (p.drop (step - 1)) (n - (step - 1))
      else stampLoop tabsize encoding rounds { cursor with col := cursor.col + 1 } p n

def stamp (tabsize : Int) (encoding : Encoding) (rounds : Nat) (cursor : TiXmlCursor) (p : CText)
    (n : Nat) : Option (TiXmlCursor × CText) :=
  if tabsize < 1 then some (cursor, p)
  else (stampLoop tabsize encoding rounds cursor p n).map fun moved => moved.getD (cursor, p)

/-- The byte 0xEF is none of the last two. -/
def Followed (p : CText) : Prop := '\xef' ∉ p.drop (p.length - 2)

instance (p : CText) : Decidable (Followed p) := inferInstanceAs (Decidable (¬ _))

section Rounds
variable {tabsize : Int} {encoding : Encoding} {p q : CText}

theorem Followed.suffix (followed : Followed p) (behind : q <:+ p) : Followed q := by
  obtain ⟨front, rfl⟩ := behind
  intro last
  apply followed
  rw [List.drop_append]
  have same : (front ++ q).length - 2 - front.length = q.length - 2 := by
    rw [List.length_append]
    omega
  rw [same]
  exact List.mem_append_right _ last

/-- As many rounds as there are bytes to now are enough. -/
theorem stampLoop_ends {rounds n : Nat} (cursor : TiXmlCursor) (enough : n ≤ rounds)
    (followed : encoding = .utf8 → Followed p) :
    ∃ moved, stampLoop tabsize encoding rounds cursor p n = some moved := by
  induction rounds generalizing cursor p n with
  | zero =>
    obtain rfl := Nat.le_zero.mp enough
    exact ⟨_, rfl⟩
  | succ rounds ih =>
    cases n with
    | zero => exact ⟨_, rfl⟩
    | succ n =>
      have later (k : Nat) (cursor' : TiXmlCursor) {q : CText} (behind : q <:+ p) :
          ∃ moved, stampLoop tabsize encoding rounds cursor' q (n - k) = some moved :=
        ih cursor' (Nat.le_trans (Nat.sub_le n k) (Nat.le_of_succ_le_succ enough)) fun utf8 =>
          (followed utf8).suffix behind
      rw [stampLoop.eq_def]
      dsimp only
      split
      · exact ⟨_, rfl⟩
      · exact later 1 _ ⟨[_, _], rfl⟩
      · exact later 0 _ ⟨[_], rfl⟩
      · exact later 1 _ ⟨[_, _], rfl⟩
      · exact later 0 _ ⟨[_], rfl⟩
      · exact later 0 _ ⟨[_], rfl⟩
      · rename_i c p _ _ _ _ _
        split
        · rename_i utf8
          split
          · rename_i lead
            subst lead
            split
            · exact absurd (List.mem_singleton_self _) (followed utf8)
            · exact absurd List.mem_cons_self (followed utf8)
            · exact later 2 _ ⟨[_, _, _], rfl⟩
          · exact later _ _ ((List.drop_suffix _ p).trans (List.suffix_cons c p))
        · exact later 0 _ (List.suffix_cons c p)

/-- Wherever the last stamp was, Stamp comes to an end. -/
theorem stamp_ends (tabsize : Int) (encoding : Encoding) (cursor : TiXmlCursor) (n : Nat)
    (followed : Followed p) (behind : q <:+ p) :
    ∃ moved, stamp tabsize encoding n cursor q n = some moved := by
  unfold stamp
  split
  · exact ⟨_, rfl⟩
  · obtain ⟨moved, ends⟩ : ∃ moved, stampLoop tabsize encoding n cursor q n = some moved :=
      stampLoop_ends cursor (Nat.le_refl n) fun _ => followed.suffix behind
    exact ⟨_, congrArg (Option.map _) ends⟩

/-- At the end of a text in UTF-8 it does not, however many rounds the loop has. -/
theorem stamp_stuck (tabsize : Int) (some_tab : 1 ≤ tabsize) (rounds : Nat) (cursor : TiXmlCursor)
    (c : Char) : stamp tabsize .utf8 rounds cursor ['\xef', c] 2 = none := by
  rw [stamp, if_neg (Int.not_lt.mpr some_tab), Option.map_eq_none_iff]
  induction rounds with
  | zero => rfl
  | succ rounds ih => exact ih

end Rounds

end DevAccess.TinyXml
