import DevAccess.Foundation.Outcome
import DevAccess.TinyXml.RoundTrip

/-! What the functions that read words and tags leave of the text. -/
namespace DevAccess.TinyXml
open Foundation Xml

abbrev Gives {α : Type} (Q : α → Prop) (x : Call α) : Prop := Returns (· = Stop.fault) Q x

def Past (s p : CText) : Prop := s <:+ p ∧ s.length < p.length

structure FormedTag (encoding : Encoding) (sound : Prop) (name : CText)
    (attributes : List Attribute) : Prop where
  named : ValidName encoding name ∨ name = [] ∧ ¬ sound
  valid : ∀ a ∈ attributes, ValidName encoding a.name
  distinct : (attributes.map Attribute.name).Nodup

section Reading
variable {encoding : Encoding} {p q s : CText} {n : Nat} {c : Char}

theorem Past.cons (left : s <:+ p) : Past s (c :: p) :=
  ⟨left.trans (List.suffix_cons c p), Nat.lt_succ_of_le left.length_le⟩

theorem Past.behind (past : Past s q) (left : q <:+ p) : Past s p :=
  ⟨past.1.trans left, Nat.lt_of_lt_of_le past.2 left.length_le⟩

theorem Past.beyond (past : Past q p) (left : s <:+ q) : Past s p :=
  ⟨left.trans past.1, Nat.lt_of_le_of_lt left.length_le past.2⟩

theorem Past.tail (past : Past s (c :: p)) : s <:+ p :=
  (List.suffix_cons_iff.mp past.1).resolve_left fun same => by
    rw [same] at past
    exact Nat.lt_irrefl _ past.2

theorem none_left {Q : CText → Prop} (s : CText) (left : none = some s) : Q s := by
  cases left

theorem skipBlanks_suffix (encoding : Encoding) (pending : Nat) (p : CText) :
    skipBlanks encoding pending p <:+ p := by
  induction p generalizing pending with
  | nil =>
    cases pending with
    | zero => exact List.suffix_rfl
    | succ pending => exact List.suffix_rfl
  | cons c p ih =>
    cases pending with
    | succ pending => exact (ih pending).trans (List.suffix_cons c p)
    | zero =>
      rw [skipBlanks]
      split
      · exact (ih 2).trans (List.suffix_cons c p)
      · split
        · exact (ih 0).trans (List.suffix_cons c p)
        · exact List.suffix_rfl

theorem skipBlanks_visible (encoding : Encoding) (pending : Nat) (p : CText) :
    ∀ c q, skipBlanks encoding pending p = c :: q →
      isWhiteSpace c = false ∧ ¬ (encoding = .utf8 ∧ startsMark (c :: q) = true) := by
  induction p generalizing pending with
  | nil =>
    intro c q left
    cases pending with
    | zero => cases left
    | succ pending => cases left
  | cons d p ih =>
    intro c q left
    cases pending with
    | succ pending => exact ih pending c q left
    | zero =>
      rw [skipBlanks] at left
      split at left
      · exact ih 2 c q left
      · rename_i noMark
        split at left
        · exact ih 0 c q left
        · rename_i visible
          obtain ⟨rfl, rfl⟩ := List.cons.inj left
          exact ⟨Bool.eq_false_iff.mpr visible, noMark⟩

theorem skipWhiteSpace_some (skipped : skipWhiteSpace encoding (some p) = some s) :
    s = skipBlanks encoding 0 p := by
  cases p with
  | nil => cases skipped
  | cons c p => exact (Option.some.inj skipped).symm

theorem skipWhiteSpace_suffix (skipped : skipWhiteSpace encoding (some p) = some s) : s <:+ p :=
  skipWhiteSpace_some skipped ▸ skipBlanks_suffix encoding 0 p

theorem readName_valid {name rest : CText} (skipped : skipWhiteSpace encoding (some p) = some q)
    (read : readName q = some (name, rest)) : ValidName encoding name ∧ Past rest q := by
  unfold readName at read
  split at read
  · rename_i start
    obtain ⟨rfl, rfl⟩ := Prod.mk.inj (Option.some.inj read)
    cases q with
    | nil => cases start
    | cons c q =>
      have part : namePart c = true := nameStart_part (by simpa using start)
      have whole : (c :: q).takeWhile namePart ++ (c :: q).dropWhile namePart = c :: q :=
        List.takeWhile_append_dropWhile
      refine ⟨⟨?_, fun d member => List.mem_takeWhile_imp member, ?_⟩, ?_⟩
      · simpa [List.takeWhile_cons, part] using start
      · rintro ⟨utf8, mark⟩
        have visible := skipBlanks_visible encoding 0 p c q (skipWhiteSpace_some skipped).symm
        exact visible.2 ⟨utf8, whole ▸ startsMark_append mark _⟩
      · rw [List.dropWhile_cons, if_pos part]
        exact .cons (List.dropWhile_suffix _)
  · cases read

theorem charRef_past {base : Nat} {digit : Char → Option Nat} {mark : Char} {u : Nat} {after : CText}
    (found : charRef base digit mark q = some (u, after)) : Past after q := by
  unfold charRef at found
  cases rest : q.dropWhile (· ≠ ';') with
  | nil => rw [rest] at found; cases found
  | cons d s =>
    rw [rest] at found
    obtain ⟨v, -, same⟩ := Option.map_eq_some_iff.mp found
    obtain ⟨-, rfl⟩ := Prod.mk.inj same
    have left := List.dropWhile_suffix (l := q) fun c => decide (c ≠ ';')
    rw [rest] at left
    exact (Past.cons List.suffix_rfl).behind left

theorem entity_nonempty {e : CText × Char} (member : e ∈ entity) : 0 < e.1.length := by
  revert e
  decide

theorem getEntity_suffix (left : (getEntity encoding (c :: p)).2 = some s) : s <:+ p := by
  unfold getEntity at left
  split at left
  · rename_i d q same
    obtain ⟨-, rfl⟩ := List.cons.inj same
    have reference : ∀ u after, (if d = 'x' then (if q = [] then none else charRef 16 hexDigit 'x' q)
        else charRef 10 decimalDigit '#' (d :: q)) = some (u, after) → after <:+ q := by
      intro u after found
      split at found
      · split at found
        · cases found
        · exact (charRef_past found).1
      · exact (charRef_past found).tail
    dsimp only at left
    cases found : (if d = 'x' then (if q = [] then none else charRef 16 hexDigit 'x' q)
        else charRef 10 decimalDigit '#' (d :: q)) with
    | none =>
      rw [found] at left
      cases left
    | some r =>
      rw [found] at left
      obtain rfl := Option.some.inj left
      exact ((reference r.1 r.2 found).trans (List.suffix_cons d q)).trans
        (List.suffix_cons '#' (d :: q))
  · cases found : entity.find? (fun e : CText × Char => e.1.isPrefixOf (c :: p)) with
    | none =>
      rw [found] at left
      obtain rfl := Option.some.inj left
      exact List.suffix_rfl
    | some e =>
      rw [found] at left
      obtain rfl := Option.some.inj left
      obtain ⟨n, some_char⟩ := Nat.exists_eq_succ_of_ne_zero
        (entity_nonempty (List.mem_of_find?_eq_some found)).ne'
      rw [some_char]
      exact List.drop_suffix n p

theorem charLength_pos (encoding : Encoding) (c : Char) : 0 < charLength encoding c := by
  unfold charLength utf8ByteTable
  split
  · grind
  · exact Nat.zero_lt_one

theorem getChar_gives : Gives (fun r => ∀ s, r.2 = some s → s <:+ p) (getChar encoding (c :: p)) := by
  rw [getChar]
  split
  · split
    · exact fun s left => getEntity_suffix left
    · rintro s left
      obtain rfl := Option.some.inj left
      exact List.suffix_rfl
  · split
    · rfl
    · rintro s left
      obtain rfl := Option.some.inj left
      obtain ⟨n, some_char⟩ := Nat.exists_eq_succ_of_ne_zero (charLength_pos encoding c).ne'
      rw [some_char]
      exact List.drop_suffix n p

theorem readKept_gives (encoding : Encoding) (endTag : CText) (fuel : p.length ≤ n) :
    Gives (fun r => ∀ s, r.2 = some s → s <:+ p) (readKept encoding endTag n p) := by
  induction n generalizing p with
  | zero =>
    obtain rfl := List.length_eq_zero_iff.mp (Nat.le_zero.mp fuel)
    rintro s left
    obtain rfl := Option.some.inj left
    exact List.suffix_rfl
  | succ n ih =>
    cases p with
    | nil =>
      rintro s left
      obtain rfl := Option.some.inj left
      exact List.suffix_rfl
    | cons c p =>
      rw [readKept]
      split
      · rintro s left
        obtain rfl := Option.some.inj left
        exact List.suffix_rfl
      · apply getChar_gives.bind
        rintro ⟨value, next⟩ read
        cases next with
        | none => exact none_left
        | some q =>
          have behind : q <:+ p := read q rfl
          apply (ih (Nat.le_trans behind.length_le (Nat.le_of_succ_le_succ fuel))).bind
          rintro ⟨text, stop⟩ rest
          exact fun s left => (Past.cons ((rest s left).trans behind)).1

theorem readCondensed_gives (encoding : Encoding) (whitespace : Bool) (fuel : p.length ≤ n) :
    Gives (fun r => ∀ s, r.2 = some s → s <:+ p ∧ (s = [] ∨ s.head? = some '<') ∧
      (p.head? ≠ some '<' → p ≠ [] → Past s p)) (readCondensed encoding ['<'] n whitespace p) := by
  induction n generalizing p whitespace with
  | zero =>
    obtain rfl := List.length_eq_zero_iff.mp (Nat.le_zero.mp fuel)
    rintro s left
    obtain rfl := Option.some.inj left
    exact ⟨List.suffix_rfl, .inl rfl, fun _ nonempty => absurd rfl nonempty⟩
  | succ n ih =>
    cases p with
    | nil =>
      rintro s left
      obtain rfl := Option.some.inj left
      exact ⟨List.suffix_rfl, .inl rfl, fun _ nonempty => absurd rfl nonempty⟩
    | cons c p =>
      have later : ∀ {q : CText}, q <:+ p → ∀ whitespace : Bool,
          Gives (fun r => ∀ s, r.2 = some s → s <:+ p ∧ (s = [] ∨ s.head? = some '<'))
            (readCondensed encoding ['<'] n whitespace q) := by
        intro q behind whitespace
        apply (ih whitespace (Nat.le_trans behind.length_le (Nat.le_of_succ_le_succ fuel))).mono
        intro r rest s left
        obtain ⟨further, stops, -⟩ := rest s left
        exact ⟨further.trans behind, stops⟩
      have widen : ∀ {s : CText}, s <:+ p ∧ (s = [] ∨ s.head? = some '<') →
          s <:+ c :: p ∧ (s = [] ∨ s.head? = some '<') ∧
            ((c :: p).head? ≠ some '<' → (c :: p) ≠ [] → Past s (c :: p)) :=
        fun ⟨left, stops⟩ => ⟨(Past.cons left).1, stops, fun _ _ => .cons left⟩
      rw [readCondensed]
      split
      · rename_i stops
        rintro s left
        obtain rfl := Option.some.inj left
        obtain rfl := (stringEqual_single c '<' p).mp stops
        exact ⟨List.suffix_rfl, .inr rfl, fun other => absurd rfl other⟩
      · split
        · exact (later List.suffix_rfl true).mono fun r rest s left => widen (rest s left)
        · apply getChar_gives.bind
          rintro ⟨value, next⟩ read
          cases next with
          | none => exact none_left
          | some q =>
            apply (later (read q rfl) false).bind
            rintro ⟨text, stop⟩ rest s left
            exact widen (rest s left)

theorem textParse_gives (encoding : Encoding) (other : c ≠ '<') :
    Gives (fun r => ∀ s, r.2 = some s → Past s (c :: p) ∧ (s = [] ∨ s.head? = some '<'))
      (textParse encoding (c :: p)) := by
  have suffix := skipBlanks_suffix encoding 0 (c :: p)
  apply (readCondensed_gives encoding false
    (Nat.le_refl (skipBlanks encoding 0 (c :: p)).length)).mono
  intro r rest s left
  obtain ⟨further, stops, past⟩ := rest s left
  refine ⟨?_, stops⟩
  rcases List.suffix_cons_iff.mp suffix with same | behind
  · rw [same] at past
    exact past (fun first => other (Option.some.inj first)) (List.cons_ne_nil c p)
  · exact .cons (further.trans behind)

theorem readQuoted_gives (encoding : Encoding) (quote : Char) (p : CText) :
    Gives (fun r => ∀ s, r.2 = some s → s <:+ p) (readQuoted encoding quote p) := by
  apply (readKept_gives encoding [quote] (Nat.le_refl p.length)).bind
  rintro ⟨value, stop⟩ rest
  cases stop with
  | none => exact none_left
  | some q =>
    cases q with
    | nil => rfl
    | cons d q =>
      intro s left
      obtain rfl := Option.some.inj left
      exact (List.suffix_cons d q).trans (rest (d :: q) rfl)

theorem readUnquoted_suffix (left : (readUnquoted p).2 = some s) : s <:+ p := by
  induction p with
  | nil =>
    obtain rfl := Option.some.inj left
    exact List.suffix_rfl
  | cons c p ih =>
    rw [readUnquoted] at left
    split at left
    · obtain rfl := Option.some.inj left
      exact List.suffix_rfl
    · split at left
      · cases left
      · exact (ih left).trans (List.suffix_cons c p)

theorem attributeParse_gives (encoding : Encoding) (p : CText) :
    Gives (fun r => ∀ s, r.p = some s →
        Past s p ∧ ValidName encoding r.value.name) (attributeParse encoding p) := by
  unfold attributeParse
  split
  · exact none_left
  · exact none_left
  · rename_i q nonempty skipped
    have behind := skipWhiteSpace_suffix skipped
    split
    · exact none_left
    · rename_i name rest read
      obtain ⟨valid, past⟩ := readName_valid skipped read
      split
      · rename_i q' equals
        have behind' := (List.suffix_cons '=' q').trans (skipWhiteSpace_suffix equals)
        split
        · exact none_left
        · exact none_left
        · rename_i d q'' skipped'
          have quoted : d :: q'' <:+ rest := (skipWhiteSpace_suffix skipped').trans behind'
          have done : ∀ {s : CText}, s <:+ d :: q'' → Past s p := fun left =>
            (past.beyond (left.trans quoted)).behind behind
          split
          · apply (readQuoted_gives encoding d q'').bind
            rintro ⟨value, stop⟩ ends s left
            exact ⟨done ((ends s left).trans (List.suffix_cons d q'')), valid⟩
          · split
            · exact none_left
            · rename_i value stop unquoted
              rintro s left
              obtain rfl := Option.some.inj left
              exact ⟨done (readUnquoted_suffix (congrArg Prod.snd unquoted)), valid⟩
      · exact none_left

end Reading

section Tags
variable {encoding : Encoding} {p : CText} {n : Nat} {attributes : List Attribute} {value : CText}

def TagEnd.left : TagEnd → Option CText
  | .fails => none
  | .empty q | .opened q => some q

theorem setValue_names (attributes : List Attribute) (name value : CText) :
    (setValue attributes name value).map Attribute.name = attributes.map Attribute.name := by
  induction attributes with
  | nil => rfl
  | cons a rest ih =>
    rw [setValue, List.map_cons, List.map_cons, List.map_cons]
    congr 1
    split
    · rename_i same
      exact same.symm
    · rfl

theorem readAttributes_gives (fuel : p.length < n)
    (valid : ∀ a ∈ attributes, ValidName encoding a.name)
    (distinct : (attributes.map Attribute.name).Nodup) :
    Gives (fun tag => tag.value = value ∧ (∀ a ∈ tag.attributes, ValidName encoding a.name) ∧
      (tag.attributes.map Attribute.name).Nodup ∧ ∀ q, tag.ending.left = some q → Past q p)
      (readAttributes encoding value n attributes p) := by
  induction n generalizing p attributes with
  | zero => exact absurd fuel (Nat.not_lt_zero _)
  | succ n ih =>
    rw [readAttributes]
    split
    · exact ⟨rfl, valid, distinct, none_left⟩
    · exact ⟨rfl, valid, distinct, none_left⟩
    · rename_i c q skipped
      have behind := skipWhiteSpace_suffix skipped
      split
      · split
        · rename_i q'
          refine ⟨rfl, valid, distinct, fun s left => ?_⟩
          obtain rfl := Option.some.inj left
          exact (Past.cons (List.suffix_cons '>' _)).behind behind
        · exact ⟨rfl, valid, distinct, none_left⟩
      · split
        · refine ⟨rfl, valid, distinct, fun s left => ?_⟩
          obtain rfl := Option.some.inj left
          exact (Past.cons List.suffix_rfl).behind behind
        · apply (attributeParse_gives encoding (c :: q)).bind
          rintro ⟨a, stop, error⟩ read
          split
          · exact ⟨rfl, valid, distinct, none_left⟩
          · exact ⟨rfl, valid, distinct, none_left⟩
          · rename_i rest nonempty left
            obtain ⟨past, named⟩ := read rest left
            have past' := past.behind behind
            split
            · refine ⟨rfl, ?_, ?_, none_left⟩
              · have names := List.forall_mem_map.mpr valid
                rw [← setValue_names attributes a.name (CText.c_str a.value)] at names
                exact List.forall_mem_map.mp names
              · rwa [setValue_names]
            · rename_i other
              have fresh : a.name ∉ attributes.map Attribute.name := by
                intro member
                obtain ⟨b, among, same⟩ := List.mem_map.mp member
                exact other (List.any_eq_true.mpr ⟨b, among, decide_eq_true same⟩)
              have apart : ((attributes ++ [a]).map Attribute.name).Nodup := by
                rw [List.map_append]
                exact List.nodup_append'.mpr ⟨distinct, List.nodup_singleton _,
                  List.disjoint_singleton.mpr fresh⟩
              have all := List.forall_mem_append.mpr ⟨valid, List.forall_mem_singleton.mpr named⟩
              have enough : rest.length < n := Nat.lt_of_lt_of_le past'.2 (Nat.le_of_lt_succ fuel)
              apply (ih enough all apart).mono
              rintro tag ⟨same, valid', distinct', ends⟩
              exact ⟨same, valid', distinct', fun s left => past'.beyond (ends s left).1⟩

theorem readTag_gives (encoding : Encoding) (p : CText) :
    Gives (fun tag => FormedTag encoding (tag.error = none) tag.value tag.attributes ∧
      ∀ q, tag.ending.left = some q →
          Past q p ∧ ValidName encoding tag.value) (readTag encoding p) := by
  have nameless : FormedTag encoding (some Error.failedToReadElementName = none) [] [] :=
    ⟨.inr ⟨rfl, fun impossible => by cases impossible⟩, List.forall_mem_nil _, List.nodup_nil⟩
  unfold readTag
  split
  · exact ⟨nameless, none_left⟩
  · rename_i q skipped
    have behind := skipWhiteSpace_suffix skipped
    split
    · exact ⟨nameless, none_left⟩
    · rename_i name read
      obtain ⟨valid, -⟩ := readName_valid skipped read
      exact ⟨⟨.inl valid, List.forall_mem_nil _, List.nodup_nil⟩, none_left⟩
    · rename_i name rest nonempty read
      obtain ⟨valid, past⟩ := readName_valid skipped read
      apply (readAttributes_gives (Nat.lt_succ_self rest.length)
        (List.forall_mem_nil _) List.nodup_nil).mono
      rintro tag ⟨same, named, distinct, ends⟩
      refine ⟨⟨.inl (same ▸ valid), named, distinct⟩, fun s left => ?_⟩
      exact ⟨(past.beyond (ends s left).1).behind behind, same ▸ valid⟩

end Tags

end DevAccess.TinyXml
