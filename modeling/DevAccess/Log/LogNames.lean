import DevAccess.Log.SimpleLog
import Mathlib.Logic.Function.Basic

/-! The names of the files of all CSimpleLog objects of a process. An object takes its number
from g_iNum, an unsigned char that they share, when it opens its first file. A call of
PrintfV is taken as one step. -/
namespace DevAccess.Log
open Foundation CText

/-- takers are the objects that have a number, in the order in which they took it. -/
structure Process where
  objects : Nat → SimpleLog
  g_iNum : UInt8
  takers : List Nat

def Process.start (m_fname : CText) (m_lastTime : Nat → Int) : Process :=
  ⟨fun i => .new m_fname (m_lastTime i), 1, []⟩

def SimpleLog.Unnumbered (s : SimpleLog) : Prop := s.g_file = none ∧ s.m_iId = -1

instance (s : SimpleLog) : Decidable s.Unnumbered := inferInstanceAs (Decidable (_ ∧ _))

def Process.step (localtime : Int → Tm) (p : Process) (a : Nat × Print) : Option Process :=
  let r := (p.objects a.1).printfV localtime p.g_iNum a.2
  some ⟨Function.update p.objects a.1 r.1, r.2,
    if (p.objects a.1).Unnumbered then p.takers ++ [a.1] else p.takers⟩

def SimpleLog.names (s : SimpleLog) : List CText := s.files.map LogFile.name

/-- No two objects have opened a file of the same name. -/
def Process.Separate (p : Process) : Prop :=
  ∀ i j, i ≠ j → ∀ name, name ∈ (p.objects i).names → name ∉ (p.objects j).names

/-- An object takes a number only while fewer than 256 have been taken. -/
def FewNumbers (p : Process) (a : Nat × Print) : Prop :=
  (p.objects a.1).Unnumbered → p.takers.length < 256

section Names
variable {localtime : Int → Tm}

theorem logFileName_inj {m_fname : CText} {m n : Nat} {num num' : Int} (small : m < 256) (small' : n < 256)
    (same : logFileName m_fname m num = logFileName m_fname n num') : m = n := by
  unfold logFileName at same
  simp only [List.append_assoc, List.cons_append, List.append_cancel_left_eq, List.cons.injEq,
    true_and, Int.toNat_natCast] at same
  have width (k : Nat) (fits : k < 256) : (CText.padded 8 k).length = 8 :=
    padded_length (by decide) (Nat.lt_trans fits (by decide))
  have digits := List.append_inj_left same ((width m small).trans (width n small').symm)
  have values := congrArg (fun s => Nat.ofDigitChars 10 s 0) digits
  rwa [padded_value, padded_value] at values

theorem fprintf_names (s : SimpleLog) (ret : Int) (written : Nat) :
    (s.fprintf ret written).names = s.names := by
  unfold SimpleLog.fprintf SimpleLog.names
  cases s.files <;> rfl

/-- What of an object the names depend on. -/
structure SameNames (s t : SimpleLog) : Prop where
  base : t.m_fname = s.m_fname
  id : t.m_iId = s.m_iId
  num : t.m_iNum = s.m_iNum
  names : t.names = s.names

theorem SameNames.refl (s : SimpleLog) : SameNames s s := ⟨rfl, rfl, rfl, rfl⟩

theorem SameNames.trans {s t u : SimpleLog} (first : SameNames s t) (second : SameNames t u) :
    SameNames s u :=
  ⟨second.base.trans first.base, second.id.trans first.id, second.num.trans first.num,
    second.names.trans first.names⟩

theorem fprintf_same (s : SimpleLog) (ret : Int) (written : Nat) : SameNames s (s.fprintf ret written) :=
  ⟨rfl, rfl, rfl, fprintf_names s ret written⟩

theorem printTime_same {s : SimpleLog} {name : CText} (here : s.g_file = some name) (g : UInt8) (c : Print) :
    (s.printTime localtime g c).2 = g ∧ SameNames s (s.printTime localtime g c).1 := by
  rw [SimpleLog.printTime, createFile_open here]
  dsimp only
  split
  · exact ⟨rfl, SameNames.refl s⟩
  · have line := fprintf_same { s with m_lastTime := c.now } (timeLine (localtime c.now)).length
      (timeLine (localtime c.now)).length
    exact ⟨rfl, line.base, line.id, line.num, line.names⟩

theorem printfV_same (localtime : Int → Tm) {s s' : SimpleLog} {g g' : UInt8} {c : Print} {name : CText}
    (created : s.createFile g c.opens = (s', g', true)) (here : s'.g_file = some name) :
    (s.printfV localtime g c).2 = g' ∧ SameNames s' (s.printfV localtime g c).1 := by
  have timed : (if s'.m_isDisableTime then (s', g') else s'.printTime localtime g' c).2 = g' ∧
      SameNames s' (if s'.m_isDisableTime then (s', g') else s'.printTime localtime g' c).1 := by
    split
    · exact ⟨rfl, SameNames.refl s'⟩
    · exact printTime_same here g' c
  rw [SimpleLog.printfV, created]
  dsimp only
  generalize (if s'.m_isDisableTime then (s', g') else s'.printTime localtime g' c) = r at timed
  obtain ⟨counter, same⟩ := timed
  have line : SameNames s' ((r.1.fprintf c.ret c.written).fprintf 1 1) :=
    (same.trans (fprintf_same _ _ _)).trans (fprintf_same _ _ _)
  split
  · exact ⟨counter, line.base, line.id, line.num, line.names⟩
  · exact ⟨counter, line⟩

/-- What a call of PrintfV does to the names: nothing, or a number is taken, and perhaps a
file opened under it. -/
theorem printfV_names (localtime : Int → Tm) (s : SimpleLog) (g : UInt8) (c : Print) :
    ((∃ name, s.g_file = some name) ∧ (s.printfV localtime g c).2 = g ∧
      SameNames s (s.printfV localtime g c).1) ∨
    (s.g_file = none ∧ ∃ (id num : Int) (g' : UInt8),
      ((s.m_iId = -1 ∧ id = g.toNat ∧ num = s.m_iNum ∧ g' = g + 1) ∨ (s.m_iId ≠ -1 ∧ id = s.m_iId ∧ g' = g)) ∧
      (s.printfV localtime g c).2 = g' ∧
      (s.printfV localtime g c).1.m_fname = fileBase s.m_fname ∧
      (s.printfV localtime g c).1.m_iId = id ∧
      ((c.opens = true ∧ (s.printfV localtime g c).1.names =
          logFileName (fileBase s.m_fname) id num :: s.names) ∨
        (c.opens = false ∧ (s.printfV localtime g c).1.names = s.names))) := by
  rcases createFile_cases s g c.opens with ⟨name, here, same⟩ | ⟨closed, id, num, g', numbered, created⟩
  · exact .inl ⟨⟨name, here⟩, printfV_same localtime same here⟩
  · refine .inr ⟨closed, id, num, g', ?_, ?_⟩
    · rcases numbered with fresh | ⟨old, same, _, kept⟩
      · exact .inl fresh
      · exact .inr ⟨old, same, kept⟩
    · rcases created with ⟨opens, opened⟩ | ⟨fails, failed⟩
      · obtain ⟨counter, same⟩ := printfV_same localtime opened rfl
        exact ⟨counter, same.base, same.id, .inl ⟨opens, same.names⟩⟩
      · rw [printfV_failed failed]
        exact ⟨rfl, rfl, rfl, .inr ⟨fails, rfl⟩⟩

end Names

def numberAt (k : Nat) : Nat := (1 + k) % 256

def Process.Numbered (p : Process) (i : Nat) : Prop :=
  ((p.objects i).Unnumbered ∧ (p.objects i).names = []) ∨
    ∃ k, p.takers[k]? = some i ∧ (p.objects i).m_iId = numberAt k

structure Process.Counted (m_fname : CText) (p : Process) : Prop where
  counter : p.g_iNum.toNat = numberAt p.takers.length
  few : p.takers.length ≤ 256
  numbered : ∀ i, p.Numbered i
  base : ∀ i, fileBase (p.objects i).m_fname = fileBase m_fname
  named : ∀ i, ∀ name ∈ (p.objects i).names, ∃ num,
    name = logFileName (fileBase m_fname) (p.objects i).m_iId num

theorem fileBase_idem (m_fname : CText) : fileBase (fileBase m_fname) = fileBase m_fname := by
  by_cases empty : m_fname = []
  · rw [empty]
    rfl
  · rw [fileBase, fileBase, if_neg empty, if_neg empty]

theorem counted_start (m_fname : CText) (m_lastTime : Nat → Int) :
    (Process.start m_fname m_lastTime).Counted m_fname :=
  ⟨rfl, Nat.zero_le _, fun _ => .inl ⟨⟨rfl, rfl⟩, rfl⟩, fun _ => rfl,
    fun _ _ member => absurd member List.not_mem_nil⟩

theorem counted_separate {m_fname : CText} {p : Process} (counted : p.Counted m_fname) : p.Separate := by
  intro i j other name here there
  obtain ⟨num, named⟩ := counted.named i name here
  obtain ⟨num', named'⟩ := counted.named j name there
  have place {i : Nat} (member : name ∈ (p.objects i).names) :
      ∃ k, k < 256 ∧ p.takers[k]? = some i ∧ (p.objects i).m_iId = numberAt k := by
    rcases counted.numbered i with ⟨-, unused⟩ | ⟨k, taken, id⟩
    · rw [unused] at member
      exact absurd member List.not_mem_nil
    · have inside := (List.getElem?_eq_some_iff.mp taken).1
      exact ⟨k, Nat.lt_of_lt_of_le inside counted.few, taken, id⟩
  obtain ⟨k, small, taken, id⟩ := place here
  obtain ⟨k', small', taken', id'⟩ := place there
  rw [id] at named
  rw [id'] at named'
  have numbers := logFileName_inj (Nat.mod_lt _ (by decide)) (Nat.mod_lt _ (by decide))
    (named.symm.trans named')
  have places : k = k' := by omega
  rw [places] at taken
  exact other (Option.some.inj (taken.symm.trans taken'))

theorem counted_update {m_fname : CText} {p q : Process} {i : Nat} {o : SimpleLog}
    (counted : p.Counted m_fname) (objects : q.objects = Function.update p.objects i o)
    (longer : p.takers <+: q.takers) (counter : q.g_iNum.toNat = numberAt q.takers.length)
    (few : q.takers.length ≤ 256) (number : ∃ k, q.takers[k]? = some i ∧ o.m_iId = numberAt k)
    (base : fileBase o.m_fname = fileBase m_fname)
    (named : ∀ name ∈ o.names, ∃ num, name = logFileName (fileBase m_fname) o.m_iId num) :
    q.Counted m_fname := by
  have here : q.objects i = o := by rw [objects, Function.update_self]
  have others (j : Nat) (other : j ≠ i) : q.objects j = p.objects j := by
    rw [objects, Function.update_of_ne other]
  refine ⟨counter, few, fun j => ?_, fun j => ?_, fun j => ?_⟩
  · by_cases same : j = i
    · rw [same, Process.Numbered, here]
      exact .inr number
    · rw [Process.Numbered, others j same]
      refine (counted.numbered j).imp_right fun ⟨k, taken, id⟩ => ⟨k, ?_, id⟩
      obtain ⟨more, whole⟩ := longer
      rw [← whole, List.getElem?_append_left (List.getElem?_eq_some_iff.mp taken).1]
      exact taken
  · by_cases same : j = i
    · rw [same, here]
      exact base
    · rw [others j same]
      exact counted.base j
  · by_cases same : j = i
    · rw [same, here]
      exact named
    · rw [others j same]
      exact counted.named j

theorem counted_kept {m_fname : CText} {p q : Process} {i : Nat} {o : SimpleLog}
    (counted : p.Counted m_fname) (objects : q.objects = Function.update p.objects i o)
    (takers : q.takers = p.takers) (counter : q.g_iNum = p.g_iNum) (used : ¬ (p.objects i).Unnumbered)
    (id : o.m_iId = (p.objects i).m_iId) (base : fileBase o.m_fname = fileBase m_fname)
    (named : ∀ name ∈ o.names, ∃ num, name = logFileName (fileBase m_fname) o.m_iId num) :
    q.Counted m_fname := by
  have number := (counted.numbered i).resolve_left fun unused => used unused.1
  apply counted_update counted objects
  · exact takers ▸ List.prefix_refl _
  · rw [takers, counter]
    exact counted.counter
  · rw [takers]
    exact counted.few
  · rw [takers, id]
    exact number
  · exact base
  · exact named

theorem counted_step {m_fname : CText} {localtime : Int → Tm} (p : Process) (a : Nat × Print) (q : Process)
    (counted : p.Counted m_fname) (few : FewNumbers p a) (taken : p.step localtime a = some q) :
    q.Counted m_fname := by
  obtain ⟨i, c⟩ := a
  have result := Option.some.inj taken
  have base := counted.base i
  have named := counted.named i
  rcases printfV_names localtime (p.objects i) p.g_iNum c with
    ⟨⟨name, here⟩, kept, same⟩ | ⟨closed, id, num, g', numbered, counter, fname, new_id, opened⟩
  · have used : ¬ (p.objects i).Unnumbered := fun unused => by cases here.symm.trans unused.1
    have takers : q.takers = p.takers := by
      rw [← result]
      exact if_neg used
    have counter : q.g_iNum = p.g_iNum := by
      rw [← result]
      exact kept
    apply counted_kept counted (by rw [← result]) takers counter used same.id
    · rw [same.base]
      exact base
    · rw [same.id, same.names]
      exact named
  · have all_named
        (before : ∀ name ∈ (p.objects i).names, ∃ num, name = logFileName (fileBase m_fname) id num) :
        ∀ name ∈ ((p.objects i).printfV localtime p.g_iNum c).1.names,
          ∃ num, name =
            logFileName (fileBase m_fname) ((p.objects i).printfV localtime p.g_iNum c).1.m_iId num := by
      rw [new_id]
      rcases opened with ⟨_, more⟩ | ⟨_, same⟩
      · rw [more]
        exact List.forall_mem_cons.mpr ⟨⟨num, by rw [base]⟩, before⟩
      · rw [same]
        exact before
    have kept_base : fileBase ((p.objects i).printfV localtime p.g_iNum c).1.m_fname = fileBase m_fname := by
      rw [fname, fileBase_idem, base]
    rcases numbered with ⟨fresh, rfl, -, rfl⟩ | ⟨old, rfl, rfl⟩
    · have takers : q.takers = p.takers ++ [i] := by
        rw [← result]
        exact if_pos ⟨closed, fresh⟩
      have room : p.takers.length < 256 := few ⟨closed, fresh⟩
      have unused : (p.objects i).names = [] := by
        rcases counted.numbered i with ⟨-, unused⟩ | ⟨k, -, id⟩
        · exact unused
        · rw [fresh] at id
          omega
      refine counted_update counted (by rw [← result]) ?_ ?_ ?_ ?_ kept_base (all_named ?_)
      · rw [takers]
        exact List.prefix_append _ _
      · rw [takers, ← result, List.length_append, List.length_singleton]
        dsimp only
        rw [counter, UInt8.toNat_add, counted.counter]
        change (numberAt p.takers.length + 1) % 256 = _
        unfold numberAt
        omega
      · rw [takers, List.length_append, List.length_singleton]
        exact room
      · refine ⟨p.takers.length, ?_, ?_⟩
        · rw [takers, List.getElem?_concat_length]
        · rw [new_id, counted.counter]
      · rw [unused]
        exact fun name member => absurd member List.not_mem_nil
    · have used : ¬ (p.objects i).Unnumbered := fun unused => old unused.2
      have takers : q.takers = p.takers := by
        rw [← result]
        exact if_neg used
      have same_counter : q.g_iNum = p.g_iNum := by
        rw [← result]
        exact counter
      exact counted_kept counted (by rw [← result]) takers same_counter used new_id kept_base
        (all_named named)

/-- While at most 256 objects take a number, no two of them open the same name. -/
theorem names_separate (localtime : Int → Tm) (m_fname : CText) (m_lastTime : Nat → Int)
    (calls : List (Nat × Print))
    (few : Guarded (Process.step localtime) FewNumbers (.start m_fname m_lastTime) calls) :
    Always (Process.step localtime) Process.Separate (.start m_fname m_lastTime) calls :=
  always_mono (fun _ => counted_separate) (always_guarded counted_step (counted_start m_fname m_lastTime) few)

def shortPrint : Print := ⟨true, 0, 10, 0⟩

structure EachOnce (n : Nat) (p : Process) : Prop where
  counter : p.g_iNum = UInt8.ofNat (1 + n)
  written : ∀ i < n, (p.objects i).names = [logFileName "./csimplelog".toList (numberAt i) 0]
  unused : ∀ i ≥ n, p.objects i = .new [] 0

theorem new_prints (localtime : Int → Tm) (g : UInt8) :
    ((SimpleLog.new [] 0).printfV localtime g shortPrint).2 = g + 1 ∧
      ((SimpleLog.new [] 0).printfV localtime g shortPrint).1.names =
        [logFileName "./csimplelog".toList g.toNat 0] := by
  have created : (SimpleLog.new [] 0).createFile g shortPrint.opens =
      ({ SimpleLog.new [] 0 with
        m_fname := "./csimplelog".toList
        m_iId := g.toNat
        g_file := some (logFileName "./csimplelog".toList g.toNat 0)
        files := [⟨logFileName "./csimplelog".toList g.toNat 0, 0⟩] }, g + 1, true) := rfl
  obtain ⟨counter, same⟩ := printfV_same localtime created rfl
  exact ⟨counter, same.names⟩

theorem each_once (localtime : Int → Tm) (n : Nat) :
    ∃ p, exec (Process.step localtime) (.start [] fun _ => 0) ((List.range n).map (·, shortPrint)) = some p ∧
      EachOnce n p := by
  induction n with
  | zero => exact ⟨_, rfl, rfl, fun i none_yet => absurd none_yet (Nat.not_lt_zero i), fun _ _ => rfl⟩
  | succ n ih =>
    obtain ⟨p, run, counter, written, unused⟩ := ih
    obtain ⟨next, names⟩ := new_prints localtime p.g_iNum
    rw [← unused n (Nat.le_refl n)] at next names
    rw [List.range_succ, List.map_append, exec_append, run]
    refine ⟨_, rfl, ?_, fun i inside => ?_, fun i behind => ?_⟩
    · change ((p.objects n).printfV localtime p.g_iNum shortPrint).2 = _
      rw [next, counter]
      exact (UInt8.ofNat_add (1 + n) 1).symm
    · change (Function.update p.objects n ((p.objects n).printfV localtime p.g_iNum shortPrint).1 i).names = _
      rcases Nat.lt_or_eq_of_le (Nat.le_of_lt_succ inside) with before | rfl
      · rw [Function.update_of_ne (Nat.ne_of_lt before)]
        exact written i before
      · rw [Function.update_self, names, counter, UInt8.toNat_ofNat']
        rfl
    · change Function.update p.objects n ((p.objects n).printfV localtime p.g_iNum shortPrint).1 i = _
      rw [Function.update_of_ne (Nat.ne_of_gt behind)]
      exact unused i (Nat.le_of_succ_le behind)

/-- The 257th object opens, and empties, the file of the first one. -/
theorem two_of_257 :
    ¬ Always (Process.step fun _ => ⟨124, 0, 1, 0, 0, 0⟩) Process.Separate (.start [] fun _ => 0)
      ((List.range 257).map (·, shortPrint)) := by
  intro always
  obtain ⟨p, run, each⟩ := each_once (fun _ => ⟨124, 0, 1, 0, 0, 0⟩) 257
  have first : logFileName "./csimplelog".toList 1 0 ∈ (p.objects 0).names := by
    rw [each.written 0 (by decide)]
    exact List.mem_cons_self
  have last : logFileName "./csimplelog".toList 1 0 ∈ (p.objects 256).names := by
    rw [each.written 256 (by decide)]
    exact List.mem_cons_self
  exact always_end always run 0 256 (by decide) _ first last

theorem one_object_separate :
    Always (Process.step fun _ => ⟨124, 0, 1, 0, 0, 0⟩) Process.Separate (.start [] fun _ => 0)
      [(0, shortPrint)] :=
  names_separate (fun _ => ⟨124, 0, 1, 0, 0, 0⟩) [] (fun _ => 0) [(0, shortPrint)]
    (fun _ _ => ⟨fun _ => by decide, trivial⟩)

end DevAccess.Log
