import DevAccess.Xml.Maker

/-! The GetValue overloads of SimpleXMLParser that turn the text of an element into a
value: what they leave in the caller's variable, against what it held before. -/
namespace DevAccess.Xml
open Foundation CText

/-- p is what GetValue(title) gives and out the caller's variable. The results are what is
returned and what out holds then. -/
def getString (p : Option Text) (out : Text) : Bool × Text :=
  match p with
  | none => (false, out)
  | some p => (true, p)

def getInt (p : Option Text) (out : Int) : Bool × Int :=
  match p with
  | none => (false, out)
  | some p =>
    match scanInt p with
    | none => (false, out)
    | some v => (true, v)

def getUnsignedInt (p : Option Text) (out : UInt32) : Bool × UInt32 :=
  match p with
  | none => (false, out)
  | some p =>
    match scanUInt p with
    | none => (false, out)
    | some v => (true, v)

def getShort (p : Option Text) (out : Int16) : Bool × Int16 :=
  match getInt p 0 with
  | (true, iv) => (true, Int16.ofInt iv)
  | (false, _) => (false, out)

def getUnsignedShort (p : Option Text) (out : UInt16) : Bool × UInt16 :=
  match getUnsignedInt p 0 with
  | (true, iv) => (true, iv.toUInt16)
  | (false, _) => (false, out)

def getUnsignedChar (p : Option Text) (out : UInt8) : Bool × UInt8 :=
  match getUnsignedInt p 0 with
  | (true, iv) => (true, iv.toUInt8)
  | (false, _) => (false, out)

/-- The number goes into a variable of its own; out is only set where there is none. -/
def getChar (p : Option Text) (out : Char) : Bool × Char :=
  match p with
  | none => (false, out)
  | some p =>
    match scanInt p with
    | none => (true, p.headD '\x00')
    | some _ => (true, out)

def getBool (p : Option Text) (out : Bool) : Bool × Bool :=
  match p with
  | none => (false, out)
  | some p => (true, !(p.headD '\x00' ∈ ['0', 'f', 'F', 'n', 'N']))

structure TimeFields where
  tm_year : Int
  tm_mon : Int
  tm_mday : Int
  tm_hour : Int
  tm_min : Int
  tm_sec : Int
  deriving DecidableEq

/-- The format %d-%d-%d %d:%d:%d, where its blank stands for any number of them. -/
def scanTime (p : Text) : Option TimeFields := do
  let (tm_year, p) ← takeInt p
  let (tm_mon, p) ← takeInt (← takeChar '-' p)
  let (tm_mday, p) ← takeInt (← takeChar '-' p)
  let (tm_hour, p) ← takeInt (p.dropWhile isSpace)
  let (tm_min, p) ← takeInt (← takeChar ':' p)
  let (tm_sec, _) ← takeInt (← takeChar ':' p)
  return ⟨tm_year, tm_mon, tm_mday, tm_hour, tm_min, tm_sec⟩

/-- t.tm_year -= 1900; t.tm_mon -= 1; -/
def TimeFields.adjusted (t : TimeFields) : TimeFields :=
  { t with tm_year := int32 (t.tm_year - 1900), tm_mon := int32 (t.tm_mon - 1) }

/-- mktime of the six fields and of tm_isdst. The other fields do not count for it. -/
abbrev Mktime := TimeFields → Int → Int

/-- Nothing sets tm_isdst, so it is what the stack held. -/
def getTime (mktime : Mktime) (tm_isdst : Int) (p : Option Text) (tt : Int) : Bool × Int :=
  match p with
  | none => (false, tt)
  | some p =>
    match scanTime p with
    | none => (false, tt)
    | some t => (true, mktime t.adjusted tm_isdst)

inductive Overload where
  | string | int | unsignedInt | short | unsignedShort | char | unsignedChar | bool | time_t
  deriving DecidableEq

abbrev Overload.Out : Overload → Type
  | string => Text
  | int => Int
  | unsignedInt => UInt32
  | short => Int16
  | unsignedShort => UInt16
  | char => Char
  | unsignedChar => UInt8
  | bool => Bool
  | time_t => Int

def Overload.get (mktime : Mktime) (stack : Int) :
    (o : Overload) → Option Text → o.Out → Bool × o.Out
  | string => getString
  | int => getInt
  | unsignedInt => getUnsignedInt
  | short => getShort
  | unsignedShort => getUnsignedShort
  | char => getChar
  | unsignedChar => getUnsignedChar
  | bool => getBool
  | time_t => getTime mktime stack

def Maker.getValueAs (mktime : Mktime) (stack : Int) (m : Maker) (title : Option Text) (o : Overload)
    (out : o.Out) : Call (Bool × o.Out) := do
  return o.get mktime stack (← m.getValue title) out

/-- The contract of a getter: false leaves the variable as it was, and after true what the
variable holds does not depend on what it, or the stack, held before. -/
structure Honoured (mktime : Mktime) (m : Maker) (title : Option Text) (o : Overload) : Prop where
  unchanged : ∀ stack old new, m.getValueAs mktime stack title o old = .ok (false, new) → new = old
  determined : ∀ stack stack' old old' got new new',
    m.getValueAs mktime stack title o old = .ok (true, new) →
    m.getValueAs mktime stack' title o old' = .ok (got, new') → got = true ∧ new' = new

/-- What a getter makes of a text, apart from the variable: none is false, and some tells
whether the variable is set and to what. -/
inductive Effect (α : Type) where
  | refuses
  | stores (v : α)
  | skips

def Effect.apply {α : Type} (out : α) : Effect α → Bool × α
  | refuses => (false, out)
  | stores v => (true, v)
  | skips => (true, out)

def Overload.effect (mktime : Mktime) (stack : Int) (p : Option Text) : (o : Overload) → Effect o.Out
  | string => p.elim .refuses .stores
  | int => (p.bind scanInt).elim .refuses .stores
  | unsignedInt => (p.bind scanUInt).elim .refuses .stores
  | short => (p.bind scanInt).elim .refuses fun v => .stores (Int16.ofInt v)
  | unsignedShort => (p.bind scanUInt).elim .refuses fun v => .stores v.toUInt16
  | char => p.elim .refuses fun s => (scanInt s).elim (.stores (s.headD '\x00')) fun _ => .skips
  | unsignedChar => (p.bind scanUInt).elim .refuses fun v => .stores v.toUInt8
  | bool => p.elim .refuses fun s => .stores !(s.headD '\x00' ∈ ['0', 'f', 'F', 'n', 'N'])
  | time_t => (p.bind scanTime).elim .refuses fun t => .stores (mktime t.adjusted stack)

theorem get_effect (mktime : Mktime) (stack : Int) (o : Overload) (p : Option Text) (out : o.Out) :
    o.get mktime stack p out = (o.effect mktime stack p).apply out := by
  cases p with
  | none => cases o <;> rfl
  | some s =>
    cases o with
    | string | bool => rfl
    | int =>
      simp only [Overload.get, Overload.effect, getInt, Option.bind_some]
      cases scanInt s <;> rfl
    | unsignedInt =>
      simp only [Overload.get, Overload.effect, getUnsignedInt, Option.bind_some]
      cases scanUInt s <;> rfl
    | short =>
      simp only [Overload.get, Overload.effect, getShort, getInt, Option.bind_some]
      cases scanInt s <;> rfl
    | unsignedShort =>
      simp only [Overload.get, Overload.effect, getUnsignedShort, getUnsignedInt, Option.bind_some]
      cases scanUInt s <;> rfl
    | unsignedChar =>
      simp only [Overload.get, Overload.effect, getUnsignedChar, getUnsignedInt, Option.bind_some]
      cases scanUInt s <;> rfl
    | char =>
      simp only [Overload.get, Overload.effect, getChar, Option.elim_some]
      cases scanInt s <;> rfl
    | time_t =>
      simp only [Overload.get, Overload.effect, getTime, Option.bind_some]
      cases scanTime s <;> rfl

theorem effect_skips (mktime : Mktime) (stack : Int) (o : Overload) (p : Option Text) :
    o.effect mktime stack p = .skips ↔ o = .char ∧ (p.bind scanInt).isSome := by
  cases p with
  | none => cases o <;> simp [Overload.effect]
  | some s =>
    cases o with
    | string | bool => simp [Overload.effect]
    | int | short | char =>
      simp only [Overload.effect, Option.bind_some, Option.elim_some]
      cases scanInt s <;> simp
    | unsignedInt | unsignedShort | unsignedChar =>
      simp only [Overload.effect, Option.bind_some]
      cases scanUInt s <;> simp
    | time_t =>
      simp only [Overload.effect, Option.bind_some]
      cases scanTime s <;> simp

def Steady (mktime : Mktime) (p : Option Text) : Prop :=
  ∀ t ∈ p.bind scanTime, ∀ stack stack', mktime t.adjusted stack = mktime t.adjusted stack'

theorem effect_stack (mktime : Mktime) (o : Overload) (p : Option Text) :
    (∀ stack stack', o.effect mktime stack p = o.effect mktime stack' p) ↔
      (o = .time_t → Steady mktime p) := by
  cases o with
  | string | int | unsignedInt | short | unsignedShort | char | unsignedChar | bool =>
    exact iff_of_true (fun _ _ => rfl) (fun other => nomatch other)
  | time_t =>
    simp only [Overload.effect, Steady, true_implies]
    cases p.bind scanTime with
    | none => exact iff_of_true (fun _ _ => rfl) (fun t none => nomatch none)
    | some t => simp

variable {m : Maker} {title : Option Text} {p : Option Text}

theorem getValueAs_eq (read : m.getValue title = .ok p) (mktime : Mktime) (stack : Int) (o : Overload)
    (out : o.Out) : m.getValueAs mktime stack title o out = .ok ((o.effect mktime stack p).apply out) := by
  rw [← get_effect, Maker.getValueAs, read]
  rfl

theorem honoured_effect (read : m.getValue title = .ok p) (mktime : Mktime) {o : Overload}
    (sets : ∀ stack, o.effect mktime stack p ≠ .skips)
    (steady : ∀ stack stack', o.effect mktime stack p = o.effect mktime stack' p) :
    Honoured mktime m title o := by
  constructor
  · intro stack old new gave
    rw [getValueAs_eq read, Except.ok.injEq] at gave
    cases effect : o.effect mktime stack p with
    | refuses =>
      rw [effect] at gave
      exact (congrArg Prod.snd gave).symm
    | stores v =>
      rw [effect] at gave
      cases congrArg Prod.fst gave
    | skips => exact absurd effect (sets stack)
  · intro stack stack' old old' got new new' gave gave'
    rw [getValueAs_eq read, Except.ok.injEq] at gave gave'
    rw [steady stack' stack] at gave'
    cases effect : o.effect mktime stack p with
    | refuses =>
      rw [effect] at gave
      cases congrArg Prod.fst gave
    | stores v =>
      rw [effect] at gave gave'
      have first : v = new := congrArg Prod.snd gave
      have second : v = new' := congrArg Prod.snd gave'
      exact ⟨(congrArg Prod.fst gave').symm, second.symm.trans first⟩
    | skips => exact absurd effect (sets stack)

theorem number_skipped (read : m.getValue title = .ok p) (mktime : Mktime)
    (number : (p.bind scanInt).isSome) : ¬ Honoured mktime m title .char := by
  intro honoured
  have kept (out : Char) : m.getValueAs mktime 0 title .char out = .ok (true, out) := by
    rw [getValueAs_eq read, (effect_skips mktime 0 .char p).mpr ⟨rfl, number⟩]
    rfl
  have same := (honoured.determined 0 0 'a' 'b' true 'a' 'b' (kept 'a') (kept 'b')).2
  exact absurd same (by decide)

/-- Every getter keeps its contract, but for the char getter on a number, and for the time_t
getter on a time that mktime reads differently with and without summer time. -/
theorem getter_honoured_iff (mktime : Mktime) (o : Overload) (read : m.getValue title = .ok p) :
    Honoured mktime m title o ↔
      (o = .char → p.bind scanInt = none) ∧ (o = .time_t → Steady mktime p) := by
  constructor
  · intro honoured
    constructor
    · rintro rfl
      apply Decidable.byContradiction
      intro number
      exact number_skipped read mktime (Option.isSome_iff_ne_none.mpr number) honoured
    · rintro rfl t scanned stack stack'
      have gave (stack : Int) : m.getValueAs mktime stack title .time_t 0 =
          .ok (true, mktime t.adjusted stack) := by
        rw [getValueAs_eq read, Overload.effect, Option.mem_def.mp scanned]
        rfl
      exact (honoured.determined stack' stack 0 0 true _ _ (gave stack') (gave stack)).2
  · rintro ⟨plain, steady⟩
    apply honoured_effect read mktime
    · intro stack skipped
      obtain ⟨isChar, number⟩ := (effect_skips mktime stack o p).mp skipped
      rw [plain isChar] at number
      cases number
    · exact (effect_stack mktime o p).mpr steady

def oneElement (text : Text) : Maker :=
  ⟨some (KeyedTree.fill 0 (.node 0 ['a'] (.leaf (.text text) .nil) .nil)), [], .null⟩

theorem oneElement_text (text : Text) : (oneElement text).getValue (some ['a']) = .ok (some text) := rfl

/-- GetValue of the char in <a>5</a> says true and sets nothing. -/
theorem char_number_skipped : ¬ Honoured (fun _ _ => 0) (oneElement ['5']) (some ['a']) .char :=
  number_skipped (oneElement_text ['5']) _ rfl

theorem int_getter_honoured : Honoured (fun _ _ => 0) (oneElement ['5']) (some ['a']) .int :=
  (getter_honoured_iff (fun _ _ => 0) .int (oneElement_text ['5'])).mpr
    ⟨nofun, nofun⟩

end DevAccess.Xml
