import DevAccess.Config.ConfigHelper

/-! When a call of Init leaves exactly what its file says, and nothing of a file it
refuses. The lists are never emptied, and they are filled before the later sections are
looked for. -/
namespace DevAccess.Config
open Foundation

def Content.part (doc : Content) (name : String) : Option Content :=
  (rootElement doc).bind (firstChildElement · name.toList)

def Content.devs (doc : Content) (name : String) : List Content :=
  match doc.part name with
  | none => []
  | some elm => childElements elm "dev".toList

def Content.Complete (doc : Content) : Prop :=
  (doc.part "plc").isSome ∧ (doc.part "sql").isSome ∧ (doc.part "svr").isSome

/-- What a call of Init owes: the entries of its file, or the object as it was. -/
def Honoured (c : ConfigHelper) (file : Content) : Prop :=
  ((c.init file).2 = 0 → (c.init file).1.m_plcLst = (file.devs "plc").map plcConf ∧
    (c.init file).1.m_sqlLst = (file.devs "sql").map sqlConf) ∧
  ((c.init file).2 = errError → (c.init file).1 = c)

def Allowed (c : ConfigHelper) (file : Content) : Prop :=
  (file.Complete → c.m_plcLst = [] ∧ c.m_sqlLst = []) ∧
  (¬ file.Complete → file.devs "plc" = [] ∧ ((file.part "plc").isSome → file.devs "sql" = []))

theorem foldl_plc (devs : List Content) (c : ConfigHelper) :
    devs.foldl (fun c dev => { c with m_plcLst := c.m_plcLst ++ [plcConf dev] }) c =
      { c with m_plcLst := c.m_plcLst ++ devs.map plcConf } := by
  induction devs generalizing c with
  | nil => simp
  | cons dev rest ih => simp [ih]

theorem foldl_sql (devs : List Content) (c : ConfigHelper) :
    devs.foldl (fun c dev => { c with m_sqlLst := c.m_sqlLst ++ [sqlConf dev] }) c =
      { c with m_sqlLst := c.m_sqlLst ++ devs.map sqlConf } := by
  induction devs generalizing c with
  | nil => simp
  | cons dev rest ih => simp [ih]

theorem init_eq (c : ConfigHelper) (file : Content) : c.init file =
    match file.part "plc", file.part "sql", file.part "svr" with
    | none, _, _ => (c, errError)
    | some _, none, _ => ({ c with m_plcLst := c.m_plcLst ++ (file.devs "plc").map plcConf }, errError)
    | some _, some _, none =>
      ({ c with m_plcLst := c.m_plcLst ++ (file.devs "plc").map plcConf,
                m_sqlLst := c.m_sqlLst ++ (file.devs "sql").map sqlConf }, errError)
    | some _, some _, some svr =>
      ({ m_plcLst := c.m_plcLst ++ (file.devs "plc").map plcConf,
         m_sqlLst := c.m_sqlLst ++ (file.devs "sql").map sqlConf,
         m_svrConf := svrConf c.m_svrConf svr }, 0) := by
  rw [ConfigHelper.init, ConfigHelper.parseConf]
  unfold Content.devs Content.part
  cases rootElement file with
  | none => rfl
  | some root =>
    simp only [Option.bind_some]
    cases firstChildElement root "plc".toList with
    | none => rfl
    | some plcElm =>
      simp only [foldl_plc]
      cases firstChildElement root "sql".toList with
      | none => rfl
      | some sqlElm =>
        simp only [foldl_sql]
        cases firstChildElement root "svr".toList with
        | none => rfl
        | some svrElm => rfl

theorem honoured_iff (c : ConfigHelper) (file : Content) : Honoured c file ↔ Allowed c file := by
  have run := init_eq c file
  unfold Honoured Allowed Content.Complete
  cases plc : file.part "plc" with
  | none =>
    have none_there : file.devs "plc" = [] := by rw [Content.devs, plc]
    rw [plc] at run
    simp [run, none_there, errError]
  | some plcElm =>
    cases sql : file.part "sql" with
    | none =>
      have none_there : file.devs "sql" = [] := by rw [Content.devs, sql]
      rw [plc, sql] at run
      simp [run, none_there, errError, ConfigHelper.ext_iff]
    | some sqlElm =>
      cases svr : file.part "svr" with
      | none =>
        rw [plc, sql, svr] at run
        simp [run, errError, ConfigHelper.ext_iff, and_comm]
      | some svrElm =>
        rw [plc, sql, svr] at run
        simp [run, errError]

/-- In a sequence of calls on one object every call leaves exactly what its file says, or
nothing, if and only if each meets an object and a file of the allowed kinds. -/
theorem loading_honoured_iff (files : List Content) :
    Guarded ConfigHelper.step Honoured ConfigHelper.new files ↔
      Guarded ConfigHelper.step Allowed ConfigHelper.new files :=
  guarded_congr honoured_iff ConfigHelper.new files

def plcOnly : Content :=
  .node 0 "root".toList (.node 1 "plc".toList (.node 2 "dev".toList .nil .nil) .nil) .nil

theorem refused_file_loaded :
    ¬ Guarded ConfigHelper.step Honoured ConfigHelper.new [plcOnly] := by
  intro honoured
  have refused : (ConfigHelper.new.init plcOnly).2 = errError := by decide
  have same := (honoured _ rfl).1.2 refused
  exact absurd (congrArg (fun c => c.m_plcLst.length) same) (by decide)

end DevAccess.Config
