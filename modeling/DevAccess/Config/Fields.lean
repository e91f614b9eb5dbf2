import DevAccess.Config.Loading
import DevAccess.Foundation.CString

/-! The char arrays that ParseConf fills from the texts of a file, read back as C strings.
strncpy leaves no zero behind a text that is as long as its array. -/
namespace DevAccess.Config
open Foundation CText

/-- The array gives back the text of the element, or as much of it as fits before a zero. -/
def Reads {n : Nat} (array : Vector Char n) (elm : Content) (title : String) : Prop :=
  cString array = some ((c_str (xmlGetFirstElement elm title.toList)).take (n - 1))

def Fits (n : Nat) (elm : Content) (title : String) : Prop :=
  (c_str (xmlGetFirstElement elm title.toList)).length < n

def PlcConf.ReadsBack (conf : PlcConf) (dev : Content) : Prop :=
  Reads conf.szTitle dev "title" ∧ Reads conf.szIpAddr dev "ip"

def PlcFits (dev : Content) : Prop := Fits 256 dev "title" ∧ Fits 20 dev "ip"

def SqlConf.LoginReadsBack (conf : SqlConf) (elm : Content) : Prop :=
  Reads conf.szIpAddr elm "ip" ∧ Reads conf.szUser elm "user" ∧ Reads conf.szPwd elm "pwd" ∧
    Reads conf.szDbName elm "dbname" ∧ Reads conf.szDnsName elm "dns"

def LoginFits (elm : Content) : Prop :=
  Fits 20 elm "ip" ∧ Fits 256 elm "user" ∧ Fits 256 elm "pwd" ∧ Fits 256 elm "dbname" ∧
    Fits 256 elm "dns"

def SqlConf.ReadsBack (conf : SqlConf) (dev : Content) : Prop :=
  Reads conf.szTitle dev "title" ∧ conf.LoginReadsBack dev

def SqlFits (dev : Content) : Prop := Fits 256 dev "title" ∧ LoginFits dev

def Content.sqlDevs (file : Content) : List Content :=
  match file.part "plc" with
  | none => []
  | some _ => file.devs "sql"

/-- Every char array that a call of Init stores reads back: those of the entries that it
adds to the lists, and those of m_svrConf. -/
structure StoredReadBack (c : ConfigHelper) (file : Content) : Prop where
  plc : List.Forall₂ PlcConf.ReadsBack ((c.init file).1.m_plcLst.drop c.m_plcLst.length) (file.devs "plc")
  sql : List.Forall₂ SqlConf.ReadsBack ((c.init file).1.m_sqlLst.drop c.m_sqlLst.length) file.sqlDevs
  svr : (c.init file).2 = 0 → ∀ svr ∈ file.part "svr", (c.init file).1.m_svrConf.LoginReadsBack svr

structure TextsFit (file : Content) : Prop where
  plc : ∀ dev ∈ file.devs "plc", PlcFits dev
  sql : ∀ dev ∈ file.sqlDevs, SqlFits dev
  svr : file.Complete → ∀ svr ∈ file.part "svr", LoginFits svr

theorem field_reads_iff (n : Nat) (elm : Content) (title : String) :
    Reads (field n elm title) elm title ↔ Fits n elm title :=
  cString_strncpy_iff n (xmlGetFirstElement elm title.toList)

theorem plcConf_reads_iff (dev : Content) : (plcConf dev).ReadsBack dev ↔ PlcFits dev :=
  and_congr (field_reads_iff 256 dev "title") (field_reads_iff 20 dev "ip")

theorem login_reads_iff (elm : Content) {conf : SqlConf} (ip : conf.szIpAddr = field 20 elm "ip")
    (user : conf.szUser = field 256 elm "user") (pwd : conf.szPwd = field 256 elm "pwd")
    (dbname : conf.szDbName = field 256 elm "dbname") (dns : conf.szDnsName = field 256 elm "dns") :
    conf.LoginReadsBack elm ↔ LoginFits elm := by
  simp only [SqlConf.LoginReadsBack, LoginFits, ip, user, pwd, dbname, dns, field_reads_iff]

theorem sqlConf_reads_iff (dev : Content) : (sqlConf dev).ReadsBack dev ↔ SqlFits dev :=
  and_congr (field_reads_iff 256 dev "title") (login_reads_iff dev rfl rfl rfl rfl rfl)

theorem svrConf_reads_iff (old : SqlConf) (svr : Content) :
    (svrConf old svr).LoginReadsBack svr ↔ LoginFits svr := login_reads_iff svr rfl rfl rfl rfl rfl

theorem forall_map_iff {α β : Type} {R : α → β → Prop} {P : β → Prop} {f : β → α}
    (each : ∀ b, R (f b) b ↔ P b) (bs : List β) : List.Forall₂ R (bs.map f) bs ↔ ∀ b ∈ bs, P b := by
  simp only [List.forall₂_map_left_iff, List.forall₂_same, each]

section Init
variable (c : ConfigHelper) (file : Content)

theorem init_plcLst : (c.init file).1.m_plcLst = c.m_plcLst ++ (file.devs "plc").map plcConf := by
  rw [init_eq]
  split
  · rename_i absent
    rw [Content.devs, absent, List.map_nil, List.append_nil]
  all_goals rfl

theorem init_sqlLst : (c.init file).1.m_sqlLst = c.m_sqlLst ++ file.sqlDevs.map sqlConf := by
  rw [init_eq]
  split
  · rename_i absent
    rw [Content.sqlDevs, absent, List.map_nil, List.append_nil]
  · rename_i present absent
    rw [Content.sqlDevs, present]
    dsimp only
    rw [Content.devs, absent, List.map_nil, List.append_nil]
  all_goals
    rename_i present _ _
    rw [Content.sqlDevs, present]

theorem init_loads : (c.init file).2 = 0 ↔ file.Complete := by
  rw [init_eq, Content.Complete]
  split
  all_goals simp [*, errError]

theorem init_svrConf (complete : file.Complete) {svr : Content} (member : svr ∈ file.part "svr") :
    (c.init file).1.m_svrConf = svrConf c.m_svrConf svr := by
  obtain ⟨plc, sql, -⟩ := complete
  obtain ⟨plcElm, plc⟩ := Option.isSome_iff_exists.mp plc
  obtain ⟨sqlElm, sql⟩ := Option.isSome_iff_exists.mp sql
  rw [init_eq, plc, sql, Option.mem_def.mp member]

end Init

/-- The stored arrays read back if and only if every text is shorter than its array. -/
theorem stored_read_iff (c : ConfigHelper) (file : Content) : StoredReadBack c file ↔ TextsFit file := by
  have plc := forall_map_iff plcConf_reads_iff (file.devs "plc")
  have sql := forall_map_iff sqlConf_reads_iff file.sqlDevs
  have svr (complete : file.Complete) (elm : Content) (member : elm ∈ file.part "svr") :
      (c.init file).1.m_svrConf.LoginReadsBack elm ↔ LoginFits elm := by
    rw [init_svrConf c file complete member, svrConf_reads_iff]
  constructor
  · rintro ⟨plc_read, sql_read, svr_read⟩
    rw [init_plcLst, List.drop_left, plc] at plc_read
    rw [init_sqlLst, List.drop_left, sql] at sql_read
    exact ⟨plc_read, sql_read, fun complete elm member =>
      (svr complete elm member).mp (svr_read ((init_loads c file).mpr complete) elm member)⟩
  · rintro ⟨plc_fits, sql_fits, svr_fits⟩
    refine ⟨?_, ?_, fun loaded elm member => ?_⟩
    · rwa [init_plcLst, List.drop_left, plc]
    · rwa [init_sqlLst, List.drop_left, sql]
    · have complete := (init_loads c file).mp loaded
      exact (svr complete elm member).mpr (svr_fits complete elm member)

def longDev : Content :=
  .node 3 "ip".toList (.leaf (.text "plc-12.workshop.lan.".toList) .nil) .nil

def longAddress : Content :=
  .node 0 "root".toList (.node 1 "plc".toList (.node 2 "dev".toList longDev .nil)
    (.node 4 "sql".toList .nil (.node 5 "svr".toList .nil .nil))) .nil

/-- There is no zero behind a text that fills its array. -/
theorem full_array_unterminated : ¬ StoredReadBack ConfigHelper.new longAddress := by
  rintro ⟨plc, -, -⟩
  have devs : longAddress.devs "plc" = [longDev] := by rfl
  rw [init_plcLst, List.drop_left, forall_map_iff plcConf_reads_iff, devs] at plc
  have fits : Fits 20 longDev "ip" := (plc longDev List.mem_cons_self).2
  exact absurd fits (by unfold Fits; decide)

end DevAccess.Config
