import DevAccess.Manager.Program

/-! What DevManager::Start comes to: the threads before their first step, and how they follow from
the file. -/
namespace DevAccess.Manager
open Foundation CText Poll Mes Config TinyXml

structure Worker.Fresh (w : Worker) (k : Nat) : Prop where
  index : w.index = k
  polls : ∃ kind, pollerOf kind = some w.driver
  state : w.state = State.start
  calls : w.calls = some []
  connected : w.mb.connected = false
  opened : w.log.opened = ∅
  history : w.reads = 0 ∧ w.connects = 0

section Workers
variable {conf : PlcConf} {confs : List PlcConf} {driver : Driver Message} {w : Worker}
    {ws : List Worker} {k : Nat}

theorem pollerOf_created (created : (createDev conf).bind PlcDev.doStart = some driver) :
    ∃ kind, plcDevType conf.devType = some kind ∧ pollerOf kind = some driver := by
  rw [createDev, Option.bind_assoc] at created
  exact Option.bind_eq_some_iff.mp created

theorem new_some (made : Worker.new k driver conf = some w) : ∃ d host, ModbusDev.new conf = some d ∧
    CText.cString conf.szIpAddr = some host ∧ w = ⟨k, driver, d.id, State.start,
      ModbusTcp.Modbus.make (String.ofList host) d.PORT, ⟨[], ∅⟩, some [], 0, 0⟩ := by
  obtain ⟨d, kept, made⟩ := Option.bind_eq_some_iff.mp made
  obtain ⟨host, read, made⟩ := Option.bind_eq_some_iff.mp made
  exact ⟨d, host, kept, read, (Option.some.inj made).symm⟩

theorem workers_cons (made : workers k (conf :: confs) = some ws) :
    ((createDev conf).bind PlcDev.doStart = none ∧ workers k confs = some ws) ∨
      ∃ driver w rest, (createDev conf).bind PlcDev.doStart = some driver ∧
        Worker.new k driver conf = some w ∧
        workers (k + 1) confs = some rest ∧ ws = w :: rest := by
  rw [workers] at made
  cases created : (createDev conf).bind PlcDev.doStart with
  | none =>
    rw [created] at made
    exact .inl ⟨rfl, made⟩
  | some driver =>
    rw [created] at made
    obtain ⟨w, first, made⟩ := Option.bind_eq_some_iff.mp made
    obtain ⟨rest, later, made⟩ := Option.bind_eq_some_iff.mp made
    exact .inr ⟨driver, w, rest, rfl, first, later, (Option.some.inj made).symm⟩

theorem workers_fresh (made : workers k confs = some ws) :
    ∀ (i : Nat) (inside : i < ws.length), ws[i].Fresh (k + i) := by
  induction confs generalizing k ws with
  | nil =>
    cases Option.some.inj made
    exact fun i inside => absurd inside (Nat.not_lt_zero i)
  | cons conf confs ih =>
    rcases workers_cons made with ⟨-, later⟩ | ⟨driver, w, rest, created, first, later, rfl⟩
    · exact ih later
    · intro i inside
      cases i with
      | zero =>
        obtain ⟨d, host, -, -, rfl⟩ := new_some first
        obtain ⟨kind, -, polls⟩ := pollerOf_created created
        exact ⟨rfl, ⟨kind, polls⟩, rfl, rfl, rfl, rfl, rfl, rfl⟩
      | succ i =>
        have fresh := ih later i (Nat.lt_of_succ_lt_succ inside)
        rwa [Nat.add_assoc, Nat.add_comm 1] at fresh

end Workers

section Start
variable {file : Option CText} {c : Connecting} {db : DbHelper} {ws : List Worker}

theorem connectToSvr_keeps {db db' : DbHelper} (unset : db.m_ses = false)
    (connected : db.connectToSvr c = .ok db') :
    db'.m_url = db.m_url ∧ db'.executed = db.executed ∧ (db'.m_ses = true ↔ c.Succeeds) := by
  obtain ⟨pool, session⟩ := c
  unfold DbHelper.connectToSvr DbHelper.connecting at connected
  unfold Connecting.Succeeds
  cases pool with
  | some what =>
    cases Except.ok.inj connected
    exact ⟨rfl, rfl, by simp [unset]⟩
  | none =>
    cases session with
    | some what =>
      cases Except.ok.inj connected
      exact ⟨rfl, rfl, by simp [unset]⟩
    | none =>
      cases Except.ok.inj connected
      exact ⟨rfl, rfl, by simp⟩

/-- When Start comes to the threads, they are those of the entries that Init has loaded. -/
theorem start_running (started : start file c = .ok (some (.running db ws))) :
    ∃ config, ConfigHelper.new.initFile file = .ok (config, 0) ∧
      mesSvrStart config.m_svrConf c = some (.ok db) ∧ workers 0 config.m_plcLst = some ws := by
  unfold start at started
  cases loaded : ConfigHelper.new.initFile file with
  | error e =>
    rw [loaded] at started
    cases started
  | ok r =>
    obtain ⟨config, ret⟩ := r
    rw [loaded] at started
    simp only [bind, Except.bind, pure, Except.pure] at started
    split at started
    · cases started
    · rename_i success
      obtain rfl := not_not.mp success
      refine ⟨config, rfl, ?_⟩
      have made := Except.ok.inj started
      obtain ⟨connected, init, made⟩ := Option.bind_eq_some_iff.mp made
      cases connected with
      | error e => cases made
      | ok db' =>
        obtain ⟨ws', there, same⟩ := Option.map_eq_some_iff.mp made
        cases same
        exact ⟨init, there⟩

theorem start_fresh (started : start file c = .ok (some (.running db ws))) :
    (∀ t : Fin ws.length, ((launch db ws).thread t).Fresh t) ∧ db.executed = [] ∧ (db.m_ses = true ↔
        c.Succeeds) := by
  obtain ⟨config, -, connected, made⟩ := start_running started
  refine ⟨fun t => ?_, ?_⟩
  · have fresh := workers_fresh made t t.isLt
    rwa [Nat.zero_add] at fresh
  · obtain ⟨user, -, connected⟩ := Option.bind_eq_some_iff.mp connected
    obtain ⟨pwd, -, connected⟩ := Option.bind_eq_some_iff.mp connected
    obtain ⟨dbname, -, connected⟩ := Option.bind_eq_some_iff.mp connected
    obtain ⟨dns, -, connected⟩ := Option.bind_eq_some_iff.mp connected
    have keeps := connectToSvr_keeps rfl (Option.some.inj connected)
    exact ⟨keeps.2.1, keeps.2.2⟩

end Start

theorem polls_iff (n : Int) : ((plcDevType n).bind pollerOf).isSome ↔ n = 0 ∨ n = 3 := by
  unfold plcDevType
  split_ifs with h0 h1 h2 h3
  · simp [h0, pollerOf, createPlcDev, PlcDev.doStart]
  · simp [h1, pollerOf, createPlcDev, PlcDev.doStart]
  · simp [h2, pollerOf, createPlcDev]
  · simp [h3, pollerOf, createPlcDev, PlcDev.doStart]
  · simp [h0, h3]

def driverOf (e : PlcEntry) : Driver Message :=
  ((plcDevType e.devtype).bind pollerOf).get ((polls_iff e.devtype).mpr e.devtype.2)

def Worker.ofEntry (index : Nat) (e : PlcEntry) : Worker where
  index
  driver := driverOf e
  id := e.id
  state := State.start
  mb := ModbusTcp.Modbus.make (String.ofList e.ip.1) e.port
  log := ⟨[], ∅⟩
  calls := some []
  reads := 0
  connects := 0

def workersOf : Nat → List PlcEntry → List Worker
  | _, [] => []
  | k, e :: rest => Worker.ofEntry k e :: workersOf (k + 1) rest

/-- The thread polls the device of the entry. -/
structure Worker.Serves (w : Worker) (e : PlcEntry) : Prop where
  driver : (plcDevType e.devtype).bind pollerOf = some w.driver
  host : w.mb.host = String.ofList e.ip.1
  port : w.mb.port = e.port
  id : w.id = e.id

def url (e : Login) : CText :=
  "UID=".toList ++ e.user.1 ++ ";PWD=".toList ++ e.pwd.1 ++ ";DATABASE=".toList ++ e.dbname.1 ++
    ";dsn=".toList ++ e.dns.1

section Configured
variable {conf : PlcConf} {e : PlcEntry} {confs : List PlcConf} {plcs : List PlcEntry} {k : Nat}

theorem created_type (conf : PlcConf) :
    (createDev conf).bind PlcDev.doStart = (plcDevType conf.devType).bind pollerOf := by
  rw [createDev, Option.bind_assoc]
  rfl

theorem created_idle (idle : conf.Idle) : (createDev conf).bind PlcDev.doStart = none := by
  rw [created_type, ← Option.not_isSome_iff_eq_none, polls_iff]
  exact idle

theorem new_entry (held : conf.Holds e) :
    Worker.new k (driverOf e) conf = some (Worker.ofEntry k e) := by
  obtain ⟨z, product⟩ := Option.isSome_iff_exists.mp e.interval.2
  have kept : ModbusDev.new conf =
      some ⟨(conf.uPort.toNat : Int), conf.id, z, UInt16.ofInt conf.uPort.toNat⟩ := by
    rw [ModbusDev.new, held.interval, product]
    rfl
  have made : Worker.new k (driverOf e) conf = some ⟨k, driverOf e, conf.id, State.start,
      ModbusTcp.Modbus.make (String.ofList e.ip.1) (UInt16.ofInt conf.uPort.toNat), ⟨[], ∅⟩,
      some [], 0, 0⟩ := by
    rw [Worker.new, kept, held.ip]
    rfl
  rw [made, ofInt_toNat_port, held.id, held.port]
  rfl

theorem driverOf_some (e : PlcEntry) : (plcDevType e.devtype).bind pollerOf = some (driverOf e) :=
  (Option.some_get _).symm

theorem workers_entries (picks : Picks PlcConf.Holds PlcConf.Idle confs plcs) :
    workers k confs = some (workersOf k plcs) := by
  induction picks generalizing k with
  | nil => rfl
  | @pick conf e confs plcs held later ih =>
    have created : (createDev conf).bind PlcDev.doStart = some (driverOf e) := by
      rw [created_type, held.devtype, driverOf_some]
    rw [workers, created]
    simp only [new_entry held, ih]
    rfl
  | pass idle later ih =>
    rw [workers, created_idle idle]
    exact ih

theorem workersOf_serve (k : Nat) (plcs : List PlcEntry) :
    List.Forall₂ Worker.Serves (workersOf k plcs) plcs := by
  induction plcs generalizing k with
  | nil => exact .nil
  | cons e rest ih => exact .cons ⟨driverOf_some e, rfl, rfl, rfl⟩ (ih (k + 1))

theorem start_entries {file : CText} {bom : Bool} {nodes : Siblings} {svr : Login}
    (spelt : Spelt file nodes bom) (configures : Configures nodes plcs svr) {c : Connecting}
    {db : DbHelper}
    (connected : mesSvrInit svr.user.1 svr.pwd.1 svr.dbname.1 svr.dns.1 c = .ok db) :
    start (some file) c = .ok (some (.running db (workersOf 0 plcs))) := by
  obtain ⟨config, plcConfs, loaded, plc_list, picks, logs⟩ :=
    initFile_configures ConfigHelper.new spelt configures
  have entries : config.m_plcLst = plcConfs := plc_list
  have init : mesSvrStart config.m_svrConf c = some (.ok db) := by
    rw [mesSvrStart, logs.user, logs.pwd, logs.dbname, logs.dns]
    exact congrArg some connected
  rw [start, loaded]
  simp only [bind, Except.bind, init, entries, workers_entries picks]
  rfl

/-- Whatever a configuration file looks like, Start connects with the login of its server, and
makes one thread for each PLC that has a polling driver, for its address, port and id. -/
theorem start_configured {file : CText} {bom : Bool} {nodes : Siblings} {svr : Login}
    (spelt : Spelt file nodes bom) (configures : Configures nodes plcs svr) (c : Connecting) :
    ∃ db ws, start (some file) c = .ok (some (.running db ws)) ∧
      List.Forall₂ Worker.Serves ws plcs ∧ db.m_url = url svr ∧ (db.m_ses = true ↔ c.Succeeds) := by
  obtain ⟨db, connected, -⟩ := connectToSvr_returns
    (DbHelper.new svr.user.1 svr.pwd.1 svr.dbname.1 svr.dns.1) rfl c
  obtain ⟨kept, -, session⟩ := connectToSvr_keeps rfl connected
  exact ⟨db, workersOf 0 plcs, start_entries spelt configures connected, workersOf_serve 0 plcs,
    kept, session⟩

def setting (name : String) (value : Text) (next : Siblings) : Siblings :=
  .element name.toList [] (.leaf (.text value false) .nil) next

def fx3uDev (ip : Text) (next : Siblings) : Siblings :=
  .element "dev".toList [] (setting "ip" ip (setting "port" ['5', '0', '2']
    (.leaf (.comment ['i', 'd']) (setting "id" ['1'] (setting "devtype" ['3']
      (setting "interval" ['2'] .nil)))))) next

def server : Siblings :=
  setting "user" ['u'] (setting "pwd" ['p'] (setting "dbname" ['d'] (setting "dns" ['n'] .nil)))

/-- Two PLCs to poll and one that is not, a database without a port, and a server. -/
def plant : Siblings :=
  .element "root".toList [] (.element "plc".toList [] (fx3uDev ['h'] (.element "dev".toList []
    (setting "devtype" ['1'] .nil) (fx3uDev ['i'] .nil)))
      (.element "sql".toList [] (.element "dev".toList [] (.element "port".toList [] .nil .nil) .nil)
        (.element "svr".toList [] server .nil))) .nil

theorem setting_printable {name : String} {value : Text} {next : Siblings}
    (named : name.toList.head?.any nameStart = true ∧ name.toList.all namePart = true)
    (plain : ¬ refStart <:+: value ∧ condensedFrom true value = true ∧ blank value = false)
    (printable : Printable .unknown next) : Printable .unknown (setting name value next) := by
  have other : ∀ s, ¬ (Encoding.unknown = Encoding.utf8 ∧ startsMark s = true) :=
    fun s mark => by cases mark.1
  refine ⟨⟨⟨named.1, List.all_eq_true.mp named.2, other _⟩, List.forall_mem_nil _, List.nodup_nil⟩,
    ?_, printable⟩
  exact ⟨⟨⟨whole_other (by decide) value, plain.1⟩, plain.2.1, plain.2.2, other _⟩, rfl,
    fun _ => rfl, trivial⟩

theorem bare_printable (name : String)
    (named : name.toList.head?.any nameStart = true ∧ name.toList.all namePart = true) :
    PrintableTag .unknown name.toList [] := by
  refine ⟨⟨named.1, List.all_eq_true.mp named.2, fun mark => ?_⟩, List.forall_mem_nil _,
    List.nodup_nil⟩
  cases mark.1

theorem fx3uDev_printable {ip : Text} {next : Siblings}
    (plain : ¬ refStart <:+: ip ∧ condensedFrom true ip = true ∧ blank ip = false)
    (printable : Printable .unknown next) : Printable .unknown (fx3uDev ip next) := by
  refine ⟨bare_printable "dev" (by decide), ?_, printable⟩
  apply setting_printable (by decide) plain
  apply setting_printable (by decide) (by decide)
  refine ⟨show ¬ commentEnd <:+: ['i', 'd'] by decide, rfl, fun _ => rfl, ?_⟩
  apply setting_printable (by decide) (by decide)
  apply setting_printable (by decide) (by decide)
  apply setting_printable (by decide) (by decide)
  trivial

theorem server_printable : Printable .unknown server := by
  apply setting_printable (by decide) (by decide)
  apply setting_printable (by decide) (by decide)
  apply setting_printable (by decide) (by decide)
  apply setting_printable (by decide) (by decide)
  trivial

theorem plant_printable : PrintableDocument .unknown plant := by
  have q02 : Printable .unknown (setting "devtype" ['1'] .nil) :=
    setting_printable (by decide) (by decide) trivial
  have devices : Printable .unknown (fx3uDev ['h'] (.element "dev".toList []
      (setting "devtype" ['1'] .nil) (fx3uDev ['i'] .nil))) := by
    apply fx3uDev_printable (by decide)
    exact ⟨bare_printable "dev" (by decide), q02, fx3uDev_printable (by decide) trivial⟩
  have database : Printable .unknown
      (.element "dev".toList [] (.element "port".toList [] .nil .nil) .nil) :=
    ⟨bare_printable "dev" (by decide), ⟨bare_printable "port" (by decide), trivial, trivial⟩, trivial⟩
  exact ⟨bare_printable "root" (by decide), ⟨bare_printable "plc" (by decide), devices,
    bare_printable "sql" (by decide), database, bare_printable "svr" (by decide), server_printable,
      trivial⟩, trivial⟩

def login : Login :=
  ⟨⟨['u'], by decide⟩, ⟨['p'], by decide⟩, ⟨['d'], by decide⟩, ⟨['n'], by decide⟩⟩

theorem server_in : login.In server :=
  ⟨⟨_, rfl, .text⟩, ⟨_, rfl, .text⟩, ⟨_, rfl, .text⟩, ⟨_, rfl, .text⟩⟩

def fx3uEntry (ip : Fitting 20) : PlcEntry := ⟨ip, 502, 1, ⟨3, .inr rfl⟩, ⟨2, by decide⟩⟩

def firstIp : Fitting 20 := ⟨['h'], by decide⟩

def secondIp : Fitting 20 := ⟨['i'], by decide⟩

theorem fx3uEntry_in (ip : Fitting 20) : (fx3uEntry ip).In (setting "ip" ip.1
    (setting "port" ['5', '0', '2'] (.leaf (.comment ['i', 'd']) (setting "id" ['1']
      (setting "devtype" ['3'] (setting "interval" ['2'] .nil)))))) := by
  refine ⟨⟨_, rfl, .text⟩, ?_, ?_, ?_, ?_⟩
  · exact ⟨['5', '0', '2'], .unsigned (decimal_of_all (by decide) rfl), by decide, _, rfl, .text⟩
  · exact ⟨['1'], .unsigned (decimal_of_all (by decide) rfl), by decide, _, rfl, .text⟩
  · exact ⟨['3'], .unsigned (decimal_of_all (by decide) rfl), by decide, _, rfl, .text⟩
  · exact ⟨['2'], .unsigned (decimal_of_all (by decide) rfl), by decide, _, rfl, .text⟩

theorem plant_configures : Configures plant [fx3uEntry firstIp, fx3uEntry secondIp] login := by
  have q02 : Unpolled (setting "devtype" ['1'] .nil) := by
    refine ⟨1, ⟨['1'], .unsigned (decimal_of_all (by decide) rfl), by decide, _, rfl, .text⟩, ?_, ?_⟩
    · decide
    · decide
  exact ⟨_, _, _, _, _, rfl, rfl, rfl, rfl,
    .pick (fx3uEntry_in firstIp) (.pass q02 (.pick (fx3uEntry_in secondIp) .nil)), server_in⟩

theorem plant_raw : plant.Raw fun c => c ≠ '\x00' ∧ c ≠ '\r' := by
  simp [plant, fx3uDev, server, setting, Siblings.Raw, Leaf.Raw]

def plantFile : CText := Document.saveFile ⟨plant, false, none⟩ ['\n']

theorem plantFile_spelt : Spelt plantFile plant false :=
  saveFile_spelt plant_printable plant_raw (.inl rfl)

theorem start_plant : ∃ db ws, start (some plantFile) ⟨none, none⟩ = .ok (some (.running db ws)) ∧
    List.Forall₂ Worker.Serves ws [fx3uEntry firstIp, fx3uEntry secondIp] ∧
      db.m_url = url login ∧ (db.m_ses = true ↔ Connecting.Succeeds ⟨none, none⟩) :=
  start_configured plantFile_spelt plant_configures ⟨none, none⟩

end Configured

section Plant

def plantWorkers : List Worker := workersOf 0 [fx3uEntry firstIp, fx3uEntry secondIp]

def firstPlc : Fin plantWorkers.length := ⟨0, Nat.zero_lt_succ 1⟩

def secondPlc : Fin plantWorkers.length := ⟨1, Nat.one_lt_succ_succ 0⟩

def newYear : Tm :=
  ⟨124, ⟨0, Nat.zero_lt_succ 11⟩, ⟨1, Nat.succ_lt_succ (Nat.zero_lt_succ 30)⟩,
    ⟨0, Nat.zero_lt_succ 23⟩, ⟨0, Nat.zero_lt_succ 59⟩, ⟨0, Nat.zero_lt_succ 61⟩⟩

def plantDb : DbHelper := ⟨true, true, "UID=u;PWD=p;DATABASE=d;dsn=n".toList, []⟩

theorem start_plantFile : start (some plantFile) ⟨none, none⟩ =
    .ok (some (.running plantDb plantWorkers)) :=
  start_entries plantFile_spelt plant_configures rfl

def linked (handle : Int) : ModbusTcp.Outcomes := { ModbusTcp.replied .failed with handle }

def wholePass (w : Worker) (handle : Int) (v : UInt16) : List Turn :=
  let mb := (modbusInit (ModbusTcp.scripted (linked handle)) w.id.toNat w.mb w.log).2.1
  [.poll (.modbusInit (linked handle)), .poll .proceed] ++
    (intSet.toList.zipIdx.map fun (address, k) =>
      .poll (.modbusStart (holding v (ModbusTcp.Modbus.stamped^[k] mb) address))) ++
    [.poll .proceed, .poll .proceed] ++ List.replicate 8 (.insert newYear ⟨none, none⟩) ++
    [.poll .proceed]

def bothPasses : List (Fin plantWorkers.length × Turn) :=
  (List.zipWith (fun first second => [(firstPlc, first), (secondPlc, second)])
    (wholePass (plantWorkers.get firstPlc) 7 5) (wholePass (plantWorkers.get secondPlc) 8 6)).flatten

end Plant

end DevAccess.Manager
