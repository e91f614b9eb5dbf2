import DevAccess.Config.Fields
import DevAccess.Config.Numbers
import DevAccess.TinyXml.Elements
import DevAccess.TinyXml.Truncated

/-! Init on a file: the entries that a configuration describes are the entries of the lists
afterwards, however the file spells it. -/
namespace DevAccess.Config
open Foundation CText TinyXml

/-- Init on a file with this content, or on one that cannot be opened. What LoadFile answers is
not looked at. -/
def ConfigHelper.initFile (c : ConfigHelper) (file : Option CText) :
    Xml.Call (ConfigHelper × Int) := do
  return c.init (← Document.loadFile file).children.seen

abbrev Fitting (n : Nat) := { s : Text // s.length < n ∧ '\x00' ∉ s }

/-- What a device that is polled asks for. Its interval is an int in milliseconds. -/
structure PlcEntry where
  ip : Fitting 20
  port : UInt16
  id : UInt8
  devtype : { z : Int // z = 0 ∨ z = 3 }
  interval : { z : Int // (mulInt z 1000).isSome }

structure Login where
  user : Fitting 256
  pwd : Fitting 256
  dbname : Fitting 256
  dns : Fitting 256

inductive Valued : Siblings → Text → Prop
  | none : Valued .nil []
  | text {value : Text} {cdata : Bool} {next : Siblings} :
      Valued (.leaf (.text value cdata) next) value

def inside (kids : Siblings) (name : String) : Option Siblings :=
  (kids.elements.find? (·.1 = name.toList)).map Prod.snd

def Tells (kids : Siblings) (name : String) (value : Text) : Prop :=
  ∃ k, inside kids name = some k ∧ Valued k value

def Counts (kids : Siblings) (name : String) (z : Int) : Prop :=
  ∃ s, Numeral s z ∧ '\x00' ∉ s ∧ Tells kids name s

structure PlcEntry.In (e : PlcEntry) (kids : Siblings) : Prop where
  ip : Tells kids "ip" e.ip
  port : Counts kids "port" e.port.toNat
  id : Counts kids "id" e.id.toNat
  devtype : Counts kids "devtype" e.devtype
  interval : Counts kids "interval" e.interval

def Unpolled (kids : Siblings) : Prop :=
  ∃ z, Counts kids "devtype" z ∧ (-2147483648 ≤ z ∧ z < 2147483648) ∧ ¬ (z = 0 ∨ z = 3)

structure Login.In (e : Login) (kids : Siblings) : Prop where
  user : Tells kids "user" e.user
  pwd : Tells kids "pwd" e.pwd
  dbname : Tells kids "dbname" e.dbname
  dns : Tells kids "dns" e.dns

/-- The items of one list stand for those of another in turn, but for some that are passed over. -/
inductive Picks {α β : Type} (stands : α → β → Prop) (passed : α → Prop) : List α → List β → Prop
  | nil : Picks stands passed [] []
  | pick {a : α} {b : β} {as : List α} {bs : List β} (here : stands a b)
      (later : Picks stands passed as bs) : Picks stands passed (a :: as) (b :: bs)
  | pass {a : α} {as : List α} {bs : List β} (here : passed a) (later : Picks stands passed as bs) :
      Picks stands passed (a :: as) bs

theorem Picks.map {α β γ : Type} {stands : α → β → Prop} {passed : α → Prop}
    {stands' : γ → β → Prop} {passed' : γ → Prop} {f : α → γ} {as : List α} {bs : List β}
    (picks : Picks stands passed as bs) (kept : ∀ a b, stands a b → stands' (f a) b)
    (left : ∀ a, passed a → passed' (f a)) : Picks stands' passed' (as.map f) bs := by
  induction picks with
  | nil => exact .nil
  | pick here later ih => exact .pick (kept _ _ here) ih
  | pass here later ih => exact .pass (left _ here) ih

def devs (kids : Siblings) : List Siblings := (kids.elements.filter (·.1 = "dev".toList)).map Prod.snd

/-- The document has these devices to poll and this server. In the sql section anything may
stand, and so it may where nothing is read. -/
structure Configures (nodes : Siblings) (plcs : List PlcEntry) (svr : Login) : Prop where
  sections : ∃ name root plc sql server, nodes.elements.head? = some (name, root) ∧
    inside root "plc" = some plc ∧ inside root "sql" = some sql ∧ inside root "svr" = some server ∧
    Picks (fun kids e => e.In kids) Unpolled (devs plc) plcs ∧ svr.In server

/-- The stored entry is the one that was described, its array read as a C string. -/
structure PlcConf.Holds (conf : PlcConf) (e : PlcEntry) : Prop where
  ip : cString conf.szIpAddr = some e.ip.1
  port : conf.uPort = e.port
  id : conf.id = e.id
  devtype : conf.devType = e.devtype
  interval : conf.interval = e.interval

def PlcConf.Idle (conf : PlcConf) : Prop := ¬ (conf.devType = 0 ∨ conf.devType = 3)

structure SqlConf.Logs (conf : SqlConf) (e : Login) : Prop where
  user : cString conf.szUser = some e.user.1
  pwd : cString conf.szPwd = some e.pwd.1
  dbname : cString conf.szDbName = some e.dbname.1
  dns : cString conf.szDnsName = some e.dns.1

section Reading
variable {kids : Siblings} {name : String} {value : Text} {n : Nat} {z : Int}

theorem firstChild_inside (kids : Siblings) (name : String) :
    firstChildElement kids.seen name.toList = (inside kids name).map Siblings.seen := by
  rw [firstChildElement, childElements, seen_nodes, List.filter_map, List.map_map, List.head?_map,
    inside, Option.map_map]
  congr 1
  exact List.head?_filter

theorem childElements_devs (kids : Siblings) :
    childElements kids.seen "dev".toList = (devs kids).map Siblings.seen := by
  rw [childElements, seen_nodes, devs, List.filter_map, List.map_map, List.map_map]
  rfl

theorem text_valued {k : Siblings} (valued : Valued k value) (noZero : '\x00' ∉ value) :
    text k.seen = value := by
  cases valued with
  | none => rfl
  | text => exact c_str_whole noZero

theorem read_tells (tells : Tells kids name value) (noZero : '\x00' ∉ value) :
    xmlGetFirstElement kids.seen name.toList = value := by
  obtain ⟨k, here, valued⟩ := tells
  rw [xmlGetFirstElement, firstChild_inside, here]
  exact text_valued valued noZero

theorem field_tells {fitting : Fitting n} (tells : Tells kids name fitting.1) :
    cString (field n kids.seen name) = some fitting.1 := by
  obtain ⟨value, short, noZero⟩ := fitting
  have read := (cString_strncpy_iff n value).mpr (by rwa [c_str_whole noZero])
  rw [field, read_tells tells noZero, read, c_str_whole noZero,
    List.take_of_length_le (Nat.le_sub_one_of_lt short)]

theorem number_counts (counts : Counts kids name z) (lower : -2147483648 ≤ z)
    (upper : z < 2147483648) :
    number kids.seen name = z := by
  obtain ⟨s, numeral, noZero, tells⟩ := counts
  rw [number, read_tells tells noZero, atoi_numeral numeral lower upper]

theorem ofInt_toNat_port (port : UInt16) : UInt16.ofInt (port.toNat : Int) = port := by
  have small := port.toNat_lt
  apply UInt16.toNat.inj
  simp only [UInt16.ofInt, UInt16.toNat_ofNat']
  omega

theorem port_counts {port : UInt16} (counts : Counts kids name port.toNat) :
    UInt16.ofInt (number kids.seen name) = port := by
  have small := port.toNat_lt
  rw [number_counts counts (by omega) (by omega), ofInt_toNat_port]

theorem id_counts {id : UInt8} (counts : Counts kids name id.toNat) :
    UInt8.ofInt (number kids.seen name) = id := by
  have small := id.toNat_lt
  rw [number_counts counts (by omega) (by omega)]
  apply UInt8.toNat.inj
  simp only [UInt8.ofInt, UInt8.toNat_ofNat']
  omega

theorem mulInt_int (product : (mulInt z 1000).isSome) : -2147483648 ≤ z ∧ z < 2147483648 := by
  unfold mulInt at product
  split at product
  · omega
  · cases product

theorem plcConf_holds {e : PlcEntry} (described : e.In kids) : (plcConf kids.seen).Holds e where
  ip := field_tells described.ip
  port := port_counts described.port
  id := id_counts described.id
  devtype := by
    have type := e.devtype.2
    exact number_counts described.devtype (by omega) (by omega)
  interval := by
    have range := mulInt_int e.interval.2
    exact number_counts described.interval range.1 range.2

theorem plcConf_idle (unpolled : Unpolled kids) : (plcConf kids.seen).Idle := by
  obtain ⟨z, counts, range, other⟩ := unpolled
  have type : (plcConf kids.seen).devType = z := number_counts counts range.1 range.2
  rwa [PlcConf.Idle, type]

theorem svrConf_logs {e : Login} (old : SqlConf) (described : e.In kids) :
    (svrConf old kids.seen).Logs e where
  user := field_tells described.user
  pwd := field_tells described.pwd
  dbname := field_tells described.dbname
  dns := field_tells described.dns

end Reading

section Init
variable {nodes : Siblings} {plcs : List PlcEntry} {svr : Login}

/-- The entries of a configuration are appended to the list as they were described, and the
server is the one of the file, however the file spells it. -/
theorem initFile_configures (c : ConfigHelper) {file : CText} {bom : Bool}
    (spelt : Spelt file nodes bom) (configures : Configures nodes plcs svr) :
    ∃ c' plcConfs, c.initFile (some file) = .ok (c', 0) ∧ c'.m_plcLst = c.m_plcLst ++ plcConfs ∧
      Picks PlcConf.Holds PlcConf.Idle plcConfs plcs ∧ c'.m_svrConf.Logs svr := by
  obtain ⟨name, root, plc, sql, server, head, plc_here, sql_here, svr_here, plc_in, svr_in⟩ :=
    configures.sections
  have nonempty : nodes ≠ .nil := by
    rintro rfl
    cases head
  have loaded := loadFile_spelt spelt nonempty
  have rooted : rootElement nodes.seen = some root.seen := by
    rw [rootElement, seen_nodes, List.head?_map, head]
    rfl
  have part_of {name : String} {kids : Siblings} (here : inside root name = some kids) :
      Content.part nodes.seen name = some kids.seen := by
    rw [Content.part, rooted, Option.bind_some, firstChild_inside, here, Option.map_some]
  have plc_devs : Content.devs nodes.seen "plc" = (devs plc).map Siblings.seen := by
    rw [Content.devs, part_of plc_here]
    exact childElements_devs plc
  have complete : Content.Complete nodes.seen :=
    ⟨by rw [part_of plc_here]; rfl, by rw [part_of sql_here]; rfl, by rw [part_of svr_here]; rfl⟩
  refine ⟨(c.init nodes.seen).1, ((devs plc).map Siblings.seen).map plcConf, ?_, ?_, ?_, ?_⟩
  · have answer := (init_loads c nodes.seen).mpr complete
    rw [ConfigHelper.initFile, loaded]
    exact congrArg Except.ok (Prod.ext rfl answer)
  · rw [init_plcLst, plc_devs]
  · rw [List.map_map]
    exact plc_in.map (fun _ _ => plcConf_holds) fun _ => plcConf_idle
  · rw [init_svrConf c nodes.seen complete (part_of svr_here)]
    exact svrConf_logs c.m_svrConf svr_in

end Init

section Unclosed
variable {nodes : Siblings} {file w missing : CText} {bom : Bool}

/-- A file that lacks the end tags of its last elements is taken for one that has them: the parser
finds an error, which Init does not ask for. -/
theorem initFile_unclosed (c : ConfigHelper) (whole : '\x00' ∉ file)
    (marked : Xml.lineEnds file = startMark bom ++ w)
    (unclosed : UnclosedDocument (startEncoding bom) nodes w missing) :
    c.initFile (some file) = c.initFile (some (file ++ missing)) ∧
      ∃ d, Document.loadFile (some file) = .ok d ∧ d.error ≠ none := by
  obtain ⟨error, parsed⟩ := parse_unclosed unclosed
  have read : Document.loadFile (some file) = .ok ⟨nodes, bom, some error⟩ := by
    rw [loadFile_eq, c_str_whole whole, marked, parsed]
  have completed : Document.loadFile (some (file ++ missing)) = .ok ⟨nodes, bom, none⟩ := by
    have plain := unclosed.plain
    have none_there : '\x00' ∉ file ++ missing := by
      rw [List.mem_append, not_or]
      exact ⟨whole, fun zero => (plain _ zero).1 rfl⟩
    obtain ⟨t, rfl⟩ := unclosed.lead
    rw [loadFile_eq, c_str_whole none_there, Xml.lineEnds_append (by decide), marked,
      Xml.lineEnds_same fun c member => (plain c member).2, List.append_assoc]
    exact parse_written unclosed.closed unclosed.nonempty
  refine ⟨?_, _, read, fun none => by cases none⟩
  rw [ConfigHelper.initFile, ConfigHelper.initFile, read, completed]
  rfl

def cutOff : CText := "<r><plc/><sql/>\n<svr>".toList

theorem initFile_cutOff : ConfigHelper.new.initFile (some cutOff) =
    ConfigHelper.new.initFile (some (cutOff ++ "</svr></r>".toList)) ∧
      ∃ d, Document.loadFile (some cutOff) = .ok d ∧ d.error ≠ none := by
  have unclosed : UnclosedDocument (startEncoding false)
      (.element ['r'] [] (.element "plc".toList [] .nil (.element "sql".toList [] .nil
        (.element "svr".toList [] .nil .nil))) .nil) cutOff "</svr></r>".toList := by
    have sections : Written .unknown
      (.element "plc".toList [] .nil (.element "sql".toList [] .nil .nil))
        "<plc/><sql/>\n".toList :=
      .empty White.nil (bare_tag (by decide))
        (.empty White.nil (bare_tag (by decide)) (.nil (List.all_eq_true.mp rfl)))
    exact .inside (.nil White.nil) (bare_tag (by decide))
      (.inside sections (bare_tag (by decide)) (.here (.nil White.nil)))
  exact initFile_unclosed ConfigHelper.new (by decide) (by decide) unclosed

end Unclosed

end DevAccess.Config
