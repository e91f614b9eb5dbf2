import DevAccess.Foundation.Run
import DevAccess.Xml.Document

/-! ConfigHelper: the lists of devices and the server that Init takes from the elements of
a file. A file is given as the elements that LoadFile makes of it. -/
namespace DevAccess.Config
open Foundation

abbrev Text := CText

abbrev Content := Forest Text Xml.Leaf

structure PlcConf where
  szTitle : Vector Char 256
  szIpAddr : Vector Char 20
  uPort : UInt16
  id : UInt8
  devType : Int
  interval : Int
deriving DecidableEq

structure SqlConf where
  szTitle : Vector Char 256
  szIpAddr : Vector Char 20
  uPort : UInt16
  szUser : Vector Char 256
  szPwd : Vector Char 256
  szDbName : Vector Char 256
  szDnsName : Vector Char 256
  devType : Int
  interval : Int
deriving DecidableEq

@[ext] structure ConfigHelper where
  m_sqlLst : List SqlConf
  m_plcLst : List PlcConf
  m_svrConf : SqlConf
deriving DecidableEq

def zeroConf : SqlConf where
  szTitle := CText.strncpy 256 []
  szIpAddr := CText.strncpy 20 []
  uPort := 0
  szUser := CText.strncpy 256 []
  szPwd := CText.strncpy 256 []
  szDbName := CText.strncpy 256 []
  szDnsName := CText.strncpy 256 []
  devType := 0
  interval := 0

def ConfigHelper.new : ConfigHelper := ⟨[], [], zeroConf⟩

def rootElement (doc : Content) : Option Content := doc.nodes.head?.map Prod.snd

def childElements (elm : Content) (name : Text) : List Content :=
  (elm.nodes.filter (·.1 = name)).map Prod.snd

def firstChildElement (elm : Content) (name : Text) : Option Content := (childElements elm name).head?

def text : Content → Text
  | .leaf (.text value) _ => value
  | _ => []

def xmlGetFirstElement (elm : Content) (title : Text) : Text :=
  ((firstChildElement elm title).map text).getD []

def field (n : Nat) (elm : Content) (title : String) : Vector Char n :=
  CText.strncpy n (xmlGetFirstElement elm title.toList)

def number (elm : Content) (title : String) : Int := CText.atoi (xmlGetFirstElement elm title.toList)

def plcConf (dev : Content) : PlcConf where
  szTitle := field 256 dev "title"
  szIpAddr := field 20 dev "ip"
  uPort := UInt16.ofInt (number dev "port")
  id := UInt8.ofInt (number dev "id")
  devType := number dev "devtype"
  interval := number dev "interval"

def sqlConf (dev : Content) : SqlConf where
  szTitle := field 256 dev "title"
  szIpAddr := field 20 dev "ip"
  uPort := UInt16.ofInt (number dev "port")
  szUser := field 256 dev "user"
  szPwd := field 256 dev "pwd"
  szDbName := field 256 dev "dbname"
  szDnsName := field 256 dev "dns"
  devType := number dev "devtype"
  interval := number dev "interval"

/-- The server has neither a title nor a type and an interval: those fields stay. -/
def svrConf (old : SqlConf) (svr : Content) : SqlConf :=
  { old with
    szIpAddr := field 20 svr "ip"
    uPort := UInt16.ofInt (number svr "port")
    szUser := field 256 svr "user"
    szPwd := field 256 svr "pwd"
    szDbName := field 256 svr "dbname"
    szDnsName := field 256 svr "dns" }

def errError : Int := -1

def ConfigHelper.parseConf (c : ConfigHelper) (doc : Content) : ConfigHelper × Int :=
  match rootElement doc with
  | none => (c, errError)
  | some root =>
    match firstChildElement root "plc".toList with
    | none => (c, errError)
    | some plcElm =>
      let c := (childElements plcElm "dev".toList).foldl
        (fun c dev => { c with m_plcLst := c.m_plcLst ++ [plcConf dev] }) c
      match firstChildElement root "sql".toList with
      | none => (c, errError)
      | some sqlElm =>
        let c := (childElements sqlElm "dev".toList).foldl
          (fun c dev => { c with m_sqlLst := c.m_sqlLst ++ [sqlConf dev] }) c
        match firstChildElement root "svr".toList with
        | none => (c, errError)
        | some svrElm => ({ c with m_svrConf := svrConf c.m_svrConf svrElm }, 0)

def ConfigHelper.init (c : ConfigHelper) (file : Content) : ConfigHelper × Int := c.parseConf file

def ConfigHelper.step (c : ConfigHelper) (file : Content) : Option ConfigHelper := some (c.init file).1

end DevAccess.Config
