import DevAccess.Config.ConfigHelper
import DevAccess.Poll.Events

/-! The port, the id and the interval of a dev element on their way into a driver: through
the fields of stPLCConf, the constructor, and the calls that DoStart makes with them. -/
namespace DevAccess.Config
open Foundation Poll CText

/-- (PLCDEVTYPE) of the number in the file; no enumerator has another value. -/
def plcDevType (n : Int) : Option PlcDevType :=
  if n = 0 then some .xinjieXc3_32tE
  else if n = 1 then some .mitsubishiQ02uccpu
  else if n = 2 then some .mitsubishiQ03udvcpu
  else if n = 3 then some .mitsubishiFx3u32m
  else none

/-- CreatePlcDev: none is nullptr, and Start goes on with the next entry. -/
def createDev (conf : PlcConf) : Option PlcDev := (plcDevType conf.devType).bind createPlcDev

def mulInt (a b : Int) : Option Int :=
  if -2147483648 ≤ a * b ∧ a * b < 2147483648 then some (a * b) else none

structure ModbusDev where
  port : Int
  id : UInt8
  interval : Int
  PORT : UInt16

def ModbusDev.new (conf : PlcConf) : Option ModbusDev :=
  (mulInt conf.interval 1000).map fun interval =>
    let port : Int := conf.uPort.toNat
    { port, id := conf.id, interval, PORT := UInt16.ofInt port }

def ModbusDev.slaveId (d : ModbusDev) : Int := d.id.toNat

def ModbusDev.sleepTime (d : ModbusDev) : UInt32 := UInt32.ofInt d.interval

/-- The drivers with a Modbus; the Q02 takes nothing from its entry. -/
def usesModbus : PlcDev → Bool
  | .xinJieXc3 | .mitsubishiFx3u32m => true
  | .mitsubishiQ02uucpu => false

/-- The numbers that reach Modbus and Sleep. -/
structure ModbusDev.Holds (d : ModbusDev) (port id interval : Int) : Prop where
  port : (d.PORT.toNat : Int) = port
  slave : d.slaveId = id
  sleep : (d.sleepTime.toNat : Int) = 1000 * interval

/-- The driver that an entry gets, if it gets one with a Modbus, holds these numbers. -/
def NumbersReach (dev : Content) (port id interval : Int) : Prop :=
  ∀ plc ∈ createDev (plcConf dev), usesModbus plc →
    ∃ d ∈ ModbusDev.new (plcConf dev), d.Holds port id interval

def AsksForModbus (dev : Content) : Prop := number dev "devtype" = 0 ∨ number dev "devtype" = 3

theorem asks_iff (dev : Content) :
    (∃ plc ∈ createDev (plcConf dev), usesModbus plc) ↔ AsksForModbus dev := by
  simp only [createDev, plcConf, AsksForModbus]
  generalize number dev "devtype" = n
  unfold plcDevType
  split
  · simp [*, createPlcDev, usesModbus]
  · split
    · simp [*, createPlcDev, usesModbus]
    · split
      · simp [*, createPlcDev]
      · split
        · simp [*, createPlcDev, usesModbus]
        · simp [*]

theorem new_holds_iff (conf : PlcConf) (port id interval : Int) :
    (∃ d ∈ ModbusDev.new conf, d.Holds port id interval) ↔
      ((UInt16.ofInt (conf.uPort.toNat : Int)).toNat : Int) = port ∧ (conf.id.toNat : Int) = id ∧
        ∃ z ∈ mulInt conf.interval 1000, ((UInt32.ofInt z).toNat : Int) = 1000 * interval := by
  simp only [ModbusDev.new, Option.mem_def, Option.map_eq_some_iff]
  constructor
  · rintro ⟨_, ⟨z, product, rfl⟩, holds⟩
    exact ⟨holds.port, holds.slave, z, product, holds.sleep⟩
  · rintro ⟨port_kept, id_kept, z, product, sleep_kept⟩
    exact ⟨_, ⟨z, product, rfl⟩, port_kept, id_kept, sleep_kept⟩

theorem port_kept_iff (n : Int) :
    ((UInt16.ofInt ((UInt16.ofInt n).toNat : Int)).toNat : Int) = n ↔ 0 ≤ n ∧ n < 65536 := by
  have narrowed (m : Int) : ((UInt16.ofInt m).toNat : Int) = m % 65536 := by
    simp only [UInt16.ofInt, UInt16.toNat_ofNat']
    omega
  rw [narrowed, narrowed]
  omega

theorem id_kept_iff (n : Int) : ((UInt8.ofInt n).toNat : Int) = n ↔ 0 ≤ n ∧ n < 256 := by
  rw [ofInt_toNat]
  omega

theorem sleep_kept_iff (n : Int) :
    (∃ z ∈ mulInt n 1000, ((UInt32.ofInt z).toNat : Int) = 1000 * n) ↔ 0 ≤ n ∧ n ≤ 2147483 := by
  have wrapped (m : Int) : ((UInt32.ofInt m).toNat : Int) = m % 4294967296 := by
    simp only [UInt32.ofInt, UInt32.toNat_ofNat']
    omega
  simp only [mulInt, wrapped]
  split
  · simp
    omega
  · simp
    omega

/-- The numbers of an entry reach its driver as they are if and only if the port fits 16
bits, the id 8 bits, and the interval in milliseconds is an int that is not negative. -/
theorem numbers_reach_iff (dev : Content) {port id interval : Int}
    (port_text : Numeral (xmlGetFirstElement dev "port".toList) port)
    (port_int : -2147483648 ≤ port ∧ port < 2147483648)
    (id_text : Numeral (xmlGetFirstElement dev "id".toList) id)
    (id_int : -2147483648 ≤ id ∧ id < 2147483648)
    (interval_text : Numeral (xmlGetFirstElement dev "interval".toList) interval)
    (interval_int : -2147483648 ≤ interval ∧ interval < 2147483648) :
    NumbersReach dev port id interval ↔
      (AsksForModbus dev →
        (0 ≤ port ∧ port < 65536) ∧ (0 ≤ id ∧ id < 256) ∧ 0 ≤ interval ∧ interval ≤ 2147483) := by
  have port_read : number dev "port" = port := atoi_numeral port_text port_int.1 port_int.2
  have id_read : number dev "id" = id := atoi_numeral id_text id_int.1 id_int.2
  have interval_read : number dev "interval" = interval :=
    atoi_numeral interval_text interval_int.1 interval_int.2
  have kept : (∃ d ∈ ModbusDev.new (plcConf dev), d.Holds port id interval) ↔
      (0 ≤ port ∧ port < 65536) ∧ (0 ≤ id ∧ id < 256) ∧ 0 ≤ interval ∧ interval ≤ 2147483 := by
    rw [new_holds_iff]
    simp only [plcConf, port_read, id_read, interval_read, port_kept_iff, id_kept_iff, sleep_kept_iff]
  rw [← asks_iff, ← kept]
  constructor
  · rintro reach ⟨plc, made, modbus⟩
    exact reach plc made modbus
  · intro reach plc made modbus
    exact reach ⟨plc, made, modbus⟩

def fx3u (port id interval : CText) : Content :=
  .node 0 "port".toList (.leaf (.text port) .nil) (.node 1 "id".toList (.leaf (.text id) .nil)
    (.node 2 "interval".toList (.leaf (.text interval) .nil)
      (.node 3 "devtype".toList (.leaf (.text "3".toList) .nil) .nil)))

theorem fx3u_port (port id interval : CText) :
    xmlGetFirstElement (fx3u port id interval) "port".toList = port := rfl

theorem fx3u_id (port id interval : CText) :
    xmlGetFirstElement (fx3u port id interval) "id".toList = id := rfl

theorem fx3u_interval (port id interval : CText) :
    xmlGetFirstElement (fx3u port id interval) "interval".toList = interval := rfl

theorem numbers_reach_usual :
    NumbersReach (fx3u "502".toList "1".toList "2".toList) 502 1 2 ↔
      (AsksForModbus (fx3u "502".toList "1".toList "2".toList) →
        ((0 : Int) ≤ 502 ∧ (502 : Int) < 65536) ∧ ((0 : Int) ≤ 1 ∧ (1 : Int) < 256) ∧
          (0 : Int) ≤ 2 ∧ (2 : Int) ≤ 2147483) :=
  numbers_reach_iff (fx3u "502".toList "1".toList "2".toList)
    (fx3u_port .. ▸ .unsigned (decimal_of_all (by decide) (by decide))) (by decide)
    (fx3u_id .. ▸ .unsigned (decimal_of_all (by decide) (by decide))) (by decide)
    (fx3u_interval .. ▸ .unsigned (decimal_of_all (by decide) (by decide))) (by decide)

/-- A port that 16 bits do not hold is another port for Modbus. -/
theorem port_wraps :
    Numeral (xmlGetFirstElement (fx3u "70000".toList "1".toList "2".toList) "port".toList) 70000 ∧
      Numeral (xmlGetFirstElement (fx3u "70000".toList "1".toList "2".toList) "id".toList) 1 ∧
      Numeral (xmlGetFirstElement (fx3u "70000".toList "1".toList "2".toList) "interval".toList) 2 ∧
      ¬ NumbersReach (fx3u "70000".toList "1".toList "2".toList) 70000 1 2 := by
  rw [fx3u_port, fx3u_id, fx3u_interval]
  refine ⟨.unsigned (decimal_of_all (by decide) (by decide)),
    .unsigned (decimal_of_all (by decide) (by decide)),
    .unsigned (decimal_of_all (by decide) (by decide)), fun reach => ?_⟩
  have kept := (new_holds_iff _ 70000 1 2).mp (reach .mitsubishiFx3u32m (by decide) rfl)
  exact absurd kept.1 (by decide)

end DevAccess.Config
