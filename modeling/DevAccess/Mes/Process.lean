import DevAccess.Foundation.Calendar
import DevAccess.Poll.Events

/-! DevManager::DoEventProcess down to the texts it hands to InsertToSvr. A status code
comes from the PLC as it is, and is used as an index. -/
namespace DevAccess.Mes
open Foundation Poll

def pSt : Vector String 11 :=
  #v["待机中", "气密气缸上升", "气密气缸下降", "测试开始", "测试NG", "测试OK", "上升到位", "下降到位",
    "出板放行", "出板通过", "下降到位等待测试"]

/-- pSt[code], or std::to_string; none for an index outside of pSt. -/
def val : Shown → Option CText
  | .status code => pSt[code.toNat]?.map String.toList
  | .count n => some (CText.decimal n.toNat)

abbrev InsertCall := CText × CText

/-- The calls made one after another, up to the first that reads outside of pSt, and
whether there is none. -/
def perform : List Insert → List InsertCall × Bool
  | [] => ([], true)
  | i :: rest =>
    match val i.value with
    | none => ([], false)
    | some v => ((i.key.toList, v) :: (perform rest).1, (perform rest).2)

def process (type : EventType) (payload : Payload) : Option (List InsertCall × Bool) :=
  (doEventProcess type payload).map perform

/-- The eight calls for an event: two status texts and six numbers. -/
def Shows (d : Data) (calls : List InsertCall) : Prop :=
  ∃ st1 st2, pSt[d.stationStatus1.toNat]? = some st1 ∧ pSt[d.stationStatus2.toNat]? = some st2 ∧
    calls = [("1号工位状态".toList, st1.toList),
      ("1号工位OK数量".toList, CText.decimal d.stationOkAmount1.toNat),
      ("1号工位总测数量".toList, CText.decimal d.stationTotalAmount1.toNat),
      ("1号工位NG数量".toList, CText.decimal d.stationNgAmount1.toNat),
      ("2号工位状态".toList, st2.toList),
      ("2号工位OK数量".toList, CText.decimal d.stationOkAmount2.toNat),
      ("2号工位总测数量".toList, CText.decimal d.stationTotalAmount2.toNat),
      ("2号工位NG数量".toList, CText.decimal d.stationNgAmount2.toNat)]

/-- DoEventProcess stays inside pSt and makes these calls and no others. -/
def Processed (d : Data) : Prop :=
  ∃ calls, process .mitsubishiFx3u32m (.mitsubishi d) = some (calls, true) ∧ Shows d calls

theorem val_status (code : UInt16) : (val (.status code)).isSome ↔ code.toNat < 11 := by
  simp [val]

theorem perform_whole (inserts : List Insert) :
    (perform inserts).2 = true ↔ ∀ i ∈ inserts, (val i.value).isSome := by
  induction inserts with
  | nil => simp [perform]
  | cons i rest ih =>
    rw [List.forall_mem_cons, perform]
    cases val i.value with
    | none => simp
    | some v => simp [ih]

/-- An event is processed as it should be exactly if both its status codes have a text. -/
theorem processed_iff (d : Data) :
    Processed d ↔ d.stationStatus1.toNat < 11 ∧ d.stationStatus2.toNat < 11 := by
  constructor
  · rintro ⟨calls, run, _⟩
    obtain ⟨inserts, made, whole⟩ := Option.map_eq_some_iff.mp run
    cases Option.some.inj made
    have inside := (perform_whole _).mp (congrArg Prod.snd whole)
    simp only [List.forall_mem_cons] at inside
    exact ⟨(val_status _).mp inside.1, (val_status _).mp inside.2.2.2.2.1⟩
  · rintro ⟨first, second⟩
    refine ⟨_, ?_, pSt[d.stationStatus1.toNat], pSt[d.stationStatus2.toNat],
      Vector.getElem?_eq_getElem first, Vector.getElem?_eq_getElem second, rfl⟩
    simp only [process, doEventProcess, Payload.cast, Option.map_some, perform, val,
      Vector.getElem?_eq_getElem first, Vector.getElem?_eq_getElem second]

def AllProcessed (s : State Data) : Prop := ∀ e ∈ s.events, Processed e.data

def StatusesKnown (s : State Data) (a : Act) : Prop :=
  Reporting s a →
    (Data.make s.oldValue).stationStatus1.toNat < 11 ∧ (Data.make s.oldValue).stationStatus2.toNat < 11

theorem allProcessed_step (s : State Data) (a : Act) (r : State Data) (good : AllProcessed s)
    (taken : mitsubishiFx3u32m.step s a = some r) : AllProcessed r ↔ StatusesKnown s a := by
  unfold AllProcessed
  rcases events_step rfl taken with ⟨reporting, events⟩ | ⟨other, events⟩
  · rw [events, List.forall_mem_cons]
    have event := processed_iff (Data.make s.oldValue)
    exact ⟨fun h _ => event.mp h.1, fun known => ⟨event.mpr (known reporting), good⟩⟩
  · rw [events]
    exact ⟨fun _ reporting => absurd reporting other, fun _ => good⟩

/-- In a run of the FX3U poller all events are processed as they should be if and only if
every report is made with known status codes. -/
theorem events_processed_iff (as : List Act) :
    Always mitsubishiFx3u32m.step AllProcessed State.start as ↔
      Guarded mitsubishiFx3u32m.step StatusesKnown State.start as :=
  always_iff_guarded (fun _ _ _ _ _ _ _ => trivial)
    (fun s a r (_ : True) => allProcessed_step s a r) trivial
    (fun _ member => absurd member List.not_mem_nil) as

/-- The PLC says 11, and DoEventProcess reads behind the table. -/
theorem status_eleven_outside :
    ¬ Always mitsubishiFx3u32m.step AllProcessed State.start
      (.modbusInit true :: wholePass [11, 0, 0, 0, 0, 0, 0, 0]) := by
  intro always
  obtain ⟨r, run, events⟩ : ∃ r, exec mitsubishiFx3u32m.step State.start
      (.modbusInit true :: wholePass [11, 0, 0, 0, 0, 0, 0, 0]) = some r ∧
        r.events = [⟨Data.make #v[11, 0, 0, 0, 0, 0, 0, 0], [11, 0, 0, 0, 0, 0, 0, 0]⟩] := ⟨_, rfl, rfl⟩
  have processed := always_end always run _ (by rw [events]; exact List.mem_cons_self)
  exact absurd ((processed_iff _).mp processed).1 (by decide)

end DevAccess.Mes
