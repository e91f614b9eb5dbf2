import DevAccess.Log.Bookkeeping
import Mathlib.Logic.Function.Basic

/-! What WriteLog leaves in the files: the records it accepted, whole and in their order.
Deleting a file does not change what was written to it. -/
namespace DevAccess.Log
open Foundation

def mBufferLen : Nat := 16384

abbrev Files := CText → List UInt8

def Files.fopen (files : Files) (name : CText) : Files := Function.update files name []

def Files.fwrite (files : Files) (fd : Option CText) (bytes : List UInt8) : Files :=
  match fd with
  | some name => Function.update files name (files name ++ bytes)
  | none => files

structure Sent where
  record : List UInt8
  call : Call
  length : call.iLen = record.length

/-- LogData with the files it writes. -/
structure LogFiles where
  log : LogData
  files : Files

/-- What a caller of WriteLog has seen: the object, and what each of its calls returned. -/
structure Logged extends LogFiles where
  returned : List (Sent × Bool)

/-- The records for which WriteLog returned true. -/
def accepted (returned : List (Sent × Bool)) : List (List UInt8) :=
  (returned.filter Prod.snd).map fun call => call.1.record

def Logged.accepted (s : Logged) : List (List UInt8) := Log.accepted s.returned

@[simp] theorem accepted_true (returned : List (Sent × Bool)) (x : Sent) :
    accepted (returned ++ [(x, true)]) = accepted returned ++ [x.record] := by
  simp [accepted]

@[simp] theorem accepted_false (returned : List (Sent × Bool)) (x : Sent) :
    accepted (returned ++ [(x, false)]) = accepted returned := by
  simp [accepted]

/-- An object before its first record: LogData as it is made, and after calls of Init. -/
inductive Prepared (matching : CText → CText → Bool) : LogData → Prop
  | new : Prepared matching LogData.new
  | init (a : InitArgs) (d : Directory) {s : LogData} (before : Prepared matching s) :
    Prepared matching (s.init matching a d).1

section Write
variable (localtime : Int → Tm)

def LogFiles.writeLog (s : LogFiles) (x : Sent) : Option (LogFiles × Bool) :=
  if !s.log.m_bInit then some (s, false)
  else
    (s.log.cleanFile x.call).map fun log =>
      let files := if log.Rotates ∧ x.call.opens = true then
        s.files.fopen (log.logName (localtime x.call.now)) else s.files
      match log.switchNewFile localtime x.call with
      | (log, true) =>
        (⟨{ log with m_iLogSize := int32 (log.m_iLogSize + x.call.iLen) },
          files.fwrite log.m_FileFD x.record⟩, true)
      | (log, false) => (⟨log, files⟩, false)

def Logged.step (s : Logged) (x : Sent) : Option Logged :=
  (s.writeLog localtime x).map fun r => ⟨r.1, s.returned ++ [(x, r.2)]⟩

/-- Without the files it is WriteLog of LogData. -/
theorem writeLog_forget (s : LogFiles) (x : Sent) :
    (s.writeLog localtime x).map (fun r => (r.1.log, r.2)) = s.log.writeLog localtime x.call := by
  unfold LogFiles.writeLog LogData.writeLog
  cases s.log.m_bInit with
  | false => rfl
  | true =>
    cases s.log.cleanFile x.call with
    | none => rfl
    | some log =>
      simp only [Bool.not_true, Bool.false_eq_true, if_false, Option.map_some]
      rcases log.switchNewFile localtime x.call with ⟨next, ok⟩
      cases ok <;> rfl

end Write

def Logged.written (s : Logged) : List (List UInt8) :=
  (s.log.opened.map fun o => s.files o.name).reverse

def Logged.Distinct (s : Logged) : Prop := (s.log.opened.map Opening.name).Nodup

/-- If no two files share a name, together they hold exactly the accepted records, each
whole in one of them, and none is longer than the limit and one record. -/
structure Logged.Complete (s : Logged) : Prop where
  whole : s.Distinct → s.written.flatten = s.accepted.flatten
  unsplit : s.Distinct → ∃ blocks : List (List (List UInt8)),
    blocks.map List.flatten = s.written ∧ blocks.flatten = s.accepted
  bounded : s.Distinct → ∀ bytes ∈ s.written, ∃ record ∈ s.accepted,
    bytes.length ≤ s.log.m_file_bytes_limit + record.length

structure Logged.Stored (s : Logged) (blocks : List (List (List UInt8))) : Prop where
  contents : (s.log.opened.map fun o => s.files o.name) = blocks.map List.flatten
  order : blocks.reverse.flatten = s.accepted
  ended : ∀ block ∈ blocks, ∃ earlier last, block = earlier ++ [last] ∧
    earlier.flatten.length ≤ s.log.m_file_bytes_limit ∧ last.length ≤ mBufferLen
  current : ∀ name, s.log.m_FileFD = some name → ∃ o rest block older, s.log.opened = o :: rest ∧
    o.name = name ∧ blocks = block :: older ∧ s.log.m_iLogSize = block.flatten.length

structure Logged.Kept (s : Logged) : Prop where
  limit : s.log.m_file_bytes_limit = 5242880
  stored : s.Distinct → ∃ blocks, s.Stored blocks

section Step
variable {localtime : Int → Tm}

theorem logged_cases {s t : Logged} {x : Sent} (taken : s.step localtime x = some t) :
    t = ⟨s.toLogFiles, s.returned ++ [(x, false)]⟩ ∨ ∃ log, s.log.cleanFile x.call = some log ∧
      ((¬ log.Rotates ∧
          t = ⟨⟨{ log with m_iLogSize := int32 (log.m_iLogSize + x.call.iLen) },
            s.files.fwrite log.m_FileFD x.record⟩, s.returned ++ [(x, true)]⟩) ∨
        t = ⟨⟨{ log with m_FileFD := none }, s.files⟩, s.returned ++ [(x, false)]⟩ ∨
        t = ⟨⟨{ log.openFile localtime x.call.now with m_iLogSize := int32 (0 + x.call.iLen) },
            (s.files.fopen (log.logName (localtime x.call.now))).fwrite
              (some (log.logName (localtime x.call.now))) x.record⟩,
            s.returned ++ [(x, true)]⟩) := by
  unfold Logged.step LogFiles.writeLog at taken
  cases live : s.log.m_bInit with
  | false =>
    rw [live] at taken
    exact .inl (Option.some.inj taken).symm
  | true =>
    rw [live] at taken
    obtain ⟨⟨u, ok⟩, written, result⟩ := Option.map_eq_some_iff.mp taken
    obtain ⟨log, cleaned, switched⟩ := Option.map_eq_some_iff.mp written
    refine .inr ⟨log, cleaned, ?_⟩
    rw [← result]
    rcases switchNewFile_cases localtime log x.call with
      ⟨early, same⟩ | ⟨due, failed, closed⟩ | ⟨due, opens, opened⟩
    · rw [same, if_neg fun both => early both.1] at switched
      cases switched
      exact .inl ⟨early, rfl⟩
    · rw [closed, if_neg fun both => Bool.noConfusion (failed.symm.trans both.2)] at switched
      cases switched
      exact .inr (.inl rfl)
    · rw [opened, if_pos ⟨due, opens⟩] at switched
      cases switched
      exact .inr (.inr rfl)

theorem fopen_other {files : Files} {name : CText} {opened : List Opening}
    (fresh : ∀ o ∈ opened, o.name ≠ name) :
    (opened.map fun o => files.fopen name o.name) = opened.map fun o => files o.name :=
  List.map_congr_left fun o member => Function.update_of_ne (fresh o member) _ _

theorem fwrite_other {files : Files} {name : CText} (bytes : List UInt8) {opened : List Opening}
    (fresh : ∀ o ∈ opened, o.name ≠ name) :
    (opened.map fun o => files.fwrite (some name) bytes o.name) = opened.map fun o => files o.name :=
  List.map_congr_left fun o member => Function.update_of_ne (fresh o member) _ _

theorem fwrite_new (files : Files) (name : CText) (bytes : List UInt8) :
    (files.fopen name).fwrite (some name) bytes name = [bytes].flatten := by
  simp [Files.fopen, Files.fwrite]

theorem fresh_below {o : Opening} {rest : List Opening} (distinct : ((o :: rest).map Opening.name).Nodup) :
    ∀ p ∈ rest, p.name ≠ o.name := by
  intro p member same
  exact (List.nodup_cons.mp distinct).1 (List.mem_map.mpr ⟨p, member, same⟩)

theorem kept_append {s : Logged} {x : Sent} (kept : s.Kept) (early : ¬ s.log.Rotates)
    (short : x.record.length ≤ mBufferLen) :
    Logged.Kept ⟨⟨{ s.log with m_iLogSize := int32 (s.log.m_iLogSize + x.call.iLen) },
      s.files.fwrite s.log.m_FileFD x.record⟩, s.returned ++ [(x, true)]⟩ := by
  refine ⟨kept.limit, fun distinct => ?_⟩
  obtain ⟨name, here⟩ := Option.ne_none_iff_exists'.mp fun closed => early (.inr closed)
  obtain ⟨blocks, stored⟩ := kept.stored distinct
  obtain ⟨o, rest, block, older, opened, rfl, rfl, size⟩ := stored.current name here
  have within : s.log.m_iLogSize ≤ s.log.m_file_bytes_limit := Int.not_lt.mp fun full => early (.inl full)
  have fresh : ∀ p ∈ rest, p.name ≠ o.name := by
    have names : (s.log.opened.map Opening.name).Nodup := distinct
    rw [opened] at names
    exact fresh_below names
  have contents := stored.contents
  rw [opened, List.map_cons, List.map_cons] at contents
  obtain ⟨top, below⟩ := List.cons.inj contents
  refine ⟨(block ++ [x.record]) :: older, ?_, ?_, ?_, ?_⟩
  · rw [here, opened, List.map_cons, List.map_cons, fwrite_other x.record fresh, below,
      List.flatten_append, List.flatten_singleton, ← top]
    exact congrArg (· :: _) (Function.update_self _ _ _)
  · rw [Logged.accepted, accepted_true, ← Logged.accepted, ← stored.order]
    simp
  · refine List.forall_mem_cons.mpr ⟨⟨block, x.record, rfl, ?_, short⟩, ?_⟩
    · rw [← size]
      exact within
    · exact (List.forall_mem_cons.mp stored.ended).2
  · intro name' same
    refine ⟨o, rest, _, older, opened, Option.some.inj (here.symm.trans same), rfl, ?_⟩
    have limit := kept.limit
    have length := x.length
    rw [List.flatten_append, List.flatten_singleton, List.length_append, Int.natCast_add, ← size, ← length]
    unfold mBufferLen at short
    exact int32_of_range (by omega) (by omega)

theorem kept_open {s : Logged} {x : Sent} (kept : s.Kept) (short : x.record.length ≤ mBufferLen) :
    Logged.Kept ⟨⟨{ s.log.openFile localtime x.call.now with m_iLogSize := int32 (0 + x.call.iLen) },
      (s.files.fopen (s.log.logName (localtime x.call.now))).fwrite
        (some (s.log.logName (localtime x.call.now))) x.record⟩, s.returned ++ [(x, true)]⟩ := by
  refine ⟨kept.limit, fun distinct => ?_⟩
  have names : ((⟨x.call.now, s.log.logName (localtime x.call.now)⟩ :: s.log.opened).map
    Opening.name).Nodup := distinct
  have fresh := fresh_below names
  obtain ⟨blocks, stored⟩ := kept.stored (List.nodup_cons.mp names).2
  refine ⟨[x.record] :: blocks, ?_, ?_, ?_, ?_⟩
  · change List.map _ (_ :: s.log.opened) = _
    rw [List.map_cons, List.map_cons, fwrite_other x.record fresh, fopen_other fresh, stored.contents]
    exact congrArg (· :: _) (fwrite_new s.files _ x.record)
  · rw [Logged.accepted, accepted_true, ← Logged.accepted, ← stored.order]
    simp
  · refine List.forall_mem_cons.mpr ⟨⟨[], x.record, rfl, ?_, short⟩, stored.ended⟩
    change (0 : Int) ≤ s.log.m_file_bytes_limit
    rw [kept.limit]
    decide
  · intro name same
    refine ⟨_, s.log.opened, _, blocks, rfl, Option.some.inj same, rfl, ?_⟩
    have length := x.length
    unfold mBufferLen at short
    rw [List.flatten_singleton, ← length]
    change int32 (0 + x.call.iLen) = _
    rw [int32_of_range (by omega) (by omega)]
    omega

theorem kept_refused {s : Logged} {x : Sent} (kept : s.Kept) :
    Logged.Kept ⟨s.toLogFiles, s.returned ++ [(x, false)]⟩ := by
  refine ⟨kept.limit, fun distinct => ?_⟩
  obtain ⟨blocks, stored⟩ := kept.stored distinct
  refine ⟨blocks, stored.contents, ?_, stored.ended, stored.current⟩
  rw [stored.order, Logged.accepted, Logged.accepted, accepted_false]

theorem kept_step {s t : Logged} {x : Sent} (kept : s.Kept) (short : x.record.length ≤ mBufferLen)
    (taken : s.step localtime x = some t) : t.Kept := by
  rcases logged_cases taken with rfl | ⟨log, cleaned, written⟩
  · exact kept_refused kept
  have cleaned_kept : Logged.Kept ⟨⟨log, s.files⟩, s.returned⟩ := by
    obtain ⟨gone, left, count, tick, split, rfl⟩ := cleanFile_cuts cleaned
    refine ⟨kept.limit, fun distinct => ?_⟩
    obtain ⟨blocks, stored⟩ := kept.stored distinct
    exact ⟨blocks, stored.contents, stored.order, stored.ended, stored.current⟩
  rcases written with ⟨early, rfl⟩ | rfl | rfl
  · exact kept_append cleaned_kept early short
  · refine kept_refused (s := ⟨⟨{ log with m_FileFD := none }, s.files⟩, s.returned⟩)
      ⟨cleaned_kept.limit, fun distinct => ?_⟩
    obtain ⟨blocks, stored⟩ := cleaned_kept.stored distinct
    exact ⟨blocks, stored.contents, stored.order, stored.ended, fun name here => by cases here⟩
  · exact kept_open cleaned_kept short

end Step

theorem prepared_unopened {matching : CText → CText → Bool} {s : LogData} (prepared : Prepared matching s) :
    s.m_file_bytes_limit = 5242880 ∧ s.opened = [] ∧ s.m_FileFD = none := by
  induction prepared with
  | new => exact ⟨rfl, rfl, rfl⟩
  | init a d before ih =>
    unfold LogData.init
    split
    · exact ih
    · dsimp only
      split
      · rw [search_eq]
        exact ih
      · split
        · exact ih
        · exact ih

theorem kept_start {matching : CText → CText → Bool} {s : LogData} (prepared : Prepared matching s)
    (files : Files) : Logged.Kept ⟨⟨s, files⟩, []⟩ := by
  obtain ⟨limit, unopened, closed⟩ := prepared_unopened prepared
  refine ⟨limit, fun _ => ⟨[], ?_, rfl, fun block member => absurd member List.not_mem_nil, ?_⟩⟩
  · change List.map _ s.opened = []
    rw [unopened]
    rfl
  · intro name here
    cases closed.symm.trans here

theorem kept_complete {s : Logged} (kept : s.Kept) : s.Complete := by
  have same {blocks : List (List (List UInt8))} (stored : s.Stored blocks) :
      blocks.reverse.map List.flatten = s.written := by
    rw [Logged.written, stored.contents, List.map_reverse]
  refine ⟨fun distinct => ?_, fun distinct => ?_, fun distinct => ?_⟩
  · obtain ⟨blocks, stored⟩ := kept.stored distinct
    rw [← same stored, ← stored.order, List.flatten_flatten]
  · obtain ⟨blocks, stored⟩ := kept.stored distinct
    exact ⟨blocks.reverse, same stored, stored.order⟩
  · intro bytes member
    obtain ⟨blocks, stored⟩ := kept.stored distinct
    rw [← same stored] at member
    obtain ⟨block, inside, rfl⟩ := List.mem_map.mp member
    obtain ⟨earlier, last, rfl, short, -⟩ := stored.ended block (List.mem_reverse.mp inside)
    refine ⟨last, ?_, ?_⟩
    · rw [← stored.order]
      exact List.mem_flatten.mpr ⟨_, inside, by simp⟩
    · rw [List.flatten_append, List.flatten_singleton, List.length_append, Int.natCast_add]
      exact Int.add_le_add_right short _

/-- Over any calls of WriteLog with records of at most m_iBufferLen bytes, whatever the
system answers. -/
theorem log_complete (matching : CText → CText → Bool) (localtime : Int → Tm) {start : LogData}
    (prepared : Prepared matching start) (files : Files) (sends : List Sent)
    (short : ∀ x ∈ sends, x.record.length ≤ mBufferLen) :
    Always (Logged.step localtime) Logged.Complete ⟨⟨start, files⟩, []⟩ sends := by
  have initial := kept_start prepared files
  generalize (⟨⟨start, files⟩, []⟩ : Logged) = s at initial
  induction sends generalizing s with
  | nil => exact kept_complete initial
  | cons x rest ih =>
    obtain ⟨here, later⟩ := List.forall_mem_cons.mp short
    exact ⟨kept_complete initial, fun t taken => ih later t (kept_step initial here taken)⟩

def oneByte : Sent := ⟨[104], ⟨1, 60001, 0, fun _ => 100, 0, true⟩, rfl⟩

theorem log_complete_one :
    Always (Logged.step newYear) Logged.Complete ⟨⟨LogData.new, fun _ => []⟩, []⟩ [oneByte] :=
  log_complete windows newYear .new (fun _ => []) [oneByte] (List.forall_mem_singleton.mpr (by decide))

end DevAccess.Log
