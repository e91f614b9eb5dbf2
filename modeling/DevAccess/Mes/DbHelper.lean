import DevAccess.Mes.Process

/-! DbHelper behind MesSvr: the connection, the insertions that DoEventProcess asks for,
and what becomes of an exception of the database layer. -/
namespace DevAccess.Mes
open Foundation Poll

/-- What a throw expression throws: an object of a class derived from std::exception, or a
pointer to one. -/
inductive Thrown where
  | object (what : CText)
  | pointer (what : CText)
  deriving DecidableEq

inductive Handler where
  | reference  -- catch (const std::exception& e)
  | pointer    -- catch (std::exception* e)

def Handler.catches : Handler → Thrown → Bool
  | reference, .object _ => true
  | pointer, .pointer _ => true
  | reference, .pointer _ => false
  | pointer, .object _ => false

structure DbHelper where
  m_pool : Bool  -- not null
  m_ses : Bool   -- not null
  m_url : CText
  executed : List CText  -- history: the statements executed

def DbHelper.new (usr pwd database dsn : CText) : DbHelper where
  m_pool := false
  m_ses := false
  m_url := "UID=".toList ++ usr ++ ";PWD=".toList ++ pwd ++ ";DATABASE=".toList ++ database ++
    ";dsn=".toList ++ dsn
  executed := []

/-- What Poco throws, by value, in the two steps of a connect: its what(), or none. -/
structure Connecting where
  pool : Option CText
  session : Option CText

def DbHelper.connecting (db : DbHelper) (c : Connecting) : DbHelper × Option Thrown :=
  match c.pool with
  | some what => (db, some (.object what))
  | none =>
    match c.session with
    | some what => ({ db with m_pool := true }, some (.object what))
    | none => ({ db with m_pool := true, m_ses := true }, none)

def DbHelper.connectToSvr (db : DbHelper) (c : Connecting) : Except Thrown DbHelper :=
  match db.connecting c with
  | (db, none) => .ok db
  | (db, some e) => if Handler.reference.catches e then .ok db else .error e

def mesSvrInit (szUser szPwd szDbName szDnsName : CText) (c : Connecting) : Except Thrown DbHelper :=
  (DbHelper.new szUser szPwd szDbName szDnsName).connectToSvr c

section Insert
variable (gbkToUTF8 : CText → CText)

def insertSql (now : Tm) (key val : CText) : CText :=
  "INSERT INTO TB_DEVICECJJL  VALUES (RAWTOHEX(sys_guid()), NULL, NULL, NULL, sysdate, ".toList ++
    "NULL, NULL, NULL, NULL, NULL, NULL, ".toList ++ "'', NULL, NULL,".toList ++
    "'".toList ++ gbkToUTF8 key ++ "' ,".toList ++
    "'".toList ++ gbkToUTF8 val ++ "',".toList ++
    "NULL,".toList ++
    "'".toList ++ gbkToUTF8 "万家乐_顺德".toList ++ "' ,".toList ++
    "NULL,".toList ++
    "'".toList ++ gbkToUTF8 "灶具车间".toList ++ "' ,".toList ++
    "NULL,".toList ++
    "'".toList ++ gbkToUTF8 "灶具".toList ++ "' ,".toList ++
    "'".toList ++ now.clock ++ "' );".toList

/-- What Poco throws, by value, when the statement is made and when it is executed. -/
structure Executing where
  statement : Option CText
  execute : Option CText

/-- How a call ends: it returns, an exception leaves it, or it dereferences a null m_ses. -/
inductive Ended where
  | returned
  | threw (e : Thrown)
  | nullSession
  deriving DecidableEq

def DbHelper.inserting (db : DbHelper) (now : Tm) (key val : CText) (x : Executing) :
    DbHelper × Option Thrown :=
  match x.statement with
  | some what => (db, some (.object what))
  | none =>
    match x.execute with
    | some what => (db, some (.object what))
    | none => ({ db with executed := db.executed ++ [insertSql gbkToUTF8 now key val] }, none)

def DbHelper.insertData (db : DbHelper) (now : Tm) (key val : CText) (x : Executing) : DbHelper × Ended :=
  if db.m_ses then
    match db.inserting gbkToUTF8 now key val x with
    | (db, none) => (db, .returned)
    | (db, some e) => if Handler.pointer.catches e then (db, .returned) else (db, .threw e)
  else (db, .nullSession)

/-- What DoEventProcess does from the point on where it reads behind pSt, or in a foreign
structure: the calls it makes, and whether it returns. Nothing is known of them. -/
structure Stray where
  calls : List InsertCall
  returns : Bool

/-- The InsertToSvr calls of a sequence of events, the k-th of them first. -/
def madeCalls (stray : Nat → Stray) : Nat → List Message → List InsertCall
  | _, [] => []
  | k, e :: rest =>
    match process e.type e.payload with
    | some (calls, true) => calls ++ madeCalls stray (k + 1) rest
    | some (calls, false) => calls ++ (stray k).calls ++
      if (stray k).returns then madeCalls stray (k + 1) rest else []
    | none => (stray k).calls ++ if (stray k).returns then madeCalls stray (k + 1) rest else []

def DbHelper.insertAll (now : Nat → Tm) (outcome : Nat → Executing) :
    DbHelper → Nat → List InsertCall → DbHelper × Ended
  | db, _, [] => (db, .returned)
  | db, k, (key, val) :: rest =>
    match db.insertData gbkToUTF8 (now k) key val (outcome k) with
    | (db, .returned) => db.insertAll now outcome (k + 1) rest
    | (db, stopped) => (db, stopped)

end Insert

def Connecting.Succeeds (c : Connecting) : Prop := c.pool = none ∧ c.session = none

def Executing.Quiet (x : Executing) : Prop := x.statement = none ∧ x.execute = none

instance (x : Executing) : Decidable x.Quiet := inferInstanceAs (Decidable (_ ∧ _))

/-- No exception leaves ConnectToSvr, and m_ses is set exactly if none was thrown. -/
theorem connectToSvr_returns (db : DbHelper) (unset : db.m_ses = false) (c : Connecting) :
    ∃ r, db.connectToSvr c = .ok r ∧ (r.m_ses = true ↔ c.Succeeds) := by
  obtain ⟨pool, session⟩ := c
  unfold DbHelper.connectToSvr DbHelper.connecting Connecting.Succeeds
  cases pool with
  | some what => exact ⟨db, rfl, by simp [unset]⟩
  | none =>
    cases session with
    | some what => exact ⟨_, rfl, by simp [unset]⟩
    | none => exact ⟨_, rfl, by simp⟩

/-- The handler of InsertData is for pointers, so that whatever is thrown goes through. -/
theorem insertData_returns (gbkToUTF8 : CText → CText) (db : DbHelper) (now : Tm) (key val : CText)
    (x : Executing) :
    ((db.insertData gbkToUTF8 now key val x).2 = .returned ↔ db.m_ses = true ∧ x.Quiet) ∧
      (db.insertData gbkToUTF8 now key val x).1.m_ses = db.m_ses := by
  obtain ⟨statement, execute⟩ := x
  unfold DbHelper.insertData DbHelper.inserting Executing.Quiet
  cases connected : db.m_ses with
  | false => exact ⟨by simp, connected⟩
  | true =>
    cases statement with
    | some what => exact ⟨by simp [Handler.catches], connected⟩
    | none =>
      cases execute with
      | some what => exact ⟨by simp [Handler.catches], connected⟩
      | none => exact ⟨by simp, rfl⟩

theorem insertAll_returns (gbkToUTF8 : CText → CText) (now : Nat → Tm) (outcome : Nat → Executing)
    (calls : List InsertCall) (db : DbHelper) (k : Nat) :
    (db.insertAll gbkToUTF8 now outcome k calls).2 = .returned ↔
      ∀ j, j < calls.length → db.m_ses = true ∧ (outcome (k + j)).Quiet := by
  induction calls generalizing db k with
  | nil => simp [DbHelper.insertAll]
  | cons call rest ih =>
    obtain ⟨key, val⟩ := call
    obtain ⟨returns, session⟩ := insertData_returns gbkToUTF8 db (now k) key val (outcome k)
    rw [DbHelper.insertAll]
    generalize db.insertData gbkToUTF8 (now k) key val (outcome k) = result at returns session
    obtain ⟨after, ended⟩ := result
    dsimp only at returns session
    constructor
    · intro all j inside
      split at all
      case h_1 same =>
        cases same
        rw [ih, session] at all
        cases j with
        | zero => exact returns.mp rfl
        | succ j =>
          have later := all j (Nat.lt_of_succ_lt_succ inside)
          rwa [Nat.add_assoc, Nat.add_comm 1] at later
      case h_2 other same =>
        cases same
        exact absurd all other
    · intro all
      cases returns.mpr (all 0 (Nat.succ_pos _))
      dsimp only
      rw [ih, session]
      intro j inside
      have later := all (j + 1) (Nat.succ_lt_succ inside)
      rwa [Nat.add_assoc, Nat.add_comm 1]

/-- Whatever the events, and whatever the stray ones do: MesSvr::Init comes through, and after it
every InsertData returns if and only if either none is called, or the connect succeeded and no call
meets an exception. -/
theorem inserts_return_iff (gbkToUTF8 : CText → CText) (now : Nat → Tm)
    (szUser szPwd szDbName szDnsName : CText) (c : Connecting) (events : List Message)
    (stray : Nat → Stray) (outcome : Nat → Executing) :
    ∃ db, mesSvrInit szUser szPwd szDbName szDnsName c = .ok db ∧
      ((db.insertAll gbkToUTF8 now outcome 0 (madeCalls stray 0 events)).2 = .returned ↔
        ∀ j, j < (madeCalls stray 0 events).length → c.Succeeds ∧ (outcome j).Quiet) := by
  obtain ⟨db, connected, session⟩ :=
    connectToSvr_returns (DbHelper.new szUser szPwd szDbName szDnsName) rfl c
  refine ⟨db, connected, (insertAll_returns gbkToUTF8 now outcome _ db 0).trans ?_⟩
  exact forall₂_congr fun j _ => and_congr session (by rw [Nat.zero_add])

def idleEvent : Message := ⟨.mitsubishiFx3u32m, .mitsubishi (Data.make zeros)⟩

/-- Without a connection the first insertion goes through a null pointer, and with one an
exception thrown by value leaves it. -/
theorem database_trouble_escapes :
    (∃ db, mesSvrInit [] [] [] [] ⟨some "no server".toList, none⟩ = .ok db ∧
      (db.insertAll id (fun _ => ⟨124, 0, 1, 0, 0, 0⟩) (fun _ => ⟨none, none⟩) 0
        (madeCalls (fun _ => ⟨[], false⟩) 0 [idleEvent])).2 = .nullSession) ∧
    ∃ db, mesSvrInit [] [] [] [] ⟨none, none⟩ = .ok db ∧
      (db.insertAll id (fun _ => ⟨124, 0, 1, 0, 0, 0⟩) (fun _ => ⟨none, some "lost".toList⟩) 0
        (madeCalls (fun _ => ⟨[], false⟩) 0 [idleEvent])).2 = .threw (.object "lost".toList) :=
  ⟨⟨_, rfl, rfl⟩, _, rfl, rfl⟩

end DevAccess.Mes
