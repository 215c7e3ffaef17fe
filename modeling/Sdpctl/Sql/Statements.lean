import Sdpctl.Effects
import Sdpctl.Coop.Transactions

/-!
`store.py` statement by statement. A method of `Store` that writes is a transaction of
several SQL statements on one connection; here is what each statement does to the tables
that its connection sees, and which statements each method executes.
-/

namespace Sdpctl

open FileTree Coop

/-- The statements inside the transactions, and the two queries of `logical_storage`. -/
inductive Statement where
  /-- `INSERT INTO observations`. -/
  | insertObservation (msPath : Path) (reservedBytes : Nat)
  /-- `INSERT INTO events`. -/
  | insertEvent (e : Event)
  /-- `UPDATE observations SET ms_path=? WHERE id=?`. -/
  | setMsPath (oid : Nat) (msPath : Path)
  /-- `UPDATE observations SET state=?, ... WHERE id=? AND state=?`. -/
  | updateObservation (oid : Nat) (expected new : ObservationState)
      (sizeBytes reservedBytes : Option Nat) (error : Option String)
  /-- `UPDATE observations SET ... WHERE id=?`. -/
  | setObservationFields (oid : Nat) (reservedBytes : Option Nat) (error : Option String)
  /-- `SELECT COALESCE(MAX(attempt),0)+1`. -/
  | selectNextAttempt (oid : Nat)
  /-- `INSERT INTO processing_runs`. -/
  | insertRun (oid attempt : Nat) (outputPrefix logPath : Path)
  /-- `UPDATE processing_runs SET state=?, ... WHERE id=? AND state=?`. -/
  | updateRun (rid : Nat) (expected new : RunState) (exitCode : Option Int)
      (qaVerdict qaNote : Option String)
  /-- `SELECT * FROM processing_runs WHERE id=?`. -/
  | selectRun (rid : Nat)
  /-- `SELECT * FROM observations WHERE id=?`. -/
  | selectObservation (oid : Nat)
  /-- `SELECT 1 FROM processing_runs WHERE observation_id=? AND id<>? AND state IN (...)`. -/
  | selectOtherActive (oid rid : Nat)
  /-- `UPDATE processing_runs SET retry_exhausted=1 ... RETURNING id`. -/
  | exhaustRuns (maxAttempts : Nat)
  /-- `UPDATE processing_runs SET retry_exhausted=1 WHERE id=? AND state=? AND ...`. -/
  | exhaustRun (rid : Nat)
  /-- `SELECT COALESCE(SUM(size_bytes),0)`. -/
  | sumUsed
  /-- `SELECT COALESCE(SUM(reserved_bytes),0)`. -/
  | sumReserved

/-- What a statement gives back: `lastrowid`, `rowcount`, or what it selects. -/
@[reducible] def Statement.Answer : Statement → Type
  | insertObservation _ _ | insertRun _ _ _ _ | updateObservation _ _ _ _ _ _
  | updateRun _ _ _ _ _ _ | exhaustRun _ | selectNextAttempt _ | sumUsed | sumReserved => Nat
  | insertEvent _ | setMsPath _ _ | setObservationFields _ _ _ => Unit
  | selectRun _ => Option ProcessingRun
  | selectObservation _ => Option Observation
  | selectOtherActive _ _ => Bool
  | exhaustRuns _ => List Nat

def Statement.run : (st : Statement) → Db → Except Exn (st.Answer × Db)
  | .insertObservation msPath reservedBytes, db =>
    let oid := db.obsSeq + 1
    let row : Observation :=
      { id := oid, state := .planned, msPath, sizeBytes := 0, reservedBytes, error := none }
    .ok (oid, { db with observations := db.observations ++ [row], obsSeq := oid })
  | .insertEvent e, db => .ok ((), db.record [e])
  | .setMsPath oid msPath, db =>
    .ok ((), db.updateObs (fun o => o.id == oid) fun o => { o with msPath })
  | .updateObservation oid expected new size reserved error, db =>
    .ok ((db.observations.filter (Db.obsGuard oid expected)).length,
      db.updateObs (Db.obsGuard oid expected) fun o => { o with
        state := new
        sizeBytes := size.getD o.sizeBytes
        reservedBytes := reserved.getD o.reservedBytes
        error := error <|> o.error })
  | .setObservationFields oid reserved error, db =>
    .ok ((), db.updateObs (fun o => o.id == oid) fun o => { o with
      reservedBytes := reserved.getD o.reservedBytes
      error := error <|> o.error })
  | .selectNextAttempt oid, db => .ok (db.nextAttempt oid, db)
  | .insertRun oid attempt outputPrefix logPath, db =>
    if (db.obs? oid).isNone then .error (.integrityError "FOREIGN KEY constraint failed")
    else if (db.runsOf oid).any fun r => r.attempt == attempt then
      .error (.integrityError "UNIQUE constraint failed")
    else
      let rid := db.runSeq + 1
      let row : ProcessingRun :=
        { id := rid, observationId := oid, attempt, state := .queued, outputPrefix, logPath,
          exitCode := none, qaVerdict := none, qaNote := none, retryExhausted := false }
      .ok (rid, { db with processingRuns := db.processingRuns ++ [row], runSeq := rid })
  | .updateRun rid expected new code verdict note, db =>
    .ok ((db.processingRuns.filter (Db.runGuard rid expected)).length,
      db.updateRuns (Db.runGuard rid expected) fun r => { r with
        state := new
        exitCode := code <|> r.exitCode
        qaVerdict := verdict <|> r.qaVerdict
        qaNote := note <|> r.qaNote })
  | .selectRun rid, db => .ok (db.run? rid, db)
  | .selectObservation oid, db => .ok (db.obs? oid, db)
  | .selectOtherActive oid rid, db => .ok (db.hasOtherActiveRuns oid rid, db)
  | .exhaustRuns m, db =>
    .ok ((db.processingRuns.filter (db.exhausts m)).map (·.id),
      db.updateRuns (db.exhausts m) fun r => { r with retryExhausted := true })
  | .exhaustRun rid, db =>
    let hit := fun r : ProcessingRun => Db.runGuard rid .failed r && !r.retryExhausted
    .ok ((db.processingRuns.filter hit).length,
      db.updateRuns hit fun r => { r with retryExhausted := true })
  | .sumUsed, db =>
    .ok (((db.observations.filter fun o => Db.countsUsed o.state).map (·.sizeBytes)).sum, db)
  | .sumReserved, db =>
    .ok (((db.observations.filter fun o => Db.countsReserved o.state).map
      (·.reservedBytes)).sum, db)

abbrev Body (α : Type) : Type := Tx Statement.Answer Exn α

namespace Body

abbrev execute (st : Statement) : Body st.Answer := Tx.execute st

/-- `_insert_observation`. -/
def insertObservation (msPath : Path) (reservedBytes : Nat) : Body Nat := do
  let oid ← execute (.insertObservation msPath reservedBytes)
  execute (.insertEvent (.observation oid none (some .planned) "created"))
  return oid

/-- `create_observation_auto`. -/
def createObservationAuto (reservedBytes : Nat) : Body Nat := do
  let oid ← insertObservation ["__pending__"] reservedBytes
  execute (.setMsPath oid (msPathOf oid))
  return oid

/-- The guarded update of one observation, with its event. -/
def updateObservation (oid : Nat) (expected new : ObservationState) (reason : String)
    (sizeBytes reservedBytes : Option Nat) (error : Option String) : Body Unit := do
  let rowcount ← execute (.updateObservation oid expected new sizeBytes reservedBytes error)
  if rowcount ≠ 1 then
    Tx.raise (.transitionError
      ("guard failed for observation " ++ toString oid ++ ": expected " ++ expected.name))
  else
    execute (.insertEvent (.observation oid (some expected) (some new) reason))

/-- The guarded update of one run, with its event. -/
def updateRun (rid : Nat) (expected new : RunState) (reason : String) (exitCode : Option Int)
    (qaVerdict qaNote : Option String) : Body Unit := do
  let rowcount ← execute (.updateRun rid expected new exitCode qaVerdict qaNote)
  if rowcount ≠ 1 then
    Tx.raise (.transitionError
      ("guard failed for run " ++ toString rid ++ ": expected " ++ expected.name))
  else
    execute (.insertEvent (.run rid (some expected) (some new) reason))

def insertRun (oid attempt : Nat) (outputPrefix logPath : Path) (reason : String) : Body Nat := do
  let rid ← execute (.insertRun oid attempt outputPrefix logPath)
  execute (.insertEvent (.run rid none (some .queued) reason))
  return rid

/-- `create_run`. -/
def createRun (oid : Nat) (outputPrefix logPath : Path) : Body Nat := do
  let attempt ← execute (.selectNextAttempt oid)
  insertRun oid attempt outputPrefix logPath "created"

/-- `record_event`. -/
def recordEvent (entity : EntityType) (id : Nat) (reason : String) : Body Unit :=
  execute (.insertEvent
    (match entity with
      | .observation => .observation id none none reason
      | .run => .run id none none reason
      | .reconcile => .reconcile id reason))

/-- `mark_exhausted_failed_runs`. -/
def markExhaustedFailedRuns (maxAttempts : Nat) : Body (List Nat) := do
  let ids ← execute (.exhaustRuns maxAttempts)
  Tx.forEach ids fun rid => execute (.insertEvent (.run rid none none
    ("automatic retry budget exhausted at " ++ toString maxAttempts ++ " execution(s)")))
  return ids

/-- `mark_run_retry_exhausted`. -/
def markRunRetryExhausted (rid : Nat) (reason : String) : Body Unit := do
  let rowcount ← execute (.exhaustRun rid)
  if rowcount = 0 then
    pure ()
  else
    execute (.insertEvent (.run rid none none reason))

/-- What the three transactions of `qa.py` select and check first; `wrong` is what they
say of the state of the run. -/
def selectTarget (rid : Nat) (wrong : RunState → Option Exn) : Body (ProcessingRun × Nat) := do
  match ← execute (.selectRun rid) with
  | none => Tx.raise (.keyError rid)
  | some run =>
    match wrong run.state with
    | some e => Tx.raise e
    | none =>
      let oid := run.observationId
      match ← execute (.selectObservation oid) with
      | none => Tx.raise (.keyError oid)
      | some obs =>
        if obs.state ≠ .stored then
          Tx.raise (.transitionError ("observation " ++ toString oid ++ " is not STORED"))
        else if ← execute (.selectOtherActive oid rid) then
          Tx.raise (.transitionError
            ("observation " ++ toString oid ++ " has another active run"))
        else
          return (run, oid)

/-- `accept_run_and_begin_deletion`. -/
def acceptRunAndBeginDeletion (rid : Nat) (note : String) : Body Nat := do
  let (_, oid) ← selectTarget rid fun s =>
    if s ≠ .awaitingQa then
      some (.transitionError ("run " ++ toString rid ++ " is not awaiting QA"))
    else none
  updateRun rid .awaitingQa .accepted "human QA accepted" none (some "accept") (some note)
  updateObservation oid .stored .deleting "accepted product permits raw deletion" none none none
  return oid

/-- `reprocess_run_and_create`. -/
def reprocessRunAndCreate (rid : Nat) (outputPrefix logPath : Path) (note : String) :
    Body Nat := do
  let (run, oid) ← selectTarget rid fun s =>
    if s ∉ [.awaitingQa, .failed] then
      some (.transitionError
        ("run " ++ toString rid ++ " is not reprocessable from " ++ s.name))
    else if RunState.superseded ∉ runTransitions s then
      some (.transitionError ("illegal run transition " ++ s.name ++ "->SUPERSEDED"))
    else none
  updateRun rid run.state .superseded "human requested reprocessing" none (some "reprocess")
    (some note)
  insertRun oid (run.attempt + 1) outputPrefix logPath "created by reprocess"

/-- `discard_failed_run_and_begin_deletion`. -/
def discardFailedRunAndBeginDeletion (rid : Nat) (note : String) : Body Nat := do
  let (_, oid) ← selectTarget rid fun s =>
    if s ≠ .failed then some (.transitionError ("run " ++ toString rid ++ " is not FAILED"))
    else none
  updateRun rid .failed .discarded
    "operator discarded raw data after exhausted processing failure" none (some "discard")
    (some note)
  updateObservation oid .stored .deleting "operator discard permits raw deletion" none none none
  return oid

end Body

/-- The methods of `Store`. An illegal edge and an empty update are turned away before
any connection is made. -/
def Query.method : (q : Query) → Method Statement.Answer Exn q.Reply
  | .createObservationAuto reserved => .transaction (Body.createObservationAuto reserved)
  | .transitionObservation oid expected new reason size reserved error =>
    if new ∉ obsTransitions expected then .whole
    else .transaction (Body.updateObservation oid expected new reason size reserved error)
  | .forceObservationFields oid reserved error =>
    if reserved = none ∧ error = none then .whole
    else .transaction (Body.execute (.setObservationFields oid reserved error))
  | .createRun oid outputPrefix logPath =>
    .transaction (Body.createRun oid outputPrefix logPath)
  | .transitionRun rid expected new reason code =>
    if new ∉ runTransitions expected then .whole
    else .transaction (Body.updateRun rid expected new reason code none none)
  | .recordEvent entity id reason => .transaction (Body.recordEvent entity id reason)
  | .markExhaustedFailedRuns m => .transaction (Body.markExhaustedFailedRuns m)
  | .markRunRetryExhausted rid reason => .transaction (Body.markRunRetryExhausted rid reason)
  | .acceptRunAndBeginDeletion rid note =>
    .transaction (Body.acceptRunAndBeginDeletion rid note)
  | .reprocessRunAndCreate rid outputPrefix logPath note =>
    .transaction (Body.reprocessRunAndCreate rid outputPrefix logPath note)
  | .discardFailedRunAndBeginDeletion rid note =>
    .transaction (Body.discardFailedRunAndBeginDeletion rid note)
  | .logicalStorage => .selects .sumUsed .sumReserved Prod.mk
  | _ => .whole

/-- The operations that are methods of the store. -/
def Op.method : (o : Op) → Method Statement.Answer Exn o.Reply
  | .db q => q.method
  | _ => .whole

end Sdpctl
