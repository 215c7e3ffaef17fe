import Sdpctl.Names
import Mathlib.Algebra.GroupWithZero.Nat

/-!
The store. Each method of `Store` is one transaction or one query on the three
tables; a method that raises leaves the tables as they were. Rows are kept in
the order of their ids, which is the order of every `ORDER BY id`.
-/

namespace Sdpctl

open FileTree

structure Db where
  observations : List Observation
  processingRuns : List ProcessingRun
  events : List Event
  /-- The `AUTOINCREMENT` counters. -/
  obsSeq : Nat
  runSeq : Nat
  deriving DecidableEq, Repr

namespace Db

def empty : Db := ⟨[], [], [], 0, 0⟩

def obs? (db : Db) (oid : Nat) : Option Observation :=
  db.observations.find? fun o => o.id == oid

def run? (db : Db) (rid : Nat) : Option ProcessingRun :=
  db.processingRuns.find? fun r => r.id == rid

/-- The runs of one observation, ordered by id. -/
def runsOf (db : Db) (oid : Nat) : List ProcessingRun :=
  db.processingRuns.filter fun r => r.observationId == oid

/-- `UPDATE observations ... WHERE` on the rows that `hit` selects. -/
def updateObs (db : Db) (hit : Observation → Bool) (f : Observation → Observation) : Db :=
  { db with observations := db.observations.map fun o => if hit o then f o else o }

/-- `UPDATE processing_runs ... WHERE` on the rows that `hit` selects. -/
def updateRuns (db : Db) (hit : ProcessingRun → Bool) (f : ProcessingRun → ProcessingRun) : Db :=
  { db with processingRuns := db.processingRuns.map fun r => if hit r then f r else r }

def record (db : Db) (events : List Event) : Db := { db with events := db.events ++ events }

/-- The rows of `WHERE id=? AND state=?`. -/
def obsGuard (oid : Nat) (expected : ObservationState) (o : Observation) : Bool :=
  o.id == oid && o.state == expected

def runGuard (rid : Nat) (expected : RunState) (r : ProcessingRun) : Bool :=
  r.id == rid && r.state == expected

/-- A guarded update: exactly one row has to be hit. -/
def guardedObs (db : Db) (oid : Nat) (expected : ObservationState)
    (f : Observation → Observation) (event : Event) : Except Exn Db :=
  if (db.observations.filter (obsGuard oid expected)).length ≠ 1 then
    .error (.transitionError
      ("guard failed for observation " ++ toString oid ++ ": expected " ++ expected.name))
  else
    .ok ((db.updateObs (obsGuard oid expected) f).record [event])

def guardedRun (db : Db) (rid : Nat) (expected : RunState)
    (f : ProcessingRun → ProcessingRun) (event : Event) : Except Exn Db :=
  if (db.processingRuns.filter (runGuard rid expected)).length ≠ 1 then
    .error (.transitionError
      ("guard failed for run " ++ toString rid ++ ": expected " ++ expected.name))
  else
    .ok ((db.updateRuns (runGuard rid expected) f).record [event])

/-- `_insert_observation`. -/
def insertObservation (db : Db) (msPath : Path) (reservedBytes : Nat) : Nat × Db :=
  let oid := db.obsSeq + 1
  let row : Observation :=
    { id := oid, state := .planned, msPath, sizeBytes := 0, reservedBytes, error := none }
  (oid, ({ db with observations := db.observations ++ [row], obsSeq := oid }).record
    [.observation oid none (some .planned) "created"])

/-- `create_observation_auto`: the directory name derives from the new id. -/
def createObservationAuto (db : Db) (reservedBytes : Nat) : Nat × Db :=
  let (oid, db) := db.insertObservation ["__pending__"] reservedBytes
  (oid, db.updateObs (fun o => o.id == oid) fun o => { o with msPath := msPathOf oid })

def getObservation (db : Db) (oid : Nat) : Except Exn Observation :=
  match db.obs? oid with
  | some o => .ok o
  | none => .error (.keyError oid)

/-- `list_observations`; no states means all of them. -/
def listObservations (db : Db) (states : List ObservationState) : List Observation :=
  if states = [] then db.observations
  else db.observations.filter fun o => o.state ∈ states

def transitionObservation (db : Db) (oid : Nat) (expected new : ObservationState)
    (reason : String) (sizeBytes reservedBytes : Option Nat) (error : Option String) :
    Except Exn Db :=
  if new ∉ obsTransitions expected then
    .error (.transitionError
      ("illegal observation transition " ++ expected.name ++ "->" ++ new.name))
  else
    db.guardedObs oid expected
      (fun o => { o with
        state := new
        sizeBytes := sizeBytes.getD o.sizeBytes
        reservedBytes := reservedBytes.getD o.reservedBytes
        error := error <|> o.error })
      (.observation oid (some expected) (some new) reason)

/-- `force_observation_fields`: no guard and no event. -/
def forceObservationFields (db : Db) (oid : Nat) (reservedBytes : Option Nat)
    (error : Option String) : Db :=
  db.updateObs (fun o => o.id == oid) fun o => { o with
    reservedBytes := reservedBytes.getD o.reservedBytes
    error := error <|> o.error }

/-- `INSERT INTO processing_runs`, with the foreign key and the unique attempt. -/
def insertRun (db : Db) (oid attempt : Nat) (outputPrefix logPath : Path) (reason : String) :
    Except Exn (Nat × Db) :=
  if (db.obs? oid).isNone then .error (.integrityError "FOREIGN KEY constraint failed")
  else if (db.runsOf oid).any fun r => r.attempt == attempt then
    .error (.integrityError "UNIQUE constraint failed")
  else
    let rid := db.runSeq + 1
    let row : ProcessingRun :=
      { id := rid, observationId := oid, attempt, state := .queued, outputPrefix, logPath,
        exitCode := none, qaVerdict := none, qaNote := none, retryExhausted := false }
    .ok (rid, ({ db with processingRuns := db.processingRuns ++ [row], runSeq := rid }).record
      [.run rid none (some .queued) reason])

/-- `COALESCE(MAX(attempt),0)+1`. -/
def nextAttempt (db : Db) (oid : Nat) : Nat :=
  ((db.runsOf oid).map (·.attempt)).foldr max 0 + 1

def createRun (db : Db) (oid : Nat) (outputPrefix logPath : Path) : Except Exn (Nat × Db) :=
  db.insertRun oid (db.nextAttempt oid) outputPrefix logPath "created"

def getRun (db : Db) (rid : Nat) : Except Exn ProcessingRun :=
  match db.run? rid with
  | some r => .ok r
  | none => .error (.keyError rid)

/-- `list_runs`; no states means all of them. -/
def listRuns (db : Db) (states : List RunState) : List ProcessingRun :=
  if states = [] then db.processingRuns
  else db.processingRuns.filter fun r => r.state ∈ states

/-- `list_human_actionable_runs`. -/
def listHumanActionableRuns (db : Db) : List ProcessingRun :=
  db.processingRuns.filter fun r =>
    r.state = .awaitingQa || (r.state = .failed && r.retryExhausted)

def transitionRun (db : Db) (rid : Nat) (expected new : RunState) (reason : String)
    (exitCode : Option Int) : Except Exn Db :=
  if new ∉ runTransitions expected then
    .error (.transitionError ("illegal run transition " ++ expected.name ++ "->" ++ new.name))
  else
    db.guardedRun rid expected
      (fun r => { r with state := new, exitCode := exitCode <|> r.exitCode })
      (.run rid (some expected) (some new) reason)

def recordEvent (db : Db) (entity : EntityType) (id : Nat) (reason : String) : Db :=
  db.record [match entity with
    | .observation => .observation id none none reason
    | .run => .run id none none reason
    | .reconcile => .reconcile id reason]

def isActive (r : ProcessingRun) : Bool := r.state ∈ activeRunStates

def hasOtherActiveRuns (db : Db) (oid rid : Nat) : Bool :=
  (db.runsOf oid).any fun r => r.id != rid && isActive r

def hasActiveRuns (db : Db) (oid : Nat) : Bool := (db.runsOf oid).any isActive

def hasAcceptedRun (db : Db) (oid : Nat) : Bool :=
  (db.runsOf oid).any fun r => r.state == .accepted

/-- An event that counts as an execution of the run. -/
def isExecution (rid : Nat) : Event → Bool
  | .run id (some .queued) (some .running) _ => id == rid
  | _ => false

/-- `run_execution_attempts`. -/
def runExecutionAttempts (db : Db) (rid : Nat) : Nat :=
  (db.events.filter (isExecution rid)).length

/-- `observation_execution_attempts`: the executions of the observation's runs, as a join of
the two tables. -/
def observationExecutionAttempts (db : Db) (oid : Nat) : Nat :=
  (db.events.flatMap fun e => (db.runsOf oid).filter fun r => isExecution r.id e).length

/-- The failed runs whose budget of `m` executions is spent and not yet marked. -/
def exhausts (db : Db) (m : Nat) (r : ProcessingRun) : Bool :=
  r.state == .failed && !r.retryExhausted && decide (m ≤ db.runExecutionAttempts r.id)

/-- `mark_exhausted_failed_runs`. -/
def markExhaustedFailedRuns (db : Db) (m : Nat) : List Nat × Db :=
  let ids := (db.processingRuns.filter (db.exhausts m)).map (·.id)
  (ids, (db.updateRuns (db.exhausts m) fun r => { r with retryExhausted := true }).record
    (ids.map fun rid => .run rid none none
      ("automatic retry budget exhausted at " ++ toString m ++ " execution(s)")))

/-- `mark_run_retry_exhausted`. -/
def markRunRetryExhausted (db : Db) (rid : Nat) (reason : String) : Db :=
  let hit := fun r : ProcessingRun => runGuard rid .failed r && !r.retryExhausted
  let marked := db.updateRuns hit fun r => { r with retryExhausted := true }
  if (db.processingRuns.filter hit).length = 0 then marked
  else marked.record [.run rid none none reason]

/-- The rows of `list_retryable_failed_runs`. -/
def isRetryable (db : Db) (m : Nat) (r : ProcessingRun) : Bool :=
  r.state == .failed && !r.retryExhausted
    && (match db.obs? r.observationId with
      | some o => o.state == .stored
      | none => false)
    && !db.hasOtherActiveRuns r.observationId r.id
    && decide (db.runExecutionAttempts r.id < m)

def listRetryableFailedRuns (db : Db) (m : Nat) : List (ProcessingRun × Nat) :=
  (db.processingRuns.filter (db.isRetryable m)).map fun r => (r, db.runExecutionAttempts r.id)

def listStoredObservationsWithoutRuns (db : Db) : List Observation :=
  db.observations.filter fun o => o.state == .stored && (db.runsOf o.id).isEmpty

/-- What the three QA transactions check first: the run and its observation, with
the run in one of the given states and no other active run beside it. -/
def qaTarget (db : Db) (rid : Nat) (states : List RunState) (complaint : RunState → String) :
    Except Exn (ProcessingRun × Observation) :=
  match db.run? rid with
  | none => .error (.keyError rid)
  | some run =>
    if run.state ∉ states then .error (.transitionError (complaint run.state))
    else match db.obs? run.observationId with
      | none => .error (.keyError run.observationId)
      | some obs =>
        if obs.state ≠ .stored then
          .error (.transitionError ("observation " ++ toString obs.id ++ " is not STORED"))
        else if db.hasOtherActiveRuns obs.id rid then
          .error (.transitionError
            ("observation " ++ toString obs.id ++ " has another active run"))
        else .ok (run, obs)

def decideRun (db : Db) (rid : Nat) (expected new : RunState) (verdict note reason : String) :
    Except Exn Db :=
  db.guardedRun rid expected
    (fun r => { r with state := new, qaVerdict := some verdict, qaNote := some note })
    (.run rid (some expected) (some new) reason)

/-- `STORED -> DELETING` inside a QA transaction. -/
def beginDeletion (db : Db) (oid : Nat) (reason : String) : Except Exn Db :=
  db.guardedObs oid .stored (fun o => { o with state := .deleting })
    (.observation oid (some .stored) (some .deleting) reason)

def acceptRunAndBeginDeletion (db : Db) (rid : Nat) (note : String) : Except Exn (Nat × Db) := do
  let (_, obs) ← db.qaTarget rid [.awaitingQa] fun _ =>
    "run " ++ toString rid ++ " is not awaiting QA"
  let db ← db.decideRun rid .awaitingQa .accepted "accept" note "human QA accepted"
  let db ← db.beginDeletion obs.id "accepted product permits raw deletion"
  return (obs.id, db)

def reprocessRunAndCreate (db : Db) (rid : Nat) (outputPrefix logPath : Path) (note : String) :
    Except Exn (Nat × Db) := do
  let (run, obs) ← db.qaTarget rid [.awaitingQa, .failed] fun s =>
    "run " ++ toString rid ++ " is not reprocessable from " ++ s.name
  if RunState.superseded ∉ runTransitions run.state then
    throw (.transitionError ("illegal run transition " ++ run.state.name ++ "->SUPERSEDED"))
  let db ← db.decideRun rid run.state .superseded "reprocess" note "human requested reprocessing"
  db.insertRun obs.id (run.attempt + 1) outputPrefix logPath "created by reprocess"

def discardFailedRunAndBeginDeletion (db : Db) (rid : Nat) (note : String) :
    Except Exn (Nat × Db) := do
  let (_, obs) ← db.qaTarget rid [.failed] fun _ => "run " ++ toString rid ++ " is not FAILED"
  let db ← db.decideRun rid .failed .discarded "discard" note
    "operator discarded raw data after exhausted processing failure"
  let db ← db.beginDeletion obs.id "operator discard permits raw deletion"
  return (obs.id, db)

/-- The states whose `size_bytes` count as used. -/
def countsUsed (s : ObservationState) : Bool :=
  s ∈ [ObservationState.stored, .deleting, .inconsistent]

/-- The states whose `reserved_bytes` count as reserved. -/
def countsReserved (s : ObservationState) : Bool :=
  s ∈ [ObservationState.planned, .observing]

/-- `logical_storage`: the bytes used and the bytes reserved. -/
def logicalStorage (db : Db) : Nat × Nat :=
  (((db.observations.filter fun o => countsUsed o.state).map (·.sizeBytes)).sum,
   ((db.observations.filter fun o => countsReserved o.state).map (·.reservedBytes)).sum)

def countObservations (db : Db) : Nat := db.observations.length

end Db
end Sdpctl
