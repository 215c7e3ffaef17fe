import Sdpctl.Store
import Sdpctl.Coop.Program

/-!
The atomic operations that the controller and the command line perform: one
method of the store, one file operation, one access to the memory of the
controller, one use of the runner. Programs are trees of these operations.
-/

namespace Sdpctl

open FileTree Coop

/-- The methods of `Store`. -/
inductive Query where
  | createObservationAuto (reservedBytes : Nat)
  | getObservation (oid : Nat)
  | listObservations (states : List ObservationState)
  | transitionObservation (oid : Nat) (expected new : ObservationState) (reason : String)
      (sizeBytes reservedBytes : Option Nat) (error : Option String)
  | forceObservationFields (oid : Nat) (reservedBytes : Option Nat) (error : Option String)
  | createRun (oid : Nat) (outputPrefix logPath : Path)
  | getRun (rid : Nat)
  | listRuns (states : List RunState)
  | transitionRun (rid : Nat) (expected new : RunState) (reason : String) (exitCode : Option Int)
  | recordEvent (entity : EntityType) (id : Nat) (reason : String)
  | hasOtherActiveRuns (oid rid : Nat)
  | hasActiveRuns (oid : Nat)
  | hasAcceptedRun (oid : Nat)
  | markExhaustedFailedRuns (maxAttempts : Nat)
  | markRunRetryExhausted (rid : Nat) (reason : String)
  | listRetryableFailedRuns (maxAttempts : Nat)
  | listStoredObservationsWithoutRuns
  | acceptRunAndBeginDeletion (rid : Nat) (note : String)
  | reprocessRunAndCreate (rid : Nat) (outputPrefix logPath : Path) (note : String)
  | discardFailedRunAndBeginDeletion (rid : Nat) (note : String)
  /-- One step here, though `logical_storage` reads its two sums by two SELECTs outside a
  transaction; `statements_refine_methods` is about the store with these apart. -/
  | logicalStorage
  | countObservations

@[reducible] def Query.Reply : Query → Type
  | createObservationAuto _ | createRun _ _ _ => Nat
  | getObservation _ => Observation
  | listObservations _ | listStoredObservationsWithoutRuns => List Observation
  | getRun _ => ProcessingRun
  | listRuns _ => List ProcessingRun
  | hasOtherActiveRuns _ _ | hasActiveRuns _ | hasAcceptedRun _ => Bool
  | markExhaustedFailedRuns _ => List Nat
  | listRetryableFailedRuns _ => List (ProcessingRun × Nat)
  | acceptRunAndBeginDeletion _ _ | reprocessRunAndCreate _ _ _ _
  | discardFailedRunAndBeginDeletion _ _ | countObservations => Nat
  | logicalStorage => Nat × Nat
  | _ => Unit

/-- The transaction of a method: its value and the tables afterwards. -/
def Query.run : (q : Query) → Db → Except Exn (q.Reply × Db)
  | .createObservationAuto reserved, db => .ok (db.createObservationAuto reserved)
  | .getObservation oid, db => (db.getObservation oid).map fun o => (o, db)
  | .listObservations states, db => .ok (db.listObservations states, db)
  | .transitionObservation oid expected new reason size reserved error, db =>
      (db.transitionObservation oid expected new reason size reserved error).map fun db => ((), db)
  | .forceObservationFields oid reserved error, db =>
      .ok ((), db.forceObservationFields oid reserved error)
  | .createRun oid outputPrefix log, db => db.createRun oid outputPrefix log
  | .getRun rid, db => (db.getRun rid).map fun r => (r, db)
  | .listRuns states, db => .ok (db.listRuns states, db)
  | .transitionRun rid expected new reason code, db =>
      (db.transitionRun rid expected new reason code).map fun db => ((), db)
  | .recordEvent entity id reason, db => .ok ((), db.recordEvent entity id reason)
  | .hasOtherActiveRuns oid rid, db => .ok (db.hasOtherActiveRuns oid rid, db)
  | .hasActiveRuns oid, db => .ok (db.hasActiveRuns oid, db)
  | .hasAcceptedRun oid, db => .ok (db.hasAcceptedRun oid, db)
  | .markExhaustedFailedRuns m, db => .ok (db.markExhaustedFailedRuns m)
  | .markRunRetryExhausted rid reason, db => .ok ((), db.markRunRetryExhausted rid reason)
  | .listRetryableFailedRuns m, db => .ok (db.listRetryableFailedRuns m, db)
  | .listStoredObservationsWithoutRuns, db => .ok (db.listStoredObservationsWithoutRuns, db)
  | .acceptRunAndBeginDeletion rid note, db => db.acceptRunAndBeginDeletion rid note
  | .reprocessRunAndCreate rid outputPrefix log note, db =>
      db.reprocessRunAndCreate rid outputPrefix log note
  | .discardFailedRunAndBeginDeletion rid note, db => db.discardFailedRunAndBeginDeletion rid note
  | .logicalStorage, db => .ok (db.logicalStorage, db)
  | .countObservations, db => .ok (db.countObservations, db)

/-- `_AUX_CACHE`: the signature and the sizes of quarantine and trash. -/
abbrev AuxCache := (Int × Int) × (Nat × Nat)

/-- What a command of the container executable leaves: exit status and output. -/
structure CommandResult where
  status : Int
  out : String
  deriving DecidableEq, Repr

inductive Op where
  | db (q : Query)
  -- files
  | exists_ (p : Path)
  | isDir (p : Path)
  | isFile (p : Path)
  | statSize (p : Path)
  | statMtime (p : Path)
  | resolve (p : Path)
  | mkdir (p : Path)
  | rename (p q : Path)
  | rmtree (p : Path)
  | unlink (p : Path)
  | iterdir (p : Path)
  | rglob (p : Path)
  /-- How many entries a directory has: bounds a search for a free name. -/
  | entryCount (p : Path)
  /-- A search that went past its bound never comes back. -/
  | diverge
  -- the memory of the controller
  | cacheGet
  | cachePut (entry : AuxCache)
  | cachePop
  | obsTaskLive (oid : Nat)
  | runTaskLive (rid : Nat)
  | trackObserve (oid : Nat)
  | trackProcess (rid : Nat)
  /-- The coroutine of a task has returned. -/
  | finish (task : Nat)
  /-- `tick` returns; its last scan read these queued runs. -/
  | tickReturned (scanned : List Nat)
  /-- `with suppress(Exception)` swallows an exception of `quarantine_path`. -/
  | swallow (source : Path) (e : Exn)
  -- points where a coroutine waits
  | taskStart
  | sleep
  | acquire
  | release
  -- the runner
  | startObserve (oid : Nat) (msPath logPath : Path)
  | runnerDone (handle : Nat)
  | runnerResult (handle : Nat)
  | waitRunner (handle : Nat)
  | cancelRunner (handle : Nat)
  | joinRunner (handle : Nat)
  | abortObservation (oid : Nat)
  | startProcess (oid rid : Nat) (msPath outputPrefix logPath : Path)
  | awaitProcess (rid : Nat)
  | makePreview (image output : Path)
  | killManaged
  | command (args : List String)

@[reducible] def Op.Reply : Op → Type
  | .db q => q.Reply
  | .exists_ _ | .isDir _ | .isFile _ | .obsTaskLive _ | .runTaskLive _ | .runnerDone _ => Bool
  | .statSize _ | .statMtime _ | .entryCount _ | .startObserve _ _ _ => Nat
  | .resolve _ => Path
  | .iterdir _ => List String
  | .rglob _ => List Path
  | .cacheGet => Option AuxCache
  | .runnerResult _ | .waitRunner _ | .awaitProcess _ => Int
  | .command _ => CommandResult
  | _ => Unit

/-- A program of the controller or of the command line. -/
abbrev M := Prog Op.Reply Exn

abbrev call (o : Op) : M o.Reply := Prog.call o

abbrev store (q : Query) : M q.Reply := call (Op.db q)

/-- `with suppress(Exception): p`. -/
def suppress (p : M Unit) : M Unit := tryCatch p fun _ => pure ()

/-- `with suppress(TransitionError): p`. -/
def suppressTransitionError (p : M Unit) : M Unit :=
  tryCatch p fun e =>
    match e with
    | .transitionError _ => pure ()
    | e => throw e

end Sdpctl
