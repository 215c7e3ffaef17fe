import Sdpctl.FileTree.Tree

/-!
The two state machines, the rows of the store and the exceptions that the
controller tells apart. A path is relative to `data_root`.
-/

namespace Sdpctl

open FileTree

inductive ObservationState where
  | planned
  | observing
  | stored
  | deleting
  | deleted
  | observeFailed
  | inconsistent
  deriving DecidableEq, Repr

inductive RunState where
  | queued
  | running
  | awaitingQa
  | accepted
  | superseded
  | failed
  | discarded
  deriving DecidableEq, Repr

/-- `OBS_TRANSITIONS`. -/
def obsTransitions : ObservationState → List ObservationState
  | .planned => [.observing, .observeFailed]
  | .observing => [.stored, .observeFailed]
  | .stored => [.deleting, .inconsistent]
  | .deleting => [.deleted, .inconsistent]
  | .observeFailed => []
  | .inconsistent => [.deleted]
  | .deleted => []

/-- `RUN_TRANSITIONS`. -/
def runTransitions : RunState → List RunState
  | .queued => [.running, .failed]
  | .running => [.awaitingQa, .failed]
  | .awaitingQa => [.accepted, .superseded]
  | .failed => [.queued, .superseded, .discarded]
  | .accepted => []
  | .superseded => []
  | .discarded => []

/-- `_ACTIVE_RUN_STATES`. -/
def activeRunStates : List RunState := [.queued, .running, .awaitingQa]

structure Observation where
  id : Nat
  state : ObservationState
  msPath : Path
  sizeBytes : Nat
  reservedBytes : Nat
  error : Option String
  deriving DecidableEq, Repr

structure ProcessingRun where
  id : Nat
  observationId : Nat
  attempt : Nat
  state : RunState
  outputPrefix : Path
  logPath : Path
  exitCode : Option Int
  qaVerdict : Option String
  qaNote : Option String
  retryExhausted : Bool
  deriving DecidableEq, Repr

inductive Event where
  | observation (entityId : Nat) (fromState toState : Option ObservationState) (reason : String)
  | run (entityId : Nat) (fromState toState : Option RunState) (reason : String)
  | reconcile (entityId : Nat) (reason : String)
  deriving DecidableEq, Repr

/-- The entity types of `record_event`. -/
inductive EntityType where
  | observation
  | run
  | reconcile
  deriving DecidableEq, Repr

/-- The exceptions. `osError` and `sqliteError` are what the operating system and
the database raise on their own account, `runnerError` is whatever a runner raises. -/
inductive Exn where
  | transitionError (message : String)
  | keyError (id : Nat)
  | valueError (message : String)
  | runtimeError (message : String)
  | fileNotFoundError (path : Path)
  | osError (path : Path)
  | sqliteError
  | integrityError (message : String)
  | timeoutError
  | runnerError (message : String)
  deriving DecidableEq, Repr

def pathText (p : Path) : String := "/".intercalate p

/-- `repr(exc)`. -/
def Exn.repr : Exn → String
  | .transitionError m => "TransitionError('" ++ m ++ "')"
  | .keyError id => "KeyError(" ++ toString id ++ ")"
  | .valueError m => "ValueError('" ++ m ++ "')"
  | .runtimeError m => "RuntimeError('" ++ m ++ "')"
  | .fileNotFoundError p => "FileNotFoundError('" ++ pathText p ++ "')"
  | .osError p => "OSError('" ++ pathText p ++ "')"
  | .sqliteError => "OperationalError()"
  | .integrityError m => "IntegrityError('" ++ m ++ "')"
  | .timeoutError => "TimeoutError()"
  | .runnerError m => m

def ObservationState.name : ObservationState → String
  | .planned => "PLANNED"
  | .observing => "OBSERVING"
  | .stored => "STORED"
  | .deleting => "DELETING"
  | .deleted => "DELETED"
  | .observeFailed => "OBSERVE_FAILED"
  | .inconsistent => "INCONSISTENT"

def RunState.name : RunState → String
  | .queued => "QUEUED"
  | .running => "RUNNING"
  | .awaitingQa => "AWAITING_QA"
  | .accepted => "ACCEPTED"
  | .superseded => "SUPERSEDED"
  | .failed => "FAILED"
  | .discarded => "DISCARDED"

/-- What to do with an observation that outgrows its reservation. -/
inductive OverrunAction where
  | abort
  | warn
  deriving DecidableEq, Repr

structure Config where
  storageThreshold : Nat
  observationReservation : Nat
  maxParallelProcessing : Nat := 3
  maxProcessingAttempts : Nat := 1
  maxObservations : Option Nat := none
  reservationOverrunAction : OverrunAction := .abort
  deriving DecidableEq, Repr

/-- The checks at the end of `load_config`. -/
def Config.Valid (cfg : Config) : Prop :=
  cfg.observationReservation ≤ cfg.storageThreshold ∧ 1 ≤ cfg.maxParallelProcessing ∧
    1 ≤ cfg.maxProcessingAttempts

instance (cfg : Config) : Decidable cfg.Valid := by
  unfold Config.Valid
  infer_instance

end Sdpctl
