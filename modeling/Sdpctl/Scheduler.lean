import Sdpctl.Reconcile
import Sdpctl.Qa

/-!
`scheduler.py`: the tick of the controller and its two workers. A coroutine is
cut where its source loops without bound: the code of an entry point is one
turn, and says where the coroutine goes on.
-/

namespace Sdpctl

open FileTree Coop

/-- Where a process of the system can start or continue. -/
inductive Entry where
  | run (cfg : Config)
  | tick (cfg : Config)
  | observe (cfg : Config) (task oid : Nat)
  | watch (cfg : Config) (task oid handle : Nat) (msPath : Path) (warned : Bool)
  | process (cfg : Config) (task rid : Nat)
  | command (c : Command)
  deriving DecidableEq, Repr

/-- `can_admit`. -/
def canAdmit (cfg : Config) : M Bool := do
  let (used, reserved) ← store .logicalStorage
  let (quarantine, trash) ← auxiliaryChargedStorage false
  let charged := used + reserved + quarantine + trash
  return decide (charged + cfg.observationReservation ≤ cfg.storageThreshold)

/-- `_campaign_has_capacity`. -/
def campaignHasCapacity (cfg : Config) : M Bool := do
  match cfg.maxObservations with
  | none => return true
  | some n =>
    let count ← store .countObservations
    return decide (count < n)

/-- `_stop_observation_runner`. -/
def stopObservationRunner (oid : Nat) (handle : Option Nat) : M Unit := do
  suppress (call (.abortObservation oid))
  match handle with
  | none => pure ()
  | some h =>
    if ← call (.runnerDone h) then
      pure ()
    else
      tryCatch
        (do
          let _ ← call (.waitRunner h))
        fun _ => do
          if ← call (.runnerDone h) then
            pure ()
          else
            call (.cancelRunner h)
            call (.joinRunner h)

/-- `with suppress(Exception): quarantine_path(...)`, under the existence test. -/
def quarantineSuppressed (p : Path) (label : String) : M Unit := do
  if ← call (.exists_ p) then
    tryCatch
      (do
        let _ ← quarantinePath p label)
      fun e => call (.swallow p e)
  else
    pure ()

/-- The row of an observation, unless there is none. -/
def findObservation (oid : Nat) : M (Option Observation) :=
  tryCatch
    (do
      let obs ← store (.getObservation oid)
      return some obs)
    fun e =>
      match e with
      | .keyError _ => pure none
      | e => throw e

/-- `_fail_observation`. -/
def failObservation (oid : Nat) (reason error : String) : M Unit := do
  match ← findObservation oid with
  | none => pure ()
  | some obs =>
    if obs.state = .observing then
      quarantineSuppressed obs.msPath (partialLabel oid "exception")
      suppressTransitionError
        (store (.transitionObservation oid .observing .observeFailed reason none (some 0)
          (some error)))
    else if obs.state = .planned then
      suppressTransitionError
        (store (.transitionObservation oid .planned .observeFailed reason none (some 0)
          (some error)))
    else
      store (.recordEvent .observation oid
        ("worker exception after state " ++ obs.state.name ++ ": " ++ error))

/-- The outer `try` of `_observe`. -/
def observeGuard (oid : Nat) (handle : Option Nat) (body : M (Option Entry)) :
    M (Option Entry) :=
  tryCatch body fun e => do
    stopObservationRunner oid handle
    failObservation oid "observation worker raised exception" e.repr
    return none

/-- The coroutine of a task ends, unless it has another turn. -/
def endTask (task : Nat) (body : M (Option Entry)) : M (Option Entry) := do
  let next ← tryCatch body fun e => do
    call (.finish task)
    throw e
  match next with
  | some n => return some n
  | none =>
    call (.finish task)
    return none

/-- The claim at the start of `_observe`: false when the guard fails. -/
def claimObservation (oid : Nat) : M Bool :=
  tryCatch
    (do
      store (.transitionObservation oid .planned .observing
        "admitted under storage reservation" none none none)
      return true)
    fun e =>
      match e with
      | .transitionError _ => pure false
      | e => throw e

/-- `_observe`, up to its loop. -/
def observeStart (cfg : Config) (task oid : Nat) : M (Option Entry) := do
  let _ ← store (.getObservation oid)
  if ← claimObservation oid then
    let obs ← store (.getObservation oid)
    let handle ← call (.startObserve oid obs.msPath (observeLog oid))
    return some (.watch cfg task oid handle obs.msPath false)
  else
    return none

/-- Give up an observation: its data goes to quarantine, its row fails. -/
def failObserving (oid : Nat) (msPath : Path) (suffix reason error : String) : M Unit := do
  quarantineIfExists msPath (partialLabel oid suffix)
  store (.transitionObservation oid .observing .observeFailed reason none (some 0) (some error))

/-- `_observe`, after its loop. -/
def observeFinish (cfg : Config) (oid handle : Nat) (msPath : Path) : M Unit := do
  let rc ← call (.runnerResult handle)
  if rc ≠ 0 then
    failObserving oid msPath "failed" "runner exited non-zero" ("exit code " ++ toString rc)
  else
    let actual ← apparentSize msPath
    let complete : M Unit := store (.transitionObservation oid .observing .stored
      "observation completed" (some actual) (some 0) none)
    if actual ≤ cfg.observationReservation then
      complete
    else if cfg.reservationOverrunAction = .abort then
      failObserving oid msPath "reservation-overrun" "post-completion reservation exceeded"
        ("actual " ++ toString actual ++ " > reserved "
          ++ toString cfg.observationReservation)
    else
      store (.recordEvent .observation oid ("WARNING: completed size " ++ toString actual
        ++ " exceeded reservation " ++ toString cfg.observationReservation))
      complete

/-- One turn of the loop of `_observe`. -/
def watchTurn (cfg : Config) (task oid handle : Nat) (msPath : Path) (warned : Bool) :
    M (Option Entry) := do
  if ← call (.runnerDone handle) then
    observeFinish cfg oid handle msPath
    return none
  else
    call .sleep
    let size ← apparentSize msPath
    if size ≤ cfg.observationReservation then
      return some (.watch cfg task oid handle msPath warned)
    else if cfg.reservationOverrunAction = .abort then
      stopObservationRunner oid (some handle)
      failObserving oid msPath "reservation-overrun" "in-flight size exceeded reservation"
        ("reservation exceeded at " ++ toString size ++ " bytes")
      return none
    else if warned then
      return some (.watch cfg task oid handle msPath true)
    else
      store (.recordEvent .observation oid ("WARNING: in-flight size " ++ toString size
        ++ " exceeded reservation " ++ toString cfg.observationReservation))
      return some (.watch cfg task oid handle msPath true)

/-- The claim at the start of `_process`: false when the guard fails. -/
def claimRun (rid : Nat) : M Bool :=
  tryCatch
    (do
      store (.transitionRun rid .queued .running "processing slot available" none)
      return true)
    fun e =>
      match e with
      | .transitionError _ => pure false
      | e => throw e

/-- The best-effort preview, and the reason to record. -/
def previewReason (rid : Nat) (image output : Path) : M String :=
  tryCatch
    (do
      call (.makePreview image output)
      return "processing completed; preview available")
    fun e => do
      store (.recordEvent .run rid ("preview unavailable: " ++ e.repr))
      return "processing completed; preview unavailable"

/-- `_process`, while it holds a processing slot. -/
def processRun (rid : Nat) : M Unit := do
  let run ← store (.getRun rid)
  if ← claimRun rid then
    let obs ← store (.getObservation run.observationId)
    call (.startProcess obs.id rid obs.msPath run.outputPrefix run.logPath)
    let rc ← call (.awaitProcess rid)
    if rc ≠ 0 then
      store (.transitionRun rid .running .failed "processing exited non-zero" (some rc))
    else
      let image := withSuffix run.outputPrefix "-image.fits"
      if ← call (.exists_ image) then
        let reason ← previewReason rid image (parent run.outputPrefix ++ ["preview.png"])
        store (.transitionRun rid .running .awaitingQa reason (some 0))
      else
        store (.transitionRun rid .running .failed "expected restored image missing" (some 0))
  else
    pure ()

def findRun (rid : Nat) : M (Option ProcessingRun) :=
  tryCatch
    (do
      let run ← store (.getRun rid)
      return some run)
    fun e =>
      match e with
      | .keyError _ => pure none
      | e => throw e

/-- The handler of `_process`. -/
def failProcess (rid : Nat) (e : Exn) : M Unit := do
  match ← findRun rid with
  | none => pure ()
  | some run =>
    if run.state = .queued then
      suppressTransitionError
        (store (.transitionRun rid .queued .failed "processing worker raised before start"
          (some (-1))))
    else if run.state = .running then
      suppressTransitionError
        (store (.transitionRun rid .running .failed
          ("processing worker exception: " ++ e.repr) (some (-1))))
    else
      store (.recordEvent .run rid
        ("worker exception after state " ++ run.state.name ++ ": " ++ e.repr))

/-- `_process`. -/
def processWorker (rid : Nat) : M (Option Entry) := do
  tryCatch
    (do
      call .acquire
      Prog.finallyDo (processRun rid) (call .release))
    (failProcess rid)
  return none

/-- One retryable failure: its partial products go away and it is queued again. -/
def retryRun (cfg : Config) (candidate : ProcessingRun × Nat) : M Unit := do
  let cleaned ← tryCatch
    (do
      removeIfExists (parent candidate.1.outputPrefix)
      return true)
    fun e => do
      store (.markRunRetryExhausted candidate.1.id
        ("automatic retry blocked by product cleanup failure: " ++ e.repr))
      return false
  if cleaned then
    suppressTransitionError
      (store (.transitionRun candidate.1.id .failed .queued
        ("automatic retry " ++ toString (candidate.2 + 1) ++ "/"
          ++ toString cfg.maxProcessingAttempts) none))
  else
    pure ()

/-- `_retry_failed_runs`. -/
def retryFailedRuns (cfg : Config) : M Unit := do
  let _ ← store (.markExhaustedFailedRuns cfg.maxProcessingAttempts)
  let candidates ← store (.listRetryableFailedRuns cfg.maxProcessingAttempts)
  Prog.forEach candidates (retryRun cfg)

/-- `_create_initial_run`. -/
def createInitialRun (oid : Nat) : M Unit := do
  let _ ← store (.createRun oid (outputDir oid 1 ++ ["product"]) (processLog oid 1))

/-- An `OBSERVING` row in the sweep. -/
def sweepObservation (obs : Observation) : M Unit := do
  if ← call (.obsTaskLive obs.id) then
    pure ()
  else
    quarantineSuppressed obs.msPath (partialLabel obs.id "orphaned-task")
    suppressTransitionError
      (store (.transitionObservation obs.id .observing .observeFailed
        "OBSERVING state had no live in-process task" none (some 0)
        (some "orphaned in-process observation task")))

/-- A `RUNNING` row in the sweep. -/
def sweepRun (run : ProcessingRun) : M Unit := do
  if ← call (.runTaskLive run.id) then
    pure ()
  else
    suppressTransitionError
      (store (.transitionRun run.id .running .failed "RUNNING state had no live in-process task"
        (some (-1))))

/-- `_sweep_orphaned_inprocess_states`. -/
def sweepOrphanedInprocessStates : M Unit := do
  let observing ← store (.listObservations [.observing])
  Prog.forEach observing sweepObservation
  let running ← store (.listRuns [.running])
  Prog.forEach running sweepRun

/-- A `PLANNED` row whose worker never started. -/
def resumePlanned (obs : Observation) : M Unit := do
  if ← call (.obsTaskLive obs.id) then
    pure ()
  else
    call (.trackObserve obs.id)

def admitObservation (cfg : Config) : M Unit := do
  let active ← store (.listObservations [.observing, .planned])
  if active.isEmpty then
    if ← campaignHasCapacity cfg then
      if ← canAdmit cfg then
        let oid ← store (.createObservationAuto cfg.observationReservation)
        call (.trackObserve oid)
      else
        pure ()
    else
      pure ()
  else
    pure ()

def spawnRun (run : ProcessingRun) : M Unit := do
  if ← call (.runTaskLive run.id) then
    pure ()
  else
    call (.trackProcess run.id)

/-- `tick`. -/
def tick (cfg : Config) : M Unit := do
  sweepOrphanedInprocessStates
  retryFailedRuns cfg
  let planned ← store (.listObservations [.planned])
  Prog.forEach planned resumePlanned
  admitObservation cfg
  let missing ← store .listStoredObservationsWithoutRuns
  Prog.forEach missing fun obs => createInitialRun obs.id
  let queued ← store (.listRuns [.queued])
  Prog.forEach queued spawnRun
  call (.tickReturned (queued.map (·.id)))

def Entry.code : Entry → M (Option Entry)
  | .run cfg => do
      startupReconcile (call .killManaged)
      return some (.tick cfg)
  | .tick cfg => do
      Sdpctl.tick cfg
      call .sleep
      return some (.tick cfg)
  | .observe cfg task oid => endTask task do
      call .taskStart
      observeGuard oid none (observeStart cfg task oid)
  | .watch cfg task oid handle msPath warned => endTask task
      (observeGuard oid (some handle) (watchTurn cfg task oid handle msPath warned))
  | .process _ task rid => endTask task do
      call .taskStart
      processWorker rid
  | .command c => do
      c.body
      return none

end Sdpctl
