import Sdpctl.Storage

/-!
`reconcile.py`: what a restart repairs, phase by phase. Each entity is repaired
inside its own `try`, after the gate that makes sure no writer is left.
-/

namespace Sdpctl

open FileTree Coop

/-- `_record_observation_recovery_failure`. -/
def recordObservationRecoveryFailure (oid : Nat) (e : Exn) (context : String) : M Unit :=
  let message := "reconcile failure during " ++ context ++ ": " ++ e.repr
  Prog.finallyDo (store (.forceObservationFields oid none (some message)))
    (store (.recordEvent .observation oid message))

/-- `_record_run_recovery_failure`. -/
def recordRunRecoveryFailure (rid : Nat) (e : Exn) (context : String) : M Unit :=
  store (.recordEvent .run rid ("reconcile failure during " ++ context ++ ": " ++ e.repr))

/-- `f"obs-{oid:06d}-{suffix}.ms"`, the labels of partial data. -/
def partialLabel (oid : Nat) (suffix : String) : String :=
  "obs-" ++ padded 6 oid ++ "-" ++ suffix ++ ".ms"

/-- `if p.exists(): quarantine_path(...)`. -/
def quarantineIfExists (p : Path) (label : String) : M Unit := do
  if ← call (.exists_ p) then
    let _ ← quarantinePath p label
  else
    pure ()

/-- `if out_dir.exists(): shutil.rmtree(out_dir)`. -/
def removeIfExists (p : Path) : M Unit := do
  if ← call (.exists_ p) then
    call (.rmtree p)
  else
    pure ()

/-- An observation that the previous controller left unfinished. -/
def recoverObservation (obs : Observation) : M Unit :=
  tryCatch
    (do
      quarantineIfExists obs.msPath (partialLabel obs.id "partial")
      store (.transitionObservation obs.id .observing .observeFailed
        "restart found interrupted observation" none (some 0)
        (some "interrupted by previous shutdown")))
    fun e => recordObservationRecoveryFailure obs.id e "interrupted observation"

/-- A processing run that the previous controller left unfinished. -/
def recoverRun (run : ProcessingRun) : M Unit :=
  tryCatch
    (do
      removeIfExists (parent run.outputPrefix)
      store (.transitionRun run.id .running .failed "restart found interrupted processing"
        (some (-1))))
    fun e => recordRunRecoveryFailure run.id e "interrupted processing"

/-- An accepted product whose observation is still stored. -/
def repairAccepted (obs : Observation) : M Unit :=
  tryCatch
    (do
      if ← store (.hasAcceptedRun obs.id) then
        if !(← store (.hasActiveRuns obs.id)) then
          store (.transitionObservation obs.id .stored .deleting
            "reconcile resumed accepted QA deletion" none none none)
        else
          pure ()
      else
        pure ())
    fun e => recordObservationRecoveryFailure obs.id e "accepted deletion repair"

def resumeDeletion (obs : Observation) : M Unit :=
  tryCatch (finishObservationDeletion obs.id)
    fun e => recordObservationRecoveryFailure obs.id e "deletion completion"

/-- A stored observation whose data may be gone. -/
def verifyStored (obs : Observation) : M Unit :=
  tryCatch
    (do
      if !(← call (.exists_ obs.msPath)) then
        store (.transitionObservation obs.id .stored .inconsistent
          "database says STORED but MS is missing" (some 0) (some 0)
          (some "stored MS missing on restart"))
      else
        pure ())
    fun e => recordObservationRecoveryFailure obs.id e "stored-MS verification"

def scanChild (known : List Path) (name : String) : M Unit := do
  let child := observationsRoot ++ [name]
  let resolved ← call (.resolve child)
  if resolved ∈ known then
    pure ()
  else
    tryCatch
      (do
        let _ ← quarantinePath child ("orphan-" ++ name))
      fun e => store (.recordEvent .reconcile 0
        ("orphan " ++ pathText child ++ ": " ++ e.repr))

/-- Unknown objects under the observations directory are quarantined. -/
def scanOrphans : M Unit := do
  let rows ← store (.listObservations [])
  let known ← Prog.foldEach rows [] fun known o => do
    let p ← call (.resolve o.msPath)
    return p :: known
  if ← call (.exists_ observationsRoot) then
    let children ← call (.iterdir observationsRoot)
    Prog.forEach children (scanChild known)
  else
    pure ()

def recoverAll : M Unit := do
  let interrupted ← store (.listObservations [.observing])
  Prog.forEach interrupted recoverObservation
  let running ← store (.listRuns [.running])
  Prog.forEach running recoverRun
  let stored ← store (.listObservations [.stored])
  Prog.forEach stored repairAccepted
  let deleting ← store (.listObservations [.deleting])
  Prog.forEach deleting resumeDeletion
  let remaining ← store (.listObservations [.stored])
  Prog.forEach remaining verifyStored
  scanOrphans

/-- `startup_reconcile`, over the gate that the runner provides. -/
def startupReconcile (killManaged : M Unit) : M Unit := do
  killManaged
  recoverAll

end Sdpctl
