import Sdpctl.Storage

/-!
`qa.py`: the operator's verdicts. Every precondition is checked on a snapshot
first, and the store checks again inside its transaction.
-/

namespace Sdpctl

open FileTree Coop

/-- `accept_run`. -/
def acceptRun (rid : Nat) (note : String) : M Unit := do
  let run ← store (.getRun rid)
  if run.state ≠ .awaitingQa then
    throw (.valueError "run is not awaiting QA")
  else
    let obs ← store (.getObservation run.observationId)
    if obs.state ≠ .stored then
      throw (.valueError "observation is not STORED")
    else if !(← call (.exists_ obs.msPath)) then
      throw (.valueError "raw visibility is unavailable")
    else if ← store (.hasOtherActiveRuns obs.id run.id) then
      throw (.valueError "observation has another non-terminal processing run")
    else
      let _ ← store (.acceptRunAndBeginDeletion run.id note)
      finishObservationDeletion obs.id

/-- `reprocess_run`. -/
def reprocessRun (rid : Nat) (note : String) : M Nat := do
  let run ← store (.getRun rid)
  if run.state ≠ .awaitingQa ∧ run.state ≠ .failed then
    throw (.valueError "run is neither awaiting QA nor FAILED")
  else
    let obs ← store (.getObservation run.observationId)
    if obs.state ≠ .stored then
      throw (.valueError "raw visibility is unavailable")
    else if !(← call (.exists_ obs.msPath)) then
      throw (.valueError "raw visibility is unavailable")
    else if ← store (.hasOtherActiveRuns obs.id run.id) then
      throw (.valueError "observation already has another non-terminal processing run")
    else
      let next := run.attempt + 1
      store (.reprocessRunAndCreate run.id (outputDir obs.id next ++ ["product"])
        (processLog obs.id next) note)

/-- `discard_failed_run`. -/
def discardFailedRun (rid : Nat) (note : String) : M Unit := do
  let run ← store (.getRun rid)
  if run.state ≠ .failed then
    throw (.valueError "only FAILED runs can be discarded")
  else
    let obs ← store (.getObservation run.observationId)
    if obs.state ≠ .stored then
      throw (.valueError "observation is not STORED")
    else if !(← call (.exists_ obs.msPath)) then
      throw (.valueError "raw visibility is unavailable")
    else if ← store (.hasOtherActiveRuns obs.id run.id) then
      throw (.valueError "observation already has another non-terminal processing run")
    else
      let oid ← store (.discardFailedRunAndBeginDeletion run.id note)
      finishObservationDeletion oid

/-- The checks of a verdict, in their order: the run, its observation, the raw data
and the other runs. -/
def review {α : Type} (rid : Nat) (wrong : ProcessingRun → Prop) [DecidablePred wrong]
    (onRun onObservation onData onOthers : String) (rest : ProcessingRun → Observation → M α) :
    M α := do
  let run ← store (.getRun rid)
  if wrong run then
    throw (.valueError onRun)
  else
    let obs ← store (.getObservation run.observationId)
    if obs.state ≠ .stored then
      throw (.valueError onObservation)
    else if !(← call (.exists_ obs.msPath)) then
      throw (.valueError onData)
    else if ← store (.hasOtherActiveRuns obs.id run.id) then
      throw (.valueError onOthers)
    else
      rest run obs

theorem acceptRun_eq (rid : Nat) (note : String) :
    acceptRun rid note = review rid (·.state ≠ .awaitingQa) "run is not awaiting QA"
      "observation is not STORED" "raw visibility is unavailable"
      "observation has another non-terminal processing run" (fun run obs => do
        let _ ← store (.acceptRunAndBeginDeletion run.id note)
        finishObservationDeletion obs.id) := rfl

theorem reprocessRun_eq (rid : Nat) (note : String) :
    reprocessRun rid note = review rid (fun run => run.state ≠ .awaitingQa ∧ run.state ≠ .failed)
      "run is neither awaiting QA nor FAILED" "raw visibility is unavailable"
      "raw visibility is unavailable" "observation already has another non-terminal processing run"
      fun run obs => store (.reprocessRunAndCreate run.id
        (outputDir obs.id (run.attempt + 1) ++ ["product"])
        (processLog obs.id (run.attempt + 1)) note) := rfl

theorem discardFailedRun_eq (rid : Nat) (note : String) :
    discardFailedRun rid note = review rid (·.state ≠ .failed) "only FAILED runs can be discarded"
      "observation is not STORED" "raw visibility is unavailable"
      "observation already has another non-terminal processing run" (fun run _ => do
        let oid ← store (.discardFailedRunAndBeginDeletion run.id note)
        finishObservationDeletion oid) := rfl

/-- `list_qa_items`. -/
def listQaItems (db : Db) : List ProcessingRun := db.listHumanActionableRuns

/-- `resolve_observation_drop`. -/
def resolveObservationDrop (oid : Nat) : M Unit :=
  forceDropObservationData oid
    "operator acknowledged recovery inconsistency and dropped raw data"

/-- `quarantine purge` of an entry of the quarantine directory. -/
def quarantinePurge (name : String) : M Unit := do
  let target := quarantineEntry name
  if !(← call (.exists_ target)) then
    throw (.runtimeError "not found")
  else
    removeTree target
    invalidateAuxiliaryCache

/-- The commands of the command line that change anything. -/
inductive Command where
  | accept (rid : Nat) (note : String)
  | reprocess (rid : Nat) (note : String)
  | discard (rid : Nat) (note : String)
  | resolve (oid : Nat)
  | purge (name : String)
  deriving DecidableEq, Repr

/-- `main`, for one command. -/
def Command.body : Command → M Unit
  | .accept rid note => acceptRun rid note
  | .reprocess rid note => do
      let _ ← reprocessRun rid note
  | .discard rid note => discardFailedRun rid note
  | .resolve oid => resolveObservationDrop oid
  | .purge name => quarantinePurge name

def plainName (name : String) : Bool :=
  name != "" && name != "." && name != ".." && !name.toList.contains '/'

end Sdpctl
