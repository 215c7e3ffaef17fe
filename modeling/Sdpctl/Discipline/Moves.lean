import Sdpctl.Discipline.State

/-!
What each role may do. `allowed` is the condition on an operation; `Step` is
what an allowed operation can make of the state. Every later argument about
steps goes by cases on `Step` and never unfolds the operations again.
-/

namespace Sdpctl

open FileTree Coop

variable (T : Terms) (r : Role) (s : Shared)

/-- How a row of the observation table may change, and by whom. -/
inductive ObsMove (o o' : Observation) : Prop where
  | note (role : r ≠ .cli) (state : o'.state = o.state) (size : o'.sizeBytes = o.sizeBytes)
      (reserved : o'.reservedBytes = o.reservedBytes)
  | claim (task : Nat) (role : r = .observe task o.id) (owns : Owns task o.id s)
      (before : o.state = .planned) (after : o'.state = .observing)
      (size : o'.sizeBytes = o.sizeBytes) (reserved : o'.reservedBytes = o.reservedBytes)
  | abandon (task : Nat) (role : r = .observe task o.id) (owns : Owns task o.id s)
      (before : o.state = .planned) (after : o'.state = .observeFailed)
      (size : o'.sizeBytes = o.sizeBytes) (reserved : o'.reservedBytes = 0)
  | fail (holder : Holder r o.id s) (writer : NoWriter o.id s)
      (before : o.state = .observing) (after : o'.state = .observeFailed)
      (size : o'.sizeBytes = o.sizeBytes) (reserved : o'.reservedBytes = 0)
      (gone : T.Thorough → s.disk.absent (msPathOf o.id))
  | complete (task : Nat) (role : r = .observe task o.id) (owns : Owns task o.id s)
      (writer : NoWriter o.id s) (before : o.state = .observing) (after : o'.state = .stored)
      (reserved : o'.reservedBytes = 0)
      (bounded : s.ctl.cfg.reservationOverrunAction = .abort →
        o'.sizeBytes ≤ s.ctl.cfg.observationReservation)
      (weighed : T.Calm → s.disk.bytesAt (msPathOf o.id) = o'.sizeBytes)
  | repair (role : r = .main) (before : o.state = .stored) (after : o'.state = .deleting)
      (size : o'.sizeBytes = o.sizeBytes) (reserved : o'.reservedBytes = o.reservedBytes)
      (released : s.db.Released o.id)
  | miss (role : r = .main) (before : o.state = .stored) (after : o'.state = .inconsistent)
      (size : o'.sizeBytes = 0) (reserved : o'.reservedBytes = 0)
      (gone : T.Calm → s.disk.absent (msPathOf o.id))
  | delete (role : r = .main ∨ r = .cli) (before : o.state = .deleting ∨ o.state = .inconsistent)
      (after : o'.state = .deleted) (size : o'.sizeBytes = 0) (reserved : o'.reservedBytes = 0)
      (warrant : s.db.Released o.id ∨ o.id ∈ s.dropped)
      (gone : T.Calm → s.disk.absent (msPathOf o.id) ∧ s.disk.absent (trashPath o.id))

/-- How a row of the run table may change, and by whom. -/
inductive RunMove (q q' : ProcessingRun) : Prop where
  | start (task : Nat) (role : r = .process task q.id) (owns : OwnsRun task q.id s)
      (before : q.state = .queued) (after : q'.state = .running)
  | settle (task : Nat) (role : r = .process task q.id) (owns : OwnsRun task q.id s)
      (before : q.state = .running) (after : q'.state = .failed ∨ q'.state = .awaitingQa)
  | giveUp (task : Nat) (role : r = .process task q.id) (owns : OwnsRun task q.id s)
      (before : q.state = .queued) (after : q'.state = .failed)
  | orphaned (role : r = .main) (dead : s.ctl.live .process q.id = false)
      (before : q.state = .running) (after : q'.state = .failed)
  | retry (role : r = .main) (stored : s.db.InState q.observationId .stored)
      (before : q.state = .failed) (after : q'.state = .queued) (fresh : q.retryExhausted = false)
      (budget : s.db.runExecutionAttempts q.id < s.ctl.cfg.maxProcessingAttempts)

/-- The admission of an observation under a reservation. -/
structure Admits (reserved : Nat) : Prop where
  role : r = .main
  none : ∀ oid o, s.db.obs? oid = some o → ¬ o.state.Active
  reservation : reserved = s.ctl.cfg.observationReservation
  ledger : s.db.used + s.db.reserved + reserved ≤ s.ctl.cfg.storageThreshold
  capacity : ∀ n, s.ctl.cfg.maxObservations = some n → s.db.observations.length < n
  physical : T.Thorough → s.disk.physical + reserved ≤ s.ctl.cfg.storageThreshold

structure Creates (oid : Nat) (outputPrefix : Path) : Prop where
  role : r = .main
  stored : s.db.InState oid .stored
  none : s.db.runsOf oid = []
  path : outputPrefix = outputDir oid 1 ++ ["product"]

/-- An entry of `observations/` that may be moved to a free name in quarantine. -/
structure Quarantines (name label : String) : Prop where
  role : r ≠ .cli
  free : s.disk.absent (quarantineEntry label)
  source : ∀ oid o, s.db.obs? oid = some o → obsName oid = name →
    o.state = .observing ∧ NoWriter oid s ∧ Holder r oid s

/-- The observation is past its use, and its data was given up for a reason. -/
structure GivenUp (oid : Nat) : Prop where
  role : r = .main ∨ r = .cli
  closing : ∃ o, s.db.obs? oid = some o ∧ o.state.Closing
  warrant : s.db.Released oid ∨ oid ∈ s.dropped

/-- The run is in the store, and its product has not reached QA. -/
structure Unreviewed (run : ProcessingRun) : Prop where
  row : ∃ q, s.db.run? run.id = some q ∧ q.observationId = run.observationId ∧
    q.attempt = run.attempt
  unseen : s.db.reachedQa run.id = false

/-- The run is being executed, and has this output directory. -/
def WritesTo (dir : Path) : Prop :=
  ∃ q, s.db.run? q.id = some q ∧ q.state = .running ∧ dir = outputDir q.observationId q.attempt

inductive Removable (p : Path) : Prop where
  | product (run : ProcessingRun) (role : r ≠ .cli)
      (path : p = outputDir run.observationId run.attempt) (unreviewed : Unreviewed s run)
  | raw (oid : Nat) (givenUp : GivenUp r s oid) (path : p = msPathOf oid ∨ p = trashPath oid)
  | entry (name : String) (role : r = .cli) (path : p = quarantineEntry name)

inductive Finishes (task : Nat) : Prop where
  | observe (oid : Nat) (role : r = .observe task oid) (owns : Owns task oid s)
      (writer : NoWriter oid s)
  | process (rid : Nat) (role : r = .process task rid) (owns : OwnsRun task rid s)

structure Starts (oid : Nat) (msPath : Path) : Prop where
  role : ∃ task, r = .observe task oid ∧ Owns task oid s
  path : msPath = msPathOf oid
  observing : s.db.InState oid .observing
  first : ∀ w ∈ s.runners, w.oid ≠ oid

def allowedQuery : Query → Prop
  | .createObservationAuto n => Admits T r s n
  | .transitionObservation oid expected new _ size reserved error => ∀ o, s.db.obs? oid = some o →
      o.state = expected → ObsMove T r s o { o with
        state := new, sizeBytes := size.getD o.sizeBytes,
        reservedBytes := reserved.getD o.reservedBytes, error := error <|> o.error }
  | .forceObservationFields _ reserved _ => r ≠ .cli ∧ reserved = none
  | .createRun oid outputPrefix _ => Creates r s oid outputPrefix
  | .transitionRun rid expected new _ code => ∀ q, s.db.run? rid = some q → q.state = expected →
      RunMove r s q { q with state := new, exitCode := code <|> q.exitCode }
  | .markExhaustedFailedRuns _ | .markRunRetryExhausted _ _ => r = .main
  | .acceptRunAndBeginDeletion _ _ | .discardFailedRunAndBeginDeletion _ _ => r = .cli
  | .reprocessRunAndCreate rid outputPrefix _ _ => r = .cli ∧ ∀ q, s.db.run? rid = some q →
      outputPrefix = outputDir q.observationId (q.attempt + 1) ++ ["product"]
  | _ => True

def allowed : Op → Prop
  | .db q => allowedQuery T r s q
  | .mkdir p => p = quarantineRoot ∨ p = trashRoot
  | .rename p q =>
      (∃ name label, p = observationsRoot ++ [name] ∧ q = quarantineEntry label ∧
        Quarantines r s name label) ∨
      (∃ oid, p = msPathOf oid ∧ q = trashPath oid ∧ GivenUp r s oid)
  | .rmtree p | .unlink p => Removable r s p
  | .cachePut e => r = .main ∧ CacheOk s.disk e
  | .trackObserve oid => r = .main ∧ s.ctl.up = true ∧ s.ctl.live .observe oid = false ∧
      s.db.InState oid .planned ∧ NoOrphan s
  | .trackProcess rid => r = .main ∧ s.ctl.up = true ∧ s.ctl.live .process rid = false
  | .finish task => Finishes r s task
  | .tickReturned scanned => r = .main ∧ Settled scanned s
  | .swallow _ _ => T ≠ .faultless
  | .acquire | .release => r ≠ .cli
  | .startObserve oid msPath _ => Starts r s oid msPath
  | .cancelRunner h => ∃ task oid w, r = .observe task oid ∧ Owns task oid s ∧
      s.runners[h]? = some w ∧ w.oid = oid
  | .abortObservation oid => ∃ task, r = .observe task oid ∧ Owns task oid s
  | .startProcess oid rid _ outputPrefix _ => (∃ task, r = .process task rid) ∧
      (∃ q, s.db.run? rid = some q ∧ q.state = .running ∧ q.observationId = oid) ∧
      WritesTo s (parent outputPrefix)
  | .makePreview _ output => WritesTo s (parent output)
  | .killManaged => r = .main ∧ s.ctl.tasks = []
  | _ => True

/-- What an allowed method of the store can make of the tables. -/
inductive DbMove : Db → Prop where
  | events {db' : Db} (observations : db'.observations = s.db.observations)
      (runs : db'.processingRuns = s.db.processingRuns) (obsSeq : db'.obsSeq = s.db.obsSeq)
      (runSeq : db'.runSeq = s.db.runSeq)
      (attempts : ∀ rid, db'.runExecutionAttempts rid = s.db.runExecutionAttempts rid)
      (reached : ∀ rid, db'.reachedQa rid = s.db.reachedQa rid) : DbMove db'
  | obs {db' : Db} {o o' : Observation} (step : Db.ObsStep s.db db' o o')
      (move : ObsMove T r s o o') : DbMove db'
  | run {db' : Db} {q q' : ProcessingRun} (step : Db.RunStep s.db db' q q')
      (move : RunMove r s q q') : DbMove db'
  | marked {db' : Db} {hit : ProcessingRun → Bool} (role : r = .main)
      (step : Db.Marked s.db db' hit) : DbMove db'
  | admitted {db' : Db} {o : Observation} (step : Db.ObsAdded s.db db' o)
      (state : o.state = .planned) (path : o.msPath = msPathOf o.id) (size : o.sizeBytes = 0)
      (admits : Admits T r s o.reservedBytes) : DbMove db'
  | created {db' : Db} {q : ProcessingRun} (step : Db.RunAdded s.db db' q)
      (attempt : q.attempt = 1) (creates : Creates r s q.observationId q.outputPrefix) : DbMove db'
  | released {db' : Db} {oid : Nat} {q q' : ProcessingRun} {o : Observation} (role : r = .cli)
      (step : Db.Releases s.db db' oid q q' o) : DbMove db'
  | reprocessed {mid db' : Db} {q q' new : ProcessingRun} (role : r = .cli)
      (step : Db.RunStep s.db mid q q') (added : Db.RunAdded mid db' new)
      (before : q.state = .awaitingQa ∨ q.state = .failed) (after : q'.state = .superseded)
      (stored : s.db.InState q.observationId .stored)
      (owner : new.observationId = q.observationId) (attempt : new.attempt = q.attempt + 1)
      (path : new.outputPrefix = outputDir q.observationId (q.attempt + 1) ++ ["product"]) :
      DbMove db'

/-- What an allowed operation can make of the state. -/
inductive Step : Shared → Prop where
  | stay : Step s
  | db {db' : Db} (move : DbMove T r s db') : Step { s with db := db' }
  | quarantine {name label : String} {t : Tree} (may : Quarantines r s name label)
      (found : s.disk.get? (observationsRoot ++ [name]) = some t) :
      Step { s with disk := s.disk.move (observationsRoot ++ [name]) (quarantineEntry label) t }
  | trash {oid : Nat} {t : Tree} (may : GivenUp r s oid)
      (found : s.disk.get? (msPathOf oid) = some t) :
      Step { s with disk := s.disk.move (msPathOf oid) (trashPath oid) t }
  | remove {p : Path} {u : Tree} (may : Removable r s p) (found : s.disk.get? p = some u) :
      Step { s.notePurge p with disk := s.disk.put p none }
  | prune {p : Path} {t u : Tree} (may : Removable r s p) (found : s.disk.get? p = some u)
      (wf : t.wf) (part : t.Shrinks u) :
      Step { s.notePurge p with disk := { s.disk with root := s.disk.root.set p (some t) } }
  | cache {c : Option AuxCache} (role : r ≠ .cli) (ok : ∀ e, c = some e → CacheOk s.disk e) :
      Step { s with ctl := { s.ctl with cache := c } }
  | track {kind : TaskKind} {key : Nat} (role : r = .main) (up : s.ctl.up = true)
      (dead : s.ctl.live kind key = false)
      (row : kind = .observe → s.db.InState key .planned) :
      Step { s with ctl := s.ctl.track kind key }
  | finish {task : Nat} (may : Finishes r s task) : Step { s with ctl := s.ctl.finish task }
  | slots {free : Nat} (role : r ≠ .cli) : Step { s with ctl := { s.ctl with free } }
  | start {oid : Nat} {msPath : Path} (may : Starts r s oid msPath) :
      Step { s with runners :=
        s.runners ++ [{ oid, msPath, state := .pending, launched := false }] }
  | cancel {h task oid : Nat} {w : Runner} (role : r = .observe task oid) (owns : Owns task oid s)
      (found : s.runners[h]? = some w) (own : w.oid = oid) : Step (s.setRunner h .cancelled)
  | abort {containers : List Nat} (role : r ≠ .cli) (fewer : containers ⊆ s.containers) :
      Step { s with containers }
  | slain {containers : List Nat} (role : r = .main) (idle : s.ctl.tasks = [])
      (fewer : containers ⊆ s.containers) :
      Step { s with containers, runners := s.runners.map Runner.slain }

end Sdpctl
