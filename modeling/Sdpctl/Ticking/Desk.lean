import Sdpctl.Cache.Walk
import Sdpctl.Keyed
import Sdpctl.Restart.Files

/-!
What a tick comes to, as a function. The desk has everything that a tick reads or
changes; each phase says what becomes of every row, of the files and of the tasks.
Nothing here speaks of programs.
-/

namespace Sdpctl

open FileTree

/-- The rows without their history, the files, the memory of the controller, and the
runners. -/
structure Desk where
  observations : List Observation
  processingRuns : List ProcessingRun
  /-- How often each run has been executed. -/
  executions : Nat → Nat
  obsSeq : Nat
  runSeq : Nat
  disk : Disk
  ctl : Ctl
  runners : List Runner
  containers : List Nat

def Shared.desk (s : Shared) : Desk where
  observations := s.db.observations
  processingRuns := s.db.processingRuns
  executions := s.db.runExecutionAttempts
  obsSeq := s.db.obsSeq
  runSeq := s.db.runSeq
  disk := s.disk
  ctl := s.ctl
  runners := s.runners
  containers := s.containers

/-- What `auxiliary_charged_storage` returns: the cached sizes while their signature
matches. -/
def Disk.charged (d : Disk) (cache : Option AuxCache) : Nat × Nat :=
  match cache with
  | some (old, sizes) => if old = d.signature then sizes else d.auxiliary
  | none => d.auxiliary

/-- New tasks for those keys that have no live one. -/
def Ctl.tracked (ctl : Ctl) (kind : TaskKind) (keys : List Nat) : Ctl :=
  keys.foldl (fun ctl key => if ctl.live kind key then ctl else ctl.track kind key) ctl

/-- What stands at the path of an observation goes to quarantine, and the cached sizes
are dropped. -/
def asideStep (f : Disk × Option AuxCache) (o : Observation) : Disk × Option AuxCache :=
  if f.1.has o.msPath then
    (f.1.setAside o.msPath (partialLabel o.id "orphaned-task"), none)
  else f

namespace Desk

variable (cfg : Config) (d : Desk)

def aside (os : List Observation) : Desk :=
  { d with
    disk := (os.foldl asideStep (d.disk, d.ctl.cache)).1
    ctl := { d.ctl with cache := (os.foldl asideStep (d.disk, d.ctl.cache)).2 } }

/-- An `OBSERVING` row without a live task. -/
def orphaned (o : Observation) : Bool :=
  o.state == .observing && !d.ctl.live .observe o.id

def sweptRow (o : Observation) : Observation :=
  if d.orphaned o then
    { o with
      state := .observeFailed
      reservedBytes := 0
      error := some "orphaned in-process observation task" }
  else o

def swept : Desk :=
  { d.aside (d.observations.filter d.orphaned) with observations := d.observations.map d.sweptRow }

/-- A `RUNNING` row without a live task. -/
def abandoned (r : ProcessingRun) : Bool :=
  r.state == .running && !d.ctl.live .process r.id

def failedRow (r : ProcessingRun) : ProcessingRun :=
  if d.abandoned r then { r with state := .failed, exitCode := some (-1) } else r

def failed : Desk := { d with processingRuns := d.processingRuns.map d.failedRow }

def spent (r : ProcessingRun) : Bool :=
  r.state == .failed && !r.retryExhausted && decide (cfg.maxProcessingAttempts ≤ d.executions r.id)

def exhaustedRow (r : ProcessingRun) : ProcessingRun :=
  if d.spent cfg r then { r with retryExhausted := true } else r

/-- Failures without budget are handed to the operator. -/
def exhausted : Desk := { d with processingRuns := d.processingRuns.map (d.exhaustedRow cfg) }

def stores (oid : Nat) : Bool :=
  (Keyed.find Observation.id d.observations oid).any fun o => o.state == .stored

def retries (r : ProcessingRun) : Bool :=
  r.state == .failed && !r.retryExhausted && d.stores r.observationId &&
    decide (d.executions r.id < cfg.maxProcessingAttempts)

def retriedRow (r : ProcessingRun) : ProcessingRun :=
  if d.retries cfg r then { r with state := .queued } else r

def cleared (rs : List ProcessingRun) : Disk :=
  rs.foldl (fun disk r => disk.emptied (parent r.outputPrefix)) d.disk

/-- Other failures are queued again, without their partial products. -/
def retried : Desk :=
  { d with
    processingRuns := d.processingRuns.map (d.retriedRow cfg)
    disk := d.cleared (d.processingRuns.filter (d.retries cfg)) }

/-- `PLANNED` observations get a worker. -/
def resumed : Desk :=
  let keys := (d.observations.filter fun o => o.state == .planned).map (·.id)
  { d with ctl := d.ctl.tracked .observe keys }

/-- Some observation is `PLANNED` or `OBSERVING`. -/
def busy : Bool := d.observations.any fun o => Db.countsReserved o.state

def capacity : Bool := cfg.maxObservations.all fun n => decide (d.observations.length < n)

/-- The bytes that quarantine and trash are charged. -/
def charged : Nat × Nat := d.disk.charged d.ctl.cache

def used : Nat := ((d.observations.filter fun o => Db.countsUsed o.state).map (·.sizeBytes)).sum

def reserved : Nat :=
  ((d.observations.filter fun o => Db.countsReserved o.state).map (·.reservedBytes)).sum

def room : Bool :=
  decide (d.used + d.reserved + d.charged.1 + d.charged.2 + cfg.observationReservation ≤
    cfg.storageThreshold)

/-- The sizes that admission looked at are remembered. -/
def remembered : Desk :=
  { d with ctl := { d.ctl with cache := some (d.disk.signature, d.charged) } }

def planned : Observation where
  id := d.obsSeq + 1
  state := .planned
  msPath := msPathOf (d.obsSeq + 1)
  sizeBytes := 0
  reservedBytes := cfg.observationReservation
  error := none

def opened : Desk :=
  { d with
    observations := d.observations ++ [d.planned cfg]
    obsSeq := d.obsSeq + 1
    ctl := d.ctl.track .observe (d.obsSeq + 1) }

/-- Admission: one observation at a time, within the campaign and the threshold. -/
def admitted : Desk :=
  if d.busy || !d.capacity cfg then d
  else if d.room cfg then d.remembered.opened cfg
  else d.remembered

/-- Stored data for which no run was ever made. -/
def unprocessed (o : Observation) : Bool :=
  o.state == .stored && d.processingRuns.all fun r => r.observationId != o.id

def firstRun (id oid : Nat) : ProcessingRun where
  id := id
  observationId := oid
  attempt := 1
  state := .queued
  outputPrefix := outputDir oid 1 ++ ["product"]
  logPath := processLog oid 1
  exitCode := none
  qaVerdict := none
  qaNote := none
  retryExhausted := false

def entered (os : List Observation) : Desk :=
  { d with
    processingRuns := d.processingRuns ++
      os.mapIdx fun i o => firstRun (d.runSeq + 1 + i) o.id
    runSeq := d.runSeq + os.length }

def provided : Desk := d.entered (d.observations.filter d.unprocessed)

def spawned : Desk :=
  let keys := (d.processingRuns.filter fun r => r.state == .queued).map (·.id)
  { d with ctl := d.ctl.tracked .process keys }

def ticked : Desk :=
  (((((d.swept.failed.exhausted cfg).retried cfg).resumed).admitted cfg).provided).spawned

end Desk
end Sdpctl
