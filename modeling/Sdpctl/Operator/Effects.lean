import Sdpctl.Restart.Outcome

/-!
The commands of the operator as changes of rows and files. Each has a condition on
the rows and files it finds, and a change that it makes when the condition holds.
Nothing here speaks of programs.
-/

namespace Sdpctl

open FileTree Coop

/-- At some places nothing is left, and everything else is as it was. -/
structure Disk.Cleared (d d' : Disk) (ps : List Path) : Prop where
  gone : ∀ p ∈ ps, d'.get? p = none
  elsewhere : ∀ q, (∀ p ∈ ps, Apart q p) → d'.get? q = d.get? q

/-- The row of an observation whose data has been removed. -/
def Observation.removed (o : Observation) (error : Option String) : Observation :=
  { o with state := .deleted, sizeBytes := 0, reservedBytes := 0, error := error <|> o.error }

/-- The run that follows another one at the operator's request. -/
def ProcessingRun.successor (q : ProcessingRun) (id : Nat) : ProcessingRun :=
  { id, observationId := q.observationId, attempt := q.attempt + 1, state := .queued,
    outputPrefix := outputDir q.observationId (q.attempt + 1) ++ ["product"],
    logPath := processLog q.observationId (q.attempt + 1), exitCode := none, qaVerdict := none,
    qaNote := none, retryExhausted := false }

namespace Estate

/-- The run `q` is in one of the states that a verdict needs, and the data of its
observation `o` is there. -/
structure Awaits (E : Estate) (rid : Nat) (states : List RunState) (q : ProcessingRun)
    (o : Observation) : Prop where
  run : E.run? rid = some q
  state : q.state ∈ states
  obs : E.obs? q.observationId = some o
  stored : o.state = .stored
  data : E.disk.has o.msPath = true

/-- The data of `o` is gone from both sides of the rename, and its row says so. -/
structure Removes (E F : Estate) (o : Observation) (error : Option String) : Prop where
  observations : F.observations = (E.putObs (o.removed error)).observations
  disk : E.disk.Cleared F.disk [o.msPath, trashPath o.id]

/-- A run gets the verdict with which its observation is given up. -/
def Releases (E F : Estate) (rid : Nat) (before after : RunState) (verdict note : String) : Prop :=
  ∃ q o, E.Awaits rid [before] q o ∧ E.Removes F o none ∧
    F.processingRuns = (E.putRun (Db.judged q after verdict note)).processingRuns

/-- A run gets the verdict with which another one follows it. -/
def Reprocesses (E F : Estate) (rid : Nat) (note : String) : Prop :=
  ∃ q o id, E.Awaits rid [.awaitingQa, .failed] q o ∧ (∀ x ∈ E.processingRuns, x.id < id) ∧
    F.processingRuns =
      (E.putRun (Db.judged q .superseded "reprocess" note)).processingRuns ++ [q.successor id] ∧
    F.observations = E.observations ∧ F.disk = E.disk

end Estate

def Command.Ready (E : Estate) : Command → Prop
  | .accept rid _ => ∃ q o, E.Awaits rid [.awaitingQa] q o
  | .reprocess rid _ => ∃ q o, E.Awaits rid [.awaitingQa, .failed] q o
  | .discard rid _ => ∃ q o, E.Awaits rid [.failed] q o
  | .resolve oid => ∃ o, E.obs? oid = some o ∧ (o.state = .deleting ∨ o.state = .inconsistent)
  | .purge name => E.disk.has (quarantineEntry name) = true

def Command.Makes (E F : Estate) : Command → Prop
  | .accept rid note => E.Releases F rid .awaitingQa .accepted "accept" note
  | .reprocess rid note => E.Reprocesses F rid note
  | .discard rid note => E.Releases F rid .failed .discarded "discard" note
  | .resolve oid => ∃ o, E.obs? oid = some o ∧ F.processingRuns = E.processingRuns ∧
      E.Removes F o (some "operator resolved recovery inconsistency by dropping raw data")
  | .purge name => F.observations = E.observations ∧ F.processingRuns = E.processingRuns ∧
      E.disk.Cleared F.disk [quarantineEntry name]

section Removal

variable {d : Disk} {o : Observation} {n : String}

theorem Disk.cleared_deleted (hn : o.msPath = ["observations", n]) (hstands : d.Stands)
    (hfree : d.wedged o = false) : d.Cleared (d.deleted o) [o.msPath, trashPath o.id] where
  gone p hp := by
    obtain ⟨hlive, htrash⟩ := Disk.deleted_gone hn hstands hfree
    rcases List.mem_pair.mp hp with rfl | rfl
    · exact hlive
    · exact htrash
  elsewhere q hq := by
    have hlive : Apart q ["observations", n] := hn ▸ hq o.msPath (by simp)
    have htrash : Apart q (trashPath o.id) := hq (trashPath o.id) (by simp)
    rw [Disk.deleted_of_free hfree, Disk.emptied_apart htrash, hn]
    exact Disk.trashed_apart hlive htrash

theorem Disk.cleared_emptied {p q : Path} (hp : p ≠ []) (hq : q ≠ []) (hpq : Apart p q) :
    d.Cleared ((d.emptied p).emptied q) [p, q] where
  gone r hr := by
    rcases List.mem_pair.mp hr with rfl | rfl
    · rw [Disk.emptied_apart hpq]
      exact Disk.emptied_gone hp
    · exact Disk.emptied_gone hq
  elsewhere r hr := by
    rw [Disk.emptied_apart (hr q (by simp)), Disk.emptied_apart (hr p (by simp))]

end Removal

end Sdpctl
