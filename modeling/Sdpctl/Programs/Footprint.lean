import Sdpctl.Coop.Solo
import Sdpctl.Scheduler

/-!
Which operations the programs can perform at all. Most of them neither start
anything nor touch the slots, and bring nothing to `observations/`.
-/

namespace Sdpctl

open FileTree Coop

/-- The operation starts no runner of an observation and no processing worker, leaves
the slots alone, does not begin `_retry_failed_runs` and does not ask for queued runs;
what it moves or makes is in quarantine or trash. -/
def Op.plain : Op → Prop
  | .startObserve _ _ _ | .trackProcess _ | .acquire | .release => False
  | .db (.markExhaustedFailedRuns _) | .db (.listRuns [.queued]) => False
  | .rename _ q => (∃ label, q = quarantineEntry label) ∨ ∃ oid, q = trashPath oid
  | .mkdir p => p = quarantineRoot ∨ p = trashRoot
  | _ => True

def Op.disposes : Op → Prop
  | .db (.getObservation _) | .db (.transitionObservation _ _ _ _ _ _ _) => True
  | .exists_ _ | .isDir _ | .resolve _ | .rmtree _ | .unlink _ | .cachePop => True
  | .rename _ q => ∃ oid, q = trashPath oid
  | .mkdir p => p = trashRoot
  | _ => False

theorem Op.disposes.plain {o : Op} (h : o.disposes) : o.plain := by
  cases o with
  | db q => cases q <;> first | exact trivial | exact h.elim
  | rename => exact .inr h
  | mkdir => exact .inr h
  | _ => first | exact trivial | exact h.elim

/-- The operations with which an observation is given up: its runner is stopped, its data
goes to quarantine, its row fails or the log says why not. -/
def Op.retires : Op → Prop
  | .db (.getObservation _) | .db (.recordEvent _ _ _) => True
  | .db (.transitionObservation _ _ new _ _ _ _) => new = .observeFailed
  | .exists_ _ | .entryCount _ | .diverge | .resolve _ | .cachePop | .swallow _ _ => True
  | .rename _ q => ∃ label, q = quarantineEntry label
  | .mkdir p => p = quarantineRoot
  | .abortObservation _ | .runnerDone _ | .waitRunner _ | .cancelRunner _ | .joinRunner _ => True
  | _ => False

theorem Op.retires.plain {o : Op} (h : o.retires) : o.plain := by
  cases o with
  | db q => cases q <;> first | exact trivial | exact h.elim
  | rename => exact .inl h
  | mkdir => exact .inl h
  | _ => first | exact trivial | exact h.elim

def Op.walks : Op → Prop
  | .exists_ _ | .isFile _ | .statSize _ | .rglob _ => True
  | _ => False

def Op.measures : Op → Prop
  | .exists_ _ | .isFile _ | .statSize _ => True
  | _ => False

theorem Op.measures.walks {o : Op} (h : o.measures) : o.walks := by
  cases o <;> first | exact trivial | exact h.elim

/-- The operations of the search for a free name in quarantine. -/
def Op.seeks : Op → Prop
  | .exists_ _ | .entryCount _ | .diverge => True
  | _ => False

theorem Op.seeks.retires {o : Op} (h : o.seeks) : o.retires := by
  cases o <;> first | exact trivial | exact h.elim

theorem uses_plain {α : Type} {p : M α} (h : p.Uses Op.retires) : p.Uses Op.plain :=
  h.mono fun _ => Op.retires.plain

section Storage

theorem childSize_measures (total : Nat) (child : Path) :
    (childSize total child).Uses Op.measures := by
  refine Prog.uses_catchAll ?_ fun e => ?_
  · refine Prog.uses_bind (Prog.uses_call trivial) fun _ => Prog.uses_ite ?_ trivial
    exact Prog.uses_bind (Prog.uses_call trivial) fun _ => trivial
  · cases e <;> exact trivial

theorem childSize_walks (total : Nat) (child : Path) : (childSize total child).Uses Op.walks :=
  (childSize_measures total child).mono fun _ => Op.measures.walks

theorem apparentSize_walks (p : Path) : (apparentSize p).Uses Op.walks := by
  refine Prog.uses_bind (Prog.uses_call trivial) fun _ => Prog.uses_ite trivial ?_
  refine Prog.uses_bind (Prog.uses_call trivial) fun _ => Prog.uses_ite (Prog.uses_call trivial) ?_
  exact Prog.uses_bind (Prog.uses_call trivial) fun _ => Prog.uses_foldEach childSize_walks _

theorem apparentSize_plain (p : Path) : (apparentSize p).Uses Op.plain :=
  (apparentSize_walks p).mono fun o h => by
    cases o <;> first | exact trivial | exact h.elim

theorem mtimeOrMissing_plain (p : Path) : (mtimeOrMissing p).Uses Op.plain := by
  refine Prog.uses_bind (Prog.uses_call trivial) fun _ => Prog.uses_ite ?_ trivial
  exact Prog.uses_bind (Prog.uses_call trivial) fun _ => trivial

theorem invalidateAuxiliaryCache_disposes : invalidateAuxiliaryCache.Uses Op.disposes :=
  Prog.uses_bind (Prog.uses_call trivial) fun _ => Prog.uses_call trivial

theorem invalidateAuxiliaryCache_retires : invalidateAuxiliaryCache.Uses Op.retires :=
  Prog.uses_bind (Prog.uses_call trivial) fun _ => Prog.uses_call trivial

theorem auxiliaryChargedStorage_plain (force : Bool) :
    (auxiliaryChargedStorage force).Uses Op.plain := by
  have hwalk : ∀ sig : Int × Int, (do
      let q ← apparentSize quarantineRoot
      let t ← apparentSize trashRoot
      call (.cachePut (sig, (q, t)))
      return (q, t) : M (Nat × Nat)).Uses Op.plain := fun sig =>
    Prog.uses_bind (apparentSize_plain _) fun _ => Prog.uses_bind (apparentSize_plain _) fun _ =>
      Prog.uses_bind (Prog.uses_call trivial) fun _ => trivial
  have hsignature : mtimeSignature.Uses Op.plain :=
    Prog.uses_bind (mtimeOrMissing_plain _) fun _ =>
      Prog.uses_bind (mtimeOrMissing_plain _) fun _ => trivial
  refine Prog.uses_bind (Prog.uses_call trivial) fun _ => Prog.uses_bind hsignature fun sig => ?_
  refine Prog.uses_bind (Prog.uses_call trivial) fun cached => ?_
  cases cached with
  | none => exact hwalk sig
  | some e => exact Prog.uses_ite trivial (hwalk sig)

theorem searchTarget_seeks (label : String) (fuel n : Nat) :
    (searchTarget label fuel n).Uses Op.seeks := by
  induction fuel generalizing n with
  | zero => exact Prog.uses_bind (Prog.uses_call trivial) fun _ => trivial
  | succ fuel ih =>
    exact Prog.uses_bind (Prog.uses_call trivial) fun _ => Prog.uses_ite trivial (ih (n + 1))

theorem uniqueQuarantineTarget_seeks (label : String) :
    (uniqueQuarantineTarget label).Uses Op.seeks :=
  Prog.uses_bind (Prog.uses_call trivial) fun _ => Prog.uses_ite trivial
    (Prog.uses_bind (Prog.uses_call trivial) fun _ => searchTarget_seeks label _ 1)

theorem searchTarget_entry (label : String) (fuel n : Nat) :
    (searchTarget label fuel n).Returns fun q => ∃ name, q = quarantineEntry name := by
  induction fuel generalizing n with
  | zero => exact Prog.returns_after fun _ => trivial
  | succ fuel ih =>
    exact Prog.returns_after fun _ => Prog.returns_ite ⟨_, rfl⟩ (ih (n + 1))

/-- What `_unique_quarantine_target` returns is an entry of quarantine. -/
theorem uniqueQuarantineTarget_entry (label : String) :
    (uniqueQuarantineTarget label).Returns fun q => ∃ name, q = quarantineEntry name :=
  Prog.returns_after fun _ => Prog.returns_ite ⟨_, rfl⟩
    (Prog.returns_after fun _ => searchTarget_entry label _ 1)

theorem quarantinePath_retires (source : Path) (label : String) :
    (quarantinePath source label).Uses Op.retires := by
  refine Prog.uses_bind (Prog.uses_call trivial) fun _ => Prog.uses_ite trivial ?_
  refine Prog.uses_bind_returns ((uniqueQuarantineTarget_seeks label).mono fun _ =>
    Op.seeks.retires) (uniqueQuarantineTarget_entry label) ?_
  rintro _ ⟨name, rfl⟩
  refine Prog.uses_bind (Prog.uses_call rfl) fun _ => ?_
  refine Prog.uses_bind (Prog.uses_call ⟨name, rfl⟩) fun _ => ?_
  exact Prog.uses_bind invalidateAuxiliaryCache_retires fun _ => trivial

theorem quarantinePath_plain (source : Path) (label : String) :
    (quarantinePath source label).Uses Op.plain := uses_plain (quarantinePath_retires _ _)

theorem removeTree_disposes (p : Path) : (removeTree p).Uses Op.disposes :=
  Prog.uses_bind (Prog.uses_call trivial) fun _ =>
    Prog.uses_ite (Prog.uses_call trivial) (Prog.uses_call trivial)

theorem finishObservationDeletion_disposes (oid : Nat) :
    (finishObservationDeletion oid).Uses Op.disposes := by
  refine Prog.uses_bind (Prog.uses_call trivial) fun obs => Prog.uses_ite trivial ?_
  refine Prog.uses_bind (Prog.uses_call rfl) fun _ => ?_
  refine Prog.uses_bind ?_ fun _ => Prog.uses_bind ?_ fun _ => Prog.uses_call trivial
  · refine Prog.uses_bind (Prog.uses_call trivial) fun _ => Prog.uses_ite ?_ trivial
    refine Prog.uses_bind (Prog.uses_call trivial) fun _ => Prog.uses_ite trivial ?_
    exact Prog.uses_bind (Prog.uses_call ⟨obs.id, rfl⟩) fun _ => invalidateAuxiliaryCache_disposes
  · refine Prog.uses_bind (Prog.uses_call trivial) fun _ => Prog.uses_ite ?_ trivial
    exact Prog.uses_bind (removeTree_disposes _) fun _ => invalidateAuxiliaryCache_disposes

theorem forceDropObservationData_disposes (oid : Nat) (reason : String) :
    (forceDropObservationData oid reason).Uses Op.disposes := by
  refine Prog.uses_bind (Prog.uses_call trivial) fun obs => Prog.uses_ite trivial ?_
  refine Prog.uses_bind (Prog.uses_forEach fun p => ?_) fun _ => ?_
  · exact Prog.uses_bind (Prog.uses_call trivial) fun _ =>
      Prog.uses_ite (removeTree_disposes p) trivial
  · exact Prog.uses_bind invalidateAuxiliaryCache_disposes fun _ => Prog.uses_call trivial

theorem quarantineIfExists_retires (p : Path) (label : String) :
    (quarantineIfExists p label).Uses Op.retires :=
  Prog.uses_bind (Prog.uses_call trivial) fun _ =>
    Prog.uses_ite (Prog.uses_bind (quarantinePath_retires p label) fun _ => trivial) trivial

theorem removeIfExists_plain (p : Path) : (removeIfExists p).Uses Op.plain :=
  Prog.uses_bind (Prog.uses_call trivial) fun _ => Prog.uses_ite (Prog.uses_call trivial) trivial

theorem suppressTransitionError_uses {φ : Op → Prop} {p : M Unit} (hp : p.Uses φ) :
    (suppressTransitionError p).Uses φ := by
  refine Prog.uses_catchAll hp fun e => ?_
  cases e <;> exact trivial

end Storage

section Reconcile

theorem recordObservationRecoveryFailure_plain (oid : Nat) (e : Exn) (context : String) :
    (recordObservationRecoveryFailure oid e context).Uses Op.plain :=
  Prog.uses_finallyDo (Prog.uses_call trivial) (Prog.uses_call trivial)

theorem recoverObservation_plain (obs : Observation) : (recoverObservation obs).Uses Op.plain :=
  Prog.uses_catchAll
    (Prog.uses_bind (uses_plain (quarantineIfExists_retires _ _)) fun _ =>
      Prog.uses_call trivial)
    fun _ => recordObservationRecoveryFailure_plain _ _ _

theorem recoverRun_plain (run : ProcessingRun) : (recoverRun run).Uses Op.plain :=
  Prog.uses_catchAll
    (Prog.uses_bind (removeIfExists_plain _) fun _ => Prog.uses_call trivial)
    fun _ => Prog.uses_call trivial

theorem repairAccepted_plain (obs : Observation) : (repairAccepted obs).Uses Op.plain := by
  refine Prog.uses_catchAll ?_ fun _ => recordObservationRecoveryFailure_plain _ _ _
  refine Prog.uses_bind (Prog.uses_call trivial) fun _ => Prog.uses_ite ?_ trivial
  exact Prog.uses_bind (Prog.uses_call trivial) fun _ =>
    Prog.uses_ite (Prog.uses_call trivial) trivial

theorem resumeDeletion_plain (obs : Observation) : (resumeDeletion obs).Uses Op.plain :=
  Prog.uses_catchAll ((finishObservationDeletion_disposes _).mono fun _ => Op.disposes.plain)
    fun _ => recordObservationRecoveryFailure_plain _ _ _

theorem verifyStored_plain (obs : Observation) : (verifyStored obs).Uses Op.plain := by
  refine Prog.uses_catchAll ?_ fun _ => recordObservationRecoveryFailure_plain _ _ _
  exact Prog.uses_bind (Prog.uses_call trivial) fun _ =>
    Prog.uses_ite (Prog.uses_call trivial) trivial

theorem scanOrphans_plain : scanOrphans.Uses Op.plain := by
  refine Prog.uses_bind (Prog.uses_call trivial) fun _ => ?_
  refine Prog.uses_bind (Prog.uses_foldEach (fun _ _ => ?_) _) fun known => ?_
  · exact Prog.uses_bind (Prog.uses_call trivial) fun _ => trivial
  refine Prog.uses_bind (Prog.uses_call trivial) fun _ => Prog.uses_ite ?_ trivial
  refine Prog.uses_bind (Prog.uses_call trivial) fun _ => Prog.uses_forEach fun name => ?_
  refine Prog.uses_bind (Prog.uses_call trivial) fun _ => Prog.uses_ite trivial ?_
  exact Prog.uses_catchAll (Prog.uses_bind (quarantinePath_plain _ _) fun _ => trivial)
    fun _ => Prog.uses_call trivial

theorem startupReconcile_plain : (startupReconcile (call .killManaged)).Uses Op.plain := by
  refine Prog.uses_bind (Prog.uses_call trivial) fun _ => ?_
  refine Prog.uses_bind (Prog.uses_call trivial) fun _ =>
    Prog.uses_bind (Prog.uses_forEach recoverObservation_plain) fun _ => ?_
  refine Prog.uses_bind (Prog.uses_call trivial) fun _ =>
    Prog.uses_bind (Prog.uses_forEach recoverRun_plain) fun _ => ?_
  refine Prog.uses_bind (Prog.uses_call trivial) fun _ =>
    Prog.uses_bind (Prog.uses_forEach repairAccepted_plain) fun _ => ?_
  refine Prog.uses_bind (Prog.uses_call trivial) fun _ =>
    Prog.uses_bind (Prog.uses_forEach resumeDeletion_plain) fun _ => ?_
  refine Prog.uses_bind (Prog.uses_call trivial) fun _ =>
    Prog.uses_bind (Prog.uses_forEach verifyStored_plain) fun _ => ?_
  exact scanOrphans_plain

end Reconcile

section Observe

theorem stopObservationRunner_retires (oid : Nat) (handle : Option Nat) :
    (stopObservationRunner oid handle).Uses Op.retires := by
  refine Prog.uses_bind (Prog.uses_catchAll (Prog.uses_call trivial) fun _ => trivial) fun _ => ?_
  cases handle with
  | none => exact trivial
  | some h =>
    refine Prog.uses_bind (Prog.uses_call trivial) fun _ => Prog.uses_ite trivial ?_
    refine Prog.uses_catchAll (Prog.uses_bind (Prog.uses_call trivial) fun _ => trivial) fun _ => ?_
    refine Prog.uses_bind (Prog.uses_call trivial) fun _ => Prog.uses_ite trivial ?_
    exact Prog.uses_bind (Prog.uses_call trivial) fun _ => Prog.uses_call trivial

theorem quarantineSuppressed_retires (p : Path) (label : String) :
    (quarantineSuppressed p label).Uses Op.retires := by
  refine Prog.uses_bind (Prog.uses_call trivial) fun _ => Prog.uses_ite ?_ trivial
  exact Prog.uses_catchAll (Prog.uses_bind (quarantinePath_retires p label) fun _ => trivial)
    fun _ => Prog.uses_call trivial

theorem failObservation_retires (oid : Nat) (reason error : String) :
    (failObservation oid reason error).Uses Op.retires := by
  have hfind : (findObservation oid).Uses Op.retires := by
    refine Prog.uses_catchAll (Prog.uses_bind (Prog.uses_call trivial) fun _ => trivial) fun e => ?_
    cases e <;> exact trivial
  refine Prog.uses_bind hfind fun found => ?_
  cases found with
  | none => exact trivial
  | some obs =>
    refine Prog.uses_ite ?_ (Prog.uses_ite ?_ (Prog.uses_call trivial))
    · exact Prog.uses_bind (quarantineSuppressed_retires _ _) fun _ =>
        suppressTransitionError_uses (Prog.uses_call rfl)
    · exact suppressTransitionError_uses (Prog.uses_call rfl)

/-- The handler of `_observe`: the runner is stopped, and the observation fails. -/
theorem observeHandler_retires (oid : Nat) (handle : Option Nat) (reason error : String) :
    (do
      stopObservationRunner oid handle
      failObservation oid reason error
      return none : M (Option Entry)).Uses Op.retires :=
  Prog.uses_bind (stopObservationRunner_retires oid handle) fun _ =>
    Prog.uses_bind (failObservation_retires _ _ _) fun _ => trivial

theorem endTask_plain {task : Nat} {body : M (Option Entry)} (h : body.Uses Op.plain) :
    (endTask task body).Uses Op.plain := by
  refine Prog.uses_bind (Prog.uses_catchAll h fun _ => ?_) fun next => ?_
  · exact Prog.uses_bind (Prog.uses_call trivial) fun _ => trivial
  · cases next with
    | none => exact Prog.uses_bind (Prog.uses_call trivial) fun _ => trivial
    | some n => exact trivial

theorem observeGuard_plain {oid : Nat} {handle : Option Nat} {body : M (Option Entry)}
    (h : body.Uses Op.plain) : (observeGuard oid handle body).Uses Op.plain :=
  Prog.uses_catchAll h fun _ => uses_plain (observeHandler_retires oid handle _ _)

theorem failObserving_retires (oid : Nat) (msPath : Path) (suffix reason error : String) :
    (failObserving oid msPath suffix reason error).Uses Op.retires :=
  Prog.uses_bind (quarantineIfExists_retires _ _) fun _ => Prog.uses_call rfl

theorem watchTurn_plain (cfg : Config) (task oid handle : Nat) (msPath : Path) (warned : Bool) :
    (watchTurn cfg task oid handle msPath warned).Uses Op.plain := by
  have hfail : ∀ suffix reason error,
      (failObserving oid msPath suffix reason error).Uses Op.plain :=
    fun _ _ _ => uses_plain (failObserving_retires _ _ _ _ _)
  refine Prog.uses_bind (Prog.uses_call trivial) fun _ => Prog.uses_ite ?_ ?_
  · refine Prog.uses_bind ?_ fun _ => trivial
    refine Prog.uses_bind (Prog.uses_call trivial) fun _ => Prog.uses_ite (hfail _ _ _) ?_
    refine Prog.uses_bind (apparentSize_plain _) fun _ =>
      Prog.uses_ite (Prog.uses_call trivial) (Prog.uses_ite (hfail _ _ _) ?_)
    exact Prog.uses_bind (Prog.uses_call trivial) fun _ => Prog.uses_call trivial
  · refine Prog.uses_bind (Prog.uses_call trivial) fun _ =>
      Prog.uses_bind (apparentSize_plain _) fun _ => Prog.uses_ite trivial (Prog.uses_ite ?_
        (Prog.uses_ite trivial (Prog.uses_bind (Prog.uses_call trivial) fun _ => trivial)))
    exact Prog.uses_bind (uses_plain (stopObservationRunner_retires _ _)) fun _ =>
      Prog.uses_bind (hfail _ _ _) fun _ => trivial

end Observe

section Process

theorem processRun_plain (rid : Nat) : (processRun rid).Uses Op.plain := by
  have hclaim : (claimRun rid).Uses Op.plain := by
    refine Prog.uses_catchAll (Prog.uses_bind (Prog.uses_call trivial) fun _ => trivial) fun e => ?_
    cases e <;> exact trivial
  refine Prog.uses_bind (Prog.uses_call trivial) fun run => Prog.uses_bind hclaim fun _ =>
    Prog.uses_ite ?_ trivial
  refine Prog.uses_bind (Prog.uses_call trivial) fun _ =>
    Prog.uses_bind (Prog.uses_call trivial) fun _ =>
      Prog.uses_bind (Prog.uses_call trivial) fun _ => Prog.uses_ite (Prog.uses_call trivial) ?_
  refine Prog.uses_bind (Prog.uses_call trivial) fun _ =>
    Prog.uses_ite (Prog.uses_bind ?_ fun _ => Prog.uses_call trivial) (Prog.uses_call trivial)
  exact Prog.uses_catchAll (Prog.uses_bind (Prog.uses_call trivial) fun _ => trivial) fun _ =>
    Prog.uses_bind (Prog.uses_call trivial) fun _ => trivial

theorem failProcess_plain (rid : Nat) (e : Exn) : (failProcess rid e).Uses Op.plain := by
  have hfind : (findRun rid).Uses Op.plain := by
    refine Prog.uses_catchAll (Prog.uses_bind (Prog.uses_call trivial) fun _ => trivial) fun e => ?_
    cases e <;> exact trivial
  refine Prog.uses_bind hfind fun found => ?_
  cases found with
  | none => exact trivial
  | some run =>
    have hfail : ∀ expected reason code,
        (suppressTransitionError (store (.transitionRun rid expected .failed reason code))).Uses
          Op.plain := fun _ _ _ => suppressTransitionError_uses (Prog.uses_call trivial)
    exact Prog.uses_ite (hfail _ _ _) (Prog.uses_ite (hfail _ _ _) (Prog.uses_call trivial))

end Process

section Commands

/-- The operations of a command: the looks of a review, the verdict that the command is
for, and those of a deletion. -/
def Command.performs (c : Command) : Op → Prop
  | .db (.getRun _) | .db (.hasOtherActiveRuns _ _) => True
  | .db (.acceptRunAndBeginDeletion _ _) => ∃ rid note, c = .accept rid note
  | .db (.reprocessRunAndCreate _ _ _ _) => ∃ rid note, c = .reprocess rid note
  | .db (.discardFailedRunAndBeginDeletion _ _) => ∃ rid note, c = .discard rid note
  | o => o.disposes

theorem Op.disposes.performs {o : Op} (h : o.disposes) (c : Command) : c.performs o := by
  cases o with
  | db q => cases q <;> first | exact h | exact trivial | exact h.elim
  | _ => exact h

theorem Command.performs_plain {c : Command} {o : Op} (h : c.performs o) : o.plain := by
  cases o with
  | db q => cases q <;> first | exact trivial | exact h.elim
  | _ => exact Op.disposes.plain h

theorem review_performs (c : Command) {α : Type} {rid : Nat} {wrong : ProcessingRun → Prop}
    [DecidablePred wrong] {onRun onObservation onData onOthers : String}
    {rest : ProcessingRun → Observation → M α} (h : ∀ run obs, (rest run obs).Uses c.performs) :
    (review rid wrong onRun onObservation onData onOthers rest).Uses c.performs := by
  refine Prog.uses_bind (Prog.uses_call trivial) fun run => Prog.uses_ite trivial ?_
  refine Prog.uses_bind (Prog.uses_call trivial) fun obs => Prog.uses_ite trivial ?_
  refine Prog.uses_bind (Prog.uses_call trivial) fun _ => Prog.uses_ite trivial ?_
  exact Prog.uses_bind (Prog.uses_call trivial) fun _ => Prog.uses_ite trivial (h run obs)

theorem command_uses (c : Command) : c.body.Uses c.performs := by
  have hdisposes : ∀ {α : Type} {p : M α}, p.Uses Op.disposes → p.Uses c.performs :=
    fun h => h.mono fun _ ho => ho.performs c
  cases c with
  | accept rid note =>
    exact review_performs _ fun _ _ => Prog.uses_bind (Prog.uses_call ⟨rid, note, rfl⟩) fun _ =>
      hdisposes (finishObservationDeletion_disposes _)
  | reprocess rid note =>
    exact Prog.uses_bind (review_performs _ fun _ _ => Prog.uses_call ⟨rid, note, rfl⟩)
      fun _ => trivial
  | discard rid note =>
    exact review_performs _ fun _ _ => Prog.uses_bind (Prog.uses_call ⟨rid, note, rfl⟩) fun _ =>
      hdisposes (finishObservationDeletion_disposes _)
  | resolve oid => exact hdisposes (forceDropObservationData_disposes _ _)
  | purge name =>
    refine Prog.uses_bind (Prog.uses_call trivial) fun _ => Prog.uses_ite trivial (hdisposes ?_)
    exact Prog.uses_bind (removeTree_disposes _) fun _ => invalidateAuxiliaryCache_disposes

theorem command_plain (c : Command) : c.body.Uses Op.plain :=
  (command_uses c).mono fun _ => Command.performs_plain

end Commands

section Tick

/-- The operation is plain, or one with which a tick starts workers. -/
def Op.ticks (o : Op) : Prop :=
  o.plain ∨ (∃ rid, o = .trackProcess rid) ∨ (∃ m, o = .db (.markExhaustedFailedRuns m)) ∨
    o = .db (.listRuns [.queued])

theorem Op.plain.ticks {o : Op} (h : o.plain) : o.ticks := .inl h

theorem uses_ticks {α : Type} {p : M α} (h : p.Uses Op.plain) : p.Uses Op.ticks :=
  h.mono fun _ => Op.plain.ticks

theorem sweepObservation_plain (obs : Observation) : (sweepObservation obs).Uses Op.plain := by
  refine Prog.uses_bind (Prog.uses_call trivial) fun _ => Prog.uses_ite trivial ?_
  exact Prog.uses_bind (uses_plain (quarantineSuppressed_retires _ _)) fun _ =>
    suppressTransitionError_uses (Prog.uses_call trivial)

theorem retryRun_plain (cfg : Config) (candidate : ProcessingRun × Nat) :
    (retryRun cfg candidate).Uses Op.plain := by
  refine Prog.uses_bind (Prog.uses_catchAll ?_ fun _ => ?_) fun _ =>
    Prog.uses_ite (suppressTransitionError_uses (Prog.uses_call trivial)) trivial
  · exact Prog.uses_bind (removeIfExists_plain _) fun _ => trivial
  · exact Prog.uses_bind (Prog.uses_call trivial) fun _ => trivial

theorem admitObservation_plain (cfg : Config) : (admitObservation cfg).Uses Op.plain := by
  have hcapacity : (campaignHasCapacity cfg).Uses Op.plain := by
    unfold campaignHasCapacity
    split
    · exact trivial
    · exact Prog.uses_bind (Prog.uses_call trivial) fun _ => trivial
  have hadmit : (canAdmit cfg).Uses Op.plain :=
    Prog.uses_bind (Prog.uses_call trivial) fun _ =>
      Prog.uses_bind (auxiliaryChargedStorage_plain _) fun _ => trivial
  refine Prog.uses_bind (Prog.uses_call trivial) fun _ => Prog.uses_ite ?_ trivial
  refine Prog.uses_bind hcapacity fun _ => Prog.uses_ite ?_ trivial
  refine Prog.uses_bind hadmit fun _ => Prog.uses_ite ?_ trivial
  exact Prog.uses_bind (Prog.uses_call trivial) fun _ => Prog.uses_call trivial

theorem sweepRun_plain (run : ProcessingRun) : (sweepRun run).Uses Op.plain :=
  Prog.uses_bind (Prog.uses_call trivial) fun _ =>
    Prog.uses_ite trivial (suppressTransitionError_uses (Prog.uses_call trivial))

theorem sweep_plain : sweepOrphanedInprocessStates.Uses Op.plain :=
  Prog.uses_bind (Prog.uses_call trivial) fun _ =>
    Prog.uses_bind (Prog.uses_forEach sweepObservation_plain) fun _ =>
      Prog.uses_bind (Prog.uses_call trivial) fun _ => Prog.uses_forEach sweepRun_plain

theorem resumePlanned_plain (obs : Observation) : (resumePlanned obs).Uses Op.plain :=
  Prog.uses_bind (Prog.uses_call trivial) fun _ => Prog.uses_ite trivial (Prog.uses_call trivial)

theorem createInitialRun_plain (oid : Nat) : (createInitialRun oid).Uses Op.plain :=
  Prog.uses_bind (Prog.uses_call trivial) fun _ => trivial

def afterSweep (cfg : Config) : M Unit := do
  retryFailedRuns cfg
  let planned ← store (.listObservations [.planned])
  Prog.forEach planned resumePlanned
  admitObservation cfg
  let missing ← store .listStoredObservationsWithoutRuns
  Prog.forEach missing fun obs => createInitialRun obs.id
  let queued ← store (.listRuns [.queued])
  Prog.forEach queued spawnRun
  call (.tickReturned (queued.map (·.id)))

theorem tick_eq (cfg : Config) :
    tick cfg = sweepOrphanedInprocessStates.bind fun _ => afterSweep cfg := rfl

theorem afterSweep_ticks (cfg : Config) : (afterSweep cfg).Uses Op.ticks := by
  have hcall : ∀ {o : Op}, o.plain → (call o).Uses Op.ticks := fun h => Prog.uses_call h.ticks
  refine Prog.uses_bind ?_ fun _ => ?_
  · refine Prog.uses_bind (Prog.uses_call (.inr (.inr (.inl ⟨_, rfl⟩)))) fun _ => ?_
    refine Prog.uses_bind (hcall trivial) fun _ => Prog.uses_forEach fun candidate => ?_
    exact uses_ticks (retryRun_plain cfg candidate)
  refine Prog.uses_bind (hcall trivial) fun _ =>
    Prog.uses_bind (Prog.uses_forEach fun obs => uses_ticks (resumePlanned_plain obs)) fun _ => ?_
  refine Prog.uses_bind (uses_ticks (admitObservation_plain cfg)) fun _ => ?_
  refine Prog.uses_bind (hcall trivial) fun _ => Prog.uses_bind
    (Prog.uses_forEach fun obs => uses_ticks (createInitialRun_plain obs.id)) fun _ => ?_
  refine Prog.uses_bind (Prog.uses_call (.inr (.inr (.inr rfl)))) fun _ =>
    Prog.uses_bind (Prog.uses_forEach fun run => ?_) fun _ => hcall trivial
  exact Prog.uses_bind (hcall trivial) fun _ =>
    Prog.uses_ite trivial (Prog.uses_call (.inr (.inl ⟨_, rfl⟩)))

theorem tick_ticks (cfg : Config) : (tick cfg).Uses Op.ticks := by
  rw [tick_eq]
  exact Prog.uses_bind (uses_ticks sweep_plain) fun _ => afterSweep_ticks cfg

end Tick

end Sdpctl
