import Sdpctl.Coop.Confined
import Sdpctl.Programs.Footprint
import Sdpctl.Programs.Sound
import Sdpctl.Store.Calls

/-!
What the programs write into the tables. A transition writes the columns that go with
its target state, and no program writes anything else; so what every such method keeps
holds of the tables of every reachable state.
-/

namespace Sdpctl

open FileTree Coop

/-- What a transition to the state writes into the columns of an observation. -/
def ObservationState.Writes (size reserved : Option Nat) (error : Option String) :
    ObservationState → Prop
  | .planned => False
  | .observing | .deleting => size = none ∧ reserved = none
  | .stored => reserved = some 0
  | .observeFailed => size = none ∧ reserved = some 0 ∧ error.isSome = true
  | .inconsistent => size = some 0 ∧ reserved = some 0 ∧ error.isSome = true
  | .deleted => size = some 0 ∧ reserved = some 0

/-- What a transition to the state writes into the columns of a run. -/
def RunState.Writes (code : Option Int) : RunState → Prop
  | .queued | .running => code = none
  | .awaitingQa => code = some 0
  | .failed => code.isSome = true
  | _ => False

/-- The method writes what goes with the target state. -/
def Query.Proper : Query → Prop
  | .transitionObservation _ _ new _ size reserved error => new.Writes size reserved error
  | .forceObservationFields _ reserved _ => reserved = none
  | .transitionRun _ _ new _ code => new.Writes code
  | _ => True

def Op.Proper : Op → Prop
  | .db q => q.Proper
  | _ => True

section Files

theorem Op.walks.proper {o : Op} (h : o.walks) : o.Proper := by
  cases o <;> first | exact trivial | exact h.elim

theorem Op.seeks.proper {o : Op} (h : o.seeks) : o.Proper := by
  cases o <;> first | exact trivial | exact h.elim

theorem apparentSize_proper (p : Path) : (apparentSize p).Uses Op.Proper :=
  (apparentSize_walks p).mono fun _ => Op.walks.proper

theorem invalidateAuxiliaryCache_proper : invalidateAuxiliaryCache.Uses Op.Proper :=
  Prog.uses_bind (Prog.uses_call trivial) fun _ => Prog.uses_call trivial

theorem auxiliaryChargedStorage_proper (force : Bool) :
    (auxiliaryChargedStorage force).Uses Op.Proper := by
  have hmtime : ∀ p, (mtimeOrMissing p).Uses Op.Proper := fun p =>
    Prog.uses_bind (Prog.uses_call trivial) fun _ => Prog.uses_ite
      (Prog.uses_bind (Prog.uses_call trivial) fun _ => trivial) trivial
  have hwalk : ∀ sig : Int × Int, (do
      let q ← apparentSize quarantineRoot
      let t ← apparentSize trashRoot
      call (.cachePut (sig, (q, t)))
      return (q, t) : M (Nat × Nat)).Uses Op.Proper := fun sig =>
    Prog.uses_bind (apparentSize_proper _) fun _ => Prog.uses_bind (apparentSize_proper _)
      fun _ => Prog.uses_bind (Prog.uses_call trivial) fun _ => trivial
  refine Prog.uses_bind (Prog.uses_call trivial) fun _ => Prog.uses_bind ?_ fun sig => ?_
  · exact Prog.uses_bind (hmtime _) fun _ => Prog.uses_bind (hmtime _) fun _ => trivial
  refine Prog.uses_bind (Prog.uses_call trivial) fun cached => ?_
  cases cached with
  | none => exact hwalk sig
  | some e => exact Prog.uses_ite trivial (hwalk sig)

theorem quarantinePath_proper (source : Path) (label : String) :
    (quarantinePath source label).Uses Op.Proper := by
  refine Prog.uses_bind (Prog.uses_call trivial) fun _ => Prog.uses_ite trivial ?_
  refine Prog.uses_bind ((uniqueQuarantineTarget_seeks label).mono fun _ => Op.seeks.proper)
    fun q => ?_
  refine Prog.uses_bind (Prog.uses_call trivial) fun _ => ?_
  refine Prog.uses_bind (Prog.uses_call trivial) fun _ => ?_
  exact Prog.uses_bind invalidateAuxiliaryCache_proper fun _ => trivial

theorem quarantineIfExists_proper (p : Path) (label : String) :
    (quarantineIfExists p label).Uses Op.Proper :=
  Prog.uses_bind (Prog.uses_call trivial) fun _ =>
    Prog.uses_ite (Prog.uses_bind (quarantinePath_proper p label) fun _ => trivial) trivial

theorem quarantineSuppressed_proper (p : Path) (label : String) :
    (quarantineSuppressed p label).Uses Op.Proper := by
  refine Prog.uses_bind (Prog.uses_call trivial) fun _ => Prog.uses_ite ?_ trivial
  exact Prog.uses_catchAll (Prog.uses_bind (quarantinePath_proper p label) fun _ => trivial)
    fun _ => Prog.uses_call trivial

theorem removeIfExists_proper (p : Path) : (removeIfExists p).Uses Op.Proper :=
  Prog.uses_bind (Prog.uses_call trivial) fun _ => Prog.uses_ite (Prog.uses_call trivial) trivial

theorem removeTree_proper (p : Path) : (removeTree p).Uses Op.Proper :=
  Prog.uses_bind (Prog.uses_call trivial) fun _ =>
    Prog.uses_ite (Prog.uses_call trivial) (Prog.uses_call trivial)

theorem suppressTransitionError_proper {p : M Unit} (hp : p.Uses Op.Proper) :
    (suppressTransitionError p).Uses Op.Proper := by
  refine Prog.uses_catchAll hp fun e => ?_
  cases e <;> exact trivial

end Files

section Deletion

theorem finishObservationDeletion_proper (oid : Nat) :
    (finishObservationDeletion oid).Uses Op.Proper := by
  refine Prog.uses_bind (Prog.uses_call trivial) fun obs => Prog.uses_ite trivial ?_
  refine Prog.uses_bind (Prog.uses_call trivial) fun _ => ?_
  refine Prog.uses_bind ?_ fun _ => Prog.uses_bind ?_ fun _ => Prog.uses_call ⟨rfl, rfl⟩
  · refine Prog.uses_bind (Prog.uses_call trivial) fun _ => Prog.uses_ite ?_ trivial
    refine Prog.uses_bind (Prog.uses_call trivial) fun _ => Prog.uses_ite trivial ?_
    exact Prog.uses_bind (Prog.uses_call trivial) fun _ => invalidateAuxiliaryCache_proper
  · refine Prog.uses_bind (Prog.uses_call trivial) fun _ => Prog.uses_ite ?_ trivial
    exact Prog.uses_bind (removeTree_proper _) fun _ => invalidateAuxiliaryCache_proper

theorem forceDropObservationData_proper (oid : Nat) (reason : String) :
    (forceDropObservationData oid reason).Uses Op.Proper := by
  refine Prog.uses_bind (Prog.uses_call trivial) fun obs => Prog.uses_ite trivial ?_
  refine Prog.uses_bind (Prog.uses_forEach fun p => ?_) fun _ => ?_
  · exact Prog.uses_bind (Prog.uses_call trivial) fun _ =>
      Prog.uses_ite (removeTree_proper p) trivial
  · exact Prog.uses_bind invalidateAuxiliaryCache_proper fun _ => Prog.uses_call ⟨rfl, rfl⟩

theorem command_proper (c : Command) : c.body.Uses Op.Proper := by
  have hreview : ∀ {α : Type} (rid : Nat) {wrong : ProcessingRun → Prop} [DecidablePred wrong]
      (e₁ e₂ e₃ e₄ : String) {rest : ProcessingRun → Observation → M α},
      (∀ run obs, (rest run obs).Uses Op.Proper) →
      (review rid wrong e₁ e₂ e₃ e₄ rest).Uses Op.Proper := by
    intro α rid wrong _ e₁ e₂ e₃ e₄ rest h
    refine Prog.uses_bind (Prog.uses_call trivial) fun run => Prog.uses_ite trivial ?_
    refine Prog.uses_bind (Prog.uses_call trivial) fun obs => Prog.uses_ite trivial ?_
    refine Prog.uses_bind (Prog.uses_call trivial) fun _ => Prog.uses_ite trivial ?_
    exact Prog.uses_bind (Prog.uses_call trivial) fun _ => Prog.uses_ite trivial (h run obs)
  cases c with
  | accept rid note =>
    exact hreview rid _ _ _ _ fun _ _ => Prog.uses_bind (Prog.uses_call trivial) fun _ =>
      finishObservationDeletion_proper _
  | reprocess rid note =>
    exact Prog.uses_bind (hreview rid _ _ _ _ fun _ _ => Prog.uses_call trivial) fun _ => trivial
  | discard rid note =>
    exact hreview rid _ _ _ _ fun _ _ => Prog.uses_bind (Prog.uses_call trivial) fun _ =>
      finishObservationDeletion_proper _
  | resolve oid => exact forceDropObservationData_proper _ _
  | purge name =>
    refine Prog.uses_bind (Prog.uses_call trivial) fun _ => Prog.uses_ite trivial ?_
    exact Prog.uses_bind (removeTree_proper _) fun _ => invalidateAuxiliaryCache_proper

end Deletion

section Reconcile

theorem recordObservationRecoveryFailure_proper (oid : Nat) (e : Exn) (context : String) :
    (recordObservationRecoveryFailure oid e context).Uses Op.Proper :=
  Prog.uses_finallyDo (Prog.uses_call rfl) (Prog.uses_call trivial)

theorem startupReconcile_proper : (startupReconcile (call .killManaged)).Uses Op.Proper := by
  refine Prog.uses_bind (Prog.uses_call trivial) fun _ => ?_
  refine Prog.uses_bind (Prog.uses_call trivial) fun _ =>
    Prog.uses_bind (Prog.uses_forEach fun obs => ?_) fun _ => ?_
  · refine Prog.uses_catchAll ?_ fun _ => recordObservationRecoveryFailure_proper _ _ _
    exact Prog.uses_bind (quarantineIfExists_proper _ _) fun _ =>
      Prog.uses_call ⟨rfl, rfl, rfl⟩
  refine Prog.uses_bind (Prog.uses_call trivial) fun _ =>
    Prog.uses_bind (Prog.uses_forEach fun run => ?_) fun _ => ?_
  · refine Prog.uses_catchAll ?_ fun _ => Prog.uses_call trivial
    exact Prog.uses_bind (removeIfExists_proper _) fun _ => Prog.uses_call rfl
  refine Prog.uses_bind (Prog.uses_call trivial) fun _ =>
    Prog.uses_bind (Prog.uses_forEach fun obs => ?_) fun _ => ?_
  · refine Prog.uses_catchAll ?_ fun _ => recordObservationRecoveryFailure_proper _ _ _
    refine Prog.uses_bind (Prog.uses_call trivial) fun _ => Prog.uses_ite ?_ trivial
    exact Prog.uses_bind (Prog.uses_call trivial) fun _ =>
      Prog.uses_ite (Prog.uses_call ⟨rfl, rfl⟩) trivial
  refine Prog.uses_bind (Prog.uses_call trivial) fun _ =>
    Prog.uses_bind (Prog.uses_forEach fun obs => ?_) fun _ => ?_
  · exact Prog.uses_catchAll (finishObservationDeletion_proper _)
      fun _ => recordObservationRecoveryFailure_proper _ _ _
  refine Prog.uses_bind (Prog.uses_call trivial) fun _ =>
    Prog.uses_bind (Prog.uses_forEach fun obs => ?_) fun _ => ?_
  · refine Prog.uses_catchAll ?_ fun _ => recordObservationRecoveryFailure_proper _ _ _
    exact Prog.uses_bind (Prog.uses_call trivial) fun _ =>
      Prog.uses_ite (Prog.uses_call ⟨rfl, rfl, rfl⟩) trivial
  refine Prog.uses_bind (Prog.uses_call trivial) fun _ => ?_
  refine Prog.uses_bind (Prog.uses_foldEach (fun _ _ => ?_) _) fun known => ?_
  · exact Prog.uses_bind (Prog.uses_call trivial) fun _ => trivial
  refine Prog.uses_bind (Prog.uses_call trivial) fun _ => Prog.uses_ite ?_ trivial
  refine Prog.uses_bind (Prog.uses_call trivial) fun _ => Prog.uses_forEach fun name => ?_
  refine Prog.uses_bind (Prog.uses_call trivial) fun _ => Prog.uses_ite trivial ?_
  exact Prog.uses_catchAll (Prog.uses_bind (quarantinePath_proper _ _) fun _ => trivial)
    fun _ => Prog.uses_call trivial

end Reconcile

section Scheduler

theorem stopObservationRunner_proper (oid : Nat) (handle : Option Nat) :
    (stopObservationRunner oid handle).Uses Op.Proper := by
  refine Prog.uses_bind (Prog.uses_catchAll (Prog.uses_call trivial) fun _ => trivial) fun _ => ?_
  cases handle with
  | none => trivial
  | some h =>
    refine Prog.uses_bind (Prog.uses_call trivial) fun _ => Prog.uses_ite trivial ?_
    refine Prog.uses_catchAll (Prog.uses_bind (Prog.uses_call trivial) fun _ => trivial) fun _ => ?_
    refine Prog.uses_bind (Prog.uses_call trivial) fun _ => Prog.uses_ite trivial ?_
    exact Prog.uses_bind (Prog.uses_call trivial) fun _ => Prog.uses_call trivial

theorem failObserving_proper (oid : Nat) (msPath : Path) (suffix reason error : String) :
    (failObserving oid msPath suffix reason error).Uses Op.Proper :=
  Prog.uses_bind (quarantineIfExists_proper _ _) fun _ => Prog.uses_call ⟨rfl, rfl, rfl⟩

theorem failObservation_proper (oid : Nat) (reason error : String) :
    (failObservation oid reason error).Uses Op.Proper := by
  have hfind : (findObservation oid).Uses Op.Proper := by
    refine Prog.uses_catchAll (Prog.uses_bind (Prog.uses_call trivial) fun _ => trivial) fun e => ?_
    cases e <;> exact trivial
  have hfail : ∀ expected, (suppressTransitionError (store (.transitionObservation oid expected
      .observeFailed reason none (some 0) (some error)))).Uses Op.Proper := fun _ =>
    suppressTransitionError_proper (Prog.uses_call ⟨rfl, rfl, rfl⟩)
  refine Prog.uses_bind hfind fun found => ?_
  cases found with
  | none => trivial
  | some obs =>
    refine Prog.uses_ite ?_ (Prog.uses_ite (hfail _) (Prog.uses_call trivial))
    exact Prog.uses_bind (quarantineSuppressed_proper _ _) fun _ => hfail _

theorem observeGuard_proper {oid : Nat} {handle : Option Nat} {body : M (Option Entry)}
    (h : body.Uses Op.Proper) : (observeGuard oid handle body).Uses Op.Proper :=
  Prog.uses_catchAll h fun _ =>
    Prog.uses_bind (stopObservationRunner_proper oid handle) fun _ =>
      Prog.uses_bind (failObservation_proper _ _ _) fun _ => trivial

theorem endTask_proper {task : Nat} {body : M (Option Entry)} (h : body.Uses Op.Proper) :
    (endTask task body).Uses Op.Proper := by
  refine Prog.uses_bind (Prog.uses_catchAll h fun _ => ?_) fun next => ?_
  · exact Prog.uses_bind (Prog.uses_call trivial) fun _ => trivial
  · cases next with
    | none => exact Prog.uses_bind (Prog.uses_call trivial) fun _ => trivial
    | some n => trivial

theorem observeStart_proper (cfg : Config) (task oid : Nat) :
    (observeStart cfg task oid).Uses Op.Proper := by
  have hclaim : (claimObservation oid).Uses Op.Proper := by
    refine Prog.uses_catchAll (Prog.uses_bind (Prog.uses_call ⟨rfl, rfl⟩) fun _ => trivial)
      fun e => ?_
    cases e <;> exact trivial
  refine Prog.uses_bind (Prog.uses_call trivial) fun _ => Prog.uses_bind hclaim fun _ => ?_
  refine Prog.uses_ite (Prog.uses_bind (Prog.uses_call trivial) fun _ => ?_) trivial
  exact Prog.uses_bind (Prog.uses_call trivial) fun _ => trivial

theorem watchTurn_proper (cfg : Config) (task oid handle : Nat) (msPath : Path) (warned : Bool) :
    (watchTurn cfg task oid handle msPath warned).Uses Op.Proper := by
  refine Prog.uses_bind (Prog.uses_call trivial) fun _ => Prog.uses_ite ?_ ?_
  · refine Prog.uses_bind ?_ fun _ => trivial
    refine Prog.uses_bind (Prog.uses_call trivial) fun _ =>
      Prog.uses_ite (failObserving_proper _ _ _ _ _) ?_
    refine Prog.uses_bind (apparentSize_proper _) fun _ =>
      Prog.uses_ite (Prog.uses_call rfl) (Prog.uses_ite (failObserving_proper _ _ _ _ _) ?_)
    exact Prog.uses_bind (Prog.uses_call trivial) fun _ => Prog.uses_call rfl
  · refine Prog.uses_bind (Prog.uses_call trivial) fun _ =>
      Prog.uses_bind (apparentSize_proper _) fun _ => Prog.uses_ite trivial (Prog.uses_ite ?_
        (Prog.uses_ite trivial (Prog.uses_bind (Prog.uses_call trivial) fun _ => trivial)))
    exact Prog.uses_bind (stopObservationRunner_proper _ _) fun _ =>
      Prog.uses_bind (failObserving_proper _ _ _ _ _) fun _ => trivial

theorem processRun_proper (rid : Nat) : (processRun rid).Uses Op.Proper := by
  have hclaim : (claimRun rid).Uses Op.Proper := by
    refine Prog.uses_catchAll (Prog.uses_bind (Prog.uses_call rfl) fun _ => trivial) fun e => ?_
    cases e <;> exact trivial
  refine Prog.uses_bind (Prog.uses_call trivial) fun run => Prog.uses_bind hclaim fun _ =>
    Prog.uses_ite ?_ trivial
  refine Prog.uses_bind (Prog.uses_call trivial) fun _ =>
    Prog.uses_bind (Prog.uses_call trivial) fun _ =>
      Prog.uses_bind (Prog.uses_call trivial) fun _ => Prog.uses_ite (Prog.uses_call rfl) ?_
  refine Prog.uses_bind (Prog.uses_call trivial) fun _ =>
    Prog.uses_ite (Prog.uses_bind ?_ fun _ => Prog.uses_call rfl) (Prog.uses_call rfl)
  exact Prog.uses_catchAll (Prog.uses_bind (Prog.uses_call trivial) fun _ => trivial) fun _ =>
    Prog.uses_bind (Prog.uses_call trivial) fun _ => trivial

theorem failProcess_proper (rid : Nat) (e : Exn) : (failProcess rid e).Uses Op.Proper := by
  have hfind : (findRun rid).Uses Op.Proper := by
    refine Prog.uses_catchAll (Prog.uses_bind (Prog.uses_call trivial) fun _ => trivial) fun e => ?_
    cases e <;> exact trivial
  refine Prog.uses_bind hfind fun found => ?_
  cases found with
  | none => trivial
  | some run =>
    have hfail : ∀ expected reason, (suppressTransitionError
        (store (.transitionRun rid expected .failed reason (some (-1))))).Uses Op.Proper :=
      fun _ _ => suppressTransitionError_proper (Prog.uses_call rfl)
    exact Prog.uses_ite (hfail _ _) (Prog.uses_ite (hfail _ _) (Prog.uses_call trivial))

theorem sweep_proper : sweepOrphanedInprocessStates.Uses Op.Proper := by
  refine Prog.uses_bind (Prog.uses_call trivial) fun _ =>
    Prog.uses_bind (Prog.uses_forEach fun obs => ?_) fun _ =>
      Prog.uses_bind (Prog.uses_call trivial) fun _ => Prog.uses_forEach fun run => ?_
  · refine Prog.uses_bind (Prog.uses_call trivial) fun _ => Prog.uses_ite trivial ?_
    exact Prog.uses_bind (quarantineSuppressed_proper _ _) fun _ =>
      suppressTransitionError_proper (Prog.uses_call ⟨rfl, rfl, rfl⟩)
  · exact Prog.uses_bind (Prog.uses_call trivial) fun _ =>
      Prog.uses_ite trivial (suppressTransitionError_proper (Prog.uses_call rfl))

theorem retryFailedRuns_proper (cfg : Config) : (retryFailedRuns cfg).Uses Op.Proper := by
  refine Prog.uses_bind (Prog.uses_call trivial) fun _ =>
    Prog.uses_bind (Prog.uses_call trivial) fun _ => Prog.uses_forEach fun candidate => ?_
  refine Prog.uses_bind (Prog.uses_catchAll ?_ fun _ => ?_) fun _ =>
    Prog.uses_ite (suppressTransitionError_proper (Prog.uses_call rfl)) trivial
  · exact Prog.uses_bind (removeIfExists_proper _) fun _ => trivial
  · exact Prog.uses_bind (Prog.uses_call trivial) fun _ => trivial

theorem admitObservation_proper (cfg : Config) : (admitObservation cfg).Uses Op.Proper := by
  have hcapacity : (campaignHasCapacity cfg).Uses Op.Proper := by
    unfold campaignHasCapacity
    split
    · trivial
    · exact Prog.uses_bind (Prog.uses_call trivial) fun _ => trivial
  have hadmit : (canAdmit cfg).Uses Op.Proper :=
    Prog.uses_bind (Prog.uses_call trivial) fun _ =>
      Prog.uses_bind (auxiliaryChargedStorage_proper _) fun _ => trivial
  refine Prog.uses_bind (Prog.uses_call trivial) fun _ => Prog.uses_ite ?_ trivial
  refine Prog.uses_bind hcapacity fun _ => Prog.uses_ite ?_ trivial
  refine Prog.uses_bind hadmit fun _ => Prog.uses_ite ?_ trivial
  exact Prog.uses_bind (Prog.uses_call trivial) fun _ => Prog.uses_call trivial

theorem tick_proper (cfg : Config) : (tick cfg).Uses Op.Proper := by
  refine Prog.uses_bind sweep_proper fun _ =>
    Prog.uses_bind (retryFailedRuns_proper cfg) fun _ => ?_
  refine Prog.uses_bind (Prog.uses_call trivial) fun _ =>
    Prog.uses_bind (Prog.uses_forEach fun obs => ?_) fun _ => ?_
  · exact Prog.uses_bind (Prog.uses_call trivial) fun _ =>
      Prog.uses_ite trivial (Prog.uses_call trivial)
  refine Prog.uses_bind (admitObservation_proper cfg) fun _ => ?_
  refine Prog.uses_bind (Prog.uses_call trivial) fun _ =>
    Prog.uses_bind (Prog.uses_forEach fun obs => ?_) fun _ => ?_
  · exact Prog.uses_bind (Prog.uses_call trivial) fun _ => trivial
  refine Prog.uses_bind (Prog.uses_call trivial) fun _ =>
    Prog.uses_bind (Prog.uses_forEach fun run => ?_) fun _ => Prog.uses_call trivial
  exact Prog.uses_bind (Prog.uses_call trivial) fun _ =>
    Prog.uses_ite trivial (Prog.uses_call trivial)

end Scheduler

theorem Entry.code_proper (n : Entry) : n.code.Uses Op.Proper := by
  cases n with
  | run cfg => exact Prog.uses_bind startupReconcile_proper fun _ => trivial
  | tick cfg =>
    exact Prog.uses_bind (tick_proper cfg) fun _ =>
      Prog.uses_bind (Prog.uses_call trivial) fun _ => trivial
  | observe cfg task oid =>
    exact endTask_proper (Prog.uses_bind (Prog.uses_call trivial) fun _ =>
      observeGuard_proper (observeStart_proper cfg task oid))
  | watch cfg task oid handle msPath warned =>
    exact endTask_proper (observeGuard_proper (watchTurn_proper cfg task oid handle msPath warned))
  | process cfg task rid =>
    refine endTask_proper (Prog.uses_bind (Prog.uses_call trivial) fun _ => ?_)
    refine Prog.uses_bind (Prog.uses_catchAll ?_ fun _ => failProcess_proper _ _) fun _ => trivial
    exact Prog.uses_bind (Prog.uses_call trivial) fun _ =>
      Prog.uses_finallyDo (processRun_proper rid) (Prog.uses_call trivial)
  | command c => exact Prog.uses_bind (command_proper c) fun _ => trivial

theorem system_proper : system.Confines (fun _ _ => True) fun _ o => o.Proper where
  uses {_ n} _ := n.code_proper
  returns _ := Prog.returns_all (fun _ _ _ => trivial) _
  spawn _ := trivial
  enter _ := trivial

/-- What the methods keep that write what goes with their target states holds of the
tables of every reachable state. -/
theorem Limits.Reach.tables {L : Limits} {P : Db → Prop} (start : P Db.empty)
    (keep : ∀ {db q db'}, db.Ids → Query.Proper q → Db.Call db q db' → P db → P db')
    {w : World Op.Reply Exn Shared Role Entry} (h : L.Reach w) : P w.shared.db := by
  refine Machine.Reach.invariant (fun v : World Op.Reply Exn Shared Role Entry => P v.shared.db)
    start (fun v l v' hreach hv _ hstep => ?_) h
  cases system.stepped_of_step hstep with
  | @run pid c p o next x s _ found code _ performs ends =>
    have hproper : o.Proper := system_proper.about hreach (by simp [Sdpctl.start]) found code
    have hnext : P s.db := by
      rcases (exec_framed performs).db with hsame | ⟨q, y, db, rfl, _, hrun, rfl⟩
      · rw [hsame]
        exact hv
      · have ids : v.shared.db.Ids := (Limits.Reach.inv hreach).db.ids
        exact keep ids hproper (.of_run ids hrun) hv
    rcases ends with rfl | ⟨_, rfl⟩ <;> exact hnext
  | env moves =>
    have hsame : ∀ {e : Env} {s s' : Shared}, Sdpctl.env e s = some s' → s'.db = s.db :=
      fun h => by cases env_cases h <;> rfl
    exact (hsame moves).symm ▸ hv
  | enter moves => exact (enter_same (system_enter moves).2).1.symm ▸ hv
  | stop => exact hv
  | crash => exact hv

end Sdpctl
