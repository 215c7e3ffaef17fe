import Sdpctl.Programs.Moving

/-!
The commands of the operator, verified from nothing: they may run at any time,
beside anything.
-/

namespace Sdpctl

open FileTree Coop

variable {T : Terms}

section Review

variable {α : Type} {rid : Nat} {wrong : ProcessingRun → Prop} [DecidablePred wrong]
  {onRun onObservation onData onOthers : String} {rest : ProcessingRun → Observation → M α}

theorem review_rule (hrest : ∀ run obs, Verified T .cli (fun _ => True) (rest run obs)
      (fun _ _ => True) (fun _ _ => True)) :
    Verified T .cli (fun _ => True) (review rid wrong onRun onObservation onData onOthers rest)
      (fun _ _ => True) (fun _ _ => True) := by
  have hnone := Frame.none T .cli
  refine .bind (getRun_rule rid hnone.firm) fun run =>
    .ite (fun _ => .raise fun _ _ _ => trivial) fun _ => ?_
  refine .bind ((getObservation_rule _ hnone.firm).pre fun _ _ _ => trivial) fun obs =>
    .ite (fun _ => .raise fun _ _ _ => trivial) fun _ => ?_
  refine .bind (((exists_rule _ hnone.firm).pre fun _ _ _ => trivial).exc fun _ _ _ _ => trivial)
    fun _ => .ite (fun _ => .raise fun _ _ _ => trivial) fun _ => ?_
  refine .bind ((query_rule (.hasOtherActiveRuns obs.id run.id) (·.hasOtherActiveRuns obs.id run.id)
    (fun _ => rfl) (fun _ => trivial) hnone.firm).pre fun _ _ _ => trivial) fun _ =>
    .ite (fun _ => .raise fun _ _ _ => trivial) fun _ => ?_
  exact (hrest run obs).pre fun _ _ _ => trivial

end Review

theorem commit_rule (q : Query) (hq : ∀ s, allowedQuery T .cli s q) :
    Verified T .cli (fun _ => True) (store q) (fun _ _ => True) (fun _ _ => True) :=
  change_rule q (Frame.none T .cli).firm (fun s _ _ => hq s) (fun _ _ _ _ _ _ _ => trivial)
    fun _ _ _ _ _ => trivial

theorem acceptRun_rule (rid : Nat) (note : String) :
    Verified T .cli (fun _ => True) (acceptRun rid note) (fun _ _ => True) (fun _ _ => True) := by
  rw [acceptRun_eq]
  exact review_rule fun run obs =>
    .bind (commit_rule (.acceptRunAndBeginDeletion run.id note) fun _ => rfl) fun _ =>
      finishObservationDeletion_rule (Frame.none T .cli) obs.id (.inr rfl)

theorem discardFailedRun_rule (rid : Nat) (note : String) :
    Verified T .cli (fun _ => True) (discardFailedRun rid note) (fun _ _ => True)
      (fun _ _ => True) := by
  rw [discardFailedRun_eq]
  exact review_rule fun run _ =>
    .bind (commit_rule (.discardFailedRunAndBeginDeletion run.id note) fun _ => rfl) fun oid =>
      finishObservationDeletion_rule (Frame.none T .cli) oid (.inr rfl)

theorem reprocessRun_rule (rid : Nat) (note : String) :
    Verified T .cli (fun _ => True) (reprocessRun rid note) (fun _ _ => True)
      (fun _ _ => True) := by
  refine .bind (getRun_rule rid (Frame.none T .cli).firm) fun run =>
    .ite (fun _ => .raise fun _ _ _ => trivial) fun _ => ?_
  rintro s hinv ⟨_, hrun⟩
  have hid : run.id = rid := (Db.mem_of_run? hrun).2
  have hkept := runKept_lasting (T := T) rid run
  refine Logic.Triple.bind ((getObservation_rule run.observationId hkept.firm).exc
    fun _ _ _ _ => trivial) (fun obs => .ite (fun _ => .raise fun _ _ _ => trivial) fun _ => ?_)
    s hinv ⟨run, hrun, rfl, rfl⟩
  rintro s hinv ⟨hq, hobs⟩
  have hobsId : obs.id = run.observationId := (Db.mem_of_obs? hobs).2
  refine Logic.Triple.bind ((exists_rule obs.msPath hkept.firm).exc fun _ _ _ _ => trivial)
    (fun _ => .ite (fun _ => .raise fun _ _ _ => trivial) fun _ => ?_) s hinv hq
  refine .bind (((query_rule (.hasOtherActiveRuns obs.id run.id)
    (·.hasOtherActiveRuns obs.id run.id) (fun _ => rfl) (fun _ => trivial) hkept.firm).pre
    fun _ _ h => h.1).exc fun _ _ _ _ => trivial) fun _ =>
    .ite (fun _ => .raise fun _ _ _ => trivial) fun _ => ?_
  refine (change_rule (.reprocessRunAndCreate run.id
    (outputDir obs.id (run.attempt + 1) ++ ["product"])
    (processLog obs.id (run.attempt + 1)) note) hkept.firm (fun s _ h => ⟨rfl, fun q hq => ?_⟩)
    (fun _ _ _ _ _ _ _ => trivial) fun _ _ _ _ _ => trivial).pre fun _ _ h => h.1
  obtain ⟨q', hq', howner, hattempt⟩ := h
  rw [hid, hq'] at hq
  cases hq
  rw [howner, hattempt, hobsId]

theorem quarantinePurge_rule (name : String) :
    Verified T .cli (fun _ => True) (quarantinePurge name) (fun _ _ => True) (fun _ _ => True) := by
  have hnone := Frame.none T .cli
  refine .bind ((exists_rule _ hnone.firm).exc fun _ _ _ _ => trivial) fun _ =>
    .ite (fun _ => .raise fun _ _ _ => trivial) fun _ => ?_
  refine .bind ((removeTree_rule hnone.firm hnone.blind.sturdy
    fun _ _ _ => .entry name rfl rfl).pre fun _ _ _ => trivial) fun _ => ?_
  exact ((invalidateAuxiliaryCache_rule hnone.firm hnone.blind.uncached).pre
    fun _ _ _ => trivial).exc fun _ _ _ _ => trivial

theorem command_rule (c : Command) :
    Verified T .cli (pre .cli (.command c)) c.body (fun _ _ => True) (fun _ _ => True) := by
  cases c with
  | accept rid note => exact acceptRun_rule rid note
  | reprocess rid note =>
    exact .bind (reprocessRun_rule rid note) fun _ => .pure fun _ _ _ => trivial
  | discard rid note => exact discardFailedRun_rule rid note
  | resolve oid => exact forceDropObservationData_rule oid _
  | purge name => exact quarantinePurge_rule name

end Sdpctl
