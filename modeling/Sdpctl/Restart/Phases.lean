import Sdpctl.Restart.Moving
import Sdpctl.Store.Methods

/-!
What the six phases of `startup_reconcile` do to one entity, alone and without a
failing operation: each carries out its repair, and an interruption leaves what
the repair may leave.
-/

namespace Sdpctl

open FileTree Coop

variable {role : Role} {K : Estate → Prop} {s : Shared} {P : Unit → Shared → Prop}

theorem estate_obsStep {db : Db} {o o' : Observation} (step : Db.ObsStep s.db db o o') :
    Shared.estate { s with db } = s.estate.putObs o' := by
  simp [Shared.estate, Estate.putObs, step.rows, step.runs]

theorem estate_runStep {db : Db} {q q' : ProcessingRun} (step : Db.RunStep s.db db q q') :
    Shared.estate { s with db } = s.estate.putRun q' := by
  simp [Shared.estate, Estate.putRun, step.rows, step.observations]

theorem transitionObservation_smooth {o : Observation} {expected new : ObservationState}
    {reason : String} {size reserved : Option Nat} {error : Option String} (ids : s.db.Ids)
    (ho : s.estate.obs? o.id = some o) (hstate : o.state = expected)
    (legal : new ∈ obsTransitions expected)
    {o' : Observation} (ho' : o' = { o with
      state := new, sizeBytes := size.getD o.sizeBytes,
      reservedBytes := reserved.getD o.reservedBytes, error := error <|> o.error })
    (hK : K (s.estate.putObs o'))
    (hP : ∀ t : Shared, t.db.Ids → t.estate = s.estate.putObs o' → P () t) :
    Smooth role K (store (.transitionObservation o.id expected new reason size reserved error))
      P s := by
  obtain ⟨db, hrun, step⟩ := Db.transitionObservation_found ids ho hstate legal ho' reason
  have hquery :
      (Query.transitionObservation o.id expected new reason size reserved error).run s.db =
        .ok ((), db) := by simp [Query.run, hrun, Except.map]
  refine smooth_store hquery ?_ ?_
  · rw [estate_obsStep step]
    exact hK
  · exact hP _ (step.ids ids) (estate_obsStep step)

theorem transitionRun_smooth {q : ProcessingRun} {expected new : RunState} {reason : String}
    {code : Option Int} (ids : s.db.Ids) (hq : s.estate.run? q.id = some q)
    (hstate : q.state = expected) (legal : new ∈ runTransitions expected) {q' : ProcessingRun}
    (hq' : q' = { q with state := new, exitCode := code <|> q.exitCode })
    (hK : K (s.estate.putRun q'))
    (hP : ∀ t : Shared, t.db.Ids → t.estate = s.estate.putRun q' → P () t) :
    Smooth role K (store (.transitionRun q.id expected new reason code)) P s := by
  obtain ⟨db, hrun, step⟩ := Db.transitionRun_found ids hq hstate legal hq' reason
  have hquery : (Query.transitionRun q.id expected new reason code).run s.db = .ok ((), db) := by
    simp [Query.run, hrun, Except.map]
  refine smooth_store hquery ?_ ?_
  · rw [estate_runStep step]
    exact hK
  · exact hP _ (step.ids ids) (estate_runStep step)

theorem recordEvent_smooth {entity : EntityType} {id : Nat} {reason : String} (ids : s.db.Ids)
    (hK : K s.estate) (hP : ∀ t : Shared, t.db.Ids → t.estate = s.estate → P () t) :
    Smooth role K (store (.recordEvent entity id reason)) P s := by
  have hids : (s.db.recordEvent entity id reason).Ids :=
    ⟨ids.obsNodup, ids.obsBound, ids.runNodup, ids.runBound⟩
  have hquery : (Query.recordEvent entity id reason).run s.db =
      .ok ((), s.db.recordEvent entity id reason) := rfl
  refine smooth_store hquery hK ?_
  exact hP _ hids rfl

theorem recordObservationRecoveryFailure_smooth {o : Observation} {e : Exn} {context : String}
    (ids : s.db.Ids) (ho : s.estate.obs? o.id = some o)
    (hK : K (s.estate.putObs { o with error := some (failureMessage e context) }))
    (hP : ∀ t : Shared, t.db.Ids →
      t.estate = s.estate.putObs { o with error := some (failureMessage e context) } → P () t) :
    Smooth role K (recordObservationRecoveryFailure o.id e context) P s := by
  have step := Db.forceObservationFields_found ids ho none (some (failureMessage e context))
  have hestate := estate_obsStep step
  have hquery :
      (Query.forceObservationFields o.id none (some (failureMessage e context))).run s.db =
      .ok ((), s.db.forceObservationFields o.id none (some (failureMessage e context))) := rfl
  refine Prog.Gives.finallyDo (smooth_store hquery (hestate ▸ hK) ?_)
  exact recordEvent_smooth (step.ids ids) (hestate ▸ hK) fun t hids ht =>
    hP t hids (ht.trans hestate)

/-- What carries out the mending of an observation. -/
def Mending.CarriedOut (m : Mending) (f : Observation → M Unit) : Prop :=
  ∀ s : Shared, s.db.Ids → s.estate.Placed → ∀ o, s.estate.obs? o.id = some o →
    o.state = m.state → Smooth .main ((m.repair o.id).leaves s.estate) (f o)
      (fun _ t => t.db.Ids ∧ t.estate = m.apply s.estate o) s

section Leaves

variable {m : Mending} {E : Estate} {o : Observation} {i : Nat}

theorem Mending.leaves_self : (m.repair i).leaves E E := .inl rfl

theorem Mending.leaves_apply (ho : E.obs? i = some o) (hstate : o.state = m.state) :
    (m.repair i).leaves E (m.apply E o) := .inr ⟨o, ho, hstate, .inl rfl⟩

theorem Mending.leaves_partway {d : Disk} (ho : E.obs? i = some o) (hstate : o.state = m.state)
    (hd : m.partway E o d) : (m.repair i).leaves E { E with disk := d } :=
  .inr ⟨o, ho, hstate, .inr ⟨d, hd, rfl⟩⟩

end Leaves

theorem recoverObservation_smooth : givingUp.CarriedOut recoverObservation := by
  intro s ids hplaced o ho hstate
  obtain ⟨n, hn⟩ := hplaced.msPath o (Estate.mem_of_obs? ho).1
  refine Prog.Gives.catchAll (.then ?_)
  refine quarantineIfExists_smooth hn hplaced.stands Mending.leaves_self
    (Mending.leaves_partway ho hstate rfl) fun t hdb hdisk => ?_
  have hestate := estate_files hdb hdisk
  have hend : t.estate.putObs (givingUp.row s.estate o) = givingUp.apply s.estate o := by
    rw [hestate]
    rfl
  refine transitionObservation_smooth (hdb ▸ ids) (by rw [hestate]; exact ho) hstate (by decide)
    (rfl : givingUp.row s.estate o = _) ?_ fun u hids hu => ⟨hids, hu.trans hend⟩
  rw [hend]
  exact Mending.leaves_apply ho hstate

theorem recoverRun_smooth {q : ProcessingRun} (ids : s.db.Ids) (hq : s.estate.run? q.id = some q)
    (hrunning : q.state = .running) :
    Smooth .main ((abandoning q.id).leaves s.estate) (recoverRun q)
      (fun _ t => t.db.Ids ∧ t.estate = (abandoning q.id).fix s.estate) s := by
  have hsame : (abandoning q.id).leaves s.estate s.estate := .inl rfl
  cases hfile : s.disk.isFileAt (parent q.outputPrefix) with
  | true =>
    -- a file in the place of the output directory makes `rmtree` raise
    rw [abandoning_blocked hq hfile]
    have hhas : s.disk.has (parent q.outputPrefix) = true := by
      cases hget : s.disk.get? (parent q.outputPrefix) with
      | none => simp [Disk.isFileAt, hget] at hfile
      | some t => simp [Disk.has, hget]
    let raised : Except Exn Unit → Shared → Prop := fun x t =>
      x = .error (.osError (parent q.outputPrefix)) ∧ t = s
    refine Prog.Meets.catchAll (Q := raised) (.bind (Q := raised) (.then (smooth_exists hsame ?_))
      (fun _ _ h => by cases h.1) fun _ _ h => ⟨by cases h.1; rfl, h.2⟩)
      (fun _ _ h => by cases h.1) ?_
    · rw [hhas]
      exact smooth_rmtree_file hfile hsame ⟨rfl, rfl⟩
    · rintro e _ ⟨_, rfl⟩
      exact recordEvent_smooth ids hsame fun t hids ht => ⟨hids, ht⟩
  | false =>
    rw [abandoning_found hq hrunning hfile]
    have hleaves : ∀ F, F = s.estate.abandon q ∨
        (∃ u d, s.disk.rmtreePart (parent q.outputPrefix) u = some d ∧
          F = { s.estate with disk := d }) ∨
        F = { s.estate with disk := s.disk.emptied (parent q.outputPrefix) } →
        (abandoning q.id).leaves s.estate F := fun F hF => .inr ⟨q, hq, hrunning, hfile, hF⟩
    refine Prog.Gives.catchAll (.then ?_)
    refine removeIfExists_smooth hfile (fun u d hd => hleaves _ (.inr (.inl ⟨u, d, hd, rfl⟩)))
      hsame (hleaves _ (.inr (.inr rfl))) fun t hdb hdisk => ?_
    have hestate := estate_files hdb hdisk
    have hend : t.estate.putRun { q with state := .failed, exitCode := some (-1) } =
        s.estate.abandon q := by
      rw [hestate]
      rfl
    refine transitionRun_smooth (hdb ▸ ids) (by rw [hestate]; exact hq) hrunning (by decide)
      (rfl : ({ q with state := .failed, exitCode := some (-1) } : ProcessingRun) = _) ?_
      fun u hids hu => ⟨hids, hu.trans hend⟩
    rw [hend]
    exact hleaves _ (.inl rfl)

theorem repairAccepted_smooth : releasing.CarriedOut repairAccepted := by
  intro s ids hplaced o ho hstate
  have hsame : (releasing.repair o.id).leaves s.estate s.estate := .inl rfl
  have hreleases : s.estate.releases o.id =
      (s.db.hasAcceptedRun o.id && !s.db.hasActiveRuns o.id) := rfl
  have hkept : s.estate.releases o.id = false → releasing.apply s.estate o = s.estate :=
    releasing_lawful.apply_of_settled hplaced ho
  refine Prog.Gives.catchAll (.then (smooth_look rfl hsame ?_))
  cases haccepted : s.db.hasAcceptedRun o.id with
  | false => exact .pure ⟨ids, (hkept (by simp [hreleases, haccepted])).symm⟩
  | true =>
    refine .then (smooth_look rfl hsame ?_)
    cases hactive : s.db.hasActiveRuns o.id with
    | true => exact .pure ⟨ids, (hkept (by simp [hreleases, hactive])).symm⟩
    | false =>
      have hend : s.estate.putObs { o with state := .deleting } = releasing.apply s.estate o := by
        simp [Mending.apply, releasing, hreleases, haccepted, hactive, Estate.putObs]
      refine transitionObservation_smooth ids ho hstate (by decide)
        (rfl : ({ o with state := .deleting } : Observation) = _) ?_
        fun t hids ht => ⟨hids, ht.trans hend⟩
      rw [hend]
      exact Mending.leaves_apply ho hstate

theorem verifyStored_smooth : verifying.CarriedOut verifyStored := by
  intro s ids hplaced o ho hstate
  have hsame : (verifying.repair o.id).leaves s.estate s.estate := .inl rfl
  refine Prog.Gives.catchAll (.then (smooth_exists hsame ?_))
  cases hhas : s.disk.has o.msPath with
  | true => exact .pure ⟨ids, (verifying_lawful.apply_of_settled hplaced ho hhas).symm⟩
  | false =>
    have hrow : verifying.row s.estate o = { o with
        state := .inconsistent
        sizeBytes := 0
        reservedBytes := 0
        error := some "stored MS missing on restart" } := if_neg (by simp [Shared.estate, hhas])
    refine transitionObservation_smooth ids ho hstate (by decide) hrow ?_
      fun t hids ht => ⟨hids, ht⟩
    exact Mending.leaves_apply ho hstate

section Deletion

variable {o : Observation} {n : String} (ids : s.db.Ids) (hstands : s.disk.Stands)
  (ho : s.estate.obs? o.id = some o) (hn : o.msPath = ["observations", n])
  (hstate : o.state = .deleting)

include ho

theorem getObservation_found : (Query.getObservation o.id).run s.db = .ok (o, s.db) := by
  have hfound : s.db.obs? o.id = some o := ho
  simp [Query.run, Db.getObservation, hfound, Except.map]

include hstands hstate

theorem finishObservationDeletion_both (hwedged : s.disk.wedged o = true) (hK : K s.estate) :
    (finishObservationDeletion o.id).Meets (smoothly role) (fun t => K t.estate)
      (fun x t => x = .error (bothCopies o.id) ∧ t = s) s := by
  obtain ⟨hlive, htrash⟩ := Bool.and_eq_true_iff.mp hwedged
  refine .then (smooth_look (getObservation_found ho) hK ?_)
  rw [if_neg (by simp [hstate])]
  refine .then (smooth_mkdir (hstands "trash" (by simp [layout])) hK ?_)
  refine .bind (Q := fun x t => x = .error (bothCopies o.id) ∧ t = s)
    (moveLiveToTrash_both hlive htrash hK ⟨rfl, rfl⟩) (fun _ _ h => by cases h.1)
    fun e t h => ⟨by cases h.1; rfl, h.2⟩

include ids hn

theorem finishObservationDeletion_smooth (hfree : s.disk.wedged o = false) :
    Smooth role ((deleting.repair o.id).leaves s.estate) (finishObservationDeletion o.id)
      (fun _ t => t.db.Ids ∧ t.estate = deleting.apply s.estate o) s := by
  have hsame : (deleting.repair o.id).leaves s.estate s.estate := .inl rfl
  have hpart : ∀ d, (d = s.disk.trashed o.msPath (trashPath o.id) ∨
      (∃ u, (s.disk.trashed o.msPath (trashPath o.id)).rmtreePart (trashPath o.id) u = some d) ∨
      d = s.disk.deleted o) → (deleting.repair o.id).leaves s.estate { s.estate with disk := d } :=
    fun d hd => Mending.leaves_partway ho hstate ⟨hfree, hd⟩
  have hdeleted := Disk.deleted_of_free hfree
  refine .then (smooth_look (getObservation_found ho) hsame ?_)
  rw [if_neg (by simp [hstate])]
  refine .then (smooth_mkdir (hstands "trash" (by simp [layout])) hsame ?_)
  refine .then (moveLiveToTrash_smooth hn hstands hfree hsame (hpart _ (.inl rfl))
    fun t hdb hdisk => ?_)
  have hestate := estate_files hdb hdisk
  refine .then (emptyTrash_smooth (fun u d hd => ?_) ?_ ?_ fun v hdb' hdisk' => ?_)
  · rw [hestate]
    exact hpart d (.inr (.inl ⟨u, hdisk ▸ hd⟩))
  · rw [hestate]
    exact hpart _ (.inl rfl)
  · rw [hestate, hdisk, ← hdeleted]
    exact hpart _ (.inr (.inr rfl))
  · have hestate' : v.estate = { s.estate with disk := s.disk.deleted o } := by
      rw [estate_files hdb' hdisk', hestate, hdisk, hdeleted]
    have hrow : deleting.row s.estate o =
        { o with state := .deleted, sizeBytes := 0, reservedBytes := 0 } :=
      if_neg (by simp [Shared.estate, hfree])
    have hend : v.estate.putObs (deleting.row s.estate o) = deleting.apply s.estate o := by
      rw [hestate']
      rfl
    refine transitionObservation_smooth (hdb'.trans hdb ▸ ids) (by rw [hestate']; exact ho) hstate
      (by decide) hrow ?_ fun t hids ht => ⟨hids, ht.trans hend⟩
    rw [hend]
    exact Mending.leaves_apply ho hstate

end Deletion

theorem resumeDeletion_smooth : deleting.CarriedOut resumeDeletion := by
  intro s ids hplaced o ho hstate
  obtain ⟨n, hn⟩ := hplaced.msPath o (Estate.mem_of_obs? ho).1
  cases hwedged : s.disk.wedged o with
  | false =>
    exact .catchAll (finishObservationDeletion_smooth ids hplaced.stands ho hn hstate hwedged)
  | true =>
    refine Prog.Meets.catchAll (finishObservationDeletion_both hplaced.stands ho hstate hwedged
      (.inl rfl)) (fun _ _ h => by cases h.1) ?_
    rintro e t ⟨he, ht⟩
    cases he
    obtain rfl : s = t := ht.symm
    have hend : s.estate.putObs
        { o with error := some (failureMessage (bothCopies o.id) "deletion completion") } =
        deleting.apply s.estate o := by
      simp [Mending.apply, deleting, Shared.estate, hwedged, Disk.deleted, Estate.putObs]
    refine recordObservationRecoveryFailure_smooth ids ho ?_ fun t hids ht => ⟨hids, ht.trans hend⟩
    rw [hend]
    exact Mending.leaves_apply ho hstate

end Sdpctl
