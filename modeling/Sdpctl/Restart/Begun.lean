import Sdpctl.Restart.Faults
import Sdpctl.Restart.Regular

/-!
The two verdicts that begin a deletion. Wherever one is cut off, by a crash or by
an exception, either nothing has happened, or the verdict has been committed and
the deletion is where an interruption of its repair would be.
-/

namespace Sdpctl

open FileTree Coop

variable {T : Terms} {s : Shared}

/-- The verdict on a run is committed, and the deletion of its observation `o`
has begun. -/
structure Begun (before : Estate) (rid : Nat) (verdict : RunState) (E : Estate)
    (o : Observation) : Prop where
  regular : E.Regular
  run : ∃ q, E.run? rid = some q ∧ q.state = verdict ∧ q.observationId = o.id
  obs : E.obs? o.id = some o
  state : o.state = .deleting
  disk : E.disk = before.disk
  free : E.disk.wedged o = false
  others : ∀ i, i ≠ o.id → E.obs? i = before.obs? i
  otherRuns : ∀ j, j ≠ rid → E.run? j = before.run? j

theorem Db.Releases.begun (hinv : Inv T s) (hregular : s.estate.Regular) {db : Db} {oid : Nat}
    {q q' : ProcessingRun} {o : Observation} (h : Db.Releases s.db db oid q q' o) :
    Begun s.estate q'.id q'.state (Shared.estate { s with db })
      { o with state := .deleting } := by
  obtain ⟨mid, hrun, hobs⟩ := h.steps
  have hfound : s.db.obs? o.id = some o := by
    rw [← hrun.obs?]
    exact hobs.found
  have hrows : s.estate.SameRows (Shared.estate { s with db }) := by
    have hmid : s.estate.SameRows (s.estate.putRun q') :=
      .putRun hregular.toPlaced hrun.found hrun.outputPrefix
    have hplaced := hmid.placed hregular.toPlaced hregular.stands
    have hmid' : Shared.estate { s with db := mid } = s.estate.putRun q' := estate_runStep hrun
    have hend := estate_obsStep (s := { s with db := mid }) hobs
    rw [hmid'] at hend
    refine hmid.trans (hend ▸ .putObs hplaced (o := o) ?_ rfl)
    rw [← hmid']
    exact hobs.found
  have hfree : s.disk.has (trashPath o.id) = false := by
    refine Disk.has_eq_false.mpr (hinv.trash o.id o hfound ?_)
    simp [h.stored, ObservationState.Closing]
  refine ⟨hregular.shift ⟨hrows, (Estate.Shift.refl s.estate).disk⟩, ⟨q', ?_, rfl, ?_⟩,
    hobs.obs?_self, rfl, rfl, ?_, fun i hi => ?_, fun j hj => ?_⟩
  · exact (hobs.run? q'.id).trans hrun.run?_self
  · exact hrun.observationId.trans (h.owner.trans h.obsId.symm)
  · simp [Disk.wedged, Shared.estate, hfree]
  · exact (hobs.obs?_ne hi).trans (hrun.obs? i)
  · exact (hobs.run? j).trans (hrun.run?_ne hj)

def Cut (before : Shared) (rid : Nat) (verdict : RunState) (s : Shared) : Prop :=
  (s.db = before.db ∧ s.disk = before.disk) ∨
    ∃ E o, Begun before.estate rid verdict E o ∧ (deleting.repair o.id).leaves E s.estate

theorem Begun.finish {before t : Shared} {rid : Nat} {verdict : RunState} {o : Observation}
    (h : Begun before.estate rid verdict t.estate o) (ids : t.db.Ids) :
    Cut before rid verdict t ∧
      (finishObservationDeletion o.id).Meets (anyhow .cli) (Cut before rid verdict)
        (fun _ _ => True) t := by
  have hcut : ∀ u : Shared, (deleting.repair o.id).leaves t.estate u.estate →
      Cut before rid verdict u := fun u hu => .inr ⟨t.estate, o, h, hu⟩
  obtain ⟨n, hn⟩ := h.regular.msPath o (Estate.mem_of_obs? h.obs).1
  have hsmooth : Smooth .cli ((deleting.repair o.id).leaves t.estate)
      (finishObservationDeletion o.id)
      (fun _ u => u.db.Ids ∧ u.estate = deleting.apply t.estate o) t :=
    finishObservationDeletion_smooth ids h.regular.stands h.obs hn h.state h.free
  exact ⟨hcut t Mending.leaves_self, (hsmooth.faulty anyhow_faulty
    (finishObservationDeletion_plain o.id) Mending.leaves_self).mono hcut fun _ _ h => h⟩

section Verdicts

variable (hinv : Inv T s) (hregular : s.estate.Regular)

include hinv hregular

theorem releases_cut {db : Db} {rid oid : Nat} {q q' : ProcessingRun} {o : Observation}
    (h : Db.Releases s.db db oid q q' o) (hid : q'.id = rid) :
    Cut s rid q'.state { s with db } ∧
      (finishObservationDeletion oid).Meets (anyhow .cli) (Cut s rid q'.state)
        (fun _ _ => True) { s with db } := by
  obtain ⟨mid, hrun, hobs⟩ := h.steps
  have hbegun := h.begun hinv hregular
  rw [hid] at hbegun
  rw [← h.obsId]
  exact hbegun.finish (hobs.ids (hrun.ids hinv.db.ids))

omit hregular in
/-- The checks of a verdict change nothing, and the rest runs on what they found. -/
theorem review_cut {rid : Nat} {verdict : RunState} {wrong : ProcessingRun → Prop}
    [DecidablePred wrong] {onRun onObservation onData onOthers : String}
    {rest : ProcessingRun → Observation → M Unit}
    (hrest : ∀ run obs, s.db.run? rid = some run → s.db.obs? run.observationId = some obs →
      (rest run obs).Meets (anyhow .cli) (Cut s rid verdict) (fun _ _ => True) s) :
    (review rid wrong onRun onObservation onData onOthers rest).Meets (anyhow .cli)
      (Cut s rid verdict) (fun _ _ => True) s := by
  have hsame : Cut s rid verdict s := .inl ⟨rfl, rfl⟩
  refine look_anyhow rfl hinv.db.ids hsame fun run hrun => ?_
  split
  · trivial
  refine look_anyhow rfl hinv.db.ids hsame fun obs hobs => ?_
  split
  · trivial
  refine exists_anyhow hsame fun _ => ?_
  split
  · trivial
  refine look_anyhow rfl hinv.db.ids hsame fun _ _ => ?_
  split
  · trivial
  exact hrest run obs (getRun_ok hrun).1 (getObservation_ok hobs).1

theorem acceptRun_cut (rid : Nat) (note : String) :
    (acceptRun rid note).Meets (anyhow .cli) (Cut s rid .accepted) (fun _ _ => True) s := by
  rw [acceptRun_eq]
  refine review_cut hinv fun run obs hrun hobs => ?_
  refine query_anyhow (.inl ⟨rfl, rfl⟩) fun oid db hcommit => ?_
  obtain ⟨_, hrunId⟩ := Db.mem_of_run? hrun
  obtain ⟨q, o, hid, _, hreleases⟩ := Db.acceptRunAndBeginDeletion_ok hinv.db.ids hcommit
  -- the transaction finds the run of the snapshot again
  obtain ⟨_, hstep, _⟩ := hreleases.steps
  have hagain : s.db.run? q.id = some q := hstep.found
  rw [hid, hrunId, hrun] at hagain
  obtain rfl : run = q := Option.some.inj hagain
  rw [(Db.mem_of_obs? hobs).2, hreleases.owner]
  exact releases_cut hinv hregular hreleases hrunId

theorem discardFailedRun_cut (rid : Nat) (note : String) :
    (discardFailedRun rid note).Meets (anyhow .cli) (Cut s rid .discarded) (fun _ _ => True) s := by
  rw [discardFailedRun_eq]
  refine review_cut hinv fun run obs hrun _ => ?_
  refine query_anyhow (.inl ⟨rfl, rfl⟩) fun oid db hcommit => ?_
  obtain ⟨q, o, hid, _, hreleases⟩ := Db.discardFailedRunAndBeginDeletion_ok hinv.db.ids hcommit
  exact releases_cut hinv hregular hreleases (hid.trans (Db.mem_of_run? hrun).2)

end Verdicts

end Sdpctl
