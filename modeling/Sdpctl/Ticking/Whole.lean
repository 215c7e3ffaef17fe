import Sdpctl.Discipline.Memory
import Sdpctl.Ticking.Phases

/-!
The phases that give work to coroutines, and the tick as a whole: alone and without a
failing operation it returns, and it leaves what `Desk.ticked` says.
-/

namespace Sdpctl

open FileTree Coop

variable {α : Type} {cfg : Config} {s : Shared} {P : Unit → Shared → Prop}

section Workers

theorem Ctl.tracked_append (ctl : Ctl) (kind : TaskKind) (keys : List Nat) (key : Nat) :
    ctl.tracked kind (keys ++ [key]) =
      if (ctl.tracked kind keys).live kind key then ctl.tracked kind keys
      else (ctl.tracked kind keys).track kind key := by
  rw [tracked, List.foldl_append]
  rfl

theorem tracked_placid {kind : TaskKind} {rows : List α} {test : α → Bool} {key : α → Nat}
    {f : α → M Unit}
    (hf : ∀ x (t : Shared) (P : Unit → Shared → Prop),
      P () { t with ctl := (if t.ctl.live kind (key x) then t.ctl
        else t.ctl.track kind (key x)) } → Placid (f x) P t) :
    Placid (Prog.forEach (rows.filter test) f) (fun _ t => t.desk = { s.desk with
      ctl := s.desk.ctl.tracked kind ((rows.filter test).map key) }) s := by
  let At : List α → List α → Shared → Prop := fun done _ t => t.desk = { s.desk with
    ctl := s.desk.ctl.tracked kind ((done.filter test).map key) }
  refine placid_rows (P := At) ?_ ?_ rfl
  · intro done x rest t _ htest hat
    have hctl : t.ctl = s.desk.ctl.tracked kind ((done.filter test).map key) :=
      congrArg Desk.ctl hat
    refine hf x t _ ?_
    have hrest (ctl : Ctl) : Shared.desk { t with ctl } = { t.desk with ctl } := rfl
    have htodo : ((done ++ [x]).filter test).map key = (done.filter test).map key ++ [key x] := by
      simp [htest]
    change Shared.desk { t with ctl := _ } = _
    rw [hrest, htodo, Ctl.tracked_append, hctl, hat]
  · intro done x rest t _ htest hat
    simpa [At, htest] using hat

/-- `PLANNED` rows get their workers. -/
theorem resumeAll_placid :
    Placid (Prog.forEach (s.db.listObservations [.planned]) resumePlanned)
      (fun _ t => t.desk = s.desk.resumed) s := by
  have hlist : s.db.listObservations [.planned] =
      s.desk.observations.filter fun o => o.state == .planned := by
    simp [Db.listObservations, Shared.desk, beq_eq_decide]
  rw [hlist]
  refine tracked_placid fun x t P hP => .then (placid_obsTaskLive ?_)
  cases hlive : t.ctl.live .observe x.id with
  | true => exact .pure (by simpa [hlive] using hP)
  | false => exact placid_call rfl rfl (by simpa [hlive] using hP)

theorem spawnAll_placid :
    Placid (Prog.forEach (s.db.listRuns [.queued]) spawnRun)
      (fun _ t => t.desk = s.desk.spawned) s := by
  have hlist : s.db.listRuns [.queued] =
      s.desk.processingRuns.filter fun r => r.state == .queued := by
    simp [Db.listRuns, Shared.desk, beq_eq_decide]
  rw [hlist]
  refine tracked_placid fun x t P hP => .then (placid_runTaskLive ?_)
  cases hlive : t.ctl.live .process x.id with
  | true => exact .pure (by simpa [hlive] using hP)
  | false => exact placid_call rfl rfl (by simpa [hlive] using hP)

end Workers

section Admission

theorem campaignHasCapacity_placid {P : Bool → Shared → Prop}
    (hP : P (s.desk.capacity cfg) s) : Placid (campaignHasCapacity cfg) P s := by
  unfold Desk.capacity at hP
  unfold campaignHasCapacity
  cases hmax : cfg.maxObservations with
  | none => exact .pure (by simpa [hmax] using hP)
  | some n =>
    rw [hmax] at hP
    exact .then (placid_store rfl (.pure hP))

theorem canAdmit_placid {P : Bool → Shared → Prop} (hwf : s.disk.root.wf)
    (hP : P (s.desk.room cfg) { s with
      ctl := { s.ctl with cache := some (s.disk.signature, s.disk.charged s.ctl.cache) } }) :
    Placid (canAdmit cfg) P s :=
  .then (placid_store rfl (.then (auxiliaryChargedStorage_placid hwf (.pure hP))))

theorem desk_obsAdded {db : Db} {o : Observation} (step : Db.ObsAdded s.db db o) :
    Shared.desk { s with db } = { s.desk with
      observations := s.desk.observations ++ [o], obsSeq := s.desk.obsSeq + 1 } := by
  simp [Shared.desk, step.rows, step.runs, step.obsSeq, step.runSeq, funext step.attempts]

theorem createObservationAuto_placid {P : Nat → Shared → Prop} (ids : s.db.Ids)
    (hP : ∀ t : Shared, t.desk = { s.desk with
      observations := s.desk.observations ++ [s.desk.planned cfg], obsSeq := s.desk.obsSeq + 1 } →
        P (s.desk.obsSeq + 1) t) :
    Placid (store (.createObservationAuto cfg.observationReservation)) P s :=
  placid_store rfl (hP _ (desk_obsAdded (Db.createObservationAuto_added ids _)))

theorem idle_eq : (s.db.listObservations [.observing, .planned]).isEmpty = !s.desk.busy := by
  rw [Bool.eq_iff_iff]
  simp [Db.listObservations, Desk.busy, Db.countsReserved, Shared.desk, and_comm]

theorem admitObservation_placid (h : s.desk.Well) :
    Placid (admitObservation cfg) (fun _ t => t.desk = s.desk.admitted cfg) s := by
  unfold Desk.admitted
  refine .then (placid_store rfl ?_)
  rw [idle_eq]
  cases hbusy : s.desk.busy with
  | true => exact .pure (by simp)
  | false =>
    refine .then (campaignHasCapacity_placid ?_)
    cases hcapacity : s.desk.capacity cfg with
    | false => exact .pure (by simp)
    | true =>
      refine .then (canAdmit_placid h.disk.wf ?_)
      cases hroom : s.desk.room cfg with
      | false => exact .pure rfl
      | true =>
        refine .then (createObservationAuto_placid h.ids fun t ht => placid_call rfl rfl ?_)
        have htrack (ctl : Ctl) : Shared.desk { t with ctl } = { t.desk with ctl } := rfl
        have hctl : t.ctl = s.desk.remembered.ctl := congrArg Desk.ctl ht
        rw [htrack, hctl, ht]
        rfl

end Admission

section FirstRuns

theorem Desk.entered_append (d : Desk) (os : List Observation) (o : Observation) :
    d.entered (os ++ [o]) = { d.entered os with
      processingRuns := (d.entered os).processingRuns ++
        [firstRun ((d.entered os).runSeq + 1) o.id]
      runSeq := (d.entered os).runSeq + 1 } := by
  simp [entered, List.mapIdx_append, Nat.add_assoc, Nat.add_comm 1]

theorem createInitialRun_placid {oid : Nat} (howner : (s.db.obs? oid).isSome = true)
    (hnone : s.db.runsOf oid = []) (hP : ∀ t : Shared, t.desk = { s.desk with
      processingRuns := s.desk.processingRuns ++ [Desk.firstRun (s.desk.runSeq + 1) oid]
      runSeq := s.desk.runSeq + 1 } → P () t) :
    Placid (createInitialRun oid) P s := by
  have hattempt : s.db.nextAttempt oid = 1 := by simp [Db.nextAttempt, hnone]
  cases hrun : s.db.createRun oid (outputDir oid 1 ++ ["product"]) (processLog oid 1) with
  | error e =>
    obtain ⟨o, ho⟩ := Option.isSome_iff_exists.mp howner
    simp [Db.createRun, Db.insertRun, ho, hnone] at hrun
  | ok made =>
    obtain ⟨rid, db⟩ := made
    have hquery : (Query.createRun oid (outputDir oid 1 ++ ["product"]) (processLog oid 1)).run
        s.db = .ok (rid, db) := hrun
    rw [Db.createRun, hattempt] at hrun
    have step := Db.insertRun_ok hrun
    refine .then (placid_store hquery (.pure (hP _ ?_)))
    simp [Shared.desk, Desk.firstRun, step.rows, step.observations, step.obsSeq, step.runSeq,
      funext step.attempts]

theorem unprocessed_eq : s.db.listStoredObservationsWithoutRuns =
    s.desk.observations.filter s.desk.unprocessed := by
  refine List.filter_congr fun o _ => congrArg _ ?_
  rw [Bool.eq_iff_iff]
  simp [Db.runsOf, Shared.desk]

theorem createAll_placid (h : s.desk.Well) :
    Placid (Prog.forEach s.db.listStoredObservationsWithoutRuns fun obs => createInitialRun obs.id)
      (fun _ t => t.desk = s.desk.provided) s := by
  let At : List Observation → List Observation → Shared → Prop := fun done _ t =>
    t.desk = s.desk.entered (done.filter s.desk.unprocessed)
  have hstart : At [] s.desk.observations s := by simp [At, Desk.entered]
  rw [unprocessed_eq]
  refine placid_rows (P := At) ?_ ?_ hstart
  · intro done o rest t hrows htest hat
    have hdesk : t.desk = s.desk.entered (done.filter s.desk.unprocessed) := hat
    have hobs : t.db.observations = s.desk.observations := congrArg Desk.observations hdesk
    have hruns : t.db.processingRuns =
        (s.desk.entered (done.filter s.desk.unprocessed)).processingRuns :=
      congrArg Desk.processingRuns hdesk
    have hmem : o ∈ t.db.observations := by simp [hobs, hrows]
    have hnodup := h.obsNodup
    rw [hrows, List.map_append, List.map_cons] at hnodup
    have hold : ∀ r ∈ s.desk.processingRuns, r.observationId ≠ o.id := by
      simp only [Desk.unprocessed, Bool.and_eq_true, List.all_eq_true, bne_iff_ne] at htest
      exact htest.2
    have hother : ∀ p ∈ done, p.id ≠ o.id := by
      intro p hp heq
      have hdisjoint := (List.nodup_append.mp hnodup).2.2
      exact hdisjoint _ (List.mem_map_of_mem hp) _ (by simp) heq
    refine createInitialRun_placid ?_ ?_ fun u hu => ?_
    · refine List.find?_isSome.mpr ⟨o, hmem, by simp⟩
    · refine List.filter_eq_nil_iff.mpr fun r hr => ?_
      rw [hruns] at hr
      rcases List.mem_append.mp hr with hr | hr
      · simpa using hold r hr
      · obtain ⟨i, hi, rfl⟩ := List.mem_mapIdx.mp hr
        have hin := List.getElem_mem hi
        simpa [Desk.firstRun] using hother _ (List.mem_filter.mp hin).1
    · change u.desk = _
      rw [hu, hdesk, List.filter_append, List.filter_cons, htest, if_pos rfl, List.filter_nil,
        Desk.entered_append]
  · intro done o rest t _ htest hat
    simpa [At, htest] using hat

end FirstRuns

section Tick

theorem sweepOrphanedInprocessStates_placid (h : s.desk.Well) :
    Placid sweepOrphanedInprocessStates (fun _ t => t.desk = s.desk.swept.failed) s := by
  refine .then (placid_store rfl (Prog.Gives.bind (sweepObservations_placid h) fun _ t ht => ?_))
  have hwell : t.desk.Well := ht ▸ h.swept
  refine .then (placid_store rfl ((sweepRuns_placid hwell).mono (fun _ h => h) fun _ u hu => ?_))
  rw [hu, ht]

theorem retryFailedRuns_placid (h : s.desk.Well) :
    Placid (retryFailedRuns cfg) (fun _ t => t.desk = (s.desk.exhausted cfg).retried cfg) s := by
  refine .then (markExhausted_placid fun _ t ht => ?_)
  have hwell : t.desk.Well := ht ▸ h.exhausted
  refine .then (placid_store rfl ((retryRuns_placid hwell).mono (fun _ h => h) fun _ u hu => ?_))
  rw [hu, ht]

/-- A tick that is left alone, and in which no operation fails, returns, and what it
leaves is `Desk.ticked`. -/
theorem tick_placid (h : s.desk.Well) :
    Placid (tick cfg) (fun _ t => t.desk = s.desk.ticked cfg) s := by
  refine Prog.Gives.bind (sweepOrphanedInprocessStates_placid h) fun _ t₁ h₁ => ?_
  have hwell₁ : t₁.desk.Well := h₁ ▸ h.swept.failed
  refine Prog.Gives.bind (retryFailedRuns_placid hwell₁) fun _ t₂ h₂ => ?_
  have hwell₂ : t₂.desk.Well := h₂ ▸ hwell₁.exhausted.retried
  refine .then (placid_store rfl (Prog.Gives.bind resumeAll_placid fun _ t₃ h₃ => ?_))
  have hwell₃ : t₃.desk.Well := h₃ ▸ hwell₂.resumed
  refine Prog.Gives.bind (admitObservation_placid hwell₃) fun _ t₄ h₄ => ?_
  have hwell₄ : t₄.desk.Well := h₄ ▸ hwell₃.admitted
  refine .then (placid_store rfl (Prog.Gives.bind (createAll_placid hwell₄) fun _ t₅ h₅ => ?_))
  refine .then (placid_store rfl (Prog.Gives.bind spawnAll_placid fun _ t₆ h₆ => ?_))
  refine placid_call rfl rfl ?_
  rw [h₆, h₅, h₄, h₃, h₂, h₁]
  rfl

end Tick

end Sdpctl
