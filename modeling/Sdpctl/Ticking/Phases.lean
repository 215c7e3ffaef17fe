import Sdpctl.Ticking.Placid
import Sdpctl.Ticking.Well

/-!
The phases of a tick, alone and without a failing operation: each comes to what it
makes of the desk.
-/

namespace Sdpctl

open FileTree Coop

variable {cfg : Config} {s : Shared} {P : Unit → Shared → Prop}

section Rows

theorem Desk.Well.keys {d : Desk} (h : d.Well)
    (hobs : s.desk.observations.map Observation.id = d.observations.map Observation.id)
    (hruns : s.desk.processingRuns.map ProcessingRun.id = d.processingRuns.map ProcessingRun.id)
    (hobsSeq : s.desk.obsSeq = d.obsSeq) (hrunSeq : s.desk.runSeq = d.runSeq) : s.db.Ids where
  obsNodup := hobs ▸ h.obsNodup
  obsBound o ho := by
    have hmem : o.id ∈ d.observations.map Observation.id := hobs ▸ List.mem_map_of_mem ho
    obtain ⟨p, hp, hid⟩ := List.mem_map.mp hmem
    have hle := h.obsBound p hp
    rwa [hid, ← hobsSeq] at hle
  runNodup := hruns ▸ h.runNodup
  runBound r hr := by
    have hmem : r.id ∈ d.processingRuns.map ProcessingRun.id := hruns ▸ List.mem_map_of_mem hr
    obtain ⟨q, hq, hid⟩ := List.mem_map.mp hmem
    have hle := h.runBound q hq
    rwa [hid, ← hrunSeq] at hle

theorem desk_obsStep {db : Db} {o o' : Observation} (step : Db.ObsStep s.db db o o') :
    Shared.desk { s with db } = { s.desk with
      observations := Keyed.replace Observation.id o' s.desk.observations } := by
  simp [Shared.desk, step.rows, step.runs, step.obsSeq, step.runSeq, funext step.attempts]

theorem transitionObservation_placid {o o' : Observation} {expected new : ObservationState}
    {reason : String} {size reserved : Option Nat} {error : Option String} (ids : s.db.Ids)
    (ho : s.db.obs? o.id = some o) (hstate : o.state = expected)
    (legal : new ∈ obsTransitions expected) (ho' : o' = { o with
      state := new, sizeBytes := size.getD o.sizeBytes,
      reservedBytes := reserved.getD o.reservedBytes, error := error <|> o.error })
    (hP : ∀ t : Shared, t.desk = { s.desk with
      observations := Keyed.replace Observation.id o' s.desk.observations } → P () t) :
    Placid (store (.transitionObservation o.id expected new reason size reserved error)) P s := by
  obtain ⟨db, hrun, step⟩ := Db.transitionObservation_found ids ho hstate legal ho' reason
  have hquery :
      (Query.transitionObservation o.id expected new reason size reserved error).run s.db =
        .ok ((), db) := by simp [Query.run, hrun, Except.map]
  exact placid_store hquery (hP _ (desk_obsStep step))

theorem transitionRun_placid {q q' : ProcessingRun} {expected new : RunState} {reason : String}
    {code : Option Int} (ids : s.db.Ids) (hq : s.db.run? q.id = some q)
    (hstate : q.state = expected) (legal : new ∈ runTransitions expected) (hnew : new ≠ .running)
    (hq' : q' = { q with state := new, exitCode := code <|> q.exitCode })
    (hP : ∀ t : Shared, t.desk = { s.desk with
      processingRuns := Keyed.replace ProcessingRun.id q' s.desk.processingRuns } → P () t) :
    Placid (store (.transitionRun q.id expected new reason code)) P s := by
  obtain ⟨db, hrun, step⟩ := Db.transitionRun_found ids hq hstate legal hq' reason
  have hsame : q'.state ≠ .running := by
    rw [hq']
    exact hnew
  have hdesk : Shared.desk { s with db } = { s.desk with
      processingRuns := Keyed.replace ProcessingRun.id q' s.desk.processingRuns } := by
    simp [Shared.desk, step.rows, step.observations, step.obsSeq, step.runSeq,
      funext (step.attempts fun h => hsame h.2)]
  have hquery : (Query.transitionRun q.id expected new reason code).run s.db = .ok ((), db) := by
    simp [Query.run, hrun, Except.map]
  exact placid_store hquery (hP _ hdesk)

end Rows

section Sweep

namespace Desk

variable {d : Desk} {done rest : List Observation} {o : Observation}

def sweeping (d : Desk) (done rest : List Observation) : Desk :=
  { d.aside (done.filter d.orphaned) with observations := done.map d.sweptRow ++ rest }

theorem sweeping_kept (ho : d.orphaned o = false) :
    d.sweeping (done ++ [o]) rest = d.sweeping done (o :: rest) := by
  simp [sweeping, sweptRow, ho]

theorem sweeping_all : d.sweeping d.observations [] = d.swept := by
  simp [sweeping, swept]

end Desk

theorem desk_setAside (t : Shared) (o : Observation) :
    (t.setAside o.msPath (partialLabel o.id "orphaned-task")).desk = t.desk.aside [o] := by
  unfold Shared.setAside
  cases hhas : t.disk.has o.msPath <;> simp [Shared.desk, Desk.aside, asideStep, hhas]

theorem sweepObservations_placid (h : s.desk.Well) :
    Placid (Prog.forEach (s.db.listObservations [.observing]) sweepObservation)
      (fun _ t => t.desk = s.desk.swept) s := by
  have hlist : s.db.listObservations [.observing] =
      s.desk.observations.filter fun o => decide (o.state ∈ [ObservationState.observing]) :=
    if_neg (by simp)
  rw [hlist, ← Desk.sweeping_all]
  refine placid_rows (P := fun done rest t => t.desk = s.desk.sweeping done rest) ?_ ?_ (by rfl)
  · intro done o rest t hrows htest hat
    have hstate : o.state = .observing := by simpa using htest
    have hlive : t.ctl.live .observe o.id = s.ctl.live .observe o.id := by
      change t.desk.ctl.live _ _ = _
      rw [hat]
      rfl
    refine .then (placid_obsTaskLive ?_)
    rw [hlive]
    cases htask : s.ctl.live .observe o.id with
    | true =>
      have hkept : s.desk.orphaned o = false := by simp [Desk.orphaned, Shared.desk, htask]
      exact .pure (hat.trans (Desk.sweeping_kept hkept).symm)
    | false =>
      have horphan : s.desk.orphaned o = true := by
        simp [Desk.orphaned, Shared.desk, htask, hstate]
      have hmem : ∀ p ∈ done.filter s.desk.orphaned, p ∈ s.desk.observations :=
        fun p hp => by simp [hrows, (List.mem_filter.mp hp).1]
      have hpath := h.msPath o (by simp [hrows])
      refine .then (quarantineSuppressed_placid (by simp [hpath, msPathOf, quarantineRoot]) ?_ ?_)
      · have hdisk : t.disk = (s.desk.sweeping done (o :: rest)).disk := congrArg Desk.disk hat
        rw [hdisk]
        exact (h.aside hmem).disk.stands _ (by simp [layout])
      have haside := desk_setAside t o
      rw [hat] at haside
      have hrow : s.desk.sweptRow o = { o with
          state := .observeFailed, sizeBytes := o.sizeBytes, reservedBytes := 0,
          error := some "orphaned in-process observation task" } := if_pos horphan
      have hnodup := h.obsNodup
      rw [hrows] at hnodup
      refine Prog.Gives.catchAll (transitionObservation_placid ?_ ?_ hstate (by decide) hrow ?_)
      · refine h.keys ?_ ?_ ?_ ?_ <;> rw [haside] <;> simp [Desk.sweeping, Desk.aside, hrows]
      · change Keyed.find Observation.id (Shared.desk _).observations o.id = some o
        rw [haside]
        exact Keyed.find_middle (Desk.sweptRow_id s.desk) hnodup
      · intro u hu
        rw [hu, haside]
        have hreplace := Keyed.replace_middle (Desk.sweptRow_id s.desk) hnodup
        simp [Desk.sweeping, Desk.aside, horphan, hreplace]
  · intro done o rest t _ htest hat
    have hkept : s.desk.orphaned o = false := by
      have hstate : o.state ≠ .observing := by simpa using htest
      simp [Desk.orphaned, hstate]
    exact hat.trans (Desk.sweeping_kept hkept).symm

end Sweep

section Runs

namespace Desk

variable {d : Desk} {done rest : List ProcessingRun} {r : ProcessingRun}

/-- The desk when some interrupted runs have failed. -/
def failing (d : Desk) (done rest : List ProcessingRun) : Desk :=
  { d with processingRuns := done.map d.failedRow ++ rest }

theorem failing_kept (hr : d.abandoned r = false) :
    d.failing (done ++ [r]) rest = d.failing done (r :: rest) := by
  simp [failing, failedRow, hr]

theorem failing_all : d.failing d.processingRuns [] = d.failed := by
  simp [failing, failed]

/-- The desk when some failures have been queued again. -/
def retrying (cfg : Config) (d : Desk) (done rest : List ProcessingRun) : Desk :=
  { d with
    processingRuns := done.map (d.retriedRow cfg) ++ rest
    disk := d.cleared (done.filter (d.retries cfg)) }

theorem retrying_kept (hr : d.retries cfg r = false) :
    d.retrying cfg (done ++ [r]) rest = d.retrying cfg done (r :: rest) := by
  simp [retrying, retriedRow, hr]

theorem retrying_all : d.retrying cfg d.processingRuns [] = d.retried cfg := by
  simp [retrying, retried]

end Desk

theorem sweepRuns_placid (h : s.desk.Well) :
    Placid (Prog.forEach (s.db.listRuns [.running]) sweepRun)
      (fun _ t => t.desk = s.desk.failed) s := by
  have hlist : s.db.listRuns [.running] =
      s.desk.processingRuns.filter fun r => decide (r.state ∈ [RunState.running]) :=
    if_neg (by simp)
  rw [hlist, ← Desk.failing_all]
  refine placid_rows (P := fun done rest t => t.desk = s.desk.failing done rest) ?_ ?_ (by rfl)
  · intro done r rest t hrows htest hat
    have hstate : r.state = .running := by simpa using htest
    have hlive : t.ctl.live .process r.id = s.ctl.live .process r.id := by
      change t.desk.ctl.live _ _ = _
      rw [hat]
      rfl
    refine .then (placid_runTaskLive ?_)
    rw [hlive]
    cases htask : s.ctl.live .process r.id with
    | true =>
      have hkept : s.desk.abandoned r = false := by simp [Desk.abandoned, Shared.desk, htask]
      exact .pure (hat.trans (Desk.failing_kept hkept).symm)
    | false =>
      have hmoved : s.desk.abandoned r = true := by
        simp [Desk.abandoned, Shared.desk, htask, hstate]
      have hrow : s.desk.failedRow r = { r with
          state := .failed, exitCode := some (-1) } := if_pos hmoved
      have hnodup := h.runNodup
      rw [hrows] at hnodup
      refine Prog.Gives.catchAll (transitionRun_placid ?_ ?_ hstate (by decide) (by simp) hrow ?_)
      · refine h.keys ?_ ?_ ?_ ?_ <;> rw [hat] <;> simp [Desk.failing, hrows]
      · change Keyed.find ProcessingRun.id t.desk.processingRuns r.id = some r
        rw [hat]
        exact Keyed.find_middle (Desk.failedRow_id s.desk) hnodup
      · intro u hu
        rw [hu, hat]
        have hreplace := Keyed.replace_middle (Desk.failedRow_id s.desk) hnodup
        simp [Desk.failing, hreplace]
  · intro done r rest t _ htest hat
    have hkept : s.desk.abandoned r = false := by
      have hstate : r.state ≠ .running := by simpa using htest
      simp [Desk.abandoned, hstate]
    exact hat.trans (Desk.failing_kept hkept).symm

theorem desk_marked {db : Db} {hit : ProcessingRun → Bool} (step : Db.Marked s.db db hit) :
    Shared.desk { s with db } = { s.desk with
      processingRuns := s.desk.processingRuns.map fun r =>
        if hit r then { r with retryExhausted := true } else r } := by
  simp [Shared.desk, step.rows, step.observations, step.obsSeq, step.runSeq,
    funext step.attempts]

theorem markExhausted_placid {P : List Nat → Shared → Prop}
    (hP : ∀ ids t, t.desk = s.desk.exhausted cfg → P ids t) :
    Placid (store (.markExhaustedFailedRuns cfg.maxProcessingAttempts)) P s := by
  refine placid_store rfl (hP _ _ ?_)
  exact desk_marked (Db.markExhaustedFailedRuns_marked cfg.maxProcessingAttempts)

theorem isRetryable_split (r : ProcessingRun) :
    s.db.isRetryable cfg.maxProcessingAttempts r =
      (s.desk.retries cfg r && !s.db.hasOtherActiveRuns r.observationId r.id) := by
  have hstores : s.desk.stores r.observationId =
      (s.db.obs? r.observationId).any fun o => o.state == .stored := rfl
  have hruns : s.desk.executions = s.db.runExecutionAttempts := rfl
  simp only [Db.isRetryable, Desk.retries, hstores, hruns]
  rw [Bool.and_right_comm]
  cases s.db.obs? r.observationId <;> rfl

/-- An open run is alone, so no other one keeps it from being retried. -/
theorem isRetryable_eq (h : s.desk.Well) {r : ProcessingRun} (hr : r ∈ s.desk.processingRuns) :
    s.db.isRetryable cfg.maxProcessingAttempts r = s.desk.retries cfg r := by
  rw [isRetryable_split]
  cases hretries : s.desk.retries cfg r with
  | false => rfl
  | true =>
    have hstate : r.state = .failed := by
      simp only [Desk.retries, Bool.and_eq_true, beq_iff_eq] at hretries
      exact hretries.1.1.1
    have hother : s.db.hasOtherActiveRuns r.observationId r.id = false := by
      refine List.any_eq_false.mpr fun q hq hactive => ?_
      simp only [Bool.and_eq_true, bne_iff_ne, ne_eq, Db.isActive, activeRunStates,
        decide_eq_true_eq, List.mem_cons, List.not_mem_nil, or_false] at hactive
      obtain ⟨hmem, howner⟩ := List.mem_filter.mp hq
      have hopen : q.state ≠ .superseded := by
        rcases hactive.2 with hs | hs | hs <;> simp [hs]
      exact hactive.1 (h.lone r hr q hmem (by simpa using howner) (by simp [hstate]) hopen)
    rw [hother]
    rfl

/-- One candidate after the other loses its partial products and is queued again. -/
theorem retryRuns_placid (h : s.desk.Well) :
    Placid (Prog.forEach (s.db.listRetryableFailedRuns cfg.maxProcessingAttempts) (retryRun cfg))
      (fun _ t => t.desk = s.desk.retried cfg) s := by
  have hlist : s.db.processingRuns.filter (s.db.isRetryable cfg.maxProcessingAttempts) =
      s.desk.processingRuns.filter (s.desk.retries cfg) :=
    List.filter_congr fun r hr => isRetryable_eq h hr
  rw [Db.listRetryableFailedRuns, hlist, forEach_map, ← Desk.retrying_all]
  refine placid_rows (P := fun done rest t => t.desk = s.desk.retrying cfg done rest) ?_ ?_
    (by rfl)
  · intro done r rest t hrows hretries hat
    have hmem : r ∈ s.desk.processingRuns := by simp [hrows]
    have hstate : r.state = .failed := by
      simp only [Desk.retries, Bool.and_eq_true, beq_iff_eq] at hretries
      exact hretries.1.1.1
    obtain ⟨a, b, hout⟩ := h.outputs r hmem
    have hdisk : t.disk = s.desk.cleared (done.filter (s.desk.retries cfg)) :=
      congrArg Desk.disk hat
    have hkept : t.disk.Kept :=
      hdisk ▸ h.cleared fun q hq => by simp [hrows, (List.mem_filter.mp hq).1]
    have hremoved : ∀ {P : Unit → Shared → Prop},
        P () { t with disk := t.disk.emptied (parent r.outputPrefix) } →
        Placid (removeIfExists (parent r.outputPrefix)) P t := by
      refine removeIfExists_placid ?_ ?_
      · rw [hout]
        exact hkept.flat a b
      · rw [hout]
        simp [parent, quarantineRoot]
    have hrow : s.desk.retriedRow cfg r = { r with state := .queued, exitCode := r.exitCode } :=
      if_pos hretries
    have hnodup := h.runNodup
    rw [hrows] at hnodup
    refine Prog.Gives.bind (P := fun b u => b = true ∧
      u = { t with disk := t.disk.emptied (parent r.outputPrefix) })
      (.catchAll (.then (hremoved (.pure ⟨rfl, rfl⟩)))) ?_
    rintro _ u ⟨rfl, rfl⟩
    have hdesk : Shared.desk { t with disk := t.disk.emptied (parent r.outputPrefix) } =
        { s.desk.retrying cfg done (r :: rest) with
          disk := (s.desk.cleared (done.filter (s.desk.retries cfg))).emptied
            (parent r.outputPrefix) } := by
      rw [← hat, ← hdisk]
      rfl
    refine Prog.Gives.catchAll (transitionRun_placid ?_ ?_ hstate (by decide) (by simp) hrow ?_)
    · refine h.keys ?_ ?_ ?_ ?_ <;> rw [hdesk] <;> simp [Desk.retrying, hrows]
    · change Keyed.find ProcessingRun.id t.desk.processingRuns r.id = some r
      rw [hat]
      exact Keyed.find_middle (Desk.retriedRow_id s.desk) hnodup
    · intro v hv
      have hid : ∀ q, (s.desk.retriedRow cfg q).id = q.id := Desk.retriedRow_id s.desk
      rw [hv, hdesk]
      simp [Desk.retrying, Desk.cleared, hretries, Keyed.replace_middle hid hnodup]
  · intro done r rest t _ hretries hat
    exact hat.trans (Desk.retrying_kept hretries).symm

end Runs

end Sdpctl
