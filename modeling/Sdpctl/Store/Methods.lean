import Sdpctl.Store.Rows

/-!
One lemma for each method of the store that changes rows: which rows change,
and what the method has checked before.
-/

namespace Sdpctl.Db

open FileTree

variable {db db' : Db}

/-- `create_observation_auto` adds one planned row whose path derives from its id. -/
theorem createObservationAuto_added (ids : db.Ids) (reserved : Nat) :
    ObsAdded db (db.createObservationAuto reserved).2
      { id := db.obsSeq + 1, state := .planned, msPath := msPathOf (db.obsSeq + 1), sizeBytes := 0,
        reservedBytes := reserved, error := none } where
  rows := by
    have hold : db.observations.map (fun o =>
        if o.id = db.obsSeq + 1 then { o with msPath := msPathOf (db.obsSeq + 1) } else o)
          = db.observations := by
      conv_rhs => rw [← List.map_id db.observations]
      refine List.map_congr_left fun o ho => ?_
      have hle := ids.obsBound o ho
      rw [if_neg (by omega)]
      rfl
    simp [createObservationAuto, insertObservation, updateObs, record, hold]
  id := rfl
  runs := rfl
  obsSeq := rfl
  runSeq := rfl
  attempts rid := by
    have hquiet : ∀ e ∈ [Event.observation (db.obsSeq + 1) none (some .planned) "created"],
        ∀ i, isExecution i e = false := by simp [isExecution]
    exact runExecutionAttempts_record db hquiet rid
  log := ⟨_, rfl⟩

@[simp] theorem createObservationAuto_id (db : Db) (reserved : Nat) :
    (db.createObservationAuto reserved).1 = db.obsSeq + 1 := rfl

theorem transitionObservation_ok (ids : db.Ids) {oid : Nat} {expected new : ObservationState}
    {reason : String} {size reserved : Option Nat} {error : Option String}
    (h : db.transitionObservation oid expected new reason size reserved error = .ok db') :
    new ∈ obsTransitions expected ∧ ∃ o, o.id = oid ∧ o.state = expected ∧ ObsStep db db' o
      { o with state := new, sizeBytes := size.getD o.sizeBytes,
               reservedBytes := reserved.getD o.reservedBytes, error := error <|> o.error } := by
  unfold transitionObservation at h
  split at h
  · cases h
  · rename_i hlegal
    exact ⟨by simpa using hlegal,
      guardedObs_ok ids (fun _ => rfl) (fun _ => rfl) (fun _ => rfl) h⟩

/-- A legal transition of an observation fails only when its guard does. -/
theorem transitionObservation_error (ids : db.Ids) {oid : Nat} {expected new : ObservationState}
    {reason : String} {size reserved : Option Nat} {error : Option String} {e : Exn}
    (hlegal : new ∈ obsTransitions expected)
    (h : db.transitionObservation oid expected new reason size reserved error = .error e) :
    (∃ m, e = .transitionError m) ∧ ∀ o, db.obs? oid = some o → o.state ≠ expected := by
  unfold transitionObservation guardedObs at h
  rw [if_neg (by simpa using hlegal)] at h
  split at h
  · rename_i hlen
    cases h
    refine ⟨⟨_, rfl⟩, fun o ho hstate => hlen ?_⟩
    have hfilter : db.observations.filter (obsGuard oid expected) = [o] := by
      have hkey := Keyed.filter_key ids.obsNodup oid
      rw [show Keyed.find Observation.id db.observations oid = some o from ho] at hkey
      have hsplit : db.observations.filter (obsGuard oid expected) =
          (db.observations.filter fun x => x.id == oid).filter fun x => x.state == expected := by
        rw [List.filter_filter]
        refine List.filter_congr fun x _ => ?_
        simp [obsGuard, Bool.and_comm]
      rw [hsplit, hkey]
      simp [hstate]
    rw [hfilter]
    rfl
  · cases h

/-- A legal transition of an observation in the expected state succeeds. -/
theorem transitionObservation_found (ids : db.Ids) {o o' : Observation}
    {expected new : ObservationState} {size reserved : Option Nat} {error : Option String}
    (ho : db.obs? o.id = some o) (hstate : o.state = expected)
    (legal : new ∈ obsTransitions expected) (ho' : o' = { o with
      state := new, sizeBytes := size.getD o.sizeBytes,
      reservedBytes := reserved.getD o.reservedBytes, error := error <|> o.error })
    (reason : String) :
    ∃ db', db.transitionObservation o.id expected new reason size reserved error = .ok db' ∧
      ObsStep db db' o o' := by
  cases hrun : db.transitionObservation o.id expected new reason size reserved error with
  | error e =>
    obtain ⟨_, hno⟩ := transitionObservation_error ids legal hrun
    exact absurd hstate (hno o ho)
  | ok db' =>
    obtain ⟨_, p, hid, _, step⟩ := transitionObservation_ok ids hrun
    have hop : o = p := by
      have hfound := step.found
      simp only [hid] at hfound
      exact Option.some.inj (ho.symm.trans hfound)
    subst hop
    rw [← ho'] at step
    exact ⟨db', rfl, step⟩

/-- `force_observation_fields` changes the row. -/
theorem forceObservationFields_found (ids : db.Ids) {o : Observation} (ho : db.obs? o.id = some o)
    (reserved : Option Nat) (error : Option String) :
    ObsStep db (db.forceObservationFields o.id reserved error) o
      { o with reservedBytes := reserved.getD o.reservedBytes, error := error <|> o.error } := by
  refine ⟨ho, ?_, rfl, rfl, rfl, rfl, fun _ => rfl, .inl ⟨rfl, rfl⟩⟩
  refine List.map_congr_left fun x hx => ?_
  by_cases hxo : x.id = o.id
  · have hxeq : x = o := by
      have hx? := ids.obs? hx
      rw [hxo, ho] at hx?
      exact (Option.some.inj hx?).symm
    simp [hxeq]
  · simp [hxo]

/-- `force_observation_fields` changes the row, when there is one. -/
theorem forceObservationFields_step (ids : db.Ids) (oid : Nat) (reserved : Option Nat)
    (error : Option String) :
    db.forceObservationFields oid reserved error = db ∨ ∃ o, o.id = oid ∧
      ObsStep db (db.forceObservationFields oid reserved error) o
        { o with reservedBytes := reserved.getD o.reservedBytes, error := error <|> o.error } := by
  cases hfind : db.obs? oid with
  | none =>
    left
    have hnone := Keyed.find_eq_none_iff.mp hfind
    unfold forceObservationFields updateObs
    have hmap : db.observations.map (fun o => if (o.id == oid) = true then
        { o with reservedBytes := reserved.getD o.reservedBytes, error := error <|> o.error }
        else o) = db.observations := by
      conv_rhs => rw [← List.map_id db.observations]
      refine List.map_congr_left fun o ho => ?_
      simp [hnone o ho]
    rw [hmap]
  | some o =>
    obtain ⟨_, rfl⟩ := mem_of_obs? hfind
    exact .inr ⟨o, rfl, forceObservationFields_found ids hfind reserved error⟩

theorem insertRun_ok {oid attempt rid : Nat} {outputPrefix logPath : Path} {reason : String}
    (h : db.insertRun oid attempt outputPrefix logPath reason = .ok (rid, db')) :
    RunAdded db db'
      { id := db.runSeq + 1, observationId := oid, attempt, state := .queued, outputPrefix, logPath,
        exitCode := none, qaVerdict := none, qaNote := none, retryExhausted := false } := by
  unfold insertRun at h
  split at h
  · cases h
  · rename_i howner
    split at h
    · cases h
    · rename_i hunused
      cases h
      refine ⟨rfl, rfl, rfl, rfl, ?_, ?_, rfl, rfl, rfl, ?_, reason, rfl⟩
      · cases hobs : db.obs? oid with
        | none => simp [hobs] at howner
        | some o => rfl
      · simpa using hunused
      · intro rid
        have hquiet : ∀ e ∈ [Event.run (db.runSeq + 1) none (some .queued) reason],
            ∀ i, isExecution i e = false := by simp [isExecution]
        exact runExecutionAttempts_record db hquiet rid

theorem transitionRun_ok (ids : db.Ids) {rid : Nat} {expected new : RunState} {reason : String}
    {code : Option Int} (h : db.transitionRun rid expected new reason code = .ok db') :
    new ∈ runTransitions expected ∧ ∃ r, r.id = rid ∧ r.state = expected ∧ RunStep db db' r
      { r with state := new, exitCode := code <|> r.exitCode } := by
  unfold transitionRun at h
  split at h
  · cases h
  · rename_i hlegal
    exact ⟨by simpa using hlegal, guardedRun_ok ids (fun _ => rfl) (fun _ => rfl) (fun _ => rfl)
      (fun _ => rfl) (fun _ => rfl) (fun _ => rfl) h⟩

theorem filter_runGuard (ids : db.Ids) {rid : Nat} {r : ProcessingRun} (hr : db.run? rid = some r) :
    db.processingRuns.filter (runGuard rid r.state) = [r] := by
  have hkey := Keyed.filter_key ids.runNodup rid
  rw [show Keyed.find ProcessingRun.id db.processingRuns rid = some r from hr] at hkey
  have hsplit : db.processingRuns.filter (runGuard rid r.state) =
      (db.processingRuns.filter fun x => x.id == rid).filter fun x => x.state == r.state := by
    rw [List.filter_filter]
    refine List.filter_congr fun x _ => ?_
    simp [runGuard, Bool.and_comm]
  rw [hsplit, hkey]
  simp

theorem guardedRun_found (ids : db.Ids) {rid : Nat} {r : ProcessingRun}
    (hr : db.run? rid = some r) (f : ProcessingRun → ProcessingRun) (event : Event) :
    ∃ db', db.guardedRun rid r.state f event = .ok db' := by
  unfold guardedRun
  rw [filter_runGuard ids hr]
  exact ⟨_, if_neg (by simp)⟩

theorem transitionRun_error (ids : db.Ids) {rid : Nat} {expected new : RunState} {reason : String}
    {code : Option Int} {e : Exn} (hlegal : new ∈ runTransitions expected)
    (h : db.transitionRun rid expected new reason code = .error e) :
    (∃ m, e = .transitionError m) ∧ ∀ r, db.run? rid = some r → r.state ≠ expected := by
  unfold transitionRun guardedRun at h
  rw [if_neg (by simpa using hlegal)] at h
  split at h
  · rename_i hlen
    cases h
    refine ⟨⟨_, rfl⟩, fun r hr hstate => hlen ?_⟩
    rw [← hstate, filter_runGuard ids hr]
    rfl
  · cases h

theorem transitionRun_found (ids : db.Ids) {r r' : ProcessingRun} {expected new : RunState}
    {code : Option Int} (hr : db.run? r.id = some r) (hstate : r.state = expected)
    (legal : new ∈ runTransitions expected)
    (hr' : r' = { r with state := new, exitCode := code <|> r.exitCode }) (reason : String) :
    ∃ db', db.transitionRun r.id expected new reason code = .ok db' ∧ RunStep db db' r r' := by
  cases hrun : db.transitionRun r.id expected new reason code with
  | error e =>
    obtain ⟨_, hno⟩ := transitionRun_error ids legal hrun
    exact absurd hstate (hno r hr)
  | ok db' =>
    obtain ⟨_, q, hid, _, step⟩ := transitionRun_ok ids hrun
    have hrq : r = q := by
      have hfound := step.found
      simp only [hid] at hfound
      exact Option.some.inj (hr.symm.trans hfound)
    subst hrq
    rw [← hr'] at step
    exact ⟨db', rfl, step⟩

theorem qaTarget_ok {rid : Nat} {states : List RunState} {complaint : RunState → String}
    {run : ProcessingRun} {obs : Observation}
    (h : db.qaTarget rid states complaint = .ok (run, obs)) :
    db.run? rid = some run ∧ run.state ∈ states ∧ db.obs? run.observationId = some obs ∧
      obs.state = .stored ∧ db.hasOtherActiveRuns obs.id rid = false := by
  unfold qaTarget at h
  split at h
  · cases h
  · rename_i r hr
    split at h
    · cases h
    · rename_i hstate
      split at h
      · cases h
      · rename_i o ho
        split at h
        · cases h
        · rename_i hstored
          split at h
          · cases h
          · rename_i hactive
            cases h
            exact ⟨hr, by simpa using hstate, ho, by simpa using hstored, by simpa using hactive⟩

def judged (r : ProcessingRun) (new : RunState) (verdict note : String) : ProcessingRun :=
  { r with state := new, qaVerdict := some verdict, qaNote := some note }

@[simp] theorem judged_id (r : ProcessingRun) (new : RunState) (verdict note : String) :
    (judged r new verdict note).id = r.id := rfl

theorem decideRun_ok (ids : db.Ids) {rid : Nat} {expected new : RunState}
    {verdict note reason : String} {run : ProcessingRun} (hrun : db.run? rid = some run)
    (h : db.decideRun rid expected new verdict note reason = .ok db') :
    run.state = expected ∧ RunStep db db' run (judged run new verdict note) := by
  obtain ⟨r, hrid, hstate, hstep⟩ : ∃ r, r.id = rid ∧ r.state = expected ∧
      RunStep db db' r (judged r new verdict note) :=
    guardedRun_ok (f := fun r => judged r new verdict note) ids (fun _ => rfl)
      (fun _ => rfl) (fun _ => rfl) (fun _ => rfl) (fun _ => rfl) (fun _ => rfl) h
  have hfound : db.run? r.id = some r := hstep.found
  rw [hrid, hrun] at hfound
  cases hfound
  exact ⟨hstate, hstep⟩

theorem beginDeletion_ok (ids : db.Ids) {oid : Nat} {reason : String}
    (h : db.beginDeletion oid reason = .ok db') :
    ∃ o, o.id = oid ∧ o.state = .stored ∧ ObsStep db db' o { o with state := .deleting } :=
  guardedObs_ok ids (fun _ => rfl) (fun _ => rfl) (fun _ => rfl) h

/-- A verdict that releases the raw data: the run is decided and its observation,
which was stored, begins its deletion. -/
structure Releases (db db' : Db) (oid : Nat) (r r' : ProcessingRun) (o : Observation) : Prop where
  ids : db.Ids
  owner : r.observationId = oid
  obsId : o.id = oid
  stored : o.state = .stored
  decided : r'.state = .accepted ∨ r'.state = .discarded
  open_ : r.state = .awaitingQa ∨ r.state = .failed
  steps : ∃ mid, RunStep db mid r r' ∧ ObsStep mid db' o { o with state := .deleting }

/-- The transaction of a verdict: the checks, the verdict and the deletion. -/
theorem releases_ok (ids : db.Ids) {rid oid : Nat} {states : List RunState}
    {complaint : RunState → String} {expected new : RunState}
    {verdict note reason reason' : String} (hnew : new = .accepted ∨ new = .discarded)
    (hopen : expected = .awaitingQa ∨ expected = .failed)
    (h : (do
      let (_, obs) ← db.qaTarget rid states complaint
      let db ← db.decideRun rid expected new verdict note reason
      let db ← db.beginDeletion obs.id reason'
      return (obs.id, db)) = Except.ok (oid, db')) :
    ∃ r o, r.id = rid ∧ r.state = expected ∧
      Releases db db' oid r (judged r new verdict note) o := by
  simp only [bind, Except.bind, pure, Except.pure] at h
  split at h
  · cases h
  · rename_i target htarget
    obtain ⟨run, obs⟩ := target
    obtain ⟨hrun, -, hobs, -, -⟩ := qaTarget_ok htarget
    simp only at h
    split at h
    · cases h
    · rename_i mid hmid
      split at h
      · cases h
      · rename_i last hlast
        cases h
        obtain ⟨hstate, hstep⟩ := decideRun_ok ids hrun hmid
        obtain ⟨o, hoid, hostate, hostep⟩ := beginDeletion_ok (hstep.ids ids) hlast
        exact ⟨run, o, (mem_of_run? hrun).2, hstate, ids, (mem_of_obs? hobs).2.symm, hoid, hostate,
          hnew, hstate ▸ hopen, mid, hstep, hostep⟩

theorem acceptRunAndBeginDeletion_ok (ids : db.Ids) {rid oid : Nat} {note : String}
    (h : db.acceptRunAndBeginDeletion rid note = .ok (oid, db')) :
    ∃ r o, r.id = rid ∧ r.state = .awaitingQa ∧
      Releases db db' oid r (judged r .accepted "accept" note) o :=
  releases_ok ids (.inl rfl) (.inl rfl) h

theorem discardFailedRunAndBeginDeletion_ok (ids : db.Ids) {rid oid : Nat} {note : String}
    (h : db.discardFailedRunAndBeginDeletion rid note = .ok (oid, db')) :
    ∃ r o, r.id = rid ∧ r.state = .failed ∧
      Releases db db' oid r (judged r .discarded "discard" note) o :=
  releases_ok ids (.inr rfl) (.inr rfl) h

theorem reprocessRunAndCreate_ok (ids : db.Ids) {rid new : Nat} {outputPrefix logPath : Path}
    {note : String} (h : db.reprocessRunAndCreate rid outputPrefix logPath note = .ok (new, db')) :
    ∃ r q o mid, r.id = rid ∧ db.obs? r.observationId = some o ∧ o.state = .stored ∧
      (r.state = .awaitingQa ∨ r.state = .failed) ∧
      RunStep db mid r (judged r .superseded "reprocess" note) ∧ RunAdded mid db' q ∧
      q.observationId = r.observationId ∧ q.attempt = r.attempt + 1 ∧
      q.outputPrefix = outputPrefix ∧ q.qaVerdict = none := by
  simp only [reprocessRunAndCreate, bind, Except.bind] at h
  split at h
  · cases h
  · rename_i target htarget
    obtain ⟨run, obs⟩ := target
    obtain ⟨hrun, hstate, hobs, hstored, _⟩ := qaTarget_ok htarget
    simp only at h
    split at h
    · cases h
    · rename_i u hlegal
      split at h
      · cases h
      · rename_i mid hmid
        obtain ⟨-, hstep⟩ := decideRun_ok ids hrun hmid
        exact ⟨run, _, obs, mid, (mem_of_run? hrun).2, hobs, hstored, by simpa using hstate, hstep,
          insertRun_ok h, (mem_of_obs? hobs).2, rfl, rfl, rfl⟩

theorem recordEvent_attempts (entity : EntityType) (id : Nat) (reason : String) (rid : Nat) :
    (db.recordEvent entity id reason).runExecutionAttempts rid = db.runExecutionAttempts rid := by
  refine runExecutionAttempts_record db (fun e he i => ?_) rid
  cases entity <;> simp at he <;> subst he <;> rfl

theorem recordEvent_reachedQa (entity : EntityType) (id : Nat) (reason : String) (rid : Nat) :
    (db.recordEvent entity id reason).reachedQa rid = db.reachedQa rid := by
  cases entity <;> simp [recordEvent, record, reachedQa, isDelivery]

theorem markExhaustedFailedRuns_marked (m : Nat) :
    Marked db (db.markExhaustedFailedRuns m).2 (db.exhausts m) where
  rows := rfl
  failed r h := by
    simp only [exhausts, Bool.and_eq_true, beq_iff_eq] at h
    exact h.1.1
  observations := rfl
  obsSeq := rfl
  runSeq := rfl
  attempts rid := by
    have hquiet : ∀ e ∈ ((db.processingRuns.filter (db.exhausts m)).map (·.id)).map fun rid =>
        Event.run rid none none
          ("automatic retry budget exhausted at " ++ toString m ++ " execution(s)"),
        ∀ i, isExecution i e = false := by
      intro e he i
      obtain ⟨r, _, rfl⟩ := List.mem_map.mp he
      rfl
    exact runExecutionAttempts_record db hquiet rid
  log := by
    refine ⟨_, rfl, fun e he => ?_⟩
    obtain ⟨r, _, rfl⟩ := List.mem_map.mp he
    trivial

/-- The row that `mark_run_retry_exhausted` hits. -/
def marksOne (rid : Nat) (r : ProcessingRun) : Bool := runGuard rid .failed r && !r.retryExhausted

theorem markRunRetryExhausted_marked (rid : Nat) (reason : String) :
    Marked db (db.markRunRetryExhausted rid reason) (marksOne rid) := by
  have hfailed : ∀ r, marksOne rid r → r.state = .failed := by
    intro r h
    simp only [marksOne, runGuard, Bool.and_eq_true, beq_iff_eq] at h
    exact h.1.2
  unfold markRunRetryExhausted
  simp only
  split
  · exact ⟨rfl, hfailed, rfl, rfl, rfl, fun _ => rfl, [], by simp [updateRuns], by simp⟩
  · refine ⟨rfl, hfailed, rfl, rfl, rfl, fun i => ?_, _, rfl, by simp [Silent]⟩
    have hquiet : ∀ e ∈ [Event.run rid none none reason], ∀ i, isExecution i e = false := by
      simp [isExecution]
    exact runExecutionAttempts_record db hquiet i

end Sdpctl.Db
