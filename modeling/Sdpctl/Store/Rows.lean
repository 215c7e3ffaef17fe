import Sdpctl.Store
import Sdpctl.Keyed

/-!
What the methods of the store do to the rows. Every change is one of four: an
observation is replaced, a run is replaced, a row is added, or the exhaustion
marks of failed runs are set. The lemmas about the methods say which one, with
everything their guards have checked.
-/

namespace Sdpctl.Db

open FileTree

structure Ids (db : Db) : Prop where
  obsNodup : (db.observations.map Observation.id).Nodup
  obsBound : ∀ o ∈ db.observations, o.id ≤ db.obsSeq
  runNodup : (db.processingRuns.map ProcessingRun.id).Nodup
  runBound : ∀ r ∈ db.processingRuns, r.id ≤ db.runSeq

def Silent : Event → Prop
  | .observation _ _ (some _) _ | .run _ _ (some _) _ => False
  | _ => True

def isDelivery (rid : Nat) : Event → Bool
  | .run id _ (some .awaitingQa) _ => id == rid
  | _ => false

/-- The run has been `AWAITING_QA`. -/
def reachedQa (db : Db) (rid : Nat) : Bool := db.events.any (isDelivery rid)

/-- The observation `o` becomes `o'`; nothing else changes. -/
structure ObsStep (db db' : Db) (o o' : Observation) : Prop where
  found : db.obs? o'.id = some o
  rows : db'.observations = Keyed.replace Observation.id o' db.observations
  msPath : o'.msPath = o.msPath
  runs : db'.processingRuns = db.processingRuns
  obsSeq : db'.obsSeq = db.obsSeq
  runSeq : db'.runSeq = db.runSeq
  attempts : ∀ rid, db'.runExecutionAttempts rid = db.runExecutionAttempts rid
  log : (db'.events = db.events ∧ o'.state = o.state) ∨
    ∃ reason, db'.events =
      db.events ++ [.observation o'.id (some o.state) (some o'.state) reason]

/-- The run `r` becomes `r'`, under the same observation and attempt. -/
structure RunStep (db db' : Db) (r r' : ProcessingRun) : Prop where
  found : db.run? r'.id = some r
  rows : db'.processingRuns = Keyed.replace ProcessingRun.id r' db.processingRuns
  observationId : r'.observationId = r.observationId
  attempt : r'.attempt = r.attempt
  outputPrefix : r'.outputPrefix = r.outputPrefix
  mark : r'.retryExhausted = r.retryExhausted
  observations : db'.observations = db.observations
  obsSeq : db'.obsSeq = db.obsSeq
  runSeq : db'.runSeq = db.runSeq
  attempts : ¬ (r.state = .queued ∧ r'.state = .running) →
    ∀ rid, db'.runExecutionAttempts rid = db.runExecutionAttempts rid
  log : ∃ reason, db'.events = db.events ++ [.run r'.id (some r.state) (some r'.state) reason]

/-- The observation `o` is added under a fresh id. -/
structure ObsAdded (db db' : Db) (o : Observation) : Prop where
  rows : db'.observations = db.observations ++ [o]
  id : o.id = db.obsSeq + 1
  runs : db'.processingRuns = db.processingRuns
  obsSeq : db'.obsSeq = db.obsSeq + 1
  runSeq : db'.runSeq = db.runSeq
  attempts : ∀ rid, db'.runExecutionAttempts rid = db.runExecutionAttempts rid
  log : ∃ reason, db'.events = db.events ++ [.observation o.id none (some o.state) reason]

/-- The queued run `r` is added under a fresh id and a fresh attempt. -/
structure RunAdded (db db' : Db) (r : ProcessingRun) : Prop where
  rows : db'.processingRuns = db.processingRuns ++ [r]
  id : r.id = db.runSeq + 1
  state : r.state = .queued
  fresh : r.retryExhausted = false
  owner : (db.obs? r.observationId).isSome
  unused : ∀ q ∈ db.runsOf r.observationId, q.attempt ≠ r.attempt
  observations : db'.observations = db.observations
  obsSeq : db'.obsSeq = db.obsSeq
  runSeq : db'.runSeq = db.runSeq + 1
  attempts : ∀ rid, db'.runExecutionAttempts rid = db.runExecutionAttempts rid
  log : ∃ reason, db'.events = db.events ++ [.run r.id none (some r.state) reason]

/-- The exhaustion mark of some failed runs is set. -/
structure Marked (db db' : Db) (hit : ProcessingRun → Bool) : Prop where
  rows : db'.processingRuns = db.processingRuns.map fun r =>
    if hit r then { r with retryExhausted := true } else r
  failed : ∀ r, hit r → r.state = .failed
  observations : db'.observations = db.observations
  obsSeq : db'.obsSeq = db.obsSeq
  runSeq : db'.runSeq = db.runSeq
  attempts : ∀ rid, db'.runExecutionAttempts rid = db.runExecutionAttempts rid
  log : ∃ es, db'.events = db.events ++ es ∧ ∀ e ∈ es, Silent e

variable {db db' : Db}

theorem obs?_eq (db : Db) (oid : Nat) :
    db.obs? oid = Keyed.find Observation.id db.observations oid := rfl

theorem run?_eq (db : Db) (rid : Nat) :
    db.run? rid = Keyed.find ProcessingRun.id db.processingRuns rid := rfl

theorem mem_of_obs? {oid : Nat} {o : Observation} (h : db.obs? oid = some o) :
    o ∈ db.observations ∧ o.id = oid := Keyed.mem_of_find h

theorem mem_of_run? {rid : Nat} {r : ProcessingRun} (h : db.run? rid = some r) :
    r ∈ db.processingRuns ∧ r.id = rid := Keyed.mem_of_find h

theorem Ids.obs? (ids : db.Ids) {o : Observation} (h : o ∈ db.observations) :
    db.obs? o.id = some o := Keyed.find_of_mem ids.obsNodup h

theorem Ids.run? (ids : db.Ids) {r : ProcessingRun} (h : r ∈ db.processingRuns) :
    db.run? r.id = some r := Keyed.find_of_mem ids.runNodup h

theorem mem_runsOf {oid : Nat} {r : ProcessingRun} :
    r ∈ db.runsOf oid ↔ r ∈ db.processingRuns ∧ r.observationId = oid := by
  simp [runsOf]

theorem runsOf_congr (h : db'.processingRuns = db.processingRuns) (oid : Nat) :
    db'.runsOf oid = db.runsOf oid := by simp [runsOf, h]

theorem run?_congr (h : db'.processingRuns = db.processingRuns) (rid : Nat) :
    db'.run? rid = db.run? rid := by simp [run?, h]

theorem obs?_congr (h : db'.observations = db.observations) (oid : Nat) :
    db'.obs? oid = db.obs? oid := by simp [obs?, h]

namespace ObsStep

variable {o o' : Observation}

theorem id (h : ObsStep db db' o o') : o.id = o'.id := (mem_of_obs? h.found).2

theorem obs? (h : ObsStep db db' o o') (i : Nat) :
    db'.obs? i = if i = o'.id then some o' else db.obs? i := by
  rw [obs?_eq, h.rows]
  exact Keyed.find_replace h.found i

theorem obs?_self (h : ObsStep db db' o o') : db'.obs? o'.id = some o' := by simp [h.obs?]

theorem obs?_ne (h : ObsStep db db' o o') {i : Nat} (hne : i ≠ o'.id) :
    db'.obs? i = db.obs? i := by simp [h.obs?, hne]

theorem run? (h : ObsStep db db' o o') (rid : Nat) : db'.run? rid = db.run? rid :=
  run?_congr h.runs rid

theorem runsOf (h : ObsStep db db' o o') (oid : Nat) : db'.runsOf oid = db.runsOf oid :=
  runsOf_congr h.runs oid

theorem reachedQa (h : ObsStep db db' o o') (rid : Nat) :
    db'.reachedQa rid = db.reachedQa rid := by
  rcases h.log with ⟨hsame, _⟩ | ⟨reason, hlog⟩
  · simp [Db.reachedQa, hsame]
  · simp [Db.reachedQa, hlog, isDelivery]

theorem ids (h : ObsStep db db' o o') (ids : db.Ids) : db'.Ids where
  obsNodup := by rw [h.rows, Keyed.keys_replace]; exact ids.obsNodup
  obsBound := by
    intro x hx
    rw [h.rows] at hx
    rw [h.obsSeq]
    rcases Keyed.mem_replace hx with rfl | ⟨hmem, _⟩
    · rw [← h.id]
      exact ids.obsBound o (mem_of_obs? h.found).1
    · exact ids.obsBound x hmem
  runNodup := by rw [h.runs]; exact ids.runNodup
  runBound := by rw [h.runs, h.runSeq]; exact ids.runBound

theorem sum (h : ObsStep db db' o o') (ids : db.Ids) (g : Observation → Nat) :
    (db'.observations.map g).sum + g o = (db.observations.map g).sum + g o' := by
  rw [h.rows]
  exact Keyed.sum_replace g ids.obsNodup h.found

theorem length (h : ObsStep db db' o o') : db'.observations.length = db.observations.length := by
  rw [h.rows]
  exact List.length_map _

end ObsStep

namespace RunStep

variable {r r' : ProcessingRun}

theorem id (h : RunStep db db' r r') : r.id = r'.id := (mem_of_run? h.found).2

theorem run? (h : RunStep db db' r r') (i : Nat) :
    db'.run? i = if i = r'.id then some r' else db.run? i := by
  rw [run?_eq, h.rows]
  exact Keyed.find_replace h.found i

theorem run?_self (h : RunStep db db' r r') : db'.run? r'.id = some r' := by simp [h.run?]

theorem run?_ne (h : RunStep db db' r r') {i : Nat} (hne : i ≠ r'.id) :
    db'.run? i = db.run? i := by simp [h.run?, hne]

theorem obs? (h : RunStep db db' r r') (oid : Nat) : db'.obs? oid = db.obs? oid :=
  obs?_congr h.observations oid

theorem runsOf (h : RunStep db db' r r') (ids : db.Ids) (oid : Nat) :
    db'.runsOf oid = Keyed.replace ProcessingRun.id r' (db.runsOf oid) := by
  unfold Db.runsOf
  rw [h.rows]
  refine Keyed.filter_replace fun x hx hk => ?_
  have hxr : x = r := by
    have hfind := ids.run? hx
    rw [hk, h.found] at hfind
    exact (Option.some.inj hfind).symm
  rw [hxr, h.observationId]

theorem reachedQa (h : RunStep db db' r r') (rid : Nat) :
    db'.reachedQa rid = (db.reachedQa rid || (r'.id == rid && r'.state == .awaitingQa)) := by
  obtain ⟨reason, hlog⟩ := h.log
  unfold Db.reachedQa
  rw [hlog, List.any_append]
  cases r'.state <;> simp [isDelivery]

theorem ids (h : RunStep db db' r r') (ids : db.Ids) : db'.Ids where
  obsNodup := by rw [h.observations]; exact ids.obsNodup
  obsBound := by rw [h.observations, h.obsSeq]; exact ids.obsBound
  runNodup := by rw [h.rows, Keyed.keys_replace]; exact ids.runNodup
  runBound := by
    intro x hx
    rw [h.rows] at hx
    rw [h.runSeq]
    rcases Keyed.mem_replace hx with rfl | ⟨hmem, _⟩
    · rw [← h.id]
      exact ids.runBound r (mem_of_run? h.found).1
    · exact ids.runBound x hmem

end RunStep

namespace ObsAdded

variable {o : Observation}

theorem fresh (h : ObsAdded db db' o) (ids : db.Ids) : ∀ x ∈ db.observations, x.id ≠ o.id := by
  intro x hx heq
  have hle := ids.obsBound x hx
  rw [heq, h.id] at hle
  omega

theorem obs? (h : ObsAdded db db' o) (ids : db.Ids) (i : Nat) :
    db'.obs? i = if i = o.id then some o else db.obs? i := by
  rw [obs?_eq, h.rows]
  exact Keyed.find_append (h.fresh ids) i

theorem run? (h : ObsAdded db db' o) (rid : Nat) : db'.run? rid = db.run? rid :=
  run?_congr h.runs rid

theorem runsOf (h : ObsAdded db db' o) (oid : Nat) : db'.runsOf oid = db.runsOf oid :=
  runsOf_congr h.runs oid

theorem reachedQa (h : ObsAdded db db' o) (rid : Nat) :
    db'.reachedQa rid = db.reachedQa rid := by
  obtain ⟨reason, hlog⟩ := h.log
  simp [Db.reachedQa, hlog, isDelivery]

theorem ids (h : ObsAdded db db' o) (ids : db.Ids) : db'.Ids where
  obsNodup := by
    rw [h.rows, List.map_append]
    refine List.Nodup.append ids.obsNodup (List.nodup_singleton _) ?_
    intro i hi hi'
    obtain ⟨x, hx, rfl⟩ := List.mem_map.mp hi
    exact h.fresh ids x hx (by simpa using hi')
  obsBound := by
    intro x hx
    rw [h.rows] at hx
    rw [h.obsSeq]
    rcases List.mem_append.mp hx with hx | hx
    · have hle := ids.obsBound x hx
      omega
    · rw [List.mem_singleton.mp hx]
      exact Nat.le_of_eq h.id
  runNodup := by rw [h.runs]; exact ids.runNodup
  runBound := by rw [h.runs, h.runSeq]; exact ids.runBound

end ObsAdded

namespace RunAdded

variable {r : ProcessingRun}

theorem newId (h : RunAdded db db' r) (ids : db.Ids) :
    ∀ x ∈ db.processingRuns, x.id ≠ r.id := by
  intro x hx heq
  have hle := ids.runBound x hx
  rw [heq, h.id] at hle
  omega

theorem run? (h : RunAdded db db' r) (ids : db.Ids) (i : Nat) :
    db'.run? i = if i = r.id then some r else db.run? i := by
  rw [run?_eq, h.rows]
  exact Keyed.find_append (h.newId ids) i

theorem run?_none (h : RunAdded db db' r) (ids : db.Ids) : db.run? r.id = none :=
  Keyed.find_eq_none_iff.mpr (h.newId ids)

theorem obs? (h : RunAdded db db' r) (oid : Nat) : db'.obs? oid = db.obs? oid :=
  obs?_congr h.observations oid

theorem runsOf (h : RunAdded db db' r) (oid : Nat) :
    db'.runsOf oid = db.runsOf oid ++ if r.observationId = oid then [r] else [] := by
  unfold Db.runsOf
  rw [h.rows, List.filter_append]
  by_cases hr : r.observationId = oid <;> simp [hr]

theorem reachedQa (h : RunAdded db db' r) (rid : Nat) :
    db'.reachedQa rid = db.reachedQa rid := by
  obtain ⟨reason, hlog⟩ := h.log
  simp [Db.reachedQa, hlog, h.state, isDelivery]

theorem ids (h : RunAdded db db' r) (ids : db.Ids) : db'.Ids where
  obsNodup := by rw [h.observations]; exact ids.obsNodup
  obsBound := by rw [h.observations, h.obsSeq]; exact ids.obsBound
  runNodup := by
    rw [h.rows, List.map_append]
    refine List.Nodup.append ids.runNodup (List.nodup_singleton _) ?_
    intro i hi hi'
    obtain ⟨x, hx, rfl⟩ := List.mem_map.mp hi
    exact h.newId ids x hx (by simpa using hi')
  runBound := by
    intro x hx
    rw [h.rows] at hx
    rw [h.runSeq]
    rcases List.mem_append.mp hx with hx | hx
    · have hle := ids.runBound x hx
      omega
    · rw [List.mem_singleton.mp hx]
      exact Nat.le_of_eq h.id

end RunAdded

/-- A mark leaves a run its id, its observation, its attempt and its state. -/
def mark (hit : ProcessingRun → Bool) (r : ProcessingRun) : ProcessingRun :=
  if hit r then { r with retryExhausted := true } else r

@[simp] theorem mark_id (hit : ProcessingRun → Bool) (r : ProcessingRun) :
    (mark hit r).id = r.id := by
  unfold mark
  split <;> rfl

@[simp] theorem mark_observationId (hit : ProcessingRun → Bool) (r : ProcessingRun) :
    (mark hit r).observationId = r.observationId := by
  unfold mark
  split <;> rfl

@[simp] theorem mark_attempt (hit : ProcessingRun → Bool) (r : ProcessingRun) :
    (mark hit r).attempt = r.attempt := by
  unfold mark
  split <;> rfl

@[simp] theorem mark_state (hit : ProcessingRun → Bool) (r : ProcessingRun) :
    (mark hit r).state = r.state := by
  unfold mark
  split <;> rfl

@[simp] theorem mark_outputPrefix (hit : ProcessingRun → Bool) (r : ProcessingRun) :
    (mark hit r).outputPrefix = r.outputPrefix := by
  unfold mark
  split <;> rfl

namespace Marked

variable {hit : ProcessingRun → Bool}

theorem run? (h : Marked db db' hit) (rid : Nat) : db'.run? rid = (db.run? rid).map (mark hit) := by
  unfold Db.run?
  rw [h.rows, List.find?_map]
  have hcomp : ((fun r : ProcessingRun => r.id == rid) ∘ fun r =>
      if hit r then { r with retryExhausted := true } else r) = fun r => r.id == rid := by
    funext r
    have hid := mark_id hit r
    unfold mark at hid
    simp only [Function.comp_apply, hid]
  rw [hcomp]
  rfl

theorem obs? (h : Marked db db' hit) (oid : Nat) : db'.obs? oid = db.obs? oid :=
  obs?_congr h.observations oid

theorem runsOf (h : Marked db db' hit) (oid : Nat) :
    db'.runsOf oid = (db.runsOf oid).map (mark hit) := by
  unfold Db.runsOf
  rw [h.rows, List.filter_map]
  have hcomp : ((fun r : ProcessingRun => r.observationId == oid) ∘ fun r =>
      if hit r then { r with retryExhausted := true } else r)
        = fun r => r.observationId == oid := by
    funext r
    have hid := mark_observationId hit r
    unfold mark at hid
    simp only [Function.comp_apply, hid]
  rw [hcomp]
  rfl

theorem reachedQa (h : Marked db db' hit) (rid : Nat) :
    db'.reachedQa rid = db.reachedQa rid := by
  obtain ⟨es, hlog, hsilent⟩ := h.log
  have hnone : es.any (isDelivery rid) = false := by
    refine List.any_eq_false.mpr fun e he => ?_
    have hquiet := hsilent e he
    unfold Silent at hquiet
    unfold isDelivery
    split <;> simp_all
  simp [Db.reachedQa, hlog, hnone]

theorem ids (h : Marked db db' hit) (ids : db.Ids) : db'.Ids where
  obsNodup := by rw [h.observations]; exact ids.obsNodup
  obsBound := by rw [h.observations, h.obsSeq]; exact ids.obsBound
  runNodup := by
    rw [h.rows, List.map_map]
    have hcomp : ProcessingRun.id ∘
        (fun r => if hit r then { r with retryExhausted := true } else r)
        = ProcessingRun.id := by
      funext r
      exact mark_id hit r
    rw [hcomp]
    exact ids.runNodup
  runBound := by
    intro x hx
    rw [h.rows] at hx
    obtain ⟨r, hr, rfl⟩ := List.mem_map.mp hx
    rw [h.runSeq]
    have hid := mark_id hit r
    unfold mark at hid
    rw [hid]
    exact ids.runBound r hr

end Marked

theorem runExecutionAttempts_record (db : Db) {es : List Event}
    (h : ∀ e ∈ es, ∀ rid, isExecution rid e = false) (rid : Nat) :
    (db.record es).runExecutionAttempts rid = db.runExecutionAttempts rid := by
  have hnil : es.filter (isExecution rid) = [] :=
    List.filter_eq_nil_iff.mpr fun e he => by simp [h e he rid]
  simp [runExecutionAttempts, record, hnil]

/-- A guarded update that succeeds has found its row in the expected state. -/
theorem guardedObs_ok (ids : db.Ids) {oid : Nat} {expected new : ObservationState}
    {f : Observation → Observation} {reason : String} (hf : ∀ o, (f o).id = o.id)
    (hpath : ∀ o, (f o).msPath = o.msPath) (hnew : ∀ o, (f o).state = new)
    (h : db.guardedObs oid expected f
      (.observation oid (some expected) (some new) reason) = .ok db') :
    ∃ o, o.id = oid ∧ o.state = expected ∧ ObsStep db db' o (f o) := by
  unfold guardedObs at h
  split at h
  · cases h
  · rename_i hlen
    simp only [ne_eq, Decidable.not_not] at hlen
    cases h
    obtain ⟨o, ho⟩ := List.length_eq_one_iff.mp hlen
    have hmem : o ∈ db.observations.filter (obsGuard oid expected) := by simp [ho]
    obtain ⟨hmem, hguard⟩ := List.mem_filter.mp hmem
    simp only [obsGuard, Bool.and_eq_true, beq_iff_eq] at hguard
    obtain ⟨hid, hstate⟩ := hguard
    refine ⟨o, hid, hstate, ⟨?_, ?_, hpath o, rfl, rfl, rfl, ?_, .inr ⟨reason, ?_⟩⟩⟩
    · rw [hf]
      exact ids.obs? hmem
    · refine List.map_congr_left fun x hx => ?_
      rw [hf]
      by_cases hxo : x.id = o.id
      · have hxeq : x = o := by
          have hfind := ids.obs? hx
          rw [hxo, ids.obs? hmem] at hfind
          exact (Option.some.inj hfind).symm
        simp [hxeq, obsGuard, hid, hstate]
      · simp [obsGuard, hxo, hid ▸ hxo]
    · exact runExecutionAttempts_record _ (by simp [isExecution])
    · rw [hf, hid, hstate, hnew]
      rfl

theorem guardedRun_ok (ids : db.Ids) {rid : Nat} {expected new : RunState}
    {f : ProcessingRun → ProcessingRun} {reason : String} (hid : ∀ r, (f r).id = r.id)
    (howner : ∀ r, (f r).observationId = r.observationId)
    (hattempt : ∀ r, (f r).attempt = r.attempt)
    (hout : ∀ r, (f r).outputPrefix = r.outputPrefix)
    (hmark : ∀ r, (f r).retryExhausted = r.retryExhausted) (hnew : ∀ r, (f r).state = new)
    (h : db.guardedRun rid expected f (.run rid (some expected) (some new) reason) = .ok db') :
    ∃ r, r.id = rid ∧ r.state = expected ∧ RunStep db db' r (f r) := by
  unfold guardedRun at h
  split at h
  · cases h
  · rename_i hlen
    simp only [ne_eq, Decidable.not_not] at hlen
    cases h
    obtain ⟨r, hr⟩ := List.length_eq_one_iff.mp hlen
    have hmem : r ∈ db.processingRuns.filter (runGuard rid expected) := by simp [hr]
    obtain ⟨hmem, hguard⟩ := List.mem_filter.mp hmem
    simp only [runGuard, Bool.and_eq_true, beq_iff_eq] at hguard
    obtain ⟨hrid, hstate⟩ := hguard
    refine ⟨r, hrid, hstate, ⟨?_, ?_, howner r, hattempt r, hout r, hmark r, rfl, rfl, rfl, ?_,
      reason, ?_⟩⟩
    · rw [hid]
      exact ids.run? hmem
    · refine List.map_congr_left fun x hx => ?_
      rw [hid]
      by_cases hxr : x.id = r.id
      · have hxeq : x = r := by
          have hfind := ids.run? hx
          rw [hxr, ids.run? hmem] at hfind
          exact (Option.some.inj hfind).symm
        simp [hxeq, runGuard, hrid, hstate]
      · simp [runGuard, hxr, hrid ▸ hxr]
    · intro hne
      rw [hstate, hnew] at hne
      refine runExecutionAttempts_record _ fun e he i => ?_
      rw [List.mem_singleton.mp he]
      cases expected <;> cases new <;> first | rfl | exact absurd ⟨rfl, rfl⟩ hne
    · rw [hid, hrid, hstate, hnew]
      rfl

end Sdpctl.Db
