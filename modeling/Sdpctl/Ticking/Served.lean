import Sdpctl.Discipline.Memory
import Sdpctl.Ticking.Well

/-!
What a tick leaves: a desk on which nothing is left for a tick to do.
-/

namespace Sdpctl

namespace Ctl

variable {ctl : Ctl} {kind kind' : TaskKind} {key : Nat} {keys : List Nat}

theorem tracked_cons (ctl : Ctl) (kind : TaskKind) (key : Nat) (keys : List Nat) :
    ctl.tracked kind (key :: keys) =
      (if ctl.live kind key then ctl else ctl.track kind key).tracked kind keys := rfl

theorem live_tracked (h : ctl.live kind key = true) :
    (ctl.tracked kind' keys).live kind key = true := by
  induction keys generalizing ctl with
  | nil => exact h
  | cons k rest ih =>
    rw [tracked_cons]
    refine ih ?_
    split
    · exact h
    · exact live_track h

theorem live_tracked_self (h : key ∈ keys) : (ctl.tracked kind keys).live kind key = true := by
  induction keys generalizing ctl with
  | nil => cases h
  | cons k rest ih =>
    rw [tracked_cons]
    rcases List.mem_cons.mp h with rfl | hrest
    · refine live_tracked ?_
      split
      · assumption
      · exact live_track_self ctl kind key
    · exact ih hrest

@[simp] theorem tracked_cache (ctl : Ctl) (kind : TaskKind) (keys : List Nat) :
    (ctl.tracked kind keys).cache = ctl.cache := by
  induction keys generalizing ctl with
  | nil => rfl
  | cons k rest ih =>
    rw [tracked_cons, ih]
    split <;> rfl

end Ctl

namespace Desk

variable {cfg : Config} {d : Desk} {kind : TaskKind} {key : Nat} {o : Observation}
  {r : ProcessingRun}

/-- Nothing can be admitted, and the sizes that say so are remembered. -/
def Considered (cfg : Config) (d : Desk) : Prop :=
  d.busy = true ∨ d.capacity cfg = false ∨
    d.room cfg = false ∧ d.ctl.cache = some (d.disk.signature, d.charged)

structure Served (cfg : Config) (d : Desk) : Prop where
  observing : ∀ o ∈ d.observations, d.orphaned o = false
  running : ∀ r ∈ d.processingRuns, d.abandoned r = false
  spent : ∀ r ∈ d.processingRuns, d.spent cfg r = false
  retries : ∀ r ∈ d.processingRuns, d.retries cfg r = false
  planned : ∀ o ∈ d.observations, o.state = .planned → d.ctl.live .observe o.id = true
  admission : d.Considered cfg
  stored : ∀ o ∈ d.observations, d.unprocessed o = false
  queued : ∀ r ∈ d.processingRuns, r.state = .queued → d.ctl.live .process r.id = true

/-- The desk when the rows of interrupted and of failed work have been seen to. -/
def mended (cfg : Config) (d : Desk) : Desk := (d.swept.failed.exhausted cfg).retried cfg

theorem ticked_eq : d.ticked cfg = ((d.mended cfg).resumed.admitted cfg).provided.spawned := rfl

section Admission

theorem admitted_cases (cfg : Config) (d : Desk) :
    (d.busy = true ∨ d.capacity cfg = false) ∧ d.admitted cfg = d ∨
      d.admitted cfg = d.remembered.opened cfg ∨
      d.room cfg = false ∧ d.admitted cfg = d.remembered := by
  unfold admitted
  cases d.busy <;> cases d.capacity cfg <;> cases d.room cfg <;> simp

theorem charged_remembered : d.remembered.charged = d.charged := by
  simp [remembered, charged, Disk.charged]

theorem room_remembered : d.remembered.room cfg = d.room cfg := by
  simp only [room, charged_remembered]
  rfl

theorem considered_admitted : (d.admitted cfg).Considered cfg := by
  rcases admitted_cases cfg d with ⟨hskip, heq⟩ | heq | ⟨hroom, heq⟩ <;> rw [heq]
  · exact hskip.imp_right .inl
  · exact .inl (by simp [busy, opened, planned, Db.countsReserved])
  · exact .inr (.inr ⟨room_remembered.trans hroom, by rw [charged_remembered]; rfl⟩)

theorem live_admitted (h : d.ctl.live kind key = true) :
    (d.admitted cfg).ctl.live kind key = true := by
  rcases admitted_cases cfg d with ⟨_, heq⟩ | heq | ⟨_, heq⟩ <;> rw [heq]
  · exact h
  · exact Ctl.live_track h
  · exact h

theorem mem_admitted (ho : o ∈ (d.admitted cfg).observations) : o ∈ d.observations ∨
    o.state = .planned ∧ (d.admitted cfg).ctl.live .observe o.id = true := by
  rcases admitted_cases cfg d with ⟨_, heq⟩ | heq | ⟨_, heq⟩ <;> rw [heq] at ho ⊢
  · exact .inl ho
  · rcases List.mem_append.mp ho with hold | hnew
    · exact .inl hold
    · rw [List.mem_singleton.mp hnew]
      exact .inr ⟨rfl, Ctl.live_track_self _ _ _⟩
  · exact .inl ho

theorem stores_admitted (oid : Nat) : (d.admitted cfg).stores oid = d.stores oid := by
  rcases admitted_cases cfg d with ⟨_, heq⟩ | heq | ⟨_, heq⟩ <;> rw [heq]
  · have hrow : (d.remembered.opened cfg).observations =
        d.observations ++ [d.planned cfg] := rfl
    unfold stores Keyed.find
    rw [hrow, List.find?_append]
    cases d.observations.find? fun o => o.id == oid with
    | some o => rfl
    | none =>
      rw [Option.none_or, List.find?_cons]
      cases (d.planned cfg).id == oid <;> rfl
  · rfl

theorem admitted_runs : (d.admitted cfg).processingRuns = d.processingRuns := by
  rcases admitted_cases cfg d with ⟨_, heq⟩ | heq | ⟨_, heq⟩ <;> rw [heq] <;> rfl

theorem admitted_disk : (d.admitted cfg).disk = d.disk := by
  rcases admitted_cases cfg d with ⟨_, heq⟩ | heq | ⟨_, heq⟩ <;> rw [heq] <;> rfl

theorem admitted_executions : (d.admitted cfg).executions = d.executions := by
  rcases admitted_cases cfg d with ⟨_, heq⟩ | heq | ⟨_, heq⟩ <;> rw [heq] <;> rfl

end Admission

section Tick

theorem live_ticked (h : d.ctl.live kind key = true) :
    (d.ticked cfg).ctl.live kind key = true :=
  Ctl.live_tracked (live_admitted (Ctl.live_tracked h))

theorem mem_observations_ticked (ho : o ∈ (d.ticked cfg).observations) :
    o ∈ d.swept.observations ∨
      o.state = .planned ∧ (d.ticked cfg).ctl.live .observe o.id = true :=
  (mem_admitted ho).imp_right fun h => ⟨h.1, Ctl.live_tracked h.2⟩

theorem mem_runs_ticked (hr : r ∈ (d.ticked cfg).processingRuns) :
    r ∈ (d.mended cfg).processingRuns ∨ r.state = .queued := by
  rcases List.mem_append.mp hr with hold | hnew
  · rw [admitted_runs] at hold
    exact .inl hold
  · obtain ⟨i, hi, rfl⟩ := List.mem_mapIdx.mp hnew
    exact .inr rfl

theorem provided_processed (ho : o ∈ d.observations) : d.provided.unprocessed o = false := by
  cases hstored : o.state == .stored with
  | false => simp [unprocessed, hstored]
  | true =>
    have hrun : ∃ r ∈ d.provided.processingRuns, r.observationId = o.id := by
      by_cases hold : ∃ r ∈ d.processingRuns, r.observationId = o.id
      · obtain ⟨r, hr, howner⟩ := hold
        exact ⟨r, List.mem_append_left _ hr, howner⟩
      · have hmem : o ∈ d.observations.filter d.unprocessed := by
          refine List.mem_filter.mpr ⟨ho, ?_⟩
          simpa [unprocessed, hstored] using hold
        obtain ⟨i, hi, heq⟩ := List.mem_iff_getElem.mp hmem
        refine ⟨firstRun (d.runSeq + 1 + i) o.id, List.mem_append_right _ ?_, rfl⟩
        exact List.mem_mapIdx.mpr ⟨i, hi, by rw [heq]⟩
    obtain ⟨r, hr, howner⟩ := hrun
    have hany : (d.provided.processingRuns.all fun r => r.observationId != o.id) = false := by
      rw [List.all_eq_false]
      exact ⟨r, hr, by simp [howner]⟩
    simp [unprocessed, hany]

end Tick

section Rows

/-- An observation that is `OBSERVING` after the sweep has a worker. -/
theorem swept_observing (ho : o ∈ d.swept.observations) (hstate : o.state = .observing) :
    d.ctl.live .observe o.id = true := by
  obtain ⟨p, hp, rfl⟩ := List.mem_map.mp ho
  unfold sweptRow at hstate ⊢
  split at hstate
  · cases hstate
  next horphan =>
    rw [if_neg horphan]
    simpa [orphaned, hstate] using horphan

theorem mem_mended (hr : r ∈ (d.mended cfg).processingRuns) : r.state = .queued ∨
    r ∈ (d.swept.failed.exhausted cfg).processingRuns ∧
      (d.swept.failed.exhausted cfg).retries cfg r = false := by
  obtain ⟨q, hq, rfl⟩ := List.mem_map.mp hr
  unfold retriedRow
  split
  · exact .inl rfl
  next hno => exact .inr ⟨hq, by simpa using hno⟩

theorem exhausted_spent (hr : r ∈ (d.exhausted cfg).processingRuns) : d.spent cfg r = false := by
  obtain ⟨q, _, rfl⟩ := List.mem_map.mp hr
  unfold exhaustedRow
  split
  · simp [spent]
  next hno => simpa using hno

/-- A run that is `RUNNING` after the sweep has a worker. -/
theorem exhausted_running (hr : r ∈ (d.failed.exhausted cfg).processingRuns)
    (hstate : r.state = .running) : d.ctl.live .process r.id = true := by
  obtain ⟨q, hq, rfl⟩ := List.mem_map.mp hr
  obtain ⟨p, hp, rfl⟩ := List.mem_map.mp hq
  rw [exhaustedRow_id, failedRow_id]
  have hfailed : (d.failedRow p).state = .running := by
    unfold exhaustedRow at hstate
    split at hstate <;> exact hstate
  unfold failedRow at hfailed
  split at hfailed
  · cases hfailed
  next hno => simpa [abandoned, hfailed] using hno

end Rows

theorem ticked_served (cfg : Config) (d : Desk) : (d.ticked cfg).Served cfg where
  observing o ho := by
    cases hstate : o.state == .observing with
    | false => simp [orphaned, hstate]
    | true =>
      rcases mem_observations_ticked ho with hold | ⟨hplanned, _⟩
      · have hlive := swept_observing hold (by simpa using hstate)
        have hticked : (d.ticked cfg).ctl.live .observe o.id = true := live_ticked hlive
        simp [orphaned, hticked]
      · simp [hplanned] at hstate
  running r hr := by
    cases hstate : r.state == .running with
    | false => simp [abandoned, hstate]
    | true =>
      rcases mem_runs_ticked hr with hold | hqueued
      · rcases mem_mended hold with hqueued | ⟨hmem, _⟩
        · simp [hqueued] at hstate
        · have hlive := exhausted_running hmem (by simpa using hstate)
          have hticked : (d.ticked cfg).ctl.live .process r.id = true := live_ticked hlive
          simp [abandoned, hticked]
      · simp [hqueued] at hstate
  spent r hr := by
    have hsame : (d.ticked cfg).spent cfg r = d.spent cfg r := by
      have hruns : (d.ticked cfg).executions = d.executions := admitted_executions
      simp only [spent, hruns]
    rw [hsame]
    rcases mem_runs_ticked hr with hold | hqueued
    · rcases mem_mended hold with hqueued | ⟨hmem, _⟩
      · simp [spent, hqueued]
      · exact exhausted_spent (d := d.swept.failed) hmem
    · simp [spent, hqueued]
  retries r hr := by
    have hsame : (d.ticked cfg).retries cfg r = (d.swept.failed.exhausted cfg).retries cfg r := by
      have hruns : (d.ticked cfg).executions = (d.swept.failed.exhausted cfg).executions :=
        admitted_executions
      have hstores : (d.ticked cfg).stores r.observationId =
          (d.swept.failed.exhausted cfg).stores r.observationId := stores_admitted _
      simp only [retries, hruns, hstores]
    rw [hsame]
    rcases mem_runs_ticked hr with hold | hqueued
    · rcases mem_mended hold with hqueued | ⟨_, hno⟩
      · simp [retries, hqueued]
      · exact hno
    · simp [retries, hqueued]
  planned o ho hstate := by
    rcases mem_observations_ticked ho with hold | ⟨_, hlive⟩
    · have hmem : o.id ∈ ((d.mended cfg).observations.filter fun o => o.state == .planned).map
          (·.id) := List.mem_map_of_mem (List.mem_filter.mpr ⟨hold, by simp [hstate]⟩)
      exact Ctl.live_tracked (live_admitted (Ctl.live_tracked_self hmem))
    · exact hlive
  admission := by
    have hcache : (d.ticked cfg).ctl.cache = ((d.mended cfg).resumed.admitted cfg).ctl.cache :=
      Ctl.tracked_cache _ _ _
    have hcharged : (d.ticked cfg).charged = ((d.mended cfg).resumed.admitted cfg).charged := by
      simp only [charged, hcache]
      rfl
    have hroom : (d.ticked cfg).room cfg = ((d.mended cfg).resumed.admitted cfg).room cfg := by
      simp only [room, hcharged]
      rfl
    unfold Considered
    rw [hcache, hcharged, hroom]
    exact considered_admitted
  stored o ho := provided_processed ho
  queued r hr hstate := by
    refine Ctl.live_tracked_self (List.mem_map_of_mem (List.mem_filter.mpr ⟨hr, ?_⟩))
    simp [hstate]

end Desk
end Sdpctl
