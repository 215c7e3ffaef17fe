import Sdpctl.Qa
import Sdpctl.Ticking.Again

/-!
When `run_until_idle` is done: no worker is alive, and whatever is stored waits for
the operator.
-/

namespace Sdpctl

open Coop

namespace Desk

variable {cfg : Config} {d : Desk} {o : Observation} {r : ProcessingRun}

/-- The test of `run_until_idle` after its tick: no task is alive, and no row asks for
one. -/
def idle (d : Desk) : Bool :=
  (d.ctl.tasks.all fun t => !d.ctl.live t.kind t.key) &&
    (d.processingRuns.all fun r => r.state != .queued && r.state != .running) && !d.busy

/-- A stored observation that has runs has one that is still undecided. -/
def Carried (d : Desk) : Prop :=
  ∀ o ∈ d.observations, o.state = .stored →
    (∃ r ∈ d.processingRuns, r.observationId = o.id) →
      ∃ r ∈ d.processingRuns, r.observationId = o.id ∧ ¬ r.state.Decided

theorem live_task {ctl : Ctl} {kind : TaskKind} {key : Nat} (h : ctl.live kind key = true) :
    ∃ t ∈ ctl.tasks, t.kind = kind ∧ t.key = key := by
  obtain ⟨t, ht, _⟩ := Ctl.live_iff.mp h
  exact ⟨t, Ctl.mem_of_latest ht⟩

theorem idle_iff : d.idle = true ↔ (∀ kind key, d.ctl.live kind key = false) ∧
    (∀ r ∈ d.processingRuns, r.state ≠ .queued ∧ r.state ≠ .running) ∧ d.busy = false := by
  have htasks : (∀ t ∈ d.ctl.tasks, d.ctl.live t.kind t.key = false) ↔
      ∀ kind key, d.ctl.live kind key = false := by
    constructor
    · intro hall kind key
      by_contra hlive
      obtain ⟨t, ht, rfl, rfl⟩ := live_task (Bool.not_eq_false _ ▸ hlive)
      exact hlive (hall t ht)
    · exact fun hall t _ => hall t.kind t.key
  simp only [idle, Bool.and_eq_true, List.all_eq_true, Bool.not_eq_true', bne_iff_ne, htasks,
    and_assoc]

theorem Served.idle_iff_live (h : d.Served cfg) :
    d.idle = true ↔ ∀ kind key, d.ctl.live kind key = false := by
  rw [idle_iff]
  refine ⟨fun hidle => hidle.1, fun hdead => ⟨hdead, fun r hr => ⟨?_, ?_⟩, ?_⟩⟩
  · intro hqueued
    have hlive := h.queued r hr hqueued
    simp [hdead] at hlive
  · intro hrunning
    have hlive := h.running r hr
    simp [abandoned, hrunning, hdead] at hlive
  · refine List.any_eq_false.mpr fun o ho hactive => ?_
    simp only [Db.countsReserved, decide_eq_true_eq, List.mem_cons, List.not_mem_nil,
      or_false] at hactive
    rcases hactive with hplanned | hobserving
    · have hlive := h.planned o ho hplanned
      simp [hdead] at hlive
    · have hlive := h.observing o ho
      simp [orphaned, hobserving, hdead] at hlive

section Rows

theorem failedRow_keeps (d : Desk) (r : ProcessingRun) :
    (d.failedRow r).observationId = r.observationId ∧
      (¬ r.state.Decided → ¬ (d.failedRow r).state.Decided) := by
  unfold failedRow
  split <;> simp [RunState.Decided]

theorem exhaustedRow_keeps (cfg : Config) (d : Desk) (r : ProcessingRun) :
    (d.exhaustedRow cfg r).observationId = r.observationId ∧
      (¬ r.state.Decided → ¬ (d.exhaustedRow cfg r).state.Decided) := by
  unfold exhaustedRow
  split <;> simp

theorem retriedRow_keeps (cfg : Config) (d : Desk) (r : ProcessingRun) :
    (d.retriedRow cfg r).observationId = r.observationId ∧
      (¬ r.state.Decided → ¬ (d.retriedRow cfg r).state.Decided) := by
  unfold retriedRow
  split <;> simp [RunState.Decided]

/-- What becomes of one run before anything is admitted. -/
def mendedRow (cfg : Config) (d : Desk) (r : ProcessingRun) : ProcessingRun :=
  (d.swept.failed.exhausted cfg).retriedRow cfg
    (d.swept.failed.exhaustedRow cfg (d.swept.failedRow r))

theorem mended_runs : (d.mended cfg).processingRuns = d.processingRuns.map (d.mendedRow cfg) := by
  simp only [mended, retried, exhausted, failed, swept, List.map_map]
  rfl

theorem mendedRow_keeps (r : ProcessingRun) :
    (d.mendedRow cfg r).observationId = r.observationId ∧
      (¬ r.state.Decided → ¬ (d.mendedRow cfg r).state.Decided) := by
  obtain ⟨howner₁, hopen₁⟩ := failedRow_keeps d.swept r
  obtain ⟨howner₂, hopen₂⟩ := exhaustedRow_keeps cfg d.swept.failed (d.swept.failedRow r)
  obtain ⟨howner₃, hopen₃⟩ := retriedRow_keeps cfg (d.swept.failed.exhausted cfg)
    (d.swept.failed.exhaustedRow cfg (d.swept.failedRow r))
  exact ⟨howner₃.trans (howner₂.trans howner₁), fun h => hopen₃ (hopen₂ (hopen₁ h))⟩

theorem stored_ticked (ho : o ∈ (d.ticked cfg).observations) (hstate : o.state = .stored) :
    o ∈ d.observations := by
  rcases mem_observations_ticked ho with hold | ⟨hplanned, _⟩
  · obtain ⟨p, hp, rfl⟩ := List.mem_map.mp hold
    unfold sweptRow at hstate ⊢
    split at hstate
    · cases hstate
    next horphan =>
      rw [if_neg horphan]
      exact hp
  · rw [hstate] at hplanned
    cases hplanned

end Rows

theorem Carried.ticked (h : d.Carried) (ho : o ∈ (d.ticked cfg).observations)
    (hstate : o.state = .stored) :
    ∃ r ∈ (d.ticked cfg).processingRuns, r.observationId = o.id ∧ ¬ r.state.Decided := by
  have hmended : ∀ r ∈ (d.mended cfg).processingRuns, r ∈ (d.ticked cfg).processingRuns := by
    intro r hr
    refine List.mem_append_left _ ?_
    rw [admitted_runs]
    exact hr
  have hprocessed := (ticked_served cfg d).stored o ho
  obtain ⟨r, hr, howner⟩ : ∃ r ∈ (d.ticked cfg).processingRuns, r.observationId = o.id := by
    simpa [unprocessed, hstate] using hprocessed
  rcases mem_runs_ticked hr with hold | hqueued
  · rw [mended_runs] at hold
    obtain ⟨p, hp, rfl⟩ := List.mem_map.mp hold
    have hpowner : p.observationId = o.id := (mendedRow_keeps p).1 ▸ howner
    obtain ⟨q, hq, hqowner, hopen⟩ := h o (stored_ticked ho hstate) hstate ⟨p, hp, hpowner⟩
    refine ⟨d.mendedRow cfg q, hmended _ ?_, (mendedRow_keeps q).1.trans hqowner,
      (mendedRow_keeps q).2 hopen⟩
    rw [mended_runs]
    exact List.mem_map_of_mem hq
  · exact ⟨r, hr, howner, by simp [hqueued, RunState.Decided]⟩

theorem Served.actionable (h : d.Served cfg) (hidle : d.idle = true) (hr : r ∈ d.processingRuns)
    (hstores : d.stores r.observationId = true) (hopen : ¬ r.state.Decided) :
    r.state = .awaitingQa ∨ r.state = .failed ∧ r.retryExhausted = true := by
  obtain ⟨hqueued, hrunning⟩ := (idle_iff.mp hidle).2.1 r hr
  cases hstate : r.state with
  | awaitingQa => exact .inl rfl
  | failed =>
    refine .inr ⟨rfl, ?_⟩
    by_contra hmark
    have hfresh : r.retryExhausted = false := by simpa using hmark
    have hspent : d.executions r.id < cfg.maxProcessingAttempts := by
      simpa [Desk.spent, hstate, hfresh] using h.spent r hr
    have hretries : cfg.maxProcessingAttempts ≤ d.executions r.id := by
      simpa [Desk.retries, hstate, hfresh, hstores] using h.retries r hr
    omega
  | queued => exact absurd hstate hqueued
  | running => exact absurd hstate hrunning
  | accepted | superseded | discarded => exact absurd (by simp [RunState.Decided, hstate]) hopen

end Desk

/-- The controller rests, and what it has stored waits for the operator. -/
structure AwaitsOperator (cfg : Config) (s : Shared) : Prop where
  stored : ∀ o ∈ s.db.observations, o.state = .stored →
    ∃ r ∈ listQaItems s.db, r.observationId = o.id
  refused : s.desk.capacity cfg = false ∨ s.desk.room cfg = false
  rests : Placid (tick cfg) (fun _ t => t = s) s

end Sdpctl
