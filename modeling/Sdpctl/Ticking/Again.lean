import Sdpctl.Ticking.Served
import Sdpctl.Ticking.Whole

/-!
A tick over a desk on which nothing is left to do writes nothing at all: no row, no
event, no file, no task.
-/

namespace Sdpctl

open Coop

variable {α : Type} {cfg : Config} {s : Shared}

theorem placid_idle {xs : List α} {f : α → M Unit}
    (hf : ∀ x ∈ xs, ∀ P : Unit → Shared → Prop, P () s → Placid (f x) P s) :
    Placid (Prog.forEach xs f) (fun _ t => t = s) s := by
  induction xs with
  | nil => exact .pure rfl
  | cons x rest ih =>
    have hrest := ih fun y hy => hf y (List.mem_cons_of_mem x hy)
    exact .then (hf x (by simp) _ hrest)

theorem Db.markExhaustedFailedRuns_none {db : Db} {m : Nat}
    (h : ∀ r ∈ db.processingRuns, db.exhausts m r = false) :
    db.markExhaustedFailedRuns m = ([], db) := by
  have hhit : db.processingRuns.filter (db.exhausts m) = [] :=
    List.filter_eq_nil_iff.mpr fun r hr => by simp [h r hr]
  have hrows : (db.processingRuns.map fun r =>
      if db.exhausts m r then { r with retryExhausted := true } else r) = db.processingRuns := by
    conv_rhs => rw [← List.map_id db.processingRuns]
    refine List.map_congr_left fun r hr => ?_
    rw [h r hr]
    rfl
  simp [markExhaustedFailedRuns, updateRuns, record, hhit, hrows]

section Phases

theorem sweep_again (h : s.desk.Served cfg) :
    Placid sweepOrphanedInprocessStates (fun _ t => t = s) s := by
  have hobs : ∀ o ∈ s.db.listObservations [.observing], s.ctl.live .observe o.id = true := by
    intro o ho
    obtain ⟨hmem, hstate⟩ := List.mem_filter.mp (show o ∈ s.desk.observations.filter _ from ho)
    simpa [Desk.orphaned, Shared.desk, show o.state = .observing by simpa using hstate] using
      h.observing o hmem
  have hruns : ∀ r ∈ s.db.listRuns [.running], s.ctl.live .process r.id = true := by
    intro r hr
    obtain ⟨hmem, hstate⟩ := List.mem_filter.mp (show r ∈ s.desk.processingRuns.filter _ from hr)
    simpa [Desk.abandoned, Shared.desk, show r.state = .running by simpa using hstate] using
      h.running r hmem
  refine .then (placid_store rfl (Prog.Gives.bind (P := fun _ t => t = s) ?_ ?_))
  · refine placid_idle fun o ho P hP => .then (placid_obsTaskLive ?_)
    rw [hobs o ho]
    exact .pure hP
  · rintro _ t rfl
    refine .then (placid_store rfl (placid_idle fun r hr P hP => .then (placid_runTaskLive ?_)))
    rw [hruns r hr]
    exact .pure hP

theorem retry_again (h : s.desk.Served cfg) :
    Placid (retryFailedRuns cfg) (fun _ t => t = s) s := by
  have hmark : (Query.markExhaustedFailedRuns cfg.maxProcessingAttempts).run s.db =
      .ok ([], s.db) := congrArg Except.ok (Db.markExhaustedFailedRuns_none h.spent)
  have hnone : s.db.listRetryableFailedRuns cfg.maxProcessingAttempts = [] := by
    refine List.map_eq_nil_iff.mpr (List.filter_eq_nil_iff.mpr fun r hr => ?_)
    rw [isRetryable_split, h.retries r hr]
    exact Bool.false_ne_true
  refine .then (placid_store hmark (.then (placid_store rfl ?_)))
  rw [hnone]
  exact .pure rfl

theorem resume_again (h : s.desk.Served cfg) :
    Placid (Prog.forEach (s.db.listObservations [.planned]) resumePlanned)
      (fun _ t => t = s) s := by
  refine placid_idle fun o ho P hP => .then (placid_obsTaskLive ?_)
  obtain ⟨hmem, hstate⟩ := List.mem_filter.mp (show o ∈ s.desk.observations.filter _ from ho)
  have hlive : s.ctl.live .observe o.id = true := h.planned o hmem (by simpa using hstate)
  rw [hlive]
  exact .pure hP

theorem admit_again (hwf : s.disk.root.wf) (h : s.desk.Served cfg) :
    Placid (admitObservation cfg) (fun _ t => t = s) s := by
  refine .then (placid_store rfl ?_)
  rw [idle_eq]
  cases hbusy : s.desk.busy with
  | true => exact .pure rfl
  | false =>
    refine .then (campaignHasCapacity_placid ?_)
    cases hcapacity : s.desk.capacity cfg with
    | false => exact .pure rfl
    | true =>
      obtain ⟨hroom, hdesk⟩ : s.desk.room cfg = false ∧
          s.desk.ctl.cache = some (s.desk.disk.signature, s.desk.charged) := by
        simpa [Desk.Considered, hbusy, hcapacity] using h.admission
      have hcache : s.ctl.cache = some (s.disk.signature, s.disk.charged s.ctl.cache) := hdesk
      refine .then (canAdmit_placid hwf ?_)
      rw [hroom, ← hcache]
      exact .pure rfl

theorem create_again (h : s.desk.Served cfg) :
    Placid (Prog.forEach s.db.listStoredObservationsWithoutRuns fun obs => createInitialRun obs.id)
      (fun _ t => t = s) s := by
  have hnone : s.desk.observations.filter s.desk.unprocessed = [] :=
    List.filter_eq_nil_iff.mpr fun o ho => by simp [h.stored o ho]
  rw [unprocessed_eq, hnone]
  exact .pure rfl

theorem spawn_again (h : s.desk.Served cfg) :
    Placid (Prog.forEach (s.db.listRuns [.queued]) spawnRun) (fun _ t => t = s) s := by
  refine placid_idle fun r hr P hP => .then (placid_runTaskLive ?_)
  obtain ⟨hmem, hstate⟩ := List.mem_filter.mp (show r ∈ s.desk.processingRuns.filter _ from hr)
  have hlive : s.ctl.live .process r.id = true := h.queued r hmem (by simpa using hstate)
  rw [hlive]
  exact .pure hP

end Phases

theorem tick_again (hwf : s.disk.root.wf) (h : s.desk.Served cfg) :
    Placid (tick cfg) (fun _ t => t = s) s := by
  refine Prog.Gives.bind (sweep_again h) ?_
  rintro _ t rfl
  refine Prog.Gives.bind (retry_again h) ?_
  rintro _ t rfl
  refine .then (placid_store rfl (Prog.Gives.bind (resume_again h) ?_))
  rintro _ t rfl
  refine Prog.Gives.bind (admit_again hwf h) ?_
  rintro _ t rfl
  refine .then (placid_store rfl (Prog.Gives.bind (create_again h) ?_))
  rintro _ t rfl
  refine .then (placid_store rfl (Prog.Gives.bind (spawn_again h) ?_))
  rintro _ t rfl
  exact placid_call rfl rfl rfl

end Sdpctl
