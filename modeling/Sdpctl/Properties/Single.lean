import Sdpctl.Programs.Tables
import Sdpctl.Properties.RunChain

/-!
One observation at a time. The table has at most one row that is planned or
observing, every observation is given to the runner at most once, and a campaign
never has more rows than its limit.
-/

namespace Sdpctl

open FileTree Coop

variable {T : Terms} {s : Shared} {db' : Db}

theorem Db.Call.count {db : Db} {q : Query} (call : Db.Call db q db') :
    db'.observations.length = db.observations.length ∨
      (db'.observations.length = db.observations.length + 1 ∧
        ∃ reserved, q = .createObservationAuto reserved) := by
  cases call with
  | same | noted | unforced => exact .inl rfl
  | admitted step => exact .inr ⟨by simp [step.rows], _, rfl⟩
  | observation _ _ _ step | forced _ step => exact .inl step.length
  | created _ _ _ _ step | run _ _ _ step | exhausted step | marked step =>
    exact .inl (by rw [step.observations])
  | accepted _ _ step | discarded _ _ step =>
    obtain ⟨mid, hrun, hobs⟩ := step.steps
    exact .inl (by rw [hobs.length, hrun.observations])
  | reprocessed id found stored before step added =>
    exact .inl (by rw [added.observations, step.observations])

end Sdpctl
