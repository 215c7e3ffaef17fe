import Sdpctl.Properties.Budget
import Sdpctl.Properties.QaList
import Sdpctl.Ticking.Idle

/-!
Ticks from reachable states: what one comes to when it is left alone, that one more
has nothing to do, and what is left when no worker is.
-/

namespace Sdpctl

open FileTree Coop

/-- A tick that no command interrupts and in which no operation fails returns, and what it
leaves is `Desk.ticked` of what it found: all marks, requeuings, workers, new runs and the
admission, computed at once from the rows, the files and the tasks. -/
theorem tick_alone {w : World Op.Reply Exn Shared Role Entry} (h : unlimited.Reach w)
    (cfg : Config) :
    Placid (tick cfg) (fun _ t => t.desk = w.shared.desk.ticked cfg) w.shared :=
  tick_placid h.well

/-- The first run has failed, its budget of one execution is spent, and the next tick
hands it to the operator. -/
theorem tick_alone_exhausts : ∃ w, unlimited.Reach w ∧
    Placid (tick smallConfig) (fun _ t => t.desk = w.shared.desk.ticked smallConfig) w.shared ∧
    (w.shared.db.run? 1).any (fun q => q.state == .failed && !q.retryExhausted) = true ∧
    (w.shared.desk.ticked smallConfig).processingRuns.any
      (fun q => q.id == 1 && q.retryExhausted) = true := by
  obtain ⟨w, hreach, htest⟩ := unlimited.reach_of_replay (fun _ _ => true)
    (fun _ l _ => unlimited_ok l) firstFailure
    (fun w => (w.shared.db.run? 1).any (fun q => q.state == .failed && !q.retryExhausted) &&
      (w.shared.desk.ticked smallConfig).processingRuns.any
        (fun q => q.id == 1 && q.retryExhausted))
    (by decide +kernel)
  obtain ⟨hfailed, hmarked⟩ := Bool.and_eq_true_iff.mp htest
  exact ⟨w, hreach, tick_alone hreach smallConfig, hfailed, hmarked⟩

theorem ticked_again {w : World Op.Reply Exn Shared Role Entry} (h : unlimited.Reach w)
    {cfg : Config} {t : Shared} (ht : t.desk = w.shared.desk.ticked cfg) :
    t.desk.Served cfg ∧ Placid (tick cfg) (fun _ u => u = t) t := by
  have hserved : t.desk.Served cfg := by
    rw [ht]
    exact Desk.ticked_served cfg _
  have hdisk : t.disk = (w.shared.desk.mended cfg).disk := by
    change t.desk.disk = _
    rw [ht, Desk.ticked_eq]
    exact Desk.admitted_disk
  have hwf : t.disk.root.wf := by
    rw [hdisk]
    exact h.well.swept.failed.exhausted.retried.disk.wf
  exact ⟨hserved, tick_again hwf hserved⟩

/-- Right after such a tick there is nothing left to do: a second one, with nothing in between,
leaves every row and task as it is. -/
theorem tick_settles {w : World Op.Reply Exn Shared Role Entry} (h : unlimited.Reach w)
    (cfg : Config) :
    Placid (tick cfg) (fun _ t => t.desk.Served cfg ∧
      Placid (tick cfg) (fun _ u => u = t) t) w.shared :=
  (tick_placid h.well).mono (fun _ h => h) fun _ _ ht => ticked_again h ht

/-- The first run has failed with its budget spent. The first tick marks it, and the second does
not mark it again. -/
theorem tick_settles_failure : ∃ w, unlimited.Reach w ∧
    (w.shared.db.run? 1).any (fun q => q.state == .failed) = true ∧
    Placid (tick smallConfig) (fun _ t => t.desk.Served smallConfig ∧
      Placid (tick smallConfig) (fun _ u => u = t) t) w.shared := by
  obtain ⟨w, hreach, htest⟩ := unlimited.reach_of_replay (fun _ _ => true)
    (fun _ l _ => unlimited_ok l) firstFailure
    (fun w => (w.shared.db.run? 1).any fun q => q.state == .failed) (by decide +kernel)
  exact ⟨w, hreach, htest, tick_settles hreach smallConfig⟩

/-- In a reachable state a run that is still undecided goes with stored data. -/
theorem Limits.Reach.carried {w : World Op.Reply Exn Shared Role Entry} (h : unlimited.Reach w) :
    w.shared.desk.Carried := by
  rintro o ho hstate ⟨r, hr, howner⟩
  have hfound : w.shared.db.obs? o.id = some o := h.inv.db.ids.obs? ho
  have hne : w.shared.db.runsOf o.id ≠ [] := List.ne_nil_of_mem (Db.mem_runsOf.mpr ⟨hr, howner⟩)
  obtain ⟨q, hq, hopen⟩ := (h.inv.db.chain o.id).open_last hne
  obtain ⟨hmem, hqowner⟩ := Db.mem_runsOf.mp hq
  refine ⟨q, hmem, hqowner, ?_⟩
  have hunreleased : ¬ q.state.Releasing := by
    intro hreleasing
    rcases h.inv.db.released o.id o hfound ⟨q, hq, hreleasing⟩ with hclosed | hclosed <;>
      simp [hstate] at hclosed
  rintro (haccepted | hsuperseded | hdiscarded)
  · exact hunreleased (.inl haccepted)
  · exact hopen hsuperseded
  · exact hunreleased (.inr hdiscarded)

/-- When a tick leaves no worker alive, `run_until_idle` is done; and when it is done,
all that is stored waits for the operator, nothing can be admitted, and no tick will
change anything before somebody else does. -/
theorem idle_awaits_operator {w : World Op.Reply Exn Shared Role Entry} (h : unlimited.Reach w)
    (cfg : Config) :
    Placid (tick cfg) (fun _ t =>
      (t.desk.idle = true ↔ ∀ kind key, t.ctl.live kind key = false) ∧
      (t.desk.idle = true → AwaitsOperator cfg t)) w.shared := by
  refine (tick_placid h.well).mono (fun _ h => h) fun _ t ht => ?_
  obtain ⟨hserved, hrests⟩ := ticked_again h ht
  refine ⟨hserved.idle_iff_live, fun hidle => ⟨fun o ho hstate => ?_, ?_, hrests⟩⟩
  · have hmem : o ∈ (w.shared.desk.ticked cfg).observations := ht ▸ ho
    obtain ⟨r, hr, howner, hopen⟩ := h.carried.ticked hmem hstate
    have hrow : r ∈ t.desk.processingRuns := by
      rw [ht]
      exact hr
    have hnodup : (t.desk.observations.map Observation.id).Nodup := by
      rw [ht]
      exact h.well.swept.failed.exhausted.retried.resumed.admitted.obsNodup
    have hstores : t.desk.stores r.observationId = true := by
      rw [howner, Desk.stores, Keyed.find_of_mem hnodup ho]
      simp [hstate]
    refine ⟨r, List.mem_filter.mpr ⟨hrow, ?_⟩, howner⟩
    rcases hserved.actionable hidle hrow hstores hopen with hqa | ⟨hfailed, hmark⟩
    · simp [hqa]
    · simp [hfailed, hmark]
  · rcases hserved.admission with hbusy | hfull | ⟨hroom, _⟩
    · rw [(Desk.idle_iff.mp hidle).2.2] at hbusy
      cases hbusy
    · exact .inl hfull
    · exact .inr hroom

def oneConfig : Config := { smallConfig with maxObservations := some 1 }

/-- The only observation is stored, and its run waits for QA. -/
def onlyReview : List (Label Role Entry Choice Env) :=
  [.enter .main (.run oneConfig)] ++ steps 0 8 ++ [.run 0 (.order [])] ++ steps 0 26 ++
    steps 1 6 ++ [.env (.launch 0), .env (.write 0 smallSet), .env (.containerExit 0),
      .env (.runnerReturn 0 0)] ++
    steps 1 15 ++ steps 0 14 ++ steps 2 6 ++
    [.env (.product 1 1 smallProducts), .run 2 (.exit 0)] ++ steps 2 5

/-- A campaign of one observation, which is stored and whose run waits for QA. The next tick
leaves no worker alive, `run_until_idle` is done, and the rest waits for the operator. -/
theorem idle_awaits_operator_review : ∃ w, unlimited.Reach w ∧
    w.shared.db.observations.any (fun o => o.state == .stored) = true ∧
    (w.shared.desk.ticked oneConfig).idle = true ∧
    Placid (tick oneConfig) (fun _ t =>
      (t.desk.idle = true ↔ ∀ kind key, t.ctl.live kind key = false) ∧
      (t.desk.idle = true → AwaitsOperator oneConfig t)) w.shared := by
  obtain ⟨w, hreach, htest⟩ := unlimited.reach_of_replay (fun _ _ => true)
    (fun _ l _ => unlimited_ok l) onlyReview
    (fun w => w.shared.db.observations.any (fun o => o.state == .stored) &&
      (w.shared.desk.ticked oneConfig).idle)
    (by decide +kernel)
  obtain ⟨hstored, hidle⟩ := Bool.and_eq_true_iff.mp htest
  exact ⟨w, hreach, hstored, hidle, idle_awaits_operator hreach oneConfig⟩

end Sdpctl
