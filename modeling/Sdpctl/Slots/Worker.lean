import Sdpctl.Programs.Duties
import Sdpctl.Properties.RunChain

/-!
What one operation of a processing worker does: to the row of its run, and to the slot
that it holds. Nobody else makes a run running or ends it while it has a worker.
-/

namespace Sdpctl

open FileTree Coop

variable {T : Terms} {r : Role} {s s' : Shared}

/-- The run is in the store and `RUNNING`. -/
def Db.Running (db : Db) (rid : Nat) : Prop := ∃ q, db.run? rid = some q ∧ q.state = .running

section Rows

theorem Db.Running.congr {db db' : Db} {rid : Nat} (h : db'.processingRuns = db.processingRuns) :
    db'.Running rid ↔ db.Running rid := by
  unfold Running
  rw [Db.run?_congr h]

/-- A transition moves the row, or raises and leaves everything as it was. -/
theorem transitionRun_cases (ids : s.db.Ids) {rid : Nat} {expected new : RunState}
    {reason : String} {code : Option Int} {c : Choice}
    {x : Except Exn (Query.transitionRun rid expected new reason code).Reply}
    (h : s.query c (.transitionRun rid expected new reason code) = some (x, s')) :
    ((∃ y, x = .ok y) ∧ ∃ q q', s.db.run? rid = some q ∧ q.state = expected ∧
      s'.db.run? rid = some q' ∧ q'.state = new) ∨ (∃ e, x = .error e) ∧ s' = s := by
  rcases Shared.query_cases h with ⟨y, db, hrun, rfl, rfl⟩ | ⟨e, rfl, rfl⟩
  · refine .inl ⟨⟨y, rfl⟩, ?_⟩
    cases Db.Call.of_run ids hrun with
    | same reads => cases reads
    | run legal id before step =>
      rename_i q
      subst id
      exact ⟨q, _, step.found, before, step.run?_self, rfl⟩
  · exact .inr ⟨⟨e, rfl⟩, rfl⟩

/-- A legal transition of a row in the expected state raises only when the store fails. -/
theorem transitionRun_raises (ids : s.db.Ids) {rid : Nat} {expected new : RunState}
    {reason : String} {code : Option Int} {c : Choice} {e : Exn} {q : ProcessingRun}
    (hq : s.db.run? rid = some q) (hstate : q.state = expected)
    (legal : new ∈ runTransitions expected)
    (h : s.query c (.transitionRun rid expected new reason code) = some (.error e, s')) :
    e = .sqliteError := by
  unfold Shared.query at h
  split at h
  · split at h
    · cases h
    · rename_i e' hrun
      obtain ⟨_, hno⟩ := Db.transitionRun_error ids legal (map_error hrun)
      exact absurd hstate (hno q hq)
  · cases h
    rfl
  · cases h

theorem getRun_cases {rid : Nat} {c : Choice} {x : Except Exn ProcessingRun} {q : ProcessingRun}
    (hq : s.db.run? rid = some q) (h : s.query c (.getRun rid) = some (x, s')) :
    x = .ok q ∨ x = .error .sqliteError := by
  unfold Shared.query at h
  split at h
  · split at h
    · rename_i y db hrun
      cases h
      exact .inl (congrArg _ (Option.some.inj ((getRun_ok hrun).1.symm.trans hq)))
    · rename_i e hrun
      have hmiss := map_error hrun
      simp [Db.getRun, hq] at hmiss
  · cases h
    exact .inr rfl
  · cases h

theorem Step.running_back (hinv : Inv T s) (h : Step T r s s') {rid : Nat}
    (hrun : s'.db.Running rid) :
    s.db.Running rid ∨ ∃ task, r = .process task rid ∧ OwnsRun task rid s := by
  obtain ⟨q, hq, hs⟩ := hrun
  cases h with
  | db move =>
    cases move with
    | events observations runs => exact .inl ⟨q, (Db.run?_congr runs rid).symm.trans hq, hs⟩
    | obs step => exact .inl ⟨q, (step.run? rid).symm.trans hq, hs⟩
    | admitted step => exact .inl ⟨q, (step.run? rid).symm.trans hq, hs⟩
    | run step move =>
      rw [step.run?] at hq
      split at hq
      · rename_i heq
        cases hq
        cases move with
        | start task role owns =>
          rw [step.id] at role owns
          rw [heq]
          exact .inr ⟨task, role, owns⟩
        | settle _ _ _ _ after => rcases after with after | after <;> simp [after] at hs
        | giveUp _ _ _ _ after | orphaned _ _ _ after | retry _ _ _ after => simp [after] at hs
      · exact .inl ⟨q, hq, hs⟩
    | marked role step =>
      rw [step.run?] at hq
      obtain ⟨p, hp, rfl⟩ := Option.map_eq_some_iff.mp hq
      refine .inl ⟨p, hp, ?_⟩
      unfold Db.mark at hs
      split at hs
      · exact hs
      · exact hs
    | created step =>
      rw [step.run? hinv.db.ids] at hq
      split at hq
      · cases hq
        simp [step.state] at hs
      · exact .inl ⟨q, hq, hs⟩
    | released role step =>
      exact .inl ⟨q, (Db.Quiet.releases step).run_back hq (by simp [hs])
        (by simp [RunState.Decided, hs]), hs⟩
    | reprocessed role step added before after stored owner =>
      exact .inl ⟨q, (Db.Quiet.reprocessed hinv.db.ids step added before after owner).run_back hq
        (by simp [hs]) (by simp [RunState.Decided, hs]), hs⟩
  | remove | prune => exact .inl ⟨q, by simpa using hq, hs⟩
  | _ => exact .inl ⟨q, hq, hs⟩

/-- A row stops running by the step of the worker that owns it, or by that of the
controller when it has no live worker. -/
theorem Step.running_kept (hinv : Inv T s) (h : Step T r s s') {rid : Nat}
    (hrun : s.db.Running rid) :
    s'.db.Running rid ∨ (∃ task, r = .process task rid) ∨ r = .main := by
  obtain ⟨q, hq, hs⟩ := hrun
  cases h with
  | db move =>
    cases move with
    | events observations runs => exact .inl ⟨q, (Db.run?_congr runs rid).trans hq, hs⟩
    | obs step => exact .inl ⟨q, (step.run? rid).trans hq, hs⟩
    | admitted step => exact .inl ⟨q, (step.run? rid).trans hq, hs⟩
    | run step move =>
      rename_i p p'
      by_cases hid : rid = p'.id
      · rw [hid, step.found] at hq
        cases hq
        rw [← step.id] at hid
        cases move with
        | start _ role _ before | giveUp _ role _ before => simp [before] at hs
        | settle task role => exact .inr (.inl ⟨task, by rw [role, hid]⟩)
        | orphaned role => exact .inr (.inr role)
        | retry role => exact .inr (.inr role)
      · exact .inl ⟨q, (step.run?_ne hid).trans hq, hs⟩
    | marked role step => exact .inr (.inr role)
    | created step attempt creates => exact .inr (.inr creates.role)
    | released role step => exact .inl ⟨q, (Db.Quiet.releases step).running hq hs, hs⟩
    | reprocessed role step added before after stored owner =>
      exact .inl ⟨q, (Db.Quiet.reprocessed hinv.db.ids step added before after owner).running hq hs,
        hs⟩
  | remove | prune => exact .inl ⟨q, by simpa using hq, hs⟩
  | _ => exact .inl ⟨q, hq, hs⟩

theorem Step.running_apart (hinv : Inv T s) {task rid rid' : Nat}
    (h : Step T (.process task rid) s s') (hne : rid' ≠ rid) :
    s'.db.Running rid' ↔ s.db.Running rid' := by
  constructor
  · intro hrun
    rcases h.running_back hinv hrun with hrun | ⟨_, hrole, _⟩
    · exact hrun
    · cases hrole
      exact absurd rfl hne
  · intro hrun
    rcases h.running_kept hinv hrun with hrun | ⟨_, hrole⟩ | hrole
    · exact hrun
    · cases hrole
      exact absurd rfl hne
    · cases hrole

end Rows

section Worker

variable {rid : Nat} {g : Duty} {o : Op} {c : Choice} {x : Except Exn o.Reply}

theorem tends_turn (ho : o.tends rid) : g.work o x = g := by
  cases o with
  | db q =>
    cases q with
    | getRun | getObservation | recordEvent => cases g <;> rfl
    | _ => exact ho.elim
  | startProcess | exists_ | makePreview => cases g <;> rfl
  | _ => exact ho.elim

/-- What a worker does at any time leaves the runs and the slots alone. -/
theorem tends_same (ho : o.tends rid) (hexec : exec r o c s = some (x, s')) :
    s'.db.processingRuns = s.db.processingRuns ∧ s'.ctl = s.ctl := by
  cases o with
  | db q =>
    rcases Shared.query_cases hexec with ⟨y, db, hrun, rfl, rfl⟩ | ⟨e, rfl, rfl⟩
    · cases q with
      | getRun i => exact ⟨by rw [(getRun_ok hrun).2], rfl⟩
      | getObservation i => exact ⟨by rw [(getObservation_ok hrun).2], rfl⟩
      | recordEvent entity id reason =>
        cases hrun
        exact ⟨rfl, rfl⟩
      | _ => exact ho.elim
    · exact ⟨rfl, rfl⟩
  | exists_ | makePreview | startProcess =>
    rw [exec_still rfl hexec]
    exact ⟨rfl, rfl⟩
  | _ => exact ho.elim

/-- After each step of a worker its duty says whether its run is running. -/
theorem work_running (ids : s.db.Ids) (hmay : (workerScript rid).may g o)
    (hrow : g.executes = true ↔ s.db.Running rid) (hexec : exec r o c s = some (x, s')) :
    (g.work o x).leaves = true ↔ s'.db.Running rid := by
  have hkeep : s'.db.processingRuns = s.db.processingRuns →
      (g.work o x).leaves = g.executes → ((g.work o x).leaves = true ↔ s'.db.Running rid) := by
    intro hruns hleaves
    rw [hleaves, hrow]
    exact (Db.Running.congr hruns).symm
  have hdb : (∀ q, o ≠ .db q) → s'.db.processingRuns = s.db.processingRuns := by
    intro hno
    rcases (exec_framed hexec).db with h | ⟨q, _, _, h, _⟩
    · rw [h]
    · exact absurd h (hno q)
  have hmoved : ∀ {expected new : RunState} {reason : String} {code : Option Int},
      o = .db (.transitionRun rid expected new reason code) →
      ((∃ y : Unit, HEq x (Except.ok y : Except Exn Unit)) ∧ (s'.db.Running rid ↔ new = .running)) ∨
        ((∃ e, x = .error e) ∧ s' = s) := by
    rintro expected new reason code rfl
    rcases transitionRun_cases ids hexec with ⟨⟨y, rfl⟩, q, q', _, _, hq', hs'⟩ | ⟨he, rfl⟩
    · refine .inl ⟨⟨y, HEq.rfl⟩, ⟨?_, fun hnew => ⟨q', hq', hs'.trans hnew⟩⟩⟩
      rintro ⟨p, hp, hrun⟩
      rw [hq'] at hp
      cases hp
      exact hs'.symm.trans hrun
    · exact .inr ⟨he, rfl⟩
  cases g with
  | waiting =>
    rcases hmay with ho | rfl | rfl | ⟨task, rfl⟩ | ⟨reason, code, rfl⟩
    · exact hkeep (tends_same ho hexec).1 (by rw [tends_turn ho]; rfl)
    · exact hkeep (hdb (by simp)) rfl
    · exact hkeep (hdb (by simp)) (by cases x <;> rfl)
    · exact hkeep (hdb (by simp)) rfl
    · rcases hmoved rfl with ⟨_, hiff⟩ | ⟨_, rfl⟩
      · rw [hiff]
        simp [Duty.work, Duty.leaves]
      · exact hkeep rfl rfl
  | held =>
    rcases hmay with ho | rfl | ⟨reason, code, rfl⟩
    · exact hkeep (tends_same ho hexec).1 (by rw [tends_turn ho]; rfl)
    · exact hkeep (hdb (by simp)) rfl
    · rcases hmoved rfl with ⟨⟨y, hy⟩, hiff⟩ | ⟨⟨e, rfl⟩, rfl⟩
      · obtain rfl := eq_of_heq hy
        rw [hiff]
        simp [Duty.work, Duty.leaves]
      · exact hkeep rfl rfl
  | claimed =>
    rcases hmay with ho | rfl | rfl | ⟨new, reason, code, hnew, rfl⟩
    · exact hkeep (tends_same ho hexec).1 (by rw [tends_turn ho]; rfl)
    · exact hkeep (hdb (by simp)) rfl
    · exact hkeep (hdb (by simp)) rfl
    · rcases hmoved rfl with ⟨⟨y, hy⟩, hiff⟩ | ⟨⟨e, rfl⟩, rfl⟩
      · obtain rfl := eq_of_heq hy
        rw [hiff]
        rcases hnew with rfl | rfl <;> simp [Duty.work, Duty.leaves]
      · exact hkeep rfl rfl
  | failing =>
    rcases hmay with ho | ⟨task, rfl⟩ | ⟨reason, code, rfl⟩
    · exact hkeep (tends_same ho hexec).1 (by rw [tends_turn ho]; rfl)
    · exact hkeep (hdb (by simp)) rfl
    · rcases hmoved rfl with ⟨⟨y, hy⟩, hiff⟩ | ⟨⟨e, rfl⟩, rfl⟩
      · obtain rfl := eq_of_heq hy
        rw [hiff]
        simp [Duty.work, Duty.leaves]
      · exact hkeep rfl rfl
  | _ => exact hmay.elim

theorem work_can (ids : s.db.Ids) (hmay : (workerScript rid).may g o)
    (hrow : g.executes = true ↔ s.db.Running rid) (hexec : exec r o c s = some (x, s')) :
    (workerScript rid).can g o x := by
  have hreads : ∀ {i : Nat}, Op.tends rid (.db (.getRun i)) → i = rid := fun h => h
  unfold workerScript
  simp only
  split
  · rename_i i run
    rcases hmay with ho | h | h | ⟨_, h⟩ | ⟨_, _, h⟩
    · obtain rfl := hreads ho
      intro hstate
      rcases Shared.query_cases hexec with ⟨y, db, hrun, hy, _⟩ | ⟨e, he, _⟩
      · cases hy
        exact Bool.noConfusion (hrow.mpr ⟨run, (getRun_ok hrun).1, hstate⟩)
      · cases he
    all_goals cases h
  · rename_i i run
    rcases hmay with ho | ⟨_, h⟩ | ⟨_, _, h⟩
    · obtain rfl := hreads ho
      obtain ⟨q, hq, hs⟩ := hrow.mp rfl
      rcases getRun_cases hq hexec with hx | hx
      · cases hx
        exact hs
      · cases hx
    all_goals cases h
  · rename_i i e
    rcases hmay with ho | ⟨_, h⟩ | ⟨_, _, h⟩
    · obtain rfl := hreads ho
      obtain ⟨q, hq, hs⟩ := hrow.mp rfl
      rcases getRun_cases hq hexec with hx | hx
      · cases hx
      · cases hx
        rfl
    all_goals cases h
  · rcases hmay with ho | ⟨_, h⟩ | ⟨_, _, h⟩
    · exact ho.elim
    · cases h
    · cases h
      obtain ⟨q, hq, hs⟩ := hrow.mp rfl
      exact transitionRun_raises ids hq hs (by decide) hexec
  · trivial

theorem works_of_may (hmay : (workerScript rid).may g o) : g.works = true := by
  cases g <;> first | rfl | exact hmay.elim

theorem worker_spawn (hmay : (workerScript rid).may g o) : spawn o s = none := by
  have htends : o.tends rid → spawn o s = none := by
    intro ho
    cases o <;> first | rfl | exact ho.elim
  cases g with
  | waiting =>
    rcases hmay with ho | rfl | rfl | ⟨task, rfl⟩ | ⟨reason, code, rfl⟩
    · exact htends ho
    all_goals rfl
  | held =>
    rcases hmay with ho | rfl | ⟨reason, code, rfl⟩
    · exact htends ho
    all_goals rfl
  | claimed =>
    rcases hmay with ho | rfl | rfl | ⟨new, reason, code, -, rfl⟩
    · exact htends ho
    all_goals rfl
  | failing =>
    rcases hmay with ho | ⟨task, rfl⟩ | ⟨reason, code, rfl⟩
    · exact htends ho
    all_goals rfl
  | _ => exact hmay.elim

theorem work_slots (hmay : (workerScript rid).may g o) (hexec : exec r o c s = some (x, s')) :
    s'.ctl.free + (g.work o x).holds.toNat = s.ctl.free + g.holds.toNat ∧
      (g = .waiting ∧ o = .acquire ∨ s.ctl.free + (g.work o x == .failing).toNat ≤
        s'.ctl.free + (g == .failing).toNat) ∧
      ((g.work o x).works = true → s'.ctl.tasks = s.ctl.tasks) := by
  have hsame : s'.ctl = s.ctl → (g.work o x).holds = g.holds →
      ((g.work o x == .failing) = true → (g == .failing) = true) →
      s'.ctl.free + (g.work o x).holds.toNat = s.ctl.free + g.holds.toNat ∧
      (g = .waiting ∧ o = .acquire ∨ s.ctl.free + (g.work o x == .failing).toNat ≤
        s'.ctl.free + (g == .failing).toNat) ∧
      ((g.work o x).works = true → s'.ctl.tasks = s.ctl.tasks) := by
    intro hctl hholds hfailing
    rw [hctl, hholds]
    refine ⟨rfl, .inr (Nat.add_le_add_left ?_ _), fun _ => rfl⟩
    cases hafter : g.work o x == .failing with
    | false => exact Nat.zero_le _
    | true => rw [hfailing hafter]
  have htends : o.tends rid → s'.ctl = s.ctl ∧ g.work o x = g :=
    fun ho => ⟨(tends_same ho hexec).2, tends_turn ho⟩
  have hstore : ∀ {q : Query}, o = .db q → s'.ctl = s.ctl := by
    rintro q rfl
    rcases Shared.query_cases hexec with ⟨_, _, _, _, rfl⟩ | ⟨_, _, rfl⟩ <;> rfl
  cases g with
  | waiting =>
    rcases hmay with ho | rfl | rfl | ⟨task, rfl⟩ | ⟨reason, code, rfl⟩
    · exact hsame (htends ho).1 (by rw [(htends ho).2]) (by rw [(htends ho).2]; exact id)
    · exact hsame (by rw [exec_still rfl hexec]) rfl id
    · simp only [exec] at hexec
      split at hexec
      · cases hexec
      · cases c <;> cases hexec
        refine ⟨?_, .inl ⟨rfl, rfl⟩, fun _ => rfl⟩
        simp only [Duty.work, Duty.holds, Bool.toNat_true, Bool.toNat_false]
        omega
    · rw [Shared.sure_eq hexec]
      exact ⟨rfl, .inr (Nat.le_refl _), fun h => by cases h⟩
    · exact hsame (hstore rfl) rfl id
  | held =>
    rcases hmay with ho | rfl | ⟨reason, code, rfl⟩
    · exact hsame (htends ho).1 (by rw [(htends ho).2]) (by rw [(htends ho).2]; exact id)
    · rw [Shared.sure_eq hexec]
      exact ⟨rfl, .inr (Nat.le_succ _), fun _ => rfl⟩
    · exact hsame (hstore rfl) (by cases x <;> rfl) (by cases x <;> exact id)
  | claimed =>
    rcases hmay with ho | rfl | rfl | ⟨new, reason, code, hnew, rfl⟩
    · exact hsame (htends ho).1 (by rw [(htends ho).2]) (by rw [(htends ho).2]; exact id)
    · rw [Shared.sure_eq hexec]
      exact ⟨rfl, .inr (Nat.le_refl _), fun _ => rfl⟩
    · exact hsame (by rw [exec_still rfl hexec]) rfl id
    · exact hsame (hstore rfl) (by cases x <;> rfl) (by cases x <;> exact id)
  | failing =>
    rcases hmay with ho | ⟨task, rfl⟩ | ⟨reason, code, rfl⟩
    · exact hsame (htends ho).1 (by rw [(htends ho).2]) (by rw [(htends ho).2]; exact id)
    · rw [Shared.sure_eq hexec]
      exact ⟨rfl, .inr (Nat.le_succ _), fun h => by cases h⟩
    · exact hsame (hstore rfl) (by cases x <;> rfl) fun _ => rfl
  | _ => exact hmay.elim

end Worker

end Sdpctl
