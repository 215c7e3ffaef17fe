import Sdpctl.Discipline.Environment

/-!
What a process may rely on while the others move. `Onward` survives everything;
`Keeps` is what a coroutine finds again after a wait; `Quiet` holds between two
operations of one turn, when only commands and the environment can move.
-/

namespace Sdpctl

open FileTree Coop

variable {T : Terms} {r r' : Role} {s s' s'' : Shared}

structure Onward (T : Terms) (s s' : Shared) : Prop where
  db : s.db.Grows s'.db
  dropped : s.dropped ⊆ s'.dropped
  ms : T.Calm → ∀ oid o, s.db.obs? oid = some o → o.state.Closing →
    s.disk.absent (msPathOf oid) → s'.disk.absent (msPathOf oid)
  trash : T.Calm → ∀ oid o, s.db.obs? oid = some o → o.state.Closing →
    s.disk.absent (msPathOf oid) → s.disk.absent (trashPath oid) → s'.disk.absent (trashPath oid)

namespace Onward

theorem refl (s : Shared) : Onward T s s :=
  ⟨.refl _, List.Subset.refl _, fun _ _ _ _ _ h => h, fun _ _ _ _ _ _ h => h⟩

theorem trans (h : Onward T s s') (h' : Onward T s' s'') : Onward T s s'' where
  db := h.db.trans h'.db
  dropped := List.Subset.trans h.dropped h'.dropped
  ms hcalm oid o ho hclosing habs := by
    obtain ⟨o', ho', hclosing'⟩ := h.db.rows oid o ho
    exact h'.ms hcalm oid o' ho' (hclosing' hclosing) (h.ms hcalm oid o ho hclosing habs)
  trash hcalm oid o ho hclosing hms htrash := by
    obtain ⟨o', ho', hclosing'⟩ := h.db.rows oid o ho
    exact h'.trash hcalm oid o' ho' (hclosing' hclosing) (h.ms hcalm oid o ho hclosing hms)
      (h.trash hcalm oid o ho hclosing hms htrash)

/-- Nothing but the list of dropped observations and the processes changes. -/
theorem of_same (hdb : s'.db = s.db) (hdisk : s'.disk = s.disk)
    (hdropped : s.dropped ⊆ s'.dropped) : Onward T s s' where
  db := hdb ▸ .refl _
  dropped := hdropped
  ms _ _ _ _ _ h := hdisk ▸ h
  trash _ _ _ _ _ _ h := hdisk ▸ h

end Onward

theorem closing_ne_observing {state : ObservationState} (h : state.Closing) :
    state ≠ .observing := by
  rcases h with rfl | rfl | rfl <;> decide

theorem Step.onward (hinv : Inv T s) (h : Step T r s s') : Onward T s s' where
  db := h.dbGrows hinv
  dropped := by rw [h.dropped]; exact List.Subset.refl _
  ms hcalm oid o ho hclosing habs := by
    rcases h.sees hinv.disk ho with ⟨hms, _⟩ | ⟨_, hless⟩ | ⟨hobs, _⟩
    · exact hms.trans habs
    · exact hless.ms habs
    · exact absurd hobs (closing_ne_observing hclosing)
  trash hcalm oid o ho hclosing hms htrash := by
    rcases h.sees hinv.disk ho with ⟨_, hsame⟩ | ⟨_, hless⟩ | ⟨hobs, _⟩
    · exact hsame.trans htrash
    · exact hless.trash hms htrash
    · exact absurd hobs (closing_ne_observing hclosing)

theorem env_onward {e : Env} (hinv : Inv T s) (hcalm : T.Calm → Peaceful e s)
    (h : env e s = some s') : Onward T s s' := by
  have hmove := env_move h
  refine ⟨hmove.db ▸ .refl _, hmove.dropped ▸ List.Subset.refl _, ?_, ?_⟩
  · intro hT oid o ho hclosing habs
    have hno := hinv.runners.noWriter ho (closing_ne_observing hclosing)
    exact (env_ms hinv (hcalm hT) h oid hno).trans habs
  · intro _ oid o _ _ _ htrash
    exact (hmove.trash hinv oid).trans htrash

theorem enter_onward {n : Entry} (h : enter r n s = some s') : Onward T s s' := by
  cases enter_cases h with
  | boot => exact .of_same rfl rfl (List.Subset.refl _)
  | resolve => exact .of_same rfl rfl (List.subset_cons_self _ _)
  | command => exact .refl _

theorem down_onward (s : Shared) : Onward T s (down s) :=
  .of_same rfl rfl (List.Subset.refl _)

/-- What is left of the work of one coroutine while the others move. -/
def Mine : Role → Shared → Shared → Prop
  | .main, s, s' => s.ctl.tasks = [] → s'.ctl.tasks = []
  | .observe task oid, s, s' => Owns task oid s → Owns task oid s' ∧
      (s.db.InState oid .observing → s'.db.InState oid .observing) ∧
      (NoWriter oid s → NoWriter oid s') ∧
      ((∀ w ∈ s.runners, w.oid ≠ oid) → ∀ w ∈ s'.runners, w.oid ≠ oid)
  | .process task rid, s, s' => OwnsRun task rid s → OwnsRun task rid s' ∧
      ∀ q, s.db.run? rid = some q → q.state = .running → s'.db.run? rid = some q
  | .cli, _, _ => True

theorem Mine.refl : ∀ (r : Role) (s : Shared), Mine r s s
  | .main, _ => id
  | .observe _ _, _ => fun h => ⟨h, id, id, id⟩
  | .process _ _, _ => fun h => ⟨h, fun _ hq _ => hq⟩
  | .cli, _ => trivial

theorem Mine.trans {r : Role} (h : Mine r s s') (h' : Mine r s' s'') : Mine r s s'' := by
  cases r with
  | main => exact h' ∘ h
  | observe task oid =>
    intro howns
    obtain ⟨howns', hobs, hno, hnone⟩ := h howns
    obtain ⟨howns'', hobs', hno', hnone'⟩ := h' howns'
    exact ⟨howns'', hobs' ∘ hobs, hno' ∘ hno, hnone' ∘ hnone⟩
  | process task rid =>
    intro howns
    obtain ⟨howns', hrun⟩ := h howns
    obtain ⟨howns'', hrun'⟩ := h' howns'
    exact ⟨howns'', fun q hq hs => hrun' q (hrun q hq hs) hs⟩
  | cli => trivial

/-- What a coroutine finds again after a wait. -/
structure Keeps (r : Role) (s s' : Shared) : Prop where
  up : s'.ctl.up = s.ctl.up
  cfg : s'.ctl.cfg = s.ctl.cfg
  noOrphan : NoOrphan s → NoOrphan s'
  place : ∀ (h : Nat) w, s.runners[h]? = some w → ∃ w', s'.runners[h]? = some w' ∧ w'.oid = w.oid
  mine : Mine r s s'

namespace Keeps

theorem refl (r : Role) (s : Shared) : Keeps r s s :=
  ⟨rfl, rfl, id, fun _ w hw => ⟨w, hw, rfl⟩, Mine.refl r s⟩

theorem trans (h : Keeps r s s') (h' : Keeps r s' s'') : Keeps r s s'' where
  up := h'.up.trans h.up
  cfg := h'.cfg.trans h.cfg
  noOrphan := h'.noOrphan ∘ h.noOrphan
  place i w hw := by
    obtain ⟨w', hw', hoid⟩ := h.place i w hw
    obtain ⟨w'', hw'', hoid'⟩ := h'.place i w' hw'
    exact ⟨w'', hw'', hoid'.trans hoid⟩
  mine := h.mine.trans h'.mine

end Keeps

@[simp] theorem Step.up (h : Step T r s s') : s'.ctl.up = s.ctl.up := by
  cases h <;> first | rfl | simp

@[simp] theorem Step.cfg (h : Step T r s s') : s'.ctl.cfg = s.ctl.cfg := by
  cases h <;> first | rfl | simp

theorem Step.place (h : Step T r s s') (i : Nat) (w : Runner) (hw : s.runners[i]? = some w) :
    ∃ w', s'.runners[i]? = some w' ∧ w'.oid = w.oid := by
  cases h with
  | start may =>
    refine ⟨w, ?_, rfl⟩
    rw [List.getElem?_append_left (List.getElem?_eq_some_iff.mp hw).1]
    exact hw
  | cancel => exact (RunnersLater.setState _ (by simp) (by simp) _).get hw
  | slain => exact (RunnersLater.slain _).get hw
  | remove | prune => exact ⟨w, by simpa using hw, rfl⟩
  | _ => exact ⟨w, hw, rfl⟩

theorem Step.noOrphan (h : Step T r s s') (hno : NoOrphan s) : NoOrphan s' := by
  cases h with
  | start may =>
    intro w hw
    rcases List.mem_append.mp hw with hw | hw
    · exact hno w hw
    · simp [List.mem_singleton.mp hw]
  | cancel => exact forall_mem_modify hno fun _ _ => by simp
  | slain =>
    intro w hw
    obtain ⟨v, hv, rfl⟩ := List.mem_map.mp hw
    unfold Runner.slain
    split
    · simp
    · exact hno v hv
  | remove | prune => simpa [NoOrphan] using hno
  | _ => exact hno

theorem Owns.unique {task task' oid : Nat} (h : Owns task oid s) (h' : Owns task' oid s) :
    task = task' := congrArg Task.id (Option.some.inj (h.symm.trans h'))

theorem OwnsRun.unique {task task' rid : Nat} (h : OwnsRun task rid s) (h' : OwnsRun task' rid s) :
    task = task' := congrArg Task.id (Option.some.inj (h.symm.trans h'))

/-- Somebody else's step leaves the task of an observation worker alone. -/
theorem Step.owns (hinv : Inv T s) (h : Step T r s s') {task oid : Nat}
    (hne : r ≠ .observe task oid) (howns : Owns task oid s) : Owns task oid s' := by
  cases h with
  | track role up dead row =>
    unfold Owns
    rw [Ctl.latest_track_ne _ ?_]
    · exact howns
    · rintro ⟨rfl, rfl⟩
      rw [howns.live] at dead
      cases dead
  | finish may =>
    refine may.latest_ne hinv.tasks howns ?_ (by simp)
    rintro i hrole ⟨_, rfl⟩
    cases may with
    | observe j role owns writer =>
      obtain ⟨-, rfl⟩ : True ∧ oid = j := by simpa [hrole] using role
      exact hne (howns.unique owns ▸ hrole)
    | process rid role owns => simp [role] at hrole
  | remove | prune => simpa [Owns] using howns
  | _ => exact howns

/-- Somebody else's step leaves the task of a processing worker alone. -/
theorem Step.ownsRun (hinv : Inv T s) (h : Step T r s s') {task rid : Nat}
    (hne : r ≠ .process task rid) (howns : OwnsRun task rid s) : OwnsRun task rid s' := by
  cases h with
  | track role up dead row =>
    unfold OwnsRun
    rw [Ctl.latest_track_ne _ ?_]
    · exact howns
    · rintro ⟨rfl, rfl⟩
      rw [howns.live] at dead
      cases dead
  | finish may =>
    refine may.latest_ne hinv.tasks howns (by simp) ?_
    rintro i hrole ⟨_, rfl⟩
    cases may with
    | observe j role owns writer => simp [role] at hrole
    | process j role owns =>
      obtain ⟨-, rfl⟩ : True ∧ rid = j := by simpa [hrole] using role
      rw [← howns.unique owns] at hrole
      exact hne hrole
  | remove | prune => simpa [OwnsRun] using howns
  | _ => exact howns

/-- Nobody but its own worker holds an observation that has a live one. -/
theorem Holder.own {task oid : Nat} (h : Holder r oid s) (howns : Owns task oid s) :
    r = .observe task oid := by
  rcases h with ⟨task', hrole, howns'⟩ | ⟨_, hdead, _⟩
  · rw [howns.unique howns', hrole]
  · rw [howns.live] at hdead
    cases hdead

theorem Step.runners_of_other (h : Step T r s s') {task oid : Nat}
    (hne : r ≠ .observe task oid) (howns : Owns task oid s) {w' : Runner}
    (hw' : w' ∈ s'.runners) (hoid : w'.oid = oid) :
    ∃ w ∈ s.runners, w.oid = oid ∧ (w'.running = true → w.running = true) := by
  have hlater : ∀ {rs : List Runner}, RunnersLater s.runners rs → w' ∈ rs →
      ∃ w ∈ s.runners, w.oid = oid ∧ (w'.running = true → w.running = true) := by
    intro rs hl hmem
    obtain ⟨w, hw, hwoid, _, hrun, _⟩ := hl.mem hmem
    exact ⟨w, hw, hwoid.symm.trans hoid, hrun⟩
  cases h with
  | start may =>
    rcases List.mem_append.mp hw' with hw | hw
    · exact ⟨w', hw, hoid, id⟩
    · obtain ⟨task', hrole, howns'⟩ := may.role
      rw [List.mem_singleton.mp hw] at hoid
      subst hoid
      exact absurd (howns.unique howns' ▸ hrole) hne
  | cancel => exact hlater (RunnersLater.setState _ (by simp) (by simp) _) hw'
  | slain => exact hlater (RunnersLater.slain _) hw'
  | remove | prune => exact ⟨w', by simpa using hw', hoid, id⟩
  | _ => exact ⟨w', hw', hoid, id⟩

theorem Step.observing_of_other (hinv : Inv T s) (h : Step T r s s') {task oid : Nat}
    (hne : r ≠ .observe task oid) (howns : Owns task oid s) (hobs : s.db.InState oid .observing) :
    s'.db.InState oid .observing := by
  cases h with
  | db move => exact move.observing hinv.db (fun hh => hne (hh.2.own howns)) hobs
  | remove | prune => simpa using hobs
  | _ => exact hobs

theorem Db.Quiet.running {db db' : Db} (h : db.Quiet db') {rid : Nat} {q : ProcessingRun}
    (hq : db.run? rid = some q) (hs : q.state = .running) : db'.run? rid = some q := by
  rcases h.runs rid q hq with hsame | ⟨hrev, _⟩
  · exact hsame
  · rcases hrev with hs' | hs' <;> simp [hs] at hs'

theorem Step.running_of_other (hinv : Inv T s) (h : Step T r s s') {task rid : Nat}
    (hne : r ≠ .process task rid) (howns : OwnsRun task rid s) {q : ProcessingRun}
    (hq : s.db.run? rid = some q) (hs : q.state = .running) : s'.db.run? rid = some q := by
  cases h with
  | db move =>
    cases move with
    | events observations runs => exact (Db.run?_congr runs rid).trans hq
    | obs step => exact (step.run? rid).trans hq
    | admitted step => exact (step.run? rid).trans hq
    | run step move =>
      rename_i x x'
      rw [step.run?, if_neg]
      · exact hq
      · rintro rfl
        have hx : x = q := Option.some.inj (step.found.symm.trans hq)
        subst hx
        cases move with
        | settle task' role owns =>
          rw [step.id] at role owns
          exact hne (howns.unique owns ▸ role)
        | orphaned role dead =>
          rw [step.id, howns.live] at dead
          cases dead
        | start _ _ _ before | giveUp _ _ _ before | retry _ _ before => simp [before] at hs
    | marked role step =>
      have hmiss := step.failed q
      rw [step.run?, hq, Option.map_some, Db.mark]
      split
      · simp [hmiss ‹_›] at hs
      · rfl
    | created step =>
      rw [step.run? hinv.db.ids, if_neg]
      · exact hq
      · rintro rfl
        exact step.newId hinv.db.ids q (Db.mem_of_run? hq).1 (Db.mem_of_run? hq).2
    | released role step => exact (Db.Quiet.releases step).running hq hs
    | reprocessed role step added before after stored owner =>
      exact (Db.Quiet.reprocessed hinv.db.ids step added before after owner).running hq hs
  | remove | prune => simpa using hq
  | _ => exact hq

theorem Step.keeps (hinv : Inv T s) (h : Step T r s s') (hne : r ≠ r') : Keeps r' s s' where
  up := h.up
  cfg := h.cfg
  noOrphan := h.noOrphan
  place := h.place
  mine := by
    cases r' with
    | main =>
      intro hidle
      cases h with
      | track role => exact absurd role hne
      | finish may => simp [Ctl.finish, hidle]
      | remove | prune => simpa using hidle
      | _ => exact hidle
    | observe task oid =>
      intro howns
      refine ⟨h.owns hinv hne howns, h.observing_of_other hinv hne howns, ?_, ?_⟩
      · intro hno w' hw' hoid
        obtain ⟨w, hw, hwoid, hrun⟩ := h.runners_of_other hne howns hw' hoid
        cases hr : w'.running with
        | false => rfl
        | true => simpa [hrun hr] using hno w hw hwoid
      · intro hnone w' hw' hoid
        obtain ⟨w, hw, hwoid, _⟩ := h.runners_of_other hne howns hw' hoid
        exact hnone w hw hwoid
    | process task rid =>
      exact fun howns => ⟨h.ownsRun hinv hne howns, fun _ => h.running_of_other hinv hne howns⟩
    | cli => trivial

/-- What holds between two operations of one turn: only commands and the
environment move. -/
structure Quiet (T : Terms) (s s' : Shared) : Prop where
  db : s.db.Quiet s'.db
  ctl : s'.ctl = s.ctl
  runners : RunnersLater s.runners s'.runners
  noOrphan : NoOrphan s → NoOrphan s'
  shrunk : s.disk.Shrunk s'.disk
  mtime : s.disk.mtime quarantineRoot ≤ s'.disk.mtime quarantineRoot
  frozen : T.Calm → ∀ oid, s.db.InState oid .observing → NoWriter oid s →
    s'.disk.get? (msPathOf oid) = s.disk.get? (msPathOf oid)
  absent : T.Calm → ∀ oid, (s.db.obs? oid).isSome → NoWriter oid s →
    s.disk.absent (msPathOf oid) → s'.disk.absent (msPathOf oid)
  raw : T.Calm → (∀ w ∈ s.runners, w.running = false) → s'.disk.raw ≤ s.disk.raw

theorem Db.Quiet.observing {db db' : Db} (h : db.Quiet db') {oid : Nat}
    {state : ObservationState} (hstate : state ≠ .stored) (hopen : ¬ state.Closing)
    (hobs : db.InState oid state) : db'.InState oid state := by
  obtain ⟨o, ho, rfl⟩ := hobs
  rcases h.steady oid o ho with ho' | ⟨hs | hs, _⟩
  · exact ⟨o, ho', rfl⟩
  · exact absurd hs hstate
  · exact absurd hs hopen

namespace Quiet

theorem refl (s : Shared) : Quiet T s s :=
  ⟨.refl _, rfl, .refl _, id, .refl _, Nat.le_refl _, fun _ _ _ _ => rfl, fun _ _ _ _ h => h,
    fun _ _ => Nat.le_refl _⟩

theorem noWriter (h : Quiet T s s') {oid : Nat} (hno : NoWriter oid s) : NoWriter oid s' :=
  h.runners.noWriter hno

theorem inState (h : Quiet T s s') {oid : Nat} {state : ObservationState} (hstate : state ≠ .stored)
    (hopen : ¬ state.Closing) (hobs : s.db.InState oid state) : s'.db.InState oid state :=
  h.db.observing hstate hopen hobs

theorem observing (h : Quiet T s s') {oid : Nat} (hobs : s.db.InState oid .observing) :
    s'.db.InState oid .observing :=
  h.inState (by decide) (by simp [ObservationState.Closing]) hobs

theorem trans (h : Quiet T s s') (h' : Quiet T s' s'') : Quiet T s s'' where
  db := h.db.trans h'.db
  ctl := h'.ctl.trans h.ctl
  runners := h.runners.trans h'.runners
  noOrphan := h'.noOrphan ∘ h.noOrphan
  shrunk := h.shrunk.trans h'.shrunk
  mtime := Nat.le_trans h.mtime h'.mtime
  frozen hcalm oid hobs hno :=
    (h'.frozen hcalm oid (h.observing hobs) (h.noWriter hno)).trans (h.frozen hcalm oid hobs hno)
  absent hcalm oid hrow hno habs :=
    h'.absent hcalm oid (h.db.grows.isSome oid hrow) (h.noWriter hno)
      (h.absent hcalm oid hrow hno habs)
  raw hcalm hidle := by
    refine Nat.le_trans (h'.raw hcalm fun w' hw' => ?_) (h.raw hcalm hidle)
    obtain ⟨w, hw, _, _, hrun, _⟩ := h.runners.mem hw'
    cases hr : w'.running with
    | false => rfl
    | true => simpa [hrun hr] using hidle w hw

theorem keeps (h : Quiet T s s') : Keeps r s s' where
  up := by rw [h.ctl]
  cfg := by rw [h.ctl]
  noOrphan := h.noOrphan
  place _ _ hw := h.runners.get hw
  mine := by
    cases r with
    | main => exact fun hidle => by rw [h.ctl]; exact hidle
    | observe task oid =>
      refine fun howns => ⟨?_, h.observing, h.noWriter, ?_⟩
      · unfold Owns
        rw [h.ctl]
        exact howns
      · intro hnone w' hw'
        obtain ⟨w, hw, hoid, _⟩ := h.runners.mem hw'
        rw [hoid]
        exact hnone w hw
    | process task rid =>
      refine fun howns => ⟨?_, fun _ => h.db.running⟩
      unfold OwnsRun
      rw [h.ctl]
      exact howns
    | cli => trivial

end Quiet

theorem DbMove.quiet {db' : Db} (hids : s.db.Ids) (move : DbMove T .cli s db') :
    s.db.Quiet db' := by
  cases move with
  | events observations runs obsSeq runSeq attempts reached =>
    exact .congr observations runs attempts reached
  | obs step move =>
    cases move with
    | delete role before after size reserved warrant gone =>
      refine .completed hids step ?_ after size
      rcases before with hs | hs
      · exact .inl hs
      · exact .inr (.inr hs)
    | note role => exact absurd rfl role
    | claim _ role | abandon _ role | complete _ role => cases role
    | fail holder =>
      rcases holder with ⟨_, hrole, _⟩ | ⟨hrole, _⟩ <;> cases hrole
    | repair role | miss role => cases role
  | run step move =>
    cases move with
    | start _ role | settle _ role | giveUp _ role => cases role
    | orphaned role | retry role => cases role
  | marked role => cases role
  | admitted _ _ _ _ admits => cases admits.role
  | created _ _ creates => cases creates.role
  | released role step => exact .releases step
  | reprocessed role step added before after stored owner attempt path =>
    refine .reprocessed hids step added ?_ after owner
    rcases before with hs | hs
    · exact .inl hs
    · exact .inr hs

theorem Step.quiet (hinv : Inv T s) (h : Step T .cli s s') : Quiet T s s' := by
  have hcli : ∀ oid, ¬ Holder .cli oid s := by
    rintro oid (⟨_, hrole, _⟩ | ⟨hrole, _⟩) <;> cases hrole
  have hdb : s.db.Quiet s'.db := by
    cases h with
    | db move => exact move.quiet hinv.db.ids
    | remove | prune =>
      simp only [Shared.notePurge_db]
      exact .refl _
    | _ => exact .refl _
  have hmem : s'.ctl = s.ctl ∧ s'.runners = s.runners := by
    cases h with
    | cache role | slots role | abort role => exact absurd rfl role
    | track role | slain role | cancel role => cases role
    | finish may => cases may with | observe _ role | process _ role => cases role
    | start may =>
      obtain ⟨_, role, _⟩ := may.role
      cases role
    | remove | prune => simp
    | _ => exact ⟨rfl, rfl⟩
  refine ⟨hdb, hmem.1, hmem.2 ▸ .refl _, h.noOrphan, h.shrunk hinv.disk, ?_, ?_, ?_, ?_⟩
  · rcases h.quarantineSize hinv.disk with hlt | ⟨heq, _⟩
    · exact Nat.le_of_lt hlt
    · exact Nat.le_of_eq heq.symm
  · rintro _ oid ⟨o, ho, hobs⟩ _
    rcases h.sees hinv.disk ho with ⟨hms, _⟩ | ⟨hclosing, _⟩ | ⟨_, _, hholder, _⟩
    · exact hms
    · exact absurd hobs (closing_ne_observing hclosing)
    · exact absurd hholder (hcli oid)
  · intro _ oid hrow _ habs
    obtain ⟨o, ho⟩ := Option.isSome_iff_exists.mp hrow
    rcases h.sees hinv.disk ho with ⟨hms, _⟩ | ⟨_, hless⟩ | ⟨_, _, hholder, _⟩
    · exact hms.trans habs
    · exact hless.ms habs
    · exact absurd hholder (hcli oid)
  · exact fun _ _ => (h.bytes_le hinv.disk).1

/-- In calm the environment adds bytes only where a runner is at work. -/
theorem env_raw {e : Env} (hcalm : Peaceful e s) (h : env e s = some s')
    (hidle : ∀ w ∈ s.runners, w.running = false) : s'.disk.raw = s.disk.raw := by
  cases env_cases h with
  | write =>
    obtain ⟨w, hw, hrun⟩ := hcalm
    simp [hidle w (List.mem_of_getElem? hw)] at hrun
  | loss => exact hcalm.elim
  | product =>
    exact congrArg₂ (· + ·) (bytesAt_product _ (by decide)) (bytesAt_product _ (by decide))
  | launch | containerExit | returned | raised => rfl

theorem env_quiet {e : Env} (hinv : Inv T s) (hcalm : T.Calm → Peaceful e s)
    (h : env e s = some s') : Quiet T s s' := by
  have hmove := env_move h
  refine ⟨hmove.db ▸ .refl _, hmove.ctl, hmove.runnersLater, hmove.noOrphan, ?_, ?_, ?_, ?_, ?_⟩
  · intro q u' hu'
    rw [(hmove.quarantine hinv q).1] at hu'
    exact ⟨u', hu', Nat.le_refl _⟩
  · exact Nat.le_of_eq (hmove.quarantine hinv []).2.symm
  · exact fun hT oid _ hno => env_ms hinv (hcalm hT) h oid hno
  · exact fun hT oid _ hno habs => (env_ms hinv (hcalm hT) h oid hno).trans habs
  · exact fun hT hidle => Nat.le_of_eq (env_raw (hcalm hT) h hidle)

theorem enter_quiet {n : Entry} (h : enter .cli n s = some s') : Quiet T s s' := by
  have hsame : s'.db = s.db ∧ s'.disk = s.disk ∧ s'.ctl = s.ctl ∧ s'.runners = s.runners := by
    cases enter_cases h <;> exact ⟨rfl, rfl, rfl, rfl⟩
  obtain ⟨hdb, hdisk, hctl, hrunners⟩ := hsame
  refine ⟨hdb ▸ .refl _, hctl, hrunners ▸ .refl _, ?_, hdisk ▸ .refl _, hdisk ▸ Nat.le_refl _,
    ?_, ?_, ?_⟩
  · unfold NoOrphan
    rw [hrunners]
    exact id
  · exact fun _ _ _ _ => by rw [hdisk]
  · exact fun _ _ _ _ habs => by rw [hdisk]; exact habs
  · exact fun _ _ => by rw [hdisk]

end Sdpctl
