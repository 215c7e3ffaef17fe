import Sdpctl.Discipline.Files

/-!
The invariant of the system is kept by every step of the discipline.
-/

namespace Sdpctl

open FileTree Coop

variable {T : Terms} {r : Role} {s s' : Shared} {db' : Db}

theorem ObsMove.lawful (h : s.db.Lawful s.dropped) {o o' : Observation}
    (step : Db.ObsStep s.db db' o o') (move : ObsMove T r s o o') : db'.Lawful s.dropped := by
  have hfound : s.db.obs? o.id = some o := step.id ▸ step.found
  have hrel := h.released o.id o hfound
  cases move with
  | note role state size reserved =>
    refine h.obsStep step (state ▸ id) ?_ ?_ (fun hr => state ▸ hrel hr)
    · exact fun hs => h.deleting o.id o hfound (state ▸ hs)
    · exact fun hs => h.deleted o.id o hfound (state ▸ hs)
  | claim task role owns before after size reserved =>
    exact h.obsStep step (fun _ => .inl before) (by simp [after]) (by simp [after])
      (fun hr => by simp [before] at hrel; exact absurd hr hrel)
  | abandon task role owns before after size reserved =>
    exact h.obsStep step (fun _ => .inl before) (by simp [after]) (by simp [after])
      (fun hr => by simp [before] at hrel; exact absurd hr hrel)
  | fail holder writer before after size reserved gone =>
    exact h.obsStep step (fun _ => .inr before) (by simp [after]) (by simp [after])
      (fun hr => by simp [before] at hrel; exact absurd hr hrel)
  | complete task role owns writer before after reserved bounded weighed =>
    exact h.obsStep step (fun _ => .inr before) (by simp [after]) (by simp [after])
      (fun hr => by simp [before] at hrel; exact absurd hr hrel)
  | repair role before after size reserved released =>
    exact h.obsStep step (by simp [after, ObservationState.Active]) (fun _ => released)
      (by simp [after]) (fun _ => .inl after)
  | miss role before after size reserved gone =>
    exact h.obsStep step (by simp [after, ObservationState.Active]) (by simp [after])
      (by simp [after]) (fun hr => by simp [before] at hrel; exact absurd hr hrel)
  | delete role before after size reserved warrant gone =>
    exact h.obsStep step (by simp [after, ObservationState.Active]) (by simp [after])
      (fun _ => warrant) (fun _ => .inr after)

theorem ObsMove.closing {o o' : Observation} (move : ObsMove T r s o o')
    (h : o.state.Closing) : o'.state.Closing := by
  cases move with
  | note role state size reserved => exact state ▸ h
  | delete role before after size reserved warrant gone => exact .inr (.inl after)
  | claim _ _ _ before | abandon _ _ _ before | fail _ _ before | complete _ _ _ _ before
  | repair _ before | miss _ before =>
    rcases h with hs | hs | hs <;> simp [before] at hs

theorem RunMove.open {q q' : ProcessingRun} (move : RunMove r s q q') :
    q.state ≠ .superseded ∧ q'.state ≠ .superseded ∧ ¬ q.state.Releasing ∧
      ¬ q'.state.Releasing := by
  cases move with
  | settle task role owns before after =>
    rcases after with after | after <;> simp [before, after, RunState.Releasing]
  | start _ _ _ before after | giveUp _ _ _ before after | orphaned _ _ before after
  | retry _ _ before after => simp [before, after, RunState.Releasing]

theorem RunMove.undelivered {q q' : ProcessingRun} (move : RunMove r s q q') :
    ¬ q.state.Delivered := by
  cases move with
  | start _ _ _ before | settle _ _ _ before | giveUp _ _ _ before | orphaned _ _ before
  | retry _ _ before => simp [before, RunState.Delivered, RunState.Decided]

theorem DbMove.lawful (h : s.db.Lawful s.dropped) (move : DbMove T r s db') :
    db'.Lawful s.dropped := by
  cases move with
  | events observations runs obsSeq runSeq attempts reached =>
    exact h.congr observations runs obsSeq runSeq reached
  | obs step move => exact move.lawful h step
  | run step move =>
    obtain ⟨hopen, hopen', hno, hno'⟩ := move.open
    exact h.runStep step hopen hopen' hno hno' fun hs => absurd hs move.undelivered
  | marked role step => exact h.marked step
  | admitted step state path size admits => exact h.obsAdded step state path admits.none
  | created step attempt creates =>
    exact h.runAdded step (by rw [creates.path, attempt]) creates.none attempt
  | released role step => exact h.releases step
  | reprocessed role step added before after stored owner attempt path =>
    exact h.reprocessed step added before after owner attempt path

theorem DbMove.grows (h : s.db.Lawful s.dropped) (move : DbMove T r s db') :
    s.db.Grows db' := by
  cases move with
  | events observations runs obsSeq runSeq attempts => exact .congr observations runs
  | obs step move => exact .obsStep step move.closing
  | run step move => exact .runStep h.ids step fun hr => absurd hr move.open.2.2.1
  | marked role step => exact .marked step
  | admitted step state path size admits => exact .obsAdded h.ids step
  | created step attempt creates => exact .runAdded h.ids step
  | released role step => exact step.grows
  | reprocessed role step added before after stored owner attempt path =>
    refine (Db.Grows.runStep h.ids step fun hr => ?_).trans (.runAdded (step.ids h.ids) added)
    rcases before with hs | hs <;> simp [hs, RunState.Releasing] at hr

theorem Db.Grows.isSome {db db' : Db} (h : db.Grows db') (oid : Nat)
    (hsome : (db.obs? oid).isSome) : (db'.obs? oid).isSome := by
  obtain ⟨o, ho⟩ := Option.isSome_iff_exists.mp hsome
  obtain ⟨o', ho', _⟩ := h.rows oid o ho
  simp [ho']

@[simp] theorem Step.dropped (h : Step T r s s') : s'.dropped = s.dropped := by
  cases h <;> first | rfl | simp

theorem Step.dbGrows (hinv : Inv T s) (h : Step T r s s') : s.db.Grows s'.db := by
  cases h with
  | db move => exact move.grows hinv.db
  | remove | prune =>
    simp only [Shared.notePurge_db]
    exact .refl _
  | _ => exact .refl _

theorem Step.lawful (hinv : Inv T s) (h : Step T r s s') : s'.db.Lawful s'.dropped := by
  rw [h.dropped]
  cases h with
  | db move => exact move.lawful hinv.db
  | remove | prune =>
    simp only [Shared.notePurge_db]
    exact hinv.db
  | _ => exact hinv.db

theorem Step.tasksOk (hinv : Inv T s) (h : Step T r s s') : TasksOk s' := by
  have hrows := (h.dbGrows hinv).isSome
  cases h with
  | track role up dead row =>
    refine hinv.tasks.track up fun hkind => ?_
    obtain ⟨o, ho, _⟩ := row hkind
    simp [ho]
  | finish may => exact hinv.tasks.finish _
  | remove | prune => exact hinv.tasks.rowsKept (by simp) (by simp) hrows
  | _ => exact hinv.tasks.rowsKept rfl rfl hrows

/-- A row that is observed stays so, unless its holder moves it on after its
runner has ended. -/
theorem ObsMove.observing {o o' : Observation} (step : Db.ObsStep s.db db' o o')
    (move : ObsMove T r s o o') {oid : Nat} (hheld : ¬ (NoWriter oid s ∧ Holder r oid s))
    (h : s.db.InState oid .observing) : db'.InState oid .observing := by
  obtain ⟨x, hx, hstate⟩ := h
  by_cases heq : oid = o'.id
  · subst heq
    have hxo : x = o := Option.some.inj (hx.symm.trans step.found)
    subst hxo
    refine ⟨o', step.obs?_self, ?_⟩
    cases move with
    | note role state size reserved => rw [state, hstate]
    | fail holder writer => exact absurd ⟨step.id ▸ writer, step.id ▸ holder⟩ hheld
    | complete task role owns writer =>
      exact absurd ⟨step.id ▸ writer, step.id ▸ .inl ⟨task, role, owns⟩⟩ hheld
    | claim _ _ _ before | abandon _ _ _ before | repair _ before | miss _ before =>
      simp [before] at hstate
    | delete _ before => rcases before with hs | hs <;> simp [hs] at hstate
  · exact ⟨x, by rw [step.obs?_ne heq]; exact hx, hstate⟩

theorem DbMove.observing (h : s.db.Lawful s.dropped) (move : DbMove T r s db') {oid : Nat}
    (hheld : ¬ (NoWriter oid s ∧ Holder r oid s)) (hobs : s.db.InState oid .observing) :
    db'.InState oid .observing := by
  obtain ⟨x, hx, hstate⟩ := hobs
  cases move with
  | events observations => exact ⟨x, by rw [Db.obs?_congr observations]; exact hx, hstate⟩
  | obs step move => exact move.observing step hheld ⟨x, hx, hstate⟩
  | run step => exact ⟨x, by rw [step.obs?]; exact hx, hstate⟩
  | marked role step => exact ⟨x, by rw [step.obs?]; exact hx, hstate⟩
  | created step => exact ⟨x, by rw [step.obs?]; exact hx, hstate⟩
  | admitted step =>
    refine ⟨x, ?_, hstate⟩
    rw [step.obs? h.ids, if_neg]
    · exact hx
    · rintro rfl
      exact step.fresh h.ids x (Db.mem_of_obs? hx).1 (Db.mem_of_obs? hx).2
  | released role step =>
    rcases (Db.Quiet.releases step).steady oid x hx with hx' | ⟨hs, _⟩
    · exact ⟨x, hx', hstate⟩
    · simp [hstate, ObservationState.Closing] at hs
  | reprocessed role step added => exact ⟨x, by rw [added.obs?, step.obs?]; exact hx, hstate⟩

theorem DbMove.notPlanned (h : s.db.Lawful s.dropped) (move : DbMove T r s db') {oid : Nat}
    {o : Observation} (ho : s.db.obs? oid = some o) (hstate : o.state ≠ .planned) :
    ∃ o', db'.obs? oid = some o' ∧ o'.state ≠ .planned := by
  cases move with
  | events observations => exact ⟨o, by rw [Db.obs?_congr observations]; exact ho, hstate⟩
  | obs step move =>
    rename_i p p'
    by_cases heq : oid = p'.id
    · subst heq
      have hop : o = p := Option.some.inj (ho.symm.trans step.found)
      subst hop
      refine ⟨p', step.obs?_self, ?_⟩
      cases move with
      | note role state => rw [state]; exact hstate
      | claim _ _ _ _ after | abandon _ _ _ _ after | fail _ _ _ after | complete _ _ _ _ _ after
      | repair _ _ after | miss _ _ after | delete _ _ after => simp [after]
    · exact ⟨o, by rw [step.obs?_ne heq]; exact ho, hstate⟩
  | run step => exact ⟨o, by rw [step.obs?]; exact ho, hstate⟩
  | marked role step => exact ⟨o, by rw [step.obs?]; exact ho, hstate⟩
  | created step => exact ⟨o, by rw [step.obs?]; exact ho, hstate⟩
  | admitted step =>
    refine ⟨o, ?_, hstate⟩
    rw [step.obs? h.ids, if_neg]
    · exact ho
    · rintro rfl
      exact step.fresh h.ids o (Db.mem_of_obs? ho).1 (Db.mem_of_obs? ho).2
  | released role step =>
    rcases (Db.Quiet.releases step).steady oid o ho with ho' | ⟨_, o', ho', hs, _⟩
    · exact ⟨o, ho', hstate⟩
    · exact ⟨o', ho', by rcases hs with hs | hs <;> simp [hs]⟩
  | reprocessed role step added => exact ⟨o, by rw [added.obs?, step.obs?]; exact ho, hstate⟩

theorem not_noWriter {w : Runner} (hw : w ∈ s.runners) (hrun : w.running = true) :
    ¬ NoWriter w.oid s := fun hno => by simp [hno w hw rfl] at hrun

theorem Finishes.live {task : Nat} (hinv : Inv T s) (may : Finishes r s task) {w : Runner}
    (hw : w ∈ s.runners) (hpend : w.state = .pending) :
    (s.ctl.finish task).live .observe w.oid = true := by
  obtain ⟨t, ht, hdone⟩ := Ctl.live_iff.mp (hinv.runners.live w hw hpend)
  refine Ctl.live_iff.mpr ⟨t, may.latest_ne hinv.tasks ht ?_ ?_, hdone⟩
  · rintro oid hrole ⟨_, rfl⟩
    cases may with
    | observe oid role owns writer =>
      rw [hrole] at role
      cases role
      exact not_noWriter hw (by simp [Runner.running, hpend]) writer
    | process rid role owns =>
      rw [hrole] at role
      cases role
  · rintro rid hrole ⟨hk, _⟩
    cases hk

theorem Step.runnersOk (hinv : Inv T s) (h : Step T r s s') : RunnersOk s' := by
  have hsame : ∀ {t : Shared}, t.runners = s.runners → t.db = s.db →
      (∀ w ∈ s.runners, w.state = .pending → t.ctl.live .observe w.oid = true) →
      RunnersOk t := by
    intro t hrun hdb hlive
    refine hinv.runners.later (hrun ▸ RunnersLater.refl _) ?_ ?_ ?_
    · exact fun oid o ho hs => ⟨o, hdb ▸ ho, hs⟩
    · exact fun _ _ _ hobs => hdb ▸ hobs
    · intro w hw hpend _
      rw [hrun] at hw
      exact hlive w hw hpend
  cases h with
  | stay => exact hinv.runners
  | db move =>
    refine hinv.runners.later (RunnersLater.refl _) ?_ ?_ fun _ _ _ hlive => hlive
    · exact fun oid o ho hs => move.notPlanned hinv.db ho hs
    · exact fun w hw hrun hobs => move.observing hinv.db (fun h => not_noWriter hw hrun h.1) hobs
  | track role up dead row =>
    exact hsame rfl rfl fun w hw hpend => Ctl.live_track (hinv.runners.live w hw hpend)
  | finish may => exact hsame rfl rfl fun w hw hpend => may.live hinv hw hpend
  | start may =>
    rename_i oid msPath
    obtain ⟨⟨task, rfl, howns⟩, rfl, hobs, hfirst⟩ := may
    have hcases : ∀ w ∈ s.runners ++ [(⟨oid, msPathOf oid, .pending, false⟩ : Runner)],
        w ∈ s.runners ∨ w = ⟨oid, msPathOf oid, .pending, false⟩ := fun w hw => by
      simpa using hw
    refine ⟨?_, ?_, ?_, ?_, ?_⟩
    · intro w hw
      rcases hcases w hw with hw | rfl
      · exact hinv.runners.msPath w hw
      · rfl
    · intro w hw
      rcases hcases w hw with hw | rfl
      · exact hinv.runners.rows w hw
      · obtain ⟨o, ho, hstate⟩ := hobs
        exact ⟨o, ho, by simp [hstate]⟩
    · rw [List.map_append]
      refine List.Nodup.append hinv.runners.nodup (List.nodup_singleton _) ?_
      intro i hi hi'
      obtain ⟨w, hw, rfl⟩ := List.mem_map.mp hi
      exact hfirst w hw (by simpa using hi')
    · intro w hw hrun
      rcases hcases w hw with hw | rfl
      · exact hinv.runners.observing w hw hrun
      · exact hobs
    · intro w hw hpend
      rcases hcases w hw with hw | rfl
      · exact hinv.runners.live w hw hpend
      · exact howns.live
  | cancel role owns found own =>
    refine hinv.runners.later (RunnersLater.setState _ (by simp) (by simp) _) ?_ ?_ ?_
    · exact fun oid o ho hs => ⟨o, ho, hs⟩
    · exact fun _ _ _ hobs => hobs
    · exact fun _ _ _ hlive => hlive
  | slain role idle fewer =>
    refine hinv.runners.later (RunnersLater.slain _) ?_ ?_ ?_
    · exact fun oid o ho hs => ⟨o, ho, hs⟩
    · exact fun _ _ _ hobs => hobs
    · exact fun _ _ _ hlive => hlive
  | remove | prune =>
    exact hsame (by simp) (by simp) fun w hw hpend => by simpa using hinv.runners.live w hw hpend
  | _ => exact hsame rfl rfl hinv.runners.live

/-- A cached size stays valid when the quarantine is touched or does not grow. -/
theorem CacheOk.kept {d d' : Disk} {e : AuxCache} (h : CacheOk d e)
    (hsize : d.mtime quarantineRoot < d'.mtime quarantineRoot ∨
      (d'.mtime quarantineRoot = d.mtime quarantineRoot ∧
        d'.bytesAt quarantineRoot ≤ d.bytesAt quarantineRoot)) : CacheOk d' e := by
  unfold CacheOk at *
  rcases hsize with hlt | ⟨heq, hle⟩
  · constructor
    · omega
    · intro hsig
      omega
  · rw [heq]
    exact ⟨h.1, fun hsig => Nat.le_trans hle (h.2 hsig)⟩

theorem Step.cacheOk (hinv : Inv T s) (h : Step T r s s') :
    ∀ e, s'.ctl.cache = some e → CacheOk s'.disk e := by
  have hsize := h.quarantineSize hinv.disk
  cases h with
  | cache role ok => exact ok
  | track | finish | slots => exact hinv.cache
  | remove | prune =>
    intro e he
    simp only [Shared.notePurge_ctl] at he
    exact (hinv.cache e he).kept hsize
  | _ => exact fun e he => (hinv.cache e he).kept hsize

theorem ObsMove.weighs (hinv : Inv T s) (hcalm : T.Calm) {o o' : Observation}
    (step : Db.ObsStep s.db db' o o') (move : ObsMove T r s o o') : s.disk.Weighs T o' := by
  have hbefore := hinv.weighs hcalm o'.id o step.found
  unfold Disk.Weighs at hbefore ⊢
  rw [step.id] at hbefore
  cases move with
  | note role state size reserved => rwa [state, size]
  | claim task role owns before after size reserved =>
    simp only [before] at hbefore
    simpa only [after] using hbefore.2
  | abandon task role owns before after size reserved =>
    simp only [before] at hbefore
    simpa only [after] using ⟨fun _ => hbefore.1, hbefore.2⟩
  | fail holder writer before after size reserved gone =>
    simp only [before] at hbefore
    simpa only [after] using ⟨fun hT => step.id ▸ gone hT, hbefore⟩
  | complete task role owns writer before after reserved bounded weighed =>
    simp only [before] at hbefore
    simpa only [after] using ⟨step.id ▸ weighed hcalm, hbefore⟩
  | repair role before after size reserved released =>
    simp only [before] at hbefore
    simp only [after, hbefore.1, Disk.bytesAt_of_absent hbefore.2, size]
    exact Nat.le_refl _
  | miss role before after size reserved gone =>
    simp only [before] at hbefore
    simpa only [after] using ⟨step.id ▸ gone hcalm, hbefore.2⟩
  | delete role before after size reserved warrant gone =>
    simpa only [after] using step.id ▸ gone hcalm

theorem DbMove.weighs (hinv : Inv T s) (hcalm : T.Calm) (move : DbMove T r s db') {oid : Nat}
    {x : Observation} (hx : db'.obs? oid = some x) : s.disk.Weighs T x := by
  have hold : ∀ i y, s.db.obs? i = some y → s.disk.Weighs T y := hinv.weighs hcalm
  cases move with
  | events observations => exact hold oid x (by rwa [Db.obs?_congr observations] at hx)
  | obs step move =>
    rw [step.obs?] at hx
    split at hx
    · rw [← Option.some.inj hx]
      exact move.weighs hinv hcalm step
    · exact hold oid x hx
  | run step => exact hold oid x (by rwa [step.obs?] at hx)
  | marked role step => exact hold oid x (by rwa [step.obs?] at hx)
  | created step => exact hold oid x (by rwa [step.obs?] at hx)
  | admitted step state path size admits =>
    rename_i o
    rw [step.obs? hinv.db.ids] at hx
    split at hx
    · rw [← Option.some.inj hx]
      have hnone : s.db.obs? o.id = none :=
        Keyed.find_eq_none_iff.mpr (step.fresh hinv.db.ids)
      unfold Disk.Weighs
      simpa only [state] using hinv.disk.absent_of_fresh hnone
    · exact hold oid x hx
  | released role step =>
    obtain ⟨mid, hrun, hobs⟩ := step.steps
    rw [hobs.obs?] at hx
    split at hx
    · rename_i o heq
      rw [← Option.some.inj hx]
      have hfound := hobs.found
      rw [hrun.obs?] at hfound
      have hbefore := hold _ o hfound
      unfold Disk.Weighs at hbefore ⊢
      simp only [step.stored] at hbefore
      simp only [hbefore.1, Disk.bytesAt_of_absent hbefore.2]
      exact Nat.le_refl _
    · exact hold oid x (by rwa [hrun.obs?] at hx)
  | reprocessed role step added => exact hold oid x (by rwa [added.obs?, step.obs?] at hx)

theorem Step.weighs (hinv : Inv T s) (h : Step T r s s') (hcalm : T.Calm) :
    ∀ oid o, s'.db.obs? oid = some o → s'.disk.Weighs T o := by
  intro oid o ho
  have hdisk : s'.db = s.db → s'.disk.Weighs T o := by
    intro hdb
    rw [hdb] at ho
    have hid := (Db.mem_of_obs? ho).2
    have hbefore := hinv.weighs hcalm oid o ho
    rcases h.sees hinv.disk ho with ⟨hms, htrash⟩ | ⟨hclosing, hless⟩ |
      ⟨hobs, _, _, _, htrash⟩
    · exact Disk.weighs_congr (hid ▸ hms) (hid ▸ htrash) hbefore
    · exact Disk.Less.weighs (hid ▸ hless) hclosing hbefore
    · unfold Disk.Weighs Disk.absent at hbefore ⊢
      simp only [hobs] at hbefore ⊢
      rw [hid] at hbefore ⊢
      rwa [htrash]
  cases h with
  | db move => exact move.weighs hinv hcalm ho
  | remove | prune => exact hdisk (by simp)
  | _ => exact hdisk rfl

theorem Step.trashClear (hinv : Inv T s) (h : Step T r s s') {oid : Nat} {o : Observation}
    (ho : s'.db.obs? oid = some o) (hopen : ¬ o.state.Closing) :
    s'.disk.absent (trashPath oid) := by
  have hdisk : s'.db = s.db → s'.disk.absent (trashPath oid) := by
    intro hdb
    rw [hdb] at ho
    have hbefore := hinv.trash oid o ho hopen
    unfold Disk.absent at hbefore ⊢
    rcases h.sees hinv.disk ho with ⟨_, htrash⟩ | ⟨hclosing, _⟩ | ⟨_, _, _, _, htrash⟩
    · rwa [htrash]
    · exact absurd hclosing hopen
    · rwa [htrash]
  cases h with
  | db move =>
    cases hold : s.db.obs? oid with
    | none => exact (hinv.disk.absent_of_fresh hold).2
    | some x =>
      obtain ⟨y, hy, hclosing⟩ := (move.grows hinv.db).rows oid x hold
      cases ho.symm.trans hy
      exact hinv.trash oid x hold fun hx => hopen (hclosing hx)
  | remove | prune => exact hdisk (by simp)
  | _ => exact hdisk rfl

theorem Step.inv (hinv : Inv T s) (h : Step T r s s') : Inv T s' where
  db := h.lawful hinv
  disk := h.diskOk hinv.disk (h.dbGrows hinv).isSome
  tasks := h.tasksOk hinv
  runners := h.runnersOk hinv
  cache := h.cacheOk hinv
  trash _ _ := h.trashClear hinv
  weighs := h.weighs hinv

end Sdpctl
