import Sdpctl.Discipline.Exec

/-!
The memory of the controller: the tracked tasks and the calls of the runner.
-/

namespace Sdpctl

open FileTree Coop

namespace Ctl

variable {ctl : Ctl} {kind kind' : TaskKind} {key key' : Nat} {t : Task}

theorem mem_of_latest (h : ctl.latest kind key = some t) :
    t ∈ ctl.tasks ∧ t.kind = kind ∧ t.key = key := by
  refine ⟨List.mem_of_find?_eq_some h, ?_⟩
  simpa using List.find?_some h

theorem live_iff :
    ctl.live kind key = true ↔ ∃ t, ctl.latest kind key = some t ∧ t.done = false := by
  unfold live
  cases ctl.latest kind key <;> simp

@[simp] theorem latest_track_self (ctl : Ctl) (kind : TaskKind) (key : Nat) :
    (ctl.track kind key).latest kind key
      = some { id := ctl.tasks.length, kind, key, done := false } := by
  simp [track, latest]

theorem latest_track_ne (ctl : Ctl) (h : ¬ (kind' = kind ∧ key' = key)) :
    (ctl.track kind key).latest kind' key' = ctl.latest kind' key' := by
  have hbool : (decide (kind = kind') && decide (key = key')) = false := by
    simp only [Bool.and_eq_false_iff, decide_eq_false_iff_not]
    by_cases hk : kind = kind'
    · exact .inr fun hkey => h ⟨hk.symm, hkey.symm⟩
    · exact .inl hk
  simp [track, latest, hbool]

theorem live_track_self (ctl : Ctl) (kind : TaskKind) (key : Nat) :
    (ctl.track kind key).live kind key = true := by
  simp [live]

theorem live_track (h : ctl.live kind' key' = true) :
    (ctl.track kind key).live kind' key' = true := by
  by_cases heq : kind' = kind ∧ key' = key
  · obtain ⟨rfl, rfl⟩ := heq
    exact live_track_self ctl kind' key'
  · rwa [live, latest_track_ne ctl heq]

theorem latest_finish (ctl : Ctl) (task : Nat) (kind : TaskKind) (key : Nat) :
    (ctl.finish task).latest kind key = (ctl.latest kind key).map fun t =>
      if t.id = task then { t with done := true } else t := by
  unfold latest finish
  rw [List.find?_map]
  refine congrArg (Option.map _) (congrArg (fun p => List.find? p ctl.tasks) ?_)
  funext t
  simp only [Function.comp_apply]
  split <;> rfl

theorem latest_finish_ne {task : Nat} (h : ctl.latest kind key = some t) (hne : t.id ≠ task) :
    (ctl.finish task).latest kind key = some t := by
  rw [latest_finish, h]
  simp [hne]

end Ctl

namespace TasksOk

variable {s : Shared}

theorem unique (h : TasksOk s) {kind kind' : TaskKind} {key key' : Nat} {t t' : Task}
    (ht : s.ctl.latest kind key = some t) (ht' : s.ctl.latest kind' key' = some t')
    (hid : t.id = t'.id) : t = t' :=
  List.inj_on_of_nodup_map h.nodup (Ctl.mem_of_latest ht).1 (Ctl.mem_of_latest ht').1 hid

theorem track (h : TasksOk s) {kind : TaskKind} {key : Nat} (hup : s.ctl.up = true)
    (hrow : kind = .observe → (s.db.obs? key).isSome) :
    TasksOk { s with ctl := s.ctl.track kind key } where
  nodup := by
    simp only [Ctl.track, List.map_cons, List.nodup_cons]
    refine ⟨fun hmem => ?_, h.nodup⟩
    obtain ⟨t, ht, hid⟩ := List.mem_map.mp hmem
    have hlt := h.bound t ht
    omega
  bound := by
    intro t ht
    simp only [Ctl.track, List.length_cons] at ht ⊢
    rcases List.mem_cons.mp ht with rfl | ht
    · exact Nat.lt_succ_self _
    · exact Nat.lt_succ_of_lt (h.bound t ht)
  rows := by
    intro t ht hk
    simp only [Ctl.track] at ht
    rcases List.mem_cons.mp ht with rfl | ht
    · exact hrow hk
    · exact h.rows t ht hk
  down := by
    intro hdown
    simp only [Ctl.track] at hdown
    simp [hup] at hdown

theorem finish (h : TasksOk s) (task : Nat) :
    TasksOk { s with ctl := s.ctl.finish task } where
  nodup := by
    have hids : (s.ctl.finish task).tasks.map Task.id = s.ctl.tasks.map Task.id := by
      unfold Ctl.finish
      rw [List.map_map]
      refine List.map_congr_left fun t _ => ?_
      simp only [Function.comp_apply]
      split <;> rfl
    simp only [hids]
    exact h.nodup
  bound := by
    intro t ht
    simp only [Ctl.finish, List.length_map, List.mem_map] at ht ⊢
    obtain ⟨u, hu, rfl⟩ := ht
    have hlt := h.bound u hu
    split <;> exact hlt
  rows := by
    intro t ht hk
    simp only [Ctl.finish, List.mem_map] at ht
    obtain ⟨u, hu, rfl⟩ := ht
    have hrow := h.rows u hu
    split at hk <;> split <;> simp_all
  down := by
    intro hdown
    simp only [Ctl.finish]
    rw [h.down hdown]
    rfl

/-- The tasks do not depend on the tables but for the rows they are about. -/
theorem rowsKept (h : TasksOk s) {s' : Shared} (hctl : s'.ctl.tasks = s.ctl.tasks)
    (hup : s'.ctl.up = s.ctl.up)
    (hrows : ∀ oid, (s.db.obs? oid).isSome → (s'.db.obs? oid).isSome) : TasksOk s' where
  nodup := by rw [hctl]; exact h.nodup
  bound := by rw [hctl]; exact h.bound
  rows := by
    intro t ht hk
    rw [hctl] at ht
    exact hrows _ (h.rows t ht hk)
  down := by rw [hctl, hup]; exact h.down

end TasksOk

theorem Owns.live {task oid : Nat} {s : Shared} (h : Owns task oid s) :
    s.ctl.live .observe oid = true := Ctl.live_iff.mpr ⟨_, h, rfl⟩

theorem Owns.up {task oid : Nat} {s : Shared} (h : Owns task oid s) (hok : TasksOk s) :
    s.ctl.up = true := by
  cases hup : s.ctl.up with
  | true => rfl
  | false =>
    have hmem := (Ctl.mem_of_latest h).1
    rw [hok.down hup] at hmem
    cases hmem

theorem OwnsRun.live {task rid : Nat} {s : Shared} (h : OwnsRun task rid s) :
    s.ctl.live .process rid = true := Ctl.live_iff.mpr ⟨_, h, rfl⟩

theorem Finishes.latest_ne {s : Shared} {r : Role} {task : Nat} (hok : TasksOk s)
    (h : Finishes r s task) {kind : TaskKind} {key : Nat} {t : Task}
    (ht : s.ctl.latest kind key = some t)
    (hobs : ∀ oid, r = .observe task oid → ¬ (kind = .observe ∧ key = oid))
    (hrun : ∀ rid, r = .process task rid → ¬ (kind = .process ∧ key = rid)) :
    (s.ctl.finish task).latest kind key = some t := by
  refine Ctl.latest_finish_ne ht fun hid => ?_
  obtain ⟨_, hkind, hkey⟩ := Ctl.mem_of_latest ht
  cases h with
  | observe oid role owns writer =>
    have heq := hok.unique ht owns hid
    subst heq
    exact hobs oid role ⟨hkind.symm, hkey.symm⟩
  | process rid role owns =>
    have heq := hok.unique ht owns hid
    subst heq
    exact hrun rid role ⟨hkind.symm, hkey.symm⟩

theorem Runner.running_iff {w : Runner} :
    w.running = true ↔ w.state = .pending ∨ w.state = .orphan := by
  simp [Runner.running]

/-- The runners move on: none starts, and none comes back to work. -/
structure RunnersLater (rs rs' : List Runner) : Prop where
  length : rs'.length = rs.length
  each : ∀ (h : Nat) w', rs'[h]? = some w' → ∃ w, rs[h]? = some w ∧ w'.oid = w.oid ∧
    w'.msPath = w.msPath ∧ (w'.running = true → w.running = true) ∧
    (w'.state = .pending → w.state = .pending)

namespace RunnersLater

variable {rs rs' rs'' : List Runner}

theorem refl (rs : List Runner) : RunnersLater rs rs :=
  ⟨rfl, fun _ w hw => ⟨w, hw, rfl, rfl, id, id⟩⟩

theorem trans (h : RunnersLater rs rs') (h' : RunnersLater rs' rs'') : RunnersLater rs rs'' where
  length := h'.length.trans h.length
  each i w'' hw'' := by
    obtain ⟨w', hw', hoid', hpath', hrun', hpend'⟩ := h'.each i w'' hw''
    obtain ⟨w, hw, hoid, hpath, hrun, hpend⟩ := h.each i w' hw'
    exact ⟨w, hw, hoid'.trans hoid, hpath'.trans hpath, hrun ∘ hrun', hpend ∘ hpend'⟩

theorem map {f : Runner → Runner} (hoid : ∀ w, (f w).oid = w.oid)
    (hpath : ∀ w, (f w).msPath = w.msPath) (hrun : ∀ w, (f w).running = true → w.running = true)
    (hpend : ∀ w, (f w).state = .pending → w.state = .pending) (rs : List Runner) :
    RunnersLater rs (rs.map f) where
  length := by simp
  each i w' hw' := by
    rw [List.getElem?_map, Option.map_eq_some_iff] at hw'
    obtain ⟨w, hw, rfl⟩ := hw'
    exact ⟨w, hw, hoid w, hpath w, hrun w, hpend w⟩

theorem modify {f : Runner → Runner} (hoid : ∀ w, (f w).oid = w.oid)
    (hpath : ∀ w, (f w).msPath = w.msPath) (hrun : ∀ w, (f w).running = true → w.running = true)
    (hpend : ∀ w, (f w).state = .pending → w.state = .pending) (h : Nat) (rs : List Runner) :
    RunnersLater rs (rs.modify h f) where
  length := by simp
  each i w' hw' := by
    rw [List.getElem?_modify, Option.map_eq_map, Option.map_eq_some_iff] at hw'
    obtain ⟨w, hw, rfl⟩ := hw'
    refine ⟨w, hw, ?_⟩
    split
    · exact ⟨hoid w, hpath w, hrun w, hpend w⟩
    · exact ⟨rfl, rfl, id, id⟩

theorem setState (h : Nat) {state : RunnerState} (hpend : state ≠ .pending)
    (horphan : state ≠ .orphan) (rs : List Runner) :
    RunnersLater rs (rs.modify h fun w => { w with state }) := by
  apply modify
  · exact fun _ => rfl
  · exact fun _ => rfl
  · intro w hrun
    rcases Runner.running_iff.mp hrun with hs | hs
    · exact absurd hs hpend
    · exact absurd hs horphan
  · intro w hs
    exact absurd hs hpend

theorem slain (rs : List Runner) : RunnersLater rs (rs.map Runner.slain) := by
  refine map ?_ ?_ ?_ ?_ rs <;> intro w <;> unfold Runner.slain <;> split <;>
    simp_all [Runner.running]

theorem orphaned (rs : List Runner) : RunnersLater rs (rs.map Runner.orphaned) := by
  refine map ?_ ?_ ?_ ?_ rs <;> intro w <;> unfold Runner.orphaned <;> split <;>
    simp_all [Runner.running]

theorem mem (h : RunnersLater rs rs') {w' : Runner} (hw' : w' ∈ rs') : ∃ w ∈ rs,
    w'.oid = w.oid ∧ w'.msPath = w.msPath ∧ (w'.running = true → w.running = true) ∧
      (w'.state = .pending → w.state = .pending) := by
  obtain ⟨i, hi⟩ := List.mem_iff_getElem?.mp hw'
  obtain ⟨w, hw, hrest⟩ := h.each i w' hi
  exact ⟨w, List.mem_of_getElem? hw, hrest⟩

theorem get (h : RunnersLater rs rs') {i : Nat} {w : Runner} (hw : rs[i]? = some w) :
    ∃ w', rs'[i]? = some w' ∧ w'.oid = w.oid := by
  have hlt : i < rs'.length := by
    rw [h.length]
    exact (List.getElem?_eq_some_iff.mp hw).1
  obtain ⟨w₀, hw₀, hoid, _⟩ := h.each i rs'[i] (List.getElem?_eq_getElem hlt)
  rw [hw] at hw₀
  cases hw₀
  exact ⟨rs'[i], List.getElem?_eq_getElem hlt, hoid⟩

theorem oids (h : RunnersLater rs rs') : rs'.map Runner.oid = rs.map Runner.oid := by
  refine List.ext_getElem? fun i => ?_
  rw [List.getElem?_map, List.getElem?_map]
  cases hw : rs[i]? with
  | none =>
    have hlen : rs'.length ≤ i := by
      rw [h.length]
      exact List.getElem?_eq_none_iff.mp hw
    rw [List.getElem?_eq_none_iff.mpr hlen]
  | some w =>
    obtain ⟨w', hw', hoid⟩ := h.get hw
    rw [hw']
    simp [hoid]

theorem noWriter (h : RunnersLater rs rs') {oid : Nat}
    (hno : ∀ w ∈ rs, w.oid = oid → w.running = false) :
    ∀ w ∈ rs', w.oid = oid → w.running = false := by
  intro w' hw' hoid
  obtain ⟨w, hw, hwoid, _, hrun, _⟩ := h.mem hw'
  have hidle := hno w hw (hwoid.symm.trans hoid)
  cases hr : w'.running with
  | false => rfl
  | true => rw [hrun hr] at hidle; cases hidle

end RunnersLater

namespace RunnersOk

variable {s s' : Shared}

/-- Runners that move on keep their invariant, when nothing they rest on goes. -/
theorem later (h : RunnersOk s) (hlater : RunnersLater s.runners s'.runners)
    (hrows : ∀ oid o, s.db.obs? oid = some o → o.state ≠ .planned →
      ∃ o', s'.db.obs? oid = some o' ∧ o'.state ≠ .planned)
    (hobs : ∀ w ∈ s'.runners, w.running = true → s.db.InState w.oid .observing →
      s'.db.InState w.oid .observing)
    (hlive : ∀ w ∈ s'.runners, w.state = .pending → s.ctl.live .observe w.oid = true →
      s'.ctl.live .observe w.oid = true) : RunnersOk s' where
  msPath w' hw' := by
    obtain ⟨w, hw, hoid, hpath, _⟩ := hlater.mem hw'
    rw [hpath, hoid]
    exact h.msPath w hw
  rows w' hw' := by
    obtain ⟨w, hw, hoid, _⟩ := hlater.mem hw'
    obtain ⟨o, ho, hstate⟩ := h.rows w hw
    rw [hoid]
    exact hrows _ o ho hstate
  nodup := by rw [hlater.oids]; exact h.nodup
  observing w' hw' hrun := by
    obtain ⟨w, hw, hoid, _, hrun', _⟩ := hlater.mem hw'
    have hbefore := h.observing w hw (hrun' hrun)
    rw [← hoid] at hbefore
    exact hobs w' hw' hrun hbefore
  live w' hw' hpend := by
    obtain ⟨w, hw, hoid, _, _, hpend'⟩ := hlater.mem hw'
    have hbefore := h.live w hw (hpend' hpend)
    rw [← hoid] at hbefore
    exact hlive w' hw' hpend hbefore

theorem noWriter (h : RunnersOk s) {oid : Nat} {o : Observation} (ho : s.db.obs? oid = some o)
    (hstate : o.state ≠ .observing) : NoWriter oid s := by
  intro w hw hoid
  cases hrun : w.running with
  | false => rfl
  | true =>
    obtain ⟨x, hx, hobs⟩ := h.observing w hw hrun
    rw [hoid, ho] at hx
    cases hx
    exact absurd hobs hstate

theorem none_of_planned (h : RunnersOk s) {oid : Nat} (hplanned : s.db.InState oid .planned) :
    ∀ w ∈ s.runners, w.oid ≠ oid := by
  rintro w hw rfl
  obtain ⟨o, ho, hstate⟩ := h.rows w hw
  obtain ⟨x, hx, hx'⟩ := hplanned
  rw [ho] at hx
  cases hx
  exact hstate hx'

end RunnersOk
end Sdpctl
