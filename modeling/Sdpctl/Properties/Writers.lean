import Sdpctl.Programs.Sound

/-!
The writer of an observation. As long as a coroutine is cancelled, or ends, only
after its container is gone, an observation worker gives up an observation only
without a live writer, and at most one observation container is live. The stop
of a runner does not see to that: it cancels what it could not stop.
-/

namespace Sdpctl

open FileTree Coop

variable {T : Terms} {r : Role} {s s' : Shared}

/-- The coroutine that awaits a container outlives it: it is cancelled, returns
and raises only when the container is gone, no container starts without it, and
the global stop returns only when no container is left. -/
def supervised : Limits where
  terms := .any
  run o c s := (∀ h, o = .cancelRunner h → h ∉ s.containers) ∧
    (o = .killManaged → c = .blind → s.containers = [])
  env e s := ∀ h, (e = .launch h → ∃ w, s.runners[h]? = some w ∧ w.running = true) ∧
    (∀ rc, e = .runnerReturn h rc → h ∉ s.containers) ∧ (e = .runnerRaise h → h ∉ s.containers)

/-- Every live container is there once and has a runner that has been launched and is at work,
so that the coroutine which awaits it can still tell. -/
structure Supervised (s : Shared) : Prop where
  nodup : s.containers.Nodup
  live : ∀ h ∈ s.containers, ∃ w, s.runners[h]? = some w ∧ w.running = true ∧ w.launched = true

namespace Supervised

theorem fewer (h : Supervised s) (hsub : s'.containers.Sublist s.containers)
    (hkeep : ∀ i ∈ s'.containers, ∀ w, s.runners[i]? = some w → w.running = true →
      w.launched = true → ∃ w', s'.runners[i]? = some w' ∧ w'.running = true ∧
        w'.launched = true) : Supervised s' where
  nodup := h.nodup.sublist hsub
  live i hi := by
    obtain ⟨w, hw, hrun, hlaunched⟩ := h.live i (hsub.subset hi)
    exact hkeep i hi w hw hrun hlaunched

theorem same (h : Supervised s) (hcontainers : s'.containers = s.containers)
    (hrunners : s'.runners = s.runners) : Supervised s' :=
  h.fewer (hcontainers ▸ List.Sublist.refl _) fun _ _ w hw hrun hlaunched =>
    ⟨w, hrunners ▸ hw, hrun, hlaunched⟩

theorem setRunner (h : Supervised s) {i : Nat} (hi : i ∉ s.containers) (state : RunnerState) :
    Supervised (s.setRunner i state) := by
  refine h.fewer (List.Sublist.refl _) fun j hj w hw hrun hlaunched => ⟨w, ?_, hrun, hlaunched⟩
  have hne : i ≠ j := fun heq => hi (heq ▸ hj)
  simp [Shared.setRunner, hne, hw]

end Supervised

theorem supervised_keeps : supervised.Keeps Supervised where
  start := ⟨List.nodup_nil, by simp [initial]⟩
  op {r o c x s s'} hinv h _ _ _ hlimit hexec := by
    by_cases hcancel : ∃ i, o = .cancelRunner i
    · obtain ⟨i, rfl⟩ := hcancel
      rcases exec_cancelRunner hexec with rfl | rfl
      · exact h
      · exact h.setRunner (hlimit.1 i rfl) _
    · by_cases hkill : o = .killManaged
      · subst hkill
        have hempty : ∀ {t : Shared}, t.containers = [] → Supervised t := fun hnone =>
          ⟨by simp [hnone], by simp [hnone]⟩
        simp only [exec] at hexec
        split at hexec <;> cases hexec
        · exact hempty rfl
        · exact hempty (hlimit.2 rfl rfl)
        · exact h
      · have hends : o.ends = false := by
          cases o <;> simp_all [Op.ends]
        obtain ⟨hsub, new, hnew⟩ := (exec_framed hexec).runners hends
        refine h.fewer hsub fun i _ w hw hrun hlaunched => ⟨w, ?_, hrun, hlaunched⟩
        rw [hnew, List.getElem?_append_left (List.getElem?_eq_some_iff.mp hw).1]
        exact hw
  env {e s s'} _ h _ hlimit henv := by
    cases env_cases henv with
    | @launch i v found may =>
      obtain ⟨w, hw, hrun⟩ := (hlimit i).1 rfl
      have hfresh : i ∉ s.containers := fun hi => by
        obtain ⟨u, hu, _, hlaunched⟩ := h.live i hi
        rw [found] at hu
        cases hu
        simp only [Runner.mayLaunch, hlaunched] at may
        split at may <;> cases may
      refine ⟨List.nodup_cons.mpr ⟨hfresh, h.nodup⟩, fun j hj => ?_⟩
      rcases List.mem_cons.mp hj with rfl | hj
      · exact ⟨{ w with launched := true }, by simp [hw], hrun, rfl⟩
      · obtain ⟨u, hu, hurun, hlaunched⟩ := h.live j hj
        have hne : i ≠ j := fun heq => hfresh (heq ▸ hj)
        exact ⟨u, by simp [hne, hu], hurun, hlaunched⟩
    | containerExit =>
      exact h.fewer List.filter_sublist fun _ _ w hw hrun hlaunched => ⟨w, hw, hrun, hlaunched⟩
    | @returned i rc => exact h.setRunner ((hlimit i).2.1 rc rfl) _
    | @raised i => exact h.setRunner ((hlimit i).2.2 rfl) _
    | write | product | loss => exact h.same rfl rfl
  enter {r n s s'} _ h _ henter := by
    obtain ⟨-, -, hrunners, hcontainers⟩ := enter_same henter
    exact h.same hcontainers hrunners
  down {s} _ h := by
    refine h.fewer (List.Sublist.refl _) fun i _ w hw hrun hlaunched =>
      ⟨w.orphaned, by simp [down, hw], ?_, ?_⟩
    · unfold Runner.orphaned
      split
      · rfl
      · exact hrun
    · unfold Runner.orphaned
      split <;> exact hlaunched

/-- The runner of a live container holds its observation in `OBSERVING`. -/
theorem Supervised.owner (h : Supervised s) (hinv : Inv T s) {i : Nat} (hi : i ∈ s.containers) :
    ∃ w o, s.runners[i]? = some w ∧ w.running = true ∧ s.db.obs? w.oid = some o ∧
      o.state = .observing := by
  obtain ⟨w, hw, hrun, _⟩ := h.live i hi
  obtain ⟨o, ho, hobs⟩ := hinv.runners.observing w (List.mem_of_getElem? hw) hrun
  exact ⟨w, o, hw, hrun, ho, hobs⟩

theorem Supervised.unique (h : Supervised s) (hinv : Inv T s) {i j : Nat}
    (hi : i ∈ s.containers) (hj : j ∈ s.containers) : i = j := by
  obtain ⟨v, o, hv, _, ho, hobs⟩ := h.owner hinv hi
  obtain ⟨w, p, hw, _, hp, hobs'⟩ := h.owner hinv hj
  have hoid := hinv.db.single v.oid w.oid o p ho hp (.inr hobs) (.inr hobs')
  have hlt : i < (s.runners.map Runner.oid).length := by
    simpa using (List.getElem?_eq_some_iff.mp hv).1
  refine (List.getElem?_inj hlt hinv.runners.nodup).mp ?_
  simp [hv, hw, hoid]

theorem Supervised.length_le (h : Supervised s) (hinv : Inv T s) : s.containers.length ≤ 1 := by
  cases hc : s.containers with
  | nil => simp
  | cons i rest =>
    cases rest with
    | nil => simp
    | cons j rest =>
      have hij := h.unique hinv (i := i) (j := j) (by simp [hc]) (by simp [hc])
      have hnodup := h.nodup
      simp [hc, hij] at hnodup

/-- What an observation worker moves into the quarantine has no live writer. -/
theorem Supervised.rename (h : Supervised s) (hinv : Inv T s) {task oid : Nat}
    {source target : Path}
    (hallowed : allowed T (.observe task oid) s (.rename source target)) {i : Nat}
    (hi : i ∈ s.containers) {w : Runner} (hw : s.runners[i]? = some w) : w.msPath ≠ source := by
  rintro rfl
  obtain ⟨v, o, hv, hrun, ho, _⟩ := h.owner hinv hi
  rw [hw] at hv
  cases hv
  have hmem := List.mem_of_getElem? hw
  rcases hallowed with ⟨name, label, hsource, -, hmay⟩ | ⟨_, _, _, hgiven⟩
  · rw [hinv.runners.msPath w hmem] at hsource
    have hname : obsName w.oid = name := by simpa [msPathOf, observationsRoot] using hsource
    have hstopped := (hmay.source w.oid o ho hname).2.1 w hmem rfl
    rw [hrun] at hstopped
    cases hstopped
  · rcases hgiven.role with hr | hr <;> cases hr

theorem Supervised.failed (h : Supervised s) (hinv : Inv T s) {task oid i : Nat} {reason : String}
    {size reserved : Option Nat} {error : Option String}
    (hallowed : allowed T (.observe task oid) s (.db (.transitionObservation i .observing
      .observeFailed reason size reserved error))) {j : Nat} (hj : j ∈ s.containers) {w : Runner}
    (hw : s.runners[j]? = some w) : w.oid ≠ i := by
  rintro rfl
  obtain ⟨v, o, hv, hrun, ho, hobs⟩ := h.owner hinv hj
  rw [hw] at hv
  cases hv
  have hid := (Db.mem_of_obs? ho).2
  cases hallowed o ho hobs with
  | note _ state => simp [hobs] at state
  | fail holder writer =>
    have hstopped := writer w (List.mem_of_getElem? hw) hid.symm
    rw [hrun] at hstopped
    cases hstopped
  | claim _ _ _ before | abandon _ _ _ before => simp [hobs] at before
  | complete _ _ _ _ _ after => cases after
  | repair _ _ after | miss _ _ after | delete _ _ after => cases after

/-- While every coroutine outlives its container, an observation worker moves or
fails an observation only when its container is gone, and at most one container
is live, that of the observation in `OBSERVING`. -/
theorem writer_gone {w : World Op.Reply Exn Shared Role Entry} (h : supervised.Reach w) :
    (∀ (pid : Nat) p task oid, w.procs[pid]? = some p → p.role = .observe task oid →
      (∀ source target next, p.code = .op (.rename source target) next →
        ∀ i ∈ w.shared.containers, ∀ v, w.shared.runners[i]? = some v → v.msPath ≠ source) ∧
      ∀ j reason size reserved error next, p.code = .op (.db (.transitionObservation j .observing
        .observeFailed reason size reserved error)) next →
        ∀ i ∈ w.shared.containers, ∀ v, w.shared.runners[i]? = some v → v.oid ≠ j) ∧
    w.shared.containers.length ≤ 1 ∧
    ∀ i ∈ w.shared.containers, ∃ v o, w.shared.runners[i]? = some v ∧
      w.shared.db.obs? v.oid = some o ∧ o.state = .observing := by
  have hinv := h.inv
  have hsup := h.keeps supervised_keeps
  have hok : ∀ o, okRun supervised.terms o .ok w.shared := fun o =>
    ⟨by simp [supervised], by simp [supervised]⟩
  refine ⟨fun pid p task oid hp hrole => ⟨?_, ?_⟩, hsup.length_le hinv, fun i hi => ?_⟩
  · intro source target next hcode i hi v hv
    have hallowed := h.allowed hp hcode (hok _)
    rw [hrole] at hallowed
    exact hsup.rename hinv hallowed hi hv
  · intro j reason size reserved error next hcode i hi v hv
    have hallowed := h.allowed hp hcode (hok _)
    rw [hrole] at hallowed
    exact hsup.failed hinv hallowed hi hv
  · obtain ⟨v, o, hv, _, ho, hobs⟩ := hsup.owner hinv hi
    exact ⟨v, o, hv, ho, hobs⟩

/-- The part of the environment in these runs, as a test. -/
def awaited (s : Shared) : Env → Bool
  | .launch h => ((s.runners[h]?).map Runner.running).getD false
  | .runnerReturn h _ | .runnerRaise h => decide (h ∉ s.containers)
  | _ => true

theorem awaited_ok {e : Env} (h : awaited s e = true) : supervised.env e s := by
  intro i
  refine ⟨?_, ?_, ?_⟩
  · rintro rfl
    cases hw : s.runners[i]? with
    | none => simp [awaited, hw] at h
    | some w => exact ⟨w, rfl, by simpa [awaited, hw] using h⟩
  · rintro rc rfl
    exact of_decide_eq_true h
  · rintro rfl
    exact of_decide_eq_true h

/-- Nobody cancels, and everything that stops succeeds. -/
def unhurried (w : World Op.Reply Exn Shared Role Entry) : Label Role Entry Choice Env → Bool
  | .run pid c =>
      match about w pid, c with
      | some (.cancelRunner _), _ | _, .blind => false
      | _, _ => true
  | .env e => awaited w.shared e
  | _ => true

theorem unhurried_ok {w : World Op.Reply Exn Shared Role Entry}
    {l : Label Role Entry Choice Env} (h : unhurried w l = true) : supervised.ok w l := by
  cases l with
  | run pid c =>
    intro p o next hp hcode
    simp only [unhurried, about_eq hp hcode] at h
    refine ⟨⟨by simp [supervised], by simp [supervised]⟩, ?_, ?_⟩
    · rintro i rfl
      cases h
    · rintro rfl rfl
      cases h
  | env e => exact ⟨by simp [Terms.Calm, supervised], awaited_ok h⟩
  | enter | stop | crash => trivial

/-- The runner of the first observation has been launched: one container is live, and it is that
of the observation in `OBSERVING`. -/
theorem writer_gone_first : ∃ w, supervised.Reach w ∧ w.shared.containers = [0] ∧
    ∃ v o, w.shared.runners[0]? = some v ∧ w.shared.db.obs? v.oid = some o ∧
      o.state = .observing := by
  obtain ⟨w, hreach, htest⟩ := supervised.reach_of_replay unhurried (fun _ _ => unhurried_ok)
    firstObservation (fun w => decide (w.shared.containers = [0])) (by decide +kernel)
  have hlive := of_decide_eq_true htest
  exact ⟨w, hreach, hlive, (writer_gone hreach).2.2 0 (by simp [hlive])⟩

/-- A stop may raise and a wait may time out; nothing else goes wrong, and the
environment is as before. -/
def unstoppable : Limits where
  terms := .any
  run o c _ := c = .ok ∨ (∃ names, c = .order names) ∨
    (c = .fail ∧ ((∃ oid, o = .abortObservation oid) ∨ ∃ h, o = .waitRunner h))
  env := supervised.env

def unstoppably (w : World Op.Reply Exn Shared Role Entry) : Label Role Entry Choice Env → Bool
  | .run pid c =>
      match c, about w pid with
      | .ok, _ | .order _, _ | .fail, some (.abortObservation _) | .fail, some (.waitRunner _) =>
          true
      | _, _ => false
  | .env e => awaited w.shared e
  | _ => true

theorem unstoppably_ok {w : World Op.Reply Exn Shared Role Entry}
    {l : Label Role Entry Choice Env} (h : unstoppably w l = true) : unstoppable.ok w l := by
  cases l with
  | run pid c =>
    intro p o next hp hcode
    simp only [unstoppably, about_eq hp hcode] at h
    refine ⟨⟨by simp [unstoppable], by simp [unstoppable]⟩, ?_⟩
    split at h
    · exact .inl rfl
    · exact .inr (.inl ⟨_, rfl⟩)
    · rename_i oid heq
      cases heq
      exact .inr (.inr ⟨rfl, .inl ⟨oid, rfl⟩⟩)
    · rename_i i heq
      cases heq
      exact .inr (.inr ⟨rfl, .inr ⟨i, rfl⟩⟩)
    · cases h
  | env e => exact ⟨by simp [Terms.Calm, unstoppable], awaited_ok h⟩
  | enter | stop | crash => trivial

/-- A measurement set that exceeds its reservation. -/
def largeSet : Tree := .file 1 (List.replicate 61 0)

/-- The writer exceeds its reservation, the stop raises, the wait times out, and
the coroutine is cancelled. -/
def overrun : List (Label Role Entry Choice Env) :=
  firstObservation.dropLast ++ [.env (.write 0 largeSet)] ++ steps 1 4 ++ [.run 1 .fail] ++
    steps 1 1 ++ [.run 1 .fail] ++ steps 1 12

/-- The abort of an overrunning observation raises, the wait for its coroutine times out, and
the coroutine is cancelled. Its data is moved and its row failed while the container is still
live. -/
theorem writer_lives : ¬ ∀ w, unstoppable.Reach w →
    ∀ i ∈ w.shared.containers, ∃ v o, w.shared.runners[i]? = some v ∧
      w.shared.db.obs? v.oid = some o ∧ o.state = .observing := by
  intro hall
  obtain ⟨w, hreach, htest⟩ := unstoppable.reach_of_replay unstoppably (fun _ _ => unstoppably_ok)
    overrun (fun w => decide (w.shared.containers = [0]) &&
      w.shared.db.observations.all fun o => decide (o.state = .observeFailed))
    (by decide +kernel)
  simp only [Bool.and_eq_true, List.all_eq_true, decide_eq_true_eq] at htest
  obtain ⟨hlive, hfailed⟩ := htest
  obtain ⟨v, o, _, ho, hobs⟩ := hall w hreach 0 (by simp [hlive])
  rw [hfailed o (Db.mem_of_obs? ho).1] at hobs
  cases hobs

end Sdpctl
