import Sdpctl.Programs.Process

/-!
`_observe`, verified. The worker owns its task; it lets go of an observation
only after its runner has ended, and never with a wrong size.
-/

namespace Sdpctl

open FileTree Coop

variable {T : Terms} {cfg : Config} {task oid handle : Nat}

/-- What the worker of an observation knows all along. -/
def Working (cfg : Config) (task oid : Nat) (s : Shared) : Prop :=
  Owns task oid s ∧ s.ctl.cfg = cfg ∧ NoOrphan s

/-- The runner of the observation is known under its handle. -/
def RunnerAt (oid handle : Nat) (s : Shared) : Prop :=
  ∃ w, s.runners[handle]? = some w ∧ w.oid = oid

theorem working_patient : Patient T (.observe task oid) (Working cfg task oid) :=
  fun _ _ _ hk _ _ h => ⟨(hk.mine h.1).1, hk.cfg.trans h.2.1, hk.noOrphan h.2.2⟩

theorem runnerAt_patient : Patient T (.observe task oid) (RunnerAt oid handle) := by
  rintro s s' _ hk _ _ ⟨w, hw, hoid⟩
  obtain ⟨w', hw', hoid'⟩ := hk.place handle w hw
  exact ⟨w', hw', hoid'.trans hoid⟩

theorem observing_patient : Patient T (.observe task oid) fun s =>
    Working cfg task oid s ∧ s.db.InState oid .observing :=
  fun s s' hon hk hinv hinv' h => ⟨working_patient s s' hon hk hinv hinv' h.1,
    (hk.mine h.1.1).2.1 h.2⟩

theorem idle_patient : Patient T (.observe task oid) fun s =>
    Working cfg task oid s ∧ NoWriter oid s :=
  fun s s' hon hk hinv hinv' h => ⟨working_patient s s' hon hk hinv hinv' h.1,
    (hk.mine h.1.1).2.2.1 h.2⟩

theorem fresh_patient : Patient T (.observe task oid) fun s =>
    Working cfg task oid s ∧ ∀ w ∈ s.runners, w.oid ≠ oid :=
  fun s s' hon hk hinv hinv' h => ⟨working_patient s s' hon hk hinv hinv' h.1,
    (hk.mine h.1.1).2.2.2 h.2⟩

theorem idle_frame : Frame T (.observe task oid) fun s =>
    Working cfg task oid s ∧ NoWriter oid s :=
  ⟨idle_patient.firm (by simp), fun _ _ _ _ _ _ h => h⟩

theorem runnerAt_frame : Frame T (.observe task oid) (RunnerAt oid handle) :=
  ⟨runnerAt_patient.firm (by simp), fun _ _ _ _ _ _ h => h⟩

theorem Frame.and {r : Role} {P P' : Shared → Prop} (h : Frame T r P) (h' : Frame T r P') :
    Frame T r fun s => P s ∧ P' s :=
  ⟨h.firm.and h'.firm, fun s db d c f u hP =>
    ⟨h.rooted s db d c f u hP.1, h'.rooted s db d c f u hP.2⟩⟩

theorem custody_of {s : Shared} (h : Working cfg task oid s ∧ NoWriter oid s)
    (hobs : s.db.InState oid .observing) : Custody (.observe task oid) oid s :=
  ⟨hobs, h.2, .inl ⟨task, rfl, h.1.1⟩⟩

/-- The runner of an observation has ended once it is not pending any more. -/
theorem noWriter_of_done {s : Shared} (hinv : Inv T s) (hno : NoOrphan s) {w : Runner}
    (hw : s.runners[handle]? = some w) (hoid : w.oid = oid) (hdone : w.state ≠ .pending) :
    NoWriter oid s := by
  intro v hv hvoid
  have hmem := List.mem_of_getElem? hw
  obtain rfl : v = w :=
    List.inj_on_of_nodup_map hinv.runners.nodup hv hmem (hvoid.trans hoid.symm)
  cases hrun : v.running with
  | false => rfl
  | true =>
    rcases Runner.running_iff.mp hrun with hs | hs
    · exact absurd hs hdone
    · exact absurd hs (hno v hv)

section Stop

variable {K : Shared → Prop} (hK : Patient T (.observe task oid) K)
  (hworking : ∀ s, K s → Working cfg task oid s)
include hK hworking

theorem stopped_patient : Patient T (.observe task oid) fun s => K s ∧ NoWriter oid s :=
  fun s s' hon hk hinv hinv' h => ⟨hK s s' hon hk hinv hinv' h.1,
    (hk.mine (hworking s h.1).1).2.2.1 h.2⟩

/-- `with suppress(Exception): await abort_observation(...)`. -/
theorem abort_rule (hcontainers : ∀ s containers, K s → K { s with containers })
    {E : Exn → Shared → Prop} :
    Verified T (.observe task oid) K (suppress (call (.abortObservation oid))) (fun _ => K) E := by
  refine .catchAll (E := fun _ => K) ?_ fun _ => .pure fun _ _ h => h
  refine Logic.Triple.call (hK.stable (by simp)) fun s c _ h _ =>
    ⟨⟨task, rfl, (hworking s h).1⟩, fun x s' hx _ => ?_⟩
  cases c <;> cases hx
  · exact hcontainers s _ h
  · exact h
  · exact h

theorem joinRunner_rule : Verified T (.observe task oid) (fun s => K s ∧ NoWriter oid s)
    (call (.joinRunner handle)) (fun _ s => K s ∧ NoWriter oid s)
    (fun _ s => K s ∧ NoWriter oid s) := by
  refine wait_rule (by simp) (stopped_patient hK hworking) (fun _ _ _ => trivial)
    fun s c x s' _ h hx => ?_
  cases c <;> cases hx <;> exact ⟨rfl, h⟩

variable (hat : ∀ s, K s → RunnerAt oid handle s)
include hat

theorem runnerDone_rule {E : Exn → Shared → Prop} :
    Verified T (.observe task oid) K (call (.runnerDone handle))
      (fun b s => K s ∧ (b = true → NoWriter oid s)) E := by
  refine Verified.look rfl (hK.firm (by simp)) (fun _ _ _ => trivial) fun s c x s' hinv h _ hx => ?_
  obtain ⟨w, hw, hoid⟩ := hat s h
  simp only [exec, hw] at hx
  cases c <;> cases hx
  exact ⟨rfl, h, fun hb => noWriter_of_done hinv (hworking s h).2.2 hw hoid (by simpa using hb)⟩

theorem waitRunner_rule : Verified T (.observe task oid) K (call (.waitRunner handle))
    (fun _ s => K s ∧ NoWriter oid s) (fun _ => K) := by
  refine wait_rule (by simp) hK (fun _ _ _ => trivial) fun s c x s' hinv h hx => ?_
  obtain ⟨w, hw, hoid⟩ := hat s h
  cases c with
  | ok =>
    simp only [exec, hw] at hx
    obtain ⟨y, hy, heq⟩ := Option.map_eq_some_iff.mp hx
    cases heq
    refine ⟨rfl, ?_⟩
    cases x with
    | error e => exact h
    | ok rc =>
      refine ⟨h, noWriter_of_done hinv (hworking s h).2.2 hw hoid fun hpend => ?_⟩
      simp [Shared.runnerOutcome, hpend] at hy
  | fail =>
    cases hx
    exact ⟨rfl, h⟩
  | blind | leaves | order | exit | output => cases hx

theorem cancelRunner_rule (hcancel : ∀ s, K s → K (s.setRunner handle .cancelled))
    {E : Exn → Shared → Prop} :
    Verified T (.observe task oid) K (call (.cancelRunner handle))
      (fun _ s => K s ∧ NoWriter oid s) E := by
  refine Logic.Triple.call ((hK.firm (by simp)).stable rfl) fun s c hinv h _ => ?_
  obtain ⟨w, hw, hoid⟩ := hat s h
  refine ⟨⟨task, oid, w, rfl, (hworking s h).1, hw, hoid⟩, fun x s' hx hinv' => ?_⟩
  simp only [system, exec, hw] at hx
  cases c <;> cases hx
  by_cases hpend : w.state = .pending
  · rw [if_pos hpend] at hinv' ⊢
    have hafter : (s.setRunner handle .cancelled).runners[handle]? =
        some { w with state := .cancelled } := by
      simp [Shared.setRunner, hw]
    exact ⟨hcancel s h, noWriter_of_done hinv' (hworking _ (hcancel s h)).2.2 hafter hoid
      (by simp)⟩
  · rw [if_neg hpend]
    exact ⟨h, noWriter_of_done hinv (hworking s h).2.2 hw hoid hpend⟩

/-- `_stop_observation_runner`, with a runner: it has ended afterwards, also when
an exception comes out. -/
theorem stopObservationRunner_rule
    (hcontainers : ∀ s containers, K s → K { s with containers })
    (hcancel : ∀ s, K s → K (s.setRunner handle .cancelled)) :
    Verified T (.observe task oid) K (stopObservationRunner oid (some handle))
      (fun _ s => K s ∧ NoWriter oid s) (fun _ s => K s ∧ NoWriter oid s) := by
  refine .bind (abort_rule hK hworking hcontainers) fun _ => ?_
  refine .bind (runnerDone_rule hK hworking hat) fun b => .ite (fun hb => .pure fun _ _ h =>
    ⟨h.1, h.2 hb⟩) fun _ => ?_
  refine .catchAll (E := fun _ => K) ?_ fun _ => ?_
  · exact .bind ((waitRunner_rule hK hworking hat).pre fun _ _ h => h.1) fun _ =>
      .pure fun _ _ h => h
  · refine .bind (runnerDone_rule hK hworking hat) fun b => .ite (fun hb => .pure fun _ _ h =>
      ⟨h.1, h.2 hb⟩) fun _ => ?_
    exact .bind ((cancelRunner_rule hK hworking hat hcancel).pre fun _ _ h => h.1) fun _ =>
      joinRunner_rule hK hworking

end Stop

abbrev Idle (cfg : Config) (task oid : Nat) (s : Shared) : Prop :=
  Working cfg task oid s ∧ NoWriter oid s

/-- `_fail_observation`, once no runner is left. -/
theorem failObservation_rule (reason error : String) :
    Verified T (.observe task oid) (Idle cfg task oid) (failObservation oid reason error)
      (fun _ => Idle cfg task oid) (fun _ => Idle cfg task oid) := by
  have hframe : Frame T (.observe task oid) fun s => Working cfg task oid s ∧ NoWriter oid s :=
    idle_frame
  have hr : Role.observe task oid ≠ .cli := by simp
  have hfind : Verified T (.observe task oid) (Idle cfg task oid) (findObservation oid)
      (fun found s => Idle cfg task oid s ∧ ∀ obs, found = some obs → s.db.obs? oid = some obs ∧
        obs.msPath = msPathOf oid) (fun _ => Idle cfg task oid) := by
    refine .catchAll (.bind (getObservation_rule oid hframe.firm) fun obs => .pure fun s hinv h =>
      ⟨h.1, ?_⟩) fun e => ?_
    · rintro _ ⟨⟩
      exact ⟨h.2, hinv.db.msPath oid obs h.2⟩
    · split
      · exact .pure fun _ _ h => ⟨h, by simp⟩
      · exact .raise fun _ _ h => h
  refine .bind hfind fun found => ?_
  cases found with
  | none => exact .pure fun _ _ h => h.1
  | some obs =>
    refine .ite (fun hstate => ?_) fun _ => .ite (fun hstate => ?_) fun _ => ?_
    · rintro s hinv ⟨h, hfound⟩
      obtain ⟨hobs, hpath⟩ := hfound obs rfl
      rw [hpath]
      refine Logic.Triple.bind ((quarantineSuppressed_rule hr hframe.firm hframe.blind oid _).exc
        fun _ _ _ h => h.1) (fun _ => ?_) s hinv ⟨h, custody_of h ⟨obs, hobs, hstate⟩⟩
      refine suppressTransitionError_rule (A := Idle cfg task oid) (φ := fun _ => True)
        (fail_rule hr hframe.firm oid ?_ fun s e _ h _ he => ⟨h, .inl he⟩)
        (fun _ _ h _ => h) fun _ _ h => h
      exact fun s db _ _ _ h _ _ _ _ => hframe.db db h
    · refine suppressTransitionError_rule (A := Idle cfg task oid) (φ := fun _ => True)
        (.pre (transitionObservation_rule (by decide) hframe.firm ?_ ?_ ?_) fun _ _ h => h.1)
        (fun _ _ h _ => h) fun _ _ h => h
      · rintro s _ h o ho hbefore
        have hid := (Db.mem_of_obs? ho).2
        exact .abandon task (by rw [hid]) (by rw [hid]; exact h.1.1) hbefore rfl rfl rfl
      · exact fun s db _ _ h _ _ _ => hframe.db db h
      · exact fun s e _ h he => ⟨h, he.imp_right fun h => ⟨h.1, trivial⟩⟩
    · exact (note_rule (.recordEvent .observation oid _) hframe fun _ => trivial).pre
        fun _ _ h => h.1

/-- The handler around the body of `_observe`. -/
theorem observeGuard_rule {P K : Shared → Prop} {body : M (Option Entry)} {next : Option Nat}
    {Q : Option Entry → Shared → Prop}
    (hbody : Verified T (.observe task oid) P body Q fun _ => K)
    (hstop : Verified T (.observe task oid) K (stopObservationRunner oid next)
      (fun _ => Idle cfg task oid) (fun _ => Idle cfg task oid))
    (hQ : ∀ s, Idle cfg task oid s → Q none s) :
    Verified T (.observe task oid) P (observeGuard oid next body) Q
      (fun _ => Idle cfg task oid) :=
  .catchAll hbody fun _ => .bind hstop fun _ =>
    .bind (failObservation_rule _ _) fun _ => .pure fun s _ h => hQ s h

section Watch

/-- The worker with its runner under a handle. -/
abbrev Holding (cfg : Config) (task oid handle : Nat) (s : Shared) : Prop :=
  Idle cfg task oid s ∧ RunnerAt oid handle s

theorem holding_frame : Frame T (.observe task oid) (Holding cfg task oid handle) :=
  idle_frame.and runnerAt_frame

theorem failObserving_rule (suffix reason error : String) :
    Verified T (.observe task oid)
      (fun s => Holding cfg task oid handle s ∧ Custody (.observe task oid) oid s)
      (failObserving oid (msPathOf oid) suffix reason error)
      (fun _ => Holding cfg task oid handle) (fun _ => Holding cfg task oid handle) := by
  have hframe : Frame T (.observe task oid) (Holding cfg task oid handle) := holding_frame
  have hr : Role.observe task oid ≠ .cli := by simp
  refine .bind ((quarantineIfExists_rule hr hframe.firm hframe.blind oid _).exc
    fun _ _ _ h => h.1) fun _ => ?_
  exact fail_rule hr hframe.firm oid (fun s db _ _ _ h _ _ _ _ => hframe.db db h)
    fun _ _ _ h _ _ => h

/-- The size that the walk found is the size, and stays it. -/
def Measured (T : Terms) (cfg : Config) (task oid handle n : Nat) (s : Shared) : Prop :=
  (Holding cfg task oid handle s ∧ Custody (.observe task oid) oid s) ∧
    (T.Calm → s.disk.bytesAt (msPathOf oid) = n)

theorem frozen_firm (hcalm : T.Calm) (x : Option Tree) : Firm T (.observe task oid) fun s =>
    (Holding cfg task oid handle s ∧ Custody (.observe task oid) oid s) ∧
      s.disk.get? (msPathOf oid) = x :=
  fun s s' hon hq hinv hinv' h =>
    ⟨(holding_frame.firm.and (custody_firm (by simp) oid)) s s' hon hq hinv hinv' h.1,
      ((hq (by simp)).frozen hcalm oid h.1.2.1 h.1.2.2.1).trans h.2⟩

theorem measured_firm (n : Nat) :
    Firm T (.observe task oid) (Measured T cfg task oid handle n) := by
  intro s s' hon hq hinv hinv' h
  refine ⟨(holding_frame.firm.and (custody_firm (by simp) oid)) s s' hon hq hinv hinv' h.1,
    fun hcalm => ?_⟩
  rw [Disk.bytesAt_congr ((hq (by simp)).frozen hcalm oid h.1.2.1 h.1.2.2.1)]
  exact h.2 hcalm

/-- `apparent_size` of a finished observation. -/
theorem measure_rule : Verified T (.observe task oid)
    (fun s => Holding cfg task oid handle s ∧ Custody (.observe task oid) oid s)
    (apparentSize (msPathOf oid)) (fun n => Measured T cfg task oid handle n)
    (fun _ => Holding cfg task oid handle) := by
  intro s hinv h
  by_cases hcalm : T.Calm
  · exact ((apparentSize_fixed (msPathOf oid) (s.disk.get? (msPathOf oid))
      (frozen_firm hcalm _)).conseq (fun _ _ h => h) (fun _ _ _ h => ⟨h.1, fun _ => h.2⟩)
        fun _ _ _ h => h.1) s hinv ⟨h, rfl⟩
  · exact ((apparentSize_rule (msPathOf oid)
      (holding_frame.firm.and (custody_firm (by simp) oid))).conseq (fun _ _ h => h)
        (fun _ _ _ h => ⟨h, fun hyes => absurd hyes hcalm⟩) fun _ _ _ h => h.1) s hinv h

theorem complete_rule {n : Nat} (hbounded : cfg.reservationOverrunAction = .abort →
      n ≤ cfg.observationReservation) :
    Verified T (.observe task oid) (Measured T cfg task oid handle n)
      (store (.transitionObservation oid .observing .stored "observation completed" (some n)
        (some 0) none))
      (fun _ => Holding cfg task oid handle) (fun _ => Holding cfg task oid handle) := by
  refine transitionObservation_rule (by decide) (measured_firm n) ?_
    (fun s db _ _ h _ _ _ => (holding_frame (T := T)).db db h.1.1) fun _ _ _ h _ => h.1.1
  rintro s hinv ⟨⟨⟨hidle, _⟩, hcustody⟩, hsize⟩ o ho hstate
  have hid := (Db.mem_of_obs? ho).2
  refine .complete task (by rw [hid]) (by rw [hid]; exact hidle.1.1) (hid ▸ hcustody.2.1) hstate rfl
    rfl ?_ (hid ▸ hsize)
  rw [hidle.1.2.1]
  exact hbounded

/-- `_observe`, after its loop. -/
theorem observeFinish_rule : Verified T (.observe task oid)
    (fun s => Holding cfg task oid handle s ∧ Custody (.observe task oid) oid s)
    (observeFinish cfg oid handle (msPathOf oid))
    (fun _ => Holding cfg task oid handle) (fun _ => Holding cfg task oid handle) := by
  have hfirm := (show Frame T (.observe task oid) (Holding cfg task oid handle) from
    holding_frame).firm.and
    (custody_firm (r := .observe task oid) (by simp) oid)
  refine .bind (Q := fun _ s => Holding cfg task oid handle s ∧ Custody (.observe task oid) oid s)
    (Verified.look rfl hfirm (fun _ _ _ => trivial) fun s c x s' hinv h _ hx => ?_) fun rc => ?_
  · simp only [exec] at hx
    split at hx
    · cases hx
    · obtain ⟨y, _, hy⟩ := Option.bind_eq_some_iff.mp hx
      cases c <;> cases hy
      refine ⟨rfl, ?_⟩
      cases x with
      | error e => exact h.1
      | ok rc => exact h
  refine .ite (fun _ => failObserving_rule _ _ _) fun _ => .bind measure_rule fun n => ?_
  refine .ite (fun hle => complete_rule fun _ => hle) fun hgt => .ite (fun _ => ?_) fun hwarn => ?_
  · exact (failObserving_rule _ _ _).pre fun _ _ h => h.1
  · refine .bind (Q := fun _ => Measured T cfg task oid handle n)
      (change_rule _ (measured_firm n) (fun _ _ _ => trivial) ?_ fun _ _ _ h _ => h.1.1)
      fun _ => complete_rule fun habort => absurd habort hwarn
    rintro s a db _ h hrun _
    cases hrun
    exact h

/-- The worker while its runner may be at work. -/
abbrev Attending (cfg : Config) (task oid handle : Nat) (s : Shared) : Prop :=
  Working cfg task oid s ∧ RunnerAt oid handle s

abbrev Watching (cfg : Config) (task oid handle : Nat) (s : Shared) : Prop :=
  Attending cfg task oid handle s ∧ s.db.InState oid .observing

theorem attending_patient : Patient T (.observe task oid) (Attending cfg task oid handle) :=
  working_patient.and runnerAt_patient

theorem watching_patient : Patient T (.observe task oid) (Watching cfg task oid handle) :=
  fun s s' hon hk hinv hinv' h => ⟨attending_patient s s' hon hk hinv hinv' h.1,
    (observing_patient s s' hon hk hinv hinv' ⟨h.1.1, h.2⟩).2⟩

theorem attending_cancel {s : Shared} (h : Attending cfg task oid handle s) :
    Attending cfg task oid handle (s.setRunner handle .cancelled) := by
  refine ⟨⟨h.1.1, h.1.2.1, forall_mem_modify h.1.2.2 fun _ _ => by simp⟩, ?_⟩
  obtain ⟨w, hw, hoid⟩ := h.2
  exact ⟨{ w with state := .cancelled }, by simp [Shared.setRunner, hw], hoid⟩

/-- `_stop_observation_runner` from the handler of the worker. -/
theorem stopAttending_rule : Verified T (.observe task oid) (Attending cfg task oid handle)
    (stopObservationRunner oid (some handle)) (fun _ => Idle cfg task oid)
    (fun _ => Idle cfg task oid) :=
  (stopObservationRunner_rule attending_patient (fun _ h => h.1) (fun _ h => h.2)
    (fun _ _ h => h) fun _ h => attending_cancel h).conseq (fun _ _ h => h)
    (fun _ _ _ h => ⟨h.1.1, h.2⟩) fun _ _ _ h => ⟨h.1.1, h.2⟩

/-- `_stop_observation_runner` from the watchdog. -/
theorem stopWatching_rule : Verified T (.observe task oid) (Watching cfg task oid handle)
    (stopObservationRunner oid (some handle))
    (fun _ s => Holding cfg task oid handle s ∧ Custody (.observe task oid) oid s)
    (fun _ => Attending cfg task oid handle) :=
  (stopObservationRunner_rule watching_patient (fun _ h => h.1.1) (fun _ h => h.1.2)
    (fun _ _ h => h) fun _ h => ⟨attending_cancel h.1, h.2⟩).conseq (fun _ _ h => h)
    (fun _ _ _ h => ⟨⟨⟨h.1.1.1, h.2⟩, h.1.1.2⟩, custody_of ⟨h.1.1.1, h.2⟩ h.1.2⟩)
    fun _ _ _ h => h.1.1

theorem watch_pre {s : Shared} {warned : Bool} (h : Watching cfg task oid handle s) :
    pre (.observe task oid) (.watch cfg task oid handle (msPathOf oid) warned) s :=
  ⟨rfl, rfl, h.1.1.1, h.1.1.2.1, h.1.1.2.2, h.2, rfl, h.1.2⟩

theorem watchTurn_rule (warned : Bool) : Verified T (.observe task oid)
    (Watching cfg task oid handle) (watchTurn cfg task oid handle (msPathOf oid) warned)
    (fun next s => match next with
      | some n => pre (.observe task oid) n s
      | none => Idle cfg task oid s) (fun _ => Attending cfg task oid handle) := by
  have hfirm := (show Patient T (.observe task oid) (Watching cfg task oid handle) from
    watching_patient).firm (by simp)
  refine .bind (runnerDone_rule watching_patient (fun _ h => h.1.1) fun _ h => h.1.2) fun b =>
    .ite (fun hb => ?_) fun _ => ?_
  · refine .bind ((observeFinish_rule.pre fun s _ h => ?_).exc fun _ _ _ h =>
      ⟨h.1.1, h.2⟩) fun _ => .pure fun _ _ h => h.1
    have hidle : Idle cfg task oid s := ⟨h.1.1.1, h.2 hb⟩
    exact ⟨⟨hidle, h.1.1.2⟩, custody_of hidle h.1.2⟩
  · refine .bind ((pause_rule (.inr rfl) (by simp) watching_patient).pre fun _ _ h => h.1)
      fun _ => ?_
    refine .bind ((apparentSize_rule (msPathOf oid) hfirm).exc fun _ _ _ h => h.1) fun size => ?_
    refine .ite (fun _ => .pure fun _ _ h => watch_pre h) fun _ => .ite (fun _ => ?_) fun _ =>
      .ite (fun _ => .pure fun _ _ h => watch_pre h) fun _ => ?_
    · refine .bind stopWatching_rule fun _ => ?_
      exact .bind ((failObserving_rule _ _ _).exc fun _ _ _ h => ⟨h.1.1, h.2⟩) fun _ =>
        .pure fun _ _ h => h.1
    · refine .bind (Q := fun _ => Watching cfg task oid handle)
        (change_rule _ hfirm (fun _ _ _ => trivial) ?_ fun _ _ _ h _ => h.1)
        fun _ => .pure fun _ _ h => watch_pre h
      rintro s a db _ h hrun _
      cases hrun
      exact h

end Watch

section Start

abbrev Fresh (cfg : Config) (task oid : Nat) (s : Shared) : Prop :=
  Working cfg task oid s ∧ ∀ w ∈ s.runners, w.oid ≠ oid

theorem idle_of_fresh {s : Shared} (h : Fresh cfg task oid s) : Idle cfg task oid s :=
  ⟨h.1, fun w hw hoid => absurd hoid (h.2 w hw)⟩

/-- The claim at the start: the observation is observed, or somebody moved it. -/
theorem claimObservation_rule : Verified T (.observe task oid) (Fresh cfg task oid)
    (claimObservation oid)
    (fun b s => Fresh cfg task oid s ∧ (b = true → s.db.InState oid .observing))
    (fun _ => Fresh cfg task oid) := by
  refine .catchAll (E := fun _ => Fresh cfg task oid) (.bind (Q := fun _ s => Fresh cfg task oid s ∧
    s.db.InState oid .observing) (transitionObservation_rule (by decide)
      (fresh_patient.firm (by simp)) ?_ ?_ fun _ _ _ h _ => h) fun _ => .pure fun _ _ h =>
        ⟨h.1, fun _ => h.2⟩) fun e => ?_
  · rintro s _ h o ho hstate
    have hid := (Db.mem_of_obs? ho).2
    exact .claim task (by rw [hid]) (by rw [hid]; exact h.1.1) hstate rfl rfl rfl
  · rintro s db o _ h rfl _ step
    exact ⟨h, _, step.obs?_self, rfl⟩
  · split
    · exact .pure fun _ _ h => ⟨h, by simp⟩
    · exact .raise fun _ _ h => h

/-- `_observe`, up to its loop. -/
theorem observeStart_rule : Verified T (.observe task oid) (Fresh cfg task oid)
    (observeStart cfg task oid)
    (fun next s => match next with
      | some n => pre (.observe task oid) n s
      | none => Idle cfg task oid s) (fun _ => Idle cfg task oid) := by
  have hfirm := (show Patient T (.observe task oid) (Fresh cfg task oid) from
    fresh_patient).firm (by simp)
  have hobserving : Firm T (.observe task oid) fun s => s.db.InState oid .observing :=
    fun _ _ _ hq _ _ h => (hq (by simp)).observing h
  refine .bind ((getObservation_rule oid hfirm).exc fun _ _ _ h => idle_of_fresh h) fun _ => ?_
  refine .bind ((claimObservation_rule.pre fun _ _ h => h.1).exc fun _ _ _ h => idle_of_fresh h)
    fun b =>
    .ite (fun hb => ?_) fun _ => .pure fun _ _ h => idle_of_fresh h.1
  refine .bind (((getObservation_rule oid (hfirm.and hobserving)).pre fun _ _ h =>
    ⟨h.1, h.2 hb⟩).exc fun _ _ _ h => idle_of_fresh h.1) fun obs => ?_
  rintro s hinv ⟨h, hobs⟩
  rw [hinv.db.msPath oid obs hobs]
  have hstart : Verified T (.observe task oid)
      (fun s => Fresh cfg task oid s ∧ s.db.InState oid .observing)
      (call (.startObserve oid (msPathOf oid) (observeLog oid)))
      (fun handle => Watching cfg task oid handle) (fun _ => Idle cfg task oid) := by
    refine Logic.Triple.call ((hfirm.and hobserving).stable rfl) fun s c _ h _ =>
      ⟨⟨⟨task, rfl, h.1.1.1⟩, rfl, h.2, h.1.2⟩, fun x s' hx _ => ?_⟩
    cases c <;> cases hx
    refine ⟨⟨⟨h.1.1.1, h.1.1.2.1, fun w hw => ?_⟩, ⟨oid, msPathOf oid, .pending, false⟩, by simp,
      rfl⟩, h.2⟩
    rcases List.mem_append.mp hw with hw | hw
    · exact h.1.1.2.2 w hw
    · simp [List.mem_singleton.mp hw]
  refine Logic.Triple.bind hstart (fun handle => ?_) s hinv h
  exact .pure fun _ _ h => watch_pre h

end Start

/-- `_observe`, from the start of its task into its loop. -/
theorem observe_rule (cfg : Config) (task oid : Nat) :
    Verified T (.observe task oid) (pre (.observe task oid) (.observe cfg task oid))
      (Entry.observe cfg task oid).code
      (fun next s => ∀ n, next = some n → pre (.observe task oid) n s) (fun _ _ => True) := by
  refine (endTask_rule (P := Fresh cfg task oid) (A := Idle cfg task oid) idle_frame.firm
    (fun s _ h => .observe oid rfl h.1.1 h.2) ?_).pre fun s _ h => ⟨⟨h.2.2.1, h.2.2.2.1,
      h.2.2.2.2.1⟩, h.2.2.2.2.2⟩
  refine .bind (pause_rule (.inl rfl) (by simp) fresh_patient) fun _ => ?_
  refine observeGuard_rule observeStart_rule ?_ fun _ h => h
  refine .bind (abort_rule idle_patient (fun _ h => h.1) fun _ _ h => h)
    fun _ => .pure fun _ _ h => h

/-- One turn of the loop of `_observe`. -/
theorem watch_rule (cfg : Config) (task oid handle : Nat) (msPath : Path) (warned : Bool) :
    Verified T (.observe task oid)
      (pre (.observe task oid) (.watch cfg task oid handle msPath warned))
      (Entry.watch cfg task oid handle msPath warned).code
      (fun next s => ∀ n, next = some n → pre (.observe task oid) n s) (fun _ _ => True) := by
  rintro s hinv ⟨_, _, howns, hcfg, hno, hobs, rfl, hat⟩
  refine endTask_rule (P := Watching cfg task oid handle) (A := Idle cfg task oid) idle_frame.firm
    (fun s _ h => .observe oid rfl h.1.1 h.2) ?_ s hinv ⟨⟨⟨howns, hcfg, hno⟩, hat⟩, hobs⟩
  exact observeGuard_rule (watchTurn_rule warned) stopAttending_rule fun _ h => h

end Sdpctl
