import Sdpctl.Programs.Tables

/-!
What an observation is charged and what it becomes. The row carries the reservation
of its admission, the worker compares with the configuration of the controller that
runs; a planned row that a later controller takes up may have less than that.
-/

namespace Sdpctl

open FileTree Coop

variable {T : Terms} {r : Role} {s s' : Shared} {db' : Db}

def Query.claims (oid : Nat) : Query → Bool
  | .transitionObservation i .planned .observing _ _ _ _ => i == oid
  | _ => false

/-- Every controller runs with the overrun action `abort`, the one under which the README
promises a bound; nothing else is limited. -/
def aborting : Limits where
  terms := .any
  enter _ n := ∀ cfg, n = .run cfg → cfg.reservationOverrunAction = .abort

/-- Every controller runs with the overrun action `abort`, and an observation is taken up only
when its row has reserved at least what the running controller allows. -/
def covering : Limits where
  terms := .any
  run o c s := ∀ q oid x, o = .db q → c = .ok → q.claims oid = true → s.db.obs? oid = some x →
    s.ctl.cfg.observationReservation ≤ x.reservedBytes
  enter := aborting.enter

/-- Every observation that a live worker observes has reserved what the running
controller allows. -/
def Covered (s : Shared) : Prop :=
  ∀ oid x, s.db.obs? oid = some x → x.state = .observing → s.ctl.live .observe oid = true →
    s.ctl.cfg.observationReservation ≤ x.reservedBytes

namespace Covered

theorem congr (h : Covered s) (hdb : s'.db = s.db) (hcfg : s'.ctl.cfg = s.ctl.cfg)
    (hlive : ∀ oid, s.db.InState oid .observing → s'.ctl.live .observe oid = true →
      s.ctl.live .observe oid = true) : Covered s' := by
  intro oid x hx hstate hl
  rw [hdb] at hx
  rw [hcfg]
  exact h oid x hx hstate (hlive oid ⟨x, hx, hstate⟩ hl)

theorem call (hinv : Inv T s) {q : Query} (call : Db.Call s.db q db')
    (hallowed : allowedQuery T r s q)
    (hclaim : ∀ oid x, q.claims oid = true → s.db.obs? oid = some x →
      s.ctl.cfg.observationReservation ≤ x.reservedBytes) (h : Covered s) :
    Covered { s with db := db' } := by
  intro oid x hx hstate hlive
  have hchange := call.obsChange hinv.db.ids hx
  cases hbefore : s.db.obs? oid with
  | none =>
    rw [hbefore] at hchange
    cases hchange with
    | created hcall hrow => simp [hrow, Db.planned] at hstate
  | some o =>
    rw [hbefore] at hchange
    cases hchange with
    | same => exact h oid x hbefore hstate hlive
    | released => simp at hstate
    | forced hcall =>
      subst hcall
      simp only [hallowed.2, Option.getD_none]
      exact h oid o hbefore hstate hlive
    | @moved x expected new reason size reserved error hcall legal before =>
      obtain rfl : new = .observing := hstate
      subst hcall
      have hmove := hallowed o hbefore before
      cases expected <;> simp [obsTransitions] at legal
      cases hmove with
      | claim task role owns before' after size' reserved' =>
        rw [reserved']
        exact hclaim oid o (by simp [Query.claims]) hbefore
      | note role state => simp [before] at state
      | abandon _ _ _ _ after | fail _ _ _ after | complete _ _ _ _ _ after | repair _ _ after
      | miss _ _ after | delete _ _ after => cases after

end Covered

theorem Ctl.live_of_finish {ctl : Ctl} {task key : Nat} {kind : TaskKind}
    (h : (ctl.finish task).live kind key = true) : ctl.live kind key = true := by
  obtain ⟨t, ht, hdone⟩ := Ctl.live_iff.mp h
  rw [Ctl.latest_finish] at ht
  obtain ⟨u, hu, rfl⟩ := Option.map_eq_some_iff.mp ht
  refine Ctl.live_iff.mpr ⟨u, hu, ?_⟩
  split at hdone
  · cases hdone
  · exact hdone

theorem covered_keeps : covering.Keeps Covered where
  start oid x hx := by simp [initial, Db.empty, Db.obs?] at hx
  op {r o c x s s'} hinv h hup hallowed hok hlimit hexec := by
    have hstep := exec_step hinv hallowed hexec
    rcases (exec_framed hexec).db with hsame | ⟨q, y, db, rfl, rfl, hrun, rfl⟩
    · refine h.congr hsame hstep.cfg fun oid hobserving hlive => ?_
      cases hstep with
      | @track kind key role up dead row =>
        by_cases hkey : kind = .observe ∧ key = oid
        · obtain ⟨rfl, rfl⟩ := hkey
          obtain ⟨o, ho, hs⟩ := row rfl
          obtain ⟨o', ho', hs'⟩ := hobserving
          rw [ho] at ho'
          cases ho'
          rw [hs] at hs'
          cases hs'
        · rwa [Ctl.live, Ctl.latest_track_ne _ (by tauto)] at hlive
      | finish may => exact Ctl.live_of_finish hlive
      | remove | prune => simpa using hlive
      | _ => exact hlive
    · exact h.call hinv (.of_run hinv.db.ids hrun) hallowed
        fun oid x hq hx => hlimit q oid x rfl rfl hq hx
  env hinv h hpeace hlimit henv := by
    have hmove := env_move henv
    exact h.congr hmove.db (by rw [hmove.ctl]) fun _ _ hlive => by rwa [hmove.ctl] at hlive
  enter {r n s s'} hinv h hlimit henter := by
    cases enter_cases henter with
    | boot =>
      intro oid x hx hs hlive
      simp [Ctl.live, Ctl.latest] at hlive
    | resolve | command => exact h
  down hinv h oid x hx hs hlive := by simp [down, Ctl.live, Ctl.latest] at hlive

/-- The sum that the controller holds against its threshold. -/
def Db.charged (db : Db) : Nat := db.logicalStorage.1 + db.logicalStorage.2

/-- An observation is stored with no more than its row had reserved, and nothing but
an admission adds to what is charged. -/
structure WithinReservation (db db' : Db) : Prop where
  size : ∀ oid o o', db.obs? oid = some o → o.state = .observing →
    db'.obs? oid = some o' → o'.state = .stored → o'.sizeBytes ≤ o.reservedBytes
  charge : (∀ oid, (db'.obs? oid).isSome → (db.obs? oid).isSome) → db'.charged ≤ db.charged

theorem Db.charged_eq (db : Db) : db.charged = db.used + db.reserved := by
  rw [Db.charged, Db.logicalStorage_eq]

theorem ObsMove.charge {o o' : Observation} (hinv : Inv T s)
    (habort : s.ctl.up = true → s.ctl.cfg.reservationOverrunAction = .abort) (h : Covered s)
    (ho : s.db.obs? o.id = some o) (move : ObsMove T r s o o') :
    (o.state = .observing → o'.state = .stored → o'.sizeBytes ≤ o.reservedBytes) ∧
      Db.usedBy o' + Db.reservedBy o' ≤ Db.usedBy o + Db.reservedBy o := by
  cases move with
  | note role state size reserved =>
    exact ⟨fun hs hs' => by simp [state, hs] at hs', by
      simp [Db.usedBy, Db.reservedBy, state, size, reserved]⟩
  | complete task role owns writer before after reserved bounded weighed =>
    have hup := owns.up hinv.tasks
    have hsize := bounded (habort hup)
    have hcovered := h o.id o ho before owns.live
    refine ⟨fun _ _ => Nat.le_trans hsize hcovered, ?_⟩
    simp [Db.usedBy, Db.reservedBy, Db.countsUsed, Db.countsReserved, before, after]
    omega
  | claim task role owns before after size reserved =>
    refine ⟨fun hs => by simp [before] at hs, ?_⟩
    simp [Db.usedBy, Db.reservedBy, Db.countsUsed, Db.countsReserved, before, after, reserved]
  | abandon task role owns before after | fail holder writer before after =>
    refine ⟨fun _ hs => by simp [after] at hs, ?_⟩
    simp [Db.usedBy, Db.reservedBy, Db.countsUsed, Db.countsReserved, after]
  | repair role before after size reserved released =>
    refine ⟨fun hs => by simp [before] at hs, ?_⟩
    simp [Db.usedBy, Db.reservedBy, Db.countsUsed, Db.countsReserved, before, after, size]
  | miss role before after size | delete role before after size =>
    refine ⟨fun _ hs => by simp [after] at hs, ?_⟩
    simp [Db.usedBy, Db.reservedBy, Db.countsReserved, after, size]

namespace WithinReservation

variable {db mid : Db} {o o' : Observation}

theorem refl (db : Db) : WithinReservation db db where
  size oid o o' ho hs ho' hs' := by
    rw [ho] at ho'
    cases ho'
    rw [hs] at hs'
    cases hs'
  charge _ := Nat.le_refl _

theorem congr (h : WithinReservation mid db') (hobs : mid.observations = db.observations) :
    WithinReservation db db' where
  size oid o o' ho := h.size oid o o' (by rwa [Db.obs?_congr hobs])
  charge hnone := by
    have hle := h.charge fun oid hsome => by
      rw [Db.obs?_congr hobs]
      exact hnone oid hsome
    simpa [Db.charged_eq, Db.used, Db.reserved, hobs] using hle

theorem obsStep (ids : db.Ids) (step : Db.ObsStep db db' o o')
    (hsize : o.state = .observing → o'.state = .stored → o'.sizeBytes ≤ o.reservedBytes)
    (hcharge : Db.usedBy o' + Db.reservedBy o' ≤ Db.usedBy o + Db.reservedBy o) :
    WithinReservation db db' where
  size oid x y hx hs hy hs' := by
    rw [step.obs?] at hy
    split at hy
    · rename_i hid
      cases hy
      rw [hid, step.found] at hx
      cases hx
      exact hsize hs hs'
    · rw [hx] at hy
      cases hy
      rw [hs] at hs'
      cases hs'
  charge _ := by
    have hused := step.sum ids Db.usedBy
    have hreserved := step.sum ids Db.reservedBy
    rw [Db.charged_eq, Db.charged_eq]
    unfold Db.used Db.reserved
    omega

theorem obsAdded (ids : db.Ids) (step : Db.ObsAdded db db' o) (hstate : o.state = .planned) :
    WithinReservation db db' where
  size oid x y hx hs hy hs' := by
    rw [step.obs? ids] at hy
    split at hy
    · cases hy
      rw [hstate] at hs'
      cases hs'
    · rw [hx] at hy
      cases hy
      rw [hs] at hs'
      cases hs'
  charge hnone := by
    have hnew := hnone o.id (by rw [step.obs? ids, if_pos rfl]; rfl)
    have hfresh : db.obs? o.id = none := Keyed.find_eq_none_iff.mpr (step.fresh ids)
    rw [hfresh] at hnew
    cases hnew

end WithinReservation

theorem DbMove.within (hinv : Inv T s)
    (habort : s.ctl.up = true → s.ctl.cfg.reservationOverrunAction = .abort) (h : Covered s)
    (move : DbMove T r s db') : WithinReservation s.db db' := by
  have hsame : db'.observations = s.db.observations → WithinReservation s.db db' :=
    fun hobs => (WithinReservation.refl db').congr hobs
  cases move with
  | events observations => exact hsame observations
  | obs step move =>
    obtain ⟨hsize, hcharge⟩ := move.charge hinv habort h (step.id ▸ step.found)
    exact .obsStep hinv.db.ids step hsize hcharge
  | run step | marked _ step | created step => exact hsame step.observations
  | admitted step state path size admits => exact .obsAdded hinv.db.ids step state
  | released role step =>
    obtain ⟨mid, hrun, hobs⟩ := step.steps
    have hmid : WithinReservation mid db' := by
      apply WithinReservation.obsStep (hrun.ids step.ids) hobs
      · simp [step.stored]
      · simp [Db.usedBy, Db.reservedBy, Db.countsUsed, Db.countsReserved, step.stored]
    exact hmid.congr hrun.observations
  | reprocessed role step added =>
    exact hsame (added.observations.trans step.observations)

/-- What the steps keep: the policy of the controller, and what its workers are
covered by. -/
theorem aborting_covered_keeps : covering.Keeps fun s =>
    (s.ctl.up = true → s.ctl.cfg.reservationOverrunAction = .abort) ∧ Covered s := by
  have hpolicy : covering.Keeps fun s =>
      s.ctl.up = true → s.ctl.cfg.reservationOverrunAction = .abort :=
    Limits.keeps_config (K := fun cfg => cfg.reservationOverrunAction = .abort)
      fun _ cfg henter _ => henter cfg rfl
  exact hpolicy.and covered_keeps

/-- As long as an observation is taken up only when its row has reserved what the
controller allows, it is stored with no more than that, and only an admission adds
to what is charged. -/
theorem completed_within_reservation {w : World Op.Reply Exn Shared Role Entry}
    (h : covering.Reach w) {l : Label Role Entry Choice Env} (hok : covering.ok w l)
    {w' : World Op.Reply Exn Shared Role Entry} (hstep : system.step l w = some w') :
    WithinReservation w.shared.db w'.shared.db := by
  have hkept := h.keeps aborting_covered_keeps
  rcases (h.shift hok hstep).tables with hsame | ⟨r, q, y, _, hallowed, _, hrun⟩
  · rw [hsame]
    exact .refl _
  · rcases query_move h.inv hallowed hrun with hsame | hmove
    · rw [hsame]
      exact .refl _
    · exact hmove.within h.inv hkept.1 hkept.2

/-- The operation takes up an observation whose row has reserved too little. -/
def uncovered (s : Shared) : Op → Bool
  | .db (.transitionObservation oid .planned .observing _ _ _ _) =>
      (s.db.obs? oid).any fun x => decide (x.reservedBytes < s.ctl.cfg.observationReservation)
  | _ => false

theorem avoiding_uncovered {w : World Op.Reply Exn Shared Role Entry}
    {l : Label Role Entry Choice Env} (h : avoiding uncovered w l = true) : covering.ok w l := by
  apply avoiding_ok h
  · intro o c s hno q oid x ho _ hclaims hx
    subst ho
    unfold Query.claims at hclaims
    split at hclaims
    · obtain rfl := eq_of_beq hclaims
      simpa [uncovered, hx] using hno
    · cases hclaims
  · exact fun _ _ _ _ _ => trivial
  · intro _ _ hcfg cfg hn
    rw [hcfg cfg hn]
    rfl

/-- The first observation is completed with three bytes, within the sixty that its row has
reserved, and the step adds nothing to what is charged. -/
theorem completed_within_reservation_first : ∃ w w', covering.Reach w ∧
    system.step (.run 1 .ok) w = some w' ∧ w.shared.db.InState 1 .observing ∧
    w'.shared.db.InState 1 .stored ∧ WithinReservation w.shared.db w'.shared.db := by
  obtain ⟨w, hreach, htest⟩ := covering.reach_of_replay (avoiding uncovered)
    (fun w l h => avoiding_uncovered h)
    (firstObservation ++ [.env (.containerExit 0), .env (.runnerReturn 0 0)] ++ steps 1 13)
    (fun w => avoiding uncovered w (.run 1 .ok) && (system.step (.run 1 .ok) w).any fun w' =>
      ((w.shared.db.obs? 1).any fun o => o.state == .observing) &&
        (w'.shared.db.obs? 1).any fun o => o.state == .stored) (by decide +kernel)
  rw [Bool.and_eq_true] at htest
  obtain ⟨w', hstep, hends⟩ := (Option.any_eq_true _ _).mp htest.2
  rw [Bool.and_eq_true] at hends
  obtain ⟨o, ho, hs⟩ := (Option.any_eq_true _ _).mp hends.1
  obtain ⟨o', ho', hs'⟩ := (Option.any_eq_true _ _).mp hends.2
  exact ⟨w, w', hreach, hstep, ⟨o, ho, eq_of_beq hs⟩, ⟨o', ho', eq_of_beq hs'⟩,
    completed_within_reservation hreach (avoiding_uncovered htest.1) hstep⟩

/-- A controller plans an observation under a reservation of two bytes and dies; the
next one allows three, and the runner writes three. -/
def grownReservation : List (Label Role Entry Choice Env) :=
  [.enter .main (.run { storageThreshold := 100, observationReservation := 2 })] ++ steps 0 8 ++
    [.run 0 (.order [])] ++ steps 0 25 ++
    [.crash, .enter .main (.run { storageThreshold := 100, observationReservation := 3 })] ++
    steps 2 9 ++ [.run 2 (.order [])] ++ steps 2 11 ++ steps 3 6 ++
    [.env (.launch 0), .env (.write 0 smallSet), .env (.containerExit 0),
      .env (.runnerReturn 0 0)] ++ steps 3 13

/-- A row reserves two bytes and its controller dies. The next one allows three, resumes the
row, and compares the size with its own configuration: the observation is stored with three
bytes. -/
theorem completed_beyond_reservation : ¬ ∀ w l w', aborting.Reach w → aborting.ok w l →
    system.step l w = some w' → WithinReservation w.shared.db w'.shared.db := by
  intro hall
  have hok : ∀ w l, starting (fun cfg => decide (cfg.reservationOverrunAction = .abort)) l = true →
      aborting.ok w l := fun w l h =>
    starting_ok h rfl (fun _ _ _ => trivial) (fun _ _ => trivial)
      fun _ _ hcfg cfg hn => of_decide_eq_true (hcfg cfg hn)
  obtain ⟨w, hreach, htest⟩ := aborting.reach_of_replay (fun _ => starting _) hok grownReservation
    (fun w => (system.step (.run 3 .ok) w).any fun w' =>
      (w.shared.db.obs? 1).any fun o => (w'.shared.db.obs? 1).any fun o' =>
        o.state == .observing && o'.state == .stored && decide (o.reservedBytes < o'.sizeBytes))
    (by decide +kernel)
  obtain ⟨w', hstep, hends⟩ := (Option.any_eq_true _ _).mp htest
  obtain ⟨o, ho, hends⟩ := (Option.any_eq_true _ _).mp hends
  obtain ⟨o', ho', hends⟩ := (Option.any_eq_true _ _).mp hends
  simp only [Bool.and_eq_true, beq_iff_eq, decide_eq_true_eq] at hends
  have hwithin := hall w (.run 3 .ok) w' hreach (hok w _ rfl) hstep
  have hle := hwithin.size 1 o o' ho hends.1.1 ho' hends.1.2
  omega

end Sdpctl
