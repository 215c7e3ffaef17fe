import Sdpctl.Programs.Sound

/-!
The reservation invariant: the ledger never exceeds the threshold. It is checked
once, when an observation is admitted; every later transition swaps a
reservation for no more than it had.
-/

namespace Sdpctl

open FileTree Coop

variable {T : Terms} {r : Role} {s s' : Shared} {cfg : Config}

/-- Every controller runs under this configuration, with its threshold and its reservation;
nothing else is limited. -/
def configured (cfg : Config) : Limits where
  terms := .any
  enter _ n := ∀ other, n = .run other → other = cfg

/-- A reservation is held exactly by the active rows, and is that of the configuration, and the
ledger fits under the threshold. -/
structure Db.Reserved (cfg : Config) (db : Db) : Prop where
  held : ∀ oid o, db.obs? oid = some o → 0 < o.reservedBytes → o.state.Active
  full : ∀ oid o, db.obs? oid = some o → o.state.Active →
    o.reservedBytes = cfg.observationReservation
  fits : db.used + db.reserved ≤ cfg.storageThreshold

namespace Db.Reserved

variable {db db' : Db}

theorem congr (h : db.Reserved cfg) (hobs : db'.observations = db.observations) :
    db'.Reserved cfg where
  held oid o ho := h.held oid o (by rwa [obs?_congr hobs] at ho)
  full oid o ho := h.full oid o (by rwa [obs?_congr hobs] at ho)
  fits := by simpa [Db.used, Db.reserved, hobs] using h.fits

theorem obsStep (h : db.Reserved cfg) (ids : db.Ids) {o o' : Observation}
    (step : ObsStep db db' o o') (hheld : 0 < o'.reservedBytes → o'.state.Active)
    (hfull : o'.state.Active → o'.reservedBytes = cfg.observationReservation)
    (hcount : usedBy o' + reservedBy o' ≤ usedBy o + reservedBy o) : db'.Reserved cfg where
  held i x hx := by
    rw [step.obs?] at hx
    split at hx
    · cases hx
      exact hheld
    · exact h.held i x hx
  full i x hx := by
    rw [step.obs?] at hx
    split at hx
    · cases hx
      exact hfull
    · exact h.full i x hx
  fits := by
    have hused := step.sum ids usedBy
    have hreserved := step.sum ids reservedBy
    have hfits := h.fits
    unfold Db.used Db.reserved at *
    omega

theorem obsAdded (h : db.Reserved cfg) (ids : db.Ids) {o : Observation}
    (step : ObsAdded db db' o) (hstate : o.state = .planned)
    (hreserved : o.reservedBytes = cfg.observationReservation)
    (hroom : db.used + db.reserved + o.reservedBytes ≤ cfg.storageThreshold) :
    db'.Reserved cfg where
  held i x hx hpos := by
    rw [step.obs? ids] at hx
    split at hx
    · cases hx
      exact .inl hstate
    · exact h.held i x hx hpos
  full i x hx hactive := by
    rw [step.obs? ids] at hx
    split at hx
    · cases hx
      exact hreserved
    · exact h.full i x hx hactive
  fits := by
    have hused : db'.used = db.used := by
      simp [Db.used, step.rows, usedBy, hstate, countsUsed]
    have hsum : db'.reserved = db.reserved + o.reservedBytes := by
      simp [Db.reserved, step.rows, reservedBy, hstate, countsReserved]
    omega

end Db.Reserved

/-- The ledger under a running controller of this configuration. -/
def Reserving (cfg : Config) (s : Shared) : Prop :=
  s.db.Reserved cfg ∧ (s.ctl.up = true → s.ctl.cfg = cfg)

theorem ObsMove.reserved {o o' : Observation} {db' : Db} (hinv : Inv T s)
    (habort : cfg.reservationOverrunAction = .abort) (h : Reserving cfg s)
    (step : Db.ObsStep s.db db' o o') (move : ObsMove T r s o o') : db'.Reserved cfg := by
  have hheld := h.1.held o'.id o step.found
  have hfull := h.1.full o'.id o step.found
  -- a row that is not active any more: it has given its reservation back
  have hclosed : ¬ o'.state.Active → o'.reservedBytes = 0 →
      Db.usedBy o' ≤ Db.usedBy o + Db.reservedBy o → db'.Reserved cfg := by
    intro hactive hzero hused
    refine h.1.obsStep hinv.db.ids step (fun hpos => by omega) (fun ha => absurd ha hactive) ?_
    have hreserved : Db.reservedBy o' = 0 := by simp [Db.reservedBy, hzero]
    omega
  have hidle : ¬ o.state.Active → o.reservedBytes = 0 := fun hno =>
    Nat.eq_zero_of_not_pos fun hpos => hno (hheld hpos)
  simp only [ObservationState.Active] at hheld hfull hclosed hidle
  cases move with
  | note role state size reserved =>
    refine h.1.obsStep hinv.db.ids step ?_ ?_ ?_
    · rw [state, reserved]
      exact hheld
    · rw [state, reserved]
      exact hfull
    · simp [Db.usedBy, Db.reservedBy, state, size, reserved]
  | claim task role owns before after size reserved =>
    refine h.1.obsStep hinv.db.ids step (fun _ => .inr after) (fun _ => ?_) ?_
    · rw [reserved]
      exact hfull (.inl before)
    · simp [Db.usedBy, Db.reservedBy, Db.countsUsed, Db.countsReserved, before, after, reserved]
  | abandon task role owns before after size reserved =>
    exact hclosed (by simp [after]) reserved (by simp [Db.usedBy, Db.countsUsed, after])
  | fail holder writer before after size reserved gone =>
    exact hclosed (by simp [after]) reserved (by simp [Db.usedBy, Db.countsUsed, after])
  | complete task role owns writer before after reserved bounded weighed =>
    -- the measured size is swapped for the reservation, which is no smaller
    have hcfg := h.2 (owns.up hinv.tasks)
    have hsize := bounded (hcfg ▸ habort)
    have hbooked := hfull (.inr before)
    rw [hcfg] at hsize
    refine hclosed (by simp [after]) reserved ?_
    simp only [Db.usedBy, Db.reservedBy, Db.countsUsed, Db.countsReserved, before, after]
    simp
    omega
  | repair role before after size reserved released =>
    refine hclosed (by simp [after]) (reserved.trans (hidle (by simp [before]))) ?_
    simp [Db.usedBy, Db.countsUsed, before, after, size]
  | miss role before after size reserved gone =>
    exact hclosed (by simp [after]) reserved (by simp [Db.usedBy, size])
  | delete role before after size reserved warrant gone =>
    exact hclosed (by simp [after]) reserved (by simp [Db.usedBy, size])

theorem DbMove.reserved {db' : Db} (hinv : Inv T s)
    (habort : cfg.reservationOverrunAction = .abort) (h : Reserving cfg s)
    (hup : r ≠ .cli → s.ctl.up = true) (move : DbMove T r s db') : db'.Reserved cfg := by
  cases move with
  | events observations => exact h.1.congr observations
  | obs step move => exact move.reserved hinv habort h step
  | run step move => exact h.1.congr step.observations
  | marked role step => exact h.1.congr step.observations
  | admitted step state path size admits =>
    have hcfg := h.2 (hup (by simp [admits.role]))
    have hledger := admits.ledger
    rw [hcfg] at hledger
    exact h.1.obsAdded hinv.db.ids step state (hcfg ▸ admits.reservation) hledger
  | created step attempt creates => exact h.1.congr step.observations
  | @released _ oid q q' o role step =>
    obtain ⟨mid, hrun, hobs⟩ := step.steps
    have hmid : mid.Reserved cfg := h.1.congr hrun.observations
    have hzero : o.reservedBytes = 0 := Nat.eq_zero_of_not_pos fun hpos => by
      rcases hmid.held _ o hobs.found hpos with hs | hs <;> simp [step.stored] at hs
    refine hmid.obsStep (hrun.ids step.ids) hobs (fun hpos => by simp [hzero] at hpos) ?_ ?_
    · rintro (hs | hs) <;> cases hs
    · simp [Db.usedBy, Db.reservedBy, Db.countsUsed, Db.countsReserved, step.stored]
  | reprocessed role step added =>
    exact (h.1.congr step.observations).congr added.observations

theorem reserving_keeps (habort : cfg.reservationOverrunAction = .abort) :
    (configured cfg).Keeps (Reserving cfg) where
  start := ⟨⟨by simp [initial, Db.empty, Db.obs?], by simp [initial, Db.empty, Db.obs?],
    by simp [initial, Db.empty, Db.used, Db.reserved]⟩, by simp [initial]⟩
  op hinv h hup hallowed _ _ hexec := by
    have step := exec_step hinv hallowed hexec
    refine ⟨?_, by rw [step.up, step.cfg]; exact h.2⟩
    cases step with
    | db move => exact move.reserved hinv habort h hup
    | remove | prune => simpa using h.1
    | _ => exact h.1
  env hinv h _ _ henv := by
    have hmove := env_move henv
    exact ⟨hmove.db ▸ h.1, by rw [hmove.ctl]; exact h.2⟩
  enter {r n s s'} hinv h hcfg henter := by
    cases enter_cases henter with
    | boot => exact ⟨h.1, fun _ => hcfg _ rfl⟩
    | resolve | command => exact h
  down _ h := ⟨h.1, by simp [down]⟩

/-- In every reachable state the ledger fits under the threshold, and only planned and observing
rows hold a reservation: an admission adds its reservation only while it fits, and every later
step of a row keeps or lowers what it is charged. -/
theorem logical_storage_bounded (habort : cfg.reservationOverrunAction = .abort)
    {w : World Op.Reply Exn Shared Role Entry} (h : (configured cfg).Reach w) :
    w.shared.db.logicalStorage.1 + w.shared.db.logicalStorage.2 ≤ cfg.storageThreshold ∧
      ∀ o ∈ w.shared.db.observations, 0 < o.reservedBytes →
        o.state = .planned ∨ o.state = .observing := by
  have hreserved := (h.keeps (reserving_keeps habort)).1
  refine ⟨?_, fun o ho hpos => hreserved.held o.id o (h.inv.db.ids.obs? ho) hpos⟩
  rw [Db.logicalStorage_eq]
  exact hreserved.fits

/-- While the first runner writes, nothing is counted as used and its whole reservation of sixty
bytes is held, under a threshold of a hundred. -/
theorem logical_storage_bounded_first : ∃ w, (configured smallConfig).Reach w ∧
    w.shared.db.logicalStorage = (0, 60) ∧
    w.shared.db.logicalStorage.1 + w.shared.db.logicalStorage.2 ≤ 100 := by
  obtain ⟨w, hreach, htest⟩ := (configured smallConfig).reach_of_replay harmless
    (fun w l h => harmless_ok h (fun _ _ _ => trivial) (fun _ _ _ _ _ => trivial)
      fun _ _ hcfg => hcfg)
    firstObservation (fun w => decide (w.shared.db.logicalStorage = (0, 60))) (by decide +kernel)
  exact ⟨w, hreach, of_decide_eq_true htest, (logical_storage_bounded rfl hreach).1⟩

end Sdpctl
