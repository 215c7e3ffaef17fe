import Sdpctl.Properties.Reservation

/-!
The physical bound: as long as no runner writes more than its reservation and no
file operation fails, the bytes under `observations/`, `quarantine/` and
`trash/` stay under the threshold. What is on disk is charged with the part of
the reservation that the active runner has not used yet.
-/

namespace Sdpctl

open FileTree Coop

variable {T : Terms} {r : Role} {s s' : Shared} {cfg : Config}

def AllRunning (oid : Nat) (s : Shared) : Prop := ∀ w ∈ s.runners, w.oid = oid → w.running = true

def NeverStarted (oid : Nat) (s : Shared) : Prop := ∀ w ∈ s.runners, w.oid ≠ oid

structure Fits (cfg : Config) (s : Shared) : Prop where
  runs : s.ctl.up = true → s.ctl.cfg = cfg
  bound : s.disk.physical ≤ cfg.storageThreshold
  /-- What an active runner may still write fits too. -/
  slack : ∀ oid o, s.db.obs? oid = some o → o.state.Active → AllRunning oid s →
    s.disk.physical + cfg.observationReservation ≤
      cfg.storageThreshold + s.disk.bytesAt (msPathOf oid)
  unwritten : ∀ oid, NeverStarted oid s → s.disk.absent (msPathOf oid)

theorem RunnersLater.running {rs rs' : List Runner} (h : RunnersLater rs rs') {oid : Nat}
    (hall : ∀ w ∈ rs', w.oid = oid → w.running = true) :
    ∀ w ∈ rs, w.oid = oid → w.running = true := by
  intro w hw hoid
  obtain ⟨i, hi⟩ := List.mem_iff_getElem?.mp hw
  obtain ⟨w', hw', hoid'⟩ := h.get hi
  obtain ⟨v, hv, _, _, hrun, _⟩ := h.each i w' hw'
  rw [hi] at hv
  cases hv
  exact hrun (hall w' (List.mem_of_getElem? hw') (hoid'.trans hoid))

theorem RunnersLater.neverStarted {rs rs' : List Runner} (h : RunnersLater rs rs') {oid : Nat}
    (hnone : ∀ w ∈ rs', w.oid ≠ oid) : ∀ w ∈ rs, w.oid ≠ oid := by
  intro w hw hoid
  obtain ⟨i, hi⟩ := List.mem_iff_getElem?.mp hw
  obtain ⟨w', hw', hoid'⟩ := h.get hi
  exact hnone w' (List.mem_of_getElem? hw') (hoid'.trans hoid)

theorem Step.runners_back (h : Step T r s s') (oid : Nat) :
    (AllRunning oid s' → AllRunning oid s) ∧ (NeverStarted oid s' → NeverStarted oid s) := by
  have hlater : ∀ {t : Shared}, RunnersLater s.runners t.runners →
      (AllRunning oid t → AllRunning oid s) ∧ (NeverStarted oid t → NeverStarted oid s) :=
    fun hl => ⟨hl.running, hl.neverStarted⟩
  cases h with
  | start may =>
    exact ⟨fun hall w hw => hall w (List.mem_append_left _ hw),
      fun hnone w hw => hnone w (List.mem_append_left _ hw)⟩
  | cancel => exact hlater (RunnersLater.setState _ (by simp) (by simp) _)
  | slain => exact hlater (RunnersLater.slain _)
  | remove | prune => exact hlater (by simpa using RunnersLater.refl _)
  | _ => exact hlater (.refl _)

theorem DbMove.active {db' : Db} (hinv : Inv T s) (move : DbMove T r s db') {oid : Nat}
    {o' : Observation} (ho' : db'.obs? oid = some o') (hactive : o'.state.Active) :
    (∃ o, s.db.obs? oid = some o ∧ o.state.Active) ∨
      (Admits T r s o'.reservedBytes ∧ s.db.obs? oid = none) := by
  have hold : db'.obs? oid = s.db.obs? oid → ∃ o, s.db.obs? oid = some o ∧ o.state.Active :=
    fun hsame => ⟨o', hsame.symm.trans ho', hactive⟩
  cases move with
  | events observations => exact .inl (hold (Db.obs?_congr observations oid))
  | @obs _ o x step move =>
    rw [step.obs?] at ho'
    split at ho'
    · rename_i hid
      cases ho'
      refine .inl ⟨o, hid ▸ step.found, ?_⟩
      cases move with
      | note role state => exact state ▸ hactive
      | claim task role owns before => exact .inl before
      | abandon _ _ _ _ after | fail _ _ _ after | complete _ _ _ _ _ after
      | repair _ _ after | miss _ _ after | delete _ _ after =>
        simp [ObservationState.Active, after] at hactive
    · exact .inl ⟨o', ho', hactive⟩
  | run step move => exact .inl (hold (step.obs? oid))
  | marked role step => exact .inl (hold (step.obs? oid))
  | @admitted _ o step state path size admits =>
    rw [step.obs? hinv.db.ids] at ho'
    split at ho'
    · rename_i hid
      cases ho'
      exact .inr ⟨admits, hid ▸ Keyed.find_eq_none_iff.mpr (step.fresh hinv.db.ids)⟩
    · exact .inl ⟨o', ho', hactive⟩
  | created step attempt creates => exact .inl (hold (step.obs? oid))
  | released role step =>
    obtain ⟨mid, hrun, hobs⟩ := step.steps
    rw [hobs.obs?] at ho'
    split at ho'
    · cases ho'
      rcases hactive with hs | hs <;> cases hs
    · exact .inl ⟨o', (hrun.obs? oid).symm.trans ho', hactive⟩
  | reprocessed role step added =>
    exact .inl (hold ((added.obs? oid).trans (step.obs? oid)))

theorem Step.fits (hinv : Inv T s) (hthorough : T.Thorough) (hup : r ≠ .cli → s.ctl.up = true)
    (h : Step T r s s') (hf : Fits cfg s) : Fits cfg s' := by
  have hback := h.runners_back
  have hbytes := (h.bytes_le hinv.disk).2
  have hinv' := h.inv hinv
  have hdisk : s'.db = s.db → Fits cfg s' := by
    intro hdb
    refine ⟨by rw [h.up, h.cfg]; exact hf.runs, Nat.le_trans hbytes hf.bound,
      fun oid o ho hactive hall => ?_, fun oid hnone => ?_⟩
    · rw [hdb] at ho
      have hslack := hf.slack oid o ho hactive ((hback oid).1 hall)
      rcases h.sees hinv.disk ho with ⟨hms, _⟩ | ⟨hclosing, _⟩ | ⟨_, hno, _, habs', _⟩
      · rw [Disk.bytesAt_congr hms]
        omega
      · rcases hclosing with hs | hs | hs <;> simp [ObservationState.Active, hs] at hactive
      · -- nobody has written what is moved away
        have hnone : NeverStarted oid s := fun w hw hoid => by
          have hrun := (hback oid).1 hall w hw hoid
          simp [hno w hw hoid] at hrun
        rw [Disk.bytesAt_of_absent (hf.unwritten oid hnone)] at hslack
        omega
    · have habs := hf.unwritten oid ((hback oid).2 hnone)
      cases hrow : s.db.obs? oid with
      | none => exact (hinv'.disk.absent_of_fresh (hdb ▸ hrow)).1
      | some o =>
        rcases h.sees hinv.disk hrow with ⟨hms, _⟩ | ⟨_, hless⟩ | ⟨_, _, _, habs', _⟩
        · exact hms.trans habs
        · exact hless.ms habs
        · exact habs'
  cases h with
  | @db db' move =>
    refine ⟨hf.runs, hf.bound, fun oid o' ho' hactive hall => ?_, hf.unwritten⟩
    rcases move.active hinv ho' hactive with ⟨o, ho, hbefore⟩ | ⟨admits, hnone⟩
    · exact hf.slack oid o ho hbefore hall
    · have hcfg := hf.runs (hup (by simp [admits.role]))
      have hphysical := admits.physical hthorough
      rw [admits.reservation, hcfg] at hphysical
      exact Nat.le_trans hphysical (Nat.le_add_right _ _)
  | remove | prune => exact hdisk (by simp)
  | _ => exact hdisk rfl

theorem Fits.of_same (hf : Fits cfg s) (hdb : s'.db = s.db) (hctl : s'.ctl = s.ctl)
    (hphysical : s'.disk.physical = s.disk.physical)
    (hms : ∀ oid, s'.disk.get? (msPathOf oid) = s.disk.get? (msPathOf oid))
    (hlater : RunnersLater s.runners s'.runners) : Fits cfg s' where
  runs := by rw [hctl]; exact hf.runs
  bound := hphysical ▸ hf.bound
  slack oid o ho hactive hall := by
    rw [hdb] at ho
    rw [hphysical, Disk.bytesAt_congr (hms oid)]
    exact hf.slack oid o ho hactive (hlater.running hall)
  unwritten oid hnone := (hms oid).trans (hf.unwritten oid (hlater.neverStarted hnone))

theorem Fits.write (hinv : Inv T s) (hf : Fits cfg s) {i : Nat} {w : Runner} {t : Tree}
    (hw : s.runners[i]? = some w) (hrun : w.running = true)
    (hsize : t.bytes ≤ cfg.observationReservation) (hdisk : s'.disk = s.disk.put w.msPath (some t))
    (hdb : s'.db = s.db) (hctl : s'.ctl = s.ctl) (hrunners : s'.runners = s.runners) :
    Fits cfg s' := by
  have hmem := List.mem_of_getElem? hw
  rw [hinv.runners.msPath w hmem] at hdisk
  obtain ⟨o, ho, hobs⟩ := hinv.runners.observing w hmem hrun
  have hactive : o.state.Active := .inr hobs
  -- no other runner was started for the observation
  have hall : AllRunning w.oid s := fun v hv hoid => by
    rw [List.inj_on_of_nodup_map hinv.runners.nodup hv hmem hoid]
    exact hrun
  have hslack := hf.slack w.oid o ho hactive hall
  have hset := hinv.disk.msEntry (obsName w.oid) (some t)
  have hraw : s'.disk.bytesAt observationsRoot + s.disk.bytesAt (msPathOf w.oid) =
      s.disk.bytesAt observationsRoot + t.bytes := by
    rw [hdisk]
    exact hset
  have hquar : s'.disk.bytesAt quarantineRoot = s.disk.bytesAt quarantineRoot := by
    rw [hdisk]
    exact Disk.bytesAt_set_ne (a := "observations") rfl (by decide)
  have htrash : s'.disk.bytesAt trashRoot = s.disk.bytesAt trashRoot := by
    rw [hdisk]
    exact Disk.bytesAt_set_ne (a := "observations") rfl (by decide)
  have hbytes : s'.disk.bytesAt (msPathOf w.oid) = t.bytes := by
    rw [hdisk]
    exact Disk.bytesAt_of_get? (Disk.get?_put_self (p := ["observations"]) hinv.disk.observations)
  simp only [Disk.physical] at hslack
  refine ⟨by rw [hctl]; exact hf.runs, ?_, fun oid p hp hp' _ => ?_, fun oid hnone => ?_⟩
  · simp only [Disk.physical]
    omega
  · -- the observation with the writer is the only active one
    rw [hdb] at hp
    obtain rfl := hinv.db.single oid w.oid p o hp ho hp' hactive
    simp only [Disk.physical]
    omega
  · have hne : w.oid ≠ oid := hnone w (hrunners ▸ hmem)
    rw [hdisk]
    exact (Disk.get?_put_apart _ _ (by simpa [msPathOf] using Ne.symm hne)).trans
      (hf.unwritten oid fun v hv => hnone v (hrunners ▸ hv))

end Sdpctl
