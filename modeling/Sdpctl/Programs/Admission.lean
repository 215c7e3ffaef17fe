import Sdpctl.Programs.Sizing
import Sdpctl.Discipline.Ledger

/-!
`can_admit`, verified: what it read separately, the ledger and a possibly cached
walk over quarantine and trash, still bounds everything when it answers.
-/

namespace Sdpctl

open FileTree Coop

variable {T : Terms} {P : Shared → Prop}

theorem noActive_firm : Firm T .main NoActive := by
  intro s s' _ hq _ _ hnone oid o' ho' hactive
  have hquiet := (hq (by simp)).db
  cases hrow : s.db.obs? oid with
  | none => simp [hquiet.absent oid hrow] at ho'
  | some o =>
    rcases hquiet.steady oid o hrow with hsame | ⟨_, x, hx, hs, _⟩
    · rw [hsame] at ho'
      cases ho'
      exact hnone oid o' hrow hactive
    · rw [hx] at ho'
      cases ho'
      rcases hs with hs | hs <;> simp [ObservationState.Active, hs] at hactive

/-- There are fewer rows than the campaign may have. -/
def Capacity (cfg : Config) (s : Shared) : Prop :=
  ∀ n, cfg.maxObservations = some n → s.db.observations.length < n

theorem capacity_firm (cfg : Config) : Firm T .main (Capacity cfg) := by
  intro s s' _ hq _ hinv' hcapacity n hn
  exact Nat.lt_of_le_of_lt ((hq (by simp)).db.count hinv'.db.ids) (hcapacity n hn)

def Booked (used reserved : Nat) (s : Shared) : Prop := s.db.used ≤ used ∧ s.db.reserved = reserved

theorem booked_firm (used reserved : Nat) : Firm T .main (Booked used reserved) := by
  rintro s s' _ hq _ _ ⟨hused, hreserved⟩
  have hquiet := (hq (by simp)).db
  exact ⟨Nat.le_trans hquiet.used hused, hquiet.reserved.trans hreserved⟩

theorem Quiet.quarantine_le {s s' : Shared} (h : Quiet T s s') (hinv : Inv T s)
    (hinv' : Inv T s') : s'.disk.bytesAt quarantineRoot ≤ s.disk.bytesAt quarantineRoot :=
  h.shrunk.bytes_le hinv.disk.quarantine hinv'.disk.quarantine hinv.disk.wf hinv'.disk.wf

/-- A modification time of the quarantine that was read: a cache entry that bears
it still bounds the bytes. -/
def Signed (t : Int) (s : Shared) : Prop :=
  t ≤ s.disk.mtime quarantineRoot ∧
    ∀ e, s.ctl.cache = some e → e.1.1 = t → s.disk.bytesAt quarantineRoot ≤ e.2.1

theorem signed_firm (t : Int) : Firm T .main (Signed t) := by
  rintro s s' _ hq hinv hinv' ⟨htime, hcache⟩
  have hquiet := hq (by simp)
  refine ⟨Int.le_trans htime (Int.ofNat_le.mpr hquiet.mtime), fun e he heq => ?_⟩
  rw [hquiet.ctl] at he
  exact Nat.le_trans (hquiet.quarantine_le hinv hinv') (hcache e he heq)

theorem signed_now {s : Shared} (hinv : Inv T s) :
    Signed (s.disk.mtime quarantineRoot : Int) s :=
  ⟨Int.le_refl _, fun e he heq => (hinv.cache e he).2 heq⟩

theorem quarantine_exists {s : Shared} (hinv : Inv T s) : s.disk.has quarantineRoot = true := by
  obtain ⟨i, es, hes⟩ := hinv.disk.quarantine
  exact Disk.has_iff.mpr ⟨_, hes⟩

theorem mtimeOrMissing_rule (p : Path) (hfirm : Firm T .main P) :
    Verified T .main P (mtimeOrMissing p) (fun _ => P) (fun _ _ => True) := by
  refine .bind ((exists_rule p hfirm).exc fun _ _ _ _ => trivial) fun b => .ite (fun _ => ?_)
    fun _ => .pure fun _ _ h => h.1
  exact .bind (((statMtime_rule p hfirm).pre fun _ _ h => h.1).exc fun _ _ _ _ => trivial)
    fun t => .pure fun _ _ h => h.1

theorem mtimeOrMissing_quarantine (hfirm : Firm T .main P) :
    Verified T .main P (mtimeOrMissing quarantineRoot) (fun t s => P s ∧ Signed t s)
      (fun _ _ => True) := by
  refine .bind ((exists_rule quarantineRoot hfirm).exc fun _ _ _ _ => trivial) fun b =>
    .ite (fun _ => ?_) fun hb => .pure fun s hinv h => ?_
  · refine .bind (((statMtime_rule quarantineRoot hfirm).pre fun _ _ h => h.1).exc
      fun _ _ _ _ => trivial) fun t => .pure fun s hinv h => ⟨h.1, ?_⟩
    rw [h.2]
    exact signed_now hinv
  · exact absurd ((quarantine_exists hinv).symm.trans h.2).symm hb

/-- `_mtime_signature`. -/
theorem mtimeSignature_rule (hfirm : Firm T .main P) :
    Verified T .main P mtimeSignature (fun sig s => P s ∧ Signed sig.1 s) (fun _ _ => True) :=
  .bind (mtimeOrMissing_quarantine hfirm) fun q =>
    .bind (mtimeOrMissing_rule trashRoot (hfirm.and (signed_firm q))) fun _ =>
      .pure fun _ _ h => h

theorem cachePut_rule {entry : AuxCache} {E : Exn → Shared → Prop} (hfirm : Firm T .main P)
    (hok : ∀ s, Inv T s → P s → CacheOk s.disk entry) {Q : Unit → Shared → Prop}
    (hpost : ∀ s, Inv T s → P s → Q () { s with ctl := { s.ctl with cache := some entry } }) :
    Verified T .main P (call (.cachePut entry)) Q E := by
  refine Logic.Triple.call (hfirm.stable rfl) fun s c hinv h _ =>
    ⟨⟨rfl, hok s hinv h⟩, fun x s' hx _ => ?_⟩
  cases c <;> cases hx
  exact hpost s hinv h

/-- `auxiliary_charged_storage`: the answer bounds the quarantine, from the cache
or from a walk. -/
theorem auxiliaryChargedStorage_rule (hfirm : Firm T .main P) (hblind : Blind P) :
    Verified T .main P (auxiliaryChargedStorage false)
      (fun sizes s => P s ∧ s.disk.bytesAt quarantineRoot ≤ sizes.1) (fun _ _ => True) := by
  refine .bind ((resolve_rule [] hfirm).exc fun _ _ _ _ => trivial) fun _ => ?_
  refine .bind ((mtimeSignature_rule hfirm).pre fun _ _ h => h.1) fun sig => ?_
  have hsigned := hfirm.and (signed_firm (T := T) sig.1)
  refine .bind (cacheGet_rule hsigned) fun cached => ?_
  have hwalk : Verified T .main (fun s => P s ∧ Signed sig.1 s) (do
      let q ← apparentSize quarantineRoot
      let t ← apparentSize trashRoot
      call (.cachePut (sig, (q, t)))
      return (q, t))
      (fun sizes s => P s ∧ s.disk.bytesAt quarantineRoot ≤ sizes.1) (fun _ _ => True) := by
    refine .bind ((apparentSize_quarantine (by simp) hsigned).exc fun _ _ _ _ => trivial)
      fun q => ?_
    have hcounted := hsigned.and (quarantineBytes_firm (T := T) (r := .main) (by simp) q)
    refine .bind ((apparentSize_rule trashRoot hcounted).exc fun _ _ _ _ => trivial) fun t => ?_
    refine .bind (Q := fun _ s => P s ∧ s.disk.bytesAt quarantineRoot ≤ q)
      (cachePut_rule hcounted ?_ ?_) fun _ => .pure fun _ _ h => h
    · exact fun s _ h => ⟨h.1.2.1, fun _ => h.2⟩
    · exact fun s _ h => ⟨hblind s s.disk _ s.purged h.1.1, h.2⟩
  cases cached with
  | none => exact hwalk.pre fun _ _ h => h.1
  | some entry =>
    obtain ⟨old, sizes⟩ := entry
    refine .ite (fun hhit => .pure fun s _ h => ⟨h.1.1, ?_⟩) fun _ => hwalk.pre fun _ _ h => h.1
    have hcache : s.ctl.cache = some (old, sizes) := by simpa using h.2.symm
    have heq : old = sig := by simpa using hhit
    exact h.1.2.2 _ hcache (congrArg Prod.fst heq)

def Room (cfg : Config) (s : Shared) : Prop :=
  s.db.used + s.db.reserved + s.disk.bytesAt quarantineRoot + cfg.observationReservation
    ≤ cfg.storageThreshold

theorem room_firm (cfg : Config) : Firm T .main (Room cfg) := by
  intro s s' _ hq hinv hinv' hroom
  have hquiet := hq (by simp)
  have hused := hquiet.db.used
  have hreserved := hquiet.db.reserved
  have hbytes := hquiet.quarantine_le hinv hinv'
  unfold Room at *
  omega

theorem booked_blind (used reserved : Nat) : Blind (Booked used reserved) := fun _ _ _ _ h => h

/-- `can_admit`. -/
theorem canAdmit_rule (cfg : Config) (hfirm : Firm T .main P) (hblind : Blind P) :
    Verified T .main P (canAdmit cfg) (fun b s => P s ∧ (b = true → Room cfg s))
      (fun _ _ => True) := by
  refine .bind ((query_rule .logicalStorage (·.logicalStorage) (fun _ => rfl) (fun _ => trivial)
    hfirm).exc fun _ _ _ _ => trivial) fun sums => ?_
  obtain ⟨used, reserved⟩ := sums
  refine .bind ((auxiliaryChargedStorage_rule (hfirm.and (booked_firm used reserved))
    (hblind.and (booked_blind used reserved))).pre ?_) fun sizes => .pure ?_
  · rintro s _ ⟨hP, hsums⟩
    rw [Db.logicalStorage_eq] at hsums
    cases hsums
    exact ⟨hP, Nat.le_refl _, rfl⟩
  · rintro s _ ⟨⟨hP, hused, hreserved⟩, hbytes⟩
    refine ⟨hP, fun hb => ?_⟩
    have hroom := of_decide_eq_true hb
    unfold Room
    omega

/-- An admission that `can_admit` has allowed. -/
theorem Room.admits {cfg : Config} {s : Shared} (h : Room cfg s) (hinv : Inv T s)
    (hnone : NoActive s) (hcapacity : Capacity cfg s) (hcfg : s.ctl.cfg = cfg) :
    Admits T .main s cfg.observationReservation where
  role := rfl
  none := hnone
  reservation := by rw [hcfg]
  ledger := by
    unfold Room at h
    rw [hcfg]
    omega
  capacity := by
    rw [hcfg]
    exact hcapacity
  physical hthorough := by
    have hraw := raw_le_used hinv hthorough hnone
    unfold Room at h
    rw [Disk.physical_eq, hcfg]
    omega

end Sdpctl
