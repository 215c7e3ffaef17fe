import Sdpctl.Programs.Sizing

/-!
`storage.py`, verified: raw data goes to a free name in quarantine, or through
the trash once it has been released.
-/

namespace Sdpctl

open FileTree Coop

variable {T : Terms} {r : Role} {P : Shared → Prop}

theorem absent_quarantine_firm (hr : r ≠ .cli) (label : String) :
    Firm T r fun s => s.disk.absent (quarantineEntry label) :=
  fun _ _ _ hq _ _ habs => (hq hr).shrunk.absent (q := [label]) habs

theorem absent_of_not {d : Disk} {p : Path} {b : Bool} (h : d.has p = b) (hb : (!b) = true) :
    d.absent p := by
  refine Disk.has_eq_false.mp ?_
  simpa [h] using hb

def FreeTarget (q : Path) (s : Shared) : Prop :=
  ∃ label, q = quarantineEntry label ∧ s.disk.absent (quarantineEntry label)

theorem searchTarget_rule (hfirm : Firm T r P) (label : String) (fuel n : Nat) :
    Verified T r P (searchTarget label fuel n) (fun q s => P s ∧ FreeTarget q s)
      (fun _ s => P s ∧ T ≠ .faultless) := by
  induction fuel generalizing n with
  | zero =>
    refine .bind (Q := fun _ _ => False) ?_ fun _ => .raise fun _ _ h => h.elim
    exact Verified.look rfl hfirm (fun _ _ _ => trivial) fun s c x s' _ _ _ hx => by cases hx
  | succ fuel ih =>
    refine .bind (exists_rule _ hfirm) fun b => .ite (fun hb => .pure fun s _ h => ⟨h.1, ?_⟩)
      fun _ => ?_
    · exact ⟨_, rfl, absent_of_not h.2 hb⟩
    · exact (ih (n + 1)).pre fun s _ h => h.1

theorem uniqueQuarantineTarget_rule (hfirm : Firm T r P) (label : String) :
    Verified T r P (uniqueQuarantineTarget label) (fun q s => P s ∧ FreeTarget q s)
      (fun _ s => P s ∧ T ≠ .faultless) := by
  refine .bind (exists_rule _ hfirm) fun b => .ite (fun hb => .pure fun s _ h => ⟨h.1, ?_⟩)
    fun _ => ?_
  · exact ⟨_, rfl, absent_of_not h.2 hb⟩
  · refine .bind ((entryCount_rule quarantineRoot hfirm).pre fun s _ h => h.1) fun bound => ?_
    exact searchTarget_rule hfirm label bound 1

/-- Whoever may take an entry of `observations/` away. -/
def MayTake (r : Role) (name : String) (s : Shared) : Prop :=
  ∀ oid o, s.db.obs? oid = some o → obsName oid = name →
    o.state = .observing ∧ NoWriter oid s ∧ Holder r oid s

theorem absent_ms_firm (hr : r ≠ .cli) (oid : Nat)
    (hrow : ∀ s, Inv T s → P s → (s.db.obs? oid).isSome ∧ NoWriter oid s) (hfirm : Firm T r P) :
    Firm T r fun s => P s ∧ (T.Calm → s.disk.absent (msPathOf oid)) :=
  fun s s' hon hq hinv hinv' h => ⟨hfirm s s' hon hq hinv hinv' h.1, fun hcalm =>
    (hq hr).absent hcalm oid (hrow s hinv h.1).1 (hrow s hinv h.1).2 (h.2 hcalm)⟩

/-- `quarantine_path`: the source is gone from its place, or an exception left it
there. -/
theorem quarantinePath_rule (hr : r ≠ .cli) {F : Shared → Prop} {name : String} (label : String)
    (hfirm : Firm T r P) (hextra : Firm T r F) (hblind : Blind P)
    (hafter : Firm T r fun s => P s ∧ (T.Calm → s.disk.absent (observationsRoot ++ [name])))
    (hmay : ∀ s, Inv T s → P s → MayTake r name s) :
    Verified T r (fun s => P s ∧ F s) (quarantinePath (observationsRoot ++ [name]) label)
      (fun _ s => P s ∧ (T.Calm → s.disk.absent (observationsRoot ++ [name])))
      (fun _ s => P s ∧ (T ≠ .faultless ∨ F s ∧ s.disk.absent (observationsRoot ++ [name]))) := by
  have hboth := hfirm.and hextra
  refine .bind ((exists_rule _ hboth).exc fun _ _ _ h => ⟨h.1.1, .inl h.2⟩) fun b => ?_
  refine .ite (fun hb => .raise fun s _ h => ⟨h.1.1, .inr ⟨h.1.2, absent_of_not h.2 hb⟩⟩)
    fun _ => ?_
  refine .bind (((uniqueQuarantineTarget_rule hboth label).pre fun s _ h => h.1).exc
    fun _ _ _ h => ⟨h.1.1, .inl h.2⟩) fun q s hinv h => ?_
  obtain ⟨hPF, label', rfl, habs⟩ := h
  have hfree := hextra.and (absent_quarantine_firm hr label')
  refine Logic.Triple.bind ((mkdir_rule (.inl rfl) (hfirm.and hfree)).exc
    fun _ _ _ h => ⟨h.1.1, .inl h.2⟩) (fun _ => ?_) s hinv ⟨hPF.1, hPF.2, habs⟩
  refine .bind ((quarantine_rule hfirm hfree hblind.sturdy fun s hinv hP hF =>
    ⟨hr, hF.2, hmay s hinv hP⟩).exc fun _ _ _ h => ⟨h.1, h.2.imp_right fun h => ⟨h.1.1, h.2⟩⟩)
    fun _ => ?_
  refine .bind (((invalidateAuxiliaryCache_rule hafter ?_).pre fun s _ h => ⟨h.1, fun _ => h.2⟩).exc
    fun _ _ _ h => ⟨h.1.1, .inl h.2⟩) fun _ => .pure fun _ _ h => h
  exact fun s h => ⟨hblind.uncached s h.1, h.2⟩

/-- The role may give the observation up: its runner has ended and it is the holder. -/
def Custody (r : Role) (oid : Nat) (s : Shared) : Prop :=
  s.db.InState oid .observing ∧ NoWriter oid s ∧ Holder r oid s

theorem custody_firm (hr : r ≠ .cli) (oid : Nat) : Firm T r (Custody r oid) := by
  rintro s s' _ hq _ _ ⟨hobs, hno, hholder⟩
  have hquiet := hq hr
  refine ⟨hquiet.observing hobs, hquiet.noWriter hno, ?_⟩
  rcases hholder with ⟨task, hrole, howns⟩ | ⟨hrole, hdead, horphan⟩
  · refine .inl ⟨task, hrole, ?_⟩
    unfold Owns
    rw [hquiet.ctl]
    exact howns
  · exact .inr ⟨hrole, by rw [hquiet.ctl]; exact hdead, hquiet.noOrphan horphan⟩

theorem custody_blind (oid : Nat) : Blind (Custody r oid) := fun _ _ _ _ h => h

theorem Custody.mayTake {oid : Nat} {s : Shared} (h : Custody r oid s) :
    MayTake r (obsName oid) s := by
  intro i o ho hname
  obtain rfl : i = oid := by simpa using hname
  obtain ⟨x, hx, hobs⟩ := h.1
  rw [ho] at hx
  cases hx
  exact ⟨hobs, h.2⟩

theorem Custody.row {oid : Nat} {s : Shared} (h : Custody r oid s) :
    (s.db.obs? oid).isSome ∧ NoWriter oid s := by
  obtain ⟨o, ho, _⟩ := h.1
  exact ⟨by simp [ho], h.2.1⟩

/-- What is kept of an observation that is given up, before and after its data
has left its place. -/
theorem given_firm (hr : r ≠ .cli) (hfirm : Firm T r P) (oid : Nat) : Firm T r fun s =>
    (P s ∧ Custody r oid s) ∧ (T.Calm → s.disk.absent (msPathOf oid)) :=
  absent_ms_firm hr oid (fun _ _ h => h.2.row) (hfirm.and (custody_firm hr oid))

theorem thorough_firm (hr : r ≠ .cli) (hfirm : Firm T r P) (oid : Nat) : Firm T r fun s =>
    (P s ∧ Custody r oid s) ∧ (T.Thorough → s.disk.absent (msPathOf oid)) := by
  rintro s s' hon hq hinv hinv' ⟨hboth, habs⟩
  refine ⟨hfirm.and (custody_firm hr oid) s s' hon hq hinv hinv' hboth, fun hthorough => ?_⟩
  exact (hq hr).absent hthorough.calm oid hboth.2.row.1 hboth.2.row.2 (habs hthorough)

/-- While nobody may touch it, what stands at the path of the observation stays. -/
theorem standing_firm (hr : r ≠ .cli) (oid : Nat) : Firm T r fun s =>
    Custody r oid s ∧ (T.Calm → s.disk.has (msPathOf oid)) := by
  rintro s s' hon hq hinv hinv' ⟨hcustody, hhas⟩
  refine ⟨custody_firm hr oid s s' hon hq hinv hinv' hcustody, fun hcalm => ?_⟩
  have hsame := (hq hr).frozen hcalm oid hcustody.1 hcustody.2.1
  have hbefore := hhas hcalm
  unfold Disk.has at hbefore ⊢
  rwa [hsame]

section Partial

variable (hr : r ≠ .cli) (hfirm : Firm T r P) (hblind : Blind P) (oid : Nat) (label : String)
include hr hfirm hblind

/-- `if ms_path.exists(): quarantine_path(...)`, for an observation in custody. -/
theorem quarantineIfExists_rule :
    Verified T r (fun s => P s ∧ Custody r oid s) (quarantineIfExists (msPathOf oid) label)
      (fun _ s => (P s ∧ Custody r oid s) ∧ (T.Thorough → s.disk.absent (msPathOf oid)))
      (fun _ s => P s ∧ Custody r oid s) := by
  have hboth := hfirm.and (custody_firm (T := T) hr oid)
  refine .bind ((exists_rule _ hboth).exc fun _ _ _ h => h.1) fun b => .ite (fun _ => ?_)
    fun hb => .pure fun s _ h => ⟨h.1, fun _ => absent_of_not h.2 (by simpa using hb)⟩
  refine .bind (((quarantinePath_rule (F := fun _ => True) hr label hboth (.const True)
    (hblind.and (custody_blind oid)) (given_firm hr hfirm oid)
    fun s _ h => h.2.mayTake).pre fun s _ h => ⟨h.1, trivial⟩).exc fun _ _ _ h => h.1) fun _ => ?_
  exact .pure fun _ _ h => ⟨h.1, fun hthorough => h.2 hthorough.calm⟩

/-- `with suppress(Exception): quarantine_path(...)`. An exception is swallowed
only where the terms let it happen. -/
theorem quarantineSuppressed_rule :
    Verified T r (fun s => P s ∧ Custody r oid s) (quarantineSuppressed (msPathOf oid) label)
      (fun _ s => (P s ∧ Custody r oid s) ∧ (T.Thorough → s.disk.absent (msPathOf oid)))
      (fun _ s => P s ∧ Custody r oid s) := by
  have hboth := hfirm.and (custody_firm (T := T) hr oid)
  refine .bind ((exists_rule _ hboth).exc fun _ _ _ h => h.1) fun b => .ite (fun hb => ?_)
    fun hb => .pure fun s _ h => ⟨h.1, fun _ => absent_of_not h.2 (by simpa using hb)⟩
  refine .catchAll (E := fun _ s => (P s ∧ Custody r oid s) ∧ T ≠ .faultless)
    (.bind (((quarantinePath_rule hr label hboth (standing_firm hr oid)
      (hblind.and (custody_blind oid)) (given_firm hr hfirm oid)
      fun s _ h => h.2.mayTake).pre fun s _ h => ⟨h.1, h.1.2, fun _ => h.2.trans hb⟩).exc
        fun _ s _ h => ⟨h.1, ?_⟩) fun _ => .pure fun _ _ h =>
          ⟨h.1, fun hthorough => h.2 hthorough.calm⟩) fun e => ?_
  · rcases h.2 with hT | ⟨⟨_, hhas⟩, habs⟩
    · exact hT
    · rintro rfl
      have hno : s.disk.has (msPathOf oid) = false := Disk.has_eq_false.mpr habs
      simp [hhas (by simp [Terms.Calm])] at hno
  · refine Verified.look rfl (hboth.and (.const _)) (fun _ _ h => h.2) fun s c x s' _ h hok hx => ?_
    cases c <;> cases hx
    refine ⟨rfl, h.1, ?_⟩
    rintro (rfl | rfl)
    · exact hok.1 rfl _ e rfl
    · exact absurd rfl h.2

end Partial

theorem fail_rule (hr : r ≠ .cli) (hfirm : Firm T r P) (oid : Nat) {reason : String}
    {error : Option String} {Q : Unit → Shared → Prop} {E : Exn → Shared → Prop}
    (hok : ∀ s db o o', Inv T s → P s → Custody r oid s → o.id = oid → o'.state = .observeFailed →
      Db.ObsStep s.db db o o' → Q () { s with db })
    (herr : ∀ s e, Inv T s → P s → Custody r oid s → e = .sqliteError → E e s) :
    Verified T r (fun s => (P s ∧ Custody r oid s) ∧ (T.Thorough → s.disk.absent (msPathOf oid)))
      (store (.transitionObservation oid .observing .observeFailed reason none (some 0) error))
      Q E := by
  refine transitionObservation_rule (by decide) (thorough_firm hr hfirm oid) ?_ ?_ ?_
  · rintro s hinv ⟨⟨_, hcustody⟩, hgone⟩ o ho hstate
    have hid := (Db.mem_of_obs? ho).2
    exact .fail (hid ▸ hcustody.2.2) (hid ▸ hcustody.2.1) hstate rfl rfl rfl (hid ▸ hgone)
  · rintro s db o hinv ⟨⟨hP, hcustody⟩, _⟩ hid _ step
    exact hok s db o _ hinv hP hcustody hid rfl step
  · rintro s e hinv ⟨⟨hP, hcustody⟩, _⟩ (he | ⟨_, hno⟩)
    · exact herr s e hinv hP hcustody he
    · obtain ⟨o, ho, hstate⟩ := hcustody.1
      exact absurd hstate (hno o ho)

theorem runKept_lasting (rid : Nat) (run : ProcessingRun) : Lasting T fun s =>
    ∃ q, s.db.run? rid = some q ∧ q.observationId = run.observationId ∧
      q.attempt = run.attempt := by
  rintro s s' hon ⟨q, hq, howner, hattempt⟩
  obtain ⟨q', hq', howner', hattempt'⟩ := hon.db.runs rid q hq
  exact ⟨q', hq', howner'.trans howner, hattempt'.trans hattempt⟩

theorem givenUp_lasting (oid : Nat) : Lasting T fun s => GivenUp r s oid := by
  rintro s s' hon ⟨hrole, ⟨o, ho, hclosing⟩, hwarrant⟩
  obtain ⟨o', ho', hclosing'⟩ := hon.db.rows oid o ho
  refine ⟨hrole, ⟨o', ho', hclosing' hclosing⟩, ?_⟩
  exact hwarrant.imp (hon.db.released oid) fun h => hon.dropped h

theorem givenUp_ms_lasting (oid : Nat) :
    Lasting T fun s => GivenUp r s oid ∧ (T.Calm → s.disk.absent (msPathOf oid)) := by
  rintro s s' hon ⟨hgiven, hms⟩
  obtain ⟨o, ho, hclosing⟩ := hgiven.closing
  exact ⟨givenUp_lasting oid s s' hon hgiven,
    fun hcalm => hon.ms hcalm oid o ho hclosing (hms hcalm)⟩

theorem givenUp_gone_lasting (oid : Nat) : Lasting T fun s => GivenUp r s oid ∧
    (T.Calm → s.disk.absent (msPathOf oid) ∧ s.disk.absent (trashPath oid)) := by
  rintro s s' hon ⟨hgiven, hgone⟩
  obtain ⟨o, ho, hclosing⟩ := hgiven.closing
  exact ⟨givenUp_lasting oid s s' hon hgiven, fun hcalm =>
    ⟨hon.ms hcalm oid o ho hclosing (hgone hcalm).1,
      hon.trash hcalm oid o ho hclosing (hgone hcalm).1 (hgone hcalm).2⟩⟩

/-- `_remove_tree`. -/
theorem removeTree_rule {p : Path} (hfirm : Firm T r P) (hkeep : Sturdy T r P)
    (hmay : ∀ s, Inv T s → P s → Removable r s p) :
    Verified T r P (removeTree p) (fun _ s => P s ∧ Gone p s) (fun _ => P) := by
  refine .bind ((isDir_rule p hfirm).exc fun _ _ _ h => h.1) fun b => .ite (fun _ => ?_) fun _ => ?_
  · exact (rmtree_rule hfirm hkeep hmay).pre fun s _ h => h.1
  · exact (unlink_rule hfirm hkeep hmay).pre fun s _ h => h.1

/-- `if p.exists(): _remove_tree(p)`. -/
theorem removeIfExists_rule {p : Path} (hfirm : Firm T r P) (hkeep : Sturdy T r P)
    (hmay : ∀ s, Inv T s → P s → Removable r s p) :
    Verified T r P (removeIfExists p) (fun _ => P) (fun _ => P) := by
  refine .bind ((exists_rule p hfirm).exc fun _ _ _ h => h.1) fun b => .ite (fun _ => ?_)
    fun _ => .pure fun s _ h => h.1
  exact ((rmtree_rule hfirm hkeep hmay).pre fun s _ h => h.1).post fun _ _ _ h => h.1

section Deletion

variable (hframe : Frame T r P) (oid : Nat)
include hframe

theorem moveLiveToTrash_rule :
    Verified T r (fun s => P s ∧ GivenUp r s oid)
      (moveLiveToTrash oid (msPathOf oid) (trashPath oid))
      (fun _ s => P s ∧ GivenUp r s oid ∧ (T.Calm → s.disk.absent (msPathOf oid)))
      (fun _ => P) := by
  have hlast := givenUp_lasting (T := T) (r := r) oid
  have hms := givenUp_ms_lasting (T := T) (r := r) oid
  have hfirm := hframe.firm.and hlast.firm
  refine .bind ((exists_rule _ hfirm).exc fun _ _ _ h => h.1.1) fun b => .ite (fun _ => ?_)
    fun hb => .pure fun s _ h => ⟨h.1.1, h.1.2, fun _ => absent_of_not h.2 (by simpa using hb)⟩
  refine .bind (((exists_rule _ hfirm).pre fun s _ h => h.1).exc fun _ _ _ h => h.1.1)
    fun b' => .ite (fun _ => .raise fun _ _ h => h.1.1) fun _ => ?_
  refine .bind (((trash_rule hfirm (hframe.blind.sturdy.and hlast.sturdy) fun _ _ h => h.2).pre
    fun s _ h => h.1).exc fun _ _ _ h => h.1) fun _ => ?_
  exact ((invalidateAuxiliaryCache_rule (hframe.firm.and hms.firm)
    (hframe.blind.uncached.and hms.uncached)).pre fun s _ h =>
      ⟨h.1.1, h.1.2, fun _ => h.2⟩).exc fun _ _ _ h => h.1.1

theorem emptyTrash_rule :
    Verified T r (fun s => P s ∧ GivenUp r s oid ∧ (T.Calm → s.disk.absent (msPathOf oid)))
      (emptyTrash (trashPath oid))
      (fun _ s => P s ∧ GivenUp r s oid ∧
        (T.Calm → s.disk.absent (msPathOf oid) ∧ s.disk.absent (trashPath oid)))
      (fun _ => P) := by
  have hms := givenUp_ms_lasting (T := T) (r := r) oid
  have hgone := givenUp_gone_lasting (T := T) (r := r) oid
  have hfirm := hframe.firm.and hms.firm
  refine .bind ((exists_rule _ hfirm).exc fun _ _ _ h => h.1.1) fun b => .ite (fun _ => ?_)
    fun hb => .pure fun s _ h => ⟨h.1.1, h.1.2.1, fun hcalm =>
      ⟨h.1.2.2 hcalm, absent_of_not h.2 (by simpa using hb)⟩⟩
  refine .bind (((removeTree_rule hfirm (hframe.blind.sturdy.and hms.sturdy)
    fun _ _ h => .raw oid h.2.1 (.inr rfl)).pre fun s _ h => h.1).exc fun _ _ _ h => h.1)
    fun _ => ?_
  refine ((invalidateAuxiliaryCache_rule (hframe.firm.and hgone.firm)
    (hframe.blind.uncached.and hgone.uncached)).pre fun s _ h =>
      ⟨h.1.1, h.1.2.1, fun hcalm => ⟨h.1.2.2 hcalm, ?_⟩⟩).exc fun _ _ _ h => h.1.1
  exact h.2 "trash" (by simp [layout]) (obsName oid) rfl

theorem deleted_rule {expected : ObservationState} {reason : String} {error : Option String}
    (hexpected : expected = .deleting ∨ expected = .inconsistent) :
    Verified T r (fun s => P s ∧ GivenUp r s oid ∧
        (T.Calm → s.disk.absent (msPathOf oid) ∧ s.disk.absent (trashPath oid)))
      (store (.transitionObservation oid expected .deleted reason (some 0) (some 0) error))
      (fun _ => P) (fun _ => P) := by
  refine change_rule _ (hframe.firm.and (givenUp_gone_lasting oid).firm) ?_
    (fun s _ db _ h _ _ => hframe.db db h.1) fun _ _ _ h _ => h.1
  rintro s hinv ⟨_, hgiven, hgone⟩ o ho hstate
  have hid := (Db.mem_of_obs? ho).2
  refine .delete hgiven.role (hstate ▸ hexpected) rfl rfl rfl ?_ ?_
  · exact hid ▸ hgiven.warrant
  · exact hid ▸ hgone

/-- `finish_observation_deletion`, by a command or by the main coroutine. -/
theorem finishObservationDeletion_rule (hr : r = .main ∨ r = .cli) :
    Verified T r P (finishObservationDeletion oid) (fun _ => P) (fun _ => P) := by
  refine .bind (getObservation_rule oid hframe.firm) fun obs =>
    .ite (fun _ => .raise fun _ _ h => h.1) fun hstate => ?_
  rintro s hinv ⟨hP, ho⟩
  have hdeleting : obs.state = .deleting := Decidable.not_not.mp hstate
  have hgiven : GivenUp r s oid :=
    ⟨hr, ⟨obs, ho, .inl hdeleting⟩, .inl (hinv.db.deleting oid obs ho hdeleting)⟩
  have hid : obs.id = oid := (Db.mem_of_obs? ho).2
  rw [hinv.db.msPath oid obs ho, hid]
  have hfirm := hframe.firm.and (givenUp_lasting (r := r) oid).firm
  refine Logic.Triple.bind ((mkdir_rule (.inr rfl) hfirm).exc fun _ _ _ h => h.1.1)
    (fun _ => ?_) s hinv ⟨hP, hgiven⟩
  refine .bind (moveLiveToTrash_rule hframe oid) fun _ => ?_
  refine .bind (emptyTrash_rule hframe oid) fun _ => ?_
  exact deleted_rule hframe oid (.inl rfl)

end Deletion

theorem dropCopy_rule {p : Path} (hfirm : Firm T r P) (hkeep : Sturdy T r P)
    (hmay : ∀ s, Inv T s → P s → Removable r s p) :
    Verified T r P (dropCopy p) (fun _ s => P s ∧ Gone p s) (fun _ => P) := by
  refine .bind ((exists_rule p hfirm).exc fun _ _ _ h => h.1) fun b => .ite (fun _ => ?_)
    fun hb => .pure fun s _ h => ⟨h.1, fun _ _ _ _ => absent_of_not h.2 (by simpa using hb)⟩
  exact (removeTree_rule hfirm hkeep hmay).pre fun s _ h => h.1

/-- `force_drop_observation_data`, for an observation that the operator named. -/
theorem forceDropObservationData_rule (oid : Nat) (reason : String) :
    Verified T .cli (fun s => oid ∈ s.dropped) (forceDropObservationData oid reason)
      (fun _ _ => True) (fun _ _ => True) := by
  have hdropped : Lasting T fun s => oid ∈ s.dropped := fun _ _ hon h => hon.dropped h
  refine .bind ((getObservation_rule oid hdropped.firm).exc fun _ _ _ _ => trivial) fun obs =>
    .ite (fun _ => .raise fun _ _ _ => trivial) fun hstate => ?_
  rintro s hinv ⟨hmem, ho⟩
  have hclosing : obs.state = .deleting ∨ obs.state = .inconsistent := by
    by_contra hno
    exact hstate (not_or.mp hno)
  have hgiven : GivenUp .cli s oid :=
    ⟨.inr rfl, ⟨obs, ho, hclosing.imp id .inr⟩, .inr hmem⟩
  have hid : obs.id = oid := (Db.mem_of_obs? ho).2
  have hlast := givenUp_lasting (T := T) (r := .cli) oid
  have hms := givenUp_ms_lasting (T := T) (r := .cli) oid
  have hgone := givenUp_gone_lasting (T := T) (r := .cli) oid
  rw [hinv.db.msPath oid obs ho, hid]
  have hloop : Verified T .cli (fun s => GivenUp .cli s oid)
      (Prog.forEach [msPathOf oid, trashPath oid] dropCopy)
      (fun _ s => GivenUp .cli s oid ∧
        (T.Calm → s.disk.absent (msPathOf oid) ∧ s.disk.absent (trashPath oid)))
      (fun _ _ => True) := by
    refine .bind (Q := fun _ s => GivenUp .cli s oid ∧ (T.Calm → s.disk.absent (msPathOf oid)))
      ((dropCopy_rule hlast.firm hlast.sturdy fun _ _ h => .raw oid h (.inl rfl)).conseq
        (fun _ _ h => h) (fun _ s _ h => ⟨h.1, fun _ => ?_⟩) fun _ _ _ _ => trivial) fun _ => ?_
    · exact h.2 "observations" (by simp [layout]) (obsName oid) rfl
    · refine .bind ((dropCopy_rule hms.firm hms.sturdy fun _ _ h => .raw oid h.1 (.inr rfl)).exc
        fun _ _ _ _ => trivial) fun _ => .pure fun s _ h => ⟨h.1.1, fun hcalm => ⟨h.1.2 hcalm, ?_⟩⟩
      exact h.2 "trash" (by simp [layout]) (obsName oid) rfl
  refine Logic.Triple.bind hloop (fun _ => ?_) s hinv hgiven
  refine .bind ((invalidateAuxiliaryCache_rule hgone.firm hgone.uncached).exc
    fun _ _ _ _ => trivial) fun _ => ?_
  exact (deleted_rule (Frame.none T .cli) oid hclosing).pre fun _ _ h => ⟨trivial, h⟩

end Sdpctl
