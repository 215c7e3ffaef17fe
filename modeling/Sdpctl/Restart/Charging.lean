import Sdpctl.Restart.Converge

/-!
What becomes of the entries of `observations/` in a restart. The phases go by the
states of the rows, the scan at their end by the paths of the rows; an
observation that is past its use, with data at its path, is passed over by both.
-/

namespace Sdpctl

open FileTree Coop

/-- `logical_storage` counts the size or the reservation, and nobody writes. -/
def ObservationState.charged (st : ObservationState) : Bool :=
  (Db.countsUsed st || Db.countsReserved st) && st != .observing

/-- A tree has come to a new name in quarantine. -/
def Disk.Quarantined (d d' : Disk) (t : Tree) : Prop :=
  ∃ name, d.get? (quarantineEntry name) = none ∧ d'.get? (quarantineEntry name) = some t

def Disk.Retains (d d' : Disk) : Prop :=
  ∀ name t, d.get? (quarantineEntry name) = some t → d'.get? (quarantineEntry name) = some t

namespace Disk

variable {d d' d'' : Disk} {t : Tree}

theorem Retains.trans (h : d.Retains d') (h' : d'.Retains d'') : d.Retains d'' :=
  fun name t ht => h' name t (h name t ht)

theorem Quarantined.after (h : d.Retains d') (h' : d'.Quarantined d'' t) :
    d.Quarantined d'' t := by
  obtain ⟨name, hfree, ht⟩ := h'
  refine ⟨name, ?_, ht⟩
  cases hname : d.get? (quarantineEntry name) with
  | none => rfl
  | some u =>
    have hkept := h name u hname
    rw [hfree] at hkept
    cases hkept

theorem Quarantined.retained (h : d.Quarantined d' t) (h' : d'.Retains d'') :
    d.Quarantined d'' t := by
  obtain ⟨name, hfree, ht⟩ := h
  exact ⟨name, hfree, h' name t ht⟩

end Disk

/-- What has become of an observation and of the data at its path. -/
inductive Course (d d' : Disk) (o o' : Observation) : Prop where
  | same (state : o'.state = o.state) (data : d'.get? o.msPath = d.get? o.msPath)
  | charged (before : o.state.charged = true) (later : o'.state ≠ .observing)
      (after : o'.state.charged = true ∨ d'.get? o.msPath = none)
  | givenUp (before : o.state = .observing) (after : o'.state = .observeFailed)
      (gone : d'.get? o.msPath = none)
      (moved : ∀ t, d.get? o.msPath = some t → d.Quarantined d' t)

/-- What the phases up to now have made of the estate; `todo` are the rows that
may still be interrupted observations. -/
structure Since (first : Estate) (todo : List Nat) (E : Estate) : Prop where
  rows : first.SameRows E
  retains : first.disk.Retains E.disk
  begun : ∀ o ∈ E.observations, o.state = .observing → o.id ∈ todo
  course : ∀ i o o', first.obs? i = some o → E.obs? i = some o' →
    Course first.disk E.disk o o'
  unknown : ∀ n, ["observations", n] ∉ first.observations.map Observation.msPath →
    E.disk.get? ["observations", n] = first.disk.get? ["observations", n]

/-- A mending of charged observations, which stay charged or lose their data. -/
def Mending.Charges (m : Mending) : Prop :=
  m.state.charged = true ∧ ∀ {E : Estate} {o : Observation}, E.Placed → o ∈ E.observations →
    o.state = m.state → (m.row E o).state ≠ .observing ∧
      ((m.row E o).state.charged = true ∨ (m.files E o).get? o.msPath = none)

theorem releasing_charges : releasing.Charges := by
  refine ⟨by decide, fun _ _ hstate => ?_⟩
  simp only [releasing] at hstate ⊢
  split
  · exact ⟨by simp, .inl rfl⟩
  · rw [hstate]
    exact ⟨by simp, .inl (by decide)⟩

theorem deleting_charges : deleting.Charges := by
  refine ⟨by decide, fun {E o} hplaced hmem hstate => ?_⟩
  obtain ⟨n, hn⟩ := hplaced.msPath o hmem
  simp only [deleting] at hstate ⊢
  split
  · rw [hstate]
    exact ⟨by simp, .inl (by decide)⟩
  · rename_i hfree
    refine ⟨by simp, .inr ?_⟩
    rw [Disk.deleted_of_free (by simpa using hfree), Disk.emptied_apart (by simp [hn, trashPath])]
    rw [hn]
    exact Disk.trashed_gone hplaced.stands

theorem verifying_charges : verifying.Charges := by
  refine ⟨by decide, fun _ _ hstate => ?_⟩
  simp only [verifying] at hstate ⊢
  split
  · rw [hstate]
    exact ⟨by simp, .inl (by decide)⟩
  · exact ⟨by simp, .inl rfl⟩

namespace Since

variable {first E F : Estate} {todo : List Nat}

theorem start (E : Estate) : Since E (E.observations.map Observation.id) E where
  rows := .refl E
  retains _ _ h := h
  begun o ho _ := List.mem_map_of_mem ho
  course i o o' ho ho' := by
    rw [ho] at ho'
    cases ho'
    exact .same rfl rfl
  unknown _ _ := rfl

theorem congr (h : Since first todo E) (hrows : E.SameRows F)
    (hobs : F.observations = E.observations)
    (hms : ∀ n, F.disk.get? ["observations", n] = E.disk.get? ["observations", n])
    (hq : ∀ name, F.disk.get? (quarantineEntry name) = E.disk.get? (quarantineEntry name))
    (hfirst : first.Placed) : Since first todo F where
  rows := h.rows.trans hrows
  retains name t ht := (hq name).trans (h.retains name t ht)
  begun := hobs ▸ h.begun
  unknown n hn := (hms n).trans (h.unknown n hn)
  course i o o' ho ho' := by
    obtain ⟨n, hn⟩ := hfirst.msPath o (Estate.mem_of_obs? ho).1
    have hsame : F.disk.get? o.msPath = E.disk.get? o.msPath := hn ▸ hms n
    have hretains : E.disk.Retains F.disk := fun name t ht => (hq name).trans ht
    have ho'' : E.obs? i = some o' := by rwa [Estate.obs?, ← hobs]
    cases h.course i o o' ho ho'' with
    | same state data => exact .same state (hsame.trans data)
    | charged before later after => exact .charged before later (hsame ▸ after)
    | givenUp before after gone moved =>
      exact .givenUp before after (hsame.trans gone) fun t ht => (moved t ht).retained hretains

theorem mended {m : Mending} (hm : m.Lawful) {todo' : List Nat} {o : Observation}
    (h : Since first todo E) (hplaced : E.Placed) (hfirst : first.Placed)
    (ho : E.obs? o.id = some o) (hrest : ∀ i ∈ todo, i ≠ o.id → i ∈ todo')
    (hover : (m.row E o).state ≠ .observing)
    (hcourse : ∀ p, first.obs? o.id = some p → o.msPath = p.msPath →
      Course first.disk (m.files E o) p (m.row E o)) : Since first todo' (m.apply E o) := by
  obtain ⟨hmem, _⟩ := Estate.mem_of_obs? ho
  have hlocal := hm.files hplaced hmem
  have hretains : E.disk.Retains (m.files E o) := hlocal.quarantine
  refine ⟨?_, h.retains.trans hretains, fun p hp hs => ?_, fun i p p' hp hp' => ?_, fun n hn => ?_⟩
  · exact h.rows.trans (hm.apply_shift hplaced ho).toSameRows
  · have hp' := (hplaced.shift (hm.apply_shift hplaced ho)).obs? hp
    rw [hm.obs?_apply ho] at hp'
    split at hp'
    · cases hp'
      exact absurd hs hover
    · rename_i hne
      exact hrest _ (h.begun p (Estate.mem_of_obs? hp').1 hs) hne
  · rw [hm.obs?_apply ho] at hp'
    split at hp'
    · rename_i hi
      subst hi
      cases hp'
      exact hcourse p hp (h.rows.msPath hfirst hp ho)
    · rename_i hne
      obtain ⟨hpmem, hid⟩ := Estate.mem_of_obs? hp'
      obtain ⟨hms, _⟩ := hplaced.elsewhere hmem hpmem (hid.trans_ne hne) hlocal
      rw [h.rows.msPath hfirst hp hp'] at hms
      cases h.course i p p' hp hp' with
      | same state data => exact .same state (hms.trans data)
      | charged before later after => exact .charged before later (hms ▸ after)
      | givenUp before after gone moved =>
        exact .givenUp before after (hms.trans gone) fun t ht => (moved t ht).retained hretains
  · obtain ⟨q, hq, _, hpath⟩ := h.rows.mem_obs hmem
    obtain ⟨k, hk⟩ := hplaced.msPath o hmem
    have hne : n ≠ k := by
      rintro rfl
      exact hn (List.mem_map.mpr ⟨q, hq, hpath.trans hk⟩)
    refine (hlocal.elsewhere _ ?_ (by simp [trashPath]) (by simp [quarantineEntry])).trans
      (h.unknown n hn)
    simp [hk, hne]

theorem givenUp {o : Observation} (h : Since first (o.id :: todo) E) (hplaced : E.Placed)
    (hfirst : first.Placed) (ho : E.obs? o.id = some o) (hstate : o.state = .observing) :
    Since first todo (givingUp.apply E o) := by
  obtain ⟨hmem, _⟩ := Estate.mem_of_obs? ho
  obtain ⟨n, hn⟩ := hplaced.msPath o hmem
  refine h.mended givingUp_lawful hplaced hfirst ho (fun i hi hne => by simpa [hne] using hi)
    (by simp [givingUp]) fun p hp hpath => ?_
  -- nothing has happened to it before
  obtain ⟨hbefore, hdata⟩ : p.state = .observing ∧
      E.disk.get? p.msPath = first.disk.get? p.msPath := by
    cases h.course _ p o hp ho with
    | same state data => exact ⟨state.symm.trans hstate, data⟩
    | charged before later after => exact absurd hstate later
    | givenUp before after gone moved =>
      rw [hstate] at after
      cases after
  have hp : p.msPath = ["observations", n] := hpath.symm.trans hn
  simp only [givingUp, hn]
  refine .givenUp hbefore rfl ?_ fun t ht => ?_
  · rw [hp]
    exact Disk.setAside_gone hplaced.stands
  · rw [hp] at hdata ht
    exact .after h.retains (Disk.setAside_moved hplaced.stands (hdata.trans ht))

theorem charges {m : Mending} (hm : m.Lawful) (hcharges : m.Charges) {o : Observation}
    (h : Since first [] E) (hplaced : E.Placed) (hfirst : first.Placed)
    (ho : E.obs? o.id = some o) (hstate : o.state = m.state) : Since first [] (m.apply E o) := by
  obtain ⟨hmem, _⟩ := Estate.mem_of_obs? ho
  obtain ⟨hcharged, hrow⟩ := hcharges
  obtain ⟨hover, hafter⟩ := hrow hplaced hmem hstate
  refine h.mended hm hplaced hfirst ho (by simp) hover fun p hp hpath => ?_
  have hbefore : p.state.charged = true := by
    cases h.course _ p o hp ho with
    | same state data =>
      rw [← state, hstate]
      exact hcharged
    | charged before later after => exact before
    | givenUp before after gone moved =>
      rw [← hstate, after] at hcharged
      cases hcharged
  exact .charged hbefore hover (hpath ▸ hafter)

end Since

section Phases

variable {first : Estate} {s : Shared} {m : Mending}

theorem abandoning_since (hfirst : first.Placed) (ids : s.db.Ids) (hplaced : s.estate.Placed)
    (h : Since first [] s.estate) :
    Smooth .main (fun _ => True) (Prog.forEach (s.db.listRuns [.running]) recoverRun)
      (fun _ t => t.db.Ids ∧ t.estate.Placed ∧ Since first [] t.estate) s := by
  refine abandoning_loop (I := fun _ E => Since first [] E) ?_ (fun _ _ _ _ _ _ h => h) ids
    hplaced h
  intro q rest E hplaced hq hrunning h
  cases hfile : E.disk.isFileAt (parent q.outputPrefix) with
  | true =>
    rw [abandoning_blocked hq hfile]
    exact ⟨hplaced, h, fun _ _ => trivial⟩
  | false =>
    rw [abandoning_found hq hrunning hfile]
    obtain ⟨a, p, hout⟩ := hplaced.outputs q (Estate.mem_of_run? hq).1
    have hrows := abandon_sameRows hplaced hq
    have hstands : (E.abandon q).disk.Stands := by
      simp only [Estate.abandon, hout]
      exact hplaced.stands.emptied _ _ _
    have hsame : ∀ r, Apart r ("products" :: a :: p) →
        (E.abandon q).disk.get? r = E.disk.get? r := by
      intro r hr
      simp only [Estate.abandon, hout]
      exact Disk.emptied_apart hr
    exact ⟨hrows.placed hplaced hstands, h.congr hrows rfl (fun n => hsame _ (by simp))
      (fun name => hsame _ (by simp [quarantineEntry])) hfirst, fun _ _ => trivial⟩

theorem Mending.since (hm : m.Lawful) {f : Observation → M Unit} (hf : m.CarriedOut f)
    (hcharges : m.Charges) (hfirst : first.Placed) (ids : s.db.Ids) (hplaced : s.estate.Placed)
    (h : Since first [] s.estate) :
    Smooth .main (fun _ => True) (Prog.forEach (s.db.listObservations [m.state]) f)
      (fun _ t => t.db.Ids ∧ t.estate.Placed ∧ Since first [] t.estate) s :=
  Mending.loop hm hf (I := fun _ E => Since first [] E)
    (fun _ _ _ hplaced ho hstate h => ⟨h.charges hm hcharges hplaced hfirst ho hstate,
      fun _ _ => trivial⟩)
    (fun _ _ _ _ _ _ h => h) ids hplaced h

theorem givingUp_since (ids : s.db.Ids) (hplaced : s.estate.Placed) :
    Smooth .main (fun _ => True)
      (Prog.forEach (s.db.listObservations [.observing]) recoverObservation)
      (fun _ t => t.db.Ids ∧ t.estate.Placed ∧ Since s.estate [] t.estate) s := by
  refine Mending.loop givingUp_lawful recoverObservation_smooth
    (I := fun todo E => Since s.estate (todo.map Observation.id) E) ?_ ?_ ids hplaced (.start _)
  · intro o rest E hplaced' ho hstate h
    exact ⟨h.givenUp hplaced' hplaced ho hstate, fun _ _ => trivial⟩
  · intro o rest E hplaced' ho hstate h
    refine { h with begun := fun p hp hs => ?_ }
    rcases List.mem_cons.mp (h.begun p hp hs) with hid | hrest
    · have hfound := hplaced'.obs? hp
      rw [hid, ho] at hfound
      cases hfound
      exact absurd hs hstate
    · exact hrest

end Phases

/-- What the scan has made of the estate before it, with the names still to come. -/
structure Swept (before : Estate) (rest : List String) (E : Estate) : Prop where
  observations : E.observations = before.observations
  stands : E.disk.Stands
  retains : before.disk.Retains E.disk
  known : ∀ n, ["observations", n] ∈ before.observations.map Observation.msPath →
    E.disk.get? ["observations", n] = before.disk.get? ["observations", n]
  unknown : ∀ n, ["observations", n] ∉ before.observations.map Observation.msPath →
    (n ∈ rest ∧ E.disk.get? ["observations", n] = before.disk.get? ["observations", n]) ∨
      (E.disk.get? ["observations", n] = none ∧ ∀ t,
        before.disk.get? ["observations", n] = some t → before.disk.Quarantined E.disk t)

namespace Swept

variable {E before : Estate} {n : String} {rest : List String}

theorem start {ns names : List String} (hstands : E.disk.Stands)
    (hns : E.disk.names observationsRoot = .ok ns) (hperm : names.Perm ns) :
    Swept E names E where
  observations := rfl
  stands := hstands
  retains _ _ h := h
  known _ _ := rfl
  unknown n _ := by
    cases hget : E.disk.get? ["observations", n] with
    | none => exact .inr ⟨rfl, fun t ht => by cases ht⟩
    | some t =>
      have hhas : E.disk.has (observationsRoot ++ [n]) = true := Disk.has_iff.mpr ⟨t, hget⟩
      exact .inl ⟨hperm.mem_iff.mpr ((Disk.mem_names hns).mpr hhas), rfl⟩

theorem next (h : Swept before (n :: rest) E) : Swept before rest (E.scanned n) := by
  unfold Estate.scanned
  split
  · rename_i hknown
    rw [h.observations] at hknown
    refine { h with unknown := fun m hm => ?_ }
    refine (h.unknown m hm).imp_left fun ⟨hrest, hsame⟩ => ⟨?_, hsame⟩
    rcases List.mem_cons.mp hrest with rfl | hrest
    · exact absurd hknown hm
    · exact hrest
  · rename_i hunknown
    rw [h.observations] at hunknown
    have hretains : E.disk.Retains (E.disk.setAside ["observations", n] ("orphan-" ++ n)) :=
      fun name t ht => Disk.setAside_kept ht
    have hapart : ∀ m, m ≠ n →
        (E.disk.setAside ["observations", n] ("orphan-" ++ n)).get? ["observations", m] =
          E.disk.get? ["observations", m] := fun m hm =>
      Disk.setAside_apart (by simp [hm]) (by simp [quarantineEntry])
    refine ⟨h.observations, h.stands.setAside, h.retains.trans hretains, fun m hm => ?_,
      fun m hm => ?_⟩
    · have hne : m ≠ n := by
        rintro rfl
        exact hunknown hm
      exact (hapart m hne).trans (h.known m hm)
    · by_cases hmn : m = n
      · subst hmn
        refine .inr ⟨Disk.setAside_gone h.stands, fun t ht => ?_⟩
        rcases h.unknown m hm with ⟨_, hsame⟩ | ⟨_, hmoved⟩
        · exact .after h.retains (Disk.setAside_moved h.stands (hsame.trans ht))
        · exact (hmoved t ht).retained hretains
      · simp only [hapart m hmn]
        rcases h.unknown m hm with ⟨hrest, hsame⟩ | ⟨hnone, hmoved⟩
        · exact .inl ⟨(List.mem_cons.mp hrest).resolve_left hmn, hsame⟩
        · exact .inr ⟨hnone, fun t ht => (hmoved t ht).retained hretains⟩

end Swept

/-- After a restart: the phases, and the scan over what they have left. -/
def Searched (first E : Estate) : Prop :=
  ∃ mid : Estate, mid.Placed ∧ Since first [] mid ∧ Swept mid [] E

theorem recoverAll_searched {s : Shared} (ids : s.db.Ids) (h : s.estate.Placed) :
    Smooth .main (fun _ => True) recoverAll (fun _ t => Searched s.estate t.estate) s := by
  unfold recoverAll
  refine .then (smooth_look (K := fun _ => True) rfl trivial ?_)
  refine (givingUp_since ids h).bind ?_
  rintro _ t₁ ⟨ids₁, hplaced₁, h₁⟩
  refine .then (smooth_look (K := fun _ => True) rfl trivial ?_)
  refine (abandoning_since h ids₁ hplaced₁ h₁).bind ?_
  rintro _ t₂ ⟨ids₂, hplaced₂, h₂⟩
  refine .then (smooth_look (K := fun _ => True) rfl trivial ?_)
  refine (Mending.since releasing_lawful repairAccepted_smooth releasing_charges h ids₂ hplaced₂
    h₂).bind ?_
  rintro _ t₃ ⟨ids₃, hplaced₃, h₃⟩
  refine .then (smooth_look (K := fun _ => True) rfl trivial ?_)
  refine (Mending.since deleting_lawful resumeDeletion_smooth deleting_charges h ids₃ hplaced₃
    h₃).bind ?_
  rintro _ t₄ ⟨ids₄, hplaced₄, h₄⟩
  refine .then (smooth_look (K := fun _ => True) rfl trivial ?_)
  refine (Mending.since verifying_lawful verifyStored_smooth verifying_charges h ids₄ hplaced₄
    h₄).bind ?_
  rintro _ t₅ ⟨ids₅, hplaced₅, h₅⟩
  refine (scanOrphans_smooth (I := fun rest E => Swept t₅.estate rest E)
    (fun _ _ _ hswept => hswept.next) (fun _ _ _ => trivial) ids₅ hplaced₅.stands
    fun _ _ => Swept.start hplaced₅.stands).mono (fun _ h => h) ?_
  rintro _ t ⟨_, hswept⟩
  exact ⟨t₅.estate, hplaced₅, h₅, hswept⟩

theorem startupReconcile_searched {s : Shared} (ids : s.db.Ids) (h : s.estate.Placed) :
    Smooth .main (fun _ => True) (startupReconcile (call .killManaged))
      (fun _ t => Searched s.estate t.estate) s := by
  refine .then (smooth_killManaged (K := fun _ => True) trivial fun t hdb hdisk => ?_)
  have hestate : t.estate = s.estate := estate_files hdb hdisk
  rw [← hestate] at h ⊢
  exact recoverAll_searched (hdb ▸ ids) h

end Sdpctl
