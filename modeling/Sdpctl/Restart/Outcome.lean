import Sdpctl.Restart.Begun

/-!
What a restart comes to for a single observation. The repairs are followed one by
one: those of other observations and of runs leave its row and its data alone.
-/

namespace Sdpctl

open FileTree

/-- The observation has a row, and `P` says what the row is, what is at its live
place and what is in the trash. -/
def Estate.Holds (E : Estate) (oid : Nat)
    (P : Observation → Option Tree → Option Tree → Prop) : Prop :=
  ∃ o, E.obs? oid = some o ∧ P o (E.disk.get? o.msPath) (E.disk.get? (trashPath o.id))

/-- No run of the observation has been accepted. -/
def Estate.Unaccepted (E : Estate) (oid : Nat) : Prop :=
  ∀ q ∈ E.processingRuns, q.observationId = oid → q.state ≠ .accepted

variable {E : Estate} {oid : Nat} {P : Observation → Option Tree → Option Tree → Prop}

theorem Mending.fix_holds {m : Mending} (hm : m.Lawful) (hplaced : E.Placed) (h : E.Holds oid P)
    (hown : ∀ o, E.obs? oid = some o → o.state = m.state →
      P o (E.disk.get? o.msPath) (E.disk.get? (trashPath o.id)) →
      P (m.row E o) ((m.files E o).get? o.msPath) ((m.files E o).get? (trashPath o.id)))
    (i : Nat) : ((m.repair i).fix E).Holds oid P := by
  obtain ⟨o, ho, hP⟩ := h
  by_cases hidle : ∀ p, E.obs? i = some p → p.state ≠ m.state
  · rw [Mending.fix_other hidle]
    exact ⟨o, ho, hP⟩
  simp only [not_forall, not_not] at hidle
  obtain ⟨p, hp, hstate⟩ := hidle
  rw [Mending.fix_found hp hstate]
  by_cases hi : oid = i
  · subst hi
    obtain rfl : o = p := Option.some.inj (ho.symm.trans hp)
    refine ⟨m.row E o, by rw [hm.obs?_apply ho, if_pos rfl], ?_⟩
    rw [hm.msPath, hm.id]
    exact hown o ho hstate hP
  · obtain ⟨hmem, rfl⟩ := Estate.mem_of_obs? hp
    obtain ⟨hmem', rfl⟩ := Estate.mem_of_obs? ho
    obtain ⟨hms, htrash⟩ := hplaced.elsewhere hmem hmem' hi (hm.files hplaced hmem)
    refine ⟨o, by rw [hm.obs?_apply hp, if_neg hi]; exact ho, ?_⟩
    have hdisk : (m.apply E p).disk = m.files E p := rfl
    rw [hdisk, hms, htrash]
    exact hP

theorem abandoning_holds (hplaced : E.Placed) (h : E.Holds oid P) (rid : Nat) :
    ((abandoning rid).fix E).Holds oid P := by
  obtain ⟨o, ho, hP⟩ := h
  by_cases hdone : (abandoning rid).done E
  · rw [abandoning_other hdone]
    exact ⟨o, ho, hP⟩
  simp only [abandoning, not_forall, Bool.not_eq_true] at hdone
  obtain ⟨q, hq, hrunning, hno⟩ := hdone
  rw [abandoning_found hq hrunning hno]
  obtain ⟨a, p, hout⟩ := hplaced.outputs q (Estate.mem_of_run? hq).1
  obtain ⟨n, hn⟩ := hplaced.msPath o (Estate.mem_of_obs? ho).1
  refine ⟨o, ho, ?_⟩
  have hdisk : (E.abandon q).disk = E.disk.emptied (parent q.outputPrefix) := rfl
  rw [hdisk, Disk.emptied_apart (by simp [hout, hn]),
      Disk.emptied_apart (by simp [hout, trashPath])]
  exact hP

theorem Mending.fix_processingRuns (m : Mending) (i : Nat) :
    ((m.repair i).fix E).processingRuns = E.processingRuns := by
  simp only [Mending.repair]
  split
  · split <;> rfl
  · rfl

theorem Mending.leaves_processingRuns {m : Mending} {F : Estate} {i : Nat}
    (h : (m.repair i).leaves E F) : F.processingRuns = E.processingRuns := by
  rcases h with rfl | ⟨_, _, _, rfl | ⟨_, _, rfl⟩⟩ <;> rfl

theorem abandoning_unaccepted (h : E.Unaccepted oid) (rid : Nat) :
    ((abandoning rid).fix E).Unaccepted oid := by
  by_cases hdone : (abandoning rid).done E
  · rw [abandoning_other hdone]
    exact h
  simp only [abandoning, not_forall, Bool.not_eq_true] at hdone
  obtain ⟨q, hq, hrunning, hno⟩ := hdone
  rw [abandoning_found hq hrunning hno]
  intro x hx howner
  rcases Keyed.mem_replace hx with rfl | ⟨hold, _⟩
  · simp
  · exact h x hold howner

theorem Estate.Unaccepted.releases (h : E.Unaccepted oid) : E.releases oid = false := by
  have hnone : (E.processingRuns.filter fun r => r.observationId == oid).any
      (fun r => r.state == .accepted) = false := by
    simp only [List.any_eq_false, List.mem_filter, beq_iff_eq, and_imp]
    exact h
  rw [Estate.releases, hnone, Bool.false_and]

theorem mem_repairs {r : Repair Estate} (h : r ∈ E.repairs) :
    (∃ m : Mending, m.Lawful ∧ (m = givingUp ∨ m = releasing ∨ m = deleting ∨ m = verifying) ∧
      ∃ i, r = m.repair i) ∨ ∃ rid, r = abandoning rid := by
  simp only [Estate.repairs, repairs, List.mem_append, List.mem_map] at h
  rcases h with ⟨i, _, rfl⟩ | ⟨rid, _, rfl⟩ | ⟨i, _, rfl⟩ | ⟨i, _, rfl⟩ | ⟨i, _, rfl⟩
  · exact .inl ⟨_, givingUp_lawful, .inl rfl, i, rfl⟩
  · exact .inr ⟨rid, rfl⟩
  · exact .inl ⟨_, releasing_lawful, .inr (.inl rfl), i, rfl⟩
  · exact .inl ⟨_, deleting_lawful, .inr (.inr (.inl rfl)), i, rfl⟩
  · exact .inl ⟨_, verifying_lawful, .inr (.inr (.inr rfl)), i, rfl⟩

/-- The deletion of an observation is complete. -/
def Complete (o : Observation) (live trash : Option Tree) : Prop :=
  o.state = .deleted ∧ o.sizeBytes = 0 ∧ live = none ∧ trash = none

/-- The deletion has at most one copy before it, or it is complete. -/
def Going (o : Observation) (live trash : Option Tree) : Prop :=
  (o.state = .deleting ∧ (live = none ∨ trash = none)) ∨ Complete o live trash

/-- Stored data, or what an observation had when it was found to be inconsistent. -/
def Kept (path : Path) (data : Option Tree) (o : Observation) (live _trash : Option Tree) : Prop :=
  (o.state = .stored ∨ o.state = .inconsistent) ∧ o.msPath = path ∧ live = data

theorem Disk.wedged_eq_false {d : Disk} {o : Observation} :
    d.wedged o = false ↔ d.get? o.msPath = none ∨ d.get? (trashPath o.id) = none := by
  rw [wedged, Bool.and_eq_false_iff, has_eq_false, has_eq_false]

theorem Disk.deleted_gone {d : Disk} {o : Observation} {n : String}
    (hn : o.msPath = ["observations", n]) (hstands : d.Stands) (hfree : d.wedged o = false) :
    (d.deleted o).get? o.msPath = none ∧ (d.deleted o).get? (trashPath o.id) = none := by
  rw [Disk.deleted_of_free hfree]
  refine ⟨?_, Disk.emptied_gone (by simp [trashPath])⟩
  rw [Disk.emptied_apart (by simp [hn, trashPath]), hn]
  exact Disk.trashed_gone hstands

theorem Going.state {o : Observation} {live trash : Option Tree} (h : Going o live trash) :
    o.state = .deleting ∨ o.state = .deleted := by
  rcases h with ⟨hdeleting, _⟩ | ⟨hdeleted, _⟩
  · exact .inl hdeleting
  · exact .inr hdeleted

theorem Going.one {o : Observation} {live trash : Option Tree} (h : Going o live trash) :
    live = none ∨ trash = none := by
  rcases h with ⟨_, hone⟩ | ⟨_, _, hlive, _⟩
  · exact hone
  · exact .inl hlive

theorem going_fix (h : E.Regular) (hgoing : E.Holds oid Going)
    {r : Repair Estate} {first : Estate} (hr : r ∈ first.repairs) : (r.fix E).Holds oid Going := by
  rcases mem_repairs hr with ⟨m, hlawful, hm, i, rfl⟩ | ⟨rid, rfl⟩
  · refine Mending.fix_holds hlawful h.toPlaced hgoing (fun o ho hstate hP => ?_) i
    have hclosing := hP.state
    rw [hstate] at hclosing
    rcases hm with rfl | rfl | rfl | rfl
    · simp [givingUp] at hclosing
    · simp [releasing] at hclosing
    · have hfree : E.disk.wedged o = false := by
        rcases hP with ⟨_, hone⟩ | ⟨hdeleted, _⟩
        · exact Disk.wedged_eq_false.mpr hone
        · rw [hstate] at hdeleted
          cases hdeleted
      obtain ⟨n, hn⟩ := h.msPath o (Estate.mem_of_obs? ho).1
      have hrow : deleting.row E o =
          { o with state := .deleted, sizeBytes := 0, reservedBytes := 0 } :=
            if_neg (by simp [hfree])
      rw [hrow]
      exact .inr ⟨rfl, rfl, Disk.deleted_gone hn h.stands hfree⟩
    · simp [verifying] at hclosing
  · exact abandoning_holds h.toPlaced hgoing rid

theorem kept_fix {path : Path} {data : Option Tree} (h : E.Regular)
    (hkept : E.Unaccepted oid ∧ E.Holds oid (Kept path data)) {r : Repair Estate} {first : Estate}
    (hr : r ∈ first.repairs) :
    (r.fix E).Unaccepted oid ∧ (r.fix E).Holds oid (Kept path data) := by
  obtain ⟨hunaccepted, hholds⟩ := hkept
  rcases mem_repairs hr with ⟨m, hlawful, hm, i, rfl⟩ | ⟨rid, rfl⟩
  · refine ⟨?_, Mending.fix_holds hlawful h.toPlaced hholds (fun o ho hstate hP => ?_) i⟩
    · rw [Estate.Unaccepted, Mending.fix_processingRuns]
      exact hunaccepted
    · obtain ⟨_, rfl⟩ := Estate.mem_of_obs? ho
      obtain ⟨hresting, hpath, hdata⟩ := hP
      rcases hm with rfl | rfl | rfl | rfl
      · rw [hstate] at hresting
        simp [givingUp] at hresting
      · have hrow : releasing.row E o = o := if_neg (by simp [hunaccepted.releases])
        rw [hrow]
        exact ⟨hresting, hpath, hdata⟩
      · rw [hstate] at hresting
        simp [deleting] at hresting
      · refine ⟨?_, (verifying_lawful.msPath E o).trans hpath, hdata⟩
        simp only [verifying]
        split
        · exact hresting
        · exact .inr rfl
  · exact ⟨abandoning_unaccepted hunaccepted rid, abandoning_holds h.toPlaced hholds rid⟩

section Restarted

variable {first : Estate}

theorem Restarted.completed (h : Restarted first E) (hregular : first.Regular)
    (hgoing : first.Holds oid Going) : E.Holds oid Complete := by
  have hend : first.restarted.Holds oid Going :=
    Repair.fixAll_keeps (I := fun E => E.Holds oid Going) hregular.orderly.sound
      (fun r hr E hE hgoing => going_fix hE hgoing hr) hregular hgoing
  rw [← h.arrived] at hend
  obtain ⟨o, ho, hP⟩ := hend
  obtain ⟨hmem, rfl⟩ := Estate.mem_of_obs? ho
  rcases hP with ⟨hdeleting, hone⟩ | hcomplete
  · obtain ⟨hwedged, _⟩ : deleting.settled E o :=
      h.done _ (mending_mem (.inr (.inr (.inl rfl))) hmem) o ho hdeleting
    rw [Disk.wedged_eq_false.mpr hone] at hwedged
    cases hwedged
  · exact ⟨o, ho, hcomplete⟩

/-- A restart does not touch stored data that no accepted run releases. -/
theorem Restarted.kept {path : Path} {data : Option Tree} (h : Restarted first E)
    (hregular : first.Regular)
    (hunaccepted : first.Unaccepted oid) (hholds : first.Holds oid (Kept path data)) :
    E.Holds oid (Kept path data) := by
  have hend := Repair.fixAll_keeps (I := fun E => E.Unaccepted oid ∧ E.Holds oid (Kept path data))
    hregular.orderly.sound (fun r hr E hE hkept => kept_fix hE hkept hr) hregular
    ⟨hunaccepted, hholds⟩
  exact h.arrived ▸ hend.2

end Restarted

section Cuts

variable {before : Estate} {rid : Nat} {verdict : RunState} {o : Observation} {E₀ : Estate}

/-- Wherever its deletion has been cut off, the observation has one copy at most. -/
theorem Begun.going (h : Begun before rid verdict E₀ o)
    (hleaves : (deleting.repair o.id).leaves E₀ E) : E.Holds o.id Going := by
  obtain ⟨n, hn⟩ := h.regular.msPath o (Estate.mem_of_obs? h.obs).1
  have hgone : ∀ d, d.get? o.msPath = none → Estate.Holds { E₀ with disk := d } o.id Going :=
    fun d hd => ⟨o, h.obs, .inl ⟨h.state, .inl hd⟩⟩
  rcases hleaves with rfl | ⟨p, hp, hstate, rfl | ⟨d, ⟨_, hd⟩, rfl⟩⟩
  · exact ⟨o, h.obs, .inl ⟨h.state, Disk.wedged_eq_false.mp h.free⟩⟩
  · obtain rfl : o = p := Option.some.inj (h.obs.symm.trans hp)
    have hrepair : deleting.repair o.id ∈ E₀.repairs :=
      mending_mem (.inr (.inr (.inl rfl))) (Estate.mem_of_obs? h.obs).1
    rw [← Mending.fix_found h.obs hstate]
    exact going_fix h.regular ⟨o, h.obs, .inl ⟨h.state, Disk.wedged_eq_false.mp h.free⟩⟩ hrepair
  · obtain rfl : o = p := Option.some.inj (h.obs.symm.trans hp)
    have hmoved : (E₀.disk.trashed o.msPath (trashPath o.id)).get? o.msPath = none := by
      rw [hn]
      exact Disk.trashed_gone h.regular.stands
    refine hgone d ?_
    rcases hd with rfl | ⟨u, hu⟩ | rfl
    · exact hmoved
    · obtain ⟨_, _, hsame⟩ := Disk.rmtreePart_has (by simp [trashPath]) hu
      exact (hsame _ (by simp [hn, trashPath])).trans hmoved
    · exact (Disk.deleted_gone hn h.regular.stands h.free).1

theorem Begun.kept (h : Begun before rid verdict E₀ o)
    (hleaves : (deleting.repair o.id).leaves E₀ E) {i : Nat} {path : Path} {data : Option Tree}
    (hi : i ≠ o.id)
    (hholds : before.Holds i (Kept path data)) : E.Holds i (Kept path data) := by
  obtain ⟨p, hp, hkept⟩ := hholds
  rw [← h.disk] at hkept
  have hp₀ : E₀.obs? i = some p := (h.others i hi).trans hp
  rcases hleaves with rfl | ⟨q, hq, hstate, rfl | ⟨d, hd, rfl⟩⟩
  · exact ⟨p, hp₀, hkept⟩
  · rw [← Mending.fix_found hq hstate]
    refine Mending.fix_holds deleting_lawful h.regular.toPlaced ⟨p, hp₀, hkept⟩ ?_ o.id
    intro p' _ hdeleting hresting
    rw [Kept, hdeleting] at hresting
    simp [deleting] at hresting
  · obtain rfl : o = q := Option.some.inj (h.obs.symm.trans hq)
    obtain ⟨hmem, rfl⟩ := Estate.mem_of_obs? hp₀
    have hmem' := (Estate.mem_of_obs? h.obs).1
    have hlocal := deleting_lawful.partway h.regular.toPlaced hmem' hd
    obtain ⟨hms, htrash⟩ := h.regular.toPlaced.elsewhere hmem' hmem hi hlocal
    refine ⟨p, hp₀, ?_⟩
    rw [hms, htrash]
    exact hkept

theorem Begun.unaccepted (h : Begun before rid verdict E₀ o)
    (hleaves : (deleting.repair o.id).leaves E₀ E) {i : Nat} (hi : i ≠ o.id)
    (hunaccepted : before.Unaccepted i) : E.Unaccepted i := by
  rw [Estate.Unaccepted, Mending.leaves_processingRuns hleaves]
  intro q hq howner
  have hfound := h.regular.run? hq
  by_cases hrid : q.id = rid
  · obtain ⟨q', hq', _, howner'⟩ := h.run
    rw [hrid, hq'] at hfound
    obtain rfl : q' = q := Option.some.inj hfound
    exact absurd (howner.symm.trans howner') hi
  · rw [h.otherRuns _ hrid] at hfound
    exact hunaccepted q (Estate.mem_of_run? hfound).1 howner

end Cuts

end Sdpctl
