import Sdpctl.Reconcile
import Sdpctl.Restart.Mending

/-!
The repairs that a restart makes, phase by phase, as functions on the rows and
the files. Each can be interrupted and tried again, and none brings back what an
earlier one has settled, so a restart can be interrupted anywhere.
-/

namespace Sdpctl

open FileTree

/-- What `finish_observation_deletion` says of an observation with both copies. -/
def bothCopies (oid : Nat) : Exn :=
  .runtimeError ("both live and trash copies exist for observation " ++ toString oid)

/-- The message of `_record_observation_recovery_failure`. -/
def failureMessage (e : Exn) (context : String) : String :=
  "reconcile failure during " ++ context ++ ": " ++ e.repr

namespace Disk

/-- A live copy and a trash copy of the observation exist. -/
def wedged (d : Disk) (o : Observation) : Bool := d.has o.msPath && d.has (trashPath o.id)

/-- The data of an observation goes through the trash, unless it is there twice. -/
def deleted (d : Disk) (o : Observation) : Disk :=
  if d.wedged o then d else (d.trashed o.msPath (trashPath o.id)).emptied (trashPath o.id)

theorem wedged_congr {d d' : Disk} {o : Observation} (hms : d'.get? o.msPath = d.get? o.msPath)
    (htrash : d'.get? (trashPath o.id) = d.get? (trashPath o.id)) : d'.wedged o = d.wedged o := by
  simp [wedged, has, hms, htrash]

end Disk

namespace Estate

/-- The observation has an accepted run and no active one. -/
def releases (E : Estate) (oid : Nat) : Bool :=
  (E.processingRuns.filter fun r => r.observationId == oid).any (fun r => r.state == .accepted) &&
    !(E.processingRuns.filter fun r => r.observationId == oid).any Db.isActive

end Estate

def givingUp : Mending where
  state := .observing
  row _ o := { o with
    state := .observeFailed
    reservedBytes := 0
    error := some "interrupted by previous shutdown" }
  files E o := E.disk.setAside o.msPath (partialLabel o.id "partial")
  partway E o d := d = E.disk.setAside o.msPath (partialLabel o.id "partial")
  settled _ _ := False

/-- A stored observation with an accepted run goes on to its deletion. -/
def releasing : Mending where
  state := .stored
  row E o := if E.releases o.id then { o with state := .deleting } else o
  files E _ := E.disk
  partway _ _ _ := False
  settled E o := E.releases o.id = false

def deleting : Mending where
  state := .deleting
  row E o :=
    if E.disk.wedged o then
      { o with error := some (failureMessage (bothCopies o.id) "deletion completion") }
    else { o with state := .deleted, sizeBytes := 0, reservedBytes := 0 }
  files E o := E.disk.deleted o
  partway E o d := E.disk.wedged o = false ∧
    (d = E.disk.trashed o.msPath (trashPath o.id) ∨
      (∃ u, (E.disk.trashed o.msPath (trashPath o.id)).rmtreePart (trashPath o.id) u = some d) ∨
      d = E.disk.deleted o)
  settled E o := E.disk.wedged o = true ∧
    o.error = some (failureMessage (bothCopies o.id) "deletion completion")

/-- A stored observation without its data becomes inconsistent. -/
def verifying : Mending where
  state := .stored
  row E o :=
    if E.disk.has o.msPath then o
    else { o with
      state := .inconsistent
      sizeBytes := 0
      reservedBytes := 0
      error := some "stored MS missing on restart" }
  files E _ := E.disk
  partway _ _ _ := False
  settled E o := E.disk.has o.msPath = true

theorem givingUp_lawful : givingUp.Lawful where
  id _ _ := rfl
  msPath _ _ := rfl
  files h ho := by
    obtain ⟨n, hn⟩ := h.msPath _ ho
    exact .setAside hn _ h.stands
  partway h ho hd := by
    obtain ⟨n, hn⟩ := h.msPath _ ho
    exact hd ▸ .setAside hn _ h.stands
  settles _ _ hstate := by simp [givingUp] at hstate
  stays hsettled := hsettled.elim
  resumes := by
    rintro E o d h ho rfl
    obtain ⟨n, hn⟩ := h.msPath _ ho
    refine ⟨rfl, Disk.setAside_of_gone ?_⟩
    simp only [hn]
    exact Disk.setAside_gone h.stands
  reads _ _ _ hsettled := hsettled

theorem releases_congr {E F : Estate} (h : F.processingRuns = E.processingRuns) (oid : Nat) :
    F.releases oid = E.releases oid := by
  simp [Estate.releases, h]

theorem releasing_lawful : releasing.Lawful where
  id E o := by
    simp only [releasing]
    split <;> rfl
  msPath E o := by
    simp only [releasing]
    split <;> rfl
  files _ _ := .refl _ _
  partway _ _ hd := hd.elim
  settles := by
    intro E o _ _ hstate
    have hsame : (releasing.apply E o).releases o.id = E.releases o.id := releases_congr rfl o.id
    simp only [releasing] at hstate ⊢
    split at hstate
    · cases hstate
    · rename_i hno
      have hno' : E.releases o.id = false := by simpa using hno
      rw [if_neg hno]
      exact hsame.trans hno'
  stays := by
    intro E o hsettled
    simp only [releasing] at hsettled ⊢
    simp [hsettled]
  resumes _ _ hd := hd.elim
  reads := by
    intro E F o hruns _ _ hsettled
    exact (releases_congr hruns o.id).trans hsettled

/-- Once the live copy is gone, the deletion has only the trash to empty. -/
theorem Disk.deleted_of_gone {d : Disk} {o : Observation} (h : d.get? o.msPath = none) :
    d.wedged o = false ∧ d.deleted o = d.emptied (trashPath o.id) := by
  have hwedged : d.wedged o = false := by simp [wedged, has, h]
  refine ⟨hwedged, ?_⟩
  unfold deleted
  rw [hwedged, trashed_of_gone h]
  rfl

theorem Disk.deleted_of_free {d : Disk} {o : Observation} (h : d.wedged o = false) :
    d.deleted o = (d.trashed o.msPath (trashPath o.id)).emptied (trashPath o.id) := by
  unfold deleted
  rw [h]
  rfl

theorem Disk.Local.deleted {d : Disk} {o : Observation} {n : String}
    (hpath : o.msPath = ["observations", n]) (hstands : d.Stands) : d.Local (d.deleted o) o := by
  unfold Disk.deleted
  split
  · exact .refl d o
  · exact (Disk.Local.trashed hpath hstands).trans (.emptied hpath)

theorem deleting_lawful : deleting.Lawful where
  id E o := by
    simp only [deleting]
    split <;> rfl
  msPath E o := by
    simp only [deleting]
    split <;> rfl
  files h ho := by
    obtain ⟨n, hn⟩ := h.msPath _ ho
    exact .deleted hn h.stands
  partway := by
    rintro E o d h ho ⟨_, rfl | ⟨u, hu⟩ | rfl⟩ <;> obtain ⟨n, hn⟩ := h.msPath _ ho
    · exact .trashed hn h.stands
    · exact (Disk.Local.trashed hn h.stands).trans (.rmtreePart hn hu)
    · exact .deleted hn h.stands
  settles := by
    intro E o _ _ hstate
    simp only [deleting] at hstate ⊢
    split at hstate
    · rename_i hwedged
      have hdisk : (deleting.apply E o).disk = E.disk := if_pos hwedged
      rw [if_pos hwedged]
      exact ⟨hdisk ▸ hwedged, rfl⟩
    · cases hstate
  stays := by
    rintro E o ⟨hwedged, herror⟩
    refine ⟨?_, if_pos hwedged, fun d hd => ?_⟩
    · simp only [deleting, hwedged, ite_true]
      rw [← herror]
    · exact absurd hwedged (by simp [hd.1])
  resumes := by
    rintro E o d h ho ⟨hfree, hd⟩
    obtain ⟨n, hn⟩ := h.msPath _ ho
    have hmoved : (E.disk.trashed o.msPath (trashPath o.id)).get? o.msPath = none := by
      rw [hn]
      exact Disk.trashed_gone h.stands
    have hapart : Apart o.msPath (trashPath o.id) := by simp [hn, trashPath]
    have hgone : d.get? o.msPath = none ∧ d.emptied (trashPath o.id) = E.disk.deleted o := by
      rw [Disk.deleted_of_free hfree]
      rcases hd with rfl | ⟨u, hu⟩ | rfl
      · exact ⟨hmoved, rfl⟩
      · obtain ⟨_, _, hsame⟩ := Disk.rmtreePart_has (by simp [trashPath]) hu
        exact ⟨(hsame _ hapart).trans hmoved, Disk.emptied_rmtreePart (by simp [trashPath]) hu⟩
      · rw [Disk.deleted_of_free hfree]
        exact ⟨(Disk.emptied_apart hapart).trans hmoved,
          Disk.emptied_of_gone (Disk.emptied_gone (by simp [trashPath]))⟩
    obtain ⟨hwedged, hdeleted⟩ := Disk.deleted_of_gone hgone.1
    exact ⟨by simp only [deleting, hwedged, hfree], hdeleted.trans hgone.2⟩
  reads := by
    rintro E F o _ hms htrash ⟨hwedged, herror⟩
    exact ⟨(Disk.wedged_congr hms htrash).trans hwedged, herror⟩

theorem verifying_lawful : verifying.Lawful where
  id E o := by
    simp only [verifying]
    split <;> rfl
  msPath E o := by
    simp only [verifying]
    split <;> rfl
  files _ _ := .refl _ _
  partway _ _ hd := hd.elim
  settles := by
    intro E o _ _ hstate
    simp only [verifying] at hstate ⊢
    split at hstate
    · rename_i hhas
      rw [if_pos hhas]
      exact hhas
    · cases hstate
  stays hsettled := ⟨if_pos hsettled, rfl, fun _ => id⟩
  resumes _ _ hd := hd.elim
  reads := by
    intro E F o _ hms _ hsettled
    simpa [verifying, Disk.has, hms] using hsettled

/-- The run has failed, and its output directory is gone. -/
def Estate.abandon (E : Estate) (q : ProcessingRun) : Estate :=
  { E.putRun { q with state := .failed, exitCode := some (-1) } with
    disk := E.disk.emptied (parent q.outputPrefix) }

/-- An interrupted run fails, and its partial products are removed; a file in the
place of its output directory would stay, and the run with it. -/
def abandoning (rid : Nat) : Repair Estate where
  fix E :=
    match E.run? rid with
    | some q =>
      if q.state = .running ∧ E.disk.isFileAt (parent q.outputPrefix) = false then E.abandon q
      else E
    | none => E
  leaves E F := F = E ∨ ∃ q, E.run? rid = some q ∧ q.state = .running ∧
    E.disk.isFileAt (parent q.outputPrefix) = false ∧
    (F = E.abandon q ∨
      (∃ u d, E.disk.rmtreePart (parent q.outputPrefix) u = some d ∧ F = { E with disk := d }) ∨
      F = { E with disk := E.disk.emptied (parent q.outputPrefix) })
  done E := ∀ q, E.run? rid = some q → q.state = .running →
    E.disk.isFileAt (parent q.outputPrefix) = true

theorem Disk.rmtreePart_isDir {d d' : Disk} {p : Path} {u : Tree} (h : d.rmtreePart p u = some d') :
    u.isDir = true := by
  unfold rmtreePart at h
  split at h
  · cases h
  · rename_i v hv
    split at h
    · rename_i hpart
      simp only [Bool.and_eq_true] at hpart
      cases u with
      | file i c =>
        cases v with
        | file j b => simp [Tree.isDir] at hpart
        | dir j es => simp [Tree.prunedFrom] at hpart
      | dir i es => rfl
    · cases h

theorem Disk.Shift.emptied (d : Disk) (a b : String) : d.Shift (d.emptied ["products", a, b]) where
  stands h := h.emptied _ _ _
  entries n hn := by
    rwa [has, emptied_apart (by simp)] at hn
  products a' b' hfile := by
    by_cases hsame : a' = a ∧ b' = b
    · obtain ⟨rfl, rfl⟩ := hsame
      simp [isFileAt, emptied_gone (d := d) (p := ["products", a', b'])] at hfile
    · have hapart : Apart ["products", a', b'] ["products", a, b] := by
        simp only [apart_cons, apart_nil_left, or_false, ne_eq, not_true_eq_false, false_or]
        exact not_and_or.mp hsame
      rwa [isFileAt, emptied_apart hapart] at hfile

theorem Disk.Shift.rmtreePart {d d' : Disk} {a b : String} {u : Tree}
    (h : d.rmtreePart ["products", a, b] u = some d') : d.Shift d' where
  stands hstands := hstands.rmtreePart h
  entries n hn := by
    obtain ⟨_, _, hsame⟩ := rmtreePart_has (by simp) h
    rwa [has, hsame _ (by simp)] at hn
  products a' b' hfile := by
    obtain ⟨_, _, hsame⟩ := rmtreePart_has (by simp) h
    by_cases heq : a' = a ∧ b' = b
    · obtain ⟨rfl, rfl⟩ := heq
      have hdir := rmtreePart_isDir h
      obtain ⟨v, hv, _, _, rfl⟩ := rmtreePart_some h
      have hu : (d.root.set ["products", a', b'] (some u)).get? ["products", a', b'] = some u :=
        Tree.get?_set_self (p := ["products", a']) (Tree.isDir_of_get? (n := b') hv)
      simp [isFileAt, get?, hu, hdir] at hfile
    · have hapart : Apart ["products", a', b'] ["products", a, b] := by
        simp only [apart_cons, apart_nil_left, or_false, ne_eq, not_true_eq_false, false_or]
        exact not_and_or.mp heq
      rwa [isFileAt, hsame _ hapart] at hfile

section Abandoning

variable {E F : Estate} {rid : Nat} {q : ProcessingRun}

theorem Estate.run?_abandon (h : E.run? q.id = some q) (i : Nat) :
    (E.abandon q).run? i =
      if i = q.id then some { q with state := .failed, exitCode := some (-1) } else E.run? i := by
  let failed : ProcessingRun := { q with state := .failed, exitCode := some (-1) }
  have hfailed : E.run? failed.id = some q := h
  exact run?_putRun hfailed i

theorem abandoning_found (h : E.run? rid = some q) (hrunning : q.state = .running)
    (hno : E.disk.isFileAt (parent q.outputPrefix) = false) :
    (abandoning rid).fix E = E.abandon q := by
  simp [abandoning, h, hrunning, hno]

theorem abandoning_other (h : ∀ q, E.run? rid = some q → q.state = .running →
    E.disk.isFileAt (parent q.outputPrefix) = true) : (abandoning rid).fix E = E := by
  unfold abandoning
  simp only
  split
  · rename_i q hq
    refine if_neg ?_
    rintro ⟨hrunning, hno⟩
    simp [h q hq hrunning] at hno
  · rfl

theorem abandoning_blocked (h : E.run? q.id = some q)
    (hfile : E.disk.isFileAt (parent q.outputPrefix) = true) : (abandoning q.id).fix E = E := by
  refine abandoning_other fun p hp _ => ?_
  rw [h] at hp
  exact Option.some.inj hp ▸ hfile

theorem abandoning_run? {i : Nat} (h : i ≠ rid) : ((abandoning rid).fix E).run? i = E.run? i := by
  unfold abandoning
  simp only
  split
  · rename_i q hq
    obtain ⟨_, rfl⟩ := Estate.mem_of_run? hq
    split
    · rw [Estate.run?_abandon hq, if_neg h]
    · rfl
  · rfl

theorem abandon_sameRows (h : E.Placed) (hq : E.run? q.id = some q) :
    E.SameRows (E.abandon q) := by
  let failed : ProcessingRun := { q with state := .failed, exitCode := some (-1) }
  have hfailed : E.run? failed.id = some q := hq
  exact .putRun h hfailed rfl

theorem abandoning_shift (h : E.Regular) (hleaves : (abandoning rid).leaves E F) :
    E.Shift F := by
  rcases hleaves with rfl | ⟨q, hq, _, _, hF⟩
  · exact .refl _
  obtain ⟨hmem, rfl⟩ := Estate.mem_of_run? hq
  obtain ⟨a, b, hout⟩ := h.flat q hmem
  have hempty : E.disk.Shift (E.disk.emptied (parent q.outputPrefix)) := hout ▸ .emptied _ a b
  rcases hF with rfl | ⟨u, d, hd, rfl⟩ | rfl
  · exact ⟨abandon_sameRows h.toPlaced hq, hempty⟩
  · exact .files (.rmtreePart (hout ▸ hd))
  · exact .files hempty

theorem abandoning_sound (rid : Nat) : (abandoning rid).Sound Estate.Regular where
  well hW hleaves := hW.shift (abandoning_shift hW hleaves)
  whole := by
    intro E hW
    by_cases hdone : (abandoning rid).done E
    · exact .inl (abandoning_other hdone)
    · simp only [abandoning, not_forall, Bool.not_eq_true] at hdone
      obtain ⟨q, hq, hrunning, hno⟩ := hdone
      exact .inr ⟨q, hq, hrunning, hno, .inl (abandoning_found hq hrunning hno)⟩
  settles := by
    intro E hW
    by_cases hdone : (abandoning rid).done E
    · rw [abandoning_other hdone]
      exact hdone
    · simp only [abandoning, not_forall, Bool.not_eq_true] at hdone
      obtain ⟨q, hq, hrunning, hno⟩ := hdone
      obtain ⟨_, rfl⟩ := Estate.mem_of_run? hq
      rw [abandoning_found hq hrunning hno]
      intro p hp hs
      rw [Estate.run?_abandon hq, if_pos rfl] at hp
      cases hp
      cases hs
  rests := by
    intro E F _ hdone hleaves
    rcases hleaves with rfl | ⟨q, hq, hrunning, hno, _⟩
    · rfl
    · simp [hdone q hq hrunning] at hno
  resumes := by
    intro E F hW hleaves
    rcases hleaves with rfl | ⟨q, hq, hrunning, hno, hF⟩
    · rfl
    obtain ⟨hmem, rfl⟩ := Estate.mem_of_run? hq
    obtain ⟨a, b, hout⟩ := hW.flat q hmem
    rw [abandoning_found hq hrunning hno]
    have hgone : ∀ d, (E.disk.emptied (parent q.outputPrefix)) = d →
        d.isFileAt (parent q.outputPrefix) = false ∧ d.emptied (parent q.outputPrefix) = d := by
      rintro _ rfl
      have hnone : (E.disk.emptied (parent q.outputPrefix)).get? (parent q.outputPrefix) = none :=
        Disk.emptied_gone (by simp [hout])
      exact ⟨by simp [Disk.isFileAt, hnone], Disk.emptied_of_gone hnone⟩
    rcases hF with rfl | ⟨u, d, hd, rfl⟩ | rfl
    · refine abandoning_other fun p hp hs => ?_
      rw [Estate.run?_abandon hq, if_pos rfl] at hp
      cases hp
      cases hs
    · have hno' : d.isFileAt (parent q.outputPrefix) = false := by
        by_contra hfile
        rw [hout] at hd hno hfile
        have hfile' := (Disk.Shift.rmtreePart hd).products a b (by simpa using hfile)
        simp [hno] at hfile'
      have hq' : ({ E with disk := d } : Estate).run? q.id = some q := hq
      rw [abandoning_found hq' hrunning hno']
      unfold Estate.abandon
      rw [Disk.emptied_rmtreePart (by simp [hout]) hd]
      rfl
    · obtain ⟨hno', hagain⟩ := hgone _ rfl
      have hq' : ({ E with disk := E.disk.emptied (parent q.outputPrefix) } : Estate).run? q.id =
        some q := hq
      rw [abandoning_found hq' hrunning hno']
      unfold Estate.abandon
      rw [hagain]
      rfl

end Abandoning

section Order

variable {E F : Estate}

theorem givingUp_after {m : Mending} (h : ∀ E o, o.state = m.state → (m.row E o).state ≠ .observing)
    (hstate : m.state ≠ .observing) : givingUp.After m := fun E o ho =>
  ⟨fun hs => absurd hs (h E o ho), fun hs => absurd (ho.symm.trans hs) hstate⟩

theorem releasing_after_deleting : releasing.After deleting := by
  intro E o ho
  refine ⟨fun hs => ?_, fun hs => ?_⟩
  · simp only [deleting, releasing] at hs ho
    split at hs
    · rw [ho] at hs
      cases hs
    · cases hs
  · rw [ho] at hs
    cases hs

theorem releasing_after_verifying : releasing.After verifying := by
  intro E o ho
  refine ⟨fun hs => ?_, fun _ _ hd => hd⟩
  simp only [verifying, releasing] at hs ⊢
  split at hs
  · rename_i hhas
    exact ⟨if_pos hhas, trivial⟩
  · cases hs

theorem deleting_after_verifying : deleting.After verifying := by
  intro E o ho
  refine ⟨fun hs => ?_, fun _ _ hd => hd⟩
  simp only [verifying, deleting] at hs ho
  split at hs
  · rw [ho] at hs
    cases hs
  · cases hs

theorem givingUp_after_releasing : givingUp.After releasing := by
  refine givingUp_after (fun E o ho hs => ?_) (by simp [releasing])
  simp only [releasing] at hs ho
  split at hs
  · cases hs
  · rw [ho] at hs
    cases hs

theorem givingUp_after_deleting : givingUp.After deleting := by
  refine givingUp_after (fun E o ho hs => ?_) (by simp [deleting])
  simp only [deleting] at hs ho
  split at hs
  · rw [ho] at hs
    cases hs
  · cases hs

theorem givingUp_after_verifying : givingUp.After verifying := by
  refine givingUp_after (fun E o ho hs => ?_) (by simp [verifying])
  simp only [verifying] at hs ho
  split at hs
  · rw [ho] at hs
    cases hs
  · cases hs

theorem givingUp_spares_abandoning (i rid : Nat) :
    Repair.Spares Estate.Regular (givingUp.repair i) (abandoning rid) := by
  intro E F _ hdone hleaves
  rcases hleaves with rfl | ⟨q, _, _, _, rfl | ⟨u, d, _, rfl⟩ | rfl⟩
  · exact hdone
  · exact hdone
  · exact hdone
  · exact hdone

theorem abandoning_done (hW : E.Regular) {rid : Nat} :
    (abandoning rid).done E ↔ ∀ q, E.run? rid = some q → q.state ≠ .running := by
  refine ⟨fun h q hq hs => ?_, fun h q hq hs => absurd hs (h q hq)⟩
  have hfile := h q hq hs
  have hno := hW.noFile q (Estate.mem_of_run? hq).1
  simp [hno] at hfile

theorem abandoning_spares_mending {m : Mending} (hm : m.Lawful) (rid i : Nat) :
    Repair.Spares Estate.Regular (abandoning rid) (m.repair i) := by
  intro E F hW hdone hleaves
  have hF : F.Regular := hW.shift (hm.leaves_shift hW.toPlaced hleaves)
  have hruns : F.processingRuns = E.processingRuns := by
    rcases hleaves with rfl | ⟨o, _, _, rfl | ⟨d, _, rfl⟩⟩ <;> rfl
  rw [abandoning_done hW] at hdone
  rw [abandoning_done hF]
  intro q hq
  refine hdone q ?_
  rw [Estate.run?, ← hruns]
  exact hq

theorem abandoning_spares {i j : Nat} (hne : i ≠ j) :
    Repair.Spares Estate.Regular (abandoning i) (abandoning j) := by
  intro E F hW hdone hleaves
  have hF : F.Regular := hW.shift (abandoning_shift hW hleaves)
  rw [abandoning_done hW] at hdone
  rw [abandoning_done hF]
  rcases hleaves with rfl | ⟨q, hq, _, _, rfl | ⟨u, d, _, rfl⟩ | rfl⟩
  · exact hdone
  · intro p hp
    obtain ⟨_, rfl⟩ := Estate.mem_of_run? hq
    rw [Estate.run?_abandon hq, if_neg hne] at hp
    exact hdone p hp
  · exact hdone
  · exact hdone

/-- The repairs of a restart, in the order of its phases. -/
def repairs (oids rids : List Nat) : List (Repair Estate) :=
  oids.map givingUp.repair ++ (rids.map abandoning ++ (oids.map releasing.repair ++
    (oids.map deleting.repair ++ oids.map verifying.repair)))

theorem mendings_spare {m : Mending} (hm : m.Lawful) {oids : List Nat} (h : oids.Nodup) :
    (oids.map m.repair).Pairwise (Repair.Spares Estate.Regular) :=
  List.pairwise_map.mpr (h.imp fun hne => Mending.spares hm hm (.inl hne))

theorem repairs_orderly {oids rids : List Nat} (hoids : oids.Nodup) (hrids : rids.Nodup) :
    Repair.Orderly Estate.Regular (repairs oids rids) where
  sound := by
    simp only [repairs, List.mem_append, List.mem_map]
    rintro r (⟨i, _, rfl⟩ | ⟨i, _, rfl⟩ | ⟨i, _, rfl⟩ | ⟨i, _, rfl⟩ | ⟨i, _, rfl⟩)
    · exact givingUp_lawful.sound i
    · exact abandoning_sound i
    · exact releasing_lawful.sound i
    · exact deleting_lawful.sound i
    · exact verifying_lawful.sound i
  spares := by
    have hruns : (rids.map abandoning).Pairwise (Repair.Spares Estate.Regular) :=
      List.pairwise_map.mpr (hrids.imp abandoning_spares)
    simp only [repairs, List.pairwise_append, List.mem_append, List.mem_map]
    refine ⟨mendings_spare givingUp_lawful hoids, ⟨hruns,
      ⟨mendings_spare releasing_lawful hoids, ⟨mendings_spare deleting_lawful hoids,
        mendings_spare verifying_lawful hoids, ?_⟩, ?_⟩, ?_⟩, ?_⟩
    · rintro _ ⟨i, _, rfl⟩ _ ⟨j, _, rfl⟩
      exact Mending.spares deleting_lawful verifying_lawful (.inr deleting_after_verifying)
    · rintro _ ⟨i, _, rfl⟩ _ (⟨j, _, rfl⟩ | ⟨j, _, rfl⟩)
      · exact Mending.spares releasing_lawful deleting_lawful (.inr releasing_after_deleting)
      · exact Mending.spares releasing_lawful verifying_lawful (.inr releasing_after_verifying)
    · rintro _ ⟨i, _, rfl⟩ _ (⟨j, _, rfl⟩ | ⟨j, _, rfl⟩ | ⟨j, _, rfl⟩)
      · exact abandoning_spares_mending releasing_lawful i j
      · exact abandoning_spares_mending deleting_lawful i j
      · exact abandoning_spares_mending verifying_lawful i j
    · rintro _ ⟨i, _, rfl⟩ _ (⟨j, _, rfl⟩ | ⟨j, _, rfl⟩ | ⟨j, _, rfl⟩ | ⟨j, _, rfl⟩)
      · exact givingUp_spares_abandoning i j
      · exact Mending.spares givingUp_lawful releasing_lawful (.inr givingUp_after_releasing)
      · exact Mending.spares givingUp_lawful deleting_lawful (.inr givingUp_after_deleting)
      · exact Mending.spares givingUp_lawful verifying_lawful (.inr givingUp_after_verifying)

end Order

end Sdpctl
