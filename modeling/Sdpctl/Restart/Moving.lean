import Sdpctl.Restart.Repairs
import Sdpctl.Restart.Smooth

/-!
`storage.py`, alone and without a failing operation: each of its programs comes to
the disk that the repairs name. The rules have the form of those for operations.
-/

namespace Sdpctl

open FileTree Coop

variable {role : Role} {K : Estate → Prop} {s : Shared} {P : Unit → Shared → Prop}
  {p : Path} {n label : String}

theorem searchTarget_smooth {P : Path → Shared → Prop} {fuel k : Nat}
    (h : ∃ i < fuel, s.disk.has (quarantineEntry (suffixed label (k + i))) = false)
    (hK : K s.estate) (hP : P (s.disk.firstFree label fuel k) s) :
    Smooth role K (searchTarget label fuel k) P s := by
  induction fuel generalizing k with
  | zero =>
    obtain ⟨i, hi, _⟩ := h
    omega
  | succ fuel ih =>
    refine .then (smooth_exists hK ?_)
    unfold Disk.firstFree at hP
    cases htaken : s.disk.has (quarantineEntry (suffixed label k)) with
    | false => exact .pure (by simpa [htaken] using hP)
    | true =>
      refine ih ?_ (by simpa [htaken] using hP)
      obtain ⟨i, hi, hfree⟩ := h
      cases i with
      | zero => simp [htaken] at hfree
      | succ i => exact ⟨i, by omega, by rwa [show k + 1 + i = k + (i + 1) by omega]⟩

theorem uniqueQuarantineTarget_smooth {P : Path → Shared → Prop} (hK : K s.estate)
    (hP : P (s.disk.freeEntry label) s) : Smooth role K (uniqueQuarantineTarget label) P s := by
  refine .then (smooth_exists hK ?_)
  unfold Disk.freeEntry at hP
  cases htaken : s.disk.has (quarantineEntry label) with
  | false => exact .pure (by simpa [htaken] using hP)
  | true =>
    refine .then (smooth_entryCount hK ?_)
    exact searchTarget_smooth (Disk.exists_free htaken) hK (by simpa [htaken] using hP)

theorem invalidateAuxiliaryCache_smooth (hK : K s.estate)
    (hP : ∀ t : Shared, t.db = s.db → t.disk = s.disk → P () t) :
    Smooth role K invalidateAuxiliaryCache P s :=
  .then (smooth_resolve hK (smooth_cachePop hK hP))

theorem estate_files {t : Shared} {d : Disk} (hdb : t.db = s.db) (hdisk : t.disk = d) :
    t.estate = { s.estate with disk := d } := by
  simp [Shared.estate, hdb, hdisk]

/-- `quarantine_path` sets something aside. -/
theorem quarantinePath_moves {P : Path → Shared → Prop} (hp : Apart p quarantineRoot)
    (hdir : s.disk.root.IsDir quarantineRoot) (hhas : s.disk.has p = true) (hK : K s.estate)
    (hK' : K { s.estate with disk := s.disk.setAside p label })
    (hP : ∀ t : Shared, t.db = s.db → t.disk = s.disk.setAside p label →
      P (s.disk.freeEntry label) t) :
    Smooth role K (quarantinePath p label) P s := by
  obtain ⟨u, hu⟩ := Disk.has_iff.mp hhas
  obtain ⟨name, hname⟩ := Disk.freeEntry_entry s.disk label
  have hmove : s.disk.setAside p label = s.disk.move p (quarantineEntry name) u := by
    simp only [Disk.setAside, hu, hname]
  rw [hmove] at hK' hP
  rw [hname] at hP
  refine .then (smooth_exists hK ?_)
  rw [hhas]
  refine .then (uniqueQuarantineTarget_smooth hK ?_)
  rw [hname]
  refine .then (smooth_mkdir hdir hK ?_)
  refine .then (smooth_rename hu (hname ▸ Disk.freeEntry_free s.disk label) hdir
    (Disk.apart_entry hp name) hK' ?_)
  refine .then (invalidateAuxiliaryCache_smooth hK' fun t hdb hdisk => ?_)
  exact .pure (hP t hdb hdisk)

theorem quarantinePath_smooth {P : Path → Shared → Prop} (hp : p = ["observations", n])
    (hstands : s.disk.Stands) (hhas : s.disk.has p = true) (hK : K s.estate)
    (hK' : K { s.estate with disk := s.disk.setAside p label })
    (hP : ∀ q t, t.db = s.db → t.disk = s.disk.setAside p label → P q t) :
    Smooth role K (quarantinePath p label) P s :=
  quarantinePath_moves (by simp [hp, quarantineRoot]) (hstands _ (by simp [layout])) hhas hK hK'
    (hP _)

theorem quarantinePath_gone {Q : Except Exn Path → Shared → Prop} (hgone : s.disk.has p = false)
    (hK : K s.estate) (hQ : Q (.error (.fileNotFoundError p)) s) :
    (quarantinePath p label).Meets (smoothly role) (fun t => K t.estate) Q s := by
  refine .then (smooth_exists hK ?_)
  rw [hgone]
  exact hQ

theorem quarantineIfExists_smooth (hp : p = ["observations", n]) (hstands : s.disk.Stands)
    (hK : K s.estate) (hK' : K { s.estate with disk := s.disk.setAside p label })
    (hP : ∀ t : Shared, t.db = s.db → t.disk = s.disk.setAside p label → P () t) :
    Smooth role K (quarantineIfExists p label) P s := by
  refine .then (smooth_exists hK ?_)
  cases hhas : s.disk.has p with
  | true =>
    refine .then (quarantinePath_smooth hp hstands hhas hK hK' fun _ t hdb hdisk => ?_)
    exact .pure (hP t hdb hdisk)
  | false =>
    have hnone : s.disk.setAside p label = s.disk :=
      Disk.setAside_of_gone (Disk.has_eq_false.mp hhas)
    exact .pure (hP s rfl hnone.symm)

theorem removeTree_smooth (hhas : s.disk.has p = true)
    (hpart : ∀ u d, s.disk.rmtreePart p u = some d → K { s.estate with disk := d })
    (hK : K s.estate) (hK' : K { s.estate with disk := s.disk.put p none })
    (hP : ∀ t : Shared, t.db = s.db → t.disk = s.disk.put p none → P () t) :
    Smooth role K (removeTree p) P s := by
  obtain ⟨u, hu⟩ := Disk.has_iff.mp hhas
  have hdir : s.disk.isDirAt p = u.isDir := by simp [Disk.isDirAt, hu]
  refine .then (smooth_isDir hK ?_)
  rw [hdir]
  cases hisDir : u.isDir with
  | true => exact smooth_rmtree hu hisDir hpart hK' hP
  | false => exact smooth_unlink hu hisDir hK' hP

theorem removeIfExists_smooth (hno : s.disk.isFileAt p = false)
    (hpart : ∀ u d, s.disk.rmtreePart p u = some d → K { s.estate with disk := d })
    (hK : K s.estate) (hK' : K { s.estate with disk := s.disk.emptied p })
    (hP : ∀ t : Shared, t.db = s.db → t.disk = s.disk.emptied p → P () t) :
    Smooth role K (removeIfExists p) P s := by
  refine .then (smooth_exists hK ?_)
  unfold Disk.emptied at hK' hP
  cases hhas : s.disk.has p with
  | false => exact .pure (hP s rfl (by simp [hhas]))
  | true =>
    rw [if_pos hhas] at hK' hP
    obtain ⟨u, hu⟩ := Disk.has_iff.mp hhas
    have hdir : u.isDir = true := by simpa [Disk.isFileAt, hu] using hno
    exact smooth_rmtree hu hdir hpart hK' hP

theorem moveLiveToTrash_smooth {oid : Nat} (hp : p = ["observations", n])
    (hstands : s.disk.Stands) (hfree : (s.disk.has p && s.disk.has (trashPath oid)) = false)
    (hK : K s.estate) (hK' : K { s.estate with disk := s.disk.trashed p (trashPath oid) })
    (hP : ∀ t : Shared, t.db = s.db → t.disk = s.disk.trashed p (trashPath oid) → P () t) :
    Smooth role K (moveLiveToTrash oid p (trashPath oid)) P s := by
  refine .then (smooth_exists hK ?_)
  cases hhas : s.disk.has p with
  | false =>
    have hnone : s.disk.trashed p (trashPath oid) = s.disk :=
      Disk.trashed_of_gone (Disk.has_eq_false.mp hhas)
    exact .pure (hP s rfl hnone.symm)
  | true =>
    have htrash : s.disk.has (trashPath oid) = false := by simpa [hhas] using hfree
    obtain ⟨u, hu⟩ := Disk.has_iff.mp hhas
    have hmove : s.disk.trashed p (trashPath oid) = s.disk.move p (trashPath oid) u := by
      simp only [Disk.trashed, hu]
    rw [hmove] at hK' hP
    refine .then (smooth_exists hK ?_)
    rw [htrash]
    refine .then (smooth_rename hu (Disk.has_eq_false.mp htrash)
      (hstands "trash" (by simp [layout])) (by simp [hp, trashPath]) hK' ?_)
    exact invalidateAuxiliaryCache_smooth hK' fun t hdb hdisk => hP t hdb hdisk

theorem moveLiveToTrash_both {oid : Nat} {Q : Except Exn Unit → Shared → Prop}
    (hlive : s.disk.has p = true) (htrash : s.disk.has (trashPath oid) = true) (hK : K s.estate)
    (hQ : Q (.error (bothCopies oid)) s) :
    (moveLiveToTrash oid p (trashPath oid)).Meets (smoothly role) (fun t => K t.estate) Q s := by
  refine .then (smooth_exists hK ?_)
  rw [hlive]
  refine .then (smooth_exists hK ?_)
  rw [htrash]
  exact hQ

theorem emptyTrash_smooth
    (hpart : ∀ u d, s.disk.rmtreePart p u = some d → K { s.estate with disk := d })
    (hK : K s.estate) (hK' : K { s.estate with disk := s.disk.emptied p })
    (hP : ∀ t : Shared, t.db = s.db → t.disk = s.disk.emptied p → P () t) :
    Smooth role K (emptyTrash p) P s := by
  refine .then (smooth_exists hK ?_)
  unfold Disk.emptied at hK' hP
  cases hhas : s.disk.has p with
  | false => exact .pure (hP s rfl (by simp [hhas]))
  | true =>
    rw [if_pos hhas] at hK' hP
    refine .then (removeTree_smooth hhas hpart hK hK' fun t hdb hdisk => ?_)
    refine invalidateAuxiliaryCache_smooth ?_ fun v hdb' hdisk' =>
      hP v (hdb'.trans hdb) (hdisk'.trans hdisk)
    rw [estate_files hdb hdisk]
    exact hK'

end Sdpctl
