import Sdpctl.Discipline.Keep

/-!
The ledger and the disk. While no observation is active, the bytes of raw data,
in place or in the trash, are covered by what the rows count as used.
-/

namespace Sdpctl

open FileTree

variable {T : Terms} {s : Shared}

def NoActive (s : Shared) : Prop := ∀ oid o, s.db.obs? oid = some o → ¬ o.state.Active

/-- What one observation has on disk, in place or in the trash. -/
def Disk.held (d : Disk) (o : Observation) : Nat :=
  d.bytesAt (msPathOf o.id) + d.bytesAt (trashPath o.id)

theorem Disk.Weighs.held_le {d : Disk} {o : Observation} (h : d.Weighs T o)
    (hthorough : T.Thorough) (hactive : ¬ o.state.Active) : d.held o ≤ Db.usedBy o := by
  unfold Disk.Weighs at h
  unfold Disk.held Db.usedBy
  cases hstate : o.state with
  | planned | observing => exact absurd (by simp [ObservationState.Active, hstate]) hactive
  | stored =>
    simp only [hstate] at h
    simp [Db.countsUsed, h.1, Disk.bytesAt_of_absent h.2]
  | deleting =>
    simp only [hstate] at h
    simpa [Db.countsUsed] using h
  | observeFailed =>
    simp only [hstate] at h
    simp [Disk.bytesAt_of_absent (h.1 hthorough), Disk.bytesAt_of_absent h.2]
  | deleted | inconsistent =>
    simp only [hstate] at h
    simp [Disk.bytesAt_of_absent h.1, Disk.bytesAt_of_absent h.2]

theorem Shared.row_name {s : Shared} {dir n : String} (hok : DiskOk s.db s.disk)
    (hdir : dir = "observations" ∨ dir = "trash") (hhas : (s.disk.root.get? [dir, n]).isSome) :
    n ∈ s.db.observations.map fun o => obsName o.id := by
  obtain ⟨oid, o, ho, rfl⟩ := hok.covered dir n hdir hhas
  obtain ⟨hmem, hid⟩ := Db.mem_of_obs? ho
  exact List.mem_map.mpr ⟨o, hmem, by rw [hid]⟩

/-- A directory of raw data weighs what its observations have in it, at most. -/
theorem DiskOk.dir_le {dir : String} (hok : DiskOk s.db s.disk)
    (hdir : dir = "observations" ∨ dir = "trash") :
    s.disk.bytesAt [dir] ≤
      (s.db.observations.map fun o => s.disk.bytesAt [dir, obsName o.id]).sum := by
  have hlayout : dir ∈ layout := by rcases hdir with rfl | rfl <;> simp [layout]
  have hle := Tree.bytesAt_le_sum hok.wf (fun n hn => Shared.row_name hok hdir hn)
    (hok.dirs dir hlayout)
  rw [List.map_map] at hle
  exact hle

theorem DiskOk.raw_le (hok : DiskOk s.db s.disk) :
    s.disk.raw ≤ (s.db.observations.map s.disk.held).sum := by
  have hobs := hok.dir_le (.inl rfl)
  have htrash := hok.dir_le (.inr rfl)
  have hsum : (s.db.observations.map s.disk.held).sum =
      (s.db.observations.map fun o => s.disk.bytesAt ["observations", obsName o.id]).sum +
        (s.db.observations.map fun o => s.disk.bytesAt ["trash", obsName o.id]).sum :=
    List.sum_map_add
  unfold Disk.raw
  rw [hsum]
  exact Nat.add_le_add hobs htrash

theorem raw_le_used (hinv : Inv T s) (hthorough : T.Thorough) (hnone : NoActive s) :
    s.disk.raw ≤ s.db.used := by
  refine Nat.le_trans hinv.disk.raw_le (List.sum_le_sum fun o ho => ?_)
  have hfound := hinv.db.ids.obs? ho
  exact (hinv.weighs hthorough.calm o.id o hfound).held_le hthorough (hnone o.id o hfound)

end Sdpctl
