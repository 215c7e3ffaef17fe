import Sdpctl.Restart.Regular
import Sdpctl.Ticking.Desk

/-!
The desk of a reachable state is well: ids are unique, everything has its place, and an
observation has one open run at most. Each phase of a tick keeps it so.
-/

namespace Sdpctl

open FileTree Coop

/-- The layout stands, and output directories are directories. -/
structure Disk.Kept (d : Disk) : Prop where
  wf : d.root.wf
  stands : d.Stands
  flat : d.Flat

namespace Disk.Kept

variable {d : Disk}

theorem setAside (h : d.Kept) (n label : String) :
    (d.setAside ["observations", n] label).Kept := by
  obtain ⟨name, hname⟩ := freeEntry_entry d label
  refine ⟨?_, h.stands.setAside, ?_⟩
  · unfold Disk.setAside
    split
    · rename_i t ht
      have hmid : (d.put ["observations", n] none).root.wf := Tree.wf_set h.wf (by simp)
      refine Tree.wf_set hmid fun u hu => ?_
      cases hu
      exact Tree.wf_get? h.wf ht
    · exact h.wf
  · unfold Disk.setAside
    split
    · have hmid : (d.put ["observations", n] none).Flat := h.flat.elsewhere rfl (by simp)
      exact hmid.elsewhere rfl (by simp [hname, quarantineEntry])
    · exact h.flat

theorem emptied (h : d.Kept) (a b : String) : (d.emptied ["products", a, b]).Kept := by
  refine ⟨?_, h.stands.emptied _ _ _, ?_⟩
  · unfold Disk.emptied
    split
    · exact Tree.wf_set h.wf (by simp)
    · exact h.wf
  · intro a' b'
    by_contra hfile
    have hbefore := (Shift.emptied d a b).products a' b' (by simpa using hfile)
    rw [h.flat] at hbefore
    cases hbefore

end Disk.Kept

namespace Desk

variable {cfg : Config} {d : Desk}

/-- The desk of a store that the controller and its operator have filled. -/
structure Well (d : Desk) : Prop where
  obsNodup : (d.observations.map Observation.id).Nodup
  obsBound : ∀ o ∈ d.observations, o.id ≤ d.obsSeq
  runNodup : (d.processingRuns.map ProcessingRun.id).Nodup
  runBound : ∀ r ∈ d.processingRuns, r.id ≤ d.runSeq
  msPath : ∀ o ∈ d.observations, o.msPath = msPathOf o.id
  outputs : ∀ r ∈ d.processingRuns, ∃ a b, parent r.outputPrefix = ["products", a, b]
  lone : ∀ r ∈ d.processingRuns, ∀ q ∈ d.processingRuns, q.observationId = r.observationId →
    r.state ≠ .superseded → q.state ≠ .superseded → q.id = r.id
  disk : d.disk.Kept

namespace Well

theorem ids {s : Shared} (h : s.desk.Well) : s.db.Ids :=
  ⟨h.obsNodup, h.obsBound, h.runNodup, h.runBound⟩

theorem mapObservations (h : d.Well) {f : Observation → Observation}
    (hid : ∀ o, (f o).id = o.id) (hpath : ∀ o, (f o).msPath = o.msPath) :
    Well { d with observations := d.observations.map f } where
  obsNodup := by
    rw [List.map_map, show Observation.id ∘ f = Observation.id from funext hid]
    exact h.obsNodup
  obsBound o ho := by
    obtain ⟨p, hp, rfl⟩ := List.mem_map.mp ho
    rw [hid]
    exact h.obsBound p hp
  runNodup := h.runNodup
  runBound := h.runBound
  msPath o ho := by
    obtain ⟨p, hp, rfl⟩ := List.mem_map.mp ho
    rw [hid, hpath]
    exact h.msPath p hp
  outputs := h.outputs
  lone := h.lone
  disk := h.disk

theorem mapRuns (h : d.Well) {f : ProcessingRun → ProcessingRun} (hid : ∀ r, (f r).id = r.id)
    (howner : ∀ r, (f r).observationId = r.observationId)
    (hpath : ∀ r, (f r).outputPrefix = r.outputPrefix)
    (hopen : ∀ r, (f r).state ≠ .superseded → r.state ≠ .superseded) :
    Well { d with processingRuns := d.processingRuns.map f } where
  obsNodup := h.obsNodup
  obsBound := h.obsBound
  runNodup := by
    rw [List.map_map, show ProcessingRun.id ∘ f = ProcessingRun.id from funext hid]
    exact h.runNodup
  runBound r hr := by
    obtain ⟨q, hq, rfl⟩ := List.mem_map.mp hr
    rw [hid]
    exact h.runBound q hq
  msPath := h.msPath
  outputs r hr := by
    obtain ⟨q, hq, rfl⟩ := List.mem_map.mp hr
    rw [hpath]
    exact h.outputs q hq
  lone r hr q hq := by
    obtain ⟨r', hr', rfl⟩ := List.mem_map.mp hr
    obtain ⟨q', hq', rfl⟩ := List.mem_map.mp hq
    rw [howner, howner, hid, hid]
    exact fun hsame hopenR hopenQ => h.lone r' hr' q' hq' hsame (hopen r' hopenR) (hopen q' hopenQ)
  disk := h.disk

theorem withFiles (h : d.Well) {disk : Disk} {ctl : Ctl} (hdisk : disk.Kept) :
    Well { d with disk := disk, ctl := ctl } :=
  ⟨h.obsNodup, h.obsBound, h.runNodup, h.runBound, h.msPath, h.outputs, h.lone, hdisk⟩

end Well

@[simp] theorem sweptRow_id (d : Desk) (o : Observation) : (d.sweptRow o).id = o.id := by
  unfold sweptRow
  split <;> rfl

@[simp] theorem sweptRow_msPath (d : Desk) (o : Observation) :
    (d.sweptRow o).msPath = o.msPath := by
  unfold sweptRow
  split <;> rfl

@[simp] theorem failedRow_id (d : Desk) (r : ProcessingRun) : (d.failedRow r).id = r.id := by
  unfold failedRow
  split <;> rfl

@[simp] theorem exhaustedRow_id (d : Desk) (r : ProcessingRun) :
    (d.exhaustedRow cfg r).id = r.id := by
  unfold exhaustedRow
  split <;> rfl

@[simp] theorem retriedRow_id (d : Desk) (r : ProcessingRun) :
    (d.retriedRow cfg r).id = r.id := by
  unfold retriedRow
  split <;> rfl

namespace Well

theorem aside (h : d.Well) {os : List Observation} (hos : ∀ o ∈ os, o ∈ d.observations) :
    (d.aside os).Well := by
  refine h.withFiles ?_
  suffices hall : ∀ (os : List Observation) (f : Disk × Option AuxCache), f.1.Kept →
      (∀ o ∈ os, o ∈ d.observations) → (os.foldl asideStep f).1.Kept by
    exact hall os _ h.disk hos
  intro os
  induction os with
  | nil => exact fun f hf _ => hf
  | cons o rest ih =>
    intro f hf hos
    refine ih _ ?_ fun p hp => hos p (List.mem_cons_of_mem _ hp)
    unfold asideStep
    split
    · rw [h.msPath o (hos o (by simp)), msPathOf]
      exact hf.setAside _ _
    · exact hf

theorem swept (h : d.Well) : d.swept.Well :=
  (h.aside fun _ ho => (List.mem_filter.mp ho).1).mapObservations (sweptRow_id d)
    (sweptRow_msPath d)

theorem failed (h : d.Well) : d.failed.Well := by
  refine h.mapRuns (failedRow_id d) ?_ ?_ ?_ <;> intro r <;> unfold failedRow <;> split <;>
    simp_all [abandoned]

theorem exhausted (h : d.Well) : (d.exhausted cfg).Well := by
  refine h.mapRuns (exhaustedRow_id d) ?_ ?_ ?_ <;> intro r <;> unfold exhaustedRow <;> split <;>
    simp_all

theorem cleared (h : d.Well) {rs : List ProcessingRun} (hrs : ∀ r ∈ rs, r ∈ d.processingRuns) :
    (d.cleared rs).Kept := by
  suffices hall : ∀ (rs : List ProcessingRun) (disk : Disk), disk.Kept →
      (∀ r ∈ rs, r ∈ d.processingRuns) →
      (rs.foldl (fun disk r => disk.emptied (parent r.outputPrefix)) disk).Kept by
    exact hall rs _ h.disk hrs
  intro rs
  induction rs with
  | nil => exact fun disk hdisk _ => hdisk
  | cons r rest ih =>
    intro disk hdisk hrs
    refine ih _ ?_ fun q hq => hrs q (List.mem_cons_of_mem _ hq)
    obtain ⟨a, b, hout⟩ := h.outputs r (hrs r (by simp))
    change (disk.emptied (parent r.outputPrefix)).Kept
    rw [hout]
    exact hdisk.emptied a b

theorem retried (h : d.Well) : (d.retried cfg).Well := by
  have hfiles : Well { d with disk := d.cleared (d.processingRuns.filter (d.retries cfg)) } :=
    h.withFiles (h.cleared fun _ hr => (List.mem_filter.mp hr).1)
  refine hfiles.mapRuns (retriedRow_id d) ?_ ?_ ?_ <;> intro r <;> unfold retriedRow <;> split <;>
    simp_all [retries]

theorem resumed (h : d.Well) : d.resumed.Well := h.withFiles h.disk

theorem remembered (h : d.Well) : d.remembered.Well := h.withFiles h.disk

theorem opened (h : d.Well) : (d.opened cfg).Well where
  obsNodup := by
    have hfresh : d.obsSeq + 1 ∉ d.observations.map Observation.id := by
      intro hmem
      obtain ⟨o, ho, hid⟩ := List.mem_map.mp hmem
      have hle := h.obsBound o ho
      omega
    simpa [Desk.opened, planned, List.nodup_append] using
      ⟨h.obsNodup, fun o ho heq => hfresh (heq ▸ List.mem_map_of_mem ho)⟩
  obsBound o ho := by
    rcases List.mem_append.mp ho with ho | ho
    · exact Nat.le_succ_of_le (h.obsBound o ho)
    · rw [List.mem_singleton.mp ho]
      exact Nat.le_refl _
  runNodup := h.runNodup
  runBound := h.runBound
  msPath o ho := by
    rcases List.mem_append.mp ho with ho | ho
    · exact h.msPath o ho
    · rw [List.mem_singleton.mp ho]
      rfl
  outputs := h.outputs
  lone := h.lone
  disk := h.disk

theorem admitted (h : d.Well) : (d.admitted cfg).Well := by
  unfold Desk.admitted
  split
  · exact h
  · split
    · exact h.remembered.opened
    · exact h.remembered

end Well
end Desk

theorem Limits.Reach.well {w : World Op.Reply Exn Shared Role Entry} (h : unlimited.Reach w) :
    w.shared.desk.Well where
  obsNodup := h.inv.db.ids.obsNodup
  obsBound := h.inv.db.ids.obsBound
  runNodup := h.inv.db.ids.runNodup
  runBound := h.inv.db.ids.runBound
  msPath o ho := h.inv.db.msPath _ o (h.inv.db.ids.obs? ho)
  outputs := h.regular.flat
  lone r hr q hq hsame hopen hopen' := by
    have hrow : r ∈ w.shared.db.runsOf r.observationId := Db.mem_runsOf.mpr ⟨hr, rfl⟩
    have hrow' : q ∈ w.shared.db.runsOf r.observationId := Db.mem_runsOf.mpr ⟨hq, hsame⟩
    rw [(h.inv.db.chain r.observationId).unique hrow hrow' hopen hopen']
  disk := ⟨h.inv.disk.wf, h.inv.disk.dirs, h.keeps flat_keeps⟩

end Sdpctl
