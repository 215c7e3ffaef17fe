import Sdpctl.Keyed
import Sdpctl.Restart.Files

/-!
What a restart is about: the rows of the two tables and the files, without the
history and without the memory of any process.
-/

namespace Sdpctl

open FileTree

structure Estate where
  observations : List Observation
  processingRuns : List ProcessingRun
  disk : Disk

def Shared.estate (s : Shared) : Estate := ⟨s.db.observations, s.db.processingRuns, s.disk⟩

namespace Estate

variable {E F G : Estate}

def obs? (E : Estate) (oid : Nat) : Option Observation :=
  Keyed.find Observation.id E.observations oid

def run? (E : Estate) (rid : Nat) : Option ProcessingRun :=
  Keyed.find ProcessingRun.id E.processingRuns rid

def putObs (E : Estate) (o : Observation) : Estate :=
  { E with observations := Keyed.replace Observation.id o E.observations }

def putRun (E : Estate) (r : ProcessingRun) : Estate :=
  { E with processingRuns := Keyed.replace ProcessingRun.id r E.processingRuns }

/-- Raw data has its own place under `observations/`, output is below
`products/`, and the layout stands. -/
structure Placed (E : Estate) : Prop where
  obsNodup : (E.observations.map Observation.id).Nodup
  runNodup : (E.processingRuns.map ProcessingRun.id).Nodup
  msPath : ∀ o ∈ E.observations, ∃ n, o.msPath = ["observations", n]
  own : ∀ o ∈ E.observations, ∀ p ∈ E.observations, o.msPath = p.msPath → o.id = p.id
  outputs : ∀ r ∈ E.processingRuns, ∃ a p, parent r.outputPrefix = "products" :: a :: p
  stands : E.disk.Stands

/-- Nothing is unknown under `observations/`, and output directories are directories. -/
structure Regular (E : Estate) : Prop extends Placed E where
  covered : ∀ n, E.disk.has ["observations", n] = true →
    ∃ o ∈ E.observations, o.msPath = ["observations", n]
  flat : ∀ r ∈ E.processingRuns, ∃ a b, parent r.outputPrefix = ["products", a, b]
  noFile : ∀ r ∈ E.processingRuns, E.disk.isFileAt (parent r.outputPrefix) = false

end Estate

/-- A change of the disk that adds nothing but quarantine and trash. -/
structure Disk.Shift (d d' : Disk) : Prop where
  stands : d.Stands → d'.Stands
  entries : ∀ n, d'.has ["observations", n] = true → d.has ["observations", n] = true
  products : ∀ a b, d'.isFileAt ["products", a, b] = true → d.isFileAt ["products", a, b] = true

namespace Estate

variable {E F G : Estate}

/-- Every row is in its place: its id and its path have not changed. -/
structure SameRows (E F : Estate) : Prop where
  observations : F.observations.map (fun o => (o.id, o.msPath)) =
    E.observations.map (fun o => (o.id, o.msPath))
  processingRuns : F.processingRuns.map (fun r => (r.id, r.outputPrefix)) =
    E.processingRuns.map (fun r => (r.id, r.outputPrefix))

/-- A change that keeps every row in its place, and adds nothing but quarantine
and trash to the disk. -/
structure Shift (E F : Estate) : Prop extends SameRows E F where
  disk : E.disk.Shift F.disk

theorem mem_of_obs? {i : Nat} {o : Observation} (h : E.obs? i = some o) :
    o ∈ E.observations ∧ o.id = i := Keyed.mem_of_find h

theorem mem_of_run? {i : Nat} {r : ProcessingRun} (h : E.run? i = some r) :
    r ∈ E.processingRuns ∧ r.id = i := Keyed.mem_of_find h

theorem Placed.obs? (h : E.Placed) {o : Observation} (ho : o ∈ E.observations) :
    E.obs? o.id = some o := Keyed.find_of_mem h.obsNodup ho

theorem Placed.run? (h : E.Placed) {r : ProcessingRun} (hr : r ∈ E.processingRuns) :
    E.run? r.id = some r := Keyed.find_of_mem h.runNodup hr

theorem obs?_putObs {o o' : Observation} (h : E.obs? o'.id = some o) (i : Nat) :
    (E.putObs o').obs? i = if i = o'.id then some o' else E.obs? i := Keyed.find_replace h i

theorem run?_putRun {r r' : ProcessingRun} (h : E.run? r'.id = some r) (i : Nat) :
    (E.putRun r').run? i = if i = r'.id then some r' else E.run? i := Keyed.find_replace h i

theorem putObs_self (h : E.Placed) {o : Observation} (ho : E.obs? o.id = some o) :
    E.putObs o = E := by
  have hid := Keyed.map_replace id h.obsNodup ho rfl
  rw [List.map_id, List.map_id] at hid
  unfold putObs
  rw [hid]

namespace SameRows

theorem refl (E : Estate) : E.SameRows E := ⟨rfl, rfl⟩

theorem trans (h : E.SameRows F) (h' : F.SameRows G) : E.SameRows G :=
  ⟨h'.observations.trans h.observations, h'.processingRuns.trans h.processingRuns⟩

theorem putObs (h : E.Placed) {o o' : Observation} {d : Disk} (ho : E.obs? o'.id = some o)
    (hpath : o'.msPath = o.msPath) : E.SameRows { E.putObs o' with disk := d } where
  observations := by
    have hid : o'.id = o.id := (mem_of_obs? ho).2.symm
    exact Keyed.map_replace (fun o => (o.id, o.msPath)) h.obsNodup ho (by simp [hid, hpath])
  processingRuns := rfl

theorem putRun (h : E.Placed) {r r' : ProcessingRun} {d : Disk} (hr : E.run? r'.id = some r)
    (hpath : r'.outputPrefix = r.outputPrefix) : E.SameRows { E.putRun r' with disk := d } where
  observations := rfl
  processingRuns := by
    have hid : r'.id = r.id := (mem_of_run? hr).2.symm
    exact Keyed.map_replace (fun r => (r.id, r.outputPrefix)) h.runNodup hr (by simp [hid, hpath])

theorem mem_obs (h : E.SameRows F) {o : Observation} (ho : o ∈ F.observations) :
    ∃ p ∈ E.observations, p.id = o.id ∧ p.msPath = o.msPath := by
  have hmem : (o.id, o.msPath) ∈ F.observations.map (fun o => (o.id, o.msPath)) :=
    List.mem_map_of_mem ho
  rw [h.observations] at hmem
  obtain ⟨p, hp, heq⟩ := List.mem_map.mp hmem
  rw [Prod.mk.injEq] at heq
  exact ⟨p, hp, heq⟩

theorem mem_run (h : E.SameRows F) {r : ProcessingRun} (hr : r ∈ F.processingRuns) :
    ∃ q ∈ E.processingRuns, q.id = r.id ∧ q.outputPrefix = r.outputPrefix := by
  have hmem : (r.id, r.outputPrefix) ∈ F.processingRuns.map (fun r => (r.id, r.outputPrefix)) :=
    List.mem_map_of_mem hr
  rw [h.processingRuns] at hmem
  obtain ⟨q, hq, heq⟩ := List.mem_map.mp hmem
  rw [Prod.mk.injEq] at heq
  exact ⟨q, hq, heq⟩

theorem obsKeys (h : E.SameRows F) :
    F.observations.map Observation.id = E.observations.map Observation.id := by
  have hkeys := congrArg (List.map Prod.fst) h.observations
  simpa [List.map_map, Function.comp_def] using hkeys

theorem runKeys (h : E.SameRows F) :
    F.processingRuns.map ProcessingRun.id = E.processingRuns.map ProcessingRun.id := by
  have hkeys := congrArg (List.map Prod.fst) h.processingRuns
  simpa [List.map_map, Function.comp_def] using hkeys

theorem msPaths (h : E.SameRows F) :
    F.observations.map Observation.msPath = E.observations.map Observation.msPath := by
  have hpaths := congrArg (List.map Prod.snd) h.observations
  simpa [List.map_map, Function.comp_def] using hpaths

theorem msPath (h : E.SameRows F) (hplaced : E.Placed) {i : Nat} {o o' : Observation}
    (ho : E.obs? i = some o) (ho' : F.obs? i = some o') : o'.msPath = o.msPath := by
  obtain ⟨hmem, rfl⟩ := mem_of_obs? ho'
  obtain ⟨p, hp, hid, hpath⟩ := h.mem_obs hmem
  have hfound := hplaced.obs? hp
  rw [hid, ho] at hfound
  cases hfound
  exact hpath.symm

theorem obs? (h : E.SameRows F) (hplaced : F.Placed) {o : Observation}
    (ho : o ∈ E.observations) : ∃ o', F.obs? o.id = some o' ∧ o'.msPath = o.msPath := by
  have hmem : (o.id, o.msPath) ∈ E.observations.map (fun o => (o.id, o.msPath)) :=
    List.mem_map_of_mem ho
  rw [← h.observations] at hmem
  obtain ⟨o', ho', heq⟩ := List.mem_map.mp hmem
  rw [Prod.mk.injEq] at heq
  exact ⟨o', heq.1 ▸ hplaced.obs? ho', heq.2⟩

theorem placed (hrows : E.SameRows F) (h : E.Placed) (hstands : F.disk.Stands) : F.Placed where
  obsNodup := by
    rw [hrows.obsKeys]
    exact h.obsNodup
  runNodup := by
    rw [hrows.runKeys]
    exact h.runNodup
  msPath o ho := by
    obtain ⟨p, hp, _, hpath⟩ := hrows.mem_obs ho
    rw [← hpath]
    exact h.msPath p hp
  own o ho p hp heq := by
    obtain ⟨o₀, ho₀, hid, hpath⟩ := hrows.mem_obs ho
    obtain ⟨p₀, hp₀, hid', hpath'⟩ := hrows.mem_obs hp
    rw [← hid, ← hid']
    exact h.own o₀ ho₀ p₀ hp₀ (by rw [hpath, hpath', heq])
  outputs r hr := by
    obtain ⟨q, hq, _, hpath⟩ := hrows.mem_run hr
    rw [← hpath]
    exact h.outputs q hq
  stands := hstands

end SameRows

theorem Shift.refl (E : Estate) : E.Shift E := ⟨.refl E, ⟨id, fun _ h => h, fun _ _ h => h⟩⟩

theorem Shift.files {d : Disk} (h : E.disk.Shift d) : E.Shift { E with disk := d } :=
  ⟨⟨rfl, rfl⟩, h⟩

theorem Placed.shift (h : E.Placed) (hshift : E.Shift F) : F.Placed :=
  hshift.placed h (hshift.disk.stands h.stands)

theorem Regular.shift (h : E.Regular) (hshift : E.Shift F) : F.Regular where
  toPlaced := h.toPlaced.shift hshift
  covered n hn := by
    obtain ⟨o, ho, hpath⟩ := h.covered n (hshift.disk.entries n hn)
    have hmem : (o.id, o.msPath) ∈ E.observations.map (fun o => (o.id, o.msPath)) :=
      List.mem_map_of_mem ho
    rw [← hshift.observations] at hmem
    obtain ⟨p, hp, heq⟩ := List.mem_map.mp hmem
    rw [Prod.mk.injEq] at heq
    exact ⟨p, hp, heq.2.trans hpath⟩
  flat r hr := by
    obtain ⟨q, hq, _, hpath⟩ := hshift.mem_run hr
    rw [← hpath]
    exact h.flat q hq
  noFile r hr := by
    obtain ⟨q, hq, _, hpath⟩ := hshift.mem_run hr
    obtain ⟨a, b, hout⟩ := h.flat q hq
    have hno := h.noFile q hq
    rw [← hpath, hout]
    rw [hout] at hno
    by_contra hfile
    have hfile' := hshift.disk.products a b (by simpa using hfile)
    simp [hno] at hfile'

end Estate
end Sdpctl
