import Sdpctl.Restart.Outcome

/-!
What belongs to one entity: an observation with its runs, or an unknown child of
`observations/`. Every repair of a restart stays within the observation that it is
about, and reads nothing else, so what a restart makes of an observation depends
on its own rows and its own files only.
-/

namespace Sdpctl

open FileTree

inductive Entity where
  | observation (oid : Nat)
  | child (name : String)
  deriving DecidableEq

namespace Entity

/-- The places on the disk that belong to the entity. -/
def Owns : Entity → Path → Prop
  | .observation oid, p =>
      p = msPathOf oid ∨ p = trashPath oid ∨ ∃ attempt, p = outputDir oid attempt
  | .child name, p => p = ["observations", name]

def place : Entity → Path
  | .observation oid => msPathOf oid
  | .child name => ["observations", name]

/-- The name under which its raw data is set aside. -/
def label : Entity → String
  | .observation oid => partialLabel oid "partial"
  | .child name => "orphan-" ++ name

theorem Owns.ne_nil {e : Entity} {p : Path} (h : e.Owns p) : p ≠ [] := by
  cases e with
  | observation oid => rcases h with rfl | rfl | ⟨a, rfl⟩ <;> simp [msPathOf, trashPath, outputDir]
  | child name => simp [show p = ["observations", name] from h]

theorem Owns.apart_entry {e : Entity} {p : Path} (h : e.Owns p) (name : String) :
    Apart p (quarantineEntry name) := by
  cases e with
  | observation oid =>
    rcases h with rfl | rfl | ⟨a, rfl⟩ <;>
      simp [msPathOf, trashPath, outputDir, quarantineEntry]
  | child n => simp [show p = ["observations", n] from h, quarantineEntry]

theorem Owns.apart {i j : Nat} {p q : Path} (hp : (observation i).Owns p)
    (hq : (observation j).Owns q) (hne : i ≠ j) : Apart p q := by
  have hdir : ∀ a b, Apart (outputDir i a) (outputDir j b) := by
    intro a b
    have hfirst : "obs-" ++ padded 6 i ≠ "obs-" ++ padded 6 j := fun h =>
      hne (padded_injective 6 (append_left_cancel h))
    simp [outputDir, hfirst]
  rcases hp with rfl | rfl | ⟨a, rfl⟩ <;> rcases hq with rfl | rfl | ⟨b, rfl⟩
  · simpa [msPathOf] using hne
  · simp [msPathOf, trashPath]
  · simp [msPathOf, outputDir]
  · simp [msPathOf, trashPath]
  · simpa [trashPath] using hne
  · simp [trashPath, outputDir]
  · simp [msPathOf, outputDir]
  · simp [trashPath, outputDir]
  · exact hdir a b

end Entity

namespace Estate

variable {E E' F G : Estate} {i j : Nat}

def runsOf (E : Estate) (oid : Nat) : List ProcessingRun :=
  E.processingRuns.filter fun q => q.observationId == oid

/-- The entity is one of these rows and files: an observation has a row, and a child
of `observations/` is known to none. -/
def Has (E : Estate) : Entity → Prop
  | .observation oid => (E.obs? oid).isSome
  | .child name => ["observations", name] ∉ E.observations.map Observation.msPath

/-- Every row has the paths that its ids give it, and every run its observation. -/
structure Named (E : Estate) : Prop extends Placed E where
  rowPath : ∀ o ∈ E.observations, o.msPath = msPathOf o.id
  runPath : ∀ q ∈ E.processingRuns, ∃ a, parent q.outputPrefix = outputDir q.observationId a
  runOwner : ∀ q ∈ E.processingRuns, E.Has (.observation q.observationId)

theorem Named.owner (h : E.Named) {e e' : Entity} {p : Path} (he : E.Has e) (he' : E.Has e')
    (hp : e.Owns p) (hp' : e'.Owns p) : e = e' := by
  have hknown : ∀ {i n}, E.Has (.observation i) → E.Has (.child n) →
      (Entity.observation i).Owns ["observations", n] → False := by
    intro i n hi hn hown
    obtain ⟨o, ho⟩ := Option.isSome_iff_exists.mp hi
    obtain ⟨hmem, rfl⟩ := mem_of_obs? ho
    rcases hown with heq | heq | ⟨a, heq⟩
    · exact hn (List.mem_map.mpr ⟨o, hmem, (h.rowPath o hmem).trans heq.symm⟩)
    · simp [trashPath] at heq
    · simp [outputDir] at heq
  cases e with
  | observation i =>
    cases e' with
    | observation j =>
      by_contra hne
      exact Apart.irrefl p (hp.apart hp' fun heq => hne (heq ▸ rfl))
    | child n =>
      cases hp'
      exact (hknown he he' hp).elim
  | child n =>
    cases hp
    cases e' with
    | observation j => exact (hknown he' he hp').elim
    | child m =>
      have heq : ["observations", n] = ["observations", m] := hp'
      simp at heq
      rw [heq]

/-- The rows are the same but for their contents. -/
structure Kin (E F : Estate) : Prop where
  observations : F.observations.map (fun o => (o.id, o.msPath)) =
    E.observations.map (fun o => (o.id, o.msPath))
  processingRuns : F.processingRuns.map (fun q => (q.id, q.observationId, q.outputPrefix)) =
    E.processingRuns.map (fun q => (q.id, q.observationId, q.outputPrefix))

namespace Kin

theorem refl (E : Estate) : E.Kin E := ⟨rfl, rfl⟩

theorem trans (h : E.Kin F) (h' : F.Kin G) : E.Kin G :=
  ⟨h'.observations.trans h.observations, h'.processingRuns.trans h.processingRuns⟩

theorem symm (h : E.Kin F) : F.Kin E := ⟨h.observations.symm, h.processingRuns.symm⟩

theorem sameRows (h : E.Kin F) : E.SameRows F where
  observations := h.observations
  processingRuns := by
    have hruns := congrArg (List.map fun x => (x.1, x.2.2)) h.processingRuns
    simpa [List.map_map, Function.comp_def] using hruns

theorem mem_run (h : E.Kin F) {q : ProcessingRun} (hq : q ∈ F.processingRuns) :
    ∃ r ∈ E.processingRuns, r.id = q.id ∧ r.observationId = q.observationId ∧
      r.outputPrefix = q.outputPrefix := by
  have hmem : (q.id, q.observationId, q.outputPrefix) ∈
      F.processingRuns.map (fun q => (q.id, q.observationId, q.outputPrefix)) :=
    List.mem_map_of_mem hq
  rw [h.processingRuns] at hmem
  obtain ⟨r, hr, heq⟩ := List.mem_map.mp hmem
  simp only [Prod.mk.injEq] at heq
  exact ⟨r, hr, heq⟩

theorem has (h : E.Kin F) {e : Entity} : F.Has e ↔ E.Has e := by
  cases e with
  | observation i =>
    have hsome : ∀ {E F : Estate}, E.Kin F → F.Has (.observation i) → E.Has (.observation i) := by
      intro E F h hi
      obtain ⟨o, ho⟩ := Option.isSome_iff_exists.mp hi
      obtain ⟨hmem, rfl⟩ := mem_of_obs? ho
      obtain ⟨p, hp, hid, _⟩ := h.sameRows.mem_obs hmem
      have hne : E.obs? o.id ≠ none := fun hnone => Keyed.find_eq_none_iff.mp hnone p hp hid
      exact Option.isSome_iff_ne_none.mpr hne
    exact ⟨hsome h, hsome h.symm⟩
  | child n =>
    unfold Has
    rw [h.sameRows.msPaths]

theorem named (h : E.Kin F) (hE : E.Named) (hstands : F.disk.Stands) : F.Named where
  toPlaced := h.sameRows.placed hE.toPlaced hstands
  rowPath o ho := by
    obtain ⟨p, hp, hid, hpath⟩ := h.sameRows.mem_obs ho
    rw [← hpath, ← hid]
    exact hE.rowPath p hp
  runPath q hq := by
    obtain ⟨r, hr, _, howner, hpath⟩ := h.mem_run hq
    rw [← hpath, ← howner]
    exact hE.runPath r hr
  runOwner q hq := by
    obtain ⟨r, hr, _, howner, _⟩ := h.mem_run hq
    rw [← howner]
    exact h.has.mpr (hE.runOwner r hr)

end Kin

/-- What belongs to an observation is the same. -/
structure Alike (i : Nat) (E F : Estate) : Prop where
  row : F.obs? i = E.obs? i
  runs : F.runsOf i = E.runsOf i
  data : ∀ p, (Entity.observation i).Owns p → F.disk.get? p = E.disk.get? p

namespace Alike

theorem refl (i : Nat) (E : Estate) : Alike i E E := ⟨rfl, rfl, fun _ _ => rfl⟩

theorem trans (h : Alike i E F) (h' : Alike i F G) : Alike i E G :=
  ⟨h'.row.trans h.row, h'.runs.trans h.runs, fun p hp => (h'.data p hp).trans (h.data p hp)⟩

theorem symm (h : Alike i E F) : Alike i F E :=
  ⟨h.row.symm, h.runs.symm, fun p hp => (h.data p hp).symm⟩

end Alike

/-- A change that stays within one observation, up to what it sets aside. -/
structure Within (i : Nat) (E F : Estate) : Prop where
  kin : E.Kin F
  row : ∀ j, j ≠ i → F.obs? j = E.obs? j
  runs : ∀ j, j ≠ i → F.runsOf j = E.runsOf j
  elsewhere : ∀ p, (∀ q, (Entity.observation i).Owns q → Apart p q) →
    (∀ name, Apart p (quarantineEntry name)) → F.disk.get? p = E.disk.get? p
  quarantine : ∀ name t, E.disk.get? (quarantineEntry name) = some t →
    F.disk.get? (quarantineEntry name) = some t
  stands : E.disk.Stands → F.disk.Stands

namespace Within

theorem refl (i : Nat) (E : Estate) : Within i E E :=
  ⟨.refl E, fun _ _ => rfl, fun _ _ => rfl, fun _ _ _ => rfl, fun _ _ h => h, id⟩

theorem named (h : Within i E F) (hE : E.Named) : F.Named := h.kin.named hE (h.stands hE.stands)

theorem alike (h : Within i E F) (hne : j ≠ i) : Alike j E F where
  row := h.row j hne
  runs := h.runs j hne
  data p hp := h.elsewhere p (fun _ hq => hp.apart hq hne) hp.apart_entry

end Within

/-- Named estates with the same rows that agree on the observations outside `F`. -/
structure Agree (F : Nat → Prop) (A B : Estate) : Prop where
  left : A.Named
  right : B.Named
  kin : A.Kin B
  alike : ∀ i, ¬ F i → Alike i A B

namespace Agree

variable {F : Nat → Prop} {A A' B B' C : Estate}

theorem refl (h : A.Named) : Agree F A A := ⟨h, h, .refl A, fun i _ => .refl i A⟩

theorem trans (h : Agree F A B) (h' : Agree F B C) : Agree F A C :=
  ⟨h.left, h'.right, h.kin.trans h'.kin, fun i hi => (h.alike i hi).trans (h'.alike i hi)⟩

/-- A change within one observation on each side, that is the same for it unless it
is in `F`. -/
theorem within (h : Agree F A B) (hA : Within i A A') (hB : Within i B B')
    (hsame : ¬ F i → Alike i A' B') : Agree F A' B' := by
  refine ⟨hA.named h.left, hB.named h.right, (hA.kin.symm.trans h.kin).trans hB.kin,
    fun j hj => ?_⟩
  by_cases hji : j = i
  · subst hji
    exact hsame hj
  · exact ((hA.alike hji).symm.trans (h.alike j hj)).trans (hB.alike hji)

end Agree

/-- The row and the files of one observation are different; both are in their places. -/
def Touches (E : Estate) (o : Observation) (F : Estate) : Prop :=
  ∃ (r : Observation) (d : Disk), r.id = o.id ∧ r.msPath = o.msPath ∧ E.disk.Local d o ∧
    F = { E.putObs r with disk := d }

theorem Touches.within {o : Observation} (hE : E.Named) (ho : E.obs? o.id = some o)
    (h : E.Touches o F) : Within o.id E F := by
  obtain ⟨r, d, hid, hpath, hlocal, rfl⟩ := h
  have hfound : E.obs? r.id = some o := by rw [hid]; exact ho
  refine ⟨⟨(SameRows.putObs hE.toPlaced hfound hpath).observations, rfl⟩, fun j hj => ?_,
    fun _ _ => rfl, fun p hp hq => ?_, hlocal.quarantine, hlocal.stands⟩
  · exact (obs?_putObs hfound j).trans (if_neg (by rwa [hid]))
  · refine hlocal.elsewhere p (hp _ ?_) (hp _ (.inr (.inl rfl))) hq
    exact .inl (hE.rowPath o (mem_of_obs? ho).1)

end Estate

/-- A mending that depends on what belongs to the observation only. -/
structure Mending.Private (m : Mending) : Prop where
  row : ∀ {A B : Estate} {o : Observation}, A.Named → o ∈ A.observations →
    Estate.Alike o.id A B → m.row B o = m.row A o
  files : ∀ {A B : Estate} {o : Observation} {p : Path}, A.Named → o ∈ A.observations →
    B.disk.Stands → Estate.Alike o.id A B → (Entity.observation o.id).Owns p →
    (m.files B o).get? p = (m.files A o).get? p

namespace Mending

variable {m : Mending} {E F : Estate} {o : Observation} {i : Nat}

theorem Lawful.touches (hm : m.Lawful) (h : E.Placed) (ho : o ∈ E.observations) :
    E.Touches o (m.apply E o) :=
  ⟨m.row E o, m.files E o, hm.id E o, hm.msPath E o, hm.files h ho, rfl⟩

theorem Lawful.within (hm : m.Lawful) (h : E.Named) (i : Nat) :
    E.Within i ((m.repair i).fix E) := by
  by_cases hidle : ∀ o, E.obs? i = some o → o.state ≠ m.state
  · rw [fix_other hidle]
    exact .refl i E
  · simp only [not_forall, not_not] at hidle
    obtain ⟨o, ho, hstate⟩ := hidle
    obtain ⟨hmem, rfl⟩ := Estate.mem_of_obs? ho
    rw [fix_found ho hstate]
    exact (hm.touches h.toPlaced hmem).within h ho

/-- A mending of one observation makes the same of estates that agree on it. -/
theorem Lawful.respects (hm : m.Lawful) (hp : m.Private) (F : Nat → Prop) (i : Nat) :
    (m.repair i).Respects (Estate.Agree F) := by
  intro A B h
  refine h.within (hm.within h.left i) (hm.within h.right i) fun hi => ?_
  have halike := h.alike i hi
  by_cases hidle : ∀ o, A.obs? i = some o → o.state ≠ m.state
  · rw [fix_other hidle, fix_other (halike.row ▸ hidle)]
    exact halike
  simp only [not_forall, not_not] at hidle
  obtain ⟨o, ho, hstate⟩ := hidle
  obtain ⟨hmem, rfl⟩ := Estate.mem_of_obs? ho
  have ho' : B.obs? o.id = some o := halike.row.trans ho
  rw [fix_found ho hstate, fix_found ho' hstate]
  refine ⟨?_, halike.runs, fun p hown => hp.files h.left hmem h.right.stands halike hown⟩
  rw [hm.obs?_apply ho, hm.obs?_apply ho', if_pos rfl, if_pos rfl, hp.row h.left hmem halike]

end Mending

section Private

variable {A B : Estate} {o : Observation}

theorem Estate.Alike.live (h : Estate.Alike o.id A B) (hA : A.Named) (ho : o ∈ A.observations) :
    B.disk.get? o.msPath = A.disk.get? o.msPath := h.data _ (.inl (hA.rowPath o ho))

theorem Estate.Alike.trash (h : Estate.Alike o.id A B) :
    B.disk.get? (trashPath o.id) = A.disk.get? (trashPath o.id) := h.data _ (.inr (.inl rfl))

theorem givingUp_private : givingUp.Private where
  row _ _ _ := rfl
  files {A B o p} hA ho hB h hown := by
    obtain ⟨n, hn⟩ := hA.msPath o ho
    simp only [givingUp, hn]
    by_cases hlive : p = o.msPath
    · rw [hlive, hn, Disk.setAside_gone hB, Disk.setAside_gone hA.stands]
    · have hapart : Apart p ["observations", n] := by
        rw [hA.rowPath o ho] at hlive hn
        rw [← hn]
        rcases hown with rfl | rfl | ⟨a, rfl⟩
        · exact absurd rfl hlive
        · simp [trashPath, msPathOf]
        · simp [outputDir, msPathOf]
      rw [Disk.setAside_apart hapart hown.apart_entry, Disk.setAside_apart hapart hown.apart_entry]
      exact h.data p hown

theorem releasing_private : releasing.Private where
  row _ _ h := by
    have hreleases : ∀ {A B : Estate} {i : Nat}, Estate.Alike i A B →
        B.releases i = A.releases i := by
      intro A B i h
      have hruns := h.runs
      unfold Estate.runsOf at hruns
      rw [Estate.releases, Estate.releases, hruns]
    simp only [releasing, hreleases h]
  files _ _ _ h hown := h.data _ hown

theorem deleting_private : deleting.Private where
  row hA ho h := by
    simp only [deleting, Disk.wedged_congr (h.live hA ho) h.trash]
  files {A B o p} hA ho hB h hown := by
    simp only [deleting]
    have hwedged := Disk.wedged_congr (h.live hA ho) h.trash
    cases hw : A.disk.wedged o with
    | true =>
      rw [hw] at hwedged
      simp only [Disk.deleted, hw, hwedged]
      exact h.data p hown
    | false =>
      rw [hw] at hwedged
      rw [Disk.deleted_of_free hw, Disk.deleted_of_free hwedged]
      by_cases htrash : p = trashPath o.id
      · rw [htrash, Disk.emptied_gone (by simp [trashPath]),
          Disk.emptied_gone (by simp [trashPath])]
      have hapart : Apart p (trashPath o.id) := by
        rcases hown with rfl | rfl | ⟨a, rfl⟩
        · simp [msPathOf, trashPath]
        · exact absurd rfl htrash
        · simp [outputDir, trashPath]
      rw [Disk.emptied_apart hapart, Disk.emptied_apart hapart, hA.rowPath o ho]
      by_cases hlive : p = msPathOf o.id
      · rw [hlive]
        exact (Disk.trashed_gone hB).trans (Disk.trashed_gone hA.stands).symm
      have hlive' : Apart p (msPathOf o.id) := by
        rcases hown with rfl | rfl | ⟨a, rfl⟩
        · exact absurd rfl hlive
        · simp [msPathOf, trashPath]
        · simp [outputDir, msPathOf]
      exact (Disk.trashed_apart hlive' hapart).trans
        ((h.data p hown).trans (Disk.trashed_apart hlive' hapart).symm)

theorem verifying_private : verifying.Private where
  row {A B o} hA ho h := by
    have hhas := congrArg Option.isSome (h.live hA ho)
    simp only [verifying, show B.disk.has o.msPath = A.disk.has o.msPath from hhas]
  files _ _ _ h hown := h.data _ hown

end Private

section Abandoning

variable {E F A B : Estate} {q : ProcessingRun} {rid : Nat}

/-- A run that has failed is the only one of its observation to change. -/
theorem Estate.runsOf_putRun (h : E.Placed) (hq : E.run? q.id = some q) {r : ProcessingRun}
    (hid : r.id = q.id) (howner : r.observationId = q.observationId) (i : Nat) :
    (E.putRun r).runsOf i = Keyed.replace ProcessingRun.id r (E.runsOf i) := by
  refine Keyed.filter_replace fun x hx hkey => ?_
  have hfound := h.run? hx
  rw [hkey, hid, hq] at hfound
  cases hfound
  rw [howner]

theorem abandoning_within (h : E.Named) (hq : E.run? rid = some q)
    (hleaves : (abandoning rid).leaves E F) : Estate.Within q.observationId E F := by
  rcases hleaves with rfl | ⟨p, hp, _, _, hF⟩
  · exact .refl _ _
  rw [hq] at hp
  cases hp
  obtain ⟨hmem, rfl⟩ := Estate.mem_of_run? hq
  obtain ⟨a, hout⟩ := h.runPath q hmem
  rw [hout] at hF
  -- first the files, then the row
  have hfiles : ∀ d : Disk, (∀ p, Apart p (outputDir q.observationId a) →
      d.get? p = E.disk.get? p) → (E.disk.Stands → d.Stands) →
      Estate.Within q.observationId E { E with disk := d } := fun d hd hstands =>
    ⟨⟨rfl, rfl⟩, fun _ _ => rfl, fun _ _ => rfl, fun p hp _ => hd p (hp _ (.inr (.inr ⟨a, rfl⟩))),
      fun name t ht => (hd _ (by simp [quarantineEntry, outputDir])).trans ht, hstands⟩
  have hemptied := hfiles (E.disk.emptied (outputDir q.observationId a))
    (fun p hp => Disk.emptied_apart hp) fun hstands => hstands.emptied _ _ _
  rcases hF with rfl | ⟨u, d, hd, rfl⟩ | rfl
  · let failed : ProcessingRun := { q with state := .failed, exitCode := some (-1) }
    have hfailed : E.run? failed.id = some q := hq
    have hkin : E.Kin (E.abandon q) :=
      ⟨rfl, Keyed.map_replace (fun q => (q.id, q.observationId, q.outputPrefix)) h.runNodup
        hfailed rfl⟩
    have hdisk : (E.abandon q).disk = E.disk.emptied (outputDir q.observationId a) := by
      rw [← hout]
      rfl
    refine ⟨hkin, fun _ _ => rfl, fun j hj => ?_, ?_, ?_, ?_⟩
    · refine (Estate.runsOf_putRun h.toPlaced hq (r := failed) rfl rfl j).trans ?_
      refine Keyed.replace_eq_self fun x hx hkey => ?_
      obtain ⟨hx, howner⟩ := List.mem_filter.mp hx
      have hfound := h.run? hx
      rw [hkey, hfailed] at hfound
      cases hfound
      have hj' : q.observationId = j := by simpa using howner
      exact hj hj'.symm
    · rw [hdisk]
      exact hemptied.elsewhere
    · rw [hdisk]
      exact hemptied.quarantine
    · rw [hdisk]
      exact hemptied.stands
  · obtain ⟨_, _, hsame⟩ := Disk.rmtreePart_has (by simp [outputDir]) hd
    exact hfiles d hsame fun hstands => hstands.rmtreePart hd
  · exact hemptied

theorem abandoning_leaves_run? {i : Nat} (hne : i ≠ rid) (hleaves : (abandoning rid).leaves E F) :
    F.run? i = E.run? i := by
  rcases hleaves with rfl | ⟨q, hq, _, _, rfl | ⟨_, _, _, rfl⟩ | rfl⟩
  · rfl
  · obtain ⟨_, rfl⟩ := Estate.mem_of_run? hq
    rw [Estate.run?_abandon hq, if_neg hne]
  · rfl
  · rfl

/-- Whatever stands in the way of it, the attempt to give up a run leaves no more
than an interruption. -/
theorem abandoning_whole (E : Estate) (rid : Nat) :
    (abandoning rid).leaves E ((abandoning rid).fix E) := by
  by_cases hdone : (abandoning rid).done E
  · exact .inl (abandoning_other hdone)
  · simp only [abandoning, not_forall, Bool.not_eq_true] at hdone
    obtain ⟨q, hq, hrunning, hno⟩ := hdone
    exact .inr ⟨q, hq, hrunning, hno, .inl (abandoning_found hq hrunning hno)⟩

theorem abandon_alike (hA : A.Named) (hB : B.Named) (hq : A.run? q.id = some q)
    (hq' : B.run? q.id = some q) (h : Estate.Alike q.observationId A B) :
    Estate.Alike q.observationId (A.abandon q) (B.abandon q) := by
  let failed : ProcessingRun := { q with state := .failed, exitCode := some (-1) }
  obtain ⟨a, hout⟩ := hA.runPath q (Estate.mem_of_run? hq).1
  refine ⟨h.row, ?_, fun p hown => ?_⟩
  · have hruns := Estate.runsOf_putRun hA.toPlaced hq (r := failed) rfl rfl q.observationId
    have hruns' := Estate.runsOf_putRun hB.toPlaced hq' (r := failed) rfl rfl q.observationId
    rw [h.runs] at hruns'
    exact hruns'.trans hruns.symm
  · change (B.disk.emptied (parent q.outputPrefix)).get? p =
      (A.disk.emptied (parent q.outputPrefix)).get? p
    rw [hout]
    by_cases hp : p = outputDir q.observationId a
    · rw [hp, Disk.emptied_gone (by simp [outputDir]), Disk.emptied_gone (by simp [outputDir])]
    have hapart : Apart p (outputDir q.observationId a) := by
      rcases hown with rfl | rfl | ⟨b, rfl⟩
      · simp [msPathOf, outputDir]
      · simp [trashPath, outputDir]
      · have hne : "run-" ++ padded 3 b ≠ "run-" ++ padded 3 a := by
          intro heq
          rw [padded_injective 3 (append_left_cancel heq)] at hp
          exact hp rfl
        simp [outputDir, hne]
    rw [Disk.emptied_apart hapart, Disk.emptied_apart hapart]
    exact h.data p hown

theorem abandoning_respects (F : Nat → Prop) (rid : Nat) :
    (abandoning rid).Respects (Estate.Agree F) := by
  intro A B h
  cases hq : A.run? rid with
  | none =>
    have hnone : B.run? rid = none := by
      refine Keyed.find_eq_none_iff.mpr fun q hqB hid => ?_
      obtain ⟨r, hr, hrid, _⟩ := h.kin.mem_run hqB
      exact Keyed.find_eq_none_iff.mp hq r hr (hrid.trans hid)
    rw [abandoning_other (by simp [hq]), abandoning_other (by simp [hnone])]
    exact h
  | some q =>
    obtain ⟨hmem, rfl⟩ := Estate.mem_of_run? hq
    obtain ⟨q', hmem', hid, howner, _⟩ := h.kin.symm.mem_run hmem
    have hq' : B.run? q.id = some q' := hid ▸ h.right.run? hmem'
    refine h.within (abandoning_within h.left hq (abandoning_whole A _))
      (howner ▸ abandoning_within h.right hq' (abandoning_whole B _)) fun hi => ?_
    have halike := h.alike _ hi
    -- the run is the same on both sides
    have hown : q ∈ B.runsOf q.observationId := by
      rw [halike.runs]
      exact List.mem_filter.mpr ⟨hmem, by simp⟩
    have hsame : B.run? q.id = some q := h.right.run? (List.mem_filter.mp hown).1
    obtain ⟨a, hout⟩ := h.left.runPath q hmem
    have hfile : B.disk.isFileAt (parent q.outputPrefix) =
        A.disk.isFileAt (parent q.outputPrefix) := by
      unfold Disk.isFileAt
      rw [halike.data _ (.inr (.inr ⟨a, hout⟩))]
    by_cases hfix : q.state = .running ∧ A.disk.isFileAt (parent q.outputPrefix) = false
    · rw [abandoning_found hq hfix.1 hfix.2, abandoning_found hsame hfix.1 (hfile.trans hfix.2)]
      exact abandon_alike h.left h.right hq hsame halike
    · have hidle : ∀ E : Estate, E.run? q.id = some q →
          E.disk.isFileAt (parent q.outputPrefix) = A.disk.isFileAt (parent q.outputPrefix) →
          (abandoning q.id).fix E = E := by
        intro E hE hEfile
        refine abandoning_other fun p hp hrunning => ?_
        rw [hE] at hp
        cases hp
        rw [hEfile]
        by_contra hno
        exact hfix ⟨hrunning, by simpa using hno⟩
      rw [hidle A hq rfl, hidle B hsame hfile]
      exact halike

end Abandoning

theorem repairs_respect {E : Estate} {r : Repair Estate} (h : r ∈ E.repairs) (F : Nat → Prop) :
    r.Respects (Estate.Agree F) := by
  simp only [Estate.repairs, repairs, List.mem_append, List.mem_map] at h
  rcases h with ⟨i, _, rfl⟩ | ⟨rid, _, rfl⟩ | ⟨i, _, rfl⟩ | ⟨i, _, rfl⟩ | ⟨i, _, rfl⟩
  · exact givingUp_lawful.respects givingUp_private F i
  · exact abandoning_respects F rid
  · exact releasing_lawful.respects releasing_private F i
  · exact deleting_lawful.respects deleting_private F i
  · exact verifying_lawful.respects verifying_private F i

end Sdpctl
