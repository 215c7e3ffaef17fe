import Sdpctl.Restart.Failing

/-!
The journey of a restart in which operations on some entities fail. Outside these
entities it leads where the repairs lead, and what it sets aside is found in
quarantine, each entity's data at a place of its own.
-/

namespace Sdpctl

open FileTree Coop

/-- What was set aside since `d`, and under which names it is now in quarantine. -/
structure Shelved (d d' : Disk) (shelf : Entity → Option String) : Prop where
  suffixes : ∀ e n, shelf e = some n → Suffixes e.label n
  free : ∀ e n, shelf e = some n → d.get? (quarantineEntry n) = none
  data : ∀ e n, shelf e = some n → ∃ u, d.get? e.place = some u ∧
    d'.get? (quarantineEntry n) = some u
  apart : ∀ e e' n, shelf e = some n → shelf e' = some n → e = e'

namespace Shelved

variable {d d' d'' : Disk} {shelf : Entity → Option String}

theorem none (d d' : Disk) : Shelved d d' fun _ => none :=
  ⟨nofun, nofun, nofun, nofun⟩

theorem kept (h : Shelved d d' shelf) (hkept : ∀ n t, d'.get? (quarantineEntry n) = some t →
    d''.get? (quarantineEntry n) = some t) : Shelved d d'' shelf where
  suffixes := h.suffixes
  free := h.free
  data e n hn := by
    obtain ⟨u, hu, hdata⟩ := h.data e n hn
    exact ⟨u, hu, hkept n u hdata⟩
  apart := h.apart

theorem setAside (h : Shelved d d' shelf) {e : Entity} {u : Tree} (hu : d.get? e.place = some u)
    (hsame : d'.get? e.place = some u) (hstands : d'.Stands)
    (hkept : ∀ n t, d.get? (quarantineEntry n) = some t → d'.get? (quarantineEntry n) = some t) :
    ∃ shelf', Shelved d (d'.setAside e.place e.label) shelf' ∧ (shelf' e).isSome ∧
      ∀ e', (shelf e').isSome → (shelf' e').isSome := by
  obtain ⟨m, hm⟩ : ∃ m, e.place = ["observations", m] := by
    cases e <;> exact ⟨_, rfl⟩
  rw [hm] at hsame ⊢
  obtain ⟨name, hsuffix, hfree, hmoved⟩ := Disk.setAside_shelved e.label hstands hsame
  have hold : ∀ n t, d'.get? (quarantineEntry n) = some t →
      (d'.setAside ["observations", m] e.label).get? (quarantineEntry n) = some t :=
    fun n t ht => Disk.setAside_kept ht
  have hfree' : d.get? (quarantineEntry name) = Option.none := by
    cases hd : d.get? (quarantineEntry name) with
    | none => rfl
    | some t => rw [hkept name t hd] at hfree; cases hfree
  -- the new name is not in use
  have hnew : ∀ e', shelf e' ≠ some name := by
    intro e' he'
    obtain ⟨_, _, hdata⟩ := h.data e' name he'
    rw [hfree] at hdata
    cases hdata
  have hcases : ∀ {e' n}, (if e' = e then some name else shelf e') = some n →
      (e' = e ∧ n = name) ∨ (e' ≠ e ∧ shelf e' = some n) := by
    intro e' n hn
    split at hn
    · rename_i he
      exact .inl ⟨he, (Option.some.inj hn).symm⟩
    · rename_i he
      exact .inr ⟨he, hn⟩
  refine ⟨fun e' => if e' = e then some name else shelf e', ⟨?_, ?_, ?_, ?_⟩, by simp, ?_⟩
  · intro e' n hn
    rcases hcases hn with ⟨rfl, rfl⟩ | ⟨_, hn⟩
    · exact hsuffix
    · exact h.suffixes e' n hn
  · intro e' n hn
    rcases hcases hn with ⟨rfl, rfl⟩ | ⟨_, hn⟩
    · exact hfree'
    · exact h.free e' n hn
  · intro e' n hn
    rcases hcases hn with ⟨rfl, rfl⟩ | ⟨_, hn⟩
    · exact ⟨u, hu, hmoved⟩
    · exact (h.kept hold).data e' n hn
  · intro e₁ e₂ n h₁ h₂
    rcases hcases h₁ with ⟨rfl, rfl⟩ | ⟨_, h₁⟩ <;> rcases hcases h₂ with ⟨h, hn⟩ | ⟨_, h₂⟩
    · exact h.symm
    · exact absurd h₂ (hnew e₂)
    · exact absurd (hn ▸ h₁) (hnew e₁)
    · exact ‹Shelved d d' shelf›.apart e₁ e₂ n h₁ h₂
  · intro e' he'
    by_cases h : e' = e
    · simp [h]
    · simpa [h] using he'

end Shelved

/-- A child that no row knows is apart from what belongs to observations. -/
theorem Estate.Named.apart_child {E : Estate} (h : E.Named) {i : Nat} {n : String}
    (hi : E.Has (.observation i)) (hn : E.Has (.child n)) {q : Path}
    (hq : (Entity.observation i).Owns q) : Apart ["observations", n] q := by
  rcases hq with rfl | rfl | ⟨a, rfl⟩
  · have hne : n ≠ obsName i := by
      rintro rfl
      have heq : Entity.observation i = .child (obsName i) :=
        h.owner hi hn (p := msPathOf i) (.inl rfl) rfl
      cases heq
    simp [msPathOf, hne]
  · simp [trashPath]
  · simp [outputDir]

/-- The journey of a restart from the first estate, with the repairs `rest` to come. -/
structure Journey (first : Estate) (F : Entity → Prop) (rest : List (Repair Estate))
    (E : Estate) : Prop where
  named : E.Named
  kin : first.Kin E
  kept : ∀ n t, first.disk.get? (quarantineEntry n) = some t →
    E.disk.get? (quarantineEntry n) = some t
  unknown : ∀ n, first.Has (.child n) →
    E.disk.get? ["observations", n] = first.disk.get? ["observations", n]
  remain : ∀ r ∈ rest, r ∈ first.repairs
  heads : Estate.Agree (fun i => F (.observation i)) (Repair.fixAll rest E) first.restarted

namespace Journey

variable {first E G : Estate} {F : Entity → Prop} {r : Repair Estate}
  {rest : List (Repair Estate)} {i : Nat}

theorem start (h : first.Named) : Journey first F first.repairs first where
  named := h
  kin := .refl first
  kept _ _ h := h
  unknown _ _ := rfl
  remain _ h := h
  heads := Repair.fixAll_respects (fun _ hr => repairs_respect hr _) (.refl h)

/-- A repair of an observation outside `F` is carried out; in `F` it may go astray. -/
theorem step (h : Journey first F (r :: rest) E) (hfirst : first.Named)
    (hi : first.Has (.observation i)) (hfix : Estate.Within i E (r.fix E))
    (hG : Estate.Within i E G) (hend : G = r.fix E ∨ F (.observation i)) :
    Journey first F rest G where
  named := hG.named h.named
  kin := h.kin.trans hG.kin
  kept n t ht := hG.quarantine n t (h.kept n t ht)
  unknown n hn := (hG.elsewhere _ (fun _ hq => hfirst.apart_child hi hn hq)
    (by simp [quarantineEntry])).trans (h.unknown n hn)
  remain q hq := h.remain q (by simp [hq])
  heads := by
    rcases hend with rfl | hF
    · exact h.heads
    · refine Repair.astray (fun h h' => h.trans h')
        (fun q hq => repairs_respect (h.remain q (by simp [hq])) _) h.heads ?_
      exact (Estate.Agree.refl h.named).within hG hfix fun hno => absurd hF hno

theorem skip (h : Journey first F (r :: rest) E) (hfix : r.fix E = E) : Journey first F rest E where
  named := h.named
  kin := h.kin
  kept := h.kept
  unknown := h.unknown
  remain q hq := h.remain q (by simp [hq])
  heads := by
    have hheads := h.heads
    rwa [Repair.fixAll_cons, hfix] at hheads

end Journey

section Phases

variable {first : Estate} {F : Entity → Prop} {faults : Op → Prop} {rest : List (Repair Estate)}
  {s : Shared}

/-- A phase over the observations in one state, with an assertion that its rounds keep. -/
theorem Mending.Lawful.journey {m : Mending} (hm : m.Lawful) {f : Observation → M Unit}
    (hf : m.Attempted faults f) (hfirst : first.Named) (hfaults : Faults first F faults)
    {X : List Observation → Estate → Prop}
    (round : ∀ o todo rest E G, Journey first F rest E → E.obs? o.id = some o →
      o.state = m.state → X (o :: todo) E → Estate.Within o.id E G →
      (G = m.apply E o ∨ F (.observation o.id)) → X todo G)
    (pass : ∀ o todo E, E.obs? o.id = some o → o.state ≠ m.state → X (o :: todo) E → X todo E)
    (ids : s.db.Ids)
    (h : Journey first F ((first.observations.map Observation.id).map m.repair ++ rest) s.estate)
    (hX : X s.estate.observations s.estate) :
    Copes faults (Prog.forEach (s.db.listObservations [m.state]) f)
      (fun _ t => t.db.Ids ∧ Journey first F rest t.estate ∧ X [] t.estate) s := by
  rw [← h.kin.sameRows.obsKeys] at h
  refine (observations_loop
    (I := fun todo E => Journey first F ((todo.map Observation.id).map m.repair ++ rest) E ∧
      X todo E) ?_ ?_ ids h.named.toPlaced ⟨h, hX⟩).mono (fun _ h => h)
    fun _ t ht => ⟨ht.1, ht.2.2⟩
  · rintro o todo t ids _ ho hstate ⟨h, hX⟩
    have hhas : first.Has (.observation o.id) := h.kin.has.mp (by simp [Estate.Has, ho])
    refine (hf t ids h.named o ho hstate (F (.observation o.id))
      fun op hop hfault => hfaults.serves hfirst hhas hop hfault).mono (fun _ h => h) ?_
    rintro _ u ⟨hids, hu⟩
    have hwithin : Estate.Within o.id t.estate u.estate := by
      refine Estate.Touches.within h.named ho ?_
      rcases hu with hu | ⟨_, hu⟩
      · exact hu ▸ hm.touches h.named.toPlaced (Estate.mem_of_obs? ho).1
      · exact hu
    have hend : u.estate = m.apply t.estate o ∨ F (.observation o.id) := hu.imp_right And.left
    refine ⟨hids, (hwithin.named h.named).toPlaced, hwithin.row, ?_,
      round o todo _ _ _ h ho hstate hX hwithin hend⟩
    exact h.step hfirst hhas (hm.within h.named o.id) hwithin (fix_found ho hstate ▸ hend)
  · rintro o todo E _ ho hstate ⟨h, hX⟩
    refine ⟨h.skip (Mending.fix_other fun p hp => ?_), pass o todo E ho hstate hX⟩
    rw [ho] at hp
    exact Option.some.inj hp ▸ hstate

theorem abandoning_journey (hfirst : first.Named) (hfaults : Faults first F faults)
    {X : Estate → Prop} (round : ∀ i E G, X E → Estate.Within i E G → X G) (ids : s.db.Ids)
    (h : Journey first F ((first.processingRuns.map ProcessingRun.id).map abandoning ++ rest)
      s.estate) (hX : X s.estate) :
    Copes faults (Prog.forEach (s.db.listRuns [.running]) recoverRun)
      (fun _ t => t.db.Ids ∧ Journey first F rest t.estate ∧ X t.estate) s := by
  rw [← h.kin.sameRows.runKeys] at h
  refine (runs_loop
    (I := fun todo E => Journey first F ((todo.map ProcessingRun.id).map abandoning ++ rest) E ∧
      X E) ?_ ?_ ids h.named.toPlaced ⟨h, hX⟩).mono (fun _ h => h) fun _ t ht => ⟨ht.1, ht.2.2⟩
  · rintro q todo t ids _ hq hrunning ⟨h, hX⟩
    have hhas : first.Has (.observation q.observationId) :=
      h.kin.has.mp (h.named.runOwner q (Estate.mem_of_run? hq).1)
    refine (recoverRun_attempted (fun o => hfaults.path) ids h.named hq hrunning
      fun op hop hfault => hfaults.serves hfirst hhas hop hfault).mono (fun _ h => h) ?_
    rintro _ u ⟨hids, hu⟩
    have hleaves : (abandoning q.id).leaves t.estate u.estate := by
      rcases hu with hu | ⟨_, hu⟩
      · exact hu ▸ abandoning_whole t.estate q.id
      · exact hu
    have hwithin := abandoning_within h.named hq hleaves
    refine ⟨hids, (hwithin.named h.named).toPlaced, fun i hi => abandoning_leaves_run? hi hleaves,
      ?_, round _ _ _ hX hwithin⟩
    exact h.step hfirst hhas (abandoning_within h.named hq (abandoning_whole _ _)) hwithin
      (hu.imp_right And.left)
  · rintro q todo E _ hq hstate ⟨h, hX⟩
    refine ⟨h.skip (abandoning_other fun p hp hrunning => ?_), hX⟩
    rw [hq] at hp
    exact absurd (Option.some.inj hp ▸ hrunning) hstate

/-- A restart sets aside what there is of an interrupted observation, and every
unknown child. -/
def Estate.SetsAside (E : Estate) : Entity → Prop
  | .observation oid => ∃ o, E.obs? oid = some o ∧ o.state = .observing ∧
      E.disk.has o.msPath = true
  | .child name => E.Has (.child name) ∧ E.disk.has ["observations", name] = true

/-- The data of these entities is in quarantine. -/
def Shelves (first : Estate) (due : Entity → Prop) (E : Estate) : Prop :=
  ∃ shelf, Shelved first.disk E.disk shelf ∧ ∀ e, due e → (shelf e).isSome

theorem Shelves.within {due : Entity → Prop} {E G : Estate} {i : Nat} (h : Shelves first due E)
    (hG : Estate.Within i E G) : Shelves first due G := by
  obtain ⟨shelf, hshelf, hdue⟩ := h
  exact ⟨shelf, hshelf.kept hG.quarantine, hdue⟩

/-- An interrupted observation outside `F` that is not among those still to come. -/
def Due (first : Estate) (F : Entity → Prop) (todo : List Observation) (e : Entity) : Prop :=
  first.SetsAside e ∧ ¬ F e ∧ ∃ i, e = .observation i ∧ i ∉ todo.map Observation.id

theorem givingUp_journey (hfirst : first.Named) (hfaults : Faults first F faults) (ids : s.db.Ids)
    (hs : s.estate = first)
    (h : Journey first F ((first.observations.map Observation.id).map givingUp.repair ++ rest)
      s.estate) :
    Copes faults (Prog.forEach (s.db.listObservations [.observing]) recoverObservation)
      (fun _ t => t.db.Ids ∧ Journey first F rest t.estate ∧
        Shelves first (Due first F []) t.estate)
      s := by
  let X : List Observation → Estate → Prop := fun todo E => Shelves first (Due first F todo) E ∧
    (todo.map Observation.id).Nodup ∧ ∀ o ∈ todo, Estate.Alike o.id first E
  refine (givingUp_lawful.journey (recoverObservation_attempted fun o => hfaults.path)
    hfirst hfaults
    (X := X) ?_ ?_ ids h ?_).mono (fun _ h => h) fun _ t ht => ⟨ht.1, ht.2.1, ht.2.2.1⟩
  · rintro o todo rest E G h ho hstate ⟨hshelves, hnodup, halike⟩ hwithin hend
    rw [List.map_cons, List.nodup_cons] at hnodup
    have hmem := (Estate.mem_of_obs? ho).1
    have hsame := halike o (by simp)
    have ho' : first.obs? o.id = some o := hsame.row.symm.trans ho
    refine ⟨?_, hnodup.2, fun p hp => ?_⟩
    · obtain ⟨shelf, hshelf, hdue⟩ := hshelves
      -- only the observation of this round is due now
      have hnext : ∀ e, Due first F todo e → e = .observation o.id ∨ (shelf e).isSome := by
        rintro e ⟨hset, hF, i, rfl, hi⟩
        by_cases hio : i = o.id
        · exact .inl (by rw [hio])
        · exact .inr (hdue _ ⟨hset, hF, i, rfl, by simp [hio, hi]⟩)
      by_cases hset : first.SetsAside (.observation o.id) ∧ ¬ F (.observation o.id)
      · obtain ⟨⟨p, hp, _, hhas⟩, hF⟩ := hset
        rw [ho'] at hp
        cases hp
        obtain rfl := hend.resolve_right hF
        obtain ⟨u, hu⟩ := Disk.has_iff.mp hhas
        have hplace : (Entity.observation o.id).place = o.msPath := (h.named.rowPath o hmem).symm
        obtain ⟨shelf', hshelf', hnew, hold⟩ := hshelf.setAside (hplace ▸ hu)
          (hplace ▸ (hsame.live hfirst (Estate.mem_of_obs? ho').1).trans hu) h.named.stands h.kept
        refine ⟨shelf', ?_, fun e he => ?_⟩
        · rw [hplace] at hshelf'
          exact hshelf'
        · rcases hnext e he with rfl | hsome
          · exact hnew
          · exact hold e hsome
      · refine ⟨shelf, hshelf.kept hwithin.quarantine, fun e he => ?_⟩
        rcases hnext e he with rfl | hsome
        · exact absurd ⟨he.1, he.2.1⟩ hset
        · exact hsome
    · have hne : p.id ≠ o.id := fun heq => hnodup.1 (heq ▸ List.mem_map_of_mem hp)
      exact (halike p (by simp [hp])).trans (hwithin.alike hne)
  · rintro o todo E ho hstate ⟨⟨shelf, hshelf, hdue⟩, hnodup, halike⟩
    rw [List.map_cons, List.nodup_cons] at hnodup
    refine ⟨⟨shelf, hshelf, ?_⟩, hnodup.2, fun p hp => halike p (by simp [hp])⟩
    rintro e ⟨hset, hF, i, rfl, hi⟩
    by_cases hio : i = o.id
    · obtain ⟨p, hp, hobserving, _⟩ := hset
      rw [hio, ← (halike o (by simp)).row, ho] at hp
      cases hp
      exact absurd hobserving hstate
    · exact hdue _ ⟨hset, hF, i, rfl, by simp [hio, hi]⟩
  · refine ⟨⟨_, .none _ _, ?_⟩, h.named.obsNodup, fun o _ => hs ▸ .refl _ _⟩
    rintro e ⟨hset, _, i, rfl, hi⟩
    obtain ⟨o, ho, _⟩ := hset
    obtain ⟨hmem, rfl⟩ := Estate.mem_of_obs? ho
    exact absurd (List.mem_map_of_mem (hs ▸ hmem)) hi

theorem phases_journey (hfirst : first.Named) (hfaults : Faults first F faults) (ids : s.db.Ids)
    (hs : s.estate = first) {W : M Unit → Shared → Prop}
    (hW : Prog.Sequential (failing faults) (fun _ => True) W)
    (hscan : ∀ t : Shared, t.db.Ids → Journey first F [] t.estate →
      Shelves first (Due first F []) t.estate → W scanOrphans t) : W recoverAll s := by
  have hlook : ∀ {q : Query} {a : q.Reply} {t : Shared}, q.run t.db = .ok (a, t.db) →
      Copes faults (store q) (fun b u => b = a ∧ u = t) t := fun hquery =>
    .of_smooth (K := fun _ => True) (Prog.uses_call fun hfault => hfaults.path hfault rfl)
      (smooth_look hquery trivial ⟨rfl, rfl⟩)
  have hpath : ∀ o, faults o → o.path ≠ none := fun o => hfaults.path
  have hkeep : ∀ {i : Nat} {E G : Estate}, Shelves first (Due first F []) E →
      Estate.Within i E G → Shelves first (Due first F []) G := fun h hG => h.within hG
  have h : Journey first F first.repairs s.estate := by
    rw [hs]
    exact .start hfirst
  unfold recoverAll
  refine hW (hlook rfl) ?_
  rintro _ _ ⟨rfl, rfl⟩
  refine hW (givingUp_journey hfirst hfaults ids hs h) ?_
  rintro _ t₁ ⟨ids₁, h₁, hX₁⟩
  refine hW (hlook rfl) ?_
  rintro _ _ ⟨rfl, rfl⟩
  refine hW (abandoning_journey hfirst hfaults (fun _ _ _ => hkeep) ids₁ h₁ hX₁) ?_
  rintro _ t₂ ⟨ids₂, h₂, hX₂⟩
  refine hW (hlook rfl) ?_
  rintro _ _ ⟨rfl, rfl⟩
  refine hW (releasing_lawful.journey (repairAccepted_attempted hpath) hfirst hfaults
    (X := fun _ E => Shelves first (Due first F []) E)
    (fun _ _ _ _ _ _ _ _ hX hG _ => hkeep hX hG) (fun _ _ _ _ _ hX => hX) ids₂ h₂ hX₂) ?_
  rintro _ t₃ ⟨ids₃, h₃, hX₃⟩
  refine hW (hlook rfl) ?_
  rintro _ _ ⟨rfl, rfl⟩
  refine hW (deleting_lawful.journey (resumeDeletion_attempted hpath) hfirst hfaults
    (X := fun _ E => Shelves first (Due first F []) E)
    (fun _ _ _ _ _ _ _ _ hX hG _ => hkeep hX hG) (fun _ _ _ _ _ hX => hX) ids₃ h₃ hX₃) ?_
  rintro _ t₄ ⟨ids₄, h₄, hX₄⟩
  refine hW (hlook rfl) ?_
  rintro _ _ ⟨rfl, rfl⟩
  rw [← List.append_nil (List.map verifying.repair _)] at h₄
  refine hW (verifying_lawful.journey (verifyStored_attempted hpath) hfirst hfaults
    (X := fun _ E => Shelves first (Due first F []) E)
    (fun _ _ _ _ _ _ _ _ hX hG _ => hkeep hX hG) (fun _ _ _ _ _ hX => hX) ids₄ h₄ hX₄) ?_
  rintro _ t₅ ⟨ids₅, h₅, hX₅⟩
  exact hscan t₅ ids₅ h₅ hX₅

end Phases

section Scan

/-- The scan has come from `mid` to this estate, with these children still to come. -/
structure Scanning (first mid : Estate) (F : Entity → Prop) (todo : List String) (E : Estate) :
    Prop where
  observations : E.observations = mid.observations
  processingRuns : E.processingRuns = mid.processingRuns
  stands : E.disk.Stands
  kept : ∀ n t, first.disk.get? (quarantineEntry n) = some t →
    E.disk.get? (quarantineEntry n) = some t
  owned : ∀ i, first.Has (.observation i) → ∀ p, (Entity.observation i).Owns p →
    E.disk.get? p = mid.disk.get? p
  shelves : ∃ shelf, Shelved first.disk E.disk shelf ∧
    (∀ e, Due first F [] e → (shelf e).isSome) ∧
    ∀ n, first.Has (.child n) → ¬ F (.child n) →
      (E.disk.get? ["observations", n] = first.disk.get? ["observations", n] ∧
        (first.disk.has ["observations", n] = true → n ∈ todo)) ∨
      E.disk.get? ["observations", n] = none ∧ (shelf (.child n)).isSome

variable {first mid E G : Estate} {F : Entity → Prop} {n : String} {todo : List String}

theorem Scanning.start (h : Journey first F [] mid) (hshelves : Shelves first (Due first F []) mid)
    (htodo : ∀ n, mid.disk.has ["observations", n] = true → n ∈ todo) :
    Scanning first mid F todo mid where
  observations := rfl
  processingRuns := rfl
  stands := h.named.stands
  kept := h.kept
  owned _ _ _ _ := rfl
  shelves := by
    obtain ⟨shelf, hshelf, hdue⟩ := hshelves
    refine ⟨shelf, hshelf, hdue, fun n hn _ => .inl ⟨h.unknown n hn, fun hhas => htodo n ?_⟩⟩
    rwa [Disk.has, h.unknown n hn]

theorem Scanning.pass (h : Scanning first mid F (n :: todo) E)
    (hn : first.Has (.child n) → F (.child n)) : Scanning first mid F todo E where
  observations := h.observations
  processingRuns := h.processingRuns
  stands := h.stands
  kept := h.kept
  owned := h.owned
  shelves := by
    obtain ⟨shelf, hshelf, hdue, hchildren⟩ := h.shelves
    refine ⟨shelf, hshelf, hdue, fun m hm hF => (hchildren m hm hF).imp_left fun hstays => ?_⟩
    refine ⟨hstays.1, fun hhas => ?_⟩
    rcases List.mem_cons.mp (hstays.2 hhas) with rfl | hmem
    · exact absurd (hn hm) hF
    · exact hmem

theorem Scanning.aside (h : Scanning first mid F (n :: todo) E) (hfirst : first.Named)
    (hn : first.Has (.child n)) : Scanning first mid F todo
      { E with disk := E.disk.setAside ["observations", n] ("orphan-" ++ n) } where
  observations := h.observations
  processingRuns := h.processingRuns
  stands := h.stands.setAside
  kept m t ht := Disk.setAside_kept (h.kept m t ht)
  owned i hi p hp := (Disk.setAside_apart (hfirst.apart_child hi hn hp).symm hp.apart_entry).trans
    (h.owned i hi p hp)
  shelves := by
    obtain ⟨shelf, hshelf, hdue, hchildren⟩ := h.shelves
    have hothers : ∀ m, m ≠ n → (E.disk.setAside ["observations", n] ("orphan-" ++ n)).get?
        ["observations", m] = E.disk.get? ["observations", m] := fun m hm =>
      Disk.setAside_apart (by simp [hm]) (by simp [quarantineEntry])
    have hgone : (E.disk.setAside ["observations", n] ("orphan-" ++ n)).get?
        ["observations", n] = none := Disk.setAside_gone h.stands
    -- what the children have to show, once the shelf of this one is known
    have hend : ∀ shelf' : Entity → Option String,
        (∀ e, (shelf e).isSome → (shelf' e).isSome) →
        (¬ F (.child n) → first.disk.has ["observations", n] = true →
          (shelf' (.child n)).isSome) →
        ∀ m, first.Has (.child m) → ¬ F (.child m) →
          ((E.disk.setAside ["observations", n] ("orphan-" ++ n)).get? ["observations", m] =
            first.disk.get? ["observations", m] ∧
            (first.disk.has ["observations", m] = true → m ∈ todo)) ∨
          (E.disk.setAside ["observations", n] ("orphan-" ++ n)).get? ["observations", m] = none ∧
            (shelf' (.child m)).isSome := by
      intro shelf' hold hnew m hm hF
      by_cases hmn : m = n
      · subst hmn
        cases hhas : first.disk.has ["observations", m] with
        | true => exact .inr ⟨hgone, hnew hF hhas⟩
        | false =>
          refine .inl ⟨?_, fun htrue => by simp at htrue⟩
          rw [hgone, Disk.has_eq_false.mp hhas]
      · rw [hothers m hmn]
        refine (hchildren m hm hF).imp (fun hstays => ⟨hstays.1, fun hhas => ?_⟩)
          fun hmoved => ⟨hmoved.1, hold _ hmoved.2⟩
        exact (List.mem_cons.mp (hstays.2 hhas)).resolve_left hmn
    have hsame : Shelved first.disk (E.disk.setAside ["observations", n] ("orphan-" ++ n)) shelf :=
      hshelf.kept fun _ _ ht => Disk.setAside_kept ht
    by_cases hF : F (.child n)
    · exact ⟨shelf, hsame, hdue, hend shelf (fun _ h => h) fun hno => absurd hF hno⟩
    cases hhas : first.disk.has ["observations", n] with
    | false => exact ⟨shelf, hsame, hdue, hend shelf (fun _ h => h) fun _ h => by simp [hhas] at h⟩
    | true =>
      obtain ⟨u, hu⟩ := Disk.has_iff.mp hhas
      rcases hchildren n hn hF with ⟨hstays, _⟩ | ⟨_, hsome⟩
      · obtain ⟨shelf', hshelf', hnew, hold⟩ := hshelf.setAside (e := .child n) hu
          (hstays.trans hu) h.stands h.kept
        exact ⟨shelf', hshelf', fun e he => hold e (hdue e he), hend shelf' hold fun _ _ => hnew⟩
      · exact ⟨shelf, hsame, hdue, hend shelf (fun _ h => h) fun _ _ => hsome⟩

/-- Outside `F` a restart has come to its end. -/
structure Isolated (first : Estate) (F : Entity → Prop) (E : Estate) : Prop where
  alike : ∀ i, first.Has (.observation i) → ¬ F (.observation i) →
    Estate.Alike i first.restarted E
  children : ∀ n, first.Has (.child n) → ¬ F (.child n) →
    E.disk.get? ["observations", n] = none
  shelves : Shelves first (fun e => first.SetsAside e ∧ ¬ F e) E

theorem Scanning.isolated (h : Journey first F [] mid) (hscan : Scanning first mid F [] E) :
    Isolated first F E := by
  obtain ⟨shelf, hshelf, hdue, hchildren⟩ := hscan.shelves
  refine ⟨fun i hi hF => ?_, fun n hn hF => ?_, shelf, hshelf, ?_⟩
  · have hend : Estate.Alike i mid E := by
      refine ⟨?_, ?_, hscan.owned i hi⟩
      · rw [Estate.obs?, hscan.observations]
        rfl
      · rw [Estate.runsOf, hscan.processingRuns]
        rfl
    exact (h.heads.alike i hF).symm.trans hend
  · rcases hchildren n hn hF with ⟨hstays, hhas⟩ | ⟨hgone, _⟩
    · rw [hstays]
      cases hfirst : first.disk.get? ["observations", n] with
      | none => rfl
      | some t =>
        have hmem := hhas (by simp [Disk.has, hfirst])
        simp at hmem
    · exact hgone
  · rintro e ⟨hset, hF⟩
    cases e with
    | observation i => exact hdue _ ⟨hset, hF, i, rfl, by simp⟩
    | child n =>
      rcases hchildren n hset.1 hF with ⟨_, hhas⟩ | ⟨_, hsome⟩
      · have hmem := hhas hset.2
        simp at hmem
      · exact hsome

/-- No resolution that the scan for orphans makes can fail. -/
def Resolvable (first : Estate) (faults : Op → Prop) : Prop :=
  (∀ o ∈ first.observations, ¬ faults (.resolve o.msPath)) ∧
    ∀ n, first.disk.has ["observations", n] = true → ¬ faults (.resolve ["observations", n])

variable {faults : Op → Prop} {s : Shared}

theorem observationsRoot_common (hfaults : Faults first F faults) :
    ¬ faults (.exists_ observationsRoot) := by
  refine hfaults.common rfl fun e hown => ?_
  cases e with
  | observation i =>
    rcases hown with h | h | ⟨a, h⟩ <;> simp [observationsRoot, msPathOf, trashPath, outputDir] at h
  | child n =>
    have h : observationsRoot = ["observations", n] := hown
    simp [observationsRoot] at h

/-- The names under `observations/` during the scan. -/
theorem Journey.names (h : Journey first F [] mid) (hn : mid.disk.has ["observations", n] = true) :
    (∃ o ∈ mid.observations, o.msPath = ["observations", n]) ∨
      first.disk.has ["observations", n] = true := by
  by_cases hknown : ["observations", n] ∈ first.observations.map Observation.msPath
  · rw [← h.kin.sameRows.msPaths] at hknown
    exact .inl (List.mem_map.mp hknown)
  · rw [Disk.has, h.unknown n hknown] at hn
    exact .inr hn

theorem scanOrphans_isolated (hfirst : first.Named) (hfaults : Faults first F faults)
    (hresolve : Resolvable first faults) (ids : s.db.Ids) (h : Journey first F [] s.estate)
    (hshelves : Shelves first (Due first F []) s.estate) :
    Copes faults scanOrphans (fun _ t => Isolated first F t.estate) s := by
  obtain ⟨j, es, hdir⟩ : s.disk.root.IsDir ["observations"] :=
    h.named.stands _ (by simp [layout])
  have hget : s.disk.get? observationsRoot = some (.dir j es) := hdir
  have hnames : s.disk.names observationsRoot = .ok (es.map (·.1)) := by
    simp [Disk.names, hget]
  have hrows : ∀ o ∈ s.estate.observations, ¬ faults (.resolve o.msPath) := by
    intro o ho
    obtain ⟨p, hp, _, hpath⟩ := h.kin.sameRows.mem_obs ho
    rw [← hpath]
    exact hresolve.1 p hp
  have hsmooth : ∀ {o : Op} {P : o.Reply → Shared → Prop} {t : Shared}, ¬ faults o →
      Smooth .main (fun _ => True) (call o) P t → Copes faults (call o) P t :=
    fun ho => .of_smooth (Prog.uses_call ho)
  refine scanOrphans_loop
    (W := fun p s => Copes faults p (fun _ t => Isolated first F t.estate) s)
    (Prog.Gives.sequential _) (hsmooth (fun hfault => hfaults.path hfault rfl)
      (smooth_look rfl trivial ⟨rfl, rfl⟩))
    (fun o ho => hsmooth (hrows o ho) (smooth_resolve trivial ⟨rfl, rfl⟩))
    (hsmooth (observationsRoot_common hfaults)
      (smooth_exists trivial ⟨by simp [Disk.has, hget], rfl⟩)) fun known hknown => ?_
  refine .then (hsmooth (fun hfault => hfaults.path hfault rfl)
    (smooth_iterdir hnames trivial fun names hperm => ?_))
  let I : List String → Shared → Prop := fun todo t => t.db.Ids ∧
    Scanning first s.estate F todo t.estate ∧ ∀ n ∈ todo, ¬ faults (.resolve ["observations", n])
  have hentry : ∀ n, n ∈ names ↔ s.disk.has ["observations", n] = true := fun n =>
    hperm.mem_iff.trans (Disk.mem_names hnames)
  refine (Prog.Gives.forEach (I := I) ?_ ⟨ids, .start h hshelves fun n hn => (hentry n).mpr hn,
    fun n hn => ?_⟩).mono (fun _ h => h) fun _ t ht => ht.2.1.isolated h
  · rintro n todo t ⟨ids, hscan, hall⟩
    have hpaths : t.estate.observations.map Observation.msPath =
        first.observations.map Observation.msPath := by
      rw [hscan.observations, h.kin.sameRows.msPaths]
    have hhas : t.estate.Has (.child n) ↔ first.Has (.child n) := by
      unfold Estate.Has
      rw [hpaths]
    refine (scanChild_attempted (fun o => hfaults.path) ids hscan.stands (hall n (by simp))
      (fun p => by rw [hpaths, ← h.kin.sameRows.msPaths]; exact hknown p)
      fun op hop hfault hn => hfaults.serves hfirst (hhas.mp hn) hop hfault).mono (fun _ h => h) ?_
    rintro _ u ⟨hids, hu⟩
    refine ⟨hids, ?_, fun m hm => hall m (by simp [hm])⟩
    rcases hu with hu | ⟨_, hF, hu⟩
    · rw [hu]
      unfold Estate.scanned
      split
      · rename_i hmem
        exact hscan.pass fun hn => absurd hmem (hhas.mpr hn)
      · rename_i hmem
        exact hscan.aside hfirst (hhas.mp hmem)
    · rw [hu]
      exact hscan.pass fun _ => hF
  · rcases h.names ((hentry n).mp hn) with ⟨o, ho, hpath⟩ | hhas
    · exact hpath ▸ hrows o ho
    · exact hresolve.2 n hhas

end Scan

end Sdpctl
