import Sdpctl.Programs.Sound

/-!
Raw data is never destroyed without a human decision: whatever a runner wrote
stays at its path or in the quarantine, through every interleaving of the
controller, its restarts and the command line.
-/

namespace Sdpctl

open FileTree Coop

variable {T : Terms} {r : Role} {s s' : Shared}

/-- Nobody takes the data of an observation away from outside; everything else may happen,
failing renames and removals that stop part-way included. -/
def lossless : Limits where
  terms := .any
  env e _ := ∀ oid, e ≠ .loss oid

/-- The data stands at the path of its observation, or in the quarantine, or its
quarantine entry was purged by name. -/
def Located (oid : Nat) (t : Tree) (s : Shared) : Prop :=
  s.disk.get? (msPathOf oid) = some t ∨ (∃ name, s.disk.get? (quarantineEntry name) = some t) ∨
    t.ino ∈ s.purged

/-- Everything that a runner has produced is located, at the path of its row or in the
quarantine, unless a human has decided about it. -/
def Preserved (s : Shared) : Prop :=
  ∀ e ∈ s.produced, ¬ s.db.Released e.1 → e.1 ∉ s.dropped → Located e.1 e.2 s

theorem Located.of_set {oid : Nat} {t : Tree} {p : Path} {x : Option Tree}
    (h : Located oid t s) (hroot : s'.disk.root = s.disk.root.set p x)
    (hpurged : s.purged ⊆ s'.purged) (hms : Apart (msPathOf oid) p)
    (hentry : ∀ name, Apart (quarantineEntry name) p) : Located oid t s' := by
  rcases h with h | ⟨name, h⟩ | h
  · exact .inl ((Disk.get?_of_set hroot hms).trans h)
  · exact .inr (.inl ⟨name, (Disk.get?_of_set hroot (hentry name)).trans h⟩)
  · exact .inr (.inr (hpurged h))

theorem Preserved.of_same (h : Preserved s) (hproduced : s'.produced = s.produced)
    (hdisk : s'.disk = s.disk) (hpurged : s.purged ⊆ s'.purged)
    (hreleased : ∀ oid, s.db.Released oid → s'.db.Released oid)
    (hdropped : s.dropped ⊆ s'.dropped) : Preserved s' := by
  intro e he hno hdrop
  rw [hproduced] at he
  unfold Located
  rw [hdisk]
  exact (h e he (fun hrel => hno (hreleased _ hrel)) fun hmem => hdrop (hdropped hmem)).imp_right
    (.imp_right fun hp => hpurged hp)

/-- A removal or a partial removal takes away what was given up, or an entry of
the quarantine whose name is on record then. -/
theorem Removable.preserved {p : Path} {x : Option Tree} {u : Tree} {d : Disk}
    (may : Removable r s p) (h : Preserved s) (hroot : d.root = s.disk.root.set p x)
    (hfound : s.disk.get? p = some u) : Preserved { s.notePurge p with disk := d } := by
  have hdb : (s.notePurge p).db = s.db := Shared.notePurge_db s p
  have hsub : s.purged ⊆ (s.notePurge p).purged := by
    unfold Shared.notePurge
    split
    · exact List.subset_append_right _ _
    · exact List.Subset.refl _
  intro e he hno hdrop
  simp only [Shared.notePurge_produced, hdb, Shared.notePurge_dropped] at he hno hdrop
  have hloc := h e he hno hdrop
  cases may with
  | product run role path =>
    subst path
    exact hloc.of_set hroot hsub (by simp [msPathOf, outputDir])
      fun name => by simp [quarantineEntry, outputDir]
  | raw oid givenUp path =>
    have hne : e.1 ≠ oid := by
      rintro rfl
      exact givenUp.warrant.elim hno hdrop
    rcases path with rfl | rfl
    · exact hloc.of_set hroot hsub (by simpa [msPathOf] using hne)
        fun name => by simp [quarantineEntry, msPathOf]
    · exact hloc.of_set hroot hsub (by simp [msPathOf, trashPath])
        fun name => by simp [quarantineEntry, trashPath]
  | entry name role path =>
    subst path
    rcases hloc with hms | ⟨other, hother⟩ | hpurged
    · exact .inl ((Disk.get?_of_set hroot (by simp [msPathOf, quarantineEntry])).trans hms)
    · by_cases heq : other = name
      · subst heq
        rw [hfound] at hother
        cases hother
        have hpurge : (s.notePurge (quarantineEntry other)).purged =
            ((s.disk.get? (quarantineEntry other)).map Tree.ino).toList ++ s.purged := by
          unfold Shared.notePurge
          rw [if_pos (show parent (quarantineEntry other) = quarantineRoot from rfl)]
        refine .inr (.inr ?_)
        change e.2.ino ∈ (s.notePurge (quarantineEntry other)).purged
        rw [hpurge, hfound]
        simp
      · exact .inr (.inl ⟨other, (Disk.get?_of_set hroot
          (by simpa [quarantineEntry] using heq)).trans hother⟩)
    · exact .inr (.inr (hsub hpurged))

theorem Step.preserved (hinv : Inv T s) (h : Step T r s s') (hp : Preserved s) :
    Preserved s' := by
  have hsame : ∀ {t : Shared}, t.produced = s.produced → t.disk = s.disk → t.purged = s.purged →
      t.db = s.db → t.dropped = s.dropped → Preserved t :=
      fun hproduced hdisk hpurged hdb hdropped =>
    hp.of_same hproduced hdisk (hpurged ▸ List.Subset.refl _) (fun _ h => hdb ▸ h)
      (hdropped ▸ List.Subset.refl _)
  cases h with
  | db move =>
    exact hp.of_same rfl rfl (List.Subset.refl _) ((Step.db move).dbGrows hinv).released
      (List.Subset.refl _)
  | @quarantine name label t may found =>
    intro e he hno hdrop
    have hdir : (s.disk.put (observationsRoot ++ [name]) none).root.IsDir quarantineRoot :=
      (hinv.disk.quarantine).set_apart (by simp [quarantineRoot, observationsRoot])
    rcases hp e he hno hdrop with hms | ⟨other, hother⟩ | hpurged
    · by_cases heq : obsName e.1 = name
      · subst heq
        rw [show msPathOf e.1 = observationsRoot ++ [obsName e.1] from rfl, found] at hms
        cases hms
        exact .inr (.inl ⟨label, Disk.get?_put_self (p := ["quarantine"]) hdir⟩)
      · refine .inl ((Disk.get?_put_apart _ _ ?_).trans ((Disk.get?_put_apart _ _ ?_).trans hms))
        · simp [msPathOf, quarantineEntry]
        · simpa [msPathOf, observationsRoot] using heq
    · have hne : other ≠ label := by
        rintro rfl
        rw [may.free] at hother
        cases hother
      refine .inr (.inl ⟨other, (Disk.get?_put_apart _ _ ?_).trans
        ((Disk.get?_put_apart _ _ ?_).trans hother)⟩)
      · simpa [quarantineEntry] using hne
      · simp [quarantineEntry, observationsRoot]
    · exact .inr (.inr hpurged)
  | @trash oid t may found =>
    intro e he hno hdrop
    have hne : e.1 ≠ oid := by
      rintro rfl
      exact may.warrant.elim hno hdrop
    rcases hp e he hno hdrop with hms | ⟨other, hother⟩ | hpurged
    · refine .inl ((Disk.get?_put_apart _ _ ?_).trans ((Disk.get?_put_apart _ _ ?_).trans hms))
      · simp [msPathOf, trashPath]
      · simpa [msPathOf] using hne
    · refine .inr (.inl ⟨other, (Disk.get?_put_apart _ _ ?_).trans
        ((Disk.get?_put_apart _ _ ?_).trans hother)⟩)
      · simp [quarantineEntry, trashPath]
      · simp [quarantineEntry, msPathOf]
    · exact .inr (.inr hpurged)
  | remove may found => exact may.preserved hp rfl found
  | prune may found wf part => exact may.preserved hp rfl found
  | _ => exact hsame rfl rfl rfl rfl rfl

theorem env_preserved {e : Env} (hinv : Inv T s) (hkeep : ∀ oid, e ≠ .loss oid)
    (h : env e s = some s') (hp : Preserved s) : Preserved s' := by
  have hsame : ∀ {t : Shared}, t.produced = s.produced → t.disk = s.disk → t.purged = s.purged →
      t.db = s.db → t.dropped = s.dropped → Preserved t :=
      fun hproduced hdisk hpurged hdb hdropped =>
    hp.of_same hproduced hdisk (hpurged ▸ List.Subset.refl _) (fun _ h => hdb ▸ h)
      (hdropped ▸ List.Subset.refl _)
  cases env_cases h with
  | @write handle t w found live wf ino below =>
    have hpath := hinv.runners.msPath w (List.mem_of_getElem? found)
    rw [hpath] at ino ⊢
    intro e he hno hdrop
    rcases List.mem_cons.mp he with rfl | he
    · exact .inl (Disk.get?_put_self (p := ["observations"]) hinv.disk.observations)
    · obtain ⟨he, hother⟩ := List.mem_filter.mp he
      rcases hp e he hno hdrop with hms | ⟨name, hentry⟩ | hpurged
      · by_cases heq : e.1 = w.oid
        · rw [heq] at hms
          have hsame : t.ino = e.2.ino := by
            rw [ino]
            unfold Shared.writtenIno
            rw [hms]
            rfl
          simp [heq, hsame] at hother
        · exact .inl ((Disk.get?_put_apart _ _ (by simpa [msPathOf] using heq)).trans hms)
      · exact .inr (.inl ⟨name, (Disk.get?_put_apart _ _
          (by simp [quarantineEntry, msPathOf])).trans hentry⟩)
      · exact .inr (.inr hpurged)
  | loss => exact absurd rfl (hkeep _)
  | product =>
    intro e he hno hdrop
    rcases hp e he hno hdrop with hms | ⟨name, hentry⟩ | hpurged
    · exact .inl ((get?_product _ (by decide)).trans hms)
    · exact .inr (.inl ⟨name, (get?_product _ (by decide)).trans hentry⟩)
    · exact .inr (.inr hpurged)
  | launch | containerExit | returned | raised => exact hsame rfl rfl rfl rfl rfl

theorem preserved_keeps : lossless.Keeps Preserved where
  start e he := by cases he
  op hinv hp _ hallowed _ _ hexec := (exec_step hinv hallowed hexec).preserved hinv hp
  env hinv hp _ hkeep h := env_preserved hinv hkeep h hp
  enter {r n s s'} hinv hp _ h := by
    have hon : Onward .any s s' := enter_onward h
    cases enter_cases h <;>
      exact hp.of_same rfl rfl (List.Subset.refl _) (fun _ h => h) hon.dropped
  down _ hp := hp.of_same rfl rfl (List.Subset.refl _) (fun _ h => h) (List.Subset.refl _)

/-- In every reachable state the data of an observation that no verdict and no
`resolve --drop` has given up is at its path or in the quarantine, unless its
entry was purged; and only given-up observations are deleted. -/
theorem raw_data_survives {w : World Op.Reply Exn Shared Role Entry} (h : lossless.Reach w) :
    (∀ oid o t, w.shared.db.obs? oid = some o → (oid, t) ∈ w.shared.produced →
      (∀ r ∈ w.shared.db.runsOf oid, r.state ≠ .accepted ∧ r.state ≠ .discarded) →
      oid ∉ w.shared.dropped →
      w.shared.disk.get? o.msPath = some t ∨
        (∃ name, w.shared.disk.get? (quarantineEntry name) = some t) ∨ t.ino ∈ w.shared.purged) ∧
    ∀ oid o, w.shared.db.obs? oid = some o → o.state = .deleting ∨ o.state = .deleted →
      (∃ r ∈ w.shared.db.runsOf oid, r.state = .accepted ∨ r.state = .discarded) ∨
        oid ∈ w.shared.dropped := by
  have hinv := h.inv
  refine ⟨fun oid o t ho ht hno hdrop => ?_, fun oid o ho hs => ?_⟩
  · rw [hinv.db.msPath oid o ho]
    refine h.keeps preserved_keeps (oid, t) ht ?_ hdrop
    rintro ⟨r, hr, hverdict⟩
    exact hverdict.elim (hno r hr).1 (hno r hr).2
  · rcases hs with hs | hs
    · exact .inl (hinv.db.deleting oid o ho hs)
    · exact hinv.db.deleted oid o ho hs

/-- The controller dies after its runner has written, and the next one finds the
interrupted observation. -/
def restarted : List (Label Role Entry Choice Env) :=
  firstObservation ++ [.crash, .enter .main (.run smallConfig)] ++ steps 2 17

/-- A restart sets the data of an interrupted observation aside: nothing is at its path any
more, and the tree that the runner had produced is an entry of the quarantine, unless it has
been purged. -/
theorem raw_data_survives_restart : ∃ w o t, lossless.Reach w ∧ w.shared.db.obs? 1 = some o ∧
    (1, t) ∈ w.shared.produced ∧ w.shared.disk.get? o.msPath = none ∧
      ((∃ name, w.shared.disk.get? (quarantineEntry name) = some t) ∨
        t.ino ∈ w.shared.purged) := by
  obtain ⟨w, hreach, htest⟩ := lossless.reach_of_replay harmless
    (fun w l h => harmless_ok h (fun _ _ _ => trivial) (fun _ _ _ hl _ => hl) fun _ _ _ => trivial)
    restarted (fun w => (w.shared.db.obs? 1).any (fun o => !w.shared.disk.has o.msPath) &&
      (w.shared.db.runsOf 1).isEmpty && w.shared.dropped.isEmpty &&
      w.shared.produced.any fun e => e.1 == 1) (by decide +kernel)
  simp only [Bool.and_eq_true, List.isEmpty_iff, List.any_eq_true, beq_iff_eq] at htest
  obtain ⟨⟨⟨hrow, hruns⟩, hdropped⟩, ⟨i, t⟩, ht, rfl⟩ := htest
  obtain ⟨o, ho, hgone⟩ := (Option.any_eq_true _ _).mp hrow
  have habs : w.shared.disk.get? o.msPath = none := by simpa using hgone
  refine ⟨w, o, t, hreach, ho, ht, habs, ?_⟩
  have hdata := (raw_data_survives hreach).1 1 o t ho ht (by simp [hruns]) (by simp [hdropped])
  exact hdata.resolve_left (by simp [habs])

end Sdpctl
