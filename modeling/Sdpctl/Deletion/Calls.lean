import Sdpctl.Deletion.Stages

/-!
The calls that delete, stage by stage. Each keeps to the relay from wherever the
others have taken the data, and completes the deletion when it is left alone.
-/

namespace Sdpctl

open FileTree Coop

variable {α : Type} {oid : Nat} {dir : Bool} {k : Stage}

/-- The program keeps to the deletion of the observation from this stage on. -/
abbrev Goes (oid : Nat) (dir : Bool) (p : M α) (k : Stage) : Prop :=
  p.Relays (Acts oid dir) (May oid dir) .deleted k

/-- Alone from this stage on, the program completes the deletion. -/
abbrev Completes (oid : Nat) (dir : Bool) (p : M α) (k : Stage) : Prop :=
  p.Finishes (Acts oid dir) .deleted k

section Rules

/-- An operation that leaves the deletion where it is, and what follows. -/
theorem still_goes {o : Op} {f : o.Reply → M α} (P : Stage → o.Reply → Prop)
    (hmay : ∀ k, May oid dir o k)
    (hacts : ∀ k x k', Acts oid dir o k x k' → k' = k ∧ ∃ a, x = .ok a ∧ P k a)
    (h : ∀ k' a, k ≤ k' → P k' a → Goes oid dir (f a) k') : Goes oid dir ((call o).bind f) k := by
  intro k' hk
  refine ⟨hmay k', fun x k'' hx => ?_⟩
  obtain ⟨rfl, a, rfl, hP⟩ := hacts k' x k'' hx
  exact ⟨fun hne => absurd rfl hne, h _ a hk hP⟩

theorem still_completes {o : Op} {f : o.Reply → M α} (P : Stage → o.Reply → Prop)
    (hacts : ∀ k x k', Acts oid dir o k x k' → k' = k ∧ ∃ a, x = .ok a ∧ P k a)
    (h : ∀ a, P k a → Completes oid dir (f a) k) : Completes oid dir ((call o).bind f) k := by
  refine Prog.finishes_op fun x k' hx => ?_
  obtain ⟨rfl, a, rfl, hP⟩ := hacts k x k' hx
  exact h a hP

/-- What `get_observation` returns during a deletion. -/
structure RowAt (oid : Nat) (k : Stage) (o : Observation) : Prop where
  id : o.id = oid
  msPath : o.msPath = msPathOf oid
  state : o.state = k.state

theorem read_acts (k : Stage) (x : Except Exn Observation) (k' : Stage)
    (h : Acts oid dir (.db (.getObservation oid)) k x k') :
    k' = k ∧ ∃ o, x = .ok o ∧ RowAt oid k o := by
  obtain ⟨hk, o, hx, hid, hpath, hstate⟩ := h
  exact ⟨hk, o, hx, hid, hpath, hstate⟩

theorem exists_acts {p : Path} (k : Stage) (x : Except Exn Bool) (k' : Stage)
    (h : Acts oid dir (.exists_ p) k x k') : k' = k ∧ ∃ b, x = .ok b ∧ b = k.copyAt oid p :=
  ⟨h.2, _, h.1, rfl⟩

theorem isDir_acts {p : Path} (k : Stage) (x : Except Exn Bool) (k' : Stage)
    (h : Acts oid dir (.isDir p) k x k') : k' = k ∧ ∃ b, x = .ok b ∧ b = (k.copyAt oid p && dir) :=
  ⟨h.2, _, h.1, rfl⟩

theorem resolve_acts {p : Path} (k : Stage) (x : Except Exn Path) (k' : Stage)
    (h : Acts oid dir (.resolve p) k x k') : k' = k ∧ ∃ q, x = .ok q ∧ True :=
  ⟨h.2, _, h.1, trivial⟩

theorem cachePop_acts (k : Stage) (x : Except Exn Unit) (k' : Stage)
    (h : Acts oid dir .cachePop k x k') : k' = k ∧ ∃ a, x = .ok a ∧ True :=
  ⟨h.2, _, h.1, trivial⟩

theorem mkdir_acts {p : Path} (k : Stage) (x : Except Exn Unit) (k' : Stage)
    (h : Acts oid dir (.mkdir p) k x k') : k' = k ∧ ∃ a, x = .ok a ∧ True :=
  ⟨h.2, _, h.1, trivial⟩

end Rules

section Parts

variable {p : Path} {f : Unit → M α}

theorem invalidate_goes (h : ∀ k', k ≤ k' → Goes oid dir (f ()) k') :
    Goes oid dir (invalidateAuxiliaryCache.bind f) k := by
  rw [invalidateAuxiliaryCache, Prog.bind_def, Prog.bind_assoc]
  refine still_goes (o := .resolve []) _ (fun _ => trivial) resolve_acts fun k' _ hk _ => ?_
  refine still_goes (o := .cachePop) _ (fun _ => trivial) cachePop_acts fun k'' _ hk' _ => ?_
  exact h k'' (hk.trans hk')

theorem invalidate_completes (h : Completes oid dir (f ()) k) :
    Completes oid dir (invalidateAuxiliaryCache.bind f) k := by
  rw [invalidateAuxiliaryCache, Prog.bind_def, Prog.bind_assoc]
  refine still_completes (o := .resolve []) _ resolve_acts fun _ _ => ?_
  exact still_completes (o := .cachePop) _ cachePop_acts fun _ _ => h

theorem removeTree_goes (hp : p = msPathOf oid ∨ p = trashPath oid)
    (hstay : ∀ k₁ k₂ : Stage, k ≤ k₁ → k₁ ≤ k₂ → k₁.copyAt oid p = false →
      k₂.copyAt oid p = false)
    (hends : Completes oid dir (f ()) .gone) (h : Goes oid dir (f ()) .gone) :
    Goes oid dir ((removeTree p).bind f) k := by
  rw [removeTree, Prog.bind_def, Prog.bind_assoc]
  refine still_goes (o := .isDir p) _ (fun _ => hp) isDir_acts fun k₁ b hk₁ hb => ?_
  cases b with
  | true =>
    have hdir : dir = true := by simpa using (Bool.and_eq_true_iff.mp hb.symm).2
    intro k₂ hk₂
    refine ⟨⟨hp, fun _ => hdir⟩, fun x k₃ hx => ?_⟩
    rcases hx with ⟨_, rfl, rfl⟩ | ⟨_, ⟨e, rfl⟩, rfl⟩
    · exact ⟨fun _ => hends, h⟩
    · exact ⟨fun hne => absurd rfl hne, trivial⟩
  | false =>
    intro k₂ hk₂
    have hfile : k₂.copyAt oid p = true → dir = false := by
      intro hcopy
      cases hdir : dir with
      | false => rfl
      | true =>
        have hbefore : k₁.copyAt oid p = false := by simpa [hdir] using hb.symm
        rw [hstay k₁ k₂ hk₁ hk₂ hbefore] at hcopy
        cases hcopy
    refine ⟨⟨hp, hfile⟩, fun x k₃ hx => ?_⟩
    rcases hx with ⟨_, rfl, rfl⟩ | ⟨_, ⟨e, rfl⟩, rfl⟩
    · exact ⟨fun _ => hends, h⟩
    · exact ⟨fun hne => absurd rfl hne, trivial⟩

theorem removeTree_completes (hcopy : k.copyAt oid p = true) (h : Completes oid dir (f ()) .gone) :
    Completes oid dir ((removeTree p).bind f) k := by
  have hremoved : ∀ (x : Except Exn Unit) k', ((k.copyAt oid p = true ∧ x = .ok () ∧ k' = .gone) ∨
      (k.copyAt oid p = false ∧ (∃ e, x = .error e) ∧ k' = k)) →
      Completes oid dir ((Prog.ret x : M Unit).bind f) k' := by
    rintro x k' (⟨_, rfl, rfl⟩ | ⟨hno, _⟩)
    · exact h
    · rw [hcopy] at hno
      cases hno
  rw [removeTree, Prog.bind_def, Prog.bind_assoc]
  refine still_completes (o := .isDir p) _ isDir_acts fun b _ => ?_
  cases b with
  | true => exact Prog.finishes_op fun x k' hx => hremoved x k' hx
  | false => exact Prog.finishes_op fun x k' hx => hremoved x k' hx

end Parts

section Marking

variable {reason : String} {size reserved : Option Nat} {error : Option String}

/-- The last step: the row becomes `DELETED`, if it is not yet. -/
theorem mark_goes (hk : .gone ≤ k) : Goes oid dir
    (store (.transitionObservation oid .deleting .deleted reason size reserved error)) k := by
  intro k' hk'
  refine ⟨⟨rfl, rfl, rfl, hk.trans hk'⟩, fun x k'' hx => ?_⟩
  refine ⟨fun _ y z hrun => ?_, trivial⟩
  obtain ⟨_, rfl⟩ := hrun
  rcases hx with ⟨_, _, rfl⟩ | ⟨rfl, _, rfl⟩
  · rfl
  · rfl

theorem mark_completes : Completes oid dir
    (store (.transitionObservation oid .deleting .deleted reason size reserved error)) .gone := by
  refine Prog.finishes_op fun x k' hx => ?_
  rcases hx with ⟨_, _, rfl⟩ | ⟨hno, _⟩
  · exact Prog.finishes_goal acts_deleted _
  · cases hno

/-- The end of `force_drop_observation_data`. -/
theorem settle_goes (hk : .gone ≤ k) : Goes oid dir (invalidateAuxiliaryCache.bind fun _ =>
    store (.transitionObservation oid .deleting .deleted reason size reserved error)) k :=
  invalidate_goes fun _ hk' => mark_goes (hk.trans hk')

theorem settle_completes : Completes oid dir (invalidateAuxiliaryCache.bind fun _ =>
    store (.transitionObservation oid .deleting .deleted reason size reserved error)) .gone :=
  invalidate_completes mark_completes

end Marking

theorem not_live {p : Path} (hp : p = msPathOf oid) (hk : .trash ≤ k) :
    k.copyAt oid p = false := by
  subst hp
  cases k with
  | live => simp [Stage.le_iff, Stage.rank] at hk
  | trash => simp [Stage.copyAt, msPathOf, trashPath]
  | _ => rfl

theorem trash_of_not_live {p : Path} (hp : p = msPathOf oid) (h : k.copyAt oid p = false) :
    .trash ≤ k := by
  subst hp
  cases k with
  | live => simp [Stage.copyAt] at h
  | _ => simp [Stage.le_iff, Stage.rank]

theorem gone_of_not_trash (hk : .trash ≤ k) (h : k.copyAt oid (trashPath oid) = false) :
    .gone ≤ k := by
  cases k with
  | live => simp [Stage.le_iff, Stage.rank] at hk
  | trash => simp [Stage.copyAt] at h
  | _ => simp [Stage.le_iff, Stage.rank]

theorem not_trash (hk : .gone ≤ k) : k.copyAt oid (trashPath oid) = false := by
  cases k with
  | live | trash => simp [Stage.le_iff, Stage.rank] at hk
  | _ => rfl

/-- Once the data is not at its live place it does not come back there. -/
theorem live_stays {k₁ k₂ : Stage} (hk : k₁ ≤ k₂) (h : k₁.copyAt oid (msPathOf oid) = false) :
    k₂.copyAt oid (msPathOf oid) = false :=
  not_live rfl ((trash_of_not_live rfl h).trans hk)

theorem trash_stays {k₁ k₂ : Stage} (hk₁ : .trash ≤ k₁) (hk : k₁ ≤ k₂)
    (h : k₁.copyAt oid (trashPath oid) = false) : k₂.copyAt oid (trashPath oid) = false :=
  not_trash ((gone_of_not_trash hk₁ h).trans hk)

section Finish

variable {reason : String} {size reserved : Option Nat} {error : Option String}

/-- The second half of `finish_observation_deletion`. -/
theorem emptyTrash_goes (hk : .trash ≤ k) : Goes oid dir ((emptyTrash (trashPath oid)).bind fun _ =>
    store (.transitionObservation oid .deleting .deleted reason size reserved error)) k := by
  rw [emptyTrash, Prog.bind_def, Prog.bind_assoc]
  refine still_goes (o := .exists_ _) _ (fun _ => .inr rfl) exists_acts fun k' b hk' hb => ?_
  have htrash := hk.trans hk'
  cases b with
  | false => exact mark_goes (gone_of_not_trash htrash hb.symm)
  | true =>
    simp only [ite_true, Prog.bind_def, Prog.bind_assoc]
    refine removeTree_goes (.inr rfl) (fun k₁ k₂ hk₁ hk₂ => trash_stays (htrash.trans hk₁) hk₂)
      settle_completes (settle_goes le_rfl)

theorem emptyTrash_completes : Completes oid dir ((emptyTrash (trashPath oid)).bind fun _ =>
    store (.transitionObservation oid .deleting .deleted reason size reserved error)) .trash := by
  rw [emptyTrash, Prog.bind_def, Prog.bind_assoc]
  refine still_completes (o := .exists_ _) _ exists_acts fun b hb => ?_
  simp only [Stage.copyAt, decide_true] at hb
  subst hb
  simp only [ite_true, Prog.bind_def, Prog.bind_assoc]
  exact removeTree_completes (by simp [Stage.copyAt]) settle_completes

/-- The first half: whoever renames the copy goes on to empty the trash. -/
theorem moveLiveToTrash_goes {f : Unit → M Unit}
    (hends : Completes oid dir (f ()) .trash) (h : ∀ k', .trash ≤ k' → Goes oid dir (f ()) k') :
    Goes oid dir ((moveLiveToTrash oid (msPathOf oid) (trashPath oid)).bind f) k := by
  rw [moveLiveToTrash, Prog.bind_def, Prog.bind_assoc]
  refine still_goes (o := .exists_ _) _ (fun _ => .inl rfl) exists_acts fun k₁ b hk₁ hb => ?_
  cases b with
  | false => exact h k₁ (trash_of_not_live rfl hb.symm)
  | true =>
    simp only [ite_true, Prog.bind_def, Prog.bind_assoc]
    refine still_goes (o := .exists_ _) _ (fun _ => .inr rfl) exists_acts fun k₂ c hk₂ _ => ?_
    cases c with
    | true => trivial
    | false =>
      simp only [Bool.false_eq_true, ite_false, Prog.bind_assoc]
      intro k₃ hk₃
      refine ⟨⟨rfl, rfl⟩, fun x k₄ hx => ?_⟩
      rcases hx with ⟨_, rfl, rfl⟩ | ⟨_, ⟨e, rfl⟩, rfl⟩
      · exact ⟨fun _ => invalidate_completes hends, invalidate_goes h⟩
      · exact ⟨fun hne => absurd rfl hne, trivial⟩

theorem moveLiveToTrash_completes {f : Unit → M Unit} (hk : k = .live ∨ k = .trash)
    (h : Completes oid dir (f ()) .trash) :
    Completes oid dir ((moveLiveToTrash oid (msPathOf oid) (trashPath oid)).bind f) k := by
  rw [moveLiveToTrash, Prog.bind_def, Prog.bind_assoc]
  refine still_completes (o := .exists_ _) _ exists_acts fun b hb => ?_
  rcases hk with rfl | rfl
  · simp only [Stage.copyAt, decide_true] at hb
    subst hb
    simp only [ite_true, Prog.bind_def, Prog.bind_assoc]
    refine still_completes (o := .exists_ _) _ exists_acts fun c hc => ?_
    obtain rfl : c = false := hc.trans (by simp [Stage.copyAt, msPathOf, trashPath])
    simp only [Bool.false_eq_true, ite_false, Prog.bind_assoc]
    refine Prog.finishes_op fun x k' hx => ?_
    rcases hx with ⟨_, rfl, rfl⟩ | ⟨hno, _⟩
    · exact invalidate_completes h
    · exact absurd rfl hno
  · obtain rfl : b = false := hb.trans (not_live rfl le_rfl)
    exact h

theorem finishObservationDeletion_goes (k : Stage) :
    Goes oid dir (finishObservationDeletion oid) k := by
  refine still_goes (o := .db (.getObservation oid)) _ (fun _ => rfl) read_acts
    fun k₁ o _ hrow => ?_
  obtain ⟨hid, hpath, -⟩ := hrow
  rw [hid, hpath]
  split
  · trivial
  · refine still_goes (o := .mkdir _) _ (fun _ => rfl) mkdir_acts fun k₂ _ _ _ => ?_
    exact moveLiveToTrash_goes emptyTrash_completes fun _ => emptyTrash_goes

theorem finishObservationDeletion_completes (hk : k = .live ∨ k = .trash) :
    Completes oid dir (finishObservationDeletion oid) k := by
  refine still_completes (o := .db (.getObservation oid)) _ read_acts fun o hrow => ?_
  obtain ⟨hid, hpath, hstate⟩ := hrow
  have hdeleting : o.state = .deleting := by
    rcases hk with rfl | rfl <;> exact hstate
  rw [hid, hpath, if_neg (by simp [hdeleting])]
  refine still_completes (o := .mkdir _) _ mkdir_acts fun _ _ => ?_
  exact moveLiveToTrash_completes hk emptyTrash_completes

end Finish

section Drop

variable {p : Path} {f : Unit → M Unit}

theorem dropCopy_goes (hp : p = msPathOf oid ∨ p = trashPath oid)
    (hstay : ∀ k₁ k₂ : Stage, k ≤ k₁ → k₁ ≤ k₂ → k₁.copyAt oid p = false →
      k₂.copyAt oid p = false)
    (hends : Completes oid dir (f ()) .gone) (hgone : Goes oid dir (f ()) .gone)
    (h : ∀ k', k ≤ k' → k'.copyAt oid p = false → Goes oid dir (f ()) k') :
    Goes oid dir ((dropCopy p).bind f) k := by
  rw [dropCopy, Prog.bind_def, Prog.bind_assoc]
  refine still_goes (o := .exists_ _) _ (fun _ => hp) exists_acts fun k' b hk hb => ?_
  cases b with
  | false => exact h k' hk hb.symm
  | true =>
    simp only [ite_true]
    exact removeTree_goes hp (fun k₁ k₂ hk₁ hk₂ => hstay k₁ k₂ (hk.trans hk₁) hk₂) hends hgone

theorem dropCopy_completes (hcopy : k.copyAt oid p = true) (h : Completes oid dir (f ()) .gone) :
    Completes oid dir ((dropCopy p).bind f) k := by
  rw [dropCopy, Prog.bind_def, Prog.bind_assoc]
  refine still_completes (o := .exists_ _) _ exists_acts fun b hb => ?_
  obtain rfl : b = true := hb.trans hcopy
  exact removeTree_completes hcopy h

theorem dropCopy_passes (hcopy : k.copyAt oid p = false) (h : Completes oid dir (f ()) k) :
    Completes oid dir ((dropCopy p).bind f) k := by
  rw [dropCopy, Prog.bind_def, Prog.bind_assoc]
  refine still_completes (o := .exists_ _) _ exists_acts fun b hb => ?_
  obtain rfl : b = false := hb.trans hcopy
  exact h

variable {reason : String}

/-- `force_drop_observation_data` after it has read the row. -/
theorem dropBoth_goes (hends : Completes oid dir (f ()) .gone)
    (h : ∀ k', .gone ≤ k' → Goes oid dir (f ()) k') (k : Stage) :
    Goes oid dir ((Prog.forEach [msPathOf oid, trashPath oid] dropCopy).bind f) k := by
  have htail : ∀ k', .trash ≤ k' →
      Goes oid dir ((Prog.forEach [trashPath oid] dropCopy).bind f) k' := by
    intro k' hk'
    rw [Prog.forEach, Prog.bind_def, Prog.bind_assoc]
    exact dropCopy_goes (.inr rfl) (fun k₁ k₂ hk₁ hk₂ => trash_stays (hk'.trans hk₁) hk₂) hends
      (h _ le_rfl) fun k₁ hk₁ hno => h k₁ (gone_of_not_trash (hk'.trans hk₁) hno)
  have hrest : Completes oid dir ((Prog.forEach [trashPath oid] dropCopy).bind f) .gone := by
    rw [Prog.forEach, Prog.bind_def, Prog.bind_assoc]
    exact dropCopy_passes rfl hends
  rw [Prog.forEach, Prog.bind_def, Prog.bind_assoc]
  exact dropCopy_goes (.inl rfl) (fun k₁ k₂ _ hk₂ => live_stays hk₂) hrest
    (htail _ (by simp [Stage.le_iff, Stage.rank]))
    fun k₁ _ hno => htail k₁ (trash_of_not_live rfl hno)

theorem dropBoth_completes (hk : k = .live ∨ k = .trash) (h : Completes oid dir (f ()) .gone) :
    Completes oid dir ((Prog.forEach [msPathOf oid, trashPath oid] dropCopy).bind f) k := by
  rw [Prog.forEach, Prog.bind_def, Prog.bind_assoc]
  rcases hk with rfl | rfl
  · refine dropCopy_completes (by simp [Stage.copyAt]) ?_
    rw [Prog.forEach, Prog.bind_def, Prog.bind_assoc]
    exact dropCopy_passes rfl h
  · refine dropCopy_passes (not_live rfl le_rfl) ?_
    rw [Prog.forEach, Prog.bind_def, Prog.bind_assoc]
    exact dropCopy_completes (by simp [Stage.copyAt]) h

theorem forceDropObservationData_goes (k : Stage) :
    Goes oid dir (forceDropObservationData oid reason) k := by
  refine still_goes (o := .db (.getObservation oid)) _ (fun _ => rfl) read_acts
    fun k₁ o _ hrow => ?_
  obtain ⟨hid, hpath, hstate⟩ := hrow
  rw [hid, hpath]
  split
  · trivial
  · rename_i hguard
    -- the row was `DELETING` when it was read
    have hdeleting : o.state = .deleting := by
      cases k₁ with
      | deleted => simp [hstate, Stage.state] at hguard
      | _ => exact hstate
    rw [hdeleting]
    exact dropBoth_goes settle_completes (fun _ => settle_goes) k₁

theorem forceDropObservationData_completes (hk : k = .live ∨ k = .trash) :
    Completes oid dir (forceDropObservationData oid reason) k := by
  refine still_completes (o := .db (.getObservation oid)) _ read_acts fun o hrow => ?_
  obtain ⟨hid, hpath, hstate⟩ := hrow
  have hdeleting : o.state = .deleting := by
    rcases hk with rfl | rfl <;> exact hstate
  rw [hid, hpath, if_neg (by simp [hdeleting]), hdeleting]
  exact dropBoth_completes hk settle_completes

end Drop

section Resume

/-- The handler of `startup_reconcile` only notes the failure. -/
theorem recordFailure_goes (e : Exn) (context : String) (k : Stage) :
    Goes oid dir (recordObservationRecoveryFailure oid e context) k := by
  have hnote : ∀ {message : String} {x : Except Exn Unit} (k : Stage),
      Goes oid dir ((store (.recordEvent .observation oid message)).bind fun _ => .ret x) k := by
    intro message x k k' _
    refine ⟨trivial, fun y k'' hy => ?_⟩
    obtain ⟨rfl, rfl⟩ := hy
    exact ⟨fun hne => absurd rfl hne, trivial⟩
  intro k' _
  refine ⟨⟨rfl, rfl⟩, fun y k'' hy => ?_⟩
  obtain ⟨rfl, rfl⟩ := hy
  exact ⟨fun hne => absurd rfl hne, hnote k''⟩

theorem resumeDeletion_goes {obs : Observation} (hid : obs.id = oid) (k : Stage) :
    Goes oid dir (resumeDeletion obs) k := by
  unfold resumeDeletion
  rw [hid]
  exact Prog.Relays.catchAll acts_deleted (finishObservationDeletion_goes k)
    fun e k' => recordFailure_goes e _ k'

theorem resumeDeletion_completes {obs : Observation} (hid : obs.id = oid)
    (hk : k = .live ∨ k = .trash) : Completes oid dir (resumeDeletion obs) k := by
  unfold resumeDeletion
  rw [hid]
  exact (finishObservationDeletion_completes hk).catchAll acts_deleted

end Resume

end Sdpctl
