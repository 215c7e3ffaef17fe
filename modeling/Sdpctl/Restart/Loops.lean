import Sdpctl.Restart.Phases

/-!
The loops of `startup_reconcile`, alone and without a failing operation. An
assertion on the rows still to come and on the estate goes through a loop when
every repair keeps it.
-/

namespace Sdpctl

open FileTree Coop

variable {K : Estate → Prop} {s : Shared}

section Rules

variable {A : Solo Op.Reply Exn Shared} {J : Shared → Prop}

/-- A loop over the observations in one state, when a round leaves the other rows alone. -/
theorem observations_loop {state : ObservationState} {f : Observation → M Unit}
    {I : List Observation → Estate → Prop}
    (round : ∀ o rest (t : Shared), t.db.Ids → t.estate.Placed → t.estate.obs? o.id = some o →
      o.state = state → I (o :: rest) t.estate → (f o).Gives A J (fun _ u => u.db.Ids ∧
        u.estate.Placed ∧ (∀ i, i ≠ o.id → u.estate.obs? i = t.estate.obs? i) ∧ I rest u.estate) t)
    (pass : ∀ o rest E, E.Placed → E.obs? o.id = some o → o.state ≠ state → I (o :: rest) E →
      I rest E)
    (ids : s.db.Ids) (hplaced : s.estate.Placed) (hI : I s.estate.observations s.estate) :
    (Prog.forEach (s.db.listObservations [state]) f).Gives A J
      (fun _ t => t.db.Ids ∧ t.estate.Placed ∧ I [] t.estate) s := by
  have hlist : s.db.listObservations [state] =
      s.estate.observations.filter fun o => decide (o.state ∈ [state]) := if_neg (by simp)
  rw [hlist]
  let L : List Observation → Shared → Prop := fun todo t => t.db.Ids ∧ t.estate.Placed ∧
    (todo.map Observation.id).Nodup ∧ (∀ o ∈ todo, t.estate.obs? o.id = some o) ∧ I todo t.estate
  refine (Prog.Gives.forEach_filter (I := L) ?_ ?_ ⟨ids, hplaced, hplaced.obsNodup,
    fun o ho => hplaced.obs? ho, hI⟩).mono (fun _ h => h) fun _ t h => ⟨h.1, h.2.1, h.2.2.2.2⟩
  · rintro o rest t htest ⟨ids, hplaced, hnodup, hfound, hI⟩
    rw [List.map_cons, List.nodup_cons] at hnodup
    refine (round o rest t ids hplaced (hfound o (by simp)) (by simpa using htest) hI).mono
      (fun _ h => h) ?_
    rintro _ u ⟨hids, hplaced', hothers, hnext⟩
    refine ⟨hids, hplaced', hnodup.2, fun p hp => ?_, hnext⟩
    have hne : p.id ≠ o.id := fun heq => hnodup.1 (heq ▸ List.mem_map_of_mem hp)
    rw [hothers p.id hne]
    exact hfound p (by simp [hp])
  · rintro o rest t htest ⟨ids, hplaced, hnodup, hfound, hI⟩
    have hstate : o.state ≠ state := by simpa using htest
    rw [List.map_cons, List.nodup_cons] at hnodup
    exact ⟨ids, hplaced, hnodup.2, fun p hp => hfound p (by simp [hp]),
      pass o rest t.estate hplaced (hfound o (by simp)) hstate hI⟩

theorem runs_loop {f : ProcessingRun → M Unit} {I : List ProcessingRun → Estate → Prop}
    (round : ∀ q rest (t : Shared), t.db.Ids → t.estate.Placed → t.estate.run? q.id = some q →
      q.state = .running → I (q :: rest) t.estate → (f q).Gives A J (fun _ u => u.db.Ids ∧
        u.estate.Placed ∧ (∀ i, i ≠ q.id → u.estate.run? i = t.estate.run? i) ∧ I rest u.estate) t)
    (pass : ∀ q rest E, E.Placed → E.run? q.id = some q → q.state ≠ .running → I (q :: rest) E →
      I rest E)
    (ids : s.db.Ids) (hplaced : s.estate.Placed) (hI : I s.estate.processingRuns s.estate) :
    (Prog.forEach (s.db.listRuns [.running]) f).Gives A J
      (fun _ t => t.db.Ids ∧ t.estate.Placed ∧ I [] t.estate) s := by
  have hlist : s.db.listRuns [.running] =
      s.estate.processingRuns.filter fun q => decide (q.state ∈ [RunState.running]) :=
    if_neg (by simp)
  rw [hlist]
  let L : List ProcessingRun → Shared → Prop := fun todo t => t.db.Ids ∧ t.estate.Placed ∧
    (todo.map ProcessingRun.id).Nodup ∧ (∀ q ∈ todo, t.estate.run? q.id = some q) ∧
      I todo t.estate
  refine (Prog.Gives.forEach_filter (I := L) ?_ ?_ ⟨ids, hplaced, hplaced.runNodup,
    fun q hq => hplaced.run? hq, hI⟩).mono (fun _ h => h) fun _ t h => ⟨h.1, h.2.1, h.2.2.2.2⟩
  · rintro q rest t htest ⟨ids, hplaced, hnodup, hfound, hI⟩
    rw [List.map_cons, List.nodup_cons] at hnodup
    refine (round q rest t ids hplaced (hfound q (by simp)) (by simpa using htest) hI).mono
      (fun _ h => h) ?_
    rintro _ u ⟨hids, hplaced', hothers, hnext⟩
    refine ⟨hids, hplaced', hnodup.2, fun p hp => ?_, hnext⟩
    have hne : p.id ≠ q.id := fun heq => hnodup.1 (heq ▸ List.mem_map_of_mem hp)
    rw [hothers p.id hne]
    exact hfound p (by simp [hp])
  · rintro q rest t htest ⟨ids, hplaced, hnodup, hfound, hI⟩
    have hstate : q.state ≠ .running := by simpa using htest
    rw [List.map_cons, List.nodup_cons] at hnodup
    exact ⟨ids, hplaced, hnodup.2, fun p hp => hfound p (by simp [hp]),
      pass q rest t.estate hplaced (hfound q (by simp)) hstate hI⟩

/-- The scan for orphans: the paths of the rows are resolved, and then each child is
looked at. -/
theorem scanOrphans_loop {W : M Unit → Shared → Prop} (hW : Prog.Sequential A J W)
    (look : (store (.listObservations [])).Gives A J
      (fun rows t => rows = s.estate.observations ∧ t = s) s)
    (resolve : ∀ o ∈ s.estate.observations,
      (call (.resolve o.msPath)).Gives A J (fun p t => p = o.msPath ∧ t = s) s)
    (present : (call (.exists_ observationsRoot)).Gives A J (fun b t => b = true ∧ t = s) s)
    (children : ∀ known, (∀ p, p ∈ known ↔ p ∈ s.estate.observations.map Observation.msPath) →
      W ((call (.iterdir observationsRoot)).bind
        fun names => Prog.forEach names (scanChild known)) s) :
    W scanOrphans s := by
  refine hW look ?_
  rintro rows t ⟨hrows, ht⟩
  obtain rfl : s = t := ht.symm
  -- the known paths are those of the rows
  let known : List Observation → List Path → Shared → Prop := fun rest k t => t = s ∧
    ∃ pre, s.estate.observations = pre ++ rest ∧ ∀ p, p ∈ k ↔ p ∈ pre.map Observation.msPath
  have hfold : (Prog.foldEach rows ([] : List Path) fun k o => do
      let p ← call (.resolve o.msPath)
      return p :: k).Gives A J (fun k t => known [] k t) s := by
    refine Prog.Gives.foldEach (I := known) ?_ ⟨rfl, [], hrows.symm, by simp⟩
    rintro o rest k t ⟨ht, pre, hpre, hk⟩
    obtain rfl : s = t := ht.symm
    refine (resolve o (by simp [hpre])).bind ?_
    rintro _ t ⟨rfl, ht⟩
    obtain rfl : s = t := ht.symm
    refine .pure ⟨rfl, pre ++ [o], by simp [hpre], fun p => ?_⟩
    simp [hk, or_comm]
  refine hW hfold ?_
  rintro k t ⟨ht, pre, hpre, hk⟩
  obtain rfl : s = t := ht.symm
  rw [List.append_nil] at hpre
  subst hpre
  refine hW present ?_
  rintro _ t ⟨rfl, ht⟩
  obtain rfl : s = t := ht.symm
  exact children k hk

end Rules

theorem Mending.loop {m : Mending} (hm : m.Lawful) {f : Observation → M Unit}
    (hf : m.CarriedOut f) {I : List Observation → Estate → Prop}
    (round : ∀ o rest E, E.Placed → E.obs? o.id = some o → o.state = m.state → I (o :: rest) E →
      I rest (m.apply E o) ∧ ∀ F, (m.repair o.id).leaves E F → K F)
    (pass : ∀ o rest E, E.Placed → E.obs? o.id = some o → o.state ≠ m.state → I (o :: rest) E →
      I rest E)
    (ids : s.db.Ids) (hplaced : s.estate.Placed) (hI : I s.estate.observations s.estate) :
    Smooth .main K (Prog.forEach (s.db.listObservations [m.state]) f)
      (fun _ t => t.db.Ids ∧ t.estate.Placed ∧ I [] t.estate) s := by
  refine observations_loop (fun o rest t ids hplaced ho hstate hI => ?_) pass ids hplaced hI
  obtain ⟨hnext, hK⟩ := round o rest t.estate hplaced ho hstate hI
  refine (hf t ids hplaced o ho hstate).mono (fun u => hK u.estate) ?_
  rintro _ u ⟨hids, hu⟩
  refine ⟨hids, hu ▸ hplaced.shift (hm.apply_shift hplaced ho), fun i hi => ?_, hu ▸ hnext⟩
  rw [hu, hm.obs?_apply ho, if_neg hi]

theorem abandoning_loop {I : List ProcessingRun → Estate → Prop}
    (round : ∀ q rest E, E.Placed → E.run? q.id = some q → q.state = .running → I (q :: rest) E →
      ((abandoning q.id).fix E).Placed ∧ I rest ((abandoning q.id).fix E) ∧
        ∀ F, (abandoning q.id).leaves E F → K F)
    (pass : ∀ q rest E, E.Placed → E.run? q.id = some q → q.state ≠ .running → I (q :: rest) E →
      I rest E)
    (ids : s.db.Ids) (hplaced : s.estate.Placed) (hI : I s.estate.processingRuns s.estate) :
    Smooth .main K (Prog.forEach (s.db.listRuns [.running]) recoverRun)
      (fun _ t => t.db.Ids ∧ t.estate.Placed ∧ I [] t.estate) s := by
  refine runs_loop (fun q rest t ids hplaced hq hrunning hI => ?_) pass ids hplaced hI
  obtain ⟨hplaced', hnext, hK⟩ := round q rest t.estate hplaced hq hrunning hI
  refine (recoverRun_smooth ids hq hrunning).mono (fun u => hK u.estate) ?_
  rintro _ u ⟨hids, hu⟩
  refine ⟨hids, hu ▸ hplaced', fun i hi => ?_, hu ▸ hnext⟩
  rw [hu, abandoning_run? hi]

section Scan

/-- What the scan for orphans makes of one child of `observations/`. -/
def Estate.scanned (E : Estate) (name : String) : Estate :=
  if ["observations", name] ∈ E.observations.map Observation.msPath then E
  else { E with disk := E.disk.setAside ["observations", name] ("orphan-" ++ name) }

theorem scanChild_smooth {known : List Path} {name : String} (ids : s.db.Ids)
    (hstands : s.disk.Stands)
    (hknown : ∀ p, p ∈ known ↔ p ∈ s.estate.observations.map Observation.msPath)
    (hK : K s.estate) (hK' : K (s.estate.scanned name)) :
    Smooth .main K (scanChild known name)
      (fun _ t => t.db.Ids ∧ t.estate = s.estate.scanned name) s := by
  unfold Estate.scanned at *
  refine .then (smooth_resolve hK ?_)
  by_cases hmem : ["observations", name] ∈ s.estate.observations.map Observation.msPath
  · rw [if_pos hmem]
    simp only [observationsRoot, List.cons_append, List.nil_append, hknown, hmem, ite_true]
    exact .pure ⟨ids, rfl⟩
  rw [if_neg hmem] at hK' ⊢
  simp only [observationsRoot, List.cons_append, List.nil_append, hknown, hmem, ite_false]
  cases hhas : s.disk.has ["observations", name] with
  | true =>
    refine Prog.Gives.catchAll (.then (quarantinePath_smooth rfl hstands hhas hK hK' ?_))
    intro _ t hdb hdisk
    exact .pure ⟨hdb ▸ ids, estate_files hdb hdisk⟩
  | false =>
    have hnone : s.estate.disk.setAside ["observations", name] ("orphan-" ++ name) =
        s.estate.disk :=
      Disk.setAside_of_gone (Disk.has_eq_false.mp hhas)
    refine Prog.Meets.catchAll (Q := fun x t => (∃ e, x = .error e) ∧ t = s)
      (.bind (Q := fun x t => (∃ e, x = .error e) ∧ t = s)
        (quarantinePath_gone hhas hK ⟨⟨_, rfl⟩, rfl⟩) (fun _ _ h => by simp at h)
        fun _ _ h => ⟨⟨_, rfl⟩, h.2⟩) (fun _ _ h => by simp at h) ?_
    rintro e t ⟨_, ht⟩
    obtain rfl : s = t := ht.symm
    refine recordEvent_smooth ids hK fun t hids ht => ⟨hids, ?_⟩
    rw [hnone]
    exact ht

theorem Estate.scanned_keeps {E : Estate} (name : String) :
    (E.disk.Stands → (E.scanned name).disk.Stands) ∧
      (E.scanned name).observations = E.observations := by
  unfold Estate.scanned
  split
  · exact ⟨id, rfl⟩
  · exact ⟨Disk.Stands.setAside, rfl⟩

theorem scanOrphans_smooth {I : List String → Estate → Prop}
    (round : ∀ n rest E, I (n :: rest) E → I rest (E.scanned n))
    (hK : ∀ rest E, I rest E → K E) (ids : s.db.Ids) (hstands : s.disk.Stands)
    (hI : ∀ ns names, s.disk.names observationsRoot = .ok ns → names.Perm ns → I names s.estate) :
    Smooth .main K scanOrphans (fun _ t => t.db.Ids ∧ I [] t.estate) s := by
  obtain ⟨j, es, hdir⟩ : s.disk.root.IsDir ["observations"] := hstands _ (by simp [layout])
  have hget : s.disk.get? observationsRoot = some (.dir j es) := hdir
  have hnames : s.disk.names observationsRoot = .ok (es.map (·.1)) := by
    simp [Disk.names, hget]
  have hstart : K s.estate := hK _ _ (hI _ _ hnames (.refl _))
  refine scanOrphans_loop (W := fun p s => Smooth .main K p (fun _ t => t.db.Ids ∧ I [] t.estate) s)
    (Prog.Gives.sequential _) (smooth_look rfl hstart ⟨rfl, rfl⟩)
    (fun o _ => smooth_resolve hstart ⟨rfl, rfl⟩)
    (smooth_exists hstart ⟨by simp [Disk.has, hget], rfl⟩) fun known hknown => ?_
  refine .then (smooth_iterdir hnames hstart fun names hperm => ?_)
  let J : List String → Shared → Prop := fun rest t => t.db.Ids ∧ t.disk.Stands ∧
    t.estate.observations = s.estate.observations ∧ I rest t.estate
  refine (Prog.Gives.forEach (I := J) ?_ ⟨ids, hstands, rfl, hI _ _ hnames hperm⟩).mono
    (fun _ h => h) fun _ t h => ⟨h.1, h.2.2.2⟩
  rintro n rest t ⟨ids, hstands, hobs, hI⟩
  have hnext := round n rest t.estate hI
  refine (scanChild_smooth ids hstands (fun p => by rw [hobs]; exact hknown p) (hK _ _ hI)
    (hK _ _ hnext)).mono (fun _ h => h) ?_
  rintro _ u ⟨hids, hu⟩
  obtain ⟨hstands', hobs'⟩ := Estate.scanned_keeps (E := t.estate) n
  have hdisk : u.disk = (t.estate.scanned n).disk := congrArg Estate.disk hu
  refine ⟨hids, hdisk ▸ hstands' hstands, ?_, hu ▸ hnext⟩
  rw [hu, hobs', hobs]

end Scan

end Sdpctl
