import Sdpctl.Programs.Moving

/-!
`startup_reconcile`, verified: after the gate no runner is left over, and the
six phases keep to what the main coroutine may do.
-/

namespace Sdpctl

open FileTree Coop

variable {T : Terms} {cfg : Config} {P : Shared → Prop}

/-- The main coroutine after the gate, before it has started any task. -/
def Recovering (cfg : Config) (s : Shared) : Prop :=
  s.ctl.up = true ∧ s.ctl.cfg = cfg ∧ s.ctl.tasks = [] ∧ NoOrphan s

theorem recovering_patient : Patient T .main (Recovering cfg) :=
  fun _ _ _ hk _ _ h => ⟨hk.up.trans h.1, hk.cfg.trans h.2.1, hk.mine h.2.2.1, hk.noOrphan h.2.2.2⟩

theorem recovering_frame : Frame T .main (Recovering cfg) :=
  ⟨recovering_patient.firm (by simp), fun _ _ _ _ _ _ h => h⟩

theorem Ctl.dead_of_idle {ctl : Ctl} (h : ctl.tasks = []) (kind : TaskKind) (key : Nat) :
    ctl.live kind key = false := by
  simp [Ctl.live, Ctl.latest, h]

theorem noWriter_of_dead {s : Shared} (hinv : Inv T s) {oid : Nat}
    (hdead : s.ctl.live .observe oid = false) (hno : NoOrphan s) : NoWriter oid s := by
  intro w hw hoid
  cases hrun : w.running with
  | false => rfl
  | true =>
    rcases Runner.running_iff.mp hrun with hs | hs
    · have hlive := hinv.runners.live w hw hs
      rw [hoid, hdead] at hlive
      cases hlive
    · exact absurd hs (hno w hw)

theorem main_custody {s : Shared} (hinv : Inv T s) {oid : Nat} (hobs : s.db.InState oid .observing)
    (hdead : s.ctl.live .observe oid = false) (hno : NoOrphan s) : Custody .main oid s :=
  ⟨hobs, noWriter_of_dead hinv hdead hno, .inr ⟨rfl, hdead, hno⟩⟩

theorem Db.InState.obsStep {db db' : Db} {o o' : Observation} {oid : Nat}
    {state : ObservationState} (h : db.InState oid state) (step : Db.ObsStep db db' o o')
    (hkeep : o'.id = oid → o.state = state → o'.state = state) : db'.InState oid state := by
  obtain ⟨x, hx, hs⟩ := h
  by_cases heq : oid = o'.id
  · subst heq
    have hxo : x = o := Option.some.inj (hx.symm.trans step.found)
    exact ⟨o', step.obs?_self, hkeep rfl (hxo ▸ hs)⟩
  · exact ⟨x, by rw [step.obs?_ne heq]; exact hx, hs⟩

/-- The rows that are still to be visited are in the state in which they were listed. -/
def StillIn (state : ObservationState) (rest : List Observation) (s : Shared) : Prop :=
  ∀ o ∈ rest, s.db.InState o.id state

theorem observing_firm (rest : List Observation) : Firm T .main (StillIn .observing rest) :=
  fun _ _ _ hq _ _ h o ho => (hq (by simp)).observing (h o ho)

theorem planned_firm (rest : List Observation) : Firm T .main (StillIn .planned rest) :=
  fun _ _ _ hq _ _ h o ho =>
    (hq (by simp)).inState (by decide) (by simp [ObservationState.Closing]) (h o ho)

theorem StillIn.obsStep {state : ObservationState} {rest : List Observation} {s : Shared}
    {db' : Db} {o o' : Observation} (h : StillIn state rest s) (step : Db.ObsStep s.db db' o o')
    (hne : o.id ∉ rest.map Observation.id) : StillIn state rest { s with db := db' } := by
  intro x hx
  refine Db.InState.obsStep (h x hx) step fun hid => absurd ?_ hne
  rw [step.id, hid]
  exact List.mem_map_of_mem hx

theorem listObservations_spec {s : Shared} (hinv : Inv T s) {states : List ObservationState}
    {rows : List Observation} (h : rows = s.db.listObservations states) :
    (rows.map Observation.id).Nodup ∧ ∀ o ∈ rows, s.db.obs? o.id = some o ∧
      o.msPath = msPathOf o.id ∧ (states ≠ [] → o.state ∈ states) := by
  have hsub : rows.Sublist s.db.observations := by
    rw [h]
    unfold Db.listObservations
    split
    · exact List.Sublist.refl _
    · exact List.filter_sublist
  refine ⟨hinv.db.ids.obsNodup.sublist (hsub.map _), fun o ho => ?_⟩
  have hfound := hinv.db.ids.obs? (hsub.subset ho)
  refine ⟨hfound, hinv.db.msPath o.id o hfound, fun hne => ?_⟩
  rw [h, Db.listObservations, if_neg hne] at ho
  simpa using (List.mem_filter.mp ho).2

section Phases

/-- `_record_observation_recovery_failure`. -/
theorem recordObservationRecoveryFailure_rule (hfirm : Firm T .main P)
    (hkeep : ∀ s db o o', P s → Db.ObsStep s.db db o o' → o'.state = o.state →
      P { s with db })
    (hnote : ∀ s db, P s → db.observations = s.db.observations → P { s with db })
    (oid : Nat) (e : Exn) (context : String) :
    Verified T .main P (recordObservationRecoveryFailure oid e context) (fun _ => P)
      (fun _ => P) := by
  have hrecord : ∀ (E : Exn → Shared → Prop), (∀ e s, P s → E e s) →
      Verified T .main P (store (.recordEvent .observation oid
        ("reconcile failure during " ++ context ++ ": " ++ e.repr))) (fun _ => P) E := by
    intro E hE
    refine change_rule _ hfirm (fun _ _ _ => trivial) ?_ fun s e _ h _ => hE e s h
    rintro s a db _ h hrun _
    cases hrun
    exact hnote s _ h rfl
  have hforce : Verified T .main P (store (.forceObservationFields oid none
      (some ("reconcile failure during " ++ context ++ ": " ++ e.repr)))) (fun _ => P)
        fun _ => P := by
    refine change_rule _ hfirm (fun _ _ _ => ⟨by simp, rfl⟩) ?_ fun _ _ _ h _ => h
    rintro s a db hinv h hrun _
    cases hrun
    rcases Db.forceObservationFields_step hinv.db.ids oid none _ with hsame | ⟨o, _, step⟩
    · rw [hsame]
      exact h
    · exact hkeep s _ o _ h step rfl
  exact .finallyDo hforce (fun _ => hrecord _ fun _ _ h => h) fun _ => hrecord _ fun _ _ h => h

theorem recovery_failure_frame (hframe : Frame T .main P) (oid : Nat) (e : Exn)
    (context : String) :
    Verified T .main P (recordObservationRecoveryFailure oid e context) (fun _ => P)
      (fun _ => P) :=
  recordObservationRecoveryFailure_rule hframe.firm (fun _ _ _ _ h _ _ => hframe.db _ h)
    (fun _ _ h _ => hframe.db _ h) oid e context

theorem recoverObservation_rule {x : Observation} {rest : List Observation}
    (hpath : x.msPath = msPathOf x.id) (hne : x.id ∉ rest.map Observation.id) :
    Verified T .main (fun s => Recovering cfg s ∧ StillIn .observing (x :: rest) s)
      (recoverObservation x) (fun _ s => Recovering cfg s ∧ StillIn .observing rest s)
      (fun _ _ => True) := by
  have hfirm := (show Frame T .main (Recovering cfg) from recovering_frame).firm.and
    (observing_firm rest)
  have hblind : Blind fun s => Recovering cfg s ∧ StillIn .observing rest s := fun _ _ _ _ h => h
  unfold recoverObservation
  rw [hpath]
  refine .catchAll (E := fun _ s => Recovering cfg s ∧ StillIn .observing rest s)
    (.pre (P := fun s => (Recovering cfg s ∧ StillIn .observing rest s) ∧ Custody .main x.id s)
      (.bind ((quarantineIfExists_rule (by simp) hfirm hblind x.id _).exc fun _ _ _ h => h.1)
        fun _ => ?_)
    fun s hinv h => ⟨⟨h.1, fun o ho => h.2 o (by simp [ho])⟩, main_custody hinv (h.2 x (by simp))
      (Ctl.dead_of_idle h.1.2.2.1 _ _) h.1.2.2.2⟩) fun e => ?_
  · refine fail_rule (by simp) hfirm x.id ?_ fun _ _ _ h _ _ => h
    rintro s db o o' _ h _ hid _ step
    exact ⟨recovering_frame.db (T := T) db h.1, h.2.obsStep step (hid ▸ hne)⟩
  · refine (recordObservationRecoveryFailure_rule hfirm ?_ (fun _ _ h _ => ?_) x.id e _).exc
      fun _ _ _ _ => trivial
    · rintro s db o o' h step hstate
      exact ⟨recovering_frame.db (T := T) db h.1, fun y hy =>
        Db.InState.obsStep (h.2 y hy) step fun _ => hstate.trans⟩
    · rename_i hobs
      refine ⟨recovering_frame.db (T := T) _ h.1, fun y hy => ?_⟩
      obtain ⟨z, hz, hstate⟩ := h.2 y hy
      exact ⟨z, by rw [Db.obs?_congr hobs]; exact hz, hstate⟩

/-- The products of these runs have not reached QA. -/
def AllUnreviewed (runs : List ProcessingRun) (s : Shared) : Prop := ∀ run ∈ runs, Unreviewed s run

theorem unreviewed_of_state {s : Shared} (hinv : Inv T s) {run : ProcessingRun}
    (hrun : s.db.run? run.id = some run) (hstate : ¬ run.state.Delivered) : Unreviewed s run := by
  refine ⟨⟨run, hrun, rfl, rfl⟩, Bool.eq_false_iff.mpr fun hreached => ?_⟩
  obtain ⟨q, hq, hs⟩ := hinv.db.delivered run.id hreached
  rw [hrun] at hq
  cases hq
  exact hstate hs

theorem allUnreviewed_firm (runs : List ProcessingRun) : Firm T .main (AllUnreviewed runs) := by
  intro s s' hon hq _ _ h run hrun
  obtain ⟨⟨q, hfound, howner, hattempt⟩, hunseen⟩ := h run hrun
  obtain ⟨q', hfound', howner', hattempt'⟩ := hon.db.runs _ q hfound
  exact ⟨⟨q', hfound', howner'.trans howner, hattempt'.trans hattempt⟩,
    ((hq (by simp)).db.reached _).trans hunseen⟩

theorem allUnreviewed_blind (runs : List ProcessingRun) : Blind (AllUnreviewed runs) :=
  fun _ _ _ _ h run hrun => ⟨(h run hrun).row, (h run hrun).unseen⟩

theorem AllUnreviewed.evolve {runs : List ProcessingRun} {s : Shared} {db : Db}
    (h : AllUnreviewed runs s) (hgrows : s.db.Grows db)
    (hreached : ∀ rid, s.db.reachedQa rid = false → db.reachedQa rid = false) :
    AllUnreviewed runs { s with db } := by
  intro run hrun
  obtain ⟨⟨q, hfound, howner, hattempt⟩, hunseen⟩ := h run hrun
  obtain ⟨q', hfound', howner', hattempt'⟩ := hgrows.runs _ q hfound
  exact ⟨⟨q', hfound', howner'.trans howner, hattempt'.trans hattempt⟩, hreached _ hunseen⟩

theorem AllUnreviewed.runStep {runs : List ProcessingRun} {s : Shared} {db : Db}
    {q q' : ProcessingRun} (h : AllUnreviewed runs s) (ids : s.db.Ids)
    (step : Db.RunStep s.db db q q') (hverdict : q.state.Releasing → q'.state.Releasing)
    (hstate : q'.state ≠ .awaitingQa) : AllUnreviewed runs { s with db } :=
  h.evolve (.runStep ids step hverdict) fun rid hunseen => by
    simp [step.reachedQa, hunseen, hstate]

theorem recoverRun_rule {runs : List ProcessingRun} {x : ProcessingRun} (hx : x ∈ runs)
    (hout : x.outputPrefix = outputDir x.observationId x.attempt ++ ["product"]) :
    Verified T .main (fun s => Recovering cfg s ∧ AllUnreviewed runs s) (recoverRun x)
      (fun _ s => Recovering cfg s ∧ AllUnreviewed runs s) (fun _ _ => True) := by
  have hframe : Frame T .main (Recovering cfg) := recovering_frame
  have hfirm := hframe.firm.and (allUnreviewed_firm (T := T) runs)
  have hblind := hframe.blind.and (allUnreviewed_blind runs)
  refine .catchAll (E := fun _ s => Recovering cfg s ∧ AllUnreviewed runs s)
    (.bind (removeIfExists_rule hfirm hblind.sturdy fun _ _ h => ?_) fun _ => ?_) fun e => ?_
  · exact .product x (by simp) (by simp [hout, parent]) (h.2 x hx)
  · refine transitionRun_rule (by decide) hfirm ?_ ?_ fun _ _ _ h _ => h
    · rintro s _ h q hq hstate
      exact .orphaned rfl (Ctl.dead_of_idle h.1.2.2.1 _ _) hstate rfl
    · rintro s db q hinv h hid hstate step
      exact ⟨hframe.db db h.1, h.2.runStep hinv.db.ids step
        (by simp [hstate, RunState.Releasing]) (by simp)⟩
  · refine change_rule (.recordEvent .run x.id _) hfirm (fun _ _ _ => trivial) ?_
      fun _ _ _ _ _ => trivial
    rintro s a db _ h hrun _
    cases hrun
    exact ⟨hframe.db _ h.1, h.2.evolve (.congr rfl rfl) fun rid hunseen =>
      (Db.recordEvent_reachedQa _ _ _ rid).trans hunseen⟩

/-- A stored observation with an accepted run goes on to its deletion. -/
theorem repairAccepted_rule (x : Observation) :
    Verified T .main (Recovering cfg) (repairAccepted x) (fun _ => Recovering cfg)
      (fun _ _ => True) := by
  have hframe : Frame T .main (Recovering cfg) := recovering_frame
  have hreleased : Lasting T fun s => s.db.Released x.id := fun _ _ hon h => hon.db.released _ h
  have hboth := hframe.firm.and (hreleased.firm (r := .main))
  refine .catchAll (E := fun _ => Recovering cfg) (.bind (query_rule (.hasAcceptedRun x.id)
    (·.hasAcceptedRun x.id) (fun _ => rfl) (fun _ => trivial) hframe.firm)
    fun b => .ite (fun hb => ?_) fun _ => .pure fun _ _ h => h.1) fun e =>
      (recovery_failure_frame hframe x.id e _).exc fun _ _ _ _ => trivial
  refine .bind (((query_rule (.hasActiveRuns x.id) (·.hasActiveRuns x.id) (fun _ => rfl)
    (fun _ => trivial) hboth).pre fun s _ h => ⟨h.1, ?_⟩).exc fun _ _ _ h => h.1) fun b' =>
      .ite (fun _ => ?_) fun _ => .pure fun _ _ h => h.1.1
  · obtain ⟨q, hq, hstate⟩ := List.any_eq_true.mp (h.2.symm.trans hb)
    exact ⟨q, hq, .inl (by simpa using hstate)⟩
  · refine .pre (transitionObservation_rule (by decide) hboth ?_
      (fun _ _ _ _ h _ _ _ => hframe.db _ h.1) fun _ _ _ h _ => h.1) fun _ _ h => h.1
    rintro s _ ⟨_, hrel⟩ o ho hstate
    exact .repair rfl hstate rfl rfl rfl ((Db.mem_of_obs? ho).2 ▸ hrel)

theorem resumeDeletion_rule (x : Observation) :
    Verified T .main (Recovering cfg) (resumeDeletion x) (fun _ => Recovering cfg)
      (fun _ _ => True) :=
  .catchAll (finishObservationDeletion_rule recovering_frame x.id (.inl rfl)) fun e =>
    (recovery_failure_frame recovering_frame x.id e _).exc fun _ _ _ _ => trivial

def Listed (rows : List Observation) (s : Shared) : Prop := ∀ o ∈ rows, (s.db.obs? o.id).isSome

theorem listed_firm (rows : List Observation) : Firm T .main (Listed rows) :=
  fun _ _ hon _ _ _ h o ho => hon.db.isSome _ (h o ho)

theorem Listed.obsStep {rows : List Observation} {s : Shared} {db' : Db} {o o' : Observation}
    (h : Listed rows s) (step : Db.ObsStep s.db db' o o') : Listed rows { s with db := db' } := by
  intro x hx
  simp only [step.obs?]
  split
  · rfl
  · exact h x hx

theorem verifyStored_rule {rows : List Observation} {x : Observation} (hx : x ∈ rows)
    (hpath : x.msPath = msPathOf x.id) :
    Verified T .main (fun s => Recovering cfg s ∧ Listed rows s) (verifyStored x)
      (fun _ s => Recovering cfg s ∧ Listed rows s) (fun _ _ => True) := by
  have hframe : Frame T .main (Recovering cfg) := recovering_frame
  have hboth := hframe.firm.and (listed_firm rows)
  have hkeep : ∀ s db o o', Recovering cfg s ∧ Listed rows s → Db.ObsStep s.db db o o' →
      Recovering cfg { s with db } ∧ Listed rows { s with db } :=
    fun _ _ _ _ h step => ⟨hframe.db _ h.1, h.2.obsStep step⟩
  have hgone := absent_ms_firm (by simp) x.id (fun s hinv h => ⟨h.2 x hx,
    noWriter_of_dead hinv (Ctl.dead_of_idle h.1.2.2.1 _ _) h.1.2.2.2⟩) hboth
  unfold verifyStored
  rw [hpath]
  refine .catchAll (E := fun _ s => Recovering cfg s ∧ Listed rows s) (.bind
    ((exists_rule _ hboth).exc fun _ _ _ h => h.1) fun b => .ite (fun hb => ?_)
    fun _ => .pure fun _ _ h => h.1) fun e => ?_
  · refine .pre (transitionObservation_rule (by decide) hgone ?_
      (fun _ _ _ _ h _ _ step => hkeep _ _ _ _ h.1 step) fun _ _ _ h _ => h.1)
      fun s _ h => ⟨h.1, fun _ => absent_of_not h.2 hb⟩
    rintro s _ ⟨_, habs⟩ o ho hstate
    exact .miss rfl hstate rfl rfl rfl ((Db.mem_of_obs? ho).2 ▸ habs)
  · refine (recordObservationRecoveryFailure_rule hboth
      (fun _ _ _ _ h step _ => hkeep _ _ _ _ h step) (fun _ _ h hobs => ?_) x.id e _).exc
      fun _ _ _ _ => trivial
    exact ⟨hframe.db _ h.1, fun y hy => by rw [Db.obs?_congr hobs]; exact h.2 y hy⟩

def AllKnown (known : List Path) (s : Shared) : Prop :=
  ∀ oid, (s.db.obs? oid).isSome → msPathOf oid ∈ known

theorem allKnown_firm (known : List Path) : Firm T .main (AllKnown known) := by
  intro s s' _ hq _ _ h oid hsome
  cases hrow : s.db.obs? oid with
  | none => simp [(hq (by simp)).db.absent oid hrow] at hsome
  | some o => exact h oid (by simp [hrow])

theorem AllKnown.absent {known : List Path} {s : Shared} (h : AllKnown known s) (hinv : Inv T s)
    {name : String} (hnot : observationsRoot ++ [name] ∉ known) :
    s.disk.absent (observationsRoot ++ [name]) := by
  cases hget : s.disk.get? (observationsRoot ++ [name]) with
  | none => exact hget
  | some t =>
    obtain ⟨oid, o, ho, rfl⟩ := hinv.disk.covered "observations" name (.inl rfl)
      (show s.disk.has (observationsRoot ++ [name]) from Disk.has_iff.mpr ⟨t, hget⟩)
    exact absurd (h oid (by simp [ho])) hnot

/-- One child of `observations/`. -/
theorem scanChild_rule (known : List Path) (name : String) :
    Verified T .main (fun s => Recovering cfg s ∧ AllKnown known s) (scanChild known name)
      (fun _ s => Recovering cfg s ∧ AllKnown known s) (fun _ _ => True) := by
  have hframe : Frame T .main (Recovering cfg) := recovering_frame
  have hfirm := hframe.firm.and (allKnown_firm known)
  refine .bind ((resolve_rule _ hfirm).exc fun _ _ _ _ => trivial) fun resolved =>
    .ite (fun _ => .pure fun _ _ h => h.1) fun hnot => ?_
  rintro s hinv ⟨h, rfl⟩
  refine Logic.Triple.catchAll (E := fun _ s => Recovering cfg s ∧ AllKnown known s)
    (.bind (((quarantinePath_rule (F := fun _ => True) (by simp) _ hfirm (.const True)
      (fun _ _ _ _ h => h) ?_ ?_).pre fun _ _ h => ⟨h, trivial⟩).exc fun _ _ _ h => h.1)
      fun _ => .pure fun _ _ h => h.1) (fun e => ?_) s hinv h
  · intro s s' hon hq hinv hinv' h
    have h' := hfirm s s' hon hq hinv hinv' h.1
    exact ⟨h', fun _ => h'.2.absent hinv' hnot⟩
  · rintro s _ h oid o ho rfl
    exact absurd (h.2 oid (by simp [ho])) hnot
  · refine change_rule _ hfirm (fun _ _ _ => trivial) ?_ fun _ _ _ _ _ => trivial
    rintro s a db _ h hrun _
    cases hrun
    exact ⟨hframe.db _ h.1, h.2⟩

theorem Db.mem_listObservations_all {db : Db} {o : Observation} :
    o ∈ db.listObservations [] ↔ o ∈ db.observations := by
  simp [Db.listObservations]

variable (cfg) in
theorem collectKnown_rule (rows : List Observation) :
    Verified T .main (fun s => Recovering cfg s ∧ AllKnown (rows.map Observation.msPath) s)
      (Prog.foldEach rows [] fun known o => do
        let p ← call (.resolve o.msPath)
        return p :: known)
      (fun known s => Recovering cfg s ∧ AllKnown known s) (fun _ _ => True) := by
  have hframe : Frame T .main (Recovering cfg) := recovering_frame
  have hfirm : ∀ paths, Firm T .main fun s => Recovering cfg s ∧ AllKnown paths s :=
    fun paths => hframe.firm.and (allKnown_firm paths)
  refine Logic.Triple.conseq (E := fun _ _ => True) (Logic.Triple.foldEach (fun known rest s =>
    Recovering cfg s ∧ AllKnown (known ++ rest.map Observation.msPath) s) fun known o rest => ?_)
    (fun _ _ h => by simpa using h) (fun _ _ _ h => by simpa using h) fun _ _ _ h => h
  refine .bind ((resolve_rule _ (hfirm _)).exc fun _ _ _ _ => trivial) fun p =>
    .pure fun s _ h => ⟨h.1.1, fun oid hsome => ?_⟩
  have hmem := h.1.2 oid hsome
  simp only [h.2, List.map_cons, List.mem_append, List.mem_cons, List.cons_append] at hmem ⊢
  tauto

theorem scanOrphans_rule : Verified T .main (Recovering cfg) scanOrphans
    (fun _ => Recovering cfg) (fun _ _ => True) := by
  have hframe : Frame T .main (Recovering cfg) := recovering_frame
  refine .bind ((query_rule (.listObservations []) (·.listObservations []) (fun _ => rfl)
    (fun _ => trivial) hframe.firm).exc fun _ _ _ _ => trivial) fun rows => ?_
  refine .bind ((collectKnown_rule cfg rows).pre ?_) fun known => ?_
  · rintro s hinv ⟨h, rfl⟩
    refine ⟨h, fun oid hsome => ?_⟩
    obtain ⟨o, ho⟩ := Option.isSome_iff_exists.mp hsome
    rw [← hinv.db.msPath oid o ho]
    exact List.mem_map_of_mem (Db.mem_listObservations_all.mpr (Db.mem_of_obs? ho).1)
  have hknown := hframe.firm.and (allKnown_firm (T := T) known)
  refine .bind ((exists_rule _ hknown).exc fun _ _ _ _ => trivial) fun b => .ite (fun _ => ?_)
    fun _ => .pure fun _ _ h => h.1.1
  refine .bind (Q := fun _ s => Recovering cfg s ∧ AllKnown known s) (.pre (Verified.look rfl hknown
    (fun _ _ _ => trivial) fun s c x s' _ h _ hx => ?_) fun _ _ h => h.1) fun children => ?_
  · simp only [exec] at hx
    split at hx
    · split at hx
      · split at hx <;> cases hx
        exact ⟨rfl, h⟩
      · cases hx
        exact ⟨rfl, trivial⟩
    · cases hx
      exact ⟨rfl, trivial⟩
    · cases hx
  · exact (Logic.Triple.forEach_inv fun name _ => scanChild_rule known name).post fun _ _ _ h => h.1

theorem recoverAll_rule : Verified T .main (Recovering cfg) recoverAll (fun _ => Recovering cfg)
    (fun _ _ => True) := by
  have hframe : Frame T .main (Recovering cfg) := recovering_frame
  have hlist : ∀ states, Verified T .main (Recovering cfg) (store (.listObservations states))
      (fun rows s => Recovering cfg s ∧ rows = s.db.listObservations states) (fun _ _ => True) :=
    fun states => (query_rule (.listObservations states) (·.listObservations states) (fun _ => rfl)
      (fun _ => trivial) hframe.firm).exc fun _ _ _ _ => trivial
  refine .bind (hlist _) fun interrupted => .bind (Q := fun _ => Recovering cfg) ?_ fun _ => ?_
  · rintro s hinv ⟨h, hrows⟩
    obtain ⟨hnodup, hall⟩ := listObservations_spec hinv hrows
    have hpaths : ∀ o ∈ interrupted, o.msPath = msPathOf o.id := fun o ho => (hall o ho).2.1
    have hstill : StillIn .observing interrupted s := fun o ho =>
      ⟨o, (hall o ho).1, by simpa using (hall o ho).2.2 (by simp)⟩
    clear hrows hall
    induction interrupted generalizing s with
    | nil => exact h
    | cons x rest ih =>
      rw [List.map_cons, List.nodup_cons] at hnodup
      refine Logic.Triple.bind (recoverObservation_rule (hpaths x (by simp)) hnodup.1)
        (fun _ s' hinv' h' => ?_) s hinv ⟨h, hstill⟩
      exact ih s' hinv' h'.1 hnodup.2 (fun o ho => hpaths o (by simp [ho])) h'.2
  refine .bind ((query_rule (.listRuns [.running]) (·.listRuns [.running]) (fun _ => rfl)
    (fun _ => trivial) hframe.firm).exc fun _ _ _ _ => trivial) fun running => ?_
  refine .bind (Q := fun _ => Recovering cfg) ?_ fun _ => ?_
  · rintro s hinv ⟨h, rfl⟩
    have hrows : ∀ x ∈ s.db.listRuns [.running],
        s.db.run? x.id = some x ∧ x.state = .running := by
      intro x hx
      rw [Db.listRuns, if_neg (by simp)] at hx
      obtain ⟨hmem, hstate⟩ := List.mem_filter.mp hx
      exact ⟨hinv.db.ids.run? hmem, by simpa using hstate⟩
    have hloop : Verified T .main
        (fun t => Recovering cfg t ∧ AllUnreviewed (s.db.listRuns [.running]) t)
        (Prog.forEach (s.db.listRuns [.running]) recoverRun)
        (fun _ t => Recovering cfg t ∧ AllUnreviewed (s.db.listRuns [.running]) t)
        (fun _ _ => True) :=
      Logic.Triple.forEach_inv fun x hx => recoverRun_rule hx
        (hinv.db.outputPrefix x.id x (hrows x hx).1)
    refine (hloop.post fun _ _ _ h => h.1) s hinv ⟨h, fun x hx => ?_⟩
    exact unreviewed_of_state hinv (hrows x hx).1
      (by simp [(hrows x hx).2, RunState.Delivered, RunState.Decided])
  refine .bind (hlist _) fun stored => .bind (Q := fun _ => Recovering cfg)
    ((Logic.Triple.forEach_inv fun x _ => repairAccepted_rule x).pre fun _ _ h => h.1) fun _ => ?_
  refine .bind (hlist _) fun deleting => .bind (Q := fun _ => Recovering cfg)
    ((Logic.Triple.forEach_inv fun x _ => resumeDeletion_rule x).pre fun _ _ h => h.1) fun _ => ?_
  refine .bind (hlist _) fun remaining => .bind (Q := fun _ => Recovering cfg) ?_
    fun _ => scanOrphans_rule
  rintro s hinv ⟨h, hrows⟩
  obtain ⟨_, hall⟩ := listObservations_spec hinv hrows
  have hloop : Verified T .main (fun s => Recovering cfg s ∧ Listed remaining s)
      (Prog.forEach remaining verifyStored) (fun _ s => Recovering cfg s ∧ Listed remaining s)
      fun _ _ => True :=
    Logic.Triple.forEach_inv fun x hx => verifyStored_rule hx (hall x hx).2.1
  exact (hloop.post fun _ _ _ h => h.1) s hinv ⟨h, fun o ho => by simp [(hall o ho).1]⟩

end Phases

/-- The gate: a controller has just started, so it has no task and no runner of
its own, and what others left behind is gone when the gate returns. -/
theorem killManaged_rule : Verified T .main (pre .main (.run cfg)) (call .killManaged)
    (fun _ => Recovering cfg) (fun _ _ => True) := by
  have hpatient : Patient T .main (pre .main (.run cfg)) :=
    fun _ _ _ hk _ _ h => ⟨hk.up.trans h.1, hk.cfg.trans h.2.1, hk.mine h.2.2⟩
  have hslain : ∀ s : Shared, ∀ w ∈ s.runners.map Runner.slain, w.state ≠ .orphan := by
    intro s w hw
    obtain ⟨v, _, rfl⟩ := List.mem_map.mp hw
    unfold Runner.slain
    split
    · simp
    · assumption
  refine Logic.Triple.call (hpatient.stable (by simp)) fun s c _ h _ =>
    ⟨⟨rfl, h.2.2⟩, fun x s' hx _ => ?_⟩
  simp only [system, exec] at hx
  split at hx <;> cases hx
  · exact ⟨h.1, h.2.1, h.2.2, hslain s⟩
  · exact ⟨h.1, h.2.1, h.2.2, hslain s⟩
  · trivial

theorem run_rule : Verified T .main (pre .main (.run cfg)) (Entry.run cfg).code
    (fun next s => ∀ n, next = some n → pre .main n s) (fun _ _ => True) := by
  refine .bind (.bind killManaged_rule fun _ => recoverAll_rule) fun _ => .pure fun s _ h n hn => ?_
  cases hn
  exact ⟨h.1, h.2.1, h.2.2.2⟩

end Sdpctl
