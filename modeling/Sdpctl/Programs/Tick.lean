import Sdpctl.Programs.Recovery
import Sdpctl.Programs.Tidy

/-!
`tick`, verified: phase by phase it puts the rows in order, and when it returns
nothing is stranded.
-/

namespace Sdpctl

open FileTree Coop

variable {T : Terms} {cfg : Config} {P : Shared → Prop}

def Ticking (cfg : Config) (s : Shared) : Prop :=
  s.ctl.up = true ∧ s.ctl.cfg = cfg ∧ NoOrphan s

theorem ticking_patient : Patient T .main (Ticking cfg) :=
  fun _ _ _ hk _ _ h => ⟨hk.up.trans h.1, hk.cfg.trans h.2.1, hk.noOrphan h.2.2⟩

theorem ticking_frame : Frame T .main (Ticking cfg) :=
  ⟨ticking_patient.firm (by simp), fun _ _ _ _ _ _ h => h⟩

def Listing (rows : List Observation) : Prop :=
  (rows.map Observation.id).Nodup ∧ ∀ o ∈ rows, o.msPath = msPathOf o.id

theorem Listing.tail {x : Observation} {rest : List Observation} (h : Listing (x :: rest)) :
    x.id ∉ rest.map Observation.id ∧ x.msPath = msPathOf x.id ∧ Listing rest := by
  obtain ⟨hnodup, hpath⟩ := h
  rw [List.map_cons, List.nodup_cons] at hnodup
  exact ⟨hnodup.1, hpath x (by simp), hnodup.2, fun o ho => hpath o (by simp [ho])⟩

theorem dead_firm (kind : TaskKind) (key : Nat) :
    Firm T .main fun s => s.ctl.live kind key = false := by
  intro s s' _ hq _ _ hdead
  have hctl := (hq (by simp)).ctl
  simpa only [hctl] using hdead

section Sweep

/-- The sweep has still to visit these observations. -/
def Left.sweeping (rest : List Observation) : Left where
  observing i := i ∈ rest.map Observation.id

def Left.failing (rest : List ProcessingRun) : Left where
  observing _ := False
  running i := i ∈ rest.map ProcessingRun.id

/-- An `OBSERVING` row in the sweep. -/
theorem sweepObservation_rule {x : Observation} {rest : List Observation}
    (hpath : x.msPath = msPathOf x.id) (hne : x.id ∉ rest.map Observation.id) :
    Verified T .main
      (fun s => Ticking cfg s ∧ Tidy (.sweeping (x :: rest)) s ∧ StillIn .observing (x :: rest) s)
      (sweepObservation x)
      (fun _ s => Ticking cfg s ∧ Tidy (.sweeping rest) s ∧ StillIn .observing rest s)
      (fun _ _ => True) := by
  have hframe : Frame T .main (Ticking cfg) := ticking_frame
  have hstart := hframe.firm.and ((tidy_firm (.sweeping (x :: rest))).and
    (observing_firm (T := T) (x :: rest)))
  have hrest : StillIn .observing (x :: rest) = fun s => s.db.InState x.id .observing ∧
      StillIn .observing rest s := by
    funext s
    simp [StillIn]
  refine .bind (obsTaskLive_rule x.id hstart) fun b => .ite (fun hb => .pure fun s _ h => ?_)
    fun hb => ?_
  · obtain ⟨⟨htick, htidy, hstill⟩, hlive⟩ := h
    rw [hrest] at hstill
    refine ⟨htick, htidy.weaken (fun i hl _ => ?_) (fun _ hl _ => .inr hl)
      (fun _ _ hl _ _ => .inr hl) (fun _ _ hl _ _ _ _ => hl) fun _ hl _ _ => hl, hstill.2⟩
    rcases List.mem_cons.mp hl with rfl | hl
    · exact .inl (hlive.symm.trans hb)
    · exact .inr hl
  · have hfirm := hframe.firm.and ((tidy_firm (.sweeping (x :: rest))).and
      (observing_firm (T := T) rest))
    have hblind : Blind fun s => Ticking cfg s ∧ Tidy (.sweeping (x :: rest)) s ∧
        StillIn .observing rest s :=
      hframe.blind.and ((tidy_blind _).and fun _ _ _ _ h => h)
    rw [hpath]
    refine .bind (((quarantineSuppressed_rule (by simp) hfirm hblind x.id _).pre ?_).exc
      fun _ _ _ _ => trivial) fun _ => ?_
    · rintro s hinv ⟨⟨htick, htidy, hstill⟩, hlive⟩
      rw [hrest] at hstill
      exact ⟨⟨htick, htidy, hstill.2⟩, main_custody hinv hstill.1
        (hlive.symm.trans (Bool.eq_false_iff.mpr hb)) htick.2.2⟩
    · refine suppressTransitionError_rule (A := fun _ => True) (φ := fun _ => False)
        (fail_rule (by simp) hfirm x.id ?_ fun s e _ h _ he => ⟨trivial, .inl he⟩)
        (fun _ _ _ h => h.elim) fun _ _ _ => trivial
      rintro s db o o' _ ⟨htick, htidy, hstill⟩ _ hid hstate step
      refine ⟨hframe.db db htick, (htidy.obsFailed step hstate).weaken (fun i hl _ => ?_)
        (fun _ hl _ => .inr hl) (fun _ _ hl _ _ => .inr hl) (fun _ _ hl _ _ _ _ => hl)
        fun _ hl _ _ => hl, hstill.obsStep step (hid ▸ hne)⟩
      rcases List.mem_cons.mp hl.1 with heq | hmem
      · exact absurd (heq.trans (hid.symm.trans step.id)) hl.2
      · exact .inr hmem

/-- A `RUNNING` row in the sweep. -/
theorem sweepRun_rule (x : ProcessingRun) (rest : List ProcessingRun) :
    Verified T .main (fun s => Ticking cfg s ∧ Tidy (.failing (x :: rest)) s) (sweepRun x)
      (fun _ s => Ticking cfg s ∧ Tidy (.failing rest) s) (fun _ _ => True) := by
  have hframe : Frame T .main (Ticking cfg) := ticking_frame
  have hfirm := hframe.firm.and (tidy_firm (T := T) (.failing (x :: rest)))
  have hdone : ∀ s, Ticking cfg s ∧ Tidy (.failing (x :: rest)) s →
      (∀ q, s.db.run? x.id = some q → q.state = .running → s.ctl.live .process x.id = true) →
      Ticking cfg s ∧ Tidy (.failing rest) s := by
    rintro s ⟨htick, htidy⟩ hx
    refine ⟨htick, htidy.weaken (fun _ hl _ => .inr hl) (fun _ hl _ => .inr hl)
      (fun i q hl hq hs => ?_) (fun _ _ hl _ _ _ _ => hl) fun _ hl _ _ => hl⟩
    rcases List.mem_cons.mp hl with rfl | hl
    · exact .inl (hx q hq hs)
    · exact .inr hl
  refine .bind (runTaskLive_rule x.id hfirm) fun b => .ite (fun hb => .pure fun s _ h =>
    hdone s h.1 fun _ _ _ => h.2.symm.trans hb) fun hb => ?_
  refine suppressTransitionError_rule
    (A := fun s => Ticking cfg s ∧ Tidy (.failing (x :: rest)) s)
    (φ := fun s => ∀ q, s.db.run? x.id = some q → q.state ≠ .running)
    (.pre (transitionRun_rule (by decide) (hfirm.and (dead_firm .process x.id)) ?_ ?_ ?_)
      fun s _ h => ⟨h.1, h.2.symm.trans (Bool.eq_false_iff.mpr hb)⟩)
    (fun s _ h hno => hdone s h fun q hq hs => absurd hs (hno q hq)) fun _ _ _ => trivial
  · rintro s _ ⟨_, hdead⟩ q hq hstate
    exact .orphaned rfl ((Db.mem_of_run? hq).2 ▸ hdead) hstate rfl
  · rintro s db q hinv ⟨⟨htick, htidy⟩, _⟩ hid hstate step
    refine ⟨hframe.db db htick, (htidy.runFailed hinv.db.ids step rfl fun _ => trivial).weaken
      (fun _ hl _ => .inr hl) (fun _ hl _ => .inr hl) (fun i _ hl _ _ => ?_)
      (fun _ _ hl _ _ _ _ => hl) fun _ hl _ _ => hl⟩
    rcases List.mem_cons.mp hl.1 with heq | hmem
    · exact absurd (heq.trans hid.symm) hl.2
    · exact .inr hmem
  · exact fun s e _ h he => ⟨h.1, he⟩

/-- `_sweep_orphaned_inprocess_states`. -/
theorem sweepOrphanedInprocessStates_rule :
    Verified T .main (Ticking cfg) sweepOrphanedInprocessStates
      (fun _ s => Ticking cfg s ∧ Tidy (.failing []) s) (fun _ _ => True) := by
  have hframe : Frame T .main (Ticking cfg) := ticking_frame
  refine .bind ((query_rule (.listObservations [.observing]) (·.listObservations [.observing])
    (fun _ => rfl) (fun _ => trivial) hframe.firm).exc fun _ _ _ _ => trivial) fun observing => ?_
  refine .bind (Q := fun _ s => Ticking cfg s ∧ Tidy (.sweeping []) s) ?_ fun _ => ?_
  · have hloop : Verified T .main
        (fun s => Listing observing ∧ Ticking cfg s ∧ Tidy (.sweeping observing) s ∧
          StillIn .observing observing s) (Prog.forEach observing sweepObservation)
        (fun _ s => Listing [] ∧ Ticking cfg s ∧ Tidy (.sweeping []) s ∧ StillIn .observing [] s)
        (fun _ _ => True) :=
      Logic.Triple.forEach (fun rest s => Listing rest ∧ Ticking cfg s ∧ Tidy (.sweeping rest) s ∧
        StillIn .observing rest s) fun x rest => .assume fun hlist =>
          (sweepObservation_rule hlist.tail.2.1 hlist.tail.1).post
            fun _ _ _ h => ⟨hlist.tail.2.2, h⟩
    refine (hloop.pre ?_).post fun _ _ _ h => ⟨h.2.1, h.2.2.1⟩
    rintro s hinv ⟨h, hrows⟩
    obtain ⟨hnodup, hall⟩ := listObservations_spec hinv hrows
    refine ⟨⟨hnodup, fun o ho => (hall o ho).2.1⟩, h, ?_, fun o ho =>
      ⟨o, (hall o ho).1, by simpa using (hall o ho).2.2 (by simp)⟩⟩
    refine (Tidy.start s).weaken (fun i _ hi => .inr ?_) (fun _ hl _ => .inr hl)
      (fun _ _ hl _ _ => .inr hl) (fun _ _ hl _ _ _ _ => hl) fun _ hl _ _ => hl
    obtain ⟨o, ho, hs⟩ := hi
    obtain ⟨hmem, rfl⟩ := Db.mem_of_obs? ho
    refine List.mem_map_of_mem ?_
    rw [hrows]
    simp [Db.listObservations, hmem, hs]
  · refine .bind ((query_rule (.listRuns [.running]) (·.listRuns [.running]) (fun _ => rfl)
      (fun _ => trivial) (hframe.firm.and (tidy_firm _))).exc fun _ _ _ _ => trivial) fun running =>
        .pre (Logic.Triple.forEach (fun rest s => Ticking cfg s ∧ Tidy (.failing rest) s)
          sweepRun_rule) ?_
    rintro s hinv ⟨⟨htick, htidy⟩, hrows⟩
    refine ⟨htick, htidy.weaken (fun i hl _ => absurd hl (by simp [Left.sweeping]))
      (fun _ hl _ => .inr hl) (fun i q _ hq hs => .inr ?_) (fun _ _ hl _ _ _ _ => hl)
      fun _ hl _ _ => hl⟩
    obtain ⟨hmem, rfl⟩ := Db.mem_of_run? hq
    refine List.mem_map_of_mem ?_
    rw [hrows]
    simp [Db.listRuns, hmem, hs]

end Sweep

section Retry

/-- The runs that a retry has still to look at. -/
def Left.retrying (rest : List (ProcessingRun × Nat)) : Left where
  observing _ := False
  running _ := False
  failed i := i ∈ rest.map (·.1.id)

/-- The products of the candidates have not reached QA, and those that are still
failed may be executed again. -/
def Retriable (m : Nat) (rest : List (ProcessingRun × Nat)) (s : Shared) : Prop :=
  ∀ c ∈ rest, Unreviewed s c.1 ∧ ∀ q, s.db.run? c.1.id = some q → q.state = .failed →
    s.db.InState q.observationId .stored ∧ q.retryExhausted = false ∧
      s.db.runExecutionAttempts q.id < m

/-- A failed run is not superseded, so no verdict of another run has released the
observation meanwhile. -/
theorem retriable_firm (m : Nat) (rest : List (ProcessingRun × Nat)) :
    Firm T .main (Retriable m rest) := by
  intro s s' hon hq hinv hinv' h c hc
  have hquiet := (hq (by simp)).db
  have hunseen : AllUnreviewed [c.1] s := by simpa [AllUnreviewed] using (h c hc).1
  refine ⟨allUnreviewed_firm [c.1] s s' hon hq hinv hinv' hunseen c.1 (by simp), fun q hq' hs => ?_⟩
  have hold := hquiet.run_back hq' (by simp [hs]) (by simp [RunState.Decided, hs])
  obtain ⟨⟨o, ho, hstored⟩, hmark, hbudget⟩ := (h c hc).2 q hold hs
  refine ⟨?_, hmark, by rw [hquiet.attempts]; exact hbudget⟩
  rcases hquiet.steady _ o ho with hsame | ⟨_, o', ho', _, hrel⟩
  · exact ⟨o, hsame, hstored⟩
  · obtain ⟨r, hr, hverdict⟩ := hrel hstored
    have hmem := Db.Lawful.mem_runsOf_of_run? hq'
    have heq : r = q := (hinv'.db.chain _).unique hr hmem
      (by rcases hverdict with hv | hv <;> simp [hv]) (by simp [hs])
    rcases hverdict with hv | hv <;> simp [heq, hs] at hv

theorem retriable_blind (m : Nat) (rest : List (ProcessingRun × Nat)) :
    Blind (Retriable m rest) :=
  fun _ _ _ _ h c hc => ⟨⟨(h c hc).1.row, (h c hc).1.unseen⟩, (h c hc).2⟩

theorem Retriable.marked {m : Nat} {rest : List (ProcessingRun × Nat)} {s : Shared} {db' : Db}
    {hit : ProcessingRun → Bool} (h : Retriable m rest s) (step : Db.Marked s.db db' hit)
    (hother : ∀ c ∈ rest, ∀ q : ProcessingRun, q.id = c.1.id → hit q = false) :
    Retriable m rest { s with db := db' } := by
  intro c hc
  have hunseen : AllUnreviewed [c.1] s := by simpa [AllUnreviewed] using (h c hc).1
  refine ⟨hunseen.evolve (.marked step) (fun rid hr => (step.reachedQa rid).trans hr) c.1 (by simp),
    fun q hq hs => ?_⟩
  change db'.run? _ = some q at hq
  rw [step.run?, Option.map_eq_some_iff] at hq
  obtain ⟨r, hr, rfl⟩ := hq
  rw [Db.mark, if_neg (by simp [hother c hc r (Db.mem_of_run? hr).2])] at hs ⊢
  obtain ⟨⟨o, ho, hstored⟩, hmark, hbudget⟩ := (h c hc).2 r hr hs
  exact ⟨⟨o, (step.obs? _).trans ho, hstored⟩, hmark, by
    change db'.runExecutionAttempts r.id < m
    rw [step.attempts]
    exact hbudget⟩

theorem Retriable.queued {m : Nat} {rest : List (ProcessingRun × Nat)} {s : Shared} {db' : Db}
    {q q' : ProcessingRun} (h : Retriable m rest s) (ids : s.db.Ids)
    (step : Db.RunStep s.db db' q q') (hfailed : q.state = .failed) (hqueued : q'.state = .queued) :
    Retriable m rest { s with db := db' } := by
  intro c hc
  have hunseen : AllUnreviewed [c.1] s := by simpa [AllUnreviewed] using (h c hc).1
  refine ⟨hunseen.runStep ids step (by simp [hfailed, RunState.Releasing]) (by simp [hqueued]) c.1
    (by simp), fun y hy hs => ?_⟩
  change db'.run? _ = some y at hy
  rw [step.run?] at hy
  split at hy
  · cases hy
    simp [hqueued] at hs
  · obtain ⟨⟨o, ho, hstored⟩, hmark, hbudget⟩ := (h c hc).2 y hy hs
    exact ⟨⟨o, (step.obs? _).trans ho, hstored⟩, hmark, by
      change db'.runExecutionAttempts y.id < m
      rw [step.attempts (by simp [hfailed])]
      exact hbudget⟩

/-- The executions of every unmarked failed run are below the budget. -/
def Budgeted (m : Nat) (s : Shared) : Prop :=
  ∀ rid q, s.db.run? rid = some q → q.state = .failed → q.retryExhausted = false →
    s.db.runExecutionAttempts rid < m

theorem budgeted_firm (m : Nat) : Firm T .main (Budgeted m) := by
  intro s s' _ hq _ _ h rid q hq' hs hmark
  have hquiet := (hq (by simp)).db
  rw [hquiet.attempts]
  exact h rid q (hquiet.run_back hq' (by simp [hs]) (by simp [RunState.Decided, hs])) hs hmark

theorem budgeted_of_marked {s : Shared} {db' : Db} {m : Nat}
    (step : Db.Marked s.db db' (s.db.exhausts m)) : Budgeted m { s with db := db' } := by
  intro rid x hx hs hmark
  change db'.run? rid = some x at hx
  rw [step.run?, Option.map_eq_some_iff] at hx
  obtain ⟨q, hq, rfl⟩ := hx
  rw [Db.mark_state] at hs
  change db'.runExecutionAttempts rid < m
  rw [step.attempts]
  by_contra hspent
  have hhit : s.db.exhausts m q = true := by
    have hclean : q.retryExhausted = false := by
      cases hq' : q.retryExhausted with
      | false => rfl
      | true =>
        unfold Db.mark at hmark
        split at hmark <;> simp [hq'] at hmark
    simp [Db.exhausts, hs, hclean, (Db.mem_of_run? hq).2, Nat.le_of_not_lt hspent]
  simp [Db.mark, hhit] at hmark

/-- The rows that `list_retryable_failed_runs` gives. -/
theorem mem_listRetryableFailedRuns {s : Shared} (hinv : Inv T s) {m : Nat} {q : ProcessingRun}
    (hq : s.db.run? q.id = some q) (hs : q.state = .failed) (hmark : q.retryExhausted = false)
    (hobs : s.db.InState q.observationId .stored) (hbudget : Budgeted m s) :
    q.id ∈ (s.db.listRetryableFailedRuns m).map (·.1.id) := by
  obtain ⟨o, ho, hstored⟩ := hobs
  have hmem := Db.Lawful.mem_runsOf_of_run? hq
  have hothers : s.db.hasOtherActiveRuns q.observationId q.id = false := by
    refine List.any_eq_false.mpr fun r hr hother => ?_
    simp only [Bool.and_eq_true, bne_iff_ne, ne_eq] at hother
    obtain ⟨hne, hactive⟩ := hother
    have hopen : r.state ≠ .superseded := by
      intro hclosed
      simp [Db.isActive, activeRunStates, hclosed] at hactive
    exact hne (congrArg ProcessingRun.id ((hinv.db.chain _).unique hr hmem hopen (by simp [hs])))
  have hretry : s.db.isRetryable m q = true := by
    simp [Db.isRetryable, hs, hmark, ho, hstored, hothers, hbudget q.id q hq hs hmark]
  simp only [Db.listRetryableFailedRuns, List.map_map]
  exact List.mem_map.mpr ⟨q, List.mem_filter.mpr ⟨(Db.mem_of_run? hq).1, hretry⟩, rfl⟩

theorem retryRun_rule {x : ProcessingRun × Nat} {rest : List (ProcessingRun × Nat)}
    (hout : x.1.outputPrefix = outputDir x.1.observationId x.1.attempt ++ ["product"])
    (hne : x.1.id ∉ rest.map (·.1.id)) :
    Verified T .main (fun s => Ticking cfg s ∧ Tidy (.retrying (x :: rest)) s ∧
        Retriable cfg.maxProcessingAttempts (x :: rest) s)
      (retryRun cfg x)
      (fun _ s => Ticking cfg s ∧ Tidy (.retrying rest) s ∧
        Retriable cfg.maxProcessingAttempts rest s)
      (fun _ _ => True) := by
  have hframe : Frame T .main (Ticking cfg) := ticking_frame
  have hfirm := hframe.firm.and ((tidy_firm (.retrying (x :: rest))).and
    (retriable_firm (T := T) cfg.maxProcessingAttempts (x :: rest)))
  have hblind := hframe.blind.and ((tidy_blind (.retrying (x :: rest))).and
    (retriable_blind cfg.maxProcessingAttempts (x :: rest)))
  have htail : ∀ s, Retriable cfg.maxProcessingAttempts (x :: rest) s →
      Retriable cfg.maxProcessingAttempts rest s := fun s h c hc => h c (by simp [hc])
  have hdone : ∀ s, Tidy (.retrying (x :: rest)) s → (∀ q, s.db.run? x.1.id = some q →
      q.state = .failed → q.retryExhausted = true) → Tidy (.retrying rest) s := by
    intro s htidy hx
    refine htidy.weaken (fun _ hl _ => .inr hl) (fun _ hl _ => .inr hl)
      (fun _ _ hl _ _ => .inr hl) (fun i q hl hq hs hmark _ => ?_) fun _ hl _ _ => hl
    rcases List.mem_cons.mp hl with rfl | hl
    · simp [hx q hq hs] at hmark
    · exact hl
  refine .bind (Q := fun b s => if b then Ticking cfg s ∧ Tidy (.retrying (x :: rest)) s ∧
      Retriable cfg.maxProcessingAttempts (x :: rest) s
    else Ticking cfg s ∧ Tidy (.retrying rest) s ∧ Retriable cfg.maxProcessingAttempts rest s)
    (.catchAll (.bind (removeIfExists_rule hfirm hblind.sturdy fun _ _ h => ?_) fun _ =>
      .pure fun _ _ h => h) fun e => .bind (Q := fun _ s => Ticking cfg s ∧
        Tidy (.retrying rest) s ∧ Retriable cfg.maxProcessingAttempts rest s) ?_
        fun _ => .pure fun _ _ h => by simpa using h)
    fun b => ?_
  · exact .product x.1 (by simp) (by simp [hout, parent]) (h.2.2 x (by simp)).1
  · refine change_rule _ hfirm (fun _ _ _ => rfl) ?_ fun _ _ _ _ _ => trivial
    rintro s a db _ ⟨htick, htidy, hretry⟩ hrun _
    cases hrun
    have step : Db.Marked s.db _ _ := Db.markRunRetryExhausted_marked x.1.id
      ("automatic retry blocked by product cleanup failure: " ++ e.repr)
    refine ⟨hframe.db _ htick, hdone _ ((htidy.marked step).weaken (fun _ hl _ => .inr hl)
      (fun _ hl _ => .inr hl) (fun _ _ hl _ _ => .inr hl) (fun _ _ hl _ _ _ _ => hl.1)
      fun _ hl _ _ => hl) fun q hq hs => ?_, (htail s hretry).marked step fun c hc q hq => ?_⟩
    · change (s.db.markRunRetryExhausted _ _).run? _ = some q at hq
      rw [step.run?, Option.map_eq_some_iff] at hq
      obtain ⟨r, hr, rfl⟩ := hq
      rw [Db.mark_state] at hs
      cases hmark : r.retryExhausted with
      | true => simp [Db.mark, Db.marksOne, hmark]
      | false =>
        simp [Db.mark, Db.marksOne, Db.runGuard, (Db.mem_of_run? hr).2, hs, hmark]
    · have hother : q.id ≠ x.1.id := fun heq =>
        hne (heq ▸ hq ▸ List.mem_map_of_mem (f := fun c : ProcessingRun × Nat => c.1.id) hc)
      simp [Db.marksOne, Db.runGuard, hother]
  · refine .ite (fun hb => ?_) fun hb => .pure fun s _ h => by simpa [hb] using h
    subst hb
    refine suppressTransitionError_rule
      (A := fun s => Ticking cfg s ∧ Tidy (.retrying (x :: rest)) s ∧
        Retriable cfg.maxProcessingAttempts (x :: rest) s)
      (φ := fun s => ∀ q, s.db.run? x.1.id = some q → q.state ≠ .failed)
      (transitionRun_rule (by decide) hfirm ?_ ?_ fun _ _ _ h he => ⟨h, he⟩)
      (fun s _ h hno => ⟨h.1, hdone s h.2.1 fun q hq hs => absurd hs (hno q hq),
        htail s h.2.2⟩) fun _ _ _ => trivial
    · rintro s _ ⟨htick, _, hretry⟩ q hq hs
      obtain ⟨hstored, hmark, hbudget⟩ := (hretry x (by simp)).2 q hq hs
      exact .retry rfl hstored hs rfl hmark (by rw [htick.2.1]; exact hbudget)
    · rintro s db q hinv ⟨htick, htidy, hretry⟩ hid hstate step
      refine ⟨hframe.db db htick, (htidy.runQueued hinv.db.ids step rfl).weaken
        (fun _ hl _ => .inr hl) (fun _ hl _ => .inr hl) (fun _ _ hl _ _ => .inr hl)
        (fun i _ hl _ _ _ _ => ?_) fun _ hl _ _ => hl,
        (htail s hretry).queued hinv.db.ids step hstate rfl⟩
      rcases List.mem_cons.mp hl.1 with heq | hmem
      · exact absurd (heq.trans hid.symm) hl.2
      · exact hmem

theorem retriable_of_listed {s : Shared} (hinv : Inv T s) (m : Nat) :
    ((s.db.listRetryableFailedRuns m).map (·.1.id)).Nodup ∧
      (∀ c ∈ s.db.listRetryableFailedRuns m, s.db.run? c.1.id = some c.1) ∧
      Retriable m (s.db.listRetryableFailedRuns m) s := by
  have hrow : ∀ c ∈ s.db.listRetryableFailedRuns m,
      s.db.run? c.1.id = some c.1 ∧ s.db.isRetryable m c.1 = true := by
    intro c hc
    obtain ⟨q, hq, rfl⟩ := List.mem_map.mp hc
    obtain ⟨hmem, hretry⟩ := List.mem_filter.mp hq
    exact ⟨hinv.db.ids.run? hmem, hretry⟩
  refine ⟨?_, fun c hc => (hrow c hc).1, fun c hc => ?_⟩
  · rw [Db.listRetryableFailedRuns, List.map_map]
    exact hinv.db.ids.runNodup.sublist (List.filter_sublist.map _)
  · obtain ⟨hrun, hretry⟩ := hrow c hc
    simp only [Db.isRetryable, Bool.and_eq_true, beq_iff_eq, Bool.not_eq_true',
      decide_eq_true_eq] at hretry
    obtain ⟨⟨⟨⟨hstate, hmark⟩, hobs⟩, _⟩, hbudget⟩ := hretry
    refine ⟨unreviewed_of_state hinv hrun
      (by simp [hstate, RunState.Delivered, RunState.Decided]), fun q hq _ => ?_⟩
    rw [hrun] at hq
    cases hq
    refine ⟨?_, hmark, hbudget⟩
    split at hobs
    · exact ⟨_, ‹_›, by simpa using hobs⟩
    · cases hobs

/-- `_retry_failed_runs`. -/
theorem retryFailedRuns_rule :
    Verified T .main (fun s => Ticking cfg s ∧ Tidy (.failing []) s) (retryFailedRuns cfg)
      (fun _ s => Ticking cfg s ∧ Tidy (.retrying []) s) (fun _ _ => True) := by
  have hframe : Frame T .main (Ticking cfg) := ticking_frame
  have hfirm := hframe.firm.and (tidy_firm (T := T) (.failing []))
  refine .bind (Q := fun _ s => (Ticking cfg s ∧ Tidy (.failing []) s) ∧
    Budgeted cfg.maxProcessingAttempts s) (change_rule _ hfirm (fun _ _ _ => rfl) ?_
      fun _ _ _ _ _ => trivial) fun _ => ?_
  · rintro s a db _ ⟨htick, htidy⟩ hrun _
    cases hrun
    have step : Db.Marked s.db _ _ :=
      Db.markExhaustedFailedRuns_marked cfg.maxProcessingAttempts
    exact ⟨⟨hframe.db _ htick, (htidy.marked step).weaken (fun _ hl _ => .inr hl)
      (fun _ hl _ => .inr hl) (fun _ _ hl _ _ => .inr hl) (fun _ _ hl _ _ _ _ => hl.1)
      fun _ hl _ _ => hl⟩, budgeted_of_marked step⟩
  refine .bind ((query_rule (.listRetryableFailedRuns cfg.maxProcessingAttempts)
    (·.listRetryableFailedRuns cfg.maxProcessingAttempts) (fun _ => rfl) (fun _ => trivial)
    (hfirm.and (budgeted_firm _))).exc fun _ _ _ _ => trivial) fun candidates => ?_
  have hloop : Verified T .main
      (fun s => ((candidates.map (·.1.id)).Nodup ∧ ∀ c ∈ candidates,
        c.1.outputPrefix = outputDir c.1.observationId c.1.attempt ++ ["product"]) ∧
        Ticking cfg s ∧ Tidy (.retrying candidates) s ∧
        Retriable cfg.maxProcessingAttempts candidates s)
      (Prog.forEach candidates (retryRun cfg)) (fun _ s => Ticking cfg s ∧ Tidy (.retrying []) s)
      (fun _ _ => True) := by
    refine (Logic.Triple.forEach (fun rest s => ((rest.map (·.1.id)).Nodup ∧ ∀ c ∈ rest,
      c.1.outputPrefix = outputDir c.1.observationId c.1.attempt ++ ["product"]) ∧
      Ticking cfg s ∧ Tidy (.retrying rest) s ∧ Retriable cfg.maxProcessingAttempts rest s)
      fun x rest => .assume fun hrows => ?_).post fun _ s _ h => And.intro h.2.1 h.2.2.1
    obtain ⟨hnodup, hout⟩ := hrows
    rw [List.map_cons, List.nodup_cons] at hnodup
    exact (retryRun_rule (hout x (by simp)) hnodup.1).post fun _ _ _ h =>
      ⟨⟨hnodup.2, fun c hc => hout c (by simp [hc])⟩, h⟩
  refine hloop.pre ?_
  rintro s hinv ⟨⟨⟨htick, htidy⟩, hbudget⟩, rfl⟩
  obtain ⟨hnodup, hrows, hretriable⟩ := retriable_of_listed hinv cfg.maxProcessingAttempts
  refine ⟨⟨hnodup, fun c hc => hinv.db.outputPrefix _ _ (hrows c hc)⟩, htick, htidy.weaken
    (fun _ hl _ => .inr hl) (fun _ hl _ => .inr hl)
    (fun _ _ hl _ _ => absurd hl (by simp [Left.failing])) (fun i q _ hq hs hmark hobs => ?_)
    fun _ hl _ _ => hl, hretriable⟩
  obtain rfl := (Db.mem_of_run? hq).2
  exact mem_listRetryableFailedRuns hinv hq hs hmark hobs hbudget

end Retry

section Resume

/-- The planned rows that still have to get their worker. -/
def Left.resuming (ids : List Nat) : Left where
  observing _ := False
  running _ := False
  failed _ := False
  planned i := i ∈ ids

theorem trackObserve_rule {oid : Nat} {Q : Unit → Shared → Prop} {E : Exn → Shared → Prop}
    (hfirm : Firm T .main P)
    (hmay : ∀ s, Inv T s → P s → s.ctl.up = true ∧ s.ctl.live .observe oid = false ∧
      s.db.InState oid .planned ∧ NoOrphan s)
    (hok : ∀ s, Inv T s → P s → Q () { s with ctl := s.ctl.track .observe oid }) :
    Verified T .main P (call (.trackObserve oid)) Q E := by
  refine Logic.Triple.call (hfirm.stable rfl) fun s c hinv h _ =>
    ⟨⟨rfl, hmay s hinv h⟩, fun x s' hx _ => ?_⟩
  cases c <;> cases hx
  exact hok s hinv h

/-- A `PLANNED` row whose worker never started. -/
theorem resumePlanned_rule (x : Observation) (rest : List Observation) :
    Verified T .main (fun s => Ticking cfg s ∧
        Tidy (.resuming ((x :: rest).map Observation.id)) s ∧ StillIn .planned (x :: rest) s)
      (resumePlanned x)
      (fun _ s => Ticking cfg s ∧ Tidy (.resuming (rest.map Observation.id)) s ∧
        StillIn .planned rest s) (fun _ _ => True) := by
  have hfirm := (show Frame T .main (Ticking cfg) from ticking_frame).firm.and
    ((tidy_firm (.resuming ((x :: rest).map Observation.id))).and
      (planned_firm (T := T) (x :: rest)))
  have hdone : ∀ s, Tidy (.resuming ((x :: rest).map Observation.id)) s →
      s.ctl.live .observe x.id = true → Tidy (.resuming (rest.map Observation.id)) s := by
    intro s htidy hlive
    refine htidy.weaken (fun _ hl _ => .inr hl) (fun i hl _ => ?_) (fun _ _ hl _ _ => .inr hl)
      (fun _ _ hl _ _ _ _ => hl) fun _ hl _ _ => hl
    rcases List.mem_cons.mp hl with rfl | hl
    · exact .inl hlive
    · exact .inr hl
  refine .bind (obsTaskLive_rule x.id hfirm) fun b => .ite (fun hb => .pure fun s _ h =>
    ⟨h.1.1, hdone s h.1.2.1 (h.2.symm.trans hb), fun o ho => h.1.2.2 o (by simp [ho])⟩) fun hb => ?_
  refine .pre (trackObserve_rule (hfirm.and (dead_firm .observe x.id)) ?_ ?_) fun s _ h =>
    ⟨h.1, h.2.symm.trans (Bool.eq_false_iff.mpr hb)⟩
  · rintro s _ ⟨⟨htick, _, hstill⟩, hdead⟩
    exact ⟨htick.1, hdead, hstill x (by simp), htick.2.2⟩
  · rintro s _ ⟨⟨htick, htidy, hstill⟩, _⟩
    exact ⟨htick, hdone _ (htidy.tracked .observe x.id) (Ctl.live_track_self _ _ _),
      fun o ho => hstill o (by simp [ho])⟩

theorem resumeAll_rule : Verified T .main (fun s => Ticking cfg s ∧ Tidy (.retrying []) s)
    (do
      let planned ← store (.listObservations [.planned])
      Prog.forEach planned resumePlanned)
    (fun _ s => Ticking cfg s ∧ Tidy (.resuming []) s) (fun _ _ => True) := by
  have hfirm := (show Frame T .main (Ticking cfg) from ticking_frame).firm.and
    (tidy_firm (T := T) (.retrying []))
  refine .bind ((query_rule (.listObservations [.planned]) (·.listObservations [.planned])
    (fun _ => rfl) (fun _ => trivial) hfirm).exc fun _ _ _ _ => trivial) fun planned => ?_
  refine ((Logic.Triple.forEach (fun rest s => Ticking cfg s ∧
    Tidy (.resuming (rest.map Observation.id)) s ∧ StillIn .planned rest s)
    resumePlanned_rule).pre ?_).post fun _ _ _ h => ⟨h.1, h.2.1⟩
  rintro s hinv ⟨⟨htick, htidy⟩, hrows⟩
  obtain ⟨_, hall⟩ := listObservations_spec hinv hrows
  refine ⟨htick, htidy.weaken (fun _ hl _ => .inr hl) (fun i _ hi => .inr ?_)
    (fun _ _ hl _ _ => .inr hl) (fun _ _ hl _ _ _ _ => absurd hl (by simp [Left.retrying]))
    fun _ hl _ _ => hl, fun o ho => ⟨o, (hall o ho).1, by simpa using (hall o ho).2.2 (by simp)⟩⟩
  obtain ⟨o, ho, hs⟩ := hi
  obtain ⟨hmem, rfl⟩ := Db.mem_of_obs? ho
  refine List.mem_map_of_mem ?_
  rw [hrows]
  simp [Db.listObservations, hmem, hs]

end Resume

section Admit

theorem TasksOk.dead_of_fresh {s : Shared} (h : TasksOk s) {oid : Nat}
    (hnone : s.db.obs? oid = none) : s.ctl.live .observe oid = false := by
  cases hlive : s.ctl.live .observe oid with
  | false => rfl
  | true =>
    obtain ⟨t, ht, _⟩ := Ctl.live_iff.mp hlive
    obtain ⟨hmem, hkind, rfl⟩ := Ctl.mem_of_latest ht
    have hrow := h.rows t hmem hkind
    simp [hnone] at hrow

theorem campaignHasCapacity_rule (cfg : Config) (hfirm : Firm T .main P) :
    Verified T .main P (campaignHasCapacity cfg) (fun b s => P s ∧ (b = true → Capacity cfg s))
      (fun _ _ => True) := by
  unfold campaignHasCapacity Capacity
  cases cfg.maxObservations with
  | none => exact .pure fun _ _ h => ⟨h, by simp⟩
  | some n =>
    refine .bind ((query_rule .countObservations (·.countObservations) (fun _ => rfl)
      (fun _ => trivial) hfirm).exc fun _ _ _ _ => trivial) fun _ => .pure fun s _ h => ?_
    refine ⟨h.1, fun hb m hm => ?_⟩
    have hcount := of_decide_eq_true hb
    rw [h.2] at hcount
    cases hm
    exact hcount

theorem admitObservation_rule :
    Verified T .main (fun s => Ticking cfg s ∧ Tidy (.resuming []) s) (admitObservation cfg)
      (fun _ s => Ticking cfg s ∧ Tidy (.resuming []) s) (fun _ _ => True) := by
  have hframe : Frame T .main (Ticking cfg) := ticking_frame
  have hfirm := hframe.firm.and (tidy_firm (T := T) (.resuming []))
  refine .bind ((query_rule (.listObservations [.observing, .planned])
    (·.listObservations [.observing, .planned]) (fun _ => rfl) (fun _ => trivial) hfirm).exc
    fun _ _ _ _ => trivial) fun active => .ite (fun hempty => ?_) fun _ => .pure fun _ _ h => h.1
  have hnone := hfirm.and (noActive_firm (T := T))
  have hblind : Blind fun s => (Ticking cfg s ∧ Tidy (.resuming []) s) ∧ NoActive s :=
    (hframe.blind.and (tidy_blind _)).and fun _ _ _ _ h => h
  have hlimited := hnone.and (capacity_firm (T := T) cfg)
  refine .bind ((campaignHasCapacity_rule cfg hnone).pre ?_) fun b => .ite (fun hroom => ?_)
    fun _ => .pure fun _ _ h => h.1.1
  · rintro s _ ⟨h, hrows⟩
    refine ⟨h, fun oid o ho hactive => ?_⟩
    have hmem : o ∈ s.db.listObservations [.observing, .planned] := by
      rcases hactive with hs | hs <;> simp [Db.listObservations, (Db.mem_of_obs? ho).1, hs]
    rw [← hrows, List.isEmpty_iff.mp hempty] at hmem
    cases hmem
  refine .bind ((canAdmit_rule cfg hlimited (hblind.and fun _ _ _ _ h => h)).pre
    fun _ _ h => ⟨h.1, h.2 hroom⟩) fun b => .ite (fun hb => ?_) fun _ => .pure fun _ _ h => h.1.1.1
  refine .bind (Q := fun oid s => Ticking cfg s ∧ Tidy (.resuming [oid]) s ∧
    s.ctl.live .observe oid = false ∧ s.db.InState oid .planned) (.pre (change_rule _
      (hlimited.and (room_firm cfg)) ?_ ?_ fun _ _ _ _ _ => trivial) fun s _ h => ⟨h.1, h.2 hb⟩)
    fun oid => ?_
  · rintro s hinv ⟨⟨⟨⟨htick, _⟩, hactive⟩, hcapacity⟩, hroom⟩
    exact hroom.admits hinv hactive hcapacity htick.2.1
  · rintro s oid db hinv ⟨⟨⟨⟨htick, htidy⟩, _⟩, _⟩, _⟩ hrun _
    cases hrun
    have step := Db.createObservationAuto_added hinv.db.ids cfg.observationReservation
    have hfresh : s.db.obs? (s.db.obsSeq + 1) = none :=
      Keyed.find_eq_none_iff.mpr (step.fresh hinv.db.ids)
    refine ⟨hframe.db _ htick, (htidy.admitted hinv.db.ids step rfl).weaken
      (fun _ hl _ => .inr hl) (fun i hl _ => .inr ?_) (fun _ _ hl _ _ => .inr hl)
      (fun _ _ hl _ _ _ _ => hl) fun _ hl _ _ => hl, hinv.tasks.dead_of_fresh hfresh, ?_⟩
    · simpa [Left.resuming] using hl
    · exact ⟨_, (step.obs? hinv.db.ids _).trans (if_pos rfl), rfl⟩
  · have hplanned : Firm T .main fun s => s.db.InState oid .planned := fun _ _ _ hq _ _ h =>
      (hq (by simp)).inState (by decide) (by simp [ObservationState.Closing]) h
    refine trackObserve_rule (hframe.firm.and ((tidy_firm (.resuming [oid])).and
      ((dead_firm .observe oid).and hplanned))) ?_ ?_
    · rintro s _ ⟨htick, _, hdead, hrow⟩
      exact ⟨htick.1, hdead, hrow, htick.2.2⟩
    · rintro s _ ⟨htick, htidy, _⟩
      refine ⟨htick, (htidy.tracked .observe oid).weaken (fun _ hl _ => .inr hl) (fun i hl _ => ?_)
        (fun _ _ hl _ _ => .inr hl) (fun _ _ hl _ _ _ _ => hl) fun _ hl _ _ => hl⟩
      obtain rfl : i = oid := by simpa [Left.resuming] using hl
      exact .inl (Ctl.live_track_self _ _ _)

end Admit

section Create

/-- The stored rows that still have to get a run. -/
def Left.creating (rest : List Observation) : Left :=
  { Left.none with bare := fun i => i ∈ rest.map Observation.id }

/-- The listed rows are stored and have no run. -/
def Bare (rest : List Observation) (s : Shared) : Prop :=
  ∀ o ∈ rest, s.db.InState o.id .stored ∧ s.db.runsOf o.id = []

theorem bare_firm (rest : List Observation) : Firm T .main (Bare rest) := by
  intro s s' _ hq _ _ h o ho
  have hquiet := (hq (by simp)).db
  obtain ⟨⟨x, hx, hs⟩, hnil⟩ := h o ho
  have hnil' := hquiet.noRuns o.id hnil
  rcases hquiet.steady o.id x hx with hsame | ⟨_, _, _, _, hrel⟩
  · exact ⟨⟨x, hsame, hs⟩, hnil'⟩
  · obtain ⟨r, hr, _⟩ := hrel hs
    simp [hnil'] at hr

/-- `_create_initial_run`. -/
theorem createInitialRun_rule {x : Observation} {rest : List Observation}
    (hne : x.id ∉ rest.map Observation.id) :
    Verified T .main
      (fun s => Ticking cfg s ∧ Tidy (.creating (x :: rest)) s ∧ Bare (x :: rest) s)
      (createInitialRun x.id)
      (fun _ s => Ticking cfg s ∧ Tidy (.creating rest) s ∧ Bare rest s) (fun _ _ => True) := by
  have hframe : Frame T .main (Ticking cfg) := ticking_frame
  have hfirm := hframe.firm.and ((tidy_firm (.creating (x :: rest))).and
    (bare_firm (T := T) (x :: rest)))
  refine .bind (Q := fun _ s => Ticking cfg s ∧ Tidy (.creating rest) s ∧ Bare rest s)
    (change_rule _ hfirm ?_ ?_ fun _ _ _ _ _ => trivial) fun _ => .pure fun _ _ h => h
  · rintro s _ ⟨_, _, hbare⟩
    exact ⟨rfl, (hbare x (by simp)).1, (hbare x (by simp)).2, rfl⟩
  · rintro s rid db hinv ⟨htick, htidy, hbare⟩ hrun _
    have step := Db.insertRun_ok (show s.db.insertRun x.id _ _ _ _ = .ok (rid, db) from hrun)
    refine ⟨hframe.db db htick, (htidy.created hinv.db.ids step).weaken (fun _ hl _ => .inr hl)
      (fun _ hl _ => .inr hl) (fun _ _ hl _ _ => .inr hl) (fun _ _ hl _ _ _ _ => hl)
      fun i hl _ _ => ?_, fun o ho => ?_⟩
    · exact (List.mem_cons.mp hl.1).resolve_left hl.2
    · obtain ⟨⟨y, hy, hs⟩, hnil⟩ := hbare o (by simp [ho])
      refine ⟨⟨y, (step.obs? _).trans hy, hs⟩, ?_⟩
      have hother : x.id ≠ o.id := fun heq => hne (heq ▸ List.mem_map_of_mem ho)
      change db.runsOf o.id = []
      rw [step.runsOf, hnil, if_neg hother]
      rfl

theorem createAll_rule : Verified T .main (fun s => Ticking cfg s ∧ Tidy (.resuming []) s)
    (do
      let missing ← store .listStoredObservationsWithoutRuns
      Prog.forEach missing fun obs => createInitialRun obs.id)
    (fun _ s => Ticking cfg s ∧ Tidy .none s) (fun _ _ => True) := by
  have hfirm := (show Frame T .main (Ticking cfg) from ticking_frame).firm.and
    (tidy_firm (T := T) (.resuming []))
  refine .bind ((query_rule .listStoredObservationsWithoutRuns
    (·.listStoredObservationsWithoutRuns) (fun _ => rfl) (fun _ => trivial) hfirm).exc
    fun _ _ _ _ => trivial) fun missing => ?_
  have hloop : Verified T .main
      (fun s => (missing.map Observation.id).Nodup ∧ Ticking cfg s ∧ Tidy (.creating missing) s ∧
        Bare missing s) (Prog.forEach missing fun obs => createInitialRun obs.id)
      (fun _ s => ([].map Observation.id).Nodup ∧ Ticking cfg s ∧ Tidy (.creating []) s ∧ Bare [] s)
      (fun _ _ => True) :=
    Logic.Triple.forEach (fun rest s => (rest.map Observation.id).Nodup ∧ Ticking cfg s ∧
      Tidy (.creating rest) s ∧ Bare rest s) fun x rest => .assume fun hnodup =>
        (createInitialRun_rule (List.nodup_cons.mp hnodup).1).post
          fun _ _ _ h => ⟨(List.nodup_cons.mp hnodup).2, h⟩
  refine (hloop.pre ?_).post fun _ _ _ h => ⟨h.2.1, h.2.2.1.weaken (fun _ hl _ => .inr hl)
    (fun _ hl _ => .inr hl) (fun _ _ hl _ _ => .inr hl) (fun _ _ hl _ _ _ _ => hl)
    fun _ hl _ _ => by simp [Left.creating] at hl⟩
  rintro s hinv ⟨⟨htick, htidy⟩, rfl⟩
  have hsub : s.db.listStoredObservationsWithoutRuns.Sublist s.db.observations :=
    List.filter_sublist
  refine ⟨hinv.db.ids.obsNodup.sublist (hsub.map _), htick, htidy.weaken (fun _ hl _ => .inr hl)
    (fun _ hl _ => absurd hl (by simp [Left.resuming])) (fun _ _ hl _ _ => .inr hl)
    (fun _ _ hl _ _ _ _ => hl) fun i _ hi hnil => ?_, fun o ho => ?_⟩
  · obtain ⟨o, ho, hs⟩ := hi
    obtain ⟨hmem, rfl⟩ := Db.mem_of_obs? ho
    exact List.mem_map_of_mem (List.mem_filter.mpr ⟨hmem, by simp [hs, hnil]⟩)
  · obtain ⟨hmem, hkeep⟩ := List.mem_filter.mp ho
    simp only [Bool.and_eq_true, beq_iff_eq, List.isEmpty_iff] at hkeep
    exact ⟨⟨o, hinv.db.ids.obs? hmem, hkeep.1⟩, hkeep.2⟩

end Create

section Spawn

/-- The runs that were scanned have a worker, up to those still to be visited. -/
def Spawned (scanned : List Nat) (rest : List ProcessingRun) (s : Shared) : Prop :=
  ∀ rid ∈ scanned, s.ctl.live .process rid = true ∨ rid ∈ rest.map ProcessingRun.id

theorem spawned_firm (scanned : List Nat) (rest : List ProcessingRun) :
    Firm T .main (Spawned scanned rest) := by
  intro s s' _ hq _ _ h
  have hctl := (hq (by simp)).ctl
  simpa only [Spawned, hctl] using h

theorem spawnRun_rule (scanned : List Nat) (x : ProcessingRun) (rest : List ProcessingRun) :
    Verified T .main (fun s => Ticking cfg s ∧ Tidy .none s ∧ Spawned scanned (x :: rest) s)
      (spawnRun x) (fun _ s => Ticking cfg s ∧ Tidy .none s ∧ Spawned scanned rest s)
      (fun _ _ => True) := by
  have hfirm := (show Frame T .main (Ticking cfg) from ticking_frame).firm.and
    ((tidy_firm .none).and (spawned_firm (T := T) scanned (x :: rest)))
  have hdone : ∀ s, Spawned scanned (x :: rest) s → s.ctl.live .process x.id = true →
      Spawned scanned rest s := by
    intro s h hlive rid hrid
    rcases h rid hrid with hl | hl
    · exact .inl hl
    · rcases List.mem_cons.mp hl with rfl | hl
      · exact .inl hlive
      · exact .inr hl
  refine .bind (runTaskLive_rule x.id hfirm) fun b => .ite (fun hb => .pure fun s _ h =>
    ⟨h.1.1, h.1.2.1, hdone s h.1.2.2 (h.2.symm.trans hb)⟩) fun hb => ?_
  refine .pre (Logic.Triple.call ((hfirm.and (dead_firm .process x.id)).stable rfl)
    fun s c _ h _ => ⟨⟨rfl, h.1.1.1, h.2⟩, fun y s' hy _ => ?_⟩) fun s _ h =>
      ⟨h.1, h.2.symm.trans (Bool.eq_false_iff.mpr hb)⟩
  cases c <;> cases hy
  obtain ⟨⟨htick, htidy, hspawned⟩, _⟩ := h
  refine ⟨htick, htidy.tracked .process x.id, hdone _ (fun rid hrid => ?_)
    (Ctl.live_track_self _ _ _)⟩
  exact (hspawned rid hrid).imp_left Ctl.live_track

theorem spawnAll_rule : Verified T .main (fun s => Ticking cfg s ∧ Tidy .none s)
    (do
      let queued ← store (.listRuns [.queued])
      Prog.forEach queued spawnRun
      call (.tickReturned (queued.map (·.id))))
    (fun _ => Ticking cfg) (fun _ _ => True) := by
  have hfirm := (show Frame T .main (Ticking cfg) from ticking_frame).firm.and
    (tidy_firm (T := T) .none)
  refine .bind ((query_rule (.listRuns [.queued]) (·.listRuns [.queued]) (fun _ => rfl)
    (fun _ => trivial) hfirm).exc fun _ _ _ _ => trivial) fun queued => ?_
  refine .bind ((Logic.Triple.forEach (fun rest s => Ticking cfg s ∧ Tidy .none s ∧
    Spawned (queued.map ProcessingRun.id) rest s) (spawnRun_rule _)).pre ?_) fun _ => ?_
  · exact fun s _ h => ⟨h.1.1, h.1.2, fun _ hrid => .inr hrid⟩
  · refine Logic.Triple.call ((ticking_frame.firm.and ((tidy_firm .none).and
      (spawned_firm (T := T) _ []))).stable rfl) fun s c hinv h _ => ⟨⟨rfl, ?_⟩,
      fun y s' hy _ => ?_⟩
    · exact h.2.1.settled hinv fun rid hrid => (h.2.2 rid hrid).resolve_right (by simp)
    · cases c <;> cases hy
      exact h.1

end Spawn

/-- `tick`. -/
theorem tick_rule : Verified T .main (Ticking cfg) (tick cfg) (fun _ => Ticking cfg)
    (fun _ _ => True) := by
  refine .bind sweepOrphanedInprocessStates_rule fun _ => .bind retryFailedRuns_rule fun _ => ?_
  exact .sequel resumeAll_rule fun _ => .bind admitObservation_rule fun _ =>
    .sequel createAll_rule fun _ => spawnAll_rule

theorem turn_rule : Verified T .main (pre .main (.tick cfg)) (Entry.tick cfg).code
    (fun next s => ∀ n, next = some n → pre .main n s) (fun _ _ => True) := by
  refine .bind tick_rule fun _ => .bind (pause_rule (.inr rfl) (by simp) ticking_patient)
    fun _ => .pure fun s _ h n hn => ?_
  cases hn
  exact h

end Sdpctl
