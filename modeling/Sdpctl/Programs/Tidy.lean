import Sdpctl.Programs.Admission

/-!
What a tick puts in order. `Tidy` says which rows have what they need, up to
those that the tick has still to visit; a phase of the tick shrinks one of these
sets and keeps the others.
-/

namespace Sdpctl

open FileTree Coop

variable {T : Terms} {s : Shared} {db' : Db}

/-- The rows that a tick has not put in order yet. -/
structure Left where
  observing : Nat → Prop := fun _ => True
  planned : Nat → Prop := fun _ => True
  running : Nat → Prop := fun _ => True
  failed : Nat → Prop := fun _ => True
  bare : Nat → Prop := fun _ => True

def Left.none : Left where
  observing _ := False
  planned _ := False
  running _ := False
  failed _ := False
  bare _ := False

/-- Every other row has what it needs: a task, a mark that calls the operator, or
a run. -/
structure Tidy (L : Left) (s : Shared) : Prop where
  observing : ∀ oid, s.db.InState oid .observing →
    s.ctl.live .observe oid = true ∨ L.observing oid
  planned : ∀ oid, s.db.InState oid .planned → s.ctl.live .observe oid = true ∨ L.planned oid
  running : ∀ rid q, s.db.run? rid = some q → q.state = .running →
    s.ctl.live .process rid = true ∨ L.running rid
  failed : ∀ rid q, s.db.run? rid = some q → q.state = .failed → q.retryExhausted = false →
    s.db.InState q.observationId .stored → L.failed rid
  bare : ∀ oid, s.db.InState oid .stored → s.db.runsOf oid = [] → L.bare oid

namespace Db.Quiet

variable {db db' : Db}

theorem inState_back (h : db.Quiet db') {oid : Nat} {state : ObservationState}
    (hdeleting : state ≠ .deleting) (hdeleted : state ≠ .deleted)
    (hstate : db'.InState oid state) : db.InState oid state := by
  obtain ⟨o', ho', rfl⟩ := hstate
  cases hrow : db.obs? oid with
  | none => simp [h.absent oid hrow] at ho'
  | some o =>
    rcases h.steady oid o hrow with hsame | ⟨_, x, hx, hs, _⟩
    · rw [hsame] at ho'
      exact ⟨o, hrow, congrArg Observation.state (Option.some.inj ho')⟩
    · rw [hx] at ho'
      cases ho'
      rcases hs with hs | hs
      · exact absurd hs hdeleting
      · exact absurd hs hdeleted

theorem run_back (h : db.Quiet db') {rid : Nat} {q : ProcessingRun}
    (hq : db'.run? rid = some q) (hqueued : q.state ≠ .queued) (hopen : ¬ q.state.Decided) :
    db.run? rid = some q := by
  cases hrow : db.run? rid with
  | none => exact absurd (h.newRuns rid q hrow hq) hqueued
  | some r =>
    rcases h.runs rid r hrow with hsame | ⟨_, x, hx, hdec⟩
    · rw [← hsame, hq]
    · rw [hx] at hq
      cases hq
      exact absurd hdec hopen

end Db.Quiet

theorem Db.Grows.noRuns_back {db db' : Db} (h : db.Grows db') (ids : db.Ids) {oid : Nat}
    (hnil : db'.runsOf oid = []) : db.runsOf oid = [] := by
  refine List.eq_nil_iff_forall_not_mem.mpr fun r hr => ?_
  obtain ⟨hmem, howner⟩ := Db.mem_runsOf.mp hr
  obtain ⟨r', hr', howner', _⟩ := h.runs r.id r (ids.run? hmem)
  have hmem' : r' ∈ db'.runsOf oid :=
    Db.mem_runsOf.mpr ⟨(Db.mem_of_run? hr').1, howner'.trans howner⟩
  simp [hnil] at hmem'

theorem tidy_firm (L : Left) : Firm T .main (Tidy L) := by
  intro s s' _ hq hinv _ h
  have hquiet := hq (by simp)
  have hdb := hquiet.db
  refine ⟨fun oid hobs => ?_, fun oid hobs => ?_, fun rid q hrun hs => ?_,
    fun rid q hrun hs hmark hobs => ?_, fun oid hobs hnil => ?_⟩
  · rw [hquiet.ctl]
    exact h.observing oid (hdb.inState_back (by decide) (by decide) hobs)
  · rw [hquiet.ctl]
    exact h.planned oid (hdb.inState_back (by decide) (by decide) hobs)
  · rw [hquiet.ctl]
    exact h.running rid q (hdb.run_back hrun (by simp [hs]) (by simp [RunState.Decided, hs])) hs
  · exact h.failed rid q (hdb.run_back hrun (by simp [hs]) (by simp [RunState.Decided, hs]))
      hs hmark
      (hdb.inState_back (by decide) (by decide) hobs)
  · exact h.bare oid (hdb.inState_back (by decide) (by decide) hobs)
      (hdb.grows.noRuns_back hinv.db.ids hnil)

theorem tidy_blind (L : Left) : Blind (Tidy L) :=
  fun _ _ _ _ h => ⟨h.observing, h.planned, h.running, h.failed, h.bare⟩

namespace Tidy

variable {L L' : Left}

theorem start (s : Shared) : Tidy {} s :=
  ⟨fun _ _ => .inr trivial, fun _ _ => .inr trivial, fun _ _ _ _ => .inr trivial,
    fun _ _ _ _ _ _ => trivial, fun _ _ _ => trivial⟩

theorem obsFailed (h : Tidy L s) {o o' : Observation} (step : Db.ObsStep s.db db' o o')
    (hstate : o'.state = .observeFailed) :
    Tidy { L with observing := fun i => L.observing i ∧ i ≠ o'.id } { s with db := db' } := by
  have hback : ∀ {i state}, state ≠ .observeFailed → db'.InState i state →
      s.db.InState i state ∧ i ≠ o'.id := by
    rintro i state hne ⟨x, hx, rfl⟩
    rw [step.obs?] at hx
    split at hx
    · cases hx
      exact absurd hstate hne
    · exact ⟨⟨x, hx, rfl⟩, ‹_›⟩
  refine ⟨fun i hobs => ?_, fun i hobs => ?_, fun rid q hrun => ?_,
    fun rid q hrun hs hmark hobs => ?_,
    fun i hobs hnil => ?_⟩
  · obtain ⟨hobs, hne⟩ := hback (by decide) hobs
    exact (h.observing i hobs).imp_right fun hl => ⟨hl, hne⟩
  · exact h.planned i (hback (by decide) hobs).1
  · rw [step.run?] at hrun
    exact h.running rid q hrun
  · rw [step.run?] at hrun
    exact h.failed rid q hrun hs hmark (hback (by decide) hobs).1
  · rw [step.runsOf] at hnil
    exact h.bare i (hback (by decide) hobs).1 hnil

/-- The rows of the observations stay, and the runs are the same ones. -/
theorem runsChange (h : Tidy L s) (hobs : ∀ i, db'.obs? i = s.db.obs? i)
    (hnil : ∀ i, db'.runsOf i = [] → s.db.runsOf i = [] ∧ (L.bare i → L'.bare i))
    (hobserving : L'.observing = L.observing) (hplanned : L'.planned = L.planned)
    (hrunning : ∀ rid q, db'.run? rid = some q → q.state = .running →
      s.ctl.live .process rid = true ∨ L'.running rid)
    (hfailed : ∀ rid q, db'.run? rid = some q → q.state = .failed → q.retryExhausted = false →
      s.db.InState q.observationId .stored → L'.failed rid) :
    Tidy L' { s with db := db' } := by
  have hback : ∀ {i state}, db'.InState i state → s.db.InState i state := by
    rintro i state ⟨x, hx, hs⟩
    exact ⟨x, (hobs i).symm.trans hx, hs⟩
  refine ⟨fun i hi => ?_, fun i hi => ?_, hrunning, fun rid q hrun hs hmark hi =>
    hfailed rid q hrun hs hmark (hback hi), fun i hi hempty => ?_⟩
  · rw [hobserving]
    exact h.observing i (hback hi)
  · rw [hplanned]
    exact h.planned i (hback hi)
  · exact (hnil i hempty).2 (h.bare i (hback hi) (hnil i hempty).1)

theorem runFailed (ids : s.db.Ids) (h : Tidy L s) {q q' : ProcessingRun}
    (step : Db.RunStep s.db db' q q') (hstate : q'.state = .failed) (hleft : ∀ i, L.failed i) :
    Tidy { L with running := fun i => L.running i ∧ i ≠ q'.id } { s with db := db' } := by
  refine h.runsChange step.obs? (fun i hnil => ⟨?_, fun hl => hl⟩) rfl rfl ?_ fun _ _ _ _ _ _ =>
    hleft _
  · rw [step.runsOf ids] at hnil
    exact List.map_eq_nil_iff.mp hnil
  · intro rid x hx hs
    rw [step.run?] at hx
    split at hx
    · cases hx
      simp [hstate] at hs
    · exact (h.running rid x hx hs).imp_right fun hl => ⟨hl, ‹_›⟩

theorem runQueued (ids : s.db.Ids) (h : Tidy L s) {q q' : ProcessingRun}
    (step : Db.RunStep s.db db' q q') (hstate : q'.state = .queued) :
    Tidy { L with failed := fun i => L.failed i ∧ i ≠ q'.id } { s with db := db' } := by
  refine h.runsChange step.obs? (fun i hnil => ⟨?_, fun hl => hl⟩) rfl rfl ?_ ?_
  · rw [step.runsOf ids] at hnil
    exact List.map_eq_nil_iff.mp hnil
  · intro rid x hx hs
    rw [step.run?] at hx
    split at hx
    · cases hx
      simp [hstate] at hs
    · exact h.running rid x hx hs
  · intro rid x hx hs hmark hobs
    rw [step.run?] at hx
    split at hx
    · cases hx
      simp [hstate] at hs
    · exact ⟨h.failed rid x hx hs hmark hobs, ‹_›⟩

theorem marked (h : Tidy L s) {hit : ProcessingRun → Bool} (step : Db.Marked s.db db' hit) :
    Tidy { L with failed := fun i => L.failed i ∧
      ∃ q, s.db.run? i = some q ∧ q.state = .failed ∧ q.retryExhausted = false ∧ hit q = false }
      { s with db := db' } := by
  have hback : ∀ rid x, db'.run? rid = some x →
      ∃ q, s.db.run? rid = some q ∧ x = Db.mark hit q := by
    intro rid x hx
    rw [step.run?, Option.map_eq_some_iff] at hx
    obtain ⟨q, hq, rfl⟩ := hx
    exact ⟨q, hq, rfl⟩
  refine h.runsChange step.obs? (fun i hnil => ⟨?_, fun hl => hl⟩) rfl rfl ?_ ?_
  · rw [step.runsOf] at hnil
    exact List.map_eq_nil_iff.mp hnil
  · intro rid x hx hs
    obtain ⟨q, hq, rfl⟩ := hback rid x hx
    exact h.running rid q hq ((Db.mark_state hit q).symm.trans hs)
  · intro rid x hx hs hmark hobs
    obtain ⟨q, hq, rfl⟩ := hback rid x hx
    rw [Db.mark_state] at hs
    rw [Db.mark_observationId] at hobs
    cases hhit : hit q with
    | true => simp [Db.mark, hhit] at hmark
    | false =>
      have hmark' : q.retryExhausted = false := by simpa [Db.mark, hhit] using hmark
      exact ⟨h.failed rid q hq hs hmark' hobs, q, hq, hs, hmark', hhit⟩

theorem admitted (ids : s.db.Ids) (h : Tidy L s) {o : Observation}
    (step : Db.ObsAdded s.db db' o) (hstate : o.state = .planned) :
    Tidy { L with planned := fun i => L.planned i ∨ i = o.id } { s with db := db' } := by
  have hback : ∀ {i state}, db'.InState i state →
      s.db.InState i state ∨ (i = o.id ∧ state = .planned) := by
    rintro i state ⟨x, hx, rfl⟩
    rw [step.obs? ids] at hx
    split at hx
    · cases hx
      exact .inr ⟨‹_›, hstate⟩
    · exact .inl ⟨x, hx, rfl⟩
  have hold : ∀ {i state}, state ≠ .planned → db'.InState i state → s.db.InState i state :=
    fun hne hi => (hback hi).resolve_right fun hnew => hne hnew.2
  refine ⟨fun i hobs => h.observing i (hold (by decide) hobs), fun i hobs => ?_,
    fun rid q hrun => ?_, fun rid q hrun hs hmark hobs => ?_, fun i hobs hnil => ?_⟩
  · rcases hback hobs with hobs | ⟨rfl, _⟩
    · exact (h.planned i hobs).imp_right .inl
    · exact .inr (.inr rfl)
  · rw [step.run?] at hrun
    exact h.running rid q hrun
  · rw [step.run?] at hrun
    exact h.failed rid q hrun hs hmark (hold (by decide) hobs)
  · rw [step.runsOf] at hnil
    exact h.bare i (hold (by decide) hobs) hnil

theorem created (ids : s.db.Ids) (h : Tidy L s) {q : ProcessingRun}
    (step : Db.RunAdded s.db db' q) :
    Tidy { L with bare := fun i => L.bare i ∧ i ≠ q.observationId } { s with db := db' } := by
  have hback : ∀ {rid x}, db'.run? rid = some x → x.state ≠ .queued → s.db.run? rid = some x := by
    intro rid x hx hne
    rw [step.run? ids] at hx
    split at hx
    · cases hx
      exact absurd step.state hne
    · exact hx
  refine h.runsChange step.obs? (fun i hnil => ?_) rfl rfl ?_ ?_
  · rw [step.runsOf, List.append_eq_nil_iff] at hnil
    refine ⟨hnil.1, fun hl => ⟨hl, ?_⟩⟩
    rintro rfl
    simp at hnil
  · exact fun rid x hx hs => h.running rid x (hback hx (by simp [hs])) hs
  · exact fun rid x hx hs hmark hobs => h.failed rid x (hback hx (by simp [hs])) hs hmark hobs

theorem tracked (h : Tidy L s) (kind : TaskKind) (key : Nat) :
    Tidy L { s with ctl := s.ctl.track kind key } where
  observing i hi := (h.observing i hi).imp_left Ctl.live_track
  planned i hi := (h.planned i hi).imp_left Ctl.live_track
  running rid q hq hs := (h.running rid q hq hs).imp_left Ctl.live_track
  failed := h.failed
  bare := h.bare

theorem weaken (h : Tidy L s)
    (hobserving : ∀ i, L.observing i → s.db.InState i .observing →
      s.ctl.live .observe i = true ∨ L'.observing i)
    (hplanned : ∀ i, L.planned i → s.db.InState i .planned →
      s.ctl.live .observe i = true ∨ L'.planned i)
    (hrunning : ∀ i q, L.running i → s.db.run? i = some q → q.state = .running →
      s.ctl.live .process i = true ∨ L'.running i)
    (hfailed : ∀ i q, L.failed i → s.db.run? i = some q → q.state = .failed →
      q.retryExhausted = false → s.db.InState q.observationId .stored → L'.failed i)
    (hbare : ∀ i, L.bare i → s.db.InState i .stored → s.db.runsOf i = [] → L'.bare i) :
    Tidy L' s where
  observing i hi := (h.observing i hi).elim .inl fun hl => hobserving i hl hi
  planned i hi := (h.planned i hi).elim .inl fun hl => hplanned i hl hi
  running i q hq hs := (h.running i q hq hs).elim .inl fun hl => hrunning i q hl hq hs
  failed i q hq hs hmark hi := hfailed i q (h.failed i q hq hs hmark hi) hq hs hmark hi
  bare i hi hnil := hbare i (h.bare i hi hnil) hi hnil

/-- After a tick, every stored observation has a run that is under way, decided,
or with the operator. -/
theorem settled (hinv : Inv T s) (h : Tidy .none s) {scanned : List Nat}
    (hscanned : ∀ rid ∈ scanned, s.ctl.live .process rid = true) : Settled scanned s where
  stored oid o ho hstored := by
    have hin : s.db.InState oid .stored := ⟨o, ho, hstored⟩
    obtain ⟨r, hr, hopen⟩ := (hinv.db.chain oid).open_last (h.bare oid hin)
    refine ⟨r, hr, ?_⟩
    obtain ⟨hmem, howner⟩ := Db.mem_runsOf.mp hr
    have hno : ¬ r.state.Releasing := fun hrel => by
      rcases hinv.db.released oid o ho ⟨r, hr, hrel⟩ with hs | hs <;> simp [hstored] at hs
    cases hs : r.state with
    | queued => exact .inl rfl
    | running => exact .inr (.inl rfl)
    | awaitingQa => exact .inr (.inr (.inl (List.mem_filter.mpr ⟨hmem, by simp [hs]⟩)))
    | accepted => exact .inr (.inr (.inr rfl))
    | superseded => exact absurd hs hopen
    | discarded => exact absurd (.inr hs) hno
    | failed =>
      cases hmark : r.retryExhausted with
      | true => exact .inr (.inr (.inl (List.mem_filter.mpr ⟨hmem, by simp [hs, hmark]⟩)))
      | false => exact (h.failed r.id r (hinv.db.ids.run? hmem) hs hmark (howner ▸ hin)).elim
  active oid o ho hactive := by
    rcases hactive with hs | hs
    · exact (h.planned oid ⟨o, ho, hs⟩).resolve_right id
    · exact (h.observing oid ⟨o, ho, hs⟩).resolve_right id
  running rid r hr hs := (h.running rid r hr hs).resolve_right id
  scanned := hscanned

end Tidy
end Sdpctl
