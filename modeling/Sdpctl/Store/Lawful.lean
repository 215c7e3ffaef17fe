import Sdpctl.Store.Chain

/-!
The invariant of the tables. It ties the two state machines together: raw data
is given up only for an accepted or discarded run or for an explicit drop, and
such a run never stands beside a stored observation.
-/

namespace Sdpctl

/-- `PLANNED` or `OBSERVING`: the observation holds a reservation. -/
def ObservationState.Active (s : ObservationState) : Prop := s = .planned ∨ s = .observing

/-- The observation is past the point where its data may still be used. -/
def ObservationState.Closing (s : ObservationState) : Prop :=
  s = .deleting ∨ s = .deleted ∨ s = .inconsistent

/-- A human verdict has released the raw data. -/
def RunState.Releasing (s : RunState) : Prop := s = .accepted ∨ s = .discarded

def RunState.Decided (s : RunState) : Prop :=
  s = .accepted ∨ s = .superseded ∨ s = .discarded

def RunState.Reviewable (s : RunState) : Prop := s = .awaitingQa ∨ s = .failed

/-- The state of a run whose product has reached QA. -/
def RunState.Delivered (s : RunState) : Prop := s = .awaitingQa ∨ s.Decided

namespace Db

open FileTree

/-- Some run of the observation is accepted or discarded. -/
def Released (db : Db) (oid : Nat) : Prop := ∃ r ∈ db.runsOf oid, r.state.Releasing

/-- The invariant of the tables, given the observations that were dropped by name. -/
structure Lawful (dropped : List Nat) (db : Db) : Prop where
  ids : db.Ids
  msPath : ∀ oid o, db.obs? oid = some o → o.msPath = msPathOf oid
  owner : ∀ rid r, db.run? rid = some r → (db.obs? r.observationId).isSome
  outputPrefix : ∀ rid r, db.run? rid = some r →
    r.outputPrefix = outputDir r.observationId r.attempt ++ ["product"]
  chain : ∀ oid, Chain (db.runsOf oid)
  deleting : ∀ oid o, db.obs? oid = some o → o.state = .deleting → db.Released oid
  deleted : ∀ oid o, db.obs? oid = some o → o.state = .deleted → db.Released oid ∨ oid ∈ dropped
  released : ∀ oid o, db.obs? oid = some o → db.Released oid →
    o.state = .deleting ∨ o.state = .deleted
  single : ∀ i j o p, db.obs? i = some o → db.obs? j = some p → o.state.Active →
    p.state.Active → i = j
  delivered : ∀ rid, db.reachedQa rid = true → ∃ r, db.run? rid = some r ∧ r.state.Delivered

variable {db db' : Db} {dropped : List Nat}

theorem lawful_empty : empty.Lawful [] := by
  refine ⟨⟨?_, ?_, ?_, ?_⟩, ?_, ?_, ?_, fun _ => Chain.nil, ?_, ?_, ?_, ?_, ?_⟩ <;>
    simp [empty, obs?, run?, reachedQa]

theorem released_congr (h : ∀ oid, db'.runsOf oid = db.runsOf oid) (oid : Nat) :
    db'.Released oid ↔ db.Released oid := by
  simp [Released, h]

namespace Lawful

theorem mono (h : db.Lawful dropped) {dropped' : List Nat} (hsub : dropped ⊆ dropped') :
    db.Lawful dropped' :=
  { h with deleted := fun oid o ho hs => (h.deleted oid o ho hs).imp_right fun hm => hsub hm }

theorem runsOf_nodup (h : db.Lawful dropped) (oid : Nat) :
    ((db.runsOf oid).map ProcessingRun.id).Nodup :=
  h.ids.runNodup.sublist (List.filter_sublist.map _)

theorem mem_runsOf_of_run? {rid : Nat} {r : ProcessingRun} (hr : db.run? rid = some r) :
    r ∈ db.runsOf r.observationId := mem_runsOf.mpr ⟨(mem_of_run? hr).1, rfl⟩

theorem find_runsOf (h : db.Lawful dropped) {rid : Nat} {r : ProcessingRun}
    (hr : db.run? rid = some r) :
    Keyed.find ProcessingRun.id (db.runsOf r.observationId) rid = some r := by
  have hfind := Keyed.find_of_mem (h.runsOf_nodup r.observationId) (mem_runsOf_of_run? hr)
  rwa [(mem_of_run? hr).2] at hfind

theorem congr (h : db.Lawful dropped) (hobs : db'.observations = db.observations)
    (hruns : db'.processingRuns = db.processingRuns) (hobsSeq : db'.obsSeq = db.obsSeq)
    (hrunSeq : db'.runSeq = db.runSeq) (hreached : ∀ rid, db'.reachedQa rid = db.reachedQa rid) :
    db'.Lawful dropped := by
  have hobs? : ∀ i, db'.obs? i = db.obs? i := obs?_congr hobs
  have hrun? : ∀ i, db'.run? i = db.run? i := run?_congr hruns
  have hrunsOf : ∀ i, db'.runsOf i = db.runsOf i := runsOf_congr hruns
  have hrel := released_congr hrunsOf
  refine ⟨⟨?_, ?_, ?_, ?_⟩, ?_, ?_, ?_, ?_, ?_, ?_, ?_, ?_, ?_⟩
  · rw [hobs]; exact h.ids.obsNodup
  · rw [hobs, hobsSeq]; exact h.ids.obsBound
  · rw [hruns]; exact h.ids.runNodup
  · rw [hruns, hrunSeq]; exact h.ids.runBound
  · simpa only [hobs?] using h.msPath
  · simpa only [hobs?, hrun?] using h.owner
  · simpa only [hrun?] using h.outputPrefix
  · simpa only [hrunsOf] using h.chain
  · simpa only [hobs?, hrel] using h.deleting
  · simpa only [hobs?, hrel] using h.deleted
  · simpa only [hobs?, hrel] using h.released
  · simpa only [hobs?] using h.single
  · simpa only [hrun?, hreached] using h.delivered

theorem obsStep (h : db.Lawful dropped) {o o' : Observation} (step : ObsStep db db' o o')
    (hactive : o'.state.Active → o.state.Active)
    (hdeleting : o'.state = .deleting → db.Released o.id)
    (hdeleted : o'.state = .deleted → db.Released o.id ∨ o.id ∈ dropped)
    (hreleased : db.Released o.id → o'.state = .deleting ∨ o'.state = .deleted) :
    db'.Lawful dropped := by
  have hrel := released_congr step.runsOf
  have hcases : ∀ i x, db'.obs? i = some x → (i = o.id ∧ x = o') ∨ db.obs? i = some x := by
    intro i x hx
    rw [step.obs?] at hx
    split at hx
    · rename_i heq
      exact .inl ⟨heq.trans step.id.symm, (Option.some.inj hx).symm⟩
    · exact .inr hx
  have hfound : db.obs? o.id = some o := step.id ▸ step.found
  refine ⟨step.ids h.ids, ?_, ?_, ?_, ?_, ?_, ?_, ?_, ?_, ?_⟩
  · intro i x hx
    rcases hcases i x hx with ⟨rfl, rfl⟩ | hx
    · rw [step.msPath]
      exact h.msPath _ o hfound
    · exact h.msPath i x hx
  · intro rid r hr
    rw [step.run?] at hr
    rw [step.obs?]
    split
    · rfl
    · exact h.owner rid r hr
  · intro rid r hr
    rw [step.run?] at hr
    exact h.outputPrefix rid r hr
  · intro i
    rw [step.runsOf]
    exact h.chain i
  · intro i x hx hs
    rw [hrel]
    rcases hcases i x hx with ⟨rfl, rfl⟩ | hx
    · exact hdeleting hs
    · exact h.deleting i x hx hs
  · intro i x hx hs
    rw [hrel]
    rcases hcases i x hx with ⟨rfl, rfl⟩ | hx
    · exact hdeleted hs
    · exact h.deleted i x hx hs
  · intro i x hx hr
    rw [hrel] at hr
    rcases hcases i x hx with ⟨rfl, rfl⟩ | hx
    · exact hreleased hr
    · exact h.released i x hx hr
  · intro i j x y hx hy hxa hya
    rcases hcases i x hx with ⟨rfl, rfl⟩ | hx <;> rcases hcases j y hy with ⟨rfl, rfl⟩ | hy
    · rfl
    · exact h.single _ j o y hfound hy (hactive hxa) hya
    · exact h.single i _ x o hx hfound hxa (hactive hya)
    · exact h.single i j x y hx hy hxa hya
  · intro rid hr
    rw [step.reachedQa] at hr
    rw [step.run?]
    exact h.delivered rid hr

theorem runsChange (h : db.Lawful dropped) (ids : db'.Ids) (hobs : ∀ i, db'.obs? i = db.obs? i)
    (howner : ∀ rid r, db'.run? rid = some r → (db.obs? r.observationId).isSome)
    (hout : ∀ rid r, db'.run? rid = some r →
      r.outputPrefix = outputDir r.observationId r.attempt ++ ["product"])
    (hchain : ∀ oid, Chain (db'.runsOf oid))
    (hrel : ∀ oid, db'.Released oid ↔ db.Released oid)
    (hdelivered : ∀ rid, db'.reachedQa rid = true →
      ∃ r, db'.run? rid = some r ∧ r.state.Delivered) : db'.Lawful dropped := by
  refine ⟨ids, ?_, ?_, hout, hchain, ?_, ?_, ?_, ?_, hdelivered⟩
  · simpa only [hobs] using h.msPath
  · simpa only [hobs] using howner
  · simpa only [hobs, hrel] using h.deleting
  · simpa only [hobs, hrel] using h.deleted
  · simpa only [hobs, hrel] using h.released
  · simpa only [hobs] using h.single

theorem runStep_cases {r r' : ProcessingRun} (step : RunStep db db' r r') {i : Nat}
    {x : ProcessingRun} (hx : db'.run? i = some x) : x = r' ∨ db.run? i = some x := by
  rw [step.run?] at hx
  split at hx
  · exact .inl (Option.some.inj hx).symm
  · exact .inr hx

theorem runStep_owner (h : db.Lawful dropped) {r r' : ProcessingRun} (step : RunStep db db' r r')
    {i : Nat} {x : ProcessingRun} (hx : db'.run? i = some x) :
    (db.obs? x.observationId).isSome := by
  rcases runStep_cases step hx with rfl | hx
  · rw [step.observationId]
    exact h.owner _ r step.found
  · exact h.owner i x hx

theorem runStep_outputPrefix (h : db.Lawful dropped) {r r' : ProcessingRun}
    (step : RunStep db db' r r') {i : Nat} {x : ProcessingRun} (hx : db'.run? i = some x) :
    x.outputPrefix = outputDir x.observationId x.attempt ++ ["product"] := by
  rcases runStep_cases step hx with rfl | hx
  · rw [step.outputPrefix, step.observationId, step.attempt]
    exact h.outputPrefix _ r step.found
  · exact h.outputPrefix i x hx

theorem runStep_runsOf_ne (h : db.Lawful dropped) {r r' : ProcessingRun}
    (step : RunStep db db' r r') {oid : Nat} (hne : r.observationId ≠ oid) :
    db'.runsOf oid = db.runsOf oid := by
  rw [step.runsOf h.ids]
  refine Keyed.replace_eq_self fun x hx heq => ?_
  have hfind := h.ids.run? (mem_runsOf.mp hx).1
  rw [heq, step.found] at hfind
  exact hne (by rw [Option.some.inj hfind]; exact (mem_runsOf.mp hx).2)

theorem runStep_chain (h : db.Lawful dropped) {r r' : ProcessingRun} (step : RunStep db db' r r')
    (hopen : r.state ≠ .superseded) (hopen' : r'.state ≠ .superseded) (oid : Nat) :
    Chain (db'.runsOf oid) := by
  by_cases howner : r.observationId = oid
  · subst howner
    rw [step.runsOf h.ids]
    exact (h.chain _).replace (h.runsOf_nodup _) (h.find_runsOf step.found) hopen step.attempt
      hopen'
  · rw [h.runStep_runsOf_ne step howner]
    exact h.chain oid

/-- A run without a verdict changes: other verdicts stay, its own may be new. -/
theorem runStep_released (h : db.Lawful dropped) {r r' : ProcessingRun}
    (step : RunStep db db' r r') (hno : ¬ r.state.Releasing) (oid : Nat) :
    db'.Released oid ↔ db.Released oid ∨ (r'.state.Releasing ∧ r.observationId = oid) := by
  simp only [Released, step.runsOf h.ids]
  constructor
  · rintro ⟨x, hx, hs⟩
    rcases Keyed.mem_replace hx with rfl | ⟨hmem, _⟩
    · right
      obtain ⟨z, hz, heq⟩ := List.mem_map.mp hx
      split at heq
      · rename_i hid
        have hfind := h.ids.run? (mem_runsOf.mp hz).1
        rw [hid, step.found] at hfind
        exact ⟨hs, by rw [Option.some.inj hfind]; exact (mem_runsOf.mp hz).2⟩
      · rename_i hid
        exact absurd (heq ▸ rfl) hid
    · exact .inl ⟨x, hmem, hs⟩
  · rintro (⟨x, hx, hs⟩ | ⟨hs, howner⟩)
    · refine ⟨x, List.mem_map.mpr ⟨x, hx, if_neg fun heq => ?_⟩, hs⟩
      have hxr : x = r := by
        have hfind := h.ids.run? (mem_runsOf.mp hx).1
        rw [heq, step.found] at hfind
        exact (Option.some.inj hfind).symm
      exact hno (hxr ▸ hs)
    · refine ⟨r', List.mem_map.mpr ⟨r, ?_, if_pos step.id⟩, hs⟩
      exact mem_runsOf.mpr ⟨(mem_of_run? step.found).1, howner⟩

theorem runStep_delivered (h : db.Lawful dropped) {r r' : ProcessingRun}
    (step : RunStep db db' r r') (hforth : r.state.Delivered → r'.state.Delivered) (rid : Nat)
    (hr : db'.reachedQa rid = true) : ∃ x, db'.run? rid = some x ∧ x.state.Delivered := by
  rw [step.reachedQa, Bool.or_eq_true] at hr
  rw [step.run?]
  by_cases heq : rid = r'.id
  · subst heq
    refine ⟨r', if_pos rfl, ?_⟩
    rcases hr with hr | hr
    · obtain ⟨x, hx, hs⟩ := h.delivered _ hr
      rw [step.found] at hx
      cases hx
      exact hforth hs
    · simp only [Bool.and_eq_true, beq_iff_eq] at hr
      exact .inl hr.2
  · rcases hr with hr | hr
    · rw [if_neg heq]
      exact h.delivered rid hr
    · simp only [Bool.and_eq_true, beq_iff_eq] at hr
      exact absurd hr.1.symm heq

theorem runStep (h : db.Lawful dropped) {r r' : ProcessingRun} (step : RunStep db db' r r')
    (hopen : r.state ≠ .superseded) (hopen' : r'.state ≠ .superseded)
    (hno : ¬ r.state.Releasing) (hno' : ¬ r'.state.Releasing)
    (hforth : r.state.Delivered → r'.state.Delivered) : db'.Lawful dropped :=
  h.runsChange (step.ids h.ids) step.obs? (fun _ _ => h.runStep_owner step)
    (fun _ _ => h.runStep_outputPrefix step) (h.runStep_chain step hopen hopen')
    (fun oid => by rw [h.runStep_released step hno]; simp [hno']) (h.runStep_delivered step hforth)

theorem marked (h : db.Lawful dropped) {hit : ProcessingRun → Bool} (step : Marked db db' hit) :
    db'.Lawful dropped := by
  refine h.runsChange (step.ids h.ids) step.obs? ?_ ?_ ?_ ?_ ?_
  · intro rid x hx
    rw [step.run?, Option.map_eq_some_iff] at hx
    obtain ⟨r, hr, rfl⟩ := hx
    rw [mark_observationId]
    exact h.owner rid r hr
  · intro rid x hx
    rw [step.run?, Option.map_eq_some_iff] at hx
    obtain ⟨r, hr, rfl⟩ := hx
    rw [mark_outputPrefix, mark_observationId, mark_attempt]
    exact h.outputPrefix rid r hr
  · intro oid
    rw [step.runsOf]
    exact (h.chain oid).map (mark_attempt hit) (mark_state hit)
  · intro oid
    simp [Released, step.runsOf]
  · intro rid hr
    rw [step.reachedQa] at hr
    obtain ⟨x, hx, hs⟩ := h.delivered rid hr
    exact ⟨mark hit x, by rw [step.run?, hx]; rfl, by rw [mark_state]; exact hs⟩

theorem no_runs_of_fresh (h : db.Lawful dropped) {oid : Nat} (hnone : db.obs? oid = none) :
    db.runsOf oid = [] := by
  refine List.eq_nil_iff_forall_not_mem.mpr fun r hr => ?_
  obtain ⟨hmem, howner⟩ := mem_runsOf.mp hr
  have hisSome := h.owner _ r (h.ids.run? hmem)
  simp [howner, hnone] at hisSome

theorem obsAdded (h : db.Lawful dropped) {o : Observation} (step : ObsAdded db db' o)
    (hstate : o.state = .planned) (hpath : o.msPath = msPathOf o.id)
    (hnone : ∀ i p, db.obs? i = some p → ¬ p.state.Active) : db'.Lawful dropped := by
  have hfresh : db.obs? o.id = none := Keyed.find_eq_none_iff.mpr (step.fresh h.ids)
  have hrel := released_congr step.runsOf
  have hcases : ∀ i x, db'.obs? i = some x → (i = o.id ∧ x = o) ∨ db.obs? i = some x := by
    intro i x hx
    rw [step.obs? h.ids] at hx
    split at hx
    · rename_i heq
      exact .inl ⟨heq, (Option.some.inj hx).symm⟩
    · exact .inr hx
  refine ⟨step.ids h.ids, ?_, ?_, ?_, ?_, ?_, ?_, ?_, ?_, ?_⟩
  · intro i x hx
    rcases hcases i x hx with ⟨rfl, rfl⟩ | hx
    · exact hpath
    · exact h.msPath i x hx
  · intro rid r hr
    rw [step.run?] at hr
    rw [step.obs? h.ids]
    split
    · rfl
    · exact h.owner rid r hr
  · intro rid r hr
    rw [step.run?] at hr
    exact h.outputPrefix rid r hr
  · intro i
    rw [step.runsOf]
    exact h.chain i
  · intro i x hx hs
    rw [hrel]
    rcases hcases i x hx with ⟨rfl, rfl⟩ | hx
    · simp [hstate] at hs
    · exact h.deleting i x hx hs
  · intro i x hx hs
    rw [hrel]
    rcases hcases i x hx with ⟨rfl, rfl⟩ | hx
    · simp [hstate] at hs
    · exact h.deleted i x hx hs
  · intro i x hx hr
    rw [hrel] at hr
    rcases hcases i x hx with ⟨rfl, rfl⟩ | hx
    · obtain ⟨r, hmem, _⟩ := hr
      simp [h.no_runs_of_fresh hfresh] at hmem
    · exact h.released i x hx hr
  · intro i j x y hx hy hxa hya
    rcases hcases i x hx with ⟨rfl, rfl⟩ | hx <;> rcases hcases j y hy with ⟨rfl, rfl⟩ | hy
    · rfl
    · exact absurd hya (hnone j y hy)
    · exact absurd hxa (hnone i x hx)
    · exact h.single i j x y hx hy hxa hya
  · intro rid hr
    rw [step.reachedQa] at hr
    rw [step.run?]
    exact h.delivered rid hr

theorem runAdded_cases {q : ProcessingRun} (step : RunAdded db db' q) (ids : db.Ids) {i : Nat}
    {x : ProcessingRun} (hx : db'.run? i = some x) : x = q ∨ db.run? i = some x := by
  rw [step.run? ids] at hx
  split at hx
  · exact .inl (Option.some.inj hx).symm
  · exact .inr hx

theorem runAdded_released {q : ProcessingRun} (step : RunAdded db db' q) (oid : Nat) :
    db'.Released oid ↔ db.Released oid := by
  simp only [Released, step.runsOf]
  constructor
  · rintro ⟨x, hx, hs⟩
    rcases List.mem_append.mp hx with hx | hx
    · exact ⟨x, hx, hs⟩
    · split at hx
      · rw [List.mem_singleton.mp hx] at hs
        simp [RunState.Releasing, step.state] at hs
      · simp at hx
  · rintro ⟨x, hx, hs⟩
    exact ⟨x, List.mem_append_left _ hx, hs⟩

theorem runAdded_delivered {q : ProcessingRun} (ids : db.Ids) (step : RunAdded db db' q)
    (h : ∀ rid, db.reachedQa rid = true → ∃ r, db.run? rid = some r ∧ r.state.Delivered) (rid : Nat)
    (hr : db'.reachedQa rid = true) : ∃ r, db'.run? rid = some r ∧ r.state.Delivered := by
  rw [step.reachedQa] at hr
  obtain ⟨x, hx, hs⟩ := h rid hr
  refine ⟨x, ?_, hs⟩
  rw [step.run? ids, if_neg]
  · exact hx
  · rintro rfl
    exact step.newId ids x (mem_of_run? hx).1 (mem_of_run? hx).2

theorem runAdded (h : db.Lawful dropped) {q : ProcessingRun} (step : RunAdded db db' q)
    (hout : q.outputPrefix = outputDir q.observationId q.attempt ++ ["product"])
    (hnone : db.runsOf q.observationId = []) (hattempt : q.attempt = 1) : db'.Lawful dropped := by
  refine h.runsChange (step.ids h.ids) step.obs? ?_ ?_ ?_ (runAdded_released step)
    (runAdded_delivered h.ids step h.delivered)
  · intro rid x hx
    rcases runAdded_cases step h.ids hx with rfl | hx
    · exact step.owner
    · exact h.owner rid x hx
  · intro rid x hx
    rcases runAdded_cases step h.ids hx with rfl | hx
    · exact hout
    · exact h.outputPrefix rid x hx
  · intro oid
    rw [step.runsOf]
    split
    · rename_i heq
      rw [← heq, hnone]
      exact Chain.first hattempt (by simp [step.state])
    · simpa using h.chain oid

theorem reprocessed (h : db.Lawful dropped) {mid : Db} {r r' q : ProcessingRun}
    (step : RunStep db mid r r') (added : RunAdded mid db' q)
    (hopen : r.state = .awaitingQa ∨ r.state = .failed) (hclosed : r'.state = .superseded)
    (howner : q.observationId = r.observationId) (hnext : q.attempt = r.attempt + 1)
    (hout : q.outputPrefix = outputDir r.observationId (r.attempt + 1) ++ ["product"]) :
    db'.Lawful dropped := by
  have hsuper : r.state ≠ .superseded := by rcases hopen with hs | hs <;> simp [hs]
  have hno : ¬ r.state.Releasing := by rcases hopen with hs | hs <;> simp [hs, RunState.Releasing]
  have ids := step.ids h.ids
  refine h.runsChange (added.ids ids) (fun i => (added.obs? i).trans (step.obs? i)) ?_ ?_ ?_ ?_
    (runAdded_delivered ids added
      (h.runStep_delivered step fun _ => .inr (.inr (.inl hclosed))))
  · intro rid x hx
    rcases runAdded_cases added ids hx with rfl | hx
    · rw [howner]
      exact h.owner _ r step.found
    · exact h.runStep_owner step hx
  · intro rid x hx
    rcases runAdded_cases added ids hx with rfl | hx
    · rw [hout, howner, hnext]
    · exact h.runStep_outputPrefix step hx
  · intro oid
    rw [added.runsOf]
    split
    · rename_i heq
      rw [← heq, howner, step.runsOf h.ids]
      exact (h.chain _).supersede (h.runsOf_nodup _) (h.find_runsOf step.found) hsuper
        step.attempt hclosed hnext (by simp [added.state])
    · rename_i hne
      rw [howner] at hne
      rw [h.runStep_runsOf_ne step hne, List.append_nil]
      exact h.chain oid
  · intro oid
    rw [runAdded_released added, h.runStep_released step hno]
    simp [RunState.Releasing, hclosed]

/-- A verdict that releases the raw data, with the deletion that it begins. -/
theorem releases (h : db.Lawful dropped) {oid : Nat} {r r' : ProcessingRun} {o : Observation}
    (step : Releases db db' oid r r' o) : db'.Lawful dropped := by
  obtain ⟨mid, hrun, hobs⟩ := step.steps
  have hsuper : r.state ≠ .superseded := by rcases step.open_ with hs | hs <;> simp [hs]
  have hno : ¬ r.state.Releasing := by
    rcases step.open_ with hs | hs <;> simp [hs, RunState.Releasing]
  have hsuper' : r'.state ≠ .superseded := by rcases step.decided with hs | hs <;> simp [hs]
  have ids := hrun.ids h.ids
  have hrel : ∀ i, db'.Released i ↔ db.Released i ∨ i = oid := by
    intro i
    have hdecided : r'.state.Releasing := step.decided
    rw [released_congr hobs.runsOf, h.runStep_released hrun hno, step.owner]
    simp [hdecided, eq_comm]
  have hcases : ∀ i x, db'.obs? i = some x →
      (i = oid ∧ x = { o with state := .deleting }) ∨ (i ≠ oid ∧ db.obs? i = some x) := by
    intro i x hx
    rw [hobs.obs?, hrun.obs?] at hx
    split at hx
    · rename_i heq
      exact .inl ⟨heq.trans step.obsId, (Option.some.inj hx).symm⟩
    · rename_i hne
      exact .inr ⟨fun heq => hne (heq.trans step.obsId.symm), hx⟩
  have hfound : db.obs? oid = some o := by
    have hfound := hobs.found
    rwa [hrun.obs?, show ({ o with state := .deleting } : Observation).id = oid from step.obsId]
      at hfound
  refine ⟨hobs.ids ids, ?_, ?_, ?_, ?_, ?_, ?_, ?_, ?_, ?_⟩
  · intro i x hx
    rcases hcases i x hx with ⟨rfl, rfl⟩ | ⟨_, hx⟩
    · exact h.msPath _ o hfound
    · exact h.msPath i x hx
  · intro rid x hx
    rw [hobs.run?] at hx
    have hsome := h.runStep_owner hrun hx
    rw [hobs.obs?, hrun.obs?]
    split
    · rfl
    · exact hsome
  · intro rid x hx
    rw [hobs.run?] at hx
    exact h.runStep_outputPrefix hrun hx
  · intro i
    rw [hobs.runsOf]
    exact h.runStep_chain hrun hsuper hsuper' i
  · intro i x hx hs
    rw [hrel]
    rcases hcases i x hx with ⟨rfl, rfl⟩ | ⟨_, hx⟩
    · exact .inr rfl
    · exact .inl (h.deleting i x hx hs)
  · intro i x hx hs
    rw [hrel]
    rcases hcases i x hx with ⟨rfl, rfl⟩ | ⟨_, hx⟩
    · cases hs
    · exact (h.deleted i x hx hs).imp_left .inl
  · intro i x hx hr
    rw [hrel] at hr
    rcases hcases i x hx with ⟨rfl, rfl⟩ | ⟨hne, hx⟩
    · exact .inl rfl
    · exact h.released i x hx (hr.resolve_right hne)
  · intro i j x y hx hy hxa hya
    rcases hcases i x hx with ⟨rfl, rfl⟩ | ⟨_, hx⟩
    · rcases hxa with hs | hs <;> cases hs
    · rcases hcases j y hy with ⟨rfl, rfl⟩ | ⟨_, hy⟩
      · rcases hya with hs | hs <;> cases hs
      · exact h.single i j x y hx hy hxa hya
  · intro rid hr
    rw [hobs.reachedQa] at hr
    rw [hobs.run?]
    exact h.runStep_delivered hrun (fun _ => step.decided.elim (fun hs => .inr (.inl hs))
      fun hs => .inr (.inr (.inr hs))) rid hr

end Lawful
end Db
end Sdpctl
