import Sdpctl.Store.Calls

/-!
Two preorders on the tables. `Grows` is what every step of the system keeps:
nothing is forgotten. `Quiet` is what the command line keeps: between two
operations of the controller no row becomes active, no run is claimed, and the
ledger does not grow.
-/

namespace Sdpctl

namespace Db

def usedBy (o : Observation) : Nat := if countsUsed o.state then o.sizeBytes else 0

def reservedBy (o : Observation) : Nat := if countsReserved o.state then o.reservedBytes else 0

def used (db : Db) : Nat := (db.observations.map usedBy).sum

def reserved (db : Db) : Nat := (db.observations.map reservedBy).sum

theorem logicalStorage_eq (db : Db) : db.logicalStorage = (db.used, db.reserved) := by
  simp only [logicalStorage, sum_filter_map, used, reserved]
  rfl

structure Grows (db db' : Db) : Prop where
  rows : ∀ oid o, db.obs? oid = some o →
    ∃ o', db'.obs? oid = some o' ∧ (o.state.Closing → o'.state.Closing)
  released : ∀ oid, db.Released oid → db'.Released oid
  runs : ∀ rid r, db.run? rid = some r → ∃ r', db'.run? rid = some r' ∧
    r'.observationId = r.observationId ∧ r'.attempt = r.attempt

structure Quiet (db db' : Db) : Prop where
  grows : Grows db db'
  absent : ∀ oid, db.obs? oid = none → db'.obs? oid = none
  steady : ∀ oid o, db.obs? oid = some o → db'.obs? oid = some o ∨
    ((o.state = .stored ∨ o.state.Closing) ∧ ∃ o', db'.obs? oid = some o' ∧
      (o'.state = .deleting ∨ o'.state = .deleted) ∧ (o.state = .stored → db'.Released oid))
  runs : ∀ rid r, db.run? rid = some r → db'.run? rid = some r ∨
    (r.state.Reviewable ∧ ∃ r', db'.run? rid = some r' ∧ r'.state.Decided)
  newRuns : ∀ rid r, db.run? rid = none → db'.run? rid = some r → r.state = .queued
  noRuns : ∀ oid, db.runsOf oid = [] → db'.runsOf oid = []
  attempts : ∀ rid, db'.runExecutionAttempts rid = db.runExecutionAttempts rid
  reached : ∀ rid, db'.reachedQa rid = db.reachedQa rid
  used : db'.used ≤ db.used
  reserved : db'.reserved = db.reserved

namespace Grows

variable {db db' db'' : Db}

theorem refl (db : Db) : Grows db db :=
  ⟨fun _ o h => ⟨o, h, id⟩, fun _ h => h, fun _ r h => ⟨r, h, rfl, rfl⟩⟩

theorem trans (h : Grows db db') (h' : Grows db' db'') : Grows db db'' where
  rows oid o ho := by
    obtain ⟨o', ho', hclosing⟩ := h.rows oid o ho
    obtain ⟨o'', ho'', hclosing'⟩ := h'.rows oid o' ho'
    exact ⟨o'', ho'', hclosing' ∘ hclosing⟩
  released oid hr := h'.released oid (h.released oid hr)
  runs rid r hr := by
    obtain ⟨r', hr', howner, hattempt⟩ := h.runs rid r hr
    obtain ⟨r'', hr'', howner', hattempt'⟩ := h'.runs rid r' hr'
    exact ⟨r'', hr'', howner'.trans howner, hattempt'.trans hattempt⟩

theorem congr (hobs : db'.observations = db.observations)
    (hruns : db'.processingRuns = db.processingRuns) : Grows db db' := by
  refine ⟨fun oid o ho => ⟨o, by rw [obs?_congr hobs]; exact ho, id⟩, fun oid hr => ?_,
    fun rid r hr => ⟨r, by rw [run?_congr hruns]; exact hr, rfl, rfl⟩⟩
  exact (released_congr (runsOf_congr hruns) oid).mpr hr

theorem obsStep {o o' : Observation} (step : ObsStep db db' o o')
    (hclosing : o.state.Closing → o'.state.Closing) : Grows db db' where
  rows oid x hx := by
    rw [step.obs?]
    by_cases heq : oid = o'.id
    · subst heq
      have hxo : x = o := Option.some.inj (hx.symm.trans step.found)
      exact ⟨o', if_pos rfl, hxo ▸ hclosing⟩
    · exact ⟨x, by rw [if_neg heq]; exact hx, id⟩
  released oid hr := (released_congr step.runsOf oid).mpr hr
  runs rid r hr := ⟨r, by rw [step.run?]; exact hr, rfl, rfl⟩

theorem obsAdded {o : Observation} (ids : db.Ids) (step : ObsAdded db db' o) : Grows db db' where
  rows oid x hx := by
    refine ⟨x, ?_, id⟩
    rw [step.obs? ids, if_neg]
    · exact hx
    · rintro rfl
      exact step.fresh ids x (mem_of_obs? hx).1 (mem_of_obs? hx).2
  released oid hr := (released_congr step.runsOf oid).mpr hr
  runs rid r hr := ⟨r, by rw [step.run?]; exact hr, rfl, rfl⟩

theorem runStep {r r' : ProcessingRun} (ids : db.Ids) (step : RunStep db db' r r')
    (hverdict : r.state.Releasing → r'.state.Releasing) : Grows db db' where
  rows oid o ho := ⟨o, by rw [step.obs?]; exact ho, id⟩
  released oid hr := by
    obtain ⟨x, hx, hs⟩ := hr
    refine ⟨if x.id = r'.id then r' else x, ?_, ?_⟩
    · rw [step.runsOf ids]
      exact List.mem_map_of_mem hx
    · split
      · rename_i heq
        have hfind := ids.run? (mem_runsOf.mp hx).1
        rw [heq, step.found] at hfind
        exact hverdict (Option.some.inj hfind ▸ hs)
      · exact hs
  runs rid x hx := by
    rw [step.run?]
    by_cases heq : rid = r'.id
    · subst heq
      have hxr : x = r := Option.some.inj (hx.symm.trans step.found)
      exact ⟨r', if_pos rfl, by rw [step.observationId, hxr], by rw [step.attempt, hxr]⟩
    · exact ⟨x, by rw [if_neg heq]; exact hx, rfl, rfl⟩

theorem runAdded {q : ProcessingRun} (ids : db.Ids) (step : RunAdded db db' q) : Grows db db' where
  rows oid o ho := ⟨o, by rw [step.obs?]; exact ho, id⟩
  released oid hr := (Lawful.runAdded_released step oid).mpr hr
  runs rid x hx := by
    refine ⟨x, ?_, rfl, rfl⟩
    rw [step.run? ids, if_neg]
    · exact hx
    · rintro rfl
      exact step.newId ids x (mem_of_run? hx).1 (mem_of_run? hx).2

theorem marked {hit : ProcessingRun → Bool} (step : Marked db db' hit) : Grows db db' where
  rows oid o ho := ⟨o, by rw [step.obs?]; exact ho, id⟩
  released oid hr := by
    obtain ⟨x, hx, hs⟩ := hr
    exact ⟨mark hit x, by rw [step.runsOf]; exact List.mem_map_of_mem hx, by simpa using hs⟩
  runs rid x hx := ⟨mark hit x, by rw [step.run?, hx]; rfl, by simp, by simp⟩

end Grows

theorem Releases.grows {db db' : Db} {oid : Nat} {r r' : ProcessingRun} {o : Observation}
    (step : Releases db db' oid r r' o) : Grows db db' := by
  obtain ⟨mid, hrun, hobs⟩ := step.steps
  refine (Grows.runStep step.ids hrun fun _ => step.decided).trans (Grows.obsStep hobs ?_)
  intro hclosing
  rcases hclosing with hs | hs | hs <;> simp [step.stored] at hs

namespace Quiet

variable {db db' db'' : Db}

theorem congr (hobs : db'.observations = db.observations)
    (hruns : db'.processingRuns = db.processingRuns)
    (hattempts : ∀ rid, db'.runExecutionAttempts rid = db.runExecutionAttempts rid)
    (hreached : ∀ rid, db'.reachedQa rid = db.reachedQa rid) : Quiet db db' where
  grows := Grows.congr hobs hruns
  absent oid h := by rw [obs?_congr hobs]; exact h
  steady oid o h := .inl (by rw [obs?_congr hobs]; exact h)
  runs rid r h := .inl (by rw [run?_congr hruns]; exact h)
  newRuns rid r h h' := by rw [run?_congr hruns, h] at h'; cases h'
  noRuns oid h := by rw [runsOf_congr hruns]; exact h
  attempts := hattempts
  reached := hreached
  used := by simp [Db.used, hobs]
  reserved := by simp [Db.reserved, hobs]

theorem refl (db : Db) : Quiet db db := congr rfl rfl (fun _ => rfl) fun _ => rfl

theorem trans (h : Quiet db db') (h' : Quiet db' db'') : Quiet db db'' where
  grows := h.grows.trans h'.grows
  absent oid hnone := h'.absent oid (h.absent oid hnone)
  steady oid o ho := by
    rcases h.steady oid o ho with ho' | ⟨hstate, o', ho', hs', hrel⟩
    · exact h'.steady oid o ho'
    · right
      refine ⟨hstate, ?_⟩
      rcases h'.steady oid o' ho' with ho'' | ⟨_, o'', ho'', hs'', _⟩
      · exact ⟨o', ho'', hs', fun hstored => h'.grows.released oid (hrel hstored)⟩
      · exact ⟨o'', ho'', hs'', fun hstored => h'.grows.released oid (hrel hstored)⟩
  runs rid r hr := by
    rcases h.runs rid r hr with hr' | ⟨hrev, r', hr', hdec⟩
    · exact h'.runs rid r hr'
    · refine .inr ⟨hrev, ?_⟩
      rcases h'.runs rid r' hr' with hr'' | ⟨hrev', _⟩
      · exact ⟨r', hr'', hdec⟩
      · rcases hdec with hs | hs | hs <;> rcases hrev' with hs' | hs' <;> simp [hs] at hs'
  newRuns rid r hnone hr := by
    cases hmid : db'.run? rid with
    | none => exact h'.newRuns rid r hmid hr
    | some r' =>
      have hq := h.newRuns rid r' hnone hmid
      rcases h'.runs rid r' hmid with hr' | ⟨hrev, _⟩
      · rw [hr] at hr'
        rw [Option.some.inj hr', hq]
      · rcases hrev with hs | hs <;> simp [hq] at hs
  noRuns oid hnil := h'.noRuns oid (h.noRuns oid hnil)
  attempts rid := (h'.attempts rid).trans (h.attempts rid)
  reached rid := (h'.reached rid).trans (h.reached rid)
  used := Nat.le_trans h'.used h.used
  reserved := h'.reserved.trans h.reserved

theorem completed (ids : db.Ids) {o o' : Observation} (step : ObsStep db db' o o')
    (hclosing : o.state.Closing) (hdeleted : o'.state = .deleted) (hsize : o'.sizeBytes = 0) :
    Quiet db db' where
  grows := Grows.obsStep step fun _ => .inr (.inl hdeleted)
  absent oid h := by
    rw [step.obs?, if_neg]
    · exact h
    · rintro rfl
      rw [step.found] at h
      cases h
  steady oid x hx := by
    rw [step.obs?]
    by_cases heq : oid = o'.id
    · subst heq
      have hxo : x = o := Option.some.inj (hx.symm.trans step.found)
      refine .inr ⟨.inr (hxo ▸ hclosing), o', if_pos rfl, .inr hdeleted, fun hstored => ?_⟩
      rcases hclosing with hs | hs | hs <;> simp [← hxo, hstored] at hs
    · exact .inl (by rw [if_neg heq]; exact hx)
  runs rid r h := .inl (by rw [step.run?]; exact h)
  newRuns rid r h h' := by rw [step.run?, h] at h'; cases h'
  noRuns oid h := by rw [step.runsOf]; exact h
  attempts := step.attempts
  reached := step.reachedQa
  used := by
    have hsum := step.sum ids usedBy
    have hzero : usedBy o' = 0 := by simp [usedBy, hsize]
    unfold Db.used
    omega
  reserved := by
    have hsum := step.sum ids reservedBy
    have hzero : reservedBy o' = 0 := by simp [reservedBy, countsReserved, hdeleted]
    have hzero' : reservedBy o = 0 := by
      rcases hclosing with hs | hs | hs <;> simp [reservedBy, countsReserved, hs]
    unfold Db.reserved
    omega

/-- A run under review changes and stays one of its observation's runs. -/
theorem runDecided (ids : db.Ids) {r r' : ProcessingRun} (step : RunStep db db' r r')
    (hrev : r.state.Reviewable) (hdec : r'.state.Decided) : Quiet db db' where
  grows := Grows.runStep ids step fun hs => by
    rcases hs with hs | hs <;> rcases hrev with hs' | hs' <;> simp [hs] at hs'
  absent oid h := by rw [step.obs?]; exact h
  steady oid o h := .inl (by rw [step.obs?]; exact h)
  runs rid x hx := by
    rw [step.run?]
    by_cases heq : rid = r'.id
    · subst heq
      have hxr : x = r := Option.some.inj (hx.symm.trans step.found)
      exact .inr ⟨hxr ▸ hrev, r', if_pos rfl, hdec⟩
    · exact .inl (by rw [if_neg heq]; exact hx)
  newRuns rid x h h' := by
    rw [step.run?] at h'
    split at h'
    · rename_i heq
      rw [heq, step.found] at h
      cases h
    · rw [h] at h'
      cases h'
  noRuns oid h := by rw [step.runsOf ids, h]; rfl
  attempts := step.attempts fun hq => by rcases hrev with hs | hs <;> simp [hs] at hq
  reached rid := by
    rw [step.reachedQa]
    rcases hdec with hs | hs | hs <;> simp [hs]
  used := by simp [Db.used, step.observations]
  reserved := by simp [Db.reserved, step.observations]

theorem runAdded (ids : db.Ids) {q : ProcessingRun} (step : RunAdded db db' q)
    (hruns : db.runsOf q.observationId ≠ []) : Quiet db db' where
  grows := Grows.runAdded ids step
  absent oid h := by rw [step.obs?]; exact h
  steady oid o h := .inl (by rw [step.obs?]; exact h)
  runs rid x hx := by
    refine .inl ?_
    rw [step.run? ids, if_neg]
    · exact hx
    · rintro rfl
      exact step.newId ids x (mem_of_run? hx).1 (mem_of_run? hx).2
  newRuns rid x h h' := by
    rcases Lawful.runAdded_cases step ids h' with rfl | hx
    · exact step.state
    · rw [h] at hx
      cases hx
  noRuns oid h := by
    rw [step.runsOf, if_neg]
    · simp [h]
    · rintro rfl
      exact hruns h
  attempts := step.attempts
  reached := step.reachedQa
  used := by simp [Db.used, step.observations]
  reserved := by simp [Db.reserved, step.observations]

theorem releases {oid : Nat} {r r' : ProcessingRun} {o : Observation}
    (step : Releases db db' oid r r' o) : Quiet db db' := by
  obtain ⟨mid, hrun, hobs⟩ := step.steps
  have hrev : r.state.Reviewable := step.open_
  have hdec : r'.state.Decided := by
    rcases step.decided with hs | hs
    · exact .inl hs
    · exact .inr (.inr hs)
  have hfirst := runDecided step.ids hrun hrev hdec
  have ids := hrun.ids step.ids
  have hreleased : db'.Released oid := by
    refine (released_congr hobs.runsOf oid).mpr ⟨r', ?_, step.decided⟩
    exact mem_runsOf.mpr ⟨(mem_of_run? hrun.run?_self).1, hrun.observationId.trans step.owner⟩
  refine hfirst.trans ?_
  refine ⟨Grows.obsStep hobs fun hclosing => ?_, ?_, ?_, fun rid r h => .inl ?_, ?_, ?_,
    hobs.attempts, hobs.reachedQa, ?_, ?_⟩
  · rcases hclosing with hs | hs | hs <;> simp [step.stored] at hs
  · intro i h
    rw [hobs.obs?, if_neg]
    · exact h
    · rintro rfl
      rw [hobs.found] at h
      cases h
  · intro i x hx
    rw [hobs.obs?]
    by_cases heq : i = o.id
    · have hxo : x = o := Option.some.inj (hx.symm.trans (heq ▸ hobs.found))
      refine .inr ⟨.inl (hxo ▸ step.stored), _, if_pos heq, .inl rfl, fun _ => ?_⟩
      rw [heq, step.obsId]
      exact hreleased
    · exact .inl (by rw [if_neg heq]; exact hx)
  · rw [hobs.run?]; exact h
  · intro rid x h h'
    rw [hobs.run?, h] at h'
    cases h'
  · intro i h
    rw [hobs.runsOf]; exact h
  · have hsum := hobs.sum ids usedBy
    have heq : usedBy { o with state := .deleting } = usedBy o := by
      simp [usedBy, countsUsed, step.stored]
    unfold Db.used
    omega
  · have hsum := hobs.sum ids reservedBy
    have heq : reservedBy { o with state := .deleting } = reservedBy o := by
      simp [reservedBy, countsReserved, step.stored]
    unfold Db.reserved
    omega

theorem reprocessed (ids : db.Ids) {mid : Db} {r r' q : ProcessingRun}
    (step : RunStep db mid r r') (added : RunAdded mid db' q)
    (hrev : r.state.Reviewable) (hclosed : r'.state = .superseded)
    (howner : q.observationId = r.observationId) : Quiet db db' := by
  refine (runDecided ids step hrev (.inr (.inl hclosed))).trans
    (runAdded (step.ids ids) added fun hnil => ?_)
  have hmem : r' ∈ mid.runsOf q.observationId :=
    mem_runsOf.mpr ⟨(mem_of_run? step.run?_self).1, step.observationId.trans howner.symm⟩
  simp [hnil] at hmem

theorem count (h : Quiet db db') (ids : db'.Ids) :
    db'.observations.length ≤ db.observations.length := by
  have hsub : db'.observations.map Observation.id ⊆ db.observations.map Observation.id := by
    intro oid hoid
    obtain ⟨o, ho, rfl⟩ := List.mem_map.mp hoid
    cases hrow : db.obs? o.id with
    | none => exact absurd (ids.obs? ho) (by simp [h.absent _ hrow])
    | some x =>
      obtain ⟨hmem, hid⟩ := mem_of_obs? hrow
      exact List.mem_map.mpr ⟨x, hmem, hid⟩
  simpa using (List.subperm_of_subset ids.obsNodup hsub).length_le

end Quiet
end Db
end Sdpctl
