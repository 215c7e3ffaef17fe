import Sdpctl.Effects
import Sdpctl.Store.Lawful

/-!
What a committed method of the store did to the tables, by the method. An
argument about the tables goes by cases on `Call` and never unfolds a method.
-/

namespace Sdpctl

theorem map_ok {α β : Type} {x : Except Exn α} {f : α → β} {y : β} (h : x.map f = .ok y) :
    ∃ a, x = .ok a ∧ f a = y := by
  cases x with
  | error e => cases h
  | ok a => exact ⟨a, rfl, by simpa [Except.map] using h⟩

theorem map_error {α β : Type} {x : Except Exn α} {f : α → β} {e : Exn} (h : x.map f = .error e) :
    x = .error e := by
  cases x with
  | error e' => simpa [Except.map] using h
  | ok a => cases h

theorem getObservation_ok {db db' : Db} {oid : Nat} {o : Observation}
    (h : (Query.getObservation oid).run db = .ok (o, db')) : db.obs? oid = some o ∧ db' = db := by
  obtain ⟨x, hx, heq⟩ := map_ok h
  cases heq
  unfold Db.getObservation at hx
  split at hx
  · rename_i o' ho'
    cases hx
    exact ⟨ho', rfl⟩
  · cases hx

theorem getRun_ok {db db' : Db} {rid : Nat} {q : ProcessingRun}
    (h : (Query.getRun rid).run db = .ok (q, db')) : db.run? rid = some q ∧ db' = db := by
  obtain ⟨x, hx, heq⟩ := map_ok h
  cases heq
  unfold Db.getRun at hx
  split at hx
  · rename_i q' hq'
    cases hx
    exact ⟨hq', rfl⟩
  · cases hx

def Query.reads : Query → Bool
  | .getObservation _ | .listObservations _ | .getRun _ | .listRuns _ | .hasOtherActiveRuns _ _
  | .hasActiveRuns _ | .hasAcceptedRun _ | .listRetryableFailedRuns _
  | .listStoredObservationsWithoutRuns | .logicalStorage | .countObservations => true
  | _ => false

namespace Db

open FileTree

/-- The row that `create_observation_auto` adds. -/
def planned (db : Db) (reserved : Nat) : Observation where
  id := db.obsSeq + 1
  state := .planned
  msPath := msPathOf (db.obsSeq + 1)
  sizeBytes := 0
  reservedBytes := reserved
  error := none

/-- The call made `db'` of the tables `db`. -/
inductive Call (db : Db) : Query → Db → Prop where
  | same {q : Query} (reads : q.reads = true) : Call db q db
  | noted (entity : EntityType) (id : Nat) (reason : String) :
      Call db (.recordEvent entity id reason) (db.recordEvent entity id reason)
  | admitted {reserved : Nat} {db' : Db} (step : ObsAdded db db' (db.planned reserved)) :
      Call db (.createObservationAuto reserved) db'
  | observation {oid : Nat} {expected new : ObservationState} {reason : String}
      {size reserved : Option Nat} {error : Option String} {db' : Db} {o : Observation}
      (legal : new ∈ obsTransitions expected) (id : o.id = oid) (before : o.state = expected)
      (step : ObsStep db db' o { o with
        state := new, sizeBytes := size.getD o.sizeBytes,
        reservedBytes := reserved.getD o.reservedBytes, error := error <|> o.error }) :
      Call db (.transitionObservation oid expected new reason size reserved error) db'
  /-- There is no row to force. -/
  | unforced (oid : Nat) (reserved : Option Nat) (error : Option String) :
      Call db (.forceObservationFields oid reserved error) db
  | forced {oid : Nat} {reserved : Option Nat} {error : Option String} {db' : Db} {o : Observation}
      (id : o.id = oid) (step : ObsStep db db' o { o with
        reservedBytes := reserved.getD o.reservedBytes, error := error <|> o.error })
      (unlogged : db'.events = db.events) : Call db (.forceObservationFields oid reserved error) db'
  | created {oid : Nat} {outputPrefix logPath : Path} {db' : Db} {r : ProcessingRun}
      (owner : r.observationId = oid) (attempt : r.attempt = db.nextAttempt oid)
      (path : r.outputPrefix = outputPrefix) (unjudged : r.qaVerdict = none)
      (step : RunAdded db db' r) : Call db (.createRun oid outputPrefix logPath) db'
  | run {rid : Nat} {expected new : RunState} {reason : String} {code : Option Int} {db' : Db}
      {r : ProcessingRun} (legal : new ∈ runTransitions expected) (id : r.id = rid)
      (before : r.state = expected)
      (step : RunStep db db' r { r with state := new, exitCode := code <|> r.exitCode }) :
      Call db (.transitionRun rid expected new reason code) db'
  | exhausted {m : Nat} {db' : Db} (step : Marked db db' (db.exhausts m)) :
      Call db (.markExhaustedFailedRuns m) db'
  | marked {rid : Nat} {reason : String} {db' : Db} (step : Marked db db' (marksOne rid)) :
      Call db (.markRunRetryExhausted rid reason) db'
  | accepted {rid oid : Nat} {note : String} {db' : Db} {r : ProcessingRun} {o : Observation}
      (id : r.id = rid) (before : r.state = .awaitingQa)
      (step : Releases db db' oid r (judged r .accepted "accept" note) o) :
      Call db (.acceptRunAndBeginDeletion rid note) db'
  | discarded {rid oid : Nat} {note : String} {db' : Db} {r : ProcessingRun} {o : Observation}
      (id : r.id = rid) (before : r.state = .failed)
      (step : Releases db db' oid r (judged r .discarded "discard" note) o) :
      Call db (.discardFailedRunAndBeginDeletion rid note) db'
  | reprocessed {rid : Nat} {outputPrefix logPath : Path} {note : String} {mid db' : Db}
      {r q : ProcessingRun} {o : Observation} (id : r.id = rid)
      (found : db.obs? r.observationId = some o) (stored : o.state = .stored)
      (before : r.state = .awaitingQa ∨ r.state = .failed)
      (step : RunStep db mid r (judged r .superseded "reprocess" note))
      (added : RunAdded mid db' q) (owner : q.observationId = r.observationId)
      (attempt : q.attempt = r.attempt + 1) (path : q.outputPrefix = outputPrefix)
      (unjudged : q.qaVerdict = none) :
      Call db (.reprocessRunAndCreate rid outputPrefix logPath note) db'

variable {db db' : Db}

theorem Call.of_run (ids : db.Ids) {q : Query} {y : q.Reply} (h : q.run db = .ok (y, db')) :
    Call db q db' := by
  cases q with
  | createObservationAuto reserved =>
    simp only [Query.run, Except.ok.injEq] at h
    have hadded := createObservationAuto_added ids reserved
    rw [h] at hadded
    exact .admitted hadded
  | transitionObservation oid expected new reason size reserved error =>
    obtain ⟨_, hrun, heq⟩ := map_ok h
    cases heq
    obtain ⟨hlegal, o, hid, hstate, hstep⟩ := transitionObservation_ok ids hrun
    exact .observation hlegal hid hstate hstep
  | forceObservationFields oid reserved error =>
    simp only [Query.run, Except.ok.injEq, Prod.mk.injEq, true_and] at h
    subst h
    rcases forceObservationFields_step ids oid reserved error with heq | ⟨o, hid, hstep⟩
    · rw [heq]
      exact .unforced oid reserved error
    · exact .forced hid hstep rfl
  | createRun oid outputPrefix logPath =>
    have hadded := insertRun_ok (show db.insertRun oid _ _ _ _ = .ok (y, db') from h)
    exact .created rfl rfl rfl rfl hadded
  | transitionRun rid expected new reason code =>
    obtain ⟨_, hrun, heq⟩ := map_ok h
    cases heq
    obtain ⟨hlegal, r, hid, hstate, hstep⟩ := transitionRun_ok ids hrun
    exact .run hlegal hid hstate hstep
  | recordEvent entity id reason =>
    simp only [Query.run, Except.ok.injEq, Prod.mk.injEq, true_and] at h
    subst h
    exact .noted entity id reason
  | markExhaustedFailedRuns m =>
    simp only [Query.run, Except.ok.injEq] at h
    have hmarked : Marked db _ _ := markExhaustedFailedRuns_marked m
    rw [h] at hmarked
    exact .exhausted hmarked
  | markRunRetryExhausted rid reason =>
    simp only [Query.run, Except.ok.injEq, Prod.mk.injEq, true_and] at h
    subst h
    exact .marked (markRunRetryExhausted_marked rid reason)
  | acceptRunAndBeginDeletion rid note =>
    obtain ⟨r, o, hid, hstate, hreleases⟩ := acceptRunAndBeginDeletion_ok ids h
    exact .accepted hid hstate hreleases
  | reprocessRunAndCreate rid outputPrefix logPath note =>
    obtain ⟨r, q, o, mid, hid, ho, hstored, hopen, hstep, hadded, howner, hnext, hpath, hnew⟩ :=
      reprocessRunAndCreate_ok ids h
    exact .reprocessed hid ho hstored hopen hstep hadded howner hnext hpath hnew
  | discardFailedRunAndBeginDeletion rid note =>
    obtain ⟨r, o, hid, hstate, hreleases⟩ := discardFailedRunAndBeginDeletion_ok ids h
    exact .discarded hid hstate hreleases
  | getObservation oid =>
    obtain ⟨o, _, heq⟩ := map_ok h
    cases heq
    exact .same rfl
  | getRun rid =>
    obtain ⟨r, _, heq⟩ := map_ok h
    cases heq
    exact .same rfl
  | listObservations | listRuns | hasOtherActiveRuns | hasActiveRuns | hasAcceptedRun
  | listRetryableFailedRuns | listStoredObservationsWithoutRuns | logicalStorage
  | countObservations =>
    simp only [Query.run, Except.ok.injEq, Prod.mk.injEq] at h
    rw [← h.2]
    exact .same rfl

end Db

def Query.marks (db : Db) : Query → ProcessingRun → Bool
  | .markExhaustedFailedRuns m => db.exhausts m
  | .markRunRetryExhausted rid _ => Db.marksOne rid
  | _ => fun _ => false

/-- The method starts an execution of the run. -/
def Query.executes (rid : Nat) : Query → Bool
  | .transitionRun i .queued .running _ _ => i == rid
  | _ => false

/-- The verdict that a method gives: on which run, its new state, its verdict and note. -/
def Query.verdict : Query → Option (Nat × RunState × String × String)
  | .acceptRunAndBeginDeletion rid note => some (rid, .accepted, "accept", note)
  | .reprocessRunAndCreate rid _ _ note => some (rid, .superseded, "reprocess", note)
  | .discardFailedRunAndBeginDeletion rid note => some (rid, .discarded, "discard", note)
  | _ => none

namespace Db

variable {db db' : Db} {q : Query}

theorem ids_of_events (ids : db.Ids) (hobs : db'.observations = db.observations)
    (hruns : db'.processingRuns = db.processingRuns) (hobsSeq : db'.obsSeq = db.obsSeq)
    (hrunSeq : db'.runSeq = db.runSeq) : db'.Ids where
  obsNodup := by rw [hobs]; exact ids.obsNodup
  obsBound := by rw [hobs, hobsSeq]; exact ids.obsBound
  runNodup := by rw [hruns]; exact ids.runNodup
  runBound := by rw [hruns, hrunSeq]; exact ids.runBound

theorem Call.ids (ids : db.Ids) (call : Call db q db') : db'.Ids := by
  cases call with
  | same | unforced => exact ids
  | noted => exact ids_of_events ids rfl rfl rfl rfl
  | admitted step | observation _ _ _ step | forced _ step | created _ _ _ _ step
  | run _ _ _ step | exhausted step | marked step => exact step.ids ids
  | accepted id before step | discarded id before step =>
    obtain ⟨mid, hrun, hobs⟩ := step.steps
    exact hobs.ids (hrun.ids ids)
  | reprocessed id found stored before step added => exact added.ids (step.ids ids)

theorem sum_filter_map {α : Type} (p : α → Bool) (f : α → Nat) (l : List α) :
    ((l.filter p).map f).sum = (l.map fun x => if p x then f x else 0).sum := by
  induction l with
  | nil => rfl
  | cons x l ih =>
    by_cases hx : p x <;> simp [hx, ih]

theorem length_join {α β : Type} (p : α → β → Bool) (xs : List α) (ys : List β) :
    (xs.flatMap fun x => ys.filter (p x)).length =
      (ys.map fun y => (xs.filter fun x => p x y).length).sum := by
  induction xs with
  | nil => simp
  | cons x xs ih =>
    have hcons : ∀ y, ((x :: xs).filter fun x => p x y).length =
        (if p x y then 1 else 0) + (xs.filter fun x => p x y).length := by
      intro y
      by_cases hxy : p x y <;> simp [hxy, Nat.add_comm]
    have hfirst := sum_filter_map (p x) (fun _ => 1) ys
    simp only [List.map_const', List.sum_replicate_nat, Nat.mul_one] at hfirst
    simp only [List.flatMap_cons, List.length_append, hcons, List.sum_map_add, ih, hfirst]

theorem observationExecutionAttempts_eq (db : Db) (oid : Nat) :
    db.observationExecutionAttempts oid =
      ((db.runsOf oid).map fun r => db.runExecutionAttempts r.id).sum :=
  length_join (fun e r => isExecution (ProcessingRun.id r) e) db.events (db.runsOf oid)

theorem Call.attempts (call : Call db q db') (rid : Nat) :
    db'.runExecutionAttempts rid =
      db.runExecutionAttempts rid + if q.executes rid then 1 else 0 := by
  cases call with
  | same reads => cases q <;> first | rfl | cases reads
  | noted entity id reason => exact recordEvent_attempts entity id reason rid
  | unforced => rfl
  | admitted step => exact step.attempts rid
  | observation legal id before step => exact step.attempts rid
  | forced id step => exact step.attempts rid
  | created owner attempt path unjudged step => exact step.attempts rid
  | exhausted step => exact step.attempts rid
  | marked step => exact step.attempts rid
  | accepted id before step | discarded id before step =>
    obtain ⟨mid, hrun, hobs⟩ := step.steps
    exact (hobs.attempts rid).trans (hrun.attempts (by simp [before]) rid)
  | reprocessed id found stored before step added =>
    refine (added.attempts rid).trans (step.attempts ?_ rid)
    rcases before with hs | hs <;> simp [hs]
  | run legal id before step =>
    rename_i i expected new reason code r
    obtain ⟨_, hlog⟩ := step.log
    simp only [runExecutionAttempts, hlog, List.filter_append, List.length_append, before]
    subst id
    cases expected <;> cases new <;>
      simp [isExecution, Query.executes, List.filter_cons, apply_ite List.length]

inductive RunChange (db : Db) (q : Query) (rid : Nat) :
    Option ProcessingRun → ProcessingRun → Prop where
  | same {x : ProcessingRun} : RunChange db q rid (some x) x
  | marked {x : ProcessingRun} (failed : x.state = .failed) (hit : q.marks db x = true) :
      RunChange db q rid (some x) { x with retryExhausted := true }
  | moved {x : ProcessingRun} {expected new : RunState} {reason : String} {code : Option Int}
      (call : q = .transitionRun rid expected new reason code)
      (legal : new ∈ runTransitions expected) (before : x.state = expected) :
      RunChange db q rid (some x) { x with state := new, exitCode := code <|> x.exitCode }
  | decided {x : ProcessingRun} {new : RunState} {verdict note : String}
      (call : q.verdict = some (rid, new, verdict, note)) (before : x.state.Reviewable)
      (after : new.Decided) : RunChange db q rid (some x) (judged x new verdict note)
  | created {x : ProcessingRun} (state : x.state = .queued) (fresh : x.retryExhausted = false)
      (unjudged : x.qaVerdict = none) : RunChange db q rid none x

theorem RunChange.runStep {r r' x : ProcessingRun} {rid : Nat} (step : RunStep db db' r r')
    (hx : db'.run? rid = some x) (hchange : rid = r'.id → RunChange db q rid (some r) r') :
    RunChange db q rid (db.run? rid) x := by
  rw [step.run?] at hx
  split at hx
  · rename_i heq
    cases hx
    rw [heq, step.found]
    exact heq ▸ hchange heq
  · rw [hx]
    exact .same

theorem RunChange.marks {hit : ProcessingRun → Bool} {rid : Nat} {x : ProcessingRun}
    (step : Marked db db' hit) (hhit : q.marks db = hit) (hx : db'.run? rid = some x) :
    RunChange db q rid (db.run? rid) x := by
  rw [step.run?] at hx
  obtain ⟨y, hy, rfl⟩ := Option.map_eq_some_iff.mp hx
  rw [hy]
  unfold mark
  split
  · rename_i hyes
    exact .marked (step.failed y hyes) (hhit ▸ hyes)
  · exact .same

theorem RunChange.released {rid oid : Nat} {new : RunState} {verdict note : String}
    {r x : ProcessingRun} {o : Observation} (hcall : q.verdict = some (r.id, new, verdict, note))
    (step : Releases db db' oid r (judged r new verdict note) o) (hx : db'.run? rid = some x) :
    RunChange db q rid (db.run? rid) x := by
  obtain ⟨mid, hrun, hobs⟩ := step.steps
  rw [hobs.run?] at hx
  refine .runStep hrun hx fun heq => .decided (heq ▸ hcall) step.open_ ?_
  exact step.decided.imp_right .inr

theorem Call.runChange (ids : db.Ids) (call : Call db q db') {rid : Nat} {x : ProcessingRun}
    (hx : db'.run? rid = some x) : RunChange db q rid (db.run? rid) x := by
  have hsame : db'.run? rid = db.run? rid → RunChange db q rid (db.run? rid) x := by
    intro h
    rw [← h, hx]
    exact .same
  cases call with
  | same | noted | unforced => exact hsame rfl
  | admitted step => exact hsame (step.run? rid)
  | observation legal id before step => exact hsame (step.run? rid)
  | forced id step => exact hsame (step.run? rid)
  | created owner attempt path unjudged step =>
    rw [step.run? ids] at hx
    split at hx
    · rename_i heq
      cases hx
      rw [heq, step.run?_none ids]
      exact .created step.state step.fresh unjudged
    · rw [hx]
      exact .same
  | run legal id before step =>
    exact .runStep step hx fun heq => .moved (by rw [heq, ← id]) legal before
  | exhausted step => exact .marks step rfl hx
  | marked step => exact .marks step rfl hx
  | accepted id before step => exact .released (by rw [id]; rfl) step hx
  | discarded id before step => exact .released (by rw [id]; rfl) step hx
  | reprocessed id found stored before step added owner attempt path unjudged =>
    rename_i r q o
    rw [added.run? (step.ids ids)] at hx
    split at hx
    · rename_i heq
      cases hx
      have hnone := added.run?_none (step.ids ids)
      rw [step.run?] at hnone
      split at hnone
      · cases hnone
      · rw [heq, hnone]
        exact .created added.state added.fresh unjudged
    · refine .runStep step hx fun heq => .decided ?_ before (.inr (.inl rfl))
      rw [heq, judged_id, id]
      rfl

inductive ObsChange (db : Db) (q : Query) (oid : Nat) :
    Option Observation → Observation → Prop where
  | same {x : Observation} : ObsChange db q oid (some x) x
  | moved {x : Observation} {expected new : ObservationState} {reason : String}
      {size reserved : Option Nat} {error : Option String}
      (call : q = .transitionObservation oid expected new reason size reserved error)
      (legal : new ∈ obsTransitions expected) (before : x.state = expected) :
      ObsChange db q oid (some x) { x with
        state := new, sizeBytes := size.getD x.sizeBytes,
        reservedBytes := reserved.getD x.reservedBytes, error := error <|> x.error }
  | forced {x : Observation} {reserved : Option Nat} {error : Option String}
      (call : q = .forceObservationFields oid reserved error) :
      ObsChange db q oid (some x) { x with
        reservedBytes := reserved.getD x.reservedBytes, error := error <|> x.error }
  | released {x : Observation} {rid : Nat} {r : ProcessingRun} {new : RunState}
      {verdict note : String} (call : q.verdict = some (rid, new, verdict, note))
      (run : db.run? rid = some r) (owner : r.observationId = oid) (stored : x.state = .stored) :
      ObsChange db q oid (some x) { x with state := .deleting }
  | created {x : Observation} {reserved : Nat} (call : q = .createObservationAuto reserved)
      (row : x = db.planned reserved) : ObsChange db q oid none x

theorem ObsChange.obsStep {o o' x : Observation} {oid : Nat} (step : ObsStep db db' o o')
    (hx : db'.obs? oid = some x) (hchange : oid = o'.id → ObsChange db q oid (some o) o') :
    ObsChange db q oid (db.obs? oid) x := by
  rw [step.obs?] at hx
  split at hx
  · rename_i heq
    cases hx
    rw [heq, step.found]
    exact heq ▸ hchange heq
  · rw [hx]
    exact .same

theorem ObsChange.verdict {i oid : Nat} {new : RunState} {verdict note : String}
    {r : ProcessingRun} {o x : Observation} (hcall : q.verdict = some (r.id, new, verdict, note))
    (step : Releases db db' i r (judged r new verdict note) o) (hx : db'.obs? oid = some x) :
    ObsChange db q oid (db.obs? oid) x := by
  obtain ⟨mid, hrun, hobs⟩ := step.steps
  have hfound := hobs.found
  rw [hobs.obs?] at hx
  split at hx
  · rename_i heq
    cases hx
    rw [heq, ← hrun.obs?, hfound]
    refine .released hcall hrun.found ?_ step.stored
    exact step.owner.trans step.obsId.symm
  · rw [hrun.obs?] at hx
    rw [hx]
    exact .same

theorem Call.obsChange (ids : db.Ids) (call : Call db q db') {oid : Nat} {x : Observation}
    (hx : db'.obs? oid = some x) : ObsChange db q oid (db.obs? oid) x := by
  have hsame : db'.obs? oid = db.obs? oid → ObsChange db q oid (db.obs? oid) x := by
    intro h
    rw [← h, hx]
    exact .same
  cases call with
  | same | noted | unforced => exact hsame rfl
  | created _ _ _ _ step | run _ _ _ step | exhausted step | marked step =>
    exact hsame (step.obs? oid)
  | admitted step =>
    rw [step.obs? ids] at hx
    split at hx
    · rename_i heq
      cases hx
      rw [heq, show db.obs? (db.planned _).id = none from
        Keyed.find_eq_none_iff.mpr (step.fresh ids)]
      exact .created rfl rfl
    · rw [hx]
      exact .same
  | observation legal id before step =>
    exact .obsStep step hx fun heq => .moved (by rw [heq, ← id]) legal before
  | forced id step => exact .obsStep step hx fun heq => .forced (by rw [heq, ← id])
  | accepted id before step => exact .verdict (by rw [id]; rfl) step hx
  | discarded id before step => exact .verdict (by rw [id]; rfl) step hx
  | reprocessed id found stored before step added =>
    exact hsame ((added.obs? oid).trans (step.obs? oid))

/-- Every row has the path that `create_observation_auto` derives from its id. -/
def Named (db : Db) : Prop := ∀ oid o, db.obs? oid = some o → o.msPath = msPathOf oid

theorem Call.named (ids : db.Ids) (call : Call db q db') (named : db.Named) : db'.Named := by
  intro oid o ho
  have hchange := call.obsChange ids ho
  cases hbefore : db.obs? oid with
  | none =>
    rw [hbefore] at hchange
    cases hchange with
    | created call row =>
      have hid := (mem_of_obs? ho).2
      subst row
      simp only [planned] at hid ⊢
      rw [hid]
  | some x =>
    rw [hbefore] at hchange
    have hx := named oid x hbefore
    cases hchange <;> exact hx

theorem Call.persists (ids : db.Ids) (call : Call db q db') {rid : Nat} {x : ProcessingRun}
    (hx : db.run? rid = some x) :
    ∃ x', db'.run? rid = some x' ∧ RunChange db q rid (some x) x' := by
  suffices h : ∃ x', db'.run? rid = some x' by
    obtain ⟨x', hx'⟩ := h
    exact ⟨x', hx', hx ▸ call.runChange ids hx'⟩
  have hstep : ∀ {db₁ db₂ : Db} {r r' y : ProcessingRun}, RunStep db₁ db₂ r r' →
      db₁.run? rid = some y → ∃ x', db₂.run? rid = some x' := by
    intro db₁ db₂ r r' y step hy
    rw [step.run?]
    split
    · exact ⟨_, rfl⟩
    · exact ⟨y, hy⟩
  have hadded : ∀ {db₁ db₂ : Db} {r y : ProcessingRun}, db₁.Ids → RunAdded db₁ db₂ r →
      db₁.run? rid = some y → ∃ x', db₂.run? rid = some x' := by
    intro db₁ db₂ r y ids₁ step hy
    rw [step.run? ids₁]
    split
    · exact ⟨_, rfl⟩
    · exact ⟨y, hy⟩
  cases call with
  | same | unforced | noted => exact ⟨x, hx⟩
  | admitted step | observation _ _ _ step | forced _ step => exact ⟨x, (step.run? rid).trans hx⟩
  | created owner attempt path unjudged step => exact hadded ids step hx
  | run legal id before step => exact hstep step hx
  | exhausted step | marked step => exact ⟨_, by rw [step.run?, hx]; rfl⟩
  | accepted id before step | discarded id before step =>
    obtain ⟨mid, hrun, hobs⟩ := step.steps
    obtain ⟨y, hy⟩ := hstep hrun hx
    exact ⟨y, (hobs.run? rid).trans hy⟩
  | reprocessed id found stored before step added =>
    obtain ⟨y, hy⟩ := hstep step hx
    exact hadded (step.ids ids) added hy

theorem Call.remains (ids : db.Ids) (call : Call db q db') {oid : Nat} {x : Observation}
    (hx : db.obs? oid = some x) :
    ∃ x', db'.obs? oid = some x' ∧ ObsChange db q oid (some x) x' := by
  suffices h : ∃ x', db'.obs? oid = some x' by
    obtain ⟨x', hx'⟩ := h
    exact ⟨x', hx', hx ▸ call.obsChange ids hx'⟩
  have hstep : ∀ {db₁ db₂ : Db} {o o' y : Observation}, ObsStep db₁ db₂ o o' →
      db₁.obs? oid = some y → ∃ x', db₂.obs? oid = some x' := by
    intro db₁ db₂ o o' y step hy
    rw [step.obs?]
    split
    · exact ⟨_, rfl⟩
    · exact ⟨y, hy⟩
  cases call with
  | same | unforced | noted => exact ⟨x, hx⟩
  | admitted step =>
    rw [step.obs? ids]
    split
    · exact ⟨_, rfl⟩
    · exact ⟨x, hx⟩
  | observation legal id before step => exact hstep step hx
  | forced id step => exact hstep step hx
  | created _ _ _ _ step | run _ _ _ step | exhausted step | marked step =>
    exact ⟨x, (step.obs? oid).trans hx⟩
  | accepted id before step | discarded id before step =>
    obtain ⟨mid, hrun, hobs⟩ := step.steps
    exact hstep hobs ((hrun.obs? oid).trans hx)
  | reprocessed id found stored before step added =>
    exact ⟨x, ((added.obs? oid).trans (step.obs? oid)).trans hx⟩

theorem Call.appends (call : Call db q db') : db.events <+: db'.events := by
  have hrun : ∀ {db₁ db₂ : Db} {r r' : ProcessingRun}, RunStep db₁ db₂ r r' →
      db₁.events <+: db₂.events := by
    intro db₁ db₂ r r' step
    obtain ⟨reason, hlog⟩ := step.log
    exact ⟨_, hlog.symm⟩
  have hobs : ∀ {db₁ db₂ : Db} {o o' : Observation}, ObsStep db₁ db₂ o o' →
      db₁.events <+: db₂.events := by
    intro db₁ db₂ o o' step
    rcases step.log with ⟨hlog, _⟩ | ⟨reason, hlog⟩
    · exact ⟨[], by rw [hlog, List.append_nil]⟩
    · exact ⟨_, hlog.symm⟩
  have hadded : ∀ {db₁ db₂ : Db} {r : ProcessingRun}, RunAdded db₁ db₂ r →
      db₁.events <+: db₂.events := by
    intro db₁ db₂ r step
    obtain ⟨reason, hlog⟩ := step.log
    exact ⟨_, hlog.symm⟩
  cases call with
  | same | unforced => exact List.prefix_refl _
  | noted entity id reason => exact ⟨_, rfl⟩
  | admitted step =>
    obtain ⟨reason, hlog⟩ := step.log
    exact ⟨_, hlog.symm⟩
  | observation _ _ _ step | forced _ step => exact hobs step
  | created _ _ _ _ step => exact hadded step
  | run _ _ _ step => exact hrun step
  | exhausted step | marked step =>
    obtain ⟨es, hlog, _⟩ := step.log
    exact ⟨_, hlog.symm⟩
  | accepted _ _ step | discarded _ _ step =>
    obtain ⟨mid, hfirst, hsecond⟩ := step.steps
    exact (hrun hfirst).trans (hobs hsecond)
  | reprocessed _ _ _ _ step added => exact (hrun step).trans (hadded added)

theorem Call.error_stays (ids : db.Ids) (call : Call db q db') {oid : Nat} {x : Observation}
    (hx : db.obs? oid = some x) (herror : x.error.isSome) :
    ∃ x', db'.obs? oid = some x' ∧ x'.error.isSome := by
  obtain ⟨x', hx', hchange⟩ := call.remains ids hx
  refine ⟨x', hx', ?_⟩
  cases hchange with
  | same | released => exact herror
  | moved => simp [herror]
  | forced => simp [herror]

end Db
end Sdpctl
