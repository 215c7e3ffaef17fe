import Sdpctl.Journal
import Sdpctl.Store.Calls

/-!
The event table as a journal. Each call adds, for every observation and every
run, the one move that it makes, or nothing.
-/

namespace Sdpctl.Db

open FileTree Journal

/-- The move that an event records about an observation. -/
def obsMove (oid : Nat) : Event → Option (Option ObservationState × ObservationState)
  | .observation id before (some after) _ => if id = oid then some (before, after) else none
  | _ => none

/-- The move that an event records about a run. -/
def runMove (rid : Nat) : Event → Option (Option RunState × RunState)
  | .run id before (some after) _ => if id = rid then some (before, after) else none
  | _ => none

variable (db : Db)

/-- The events of an observation that have a `to_state`, in the order of their ids. -/
def obsTrail (oid : Nat) : List (Option ObservationState × ObservationState) :=
  db.events.filterMap (obsMove oid)

/-- The events of a run that have a `to_state`, in the order of their ids. -/
def runTrail (rid : Nat) : List (Option RunState × RunState) := db.events.filterMap (runMove rid)

def obsState (oid : Nat) : Option ObservationState := (db.obs? oid).map (·.state)

def runState (rid : Nat) : Option RunState := (db.run? rid).map (·.state)

def ObsEdge (x y : ObservationState) : Prop := y ∈ obsTransitions x

def RunEdge (x y : RunState) : Prop := y ∈ runTransitions x

theorem runEdge_loop (x : RunState) : ¬ RunEdge x x := by
  cases x <;> simp [RunEdge, runTransitions]

structure Logs (db db' : Db) : Prop where
  obs : ∀ oid, Adds ObsEdge .planned (db.obsTrail oid) (db.obsState oid) (db'.obsTrail oid)
    (db'.obsState oid)
  run : ∀ rid, Adds RunEdge .queued (db.runTrail rid) (db.runState rid) (db'.runTrail rid)
    (db'.runState rid)

variable {db} {db' : Db}

theorem obsTrail_append {es : List Event} (h : db'.events = db.events ++ es) (oid : Nat) :
    db'.obsTrail oid = db.obsTrail oid ++ es.filterMap (obsMove oid) := by
  simp [obsTrail, h]

theorem runTrail_append {es : List Event} (h : db'.events = db.events ++ es) (rid : Nat) :
    db'.runTrail rid = db.runTrail rid ++ es.filterMap (runMove rid) := by
  simp [runTrail, h]

/-- The call says nothing about the observation. -/
def ObsKept (db db' : Db) (oid : Nat) : Prop :=
  db'.obsTrail oid = db.obsTrail oid ∧ db'.obsState oid = db.obsState oid

def RunKept (db db' : Db) (rid : Nat) : Prop :=
  db'.runTrail rid = db.runTrail rid ∧ db'.runState rid = db.runState rid

theorem ObsKept.adds {oid : Nat} (h : ObsKept db db' oid) :
    Adds ObsEdge .planned (db.obsTrail oid) (db.obsState oid) (db'.obsTrail oid)
      (db'.obsState oid) := by
  rw [h.1, h.2]
  exact .idle

theorem RunKept.adds {rid : Nat} (h : RunKept db db' rid) :
    Adds RunEdge .queued (db.runTrail rid) (db.runState rid) (db'.runTrail rid)
      (db'.runState rid) := by
  rw [h.1, h.2]
  exact .idle

theorem silent_obsMove {e : Event} (h : Silent e) (oid : Nat) : obsMove oid e = none := by
  unfold Silent at h
  unfold obsMove
  split <;> simp_all

theorem silent_runMove {e : Event} (h : Silent e) (rid : Nat) : runMove rid e = none := by
  unfold Silent at h
  unfold runMove
  split <;> simp_all

/-- Events without a `to_state` add nothing. -/
theorem Logs.silent {es : List Event} (hlog : db'.events = db.events ++ es)
    (hsilent : ∀ e ∈ es, Silent e) (hobs : ∀ oid, db'.obsState oid = db.obsState oid)
    (hruns : ∀ rid, db'.runState rid = db.runState rid) : Logs db db' where
  obs oid := by
    have hnone := List.filterMap_eq_nil_iff.mpr fun e he => silent_obsMove (hsilent e he) oid
    refine ObsKept.adds ⟨?_, hobs oid⟩
    rw [obsTrail_append hlog, hnone, List.append_nil]
  run rid := by
    have hnone := List.filterMap_eq_nil_iff.mpr fun e he => silent_runMove (hsilent e he) rid
    refine RunKept.adds ⟨?_, hruns rid⟩
    rw [runTrail_append hlog, hnone, List.append_nil]

theorem ObsStep.obsKept {o o' : Observation} (step : ObsStep db db' o o') {oid : Nat}
    (hne : oid ≠ o'.id) : ObsKept db db' oid := by
  refine ⟨?_, by simp [obsState, step.obs?_ne hne]⟩
  rcases step.log with ⟨hsame, _⟩ | ⟨reason, hlog⟩
  · simp [obsTrail, hsame]
  · simp [obsTrail_append hlog, obsMove, Ne.symm hne]

theorem ObsStep.runKept {o o' : Observation} (step : ObsStep db db' o o') (rid : Nat) :
    RunKept db db' rid := by
  refine ⟨?_, by simp [runState, step.run?]⟩
  rcases step.log with ⟨hsame, _⟩ | ⟨reason, hlog⟩
  · simp [runTrail, hsame]
  · simp [runTrail_append hlog, runMove]

theorem ObsStep.logs {o o' : Observation} (step : ObsStep db db' o o')
    (hmoves : db'.events ≠ db.events → ObsEdge o.state o'.state) : Logs db db' where
  run rid := (step.runKept rid).adds
  obs oid := by
    by_cases heq : oid = o'.id
    · subst heq
      have hbefore : db.obsState o'.id = some o.state := by simp [obsState, step.found]
      have hafter : db'.obsState o'.id = some o'.state := by simp [obsState, step.obs?_self]
      rcases step.log with ⟨hsame, hstate⟩ | ⟨reason, hlog⟩
      · exact ObsKept.adds ⟨by simp [obsTrail, hsame], by rw [hbefore, hafter, hstate]⟩
      · rw [hbefore, hafter, obsTrail_append hlog]
        simpa [obsMove] using Adds.move (hmoves (by simp [hlog]))
    · exact (step.obsKept heq).adds

theorem RunStep.obsKept {r r' : ProcessingRun} (step : RunStep db db' r r') (oid : Nat) :
    ObsKept db db' oid := by
  obtain ⟨reason, hlog⟩ := step.log
  exact ⟨by simp [obsTrail_append hlog, obsMove], by simp [obsState, step.obs?]⟩

theorem RunStep.runKept {r r' : ProcessingRun} (step : RunStep db db' r r') {rid : Nat}
    (hne : rid ≠ r'.id) : RunKept db db' rid := by
  obtain ⟨reason, hlog⟩ := step.log
  exact ⟨by simp [runTrail_append hlog, runMove, Ne.symm hne], by simp [runState, step.run?_ne hne]⟩

theorem RunStep.logs {r r' : ProcessingRun} (step : RunStep db db' r r')
    (hlegal : RunEdge r.state r'.state) : Logs db db' where
  obs oid := (step.obsKept oid).adds
  run rid := by
    by_cases heq : rid = r'.id
    · subst heq
      obtain ⟨reason, hlog⟩ := step.log
      have hbefore : db.runState r'.id = some r.state := by simp [runState, step.found]
      have hafter : db'.runState r'.id = some r'.state := by simp [runState, step.run?_self]
      rw [hbefore, hafter, runTrail_append hlog]
      simpa [runMove] using Adds.move hlegal
    · exact (step.runKept heq).adds

theorem ObsAdded.logs {o : Observation} (ids : db.Ids) (step : ObsAdded db db' o)
    (hstate : o.state = .planned) : Logs db db' where
  obs oid := by
    obtain ⟨reason, hlog⟩ := step.log
    by_cases heq : oid = o.id
    · subst heq
      have hbefore : db.obsState o.id = none := by
        simp [obsState, show db.obs? o.id = none from
          Keyed.find_eq_none_iff.mpr (step.fresh ids)]
      have hafter : db'.obsState o.id = some .planned := by
        simp [obsState, step.obs? ids, hstate]
      rw [hbefore, hafter, obsTrail_append hlog]
      simpa [obsMove, hstate] using Adds.start
    · exact ObsKept.adds ⟨by simp [obsTrail_append hlog, obsMove, Ne.symm heq],
        by simp [obsState, step.obs? ids, heq]⟩
  run rid := by
    obtain ⟨reason, hlog⟩ := step.log
    exact RunKept.adds ⟨by simp [runTrail_append hlog, runMove], by simp [runState, step.run?]⟩

theorem RunAdded.obsKept {r : ProcessingRun} (step : RunAdded db db' r) (oid : Nat) :
    ObsKept db db' oid := by
  obtain ⟨reason, hlog⟩ := step.log
  exact ⟨by simp [obsTrail_append hlog, obsMove], by simp [obsState, step.obs?]⟩

theorem RunAdded.runKept {r : ProcessingRun} (ids : db.Ids) (step : RunAdded db db' r) {rid : Nat}
    (hne : rid ≠ r.id) : RunKept db db' rid := by
  obtain ⟨reason, hlog⟩ := step.log
  exact ⟨by simp [runTrail_append hlog, runMove, Ne.symm hne],
    by simp [runState, step.run? ids, hne]⟩

theorem RunAdded.logs {r : ProcessingRun} (ids : db.Ids) (step : RunAdded db db' r) :
    Logs db db' where
  obs oid := (step.obsKept oid).adds
  run rid := by
    by_cases heq : rid = r.id
    · subst heq
      obtain ⟨reason, hlog⟩ := step.log
      have hbefore : db.runState r.id = none := by simp [runState, step.run?_none ids]
      have hafter : db'.runState r.id = some .queued := by
        simp [runState, step.run? ids, step.state]
      rw [hbefore, hafter, runTrail_append hlog]
      simpa [runMove, step.state] using Adds.start
    · exact (step.runKept ids heq).adds

theorem Marked.logs {hit : ProcessingRun → Bool} (step : Marked db db' hit) : Logs db db' := by
  obtain ⟨es, hlog, hsilent⟩ := step.log
  refine .silent hlog hsilent (fun oid => by simp [obsState, step.obs?]) fun rid => ?_
  simp [runState, step.run?, Option.map_map, Function.comp_def]

/-- A verdict that releases the raw data moves one run and one observation. -/
theorem Releases.logs {oid : Nat} {r r' : ProcessingRun} {o : Observation}
    (step : Releases db db' oid r r' o) (hlegal : RunEdge r.state r'.state) : Logs db db' := by
  obtain ⟨mid, hrun, hobs⟩ := step.steps
  have hstate : ObsEdge o.state .deleting := by simp [ObsEdge, step.stored, obsTransitions]
  have hfirst := hrun.logs hlegal
  have hsecond := hobs.logs fun _ => hstate
  refine ⟨fun i => ?_, fun i => ?_⟩
  · rw [← (hrun.obsKept i).1, ← (hrun.obsKept i).2]
    exact hsecond.obs i
  · rw [(hobs.runKept i).1, (hobs.runKept i).2]
    exact hfirst.run i

theorem reprocessed_logs (ids : db.Ids) {mid : Db} {r r' q : ProcessingRun}
    (step : RunStep db mid r r') (added : RunAdded mid db' q)
    (hlegal : RunEdge r.state r'.state) : Logs db db' := by
  have hfirst := step.logs hlegal
  have hsecond := added.logs (step.ids ids)
  refine ⟨fun i => ?_, fun i => ?_⟩
  · rw [← (step.obsKept i).1, ← (step.obsKept i).2]
    exact hsecond.obs i
  · by_cases heq : i = r'.id
    · have hne : i ≠ q.id := fun hq =>
        added.newId (step.ids ids) r' (mem_of_run? step.run?_self).1 (heq ▸ hq)
      rw [(added.runKept (step.ids ids) hne).1, (added.runKept (step.ids ids) hne).2]
      exact hfirst.run i
    · rw [← (step.runKept heq).1, ← (step.runKept heq).2]
      exact hsecond.run i

/-- Every committed call moves each entity along at most one edge, and logs it. -/
theorem Call.logs {q : Query} (ids : db.Ids) (call : Call db q db') : Logs db db' := by
  cases call with
  | same | unforced => exact ⟨fun _ => .idle, fun _ => .idle⟩
  | noted entity id reason =>
    refine .silent rfl (fun e he => ?_) (fun _ => rfl) fun _ => rfl
    rw [List.mem_singleton.mp he]
    cases entity <;> trivial
  | admitted step => exact step.logs ids rfl
  | observation legal id before step =>
    exact step.logs fun _ => show _ ∈ _ by rw [before]; exact legal
  | forced id step unlogged => exact step.logs fun hne => absurd unlogged hne
  | created owner attempt path unjudged step => exact step.logs ids
  | run legal id before step => exact step.logs (show _ ∈ _ by rw [before]; exact legal)
  | exhausted step | marked step => exact step.logs
  | accepted id before step => exact step.logs (by simp [RunEdge, before, judged, runTransitions])
  | discarded id before step => exact step.logs (by simp [RunEdge, before, judged, runTransitions])
  | reprocessed id found stored before step added =>
    refine reprocessed_logs ids step added ?_
    rcases before with hs | hs <;> simp [RunEdge, hs, judged, runTransitions]

structure Logged (db : Db) : Prop where
  ids : db.Ids
  obs : ∀ oid, Trail ObsEdge .planned (db.obsTrail oid) (db.obsState oid)
  run : ∀ rid, Trail RunEdge .queued (db.runTrail rid) (db.runState rid)

namespace Logged

theorem empty : Db.empty.Logged where
  ids := lawful_empty.ids
  obs _ := .absent
  run _ := .absent

theorem call {q : Query} (h : db.Logged) (call : Call db q db') : db'.Logged where
  ids := call.ids h.ids
  obs oid := (h.obs oid).adds ((call.logs h.ids).obs oid)
  run rid := (h.run rid).adds ((call.logs h.ids).run rid)

theorem runTrail_of_none (h : db.Logged) {rid : Nat} (hnone : db.run? rid = none) :
    db.runTrail rid = [] := by
  have htrail := h.run rid
  rw [runState, hnone] at htrail
  exact htrail.nil_of_none

/-- The event that counts as an execution is the move from `QUEUED` to `RUNNING`. -/
theorem isExecution_iff {rid : Nat} {e : Event} :
    isExecution rid e = true ↔ runMove rid e = some (some .queued, .running) := by
  unfold isExecution
  split
  · simp [runMove]
  · rename_i hother
    simp only [Bool.false_eq_true, false_iff]
    intro hmove
    unfold runMove at hmove
    split at hmove
    · split at hmove
      · cases hmove
        exact hother _ _ rfl
      · cases hmove
    · cases hmove

/-- Only `QUEUED` leads to `RUNNING`, so an entry into it is an execution. -/
theorem executions (h : db.Logged) (rid : Nat) :
    db.runExecutionAttempts rid = entries .running (db.runTrail rid) := by
  unfold runExecutionAttempts entries
  rw [← List.countP_eq_length_filter, runTrail, List.countP_filterMap]
  refine List.countP_congr fun e he => ?_
  have hentry : ∀ m, runMove rid e = some m → m.2 = .running → m.1 = some .queued := by
    intro m hm hrunning
    obtain ⟨x, hx, hedge⟩ := (h.run rid).entered (List.mem_filterMap.mpr ⟨e, he, hm⟩)
      (by simp [hrunning])
    rw [hrunning] at hedge
    rw [hx]
    cases x <;> first | rfl | simp [RunEdge, runTransitions] at hedge
  rw [isExecution_iff]
  cases hmove : runMove rid e with
  | none => simp
  | some m =>
    obtain ⟨before, after⟩ := m
    simp only [Option.map_some, Option.getD_some, decide_eq_true_eq, Option.some.injEq,
      Prod.mk.injEq]
    exact ⟨And.right, fun hrunning => ⟨hentry _ hmove hrunning, hrunning⟩⟩

end Logged
end Sdpctl.Db
