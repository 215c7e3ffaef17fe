import Sdpctl.Store.Trails

/-!
The event log as a history. Whatever sequence of mutating methods is called on
an empty store, with whatever arguments, the events of each observation and of
each run tell how it came to its present state.
-/

namespace Sdpctl

open FileTree Journal

namespace Db

/-- `create_observation`: the caller names the directory. -/
def createObservation (db : Db) (msPath : Path) (reservedBytes : Nat) : Nat × Db :=
  db.insertObservation msPath reservedBytes

/-- `transition_run` with all of its parameters. -/
def transitionRunVerdict (db : Db) (rid : Nat) (expected new : RunState) (reason : String)
    (exitCode : Option Int) (qaVerdict qaNote : Option String) : Except Exn Db :=
  if new ∉ runTransitions expected then
    .error (.transitionError ("illegal run transition " ++ expected.name ++ "->" ++ new.name))
  else
    db.guardedRun rid expected
      (fun r => { r with
        state := new
        exitCode := exitCode <|> r.exitCode
        qaVerdict := qaVerdict <|> r.qaVerdict
        qaNote := qaNote <|> r.qaNote })
      (.run rid (some expected) (some new) reason)

theorem transitionRun_eq (db : Db) (rid : Nat) (expected new : RunState) (reason : String)
    (exitCode : Option Int) : db.transitionRun rid expected new reason exitCode =
      db.transitionRunVerdict rid expected new reason exitCode none none := by
  simp [transitionRun, transitionRunVerdict]

variable {db db' : Db}

theorem createObservation_added (msPath : Path) (reserved : Nat) :
    ObsAdded db (db.createObservation msPath reserved).2
      { id := db.obsSeq + 1, state := .planned, msPath, sizeBytes := 0, reservedBytes := reserved,
        error := none } where
  rows := rfl
  id := rfl
  runs := rfl
  obsSeq := rfl
  runSeq := rfl
  attempts rid := runExecutionAttempts_record _ (by simp [isExecution]) rid
  log := ⟨_, rfl⟩

theorem transitionRunVerdict_ok (ids : db.Ids) {rid : Nat} {expected new : RunState}
    {reason : String} {code : Option Int} {verdict note : Option String}
    (h : db.transitionRunVerdict rid expected new reason code verdict note = .ok db') :
    new ∈ runTransitions expected ∧ ∃ r, r.id = rid ∧ r.state = expected ∧ RunStep db db' r { r with
      state := new, exitCode := code <|> r.exitCode, qaVerdict := verdict <|> r.qaVerdict,
      qaNote := note <|> r.qaNote } := by
  unfold transitionRunVerdict at h
  split at h
  · cases h
  · rename_i hlegal
    exact ⟨by simpa using hlegal, guardedRun_ok ids (fun _ => rfl) (fun _ => rfl) (fun _ => rfl)
      (fun _ => rfl) (fun _ => rfl) (fun _ => rfl) h⟩

end Db

inductive Mutation where
  | createObservation (msPath : Path) (reservedBytes : Nat)
  | transitionRun (rid : Nat) (expected new : RunState) (reason : String) (exitCode : Option Int)
      (qaVerdict qaNote : Option String)
  | method (q : Query)

namespace Mutation

def run : Mutation → Db → Except Exn Db
  | .createObservation msPath reserved, db => .ok (db.createObservation msPath reserved).2
  | .transitionRun rid expected new reason code verdict note, db =>
      db.transitionRunVerdict rid expected new reason code verdict note
  | .method q, db => (q.run db).map Prod.snd

/-- The tables after a call; one that raises is rolled back. -/
def apply (m : Mutation) (db : Db) : Db :=
  match m.run db with
  | .ok db' => db'
  | .error _ => db

def applyAll (db : Db) (calls : List Mutation) : Db := calls.foldl (fun db m => m.apply db) db

/-- How many of the calls took the run into the state. -/
def entered (rid : Nat) (state : RunState) : Db → List Mutation → Nat
  | _, [] => 0
  | db, m :: rest =>
      (if (m.apply db).runState rid = some state ∧ db.runState rid ≠ some state then 1 else 0) +
        entered rid state (m.apply db) rest

variable {db db' : Db} {m : Mutation}

theorem run_logs (ids : db.Ids) (h : m.run db = .ok db') : db'.Ids ∧ Db.Logs db db' := by
  cases m with
  | createObservation msPath reserved =>
    cases h
    have hadded : Db.ObsAdded db _ _ := Db.createObservation_added msPath reserved
    exact ⟨hadded.ids ids, hadded.logs ids rfl⟩
  | transitionRun rid expected new reason code verdict note =>
    obtain ⟨hlegal, r, _, hbefore, hstep⟩ := Db.transitionRunVerdict_ok ids h
    refine ⟨hstep.ids ids, hstep.logs ?_⟩
    rw [hbefore]
    exact hlegal
  | method q =>
    obtain ⟨⟨y, db''⟩, hrun, rfl⟩ := map_ok h
    have hcall := Db.Call.of_run ids hrun
    exact ⟨hcall.ids ids, hcall.logs ids⟩

theorem apply_logs (ids : db.Ids) (m : Mutation) : (m.apply db).Ids ∧ Db.Logs db (m.apply db) := by
  unfold apply
  split
  · rename_i db' hrun
    exact run_logs ids hrun
  · exact ⟨ids, fun _ => .idle, fun _ => .idle⟩

end Mutation

namespace Db.Logged

variable {db : Db}

theorem apply (h : db.Logged) (m : Mutation) : (m.apply db).Logged := by
  obtain ⟨ids, hlogs⟩ := Mutation.apply_logs h.ids m
  exact ⟨ids, fun oid => (h.obs oid).adds (hlogs.obs oid),
    fun rid => (h.run rid).adds (hlogs.run rid)⟩

theorem applyAll (h : db.Logged) (calls : List Mutation) : (Mutation.applyAll db calls).Logged := by
  induction calls generalizing db with
  | nil => exact h
  | cons m rest ih => exact ih (h.apply m)

/-- A log without loops counts the entries of the calls that it records. -/
theorem entered (h : db.Logged) (rid : Nat) (state : RunState) (calls : List Mutation) :
    entries state ((Mutation.applyAll db calls).runTrail rid) =
      entries state (db.runTrail rid) + Mutation.entered rid state db calls := by
  induction calls generalizing db with
  | nil => rfl
  | cons m rest ih =>
    have hfirst := ((Mutation.apply_logs h.ids m).2.run rid).entries runEdge_loop state
    have hrest := ih (h.apply m)
    simp only [Mutation.applyAll, List.foldl_cons, Mutation.entered] at hrest ⊢
    omega

end Db.Logged

/-- After any calls of the store, raising or not, the log of every observation and
of every run is a faithful history, and the executions are the entries into
`RUNNING`. -/
theorem event_log_faithful (calls : List Mutation) :
    (∀ oid o, (Mutation.applyAll Db.empty calls).obs? oid = some o →
      Faithful Db.ObsEdge .planned ((Mutation.applyAll Db.empty calls).obsTrail oid) o.state) ∧
    (∀ rid r, (Mutation.applyAll Db.empty calls).run? rid = some r →
      Faithful Db.RunEdge .queued ((Mutation.applyAll Db.empty calls).runTrail rid) r.state) ∧
    (∀ rid, (Mutation.applyAll Db.empty calls).runExecutionAttempts rid =
      Mutation.entered rid .running Db.empty calls) ∧
    ∀ oid, (Mutation.applyAll Db.empty calls).observationExecutionAttempts oid =
      (((Mutation.applyAll Db.empty calls).runsOf oid).map fun r =>
        Mutation.entered r.id .running Db.empty calls).sum := by
  have hlogged := Db.Logged.empty.applyAll calls
  have hruns : ∀ rid, (Mutation.applyAll Db.empty calls).runExecutionAttempts rid =
      Mutation.entered rid .running Db.empty calls := by
    intro rid
    rw [hlogged.executions, Db.Logged.empty.entered]
    simp [Db.runTrail, Db.empty, entries]
  refine ⟨fun oid o ho => ?_, fun rid r hr => ?_, hruns, fun oid => ?_⟩
  · have htrail := hlogged.obs oid
    rw [Db.obsState, ho] at htrail
    exact htrail.faithful
  · have htrail := hlogged.run rid
    rw [Db.runState, hr] at htrail
    exact htrail.faithful
  · rw [Db.observationExecutionAttempts_eq]
    simp only [hruns]

end Sdpctl
