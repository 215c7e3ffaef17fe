import Sdpctl.Sql.Statements
import Sdpctl.Store.Methods

/-!
The statements of a method, one after the other and with nobody in between, make of the
tables what the method is for.
-/

namespace Sdpctl

open Coop

namespace Body

theorem eval_then {α : Type} {st : Statement} {f : st.Answer → Body α} {db db' : Db}
    {y : st.Answer} (h : st.run db = .ok (y, db')) :
    ((execute st).bind f).eval Statement.run db = (f y).eval Statement.run db' := by
  rw [Tx.eval_bind, Tx.eval_execute, h]
  rfl

theorem createObservationAuto_eval (reserved : Nat) (db : Db) :
    (createObservationAuto reserved).eval Statement.run db =
      .ok (db.createObservationAuto reserved) := rfl

theorem updateObservation_eval (oid : Nat) (expected new : ObservationState) (reason : String)
    (size reserved : Option Nat) (error : Option String) (db : Db) :
    (updateObservation oid expected new reason size reserved error).eval Statement.run db =
      (db.guardedObs oid expected
        (fun o => { o with
          state := new
          sizeBytes := size.getD o.sizeBytes
          reservedBytes := reserved.getD o.reservedBytes
          error := error <|> o.error })
        (.observation oid (some expected) (some new) reason)).map fun db => ((), db) := by
  unfold updateObservation Db.guardedObs
  rw [Tx.bind_def, eval_then rfl]
  split <;> rfl

theorem updateRun_eval (rid : Nat) (expected new : RunState) (reason : String)
    (code : Option Int) (verdict note : Option String) (db : Db) :
    (updateRun rid expected new reason code verdict note).eval Statement.run db =
      (db.guardedRun rid expected
        (fun r => { r with
          state := new
          exitCode := code <|> r.exitCode
          qaVerdict := verdict <|> r.qaVerdict
          qaNote := note <|> r.qaNote })
        (.run rid (some expected) (some new) reason)).map fun db => ((), db) := by
  unfold updateRun Db.guardedRun
  rw [Tx.bind_def, eval_then rfl]
  split <;> rfl

theorem insertRun_eval (oid attempt : Nat) (outputPrefix logPath : FileTree.Path) (reason : String)
    (db : Db) : (insertRun oid attempt outputPrefix logPath reason).eval Statement.run db =
      db.insertRun oid attempt outputPrefix logPath reason := by
  unfold insertRun Db.insertRun
  rw [Tx.bind_def, Tx.eval_bind, Tx.eval_execute]
  simp only [Statement.run]
  split
  · rfl
  · split <;> rfl

theorem createRun_eval (oid : Nat) (outputPrefix logPath : FileTree.Path) (db : Db) :
    (createRun oid outputPrefix logPath).eval Statement.run db =
      db.createRun oid outputPrefix logPath := by
  unfold createRun Db.createRun
  rw [Tx.bind_def, eval_then rfl]
  exact insertRun_eval ..

theorem insertEvents_eval (event : Nat → Event) (ids : List Nat) (db : Db) :
    (Tx.forEach ids fun rid => execute (.insertEvent (event rid))).eval Statement.run db =
      .ok ((), db.record (ids.map event)) := by
  induction ids generalizing db with
  | nil => simp [Tx.forEach, Db.record]
  | cons rid rest ih =>
    rw [Tx.forEach, Tx.bind_def, eval_then rfl, ih]
    simp [Db.record]

theorem markExhaustedFailedRuns_eval (m : Nat) (db : Db) :
    (markExhaustedFailedRuns m).eval Statement.run db = .ok (db.markExhaustedFailedRuns m) := by
  unfold markExhaustedFailedRuns
  rw [Tx.bind_def, eval_then rfl, Tx.bind_def, Tx.eval_bind, insertEvents_eval]
  rfl

theorem markRunRetryExhausted_eval (rid : Nat) (reason : String) (db : Db) :
    (markRunRetryExhausted rid reason).eval Statement.run db =
      .ok ((), db.markRunRetryExhausted rid reason) := by
  unfold markRunRetryExhausted Db.markRunRetryExhausted
  rw [Tx.bind_def, eval_then rfl]
  simp only
  split <;> rfl

/-- The selection and the checks that the transactions of `qa.py` begin with. -/
theorem selectTarget_eval (rid : Nat) (states : List RunState) (complaint : RunState → String)
    {wrong : RunState → Option Exn}
    (hwrong : ∀ s, wrong s = if s ∉ states then some (.transitionError (complaint s)) else none)
    (db : Db) : (selectTarget rid wrong).eval Statement.run db =
      (db.qaTarget rid states complaint).map fun x => ((x.1, x.2.id), db) := by
  unfold selectTarget Db.qaTarget
  rw [Tx.bind_def, eval_then rfl]
  cases hrun : db.run? rid with
  | none => rfl
  | some run =>
    simp only [hwrong]
    by_cases hstate : run.state ∉ states
    · rw [if_pos hstate, if_pos hstate]
      rfl
    rw [if_neg hstate, if_neg hstate, Tx.bind_def, eval_then rfl]
    cases hobs : db.obs? run.observationId with
    | none => rfl
    | some obs =>
      have hid : obs.id = run.observationId := by simpa using List.find?_some hobs
      simp only [hid]
      by_cases hstored : obs.state ≠ .stored
      · rw [if_pos hstored, if_pos hstored]
        rfl
      rw [if_neg hstored, if_neg hstored, Tx.bind_def, eval_then rfl]
      split
      · rfl
      · show Except.ok ((run, run.observationId), db) = Except.ok ((run, obs.id), db)
        rw [hid]

theorem decideRun_eval (rid : Nat) (expected new : RunState) (verdict note reason : String)
    (db : Db) :
    (updateRun rid expected new reason none (some verdict) (some note)).eval Statement.run db =
      (db.decideRun rid expected new verdict note reason).map fun db => ((), db) :=
  updateRun_eval ..

theorem beginDeletion_eval (oid : Nat) (reason : String) (db : Db) :
    (updateObservation oid .stored .deleting reason none none none).eval Statement.run db =
      (db.beginDeletion oid reason).map fun db => ((), db) :=
  updateObservation_eval ..

theorem release_eval (rid oid : Nat) (expected new : RunState)
    (verdict note reason permits : String) (db : Db) :
    (do
      updateRun rid expected new reason none (some verdict) (some note)
      updateObservation oid .stored .deleting permits none none none
      return oid : Body Nat).eval Statement.run db =
      (do
        let db ← db.decideRun rid expected new verdict note reason
        let db ← db.beginDeletion oid permits
        return (oid, db)) := by
  rw [Tx.bind_def, Tx.eval_bind, decideRun_eval]
  cases db.decideRun rid expected new verdict note reason with
  | error e => rfl
  | ok mid =>
    show Tx.eval _ (Tx.bind _ _) mid = _
    rw [Tx.eval_bind, beginDeletion_eval]
    cases hdelete : mid.beginDeletion oid permits with
    | error e => simp only [bind, Except.bind, hdelete]; rfl
    | ok db' => simp only [bind, Except.bind, hdelete]; rfl

theorem acceptRunAndBeginDeletion_eval (rid : Nat) (note : String) (db : Db) :
    (acceptRunAndBeginDeletion rid note).eval Statement.run db =
      db.acceptRunAndBeginDeletion rid note := by
  unfold acceptRunAndBeginDeletion Db.acceptRunAndBeginDeletion
  rw [Tx.bind_def, Tx.eval_bind, selectTarget_eval rid [.awaitingQa]
    (fun _ => "run " ++ toString rid ++ " is not awaiting QA") (fun s => by cases s <;> rfl)]
  cases db.qaTarget rid [.awaitingQa] fun _ => "run " ++ toString rid ++ " is not awaiting QA" with
  | error e => rfl
  | ok x => exact release_eval ..

theorem discardFailedRunAndBeginDeletion_eval (rid : Nat) (note : String) (db : Db) :
    (discardFailedRunAndBeginDeletion rid note).eval Statement.run db =
      db.discardFailedRunAndBeginDeletion rid note := by
  unfold discardFailedRunAndBeginDeletion Db.discardFailedRunAndBeginDeletion
  rw [Tx.bind_def, Tx.eval_bind, selectTarget_eval rid [.failed]
    (fun _ => "run " ++ toString rid ++ " is not FAILED") (fun s => by cases s <;> rfl)]
  cases db.qaTarget rid [.failed] fun _ => "run " ++ toString rid ++ " is not FAILED" with
  | error e => rfl
  | ok x => exact release_eval ..

theorem reprocessRunAndCreate_eval (rid : Nat) (outputPrefix logPath : FileTree.Path)
    (note : String) (db : Db) :
    (reprocessRunAndCreate rid outputPrefix logPath note).eval Statement.run db =
      db.reprocessRunAndCreate rid outputPrefix logPath note := by
  unfold reprocessRunAndCreate Db.reprocessRunAndCreate
  rw [Tx.bind_def, Tx.eval_bind, selectTarget_eval rid [.awaitingQa, .failed]
    (fun s => "run " ++ toString rid ++ " is not reprocessable from " ++ s.name)
    (fun s => by cases s <;> rfl)]
  cases htarget : db.qaTarget rid [.awaitingQa, .failed] fun s =>
      "run " ++ toString rid ++ " is not reprocessable from " ++ s.name with
  | error e => rfl
  | ok x =>
    obtain ⟨run, obs⟩ := x
    have hlegal : RunState.superseded ∈ runTransitions run.state := by
      have hstate := (Db.qaTarget_ok htarget).2.1
      simp only [List.mem_cons, List.not_mem_nil, or_false] at hstate
      rcases hstate with h | h <;> rw [h] <;> decide
    show Tx.eval _ (Tx.bind _ _) db = _
    rw [Tx.eval_bind, decideRun_eval]
    simp only [bind, Except.bind, hlegal, not_true_eq_false, if_false]
    cases db.decideRun rid run.state .superseded "reprocess" note
        "human requested reprocessing" with
    | error e => rfl
    | ok mid => exact insertRun_eval ..

end Body

/-- A method that is a transaction: its statements come to what the method is. -/
theorem Query.method_eval {q : Query} {body : Body q.Reply} (h : q.method = .transaction body)
    (db : Db) : body.eval Statement.run db = q.run db := by
  cases q with
  | createObservationAuto reserved =>
    cases h
    exact Body.createObservationAuto_eval ..
  | transitionObservation oid expected new reason size reserved error =>
    simp only [Query.method] at h
    split at h
    · cases h
    · rename_i hlegal
      cases h
      rw [Body.updateObservation_eval, Query.run, Db.transitionObservation, if_neg hlegal]
  | forceObservationFields oid reserved error =>
    simp only [Query.method] at h
    split at h <;> cases h
    rfl
  | createRun oid outputPrefix logPath =>
    cases h
    exact Body.createRun_eval ..
  | transitionRun rid expected new reason code =>
    simp only [Query.method] at h
    split at h
    · cases h
    · rename_i hlegal
      cases h
      rw [Body.updateRun_eval, Query.run, Db.transitionRun, if_neg hlegal]
      rfl
  | recordEvent entity id reason =>
    cases h
    rfl
  | markExhaustedFailedRuns m =>
    cases h
    exact Body.markExhaustedFailedRuns_eval ..
  | markRunRetryExhausted rid reason =>
    cases h
    exact Body.markRunRetryExhausted_eval ..
  | acceptRunAndBeginDeletion rid note =>
    cases h
    exact Body.acceptRunAndBeginDeletion_eval ..
  | reprocessRunAndCreate rid outputPrefix logPath note =>
    cases h
    exact Body.reprocessRunAndCreate_eval ..
  | discardFailedRunAndBeginDeletion rid note =>
    cases h
    exact Body.discardFailedRunAndBeginDeletion_eval ..
  | _ => cases h

theorem Query.method_whole {q : Query} (h : q.method.isWhole = true) {db db' : Db} {y : q.Reply}
    (hrun : q.run db = .ok (y, db')) : db' = db := by
  cases q with
  | transitionObservation oid expected new reason size reserved error =>
    simp only [Query.method] at h
    split at h
    · rename_i hlegal
      rw [Query.run, Db.transitionObservation, if_pos hlegal] at hrun
      cases hrun
    · cases h
  | transitionRun rid expected new reason code =>
    simp only [Query.method] at h
    split at h
    · rename_i hlegal
      rw [Query.run, Db.transitionRun, if_pos hlegal] at hrun
      cases hrun
    · cases h
  | forceObservationFields oid reserved error =>
    simp only [Query.method] at h
    split at h
    · rename_i hnone
      obtain ⟨rfl, rfl⟩ := hnone
      cases hrun
      simp [Db.forceObservationFields, Db.updateObs]
    · cases h
  | getObservation oid =>
    simp only [Query.run] at hrun
    cases hget : db.getObservation oid <;> rw [hget] at hrun <;> cases hrun
    rfl
  | getRun rid =>
    simp only [Query.run] at hrun
    cases hget : db.getRun rid <;> rw [hget] at hrun <;> cases hrun
    rfl
  | createObservationAuto | createRun | recordEvent | markExhaustedFailedRuns
  | markRunRetryExhausted | acceptRunAndBeginDeletion | reprocessRunAndCreate
  | discardFailedRunAndBeginDeletion | logicalStorage => cases h
  | _ =>
    cases hrun
    rfl

end Sdpctl
