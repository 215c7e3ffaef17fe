import Sdpctl.Programs.Proper
import Sdpctl.Properties.QaList

/-!
The columns of a row agree with its state. In every reachable state an observation holds
a reservation only before its data is stored and a size only while it is, a run that has
ended has an exit code, and a verdict is the one that its state says; so the totals of
`logical_storage` are those of the whole table.
-/

namespace Sdpctl

open FileTree Coop

/-- What the columns of an observation say, by its state. -/
structure Observation.Coherent (o : Observation) : Prop where
  reserved : o.state ≠ .planned → o.state ≠ .observing → o.reservedBytes = 0
  size : o.state ≠ .stored → o.state ≠ .deleting → o.sizeBytes = 0
  error : o.state = .observeFailed ∨ o.state = .inconsistent → o.error.isSome = true

def RunState.verdict : RunState → Option String
  | .accepted => some "accept"
  | .superseded => some "reprocess"
  | .discarded => some "discard"
  | _ => none

/-- What the columns of a run say, by its state. -/
structure ProcessingRun.Coherent (r : ProcessingRun) : Prop where
  verdict : r.qaVerdict = r.state.verdict
  delivered : r.state = .awaitingQa ∨ r.state = .accepted → r.exitCode = some 0
  ended : r.state ≠ .queued → r.state ≠ .running → r.exitCode.isSome = true

structure Db.Coherent (db : Db) : Prop where
  observations : ∀ o ∈ db.observations, o.Coherent
  runs : ∀ r ∈ db.processingRuns, r.Coherent

section Rows

theorem planned_coherent (db : Db) (reserved : Nat) : (db.planned reserved).Coherent where
  reserved h := absurd rfl h
  size _ _ := rfl
  error h := by
    rcases h with h | h <;> cases h

theorem Observation.Coherent.moves {o : Observation} (h : o.Coherent) {new : ObservationState}
    {size reserved : Option Nat} {error : Option String} (legal : new ∈ obsTransitions o.state)
    (writes : new.Writes size reserved error) :
    Observation.Coherent { o with
      state := new, sizeBytes := size.getD o.sizeBytes,
      reservedBytes := reserved.getD o.reservedBytes, error := error <|> o.error } := by
  have hbefore : new = .observing → o.sizeBytes = 0 := by
    rintro rfl
    apply h.size <;> intro hs <;> simp [hs, obsTransitions] at legal
  have hdeleting : new = .deleting → o.reservedBytes = 0 := by
    rintro rfl
    apply h.reserved <;> intro hs <;> simp [hs, obsTransitions] at legal
  have hfailed : new = .observeFailed → o.sizeBytes = 0 := by
    rintro rfl
    apply h.size <;> intro hs <;> simp [hs, obsTransitions] at legal
  cases new with
  | planned => exact writes.elim
  | observing =>
    obtain ⟨rfl, rfl⟩ := writes
    exact ⟨fun _ hne => absurd rfl hne, fun _ _ => hbefore rfl, by simp⟩
  | stored =>
    cases writes
    exact ⟨fun _ _ => rfl, fun hne => absurd rfl hne, by simp⟩
  | deleting =>
    obtain ⟨rfl, rfl⟩ := writes
    exact ⟨fun _ _ => hdeleting rfl, fun _ hne => absurd rfl hne, by simp⟩
  | deleted =>
    obtain ⟨rfl, rfl⟩ := writes
    exact ⟨fun _ _ => rfl, fun _ _ => rfl, by simp⟩
  | observeFailed =>
    obtain ⟨rfl, rfl, herror⟩ := writes
    obtain ⟨e, rfl⟩ := Option.isSome_iff_exists.mp herror
    exact ⟨fun _ _ => rfl, fun _ _ => hfailed rfl, fun _ => rfl⟩
  | inconsistent =>
    obtain ⟨rfl, rfl, herror⟩ := writes
    obtain ⟨e, rfl⟩ := Option.isSome_iff_exists.mp herror
    exact ⟨fun _ _ => rfl, fun _ _ => rfl, fun _ => rfl⟩

theorem Observation.Coherent.noted {o : Observation} (h : o.Coherent) (error : Option String) :
    Observation.Coherent { o with error := error <|> o.error } where
  reserved := h.reserved
  size := h.size
  error hs := by
    cases error with
    | none => exact h.error hs
    | some e => rfl

theorem queued_coherent {r : ProcessingRun} (state : r.state = .queued)
    (unjudged : r.qaVerdict = none) : r.Coherent where
  verdict := by rw [unjudged, state]; rfl
  delivered h := by
    rcases h with h | h <;> rw [state] at h <;> cases h
  ended h := absurd state h

theorem ProcessingRun.Coherent.moves {r : ProcessingRun} (h : r.Coherent) {new : RunState}
    {code : Option Int} (legal : new ∈ runTransitions r.state) (writes : new.Writes code) :
    ProcessingRun.Coherent { r with state := new, exitCode := code <|> r.exitCode } := by
  have hopen : r.qaVerdict = none := by
    rw [h.verdict]
    cases hs : r.state <;> first | rfl | simp [hs, runTransitions] at legal
  cases new with
  | queued => exact queued_coherent rfl hopen
  | running =>
    refine ⟨hopen, fun hs => ?_, fun _ hne => absurd rfl hne⟩
    rcases hs with hs | hs <;> cases hs
  | awaitingQa =>
    cases writes
    exact ⟨hopen, fun _ => rfl, fun _ _ => rfl⟩
  | failed =>
    obtain ⟨c, rfl⟩ := Option.isSome_iff_exists.mp writes
    refine ⟨hopen, fun hs => ?_, fun _ _ => rfl⟩
    rcases hs with hs | hs <;> cases hs
  | accepted | superseded | discarded => exact writes.elim

theorem ProcessingRun.Coherent.judged {r : ProcessingRun} (h : r.Coherent) {new : RunState}
    {verdict note : String} (goes : new.verdict = some verdict)
    (before : r.state = .awaitingQa ∨ r.state = .failed)
    (accepts : new = .accepted → r.state = .awaitingQa) :
    (Db.judged r new verdict note).Coherent where
  verdict := goes.symm
  delivered hs := by
    rcases hs with hs | hs
    · rw [show new = .awaitingQa from hs] at goes
      cases goes
    · exact h.delivered (.inl (accepts hs))
  ended _ _ := by
    apply h.ended <;> intro hs <;> simp [hs] at before

theorem ProcessingRun.Coherent.mark {r : ProcessingRun} (h : r.Coherent)
    (hit : ProcessingRun → Bool) : (Db.mark hit r).Coherent := by
  unfold Db.mark
  split
  · exact ⟨h.verdict, h.delivered, h.ended⟩
  · exact h

end Rows

namespace Db

variable {db db' : Db} {q : Query}

theorem ObsStep.coherent {o o' : Observation} (step : ObsStep db db' o o') (h : db.Coherent)
    (row : o.Coherent → o'.Coherent) : db'.Coherent where
  observations x hx := by
    rw [step.rows] at hx
    rcases Keyed.mem_replace hx with rfl | ⟨hmem, _⟩
    · exact row (h.observations o (mem_of_obs? step.found).1)
    · exact h.observations x hmem
  runs := by
    rw [step.runs]
    exact h.runs

theorem RunStep.coherent {r r' : ProcessingRun} (step : RunStep db db' r r') (h : db.Coherent)
    (row : r.Coherent → r'.Coherent) : db'.Coherent where
  observations := by
    rw [step.observations]
    exact h.observations
  runs x hx := by
    rw [step.rows] at hx
    rcases Keyed.mem_replace hx with rfl | ⟨hmem, _⟩
    · exact row (h.runs r (mem_of_run? step.found).1)
    · exact h.runs x hmem

theorem RunAdded.coherent {r : ProcessingRun} (step : RunAdded db db' r) (h : db.Coherent)
    (unjudged : r.qaVerdict = none) : db'.Coherent where
  observations := by
    rw [step.observations]
    exact h.observations
  runs x hx := by
    rw [step.rows] at hx
    rcases List.mem_append.mp hx with hx | hx
    · exact h.runs x hx
    · rw [List.mem_singleton.mp hx]
      exact queued_coherent step.state unjudged

theorem Marked.coherent {hit : ProcessingRun → Bool} (step : Marked db db' hit)
    (h : db.Coherent) : db'.Coherent where
  observations := by
    rw [step.observations]
    exact h.observations
  runs x hx := by
    rw [step.rows] at hx
    obtain ⟨r, hr, rfl⟩ := List.mem_map.mp hx
    exact (h.runs r hr).mark hit

theorem Releases.coherent {oid : Nat} {r : ProcessingRun} {new : RunState} {verdict note : String}
    {o : Observation} (step : Releases db db' oid r (judged r new verdict note) o)
    (h : db.Coherent) (goes : new.verdict = some verdict)
    (accepts : new = .accepted → r.state = .awaitingQa) : db'.Coherent := by
  obtain ⟨mid, hrun, hobs⟩ := step.steps
  refine hobs.coherent (hrun.coherent h fun hr => hr.judged goes step.open_ accepts) fun ho => ?_
  have hlegal : ObservationState.deleting ∈ obsTransitions o.state := by
    simp [step.stored, obsTransitions]
  have hwrites : ObservationState.deleting.Writes none none none := ⟨rfl, rfl⟩
  simpa using ho.moves hlegal hwrites

/-- A method that writes what goes with its target state keeps the rows coherent. -/
theorem Call.coherent (call : Call db q db') (proper : q.Proper) (h : db.Coherent) :
    db'.Coherent := by
  cases call with
  | same | unforced => exact h
  | noted => exact ⟨h.observations, h.runs⟩
  | @admitted reserved _ step =>
    refine ⟨fun x hx => ?_, ?_⟩
    · rw [step.rows] at hx
      rcases List.mem_append.mp hx with hx | hx
      · exact h.observations x hx
      · rw [List.mem_singleton.mp hx]
        exact planned_coherent db reserved
    · rw [step.runs]
      exact h.runs
  | observation legal id before step =>
    subst before
    exact step.coherent h fun ho => ho.moves legal proper
  | @forced oid reserved error _ o id step unlogged =>
    cases proper
    exact step.coherent h fun ho => ho.noted error
  | created owner attempt path unjudged step => exact step.coherent h unjudged
  | run legal id before step =>
    subst before
    exact step.coherent h fun hr => hr.moves legal proper
  | exhausted step => exact step.coherent h
  | marked step => exact step.coherent h
  | accepted id before step => exact step.coherent h rfl fun _ => before
  | discarded id before step => exact step.coherent h rfl fun heq => by cases heq
  | reprocessed id found stored before step added owner attempt path unjudged =>
    refine added.coherent (step.coherent h fun hr => ?_) unjudged
    exact hr.judged rfl before fun heq => by cases heq

theorem coherent_empty : empty.Coherent := ⟨by simp [empty], by simp [empty]⟩

/-- Where the rows are coherent, nothing outside of the counted states weighs anything. -/
theorem Coherent.logicalStorage (h : db.Coherent) : db.logicalStorage =
    ((db.observations.map (·.sizeBytes)).sum, (db.observations.map (·.reservedBytes)).sum) := by
  rw [logicalStorage_eq, used, reserved]
  refine congrArg₂ Prod.mk (congrArg List.sum (List.map_congr_left fun o ho => ?_))
    (congrArg List.sum (List.map_congr_left fun o ho => ?_))
  · have hsize := (h.observations o ho).size
    unfold usedBy
    split
    · rfl
    · rename_i hnot
      simp only [countsUsed, List.mem_cons, List.not_mem_nil, or_false, decide_eq_true_eq,
        not_or] at hnot
      exact (hsize hnot.1 hnot.2.1).symm
  · have hreserved := (h.observations o ho).reserved
    unfold reservedBy
    split
    · rfl
    · rename_i hnot
      simp only [countsReserved, List.mem_cons, List.not_mem_nil, or_false, decide_eq_true_eq,
        not_or] at hnot
      exact (hreserved hnot.1 hnot.2).symm

end Db

/-- In every reachable state the columns of every row fit its state and each other, and
`logical_storage`, which asks for the rows of some states only, sums up the whole table. -/
theorem rows_coherent {L : Limits} {w : World Op.Reply Exn Shared Role Entry} (h : L.Reach w) :
    w.shared.db.Coherent ∧ w.shared.db.logicalStorage =
      ((w.shared.db.observations.map (·.sizeBytes)).sum,
        (w.shared.db.observations.map (·.reservedBytes)).sum) := by
  have hcoherent := h.tables Db.coherent_empty fun _ proper call => call.coherent proper
  exact ⟨hcoherent, hcoherent.logicalStorage⟩

/-- The first run waits for QA and has succeeded. Its observation is stored, and its size is all
that the ledger uses. -/
theorem rows_coherent_review : ∃ w, unlimited.Reach w ∧ w.shared.db.Coherent ∧
    w.shared.db.logicalStorage = ((w.shared.db.observations.map (·.sizeBytes)).sum,
      (w.shared.db.observations.map (·.reservedBytes)).sum) ∧
    (listQaItems w.shared.db).isEmpty = false := by
  obtain ⟨w, hreach, htest⟩ := unlimited.reach_of_replay (fun _ _ => true)
    (fun _ l _ => unlimited_ok l) firstReview (fun w => !(listQaItems w.shared.db).isEmpty)
    (by decide +kernel)
  obtain ⟨hcoherent, hledger⟩ := rows_coherent hreach
  exact ⟨w, hreach, hcoherent, hledger, by simpa using htest⟩

end Sdpctl
