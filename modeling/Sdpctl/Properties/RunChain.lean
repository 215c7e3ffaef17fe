import Sdpctl.Programs.Sound

/-!
The chain of runs: in every reachable state the runs of an observation carry the
attempts from one on, in the order of their ids, and only the last one is open.
Both functions that create a run compute the attempt that the chain expects.
-/

namespace Sdpctl

open FileTree Coop

variable {T : Terms} {r : Role} {s s' : Shared}

/-- Runs without any limit: every operation may fail, every stop may raise, processes may die at
any point, and the environment moves as it likes. -/
def unlimited : Limits where
  terms := .any

theorem unlimited_ok {w : World Op.Reply Exn Shared Role Entry}
    (l : Label Role Entry Choice Env) : unlimited.ok w l := by
  cases l with
  | run pid c => exact fun _ _ _ _ _ => ⟨⟨by simp [unlimited], by simp [unlimited]⟩, trivial⟩
  | env e => exact ⟨by simp [Terms.Calm, unlimited], trivial⟩
  | enter | stop | crash => trivial

namespace Chain

variable {rs : List ProcessingRun} {q : ProcessingRun}

theorem attempt_le (h : Chain rs) {run : ProcessingRun} (hr : run ∈ rs)
    (hopen : run.state ≠ .superseded) (hq : q ∈ rs) : q.attempt ≤ run.attempt := by
  obtain ⟨pre, rfl, _⟩ := h.split hr hopen
  have hlast := h.attempt_eq_length
  have hmem : q.attempt ∈ (pre ++ [run]).map (·.attempt) := List.mem_map_of_mem hq
  rw [h.attempts, List.mem_range'_1] at hmem
  simp only [List.length_append, List.length_singleton] at hmem
  omega

theorem length_open_le (h : Chain rs) (hnodup : (rs.map ProcessingRun.id).Nodup)
    (p : ProcessingRun → Bool) (hp : ∀ x, p x = true → x.state ≠ .superseded) :
    (rs.filter p).length ≤ 1 := by
  cases hfilter : rs.filter p with
  | nil => simp
  | cons x rest =>
    cases rest with
    | nil => simp
    | cons y rest =>
      have hx : x ∈ rs.filter p := by simp [hfilter]
      have hy : y ∈ rs.filter p := by simp [hfilter]
      obtain ⟨hx, hpx⟩ := List.mem_filter.mp hx
      obtain ⟨hy, hpy⟩ := List.mem_filter.mp hy
      have hxy : x = y := h.unique hx hy (hp x hpx) (hp y hpy)
      have hsub := hnodup.sublist ((List.filter_sublist (p := p)).map ProcessingRun.id)
      simp [hfilter, hxy] at hsub

end Chain

namespace Db

variable {db db' : Db} {dropped : List Nat}

/-- The rows of the run table stand in the order of their ids. -/
def RunsOrdered (db : Db) : Prop := (db.processingRuns.map ProcessingRun.id).Pairwise (· < ·)

theorem RunsOrdered.runsOf (h : db.RunsOrdered) (oid : Nat) :
    (db.runsOf oid).Pairwise fun a b => a.id < b.id :=
  (List.pairwise_map.mp h).sublist List.filter_sublist

theorem RunsOrdered.congr (h : db.RunsOrdered)
    (hids : db'.processingRuns.map ProcessingRun.id = db.processingRuns.map ProcessingRun.id) :
    db'.RunsOrdered := by
  unfold RunsOrdered
  rw [hids]
  exact h

theorem RunsOrdered.runStep {q q' : ProcessingRun} (h : db.RunsOrdered)
    (step : RunStep db db' q q') : db'.RunsOrdered :=
  h.congr (by rw [step.rows, Keyed.keys_replace])

theorem RunsOrdered.runAdded {q : ProcessingRun} (h : db.RunsOrdered) (ids : db.Ids)
    (step : RunAdded db db' q) : db'.RunsOrdered := by
  unfold RunsOrdered
  rw [step.rows, List.map_append, List.pairwise_append]
  refine ⟨h, List.pairwise_singleton _ _, fun i hi j hj => ?_⟩
  obtain ⟨x, hx, rfl⟩ := List.mem_map.mp hi
  obtain rfl : j = q.id := by simpa using hj
  have hle := ids.runBound x hx
  rw [step.id]
  omega

theorem decideRun_error {rid : Nat} {expected new : RunState} {verdict note reason : String}
    {e : Exn} (h : db.decideRun rid expected new verdict note reason = .error e) :
    ∃ m, e = .transitionError m := by
  unfold decideRun guardedRun at h
  split at h <;> cases h
  exact ⟨_, rfl⟩

theorem qaTarget_error {rid : Nat} {states : List RunState} {complaint : RunState → String}
    {e : Exn} (h : db.qaTarget rid states complaint = .error e) :
    (∃ i, e = .keyError i) ∨ ∃ m, e = .transitionError m := by
  unfold qaTarget at h
  repeat' split at h
  all_goals cases h
  · exact .inl ⟨_, rfl⟩
  · exact .inr ⟨_, rfl⟩
  · exact .inl ⟨_, rfl⟩
  · exact .inr ⟨_, rfl⟩
  · exact .inr ⟨_, rfl⟩

theorem Lawful.next_unused (h : db.Lawful dropped) {rid : Nat} {run : ProcessingRun}
    (hrun : db.run? rid = some run) (hopen : run.state ≠ .superseded) {x : ProcessingRun}
    (hx : x ∈ db.runsOf run.observationId) : x.attempt ≠ run.attempt + 1 := by
  have hle := (h.chain _).attempt_le (Lawful.mem_runsOf_of_run? hrun) hopen hx
  omega

theorem Lawful.next_unused_judged {mid : Db} (h : db.Lawful dropped) {run run' : ProcessingRun}
    (step : RunStep db mid run run') (hopen : run.state ≠ .superseded) :
    ((mid.runsOf run.observationId).any fun x => x.attempt == run.attempt + 1) = false := by
  refine List.any_eq_false.mpr fun x hx => ?_
  rw [step.runsOf h.ids] at hx
  rcases Keyed.mem_replace hx with rfl | ⟨hx, _⟩
  · simp [step.attempt]
  · simpa using h.next_unused step.found hopen hx

theorem Lawful.reprocess_unique (h : db.Lawful dropped) (rid : Nat) (outputPrefix logPath : Path)
    (note m : String) :
    db.reprocessRunAndCreate rid outputPrefix logPath note ≠ .error (.integrityError m) := by
  intro herr
  simp only [reprocessRunAndCreate, bind, Except.bind] at herr
  split at herr
  · rename_i e htarget
    cases herr
    rcases qaTarget_error htarget with ⟨_, he⟩ | ⟨_, he⟩ <;> cases he
  · rename_i target htarget
    obtain ⟨run, obs⟩ := target
    obtain ⟨hrun, hstate, hobs, -, -⟩ := qaTarget_ok htarget
    simp only at herr
    split at herr
    · cases herr
    · split at herr
      · rename_i e hdecide
        cases herr
        obtain ⟨_, he⟩ := decideRun_error hdecide
        cases he
      · rename_i mid hmid
        obtain ⟨-, step⟩ := decideRun_ok h.ids hrun hmid
        have hopen : run.state ≠ .superseded := by
          rcases List.mem_cons.mp hstate with hs | hs
          · simp [hs]
          · simp [List.mem_singleton.mp hs]
        -- the open run is the last one, so nobody has the next attempt
        have hfree := h.next_unused_judged step hopen
        have hobsId := (mem_of_obs? hobs).2
        rw [← hobsId] at hobs hfree
        simp [insertRun, step.obs?, hobs, hfree] at herr

/-- Reprocessing succeeds on an open run of a stored observation with no other
active run. -/
theorem Lawful.reprocess_ok (h : db.Lawful dropped) {rid : Nat} {run : ProcessingRun}
    {o : Observation} (hrun : db.run? rid = some run)
    (hstate : run.state = .awaitingQa ∨ run.state = .failed)
    (hobs : db.obs? run.observationId = some o) (hstored : o.state = .stored)
    (hactive : db.hasOtherActiveRuns run.observationId rid = false)
    (outputPrefix logPath : Path) (note : String) :
    ∃ new db', db.reprocessRunAndCreate rid outputPrefix logPath note = .ok (new, db') := by
  have hid := (mem_of_obs? hobs).2
  have htarget : ∀ complaint, db.qaTarget rid [.awaitingQa, .failed] complaint = .ok (run, o) := by
    intro complaint
    simp [qaTarget, hrun, hstate, hobs, hstored, hid, hactive]
  have hlegal : RunState.superseded ∈ runTransitions run.state := by
    rcases hstate with hs | hs <;> simp [hs, runTransitions]
  obtain ⟨mid, hmid⟩ : ∃ mid, db.decideRun rid run.state .superseded "reprocess" note
      "human requested reprocessing" = .ok mid := guardedRun_found h.ids hrun _ _
  obtain ⟨-, step⟩ := decideRun_ok h.ids hrun hmid
  have hfree := h.next_unused_judged step (by rcases hstate with hs | hs <;> simp [hs])
  rw [← hid] at hobs hfree
  simp [reprocessRunAndCreate, htarget, bind, Except.bind, hlegal, hmid, insertRun, step.obs?, hobs,
    hfree]

theorem nextAttempt_of_none {oid : Nat} (h : db.runsOf oid = []) : db.nextAttempt oid = 1 := by
  simp [nextAttempt, h]

end Db

theorem DbMove.runsOrdered {db' : Db} (hinv : Inv T s) (h : s.db.RunsOrdered)
    (move : DbMove T r s db') : db'.RunsOrdered := by
  cases move with
  | events observations runs => exact h.congr (by rw [runs])
  | obs step move => exact h.congr (by rw [step.runs])
  | run step move => exact h.runStep step
  | marked role step =>
    refine h.congr ?_
    rw [step.rows, List.map_map]
    exact List.map_congr_left fun q _ => Db.mark_id _ q
  | admitted step state path size admits => exact h.congr (by rw [step.runs])
  | created step attempt creates => exact h.runAdded hinv.db.ids step
  | released role step =>
    obtain ⟨mid, hrun, hobs⟩ := step.steps
    exact (h.runStep hrun).congr (by rw [hobs.runs])
  | reprocessed role step added => exact (h.runStep step).runAdded (step.ids hinv.db.ids) added

theorem ordered_keeps : unlimited.Keeps fun s => s.db.RunsOrdered where
  start := List.Pairwise.nil
  op hinv h _ hallowed _ _ hexec := by
    cases exec_step hinv hallowed hexec with
    | db move => exact move.runsOrdered hinv h
    | remove | prune => simpa using h
    | _ => exact h
  env _ h _ _ henv := by rw [(env_move henv).db]; exact h
  enter _ h _ henter := by rw [(enter_same henter).1]; exact h
  down _ h := h

/-- A failed run that is queued again is the only active one of its observation. -/
theorem Db.Lawful.retry_single {db db' : Db} {dropped : List Nat} (h : db.Lawful dropped)
    {rid : Nat} {reason : String} {code : Option Int}
    (hretry : db.transitionRun rid .failed .queued reason code = .ok db') (oid : Nat) :
    ((db'.runsOf oid).filter Db.isActive).length ≤ 1 := by
  obtain ⟨-, q, -, hstate, step⟩ := Db.transitionRun_ok h.ids hretry
  have hchain := h.runStep_chain step (by simp [hstate]) (by simp) oid
  have hnodup : ((db'.runsOf oid).map ProcessingRun.id).Nodup :=
    (step.ids h.ids).runNodup.sublist (List.filter_sublist.map _)
  refine hchain.length_open_le hnodup Db.isActive fun x hx => ?_
  simp only [Db.isActive, activeRunStates, List.mem_cons, List.not_mem_nil, or_false,
    decide_eq_true_eq] at hx
  rcases hx with hs | hs | hs <;> simp [hs]

/-- In every reachable state the runs of an observation, in the order of their
ids, carry the attempts from one on, and all but the last are superseded. So the
attempt of a reprocessing is always new, the first run is always attempt one,
and an automatic retry never adds a second active run. -/
theorem run_chain {w : World Op.Reply Exn Shared Role Entry} (h : unlimited.Reach w) :
    (∀ oid,
      ((w.shared.db.runsOf oid).Pairwise fun a b => a.id < b.id) ∧
      (w.shared.db.runsOf oid).map (·.attempt) =
        List.range' 1 (w.shared.db.runsOf oid).length ∧
      (∀ q ∈ (w.shared.db.runsOf oid).dropLast, q.state = .superseded) ∧
      ((w.shared.db.runsOf oid).filter fun q => q.state = .queued ∨ q.state = .running ∨
        q.state = .awaitingQa ∨ q.state = .failed).length ≤ 1) ∧
    (∀ rid outputPrefix logPath note m,
      w.shared.db.reprocessRunAndCreate rid outputPrefix logPath note ≠
        .error (.integrityError m)) ∧
    (∀ (pid : Nat) p oid outputPrefix logPath next, w.procs[pid]? = some p →
      p.code = .op (.db (.createRun oid outputPrefix logPath)) next →
      w.shared.db.nextAttempt oid = 1 ∧ outputPrefix = outputDir oid 1 ++ ["product"]) ∧
    ∀ rid reason code db', w.shared.db.transitionRun rid .failed .queued reason code = .ok db' →
      ∀ oid, ((db'.runsOf oid).filter Db.isActive).length ≤ 1 := by
  have hinv := h.inv
  refine ⟨fun oid => ?_, hinv.db.reprocess_unique, ?_, fun _ _ _ _ => hinv.db.retry_single⟩
  · have hchain := hinv.db.chain oid
    refine ⟨(h.keeps ordered_keeps).runsOf oid, hchain.attempts, fun q hq => ?_, ?_⟩
    · have hne : w.shared.db.runsOf oid ≠ [] := fun hnil => by simp [hnil] at hq
      have hpair := hchain.earlier
      rw [← List.dropLast_concat_getLast hne, List.pairwise_append] at hpair
      exact hpair.2.2 q hq _ (List.mem_singleton_self _)
    · refine hchain.length_open_le (hinv.db.runsOf_nodup oid) _ fun q hq => ?_
      have hstate := of_decide_eq_true hq
      rcases hstate with hs | hs | hs | hs <;> simp [hs]
  · intro pid p oid outputPrefix logPath next hp hcode
    have hallowed := h.allowed hp hcode (c := .ok) ⟨by simp [unlimited], by simp [unlimited]⟩
    exact ⟨Db.nextAttempt_of_none hallowed.none, hallowed.path⟩

/-- The first run of an observation fails, and an operator asks for another. -/
def reprocessing : List (Label Role Entry Choice Env) :=
  firstRun ++ steps 3 6 ++ [.run 3 (.exit 1)] ++ steps 3 3 ++
    [.enter .cli (.command (.reprocess 1 "again"))] ++ steps 4 5

/-- After a reprocessing the observation has the attempts one and two, and the first of the two
is superseded. -/
theorem run_chain_reprocessing : ∃ w, unlimited.Reach w ∧
    (w.shared.db.runsOf 1).map (·.attempt) = [1, 2] ∧
    ∀ q ∈ (w.shared.db.runsOf 1).dropLast, q.state = .superseded := by
  obtain ⟨w, hreach, htest⟩ := unlimited.reach_of_replay harmless
    (fun w l h => harmless_ok h (fun _ _ _ => trivial) (fun _ _ _ _ _ => trivial)
      fun _ _ _ => trivial)
    reprocessing (fun w => (w.shared.db.runsOf 1).length = 2) (by decide +kernel)
  obtain ⟨_, hattempts, hlast, _⟩ := (run_chain hreach).1 1
  rw [of_decide_eq_true htest] at hattempts
  exact ⟨w, hreach, hattempts, hlast⟩

end Sdpctl
