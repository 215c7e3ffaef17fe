import Sdpctl.Programs.Tables
import Sdpctl.Properties.RunChain
import Sdpctl.Store.Trails

/-!
The retry budget. The count of the executions of a run lives in the event log,
the mark of an exhausted run in its row, and the decision to retry in a snapshot
that is older than the requeue. The bound on executions holds all the same; the
bound on failures needs that no worker fails before its claim.
-/

namespace Sdpctl

open FileTree Coop Journal

variable {T : Terms} {L : Limits} {r : Role} {s : Shared} {db' : Db} {m : Nat}

def Enters (rid : Nat) (state : RunState) (s s' : Shared) : Prop :=
  s'.db.runState rid = some state ∧ s.db.runState rid ≠ some state

/-- The steps that take a run into a state are the entries of its log. -/
theorem Limits.tally_entries {rid : Nat} {state : RunState} {n : Nat}
    {w : World Op.Reply Exn Shared Role Entry}
    (h : system.Tally L.ok (Enters rid state) start n w) :
    n = entries state (w.shared.db.runTrail rid) := by
  refine h.invariant (fun n s => n = entries state (s.db.runTrail rid)) rfl ?_
  intro n w l w' hreach hn hok hstep
  have hinv := Limits.Reach.inv hreach
  rcases (Limits.Reach.shift hreach hok hstep).tables with hsame | ⟨_, q, y, _, _, _, hrun⟩
  · refine ⟨fun henters => ?_, fun _ => by rw [hsame]; exact hn⟩
    rw [Enters, hsame] at henters
    exact absurd henters.1 henters.2
  · have hcall := Db.Call.of_run hinv.db.ids hrun
    have hadds := ((hcall.logs hinv.db.ids).run rid).entries Db.runEdge_loop state
    constructor
    · intro henters
      rw [hadds, if_pos (show _ ∧ _ from henters), hn]
    · intro hother
      rw [hadds, if_neg (show ¬ (_ ∧ _) from hother), hn]
      rfl

/-- Every controller runs with the same budget of executions, of which the claims about retries
speak; nothing else is limited. -/
def budgeted (m : Nat) : Limits where
  terms := .any
  enter _ n := ∀ cfg, n = .run cfg → cfg.maxProcessingAttempts = m

theorem executes_iff {rid : Nat} {q : Query} (h : q.executes rid = true) :
    ∃ reason code, q = .transitionRun rid .queued .running reason code := by
  unfold Query.executes at h
  split at h
  · rw [beq_iff_eq] at h
    subst h
    exact ⟨_, _, rfl⟩
  · cases h

/-- No run has been executed more than `m` times, and a queued one less often, so that its next
execution still fits into the budget. -/
structure Db.Within (m : Nat) (db : Db) : Prop where
  logged : db.Logged
  bound : ∀ rid, db.runExecutionAttempts rid ≤ m
  queued : ∀ rid, db.runState rid = some .queued → db.runExecutionAttempts rid < m

namespace Db.Within

/-- Only a run with budget left becomes `QUEUED`. -/
theorem requeued (hm : 1 ≤ m) (hinv : Inv T s)
    (hcfg : s.ctl.up = true → s.ctl.cfg.maxProcessingAttempts = m)
    (hup : r ≠ .cli → s.ctl.up = true) {q : Query} (hallowed : allowedQuery T r s q)
    (call : Db.Call s.db q db') (h : s.db.Within m) {rid : Nat} {x : ProcessingRun}
    (hx : db'.run? rid = some x) (hqueued : x.state = .queued) :
    s.db.runExecutionAttempts rid < m := by
  have hchange := call.runChange hinv.db.ids hx
  cases hbefore : s.db.run? rid with
  | none =>
    rw [h.logged.executions, h.logged.runTrail_of_none hbefore]
    exact hm
  | some y =>
    rw [hbefore] at hchange
    have hstate : ∀ {z}, s.db.run? rid = some z → z.state = .queued →
        s.db.runExecutionAttempts rid < m := by
      intro z hz hs
      exact h.queued rid (by simp [runState, hz, hs])
    cases hchange with
    | same => exact hstate hbefore hqueued
    | marked => exact hstate hbefore hqueued
    | moved hq legal before =>
      subst hq
      obtain rfl := (Db.mem_of_run? hbefore).2
      obtain rfl : _ = RunState.queued := hqueued
      have hmove := hallowed y hbefore before
      cases hmove with
      | start _ _ _ _ after | giveUp _ _ _ _ after | orphaned _ _ _ after => cases after
      | settle _ _ _ _ after => rcases after with after | after <;> cases after
      | retry role stored before' after fresh budget =>
        rw [hcfg (hup (by simp [role]))] at budget
        exact budget
    | decided hcall before after => rcases after with hs | hs | hs <;> simp [judged, hs] at hqueued

theorem call (hm : 1 ≤ m) (hinv : Inv T s)
    (hcfg : s.ctl.up = true → s.ctl.cfg.maxProcessingAttempts = m)
    (hup : r ≠ .cli → s.ctl.up = true) {q : Query} (hallowed : allowedQuery T r s q)
    (call : Db.Call s.db q db') (h : s.db.Within m) : db'.Within m := by
  have hattempts := call.attempts
  have hqueued : ∀ rid, db'.runState rid = some .queued → s.db.runExecutionAttempts rid < m := by
    intro rid hs
    obtain ⟨x, hx, hstate⟩ := Option.map_eq_some_iff.mp hs
    exact h.requeued hm hinv hcfg hup hallowed call hx hstate
  have hexecuted : ∀ rid, q.executes rid = true →
      s.db.runState rid = some .queued ∧ db'.runState rid = some .running := by
    intro rid hex
    obtain ⟨reason, code, rfl⟩ := executes_iff hex
    cases call with
    | same reads => cases reads
    | run legal id before step =>
      subst id
      have hfound := step.found
      have hself := step.run?_self
      exact ⟨by simpa [runState] using ⟨_, hfound, before⟩,
        by simpa [runState] using ⟨_, hself, rfl⟩⟩
  refine ⟨h.logged.call call, fun rid => ?_, fun rid hs => ?_⟩
  · rw [hattempts]
    split
    · rename_i hex
      exact h.queued rid (hexecuted rid hex).1
    · exact h.bound rid
  · rw [hattempts, if_neg]
    · exact hqueued rid hs
    · intro hex
      rw [(hexecuted rid hex).2] at hs
      cases hs

end Db.Within

theorem within_keeps (hm : 1 ≤ m) : (budgeted m).Keeps fun s =>
    (s.ctl.up = true → s.ctl.cfg.maxProcessingAttempts = m) ∧ s.db.Within m :=
  Limits.keeps_tables (Limits.keeps_config (K := fun cfg => cfg.maxProcessingAttempts = m)
      fun _ _ hlimit _ => hlimit _ rfl)
    ⟨.empty, fun _ => Nat.zero_le m, fun _ h => by cases h⟩
    fun hinv hcfg h hup hallowed _ hrun =>
      h.call hm hinv hcfg hup hallowed (.of_run hinv.db.ids hrun)

def Spent (q : ProcessingRun) : Prop :=
  q.retryExhausted = true ∧ (q.state = .failed ∨ q.state.Decided)

theorem Spent.inactive {q : ProcessingRun} (h : Spent q) :
    q.state ≠ .queued ∧ q.state ≠ .running ∧ q.state ≠ .awaitingQa := by
  rcases h.2 with hs | hs | hs | hs <;> simp [hs]

theorem Spent.change {q : Query} (hallowed : allowedQuery T r s q) {rid : Nat}
    {x x' : ProcessingRun} (hx : s.db.run? rid = some x)
    (hchange : Db.RunChange s.db q rid (some x) x') (h : Spent x) : Spent x' := by
  cases hchange with
  | same => exact h
  | marked failed hit => exact ⟨rfl, .inl failed⟩
  | moved hq legal before =>
    subst hq
    obtain rfl := (Db.mem_of_run? hx).2
    obtain ⟨hexhausted, hstate⟩ := h
    have hmove := hallowed x hx before
    cases hmove with
    | start _ _ _ before | giveUp _ _ _ before | settle _ _ _ before | orphaned _ _ before =>
      rcases hstate with hs | hs | hs | hs <;> simp [hs] at before
    | retry role stored before after fresh => simp [hexhausted] at fresh
  | decided hcall before after => exact ⟨h.1, .inr after⟩

def Db.MarksSpent (db : Db) : Prop :=
  ∀ rid q, db.run? rid = some q → q.retryExhausted = true → Spent q

theorem Db.MarksSpent.call (hinv : Inv T s) {q : Query} (hallowed : allowedQuery T r s q)
    (call : Db.Call s.db q db') (h : s.db.MarksSpent) : db'.MarksSpent := by
  intro rid x hx hmark
  have hchange := call.runChange hinv.db.ids hx
  cases hbefore : s.db.run? rid with
  | none =>
    rw [hbefore] at hchange
    cases hchange with
    | created state fresh => simp [fresh] at hmark
  | some x₀ =>
    rw [hbefore] at hchange
    by_cases hmark₀ : x₀.retryExhausted = true
    · exact (h rid x₀ hbefore hmark₀).change hallowed hbefore hchange
    · cases hchange with
      | marked failed hit => exact ⟨rfl, .inl failed⟩
      | same | moved | decided => exact absurd hmark hmark₀

theorem spent_keeps (L : Limits) : L.Keeps fun s => True ∧ s.db.MarksSpent :=
  Limits.keeps_tables L.keeps_true (fun _ _ h => by cases h)
    fun hinv _ h _ hallowed _ hrun => h.call hinv hallowed (.of_run hinv.db.ids hrun)

theorem Spent.shift {rid : Nat} {s s' : Shared} (hinv : Inv L.terms s)
    (h : ∃ q, s.db.run? rid = some q ∧ Spent q) (hshift : L.Shift s s') :
    ∃ q, s'.db.run? rid = some q ∧ Spent q := by
  obtain ⟨q, hq, hspent⟩ := h
  rcases hshift.tables with hsame | ⟨_, call, y, _, hallowed, _, hrun⟩
  · exact ⟨q, by rw [hsame]; exact hq, hspent⟩
  · obtain ⟨q', hq', hchange⟩ := (Db.Call.of_run hinv.db.ids hrun).persists hinv.db.ids hq
    exact ⟨q', hq', hspent.change hallowed hq hchange⟩

/-- With a budget of `m` executions no run enters `RUNNING` more than `m` times, and no
observation more than `m` times for each of its runs; and a run that has once been marked as
exhausted is never active again, under whatever budget. -/
theorem retry_budget : (∀ m w, 1 ≤ m → (budgeted m).Reach w →
      (∀ rid n, system.Tally (budgeted m).ok (Enters rid .running) start n w →
        w.shared.db.runExecutionAttempts rid = n ∧ n ≤ m) ∧
      ∀ oid, w.shared.db.observationExecutionAttempts oid ≤ m * (w.shared.db.runsOf oid).length) ∧
    ∀ w rid q, unlimited.Reach w → w.shared.db.run? rid = some q → q.retryExhausted = true →
      ∀ w', system.Reach unlimited.ok w w' → ∃ q', w'.shared.db.run? rid = some q' ∧
        q'.retryExhausted = true ∧ q'.state ≠ .queued ∧ q'.state ≠ .running ∧
          q'.state ≠ .awaitingQa := by
  constructor
  · intro m w hm h
    have hwithin := (h.keeps (within_keeps hm)).2
    refine ⟨fun rid n htally => ?_, fun oid => ?_⟩
    · have hcount : w.shared.db.runExecutionAttempts rid = n := by
        rw [hwithin.logged.executions, Limits.tally_entries htally]
      exact ⟨hcount, hcount ▸ hwithin.bound rid⟩
    · rw [Db.observationExecutionAttempts_eq, Nat.mul_comm]
      refine (List.sum_le_card_nsmul _ m fun n hn => ?_).trans (by simp)
      obtain ⟨r, _, rfl⟩ := List.mem_map.mp hn
      exact hwithin.bound r.id
  · intro w rid q h hq hmark w' hlater
    have hspent := (h.keeps (spent_keeps _)).2 rid q hq hmark
    obtain ⟨q', hq', hspent'⟩ := h.later (P := fun s => ∃ q, s.db.run? rid = some q ∧ Spent q)
      ⟨q, hq, hspent⟩ Spent.shift hlater
    exact ⟨q', hq', hspent'.1, hspent'.inactive⟩

/-- The worker of the first run exits non-zero. -/
def firstFailure : List (Label Role Entry Choice Env) :=
  firstRun ++ steps 3 6 ++ [.run 3 (.exit 1)] ++ steps 3 3

/-- Each controller is started under the configuration for concrete runs. -/
def smallBudget (_ : World Op.Reply Exn Shared Role Entry) :
    Label Role Entry Choice Env → Bool
  | .enter _ (.run cfg) => decide (cfg = smallConfig)
  | _ => true

theorem smallBudget_ok {w : World Op.Reply Exn Shared Role Entry}
    {l : Label Role Entry Choice Env} (h : smallBudget w l = true) : (budgeted 1).ok w l := by
  cases l with
  | run pid c => exact fun _ _ _ _ _ => ⟨⟨by simp [budgeted], by simp [budgeted]⟩, trivial⟩
  | env e => exact ⟨by simp [Terms.Calm, budgeted], trivial⟩
  | enter r n =>
    rintro cfg rfl
    rw [of_decide_eq_true h]
    rfl
  | stop | crash => trivial

/-- The run that has used its only execution is marked by the next tick, and stays marked. -/
theorem retry_budget_marked : ∃ w n q, (budgeted 1).Reach w ∧
    system.Tally (budgeted 1).ok (Enters 1 .running) start n w ∧ n = 1 ∧
    w.shared.db.runExecutionAttempts 1 = n ∧ n ≤ 1 ∧
    w.shared.db.observationExecutionAttempts 1 ≤ 1 * (w.shared.db.runsOf 1).length ∧
    w.shared.db.run? 1 = some q ∧ q.retryExhausted = true ∧
    ∀ w', system.Reach unlimited.ok w w' → ∃ q', w'.shared.db.run? 1 = some q' ∧
      q'.retryExhausted = true ∧ q'.state ≠ .queued ∧ q'.state ≠ .running ∧
        q'.state ≠ .awaitingQa := by
  obtain ⟨w, hreach, htest⟩ := (budgeted 1).reach_of_replay smallBudget
    (fun _ _ => smallBudget_ok) (firstFailure ++ steps 0 11)
    (fun w => w.shared.db.runExecutionAttempts 1 == 1 &&
      (w.shared.db.run? 1).any fun q => q.retryExhausted) (by decide +kernel)
  obtain ⟨hexecuted, hmarked⟩ := Bool.and_eq_true_iff.mp htest
  obtain ⟨q, hq, hmark⟩ := (Option.any_eq_true _ _).mp hmarked
  obtain ⟨n, htally⟩ := Machine.Reach.tally (Enters 1 .running) hreach
  obtain ⟨hbudget, hspent⟩ := retry_budget
  obtain ⟨hruns, htotal⟩ := hbudget 1 w (Nat.le_refl 1) hreach
  obtain ⟨hcount, hle⟩ := hruns 1 n htally
  exact ⟨w, n, q, hreach, htally, hcount.symm.trans (eq_of_beq hexecuted), hcount, hle, htotal 1,
    hq, hmark, hspent w 1 q (hreach.mono fun _ l _ => unlimited_ok l) hq hmark⟩

/-- The edges of the run states but the one that skips the execution. -/
def ClaimedEdge (x y : RunState) : Prop := Db.RunEdge x y ∧ ¬ (x = .queued ∧ y = .failed)

theorem failures_executed {l : List (Option RunState × RunState)} {c : Option RunState}
    (h : Trail ClaimedEdge .queued l c) : entries .failed l ≤ entries .running l ∧
      (c = some .running → entries .failed l + 1 = entries .running l) ∧
      (c = some .queued ∨ c = some .failed → entries .failed l = entries .running l) := by
  induction h with
  | absent => simp [entries]
  | start => simp [entries]
  | @move l x y before legal ih =>
    obtain ⟨hle, hrunning, hequal⟩ := ih
    simp only [entries, List.countP_append, List.countP_singleton] at hle hrunning hequal ⊢
    obtain ⟨hedge, hclaimed⟩ := legal
    cases x <;> cases y <;> simp_all [Db.RunEdge, runTransitions]

/-- Every controller runs with the same budget, and no worker gives up a run that
is still queued. -/
def claimed (m : Nat) : Limits where
  terms := .any
  run o c s := ∀ rid reason code, o = .db (.transitionRun rid .queued .failed reason code) →
    c = .ok → s.db.runState rid ≠ some .queued
  enter _ n := ∀ cfg, n = .run cfg → cfg.maxProcessingAttempts = m

/-- The trails of all runs go along the edges that leave no execution out, whatever else the log
says. -/
def Db.Claimed (db : Db) : Prop :=
  db.Logged ∧ ∀ rid, Trail ClaimedEdge .queued (db.runTrail rid) (db.runState rid)

theorem Db.Claimed.call (hinv : Inv T s) {q : Query}
    (hclaimed : ∀ rid reason code, q = .transitionRun rid .queued .failed reason code →
      s.db.runState rid ≠ some .queued)
    (call : Db.Call s.db q db') (h : s.db.Claimed) : db'.Claimed := by
  refine ⟨h.1.call call, fun rid => (h.2 rid).adds ?_⟩
  refine ((call.logs hinv.db.ids).run rid).refine fun x y hx hy hedge => ⟨hedge, ?_⟩
  rintro ⟨rfl, rfl⟩
  obtain ⟨q₀, hq₀, hqueued⟩ := Option.map_eq_some_iff.mp hx
  obtain ⟨q', hq', hfailed⟩ := Option.map_eq_some_iff.mp hy
  have hchange := call.runChange hinv.db.ids hq'
  rw [hq₀] at hchange
  cases hchange with
  | same => simp [hqueued] at hfailed
  | marked failed hit => simp [hqueued] at failed
  | moved hcall legal before =>
    obtain rfl : _ = RunState.failed := hfailed
    rw [hqueued] at before
    exact hclaimed _ _ _ (before ▸ hcall) hx
  | decided hcall before after => rcases before with hs | hs <;> simp [hqueued] at hs

theorem claimed_keeps (m : Nat) : (claimed m).Keeps fun s => True ∧ s.db.Claimed :=
  Limits.keeps_tables (claimed m).keeps_true ⟨.empty, fun _ => .absent⟩
    fun hinv _ h _ _ hlimit hrun =>
      h.call hinv (fun rid reason code hq => hlimit rid reason code (congrArg Op.db hq) rfl)
        (.of_run hinv.db.ids hrun)

theorem claimed_budgeted {w : World Op.Reply Exn Shared Role Entry} (h : (claimed m).Reach w) :
    (budgeted m).Reach w := by
  refine h.mono fun w l hok => ?_
  cases l with
  | run pid c => exact fun p o next hp hcode => ⟨(hok p o next hp hcode).1, trivial⟩
  | env e => exact hok
  | enter r n => exact hok
  | stop | crash => trivial

/-- As long as no worker gives up a run before its claim, a run fails at most `m` times, and
between two of its failures it is executed: what fails has been `RUNNING`, and each entry into
`RUNNING` is counted. -/
theorem failures_bounded {w : World Op.Reply Exn Shared Role Entry} (hm : 1 ≤ m)
    (h : (claimed m).Reach w) (rid : Nat) :
    (∀ n, system.Tally (claimed m).ok (Enters rid .failed) start n w → n ≤ m) ∧
    ∀ k w', system.Tally (claimed m).ok (Enters rid .failed) w k w' →
      w.shared.db.runState rid = some .failed → w'.shared.db.runState rid = some .failed →
      w'.shared.db.runExecutionAttempts rid = w.shared.db.runExecutionAttempts rid + k := by
  have hexecuted : ∀ w, (claimed m).Reach w → ∀ n,
      system.Tally (claimed m).ok (Enters rid .failed) start n w →
      n ≤ w.shared.db.runExecutionAttempts rid ∧ (w.shared.db.runState rid = some .failed →
        n = w.shared.db.runExecutionAttempts rid) := by
    intro w hreach n htally
    obtain ⟨hlogged, htrail⟩ := (hreach.keeps (claimed_keeps m)).2
    obtain ⟨hle, _, hequal⟩ := failures_executed (htrail rid)
    rw [hlogged.executions, Limits.tally_entries htally]
    exact ⟨hle, fun hfailed => hequal (.inr hfailed)⟩
  constructor
  · intro n htally
    have hbound := ((claimed_budgeted h).keeps (within_keeps hm)).2.bound rid
    exact Nat.le_trans (hexecuted w h n htally).1 hbound
  · intro k w' hlater hfailed hfailed'
    obtain ⟨n, hn⟩ := Machine.Reach.tally (Enters rid .failed) h
    have hboth := hn.trans hlater
    rw [← (hexecuted w h n hn).2 hfailed, ← (hexecuted w' hboth.reach _ hboth).2 hfailed']

/-- The operation records a failure before the claim. -/
def forfeits : Op → Bool
  | .db (.transitionRun _ .queued .failed _ _) => true
  | _ => false

/-- The first run has been executed once and its processing has failed: one failure is on its
trail, and one execution is counted. -/
theorem failures_bounded_first : ∃ w n, (claimed 1).Reach w ∧
    system.Tally (claimed 1).ok (Enters 1 .failed) start n w ∧
    w.shared.db.runState 1 = some .failed ∧ n ≤ 1 := by
  obtain ⟨w, hreach, htest⟩ := (claimed 1).reach_of_replay (avoiding fun _ => forfeits)
    (fun w l h => avoiding_ok h
      (fun o c s hno rid reason code ho _ => by simp [ho, forfeits] at hno)
      (fun _ _ _ _ _ => trivial) fun _ _ hsmall cfg hn => by rw [hsmall cfg hn]; rfl)
    firstFailure (fun w => w.shared.db.runState 1 == some .failed) (by decide +kernel)
  obtain ⟨n, htally⟩ := Machine.Reach.tally (Enters 1 .failed) hreach
  exact ⟨w, n, hreach, htally, eq_of_beq htest,
    (failures_bounded (Nat.le_refl 1) hreach 1).1 n htally⟩

/-- The worker of the first run cannot read its row, twice. -/
def givenUpTwice : List (Label Role Entry Choice Env) :=
  firstRun ++ steps 3 2 ++ [.run 3 .fail] ++ steps 3 4 ++ steps 0 15 ++ steps 4 2 ++
    [.run 4 .fail] ++ steps 4 4

/-- With a budget of one execution the worker of the first run raises before its claim, twice.
The run has failed two times, no execution is counted, and it is still not marked. -/
theorem failures_unbounded : ¬ ∀ m w rid n, 1 ≤ m → (budgeted m).Reach w →
    system.Tally (budgeted m).ok (Enters rid .failed) start n w →
    (∀ q, w.shared.db.run? rid = some q → q.retryExhausted = false) → n ≤ m := by
  intro hall
  obtain ⟨w, hreach, htest⟩ := (budgeted 1).reach_of_replay smallBudget
    (fun _ _ => smallBudget_ok) givenUpTwice
    (fun w => (w.shared.db.run? 1).all (fun q => !q.retryExhausted) &&
      entries .failed (w.shared.db.runTrail 1) == 2) (by decide +kernel)
  simp only [Bool.and_eq_true, beq_iff_eq, Option.all_eq_true, Bool.not_eq_true'] at htest
  obtain ⟨n, htally⟩ := Machine.Reach.tally (Enters 1 .failed) hreach
  have hle := hall 1 w 1 n (Nat.le_refl 1) hreach htally htest.1
  rw [Limits.tally_entries htally, htest.2] at hle
  omega

end Sdpctl
