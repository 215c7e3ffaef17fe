import Sdpctl.Coop.Confined
import Sdpctl.Programs.Footprint
import Sdpctl.Properties.Budget

/-!
Discarded runs. The operator's discard looks at the state of a run and not at its
mark, so a failure that the next tick would retry can be discarded as well. If the
mark is there when the command reads the run, it is there when the transaction
commits, whatever comes in between.
-/

namespace Sdpctl

open FileTree Coop

variable {T : Terms} {r : Role} {s : Shared} {db' : Db}

/-- A discard is committed on a `FAILED` run only when the run is marked exhausted: what
`Heeding` comes to at the transaction. -/
def patient : Limits where
  terms := .any
  run o c s := ∀ rid note, o = .db (.discardFailedRunAndBeginDeletion rid note) → c = .ok →
    ∀ q, s.db.run? rid = some q → q.state = .failed → q.retryExhausted = true

def Db.DiscardsSpent (db : Db) : Prop :=
  ∀ rid q, db.run? rid = some q → q.state = .discarded → q.retryExhausted = true

theorem discards_iff {q : Query} {rid : Nat} {verdict note : String}
    (h : q.verdict = some (rid, .discarded, verdict, note)) :
    q = .discardFailedRunAndBeginDeletion rid note := by
  cases q <;> simp [Query.verdict] at h
  obtain ⟨rfl, -, rfl⟩ := h
  rfl

theorem Db.DiscardsSpent.call (hinv : Inv T s) {q : Query} (hallowed : allowedQuery T r s q)
    (hpatient : ∀ rid note, q = .discardFailedRunAndBeginDeletion rid note →
      ∀ x, s.db.run? rid = some x → x.state = .failed → x.retryExhausted = true)
    (call : Db.Call s.db q db') (h : s.db.DiscardsSpent) : db'.DiscardsSpent := by
  intro rid x hx hdiscarded
  have hchange := call.runChange hinv.db.ids hx
  cases hbefore : s.db.run? rid with
  | none =>
    rw [hbefore] at hchange
    cases hchange with
    | created state => simp [state] at hdiscarded
  | some x₀ =>
    rw [hbefore] at hchange
    cases hchange with
    | same => exact h rid x hbefore hdiscarded
    | marked => rfl
    | moved hq legal before =>
      subst hq
      obtain rfl := (Db.mem_of_run? hbefore).2
      obtain rfl : _ = RunState.discarded := hdiscarded
      have hmove := hallowed x₀ hbefore before
      cases hmove with
      | start _ _ _ _ after | giveUp _ _ _ _ after | orphaned _ _ _ after
      | retry _ _ _ after => cases after
      | settle _ _ _ _ after => rcases after with after | after <;> cases after
    | decided hcall before after =>
      obtain rfl : _ = RunState.discarded := hdiscarded
      obtain rfl := discards_iff hcall
      cases call with
      | same reads => cases reads
      | discarded id failed step =>
        obtain ⟨mid, hrun, _⟩ := step.steps
        have hfound := hrun.found
        rw [judged_id, id, hbefore] at hfound
        cases hfound
        exact hpatient rid _ rfl x₀ hbefore failed

theorem discards_keeps : patient.Keeps fun s => True ∧ s.db.DiscardsSpent :=
  Limits.keeps_tables patient.keeps_true (fun _ _ h => by cases h)
    fun hinv _ h _ hallowed hlimit hrun => h.call hinv hallowed
      (fun rid note hq => hlimit rid note (congrArg Op.db hq) rfl) (.of_run hinv.db.ids hrun)

def Db.Spent (db : Db) (rid : Nat) : Prop := ∃ x, db.run? rid = some x ∧ x.retryExhausted = true

theorem Db.Spent.call {db db' : Db} {q : Query} {rid : Nat} (ids : db.Ids)
    (call : Db.Call db q db') (h : db.Spent rid) : db'.Spent rid := by
  obtain ⟨x, hx, hmark⟩ := h
  obtain ⟨x', hx', hchange⟩ := call.persists ids hx
  refine ⟨x', hx', ?_⟩
  cases hchange with
  | marked => rfl
  | same | moved | decided => exact hmark

theorem Db.Spent.shift {L : Limits} {s s' : Shared} {rid : Nat} (hinv : Inv L.terms s)
    (h : s.db.Spent rid) (hshift : L.Shift s s') : s'.db.Spent rid := by
  rcases hshift.tables with hsame | ⟨_, q, y, _, _, _, hrun⟩
  · exact hsame ▸ h
  · exact h.call hinv.db.ids (.of_run hinv.db.ids hrun)

/-- A marked run is not one that `list_retryable_failed_runs` returns. -/
theorem Db.Spent.not_retryable {db : Db} {rid : Nat} (ids : db.Ids) (h : db.Spent rid) (m : Nat) :
    ∀ e ∈ db.listRetryableFailedRuns m, e.1.id ≠ rid := by
  rintro e he rfl
  obtain ⟨q, hq, rfl⟩ := List.mem_map.mp he
  obtain ⟨hmem, hretryable⟩ := List.mem_filter.mp hq
  obtain ⟨x, hx, hmark⟩ := h
  obtain rfl : q = x := Option.some.inj ((ids.run? hmem).symm.trans hx)
  simp [Db.isRetryable, hmark] at hretryable

/-- The operator discards no failure that may still be retried: when the `get_run` of a
`qa discard` finds its run `FAILED`, it finds it marked exhausted. -/
def Heeding (w : World Op.Reply Exn Shared Role Entry) : Label Role Entry Choice Env → Prop
  | .run pid c => ∀ p rid note, w.procs[pid]? = some p →
      p.code = Entry.code (.command (.discard rid note)) → c = .ok →
      ∀ q, w.shared.db.run? rid = some q → q.state = .failed → q.retryExhausted = true
  | _ => True

def DiscardsMarked (s : Shared) (o : Op) : Prop :=
  ∀ rid note, o = .db (.discardFailedRunAndBeginDeletion rid note) → s.db.Spent rid

theorem discardsMarked_of_disposes {o : Op} (h : o.disposes) : DiscardsMarked s o := by
  rintro rid note rfl
  exact h.elim

/-- The code of a command: a `qa discard` that has not read its run, or code that discards
only a marked run. -/
def Heedful (r : Role) (s : Shared) (code : M (Option Entry)) : Prop :=
  r = .cli → (∃ rid note, code = Entry.code (.command (.discard rid note))) ∨
    code.Uses (DiscardsMarked s) ∧ code.Returns fun next => next = none

/-- The first operation of a `qa discard`. -/
theorem discard_code (rid : Nat) (note : String) :
    ∃ next, Entry.code (.command (.discard rid note)) = .op (.db (.getRun rid)) next := ⟨_, rfl⟩

theorem heedful_entered {n : Entry} {s s' : Shared} (h : system.enter r n s = some s') :
    Heedful r s' (system.code r n) := by
  intro hcli
  have hother : ∀ c : Command, (∀ rid note, c ≠ .discard rid note) →
      (Entry.code (.command c)).Uses (DiscardsMarked s') := by
    refine fun c hc => Prog.uses_bind ((command_uses c).mono ?_) fun _ => trivial
    rintro o ho rid note rfl
    obtain ⟨rid', note', heq⟩ := ho
    exact absurd heq (hc rid' note')
  have hcommand : ∀ c : Command, Heedful r s' (Entry.code (.command c)) := by
    intro c _
    by_cases hc : ∃ rid note, c = .discard rid note
    · obtain ⟨rid, note, rfl⟩ := hc
      exact .inl ⟨rid, note, rfl⟩
    · exact .inr ⟨hother c (by simpa using hc), Prog.returns_after fun _ => rfl⟩
  cases enter_cases (system_enter h).2 with
  | boot => cases hcli
  | resolve | command => exact hcommand _ hcli

/-- What is left of a `qa discard` after it has read its run. -/
theorem heedful_read {rid : Nat} {note : String} {x : Except Exn ProcessingRun}
    (h : ∀ q, x = .ok q → q.id = rid ∧ (q.state = .failed → s.db.Spent rid))
    {next : Except Exn (Op.db (.getRun rid)).Reply → M (Option Entry)}
    (hcode : Entry.code (.command (.discard rid note)) = .op (.db (.getRun rid)) next) :
    (next x).Uses (DiscardsMarked s) ∧ (next x).Returns fun next => next = none := by
  have hreturns : (Entry.code (.command (.discard rid note))).Returns fun next => next = none :=
    Prog.returns_after fun _ => rfl
  rw [hcode] at hreturns
  refine ⟨?_, hreturns x⟩
  cases hcode
  cases x with
  | error e => trivial
  | ok q =>
    obtain ⟨hid, hspent⟩ := h q rfl
    have hlook : ∀ {p : Query}, p.reads = true → DiscardsMarked s (.db p) := by
      rintro p hp rid note heq
      cases heq
      cases hp
    refine Prog.uses_bind ?_ fun _ => trivial
    change Prog.Uses _ (if q.state ≠ .failed then _ else _)
    split
    · trivial
    · rename_i hstate
      refine Prog.uses_bind (Prog.uses_call (hlook rfl)) fun obs => Prog.uses_ite trivial ?_
      refine Prog.uses_bind (Prog.uses_call fun _ _ heq => by cases heq) fun _ =>
        Prog.uses_ite trivial ?_
      refine Prog.uses_bind (Prog.uses_call (hlook rfl)) fun _ => Prog.uses_ite trivial ?_
      refine Prog.uses_bind (Prog.uses_call ?_) fun oid =>
        (finishObservationDeletion_disposes oid).mono fun _ => discardsMarked_of_disposes
      rintro _ _ heq
      cases heq
      exact hid ▸ hspent (not_not.mp hstate)

variable {w : World Op.Reply Exn Shared Role Entry}

theorem heeding_unlimited (h : system.Reach Heeding start w) : unlimited.Reach w :=
  h.mono fun _ l _ => unlimited_ok l

theorem heedful_reach (h : system.Reach Heeding start w) :
    ∀ p ∈ w.procs, Heedful p.role w.shared p.code := by
  refine h.codes Heedful (fun _ hp => by cases hp) (fun _ _ _ => .inr ⟨trivial, rfl⟩)
    heedful_entered ?_ ?_ ?_ ?_
  · rintro o r n s hspawn rfl
    cases o <;> cases hspawn
  · intro r n s h hcli
    rcases h hcli with ⟨rid, note, heq⟩ | ⟨_, hreturns⟩
    · obtain ⟨next, hcode⟩ := discard_code rid note
      rw [hcode] at heq
      cases heq
    · cases hreturns
  · intro v l v' hreach _ hstep r code hcode hcli
    have hreach' := heeding_unlimited hreach
    refine (hcode hcli).imp_right fun ⟨huses, hreturns⟩ => ⟨huses.mono ?_, hreturns⟩
    exact fun o ho rid note heq =>
      (ho rid note heq).shift hreach'.inv (hreach'.shift (unlimited_ok l) hstep)
  · intro v pid c p o next x s' hreach hok found code performs hcode hcli
    rcases hcode hcli with ⟨rid, note, heq⟩ | ⟨huses, hreturns⟩
    · obtain ⟨next', hdiscard⟩ := discard_code rid note
      have hopen := heq.trans hdiscard
      cases hopen
      refine .inr (heedful_read (fun q hq => ?_) hdiscard)
      subst hq
      rcases Shared.query_cases performs with ⟨y, db, hrun, hy, _⟩ | ⟨e, he, _⟩
      · cases hy
        have hfound := (getRun_ok hrun).1
        have hc : c = .ok := by cases c <;> first | rfl | cases performs
        exact ⟨(Db.mem_of_run? hfound).2, fun hfailed =>
          ⟨q, hfound, hok p rid note found (code.trans heq) hc q hfound hfailed⟩⟩
      · cases he
    · exact .inr ⟨huses.2 x, hreturns x⟩

theorem discard_spent (h : system.Reach Heeding start w) {pid : Nat}
    {p : Proc Op.Reply Exn Role Entry} {rid : Nat} {note : String} {next}
    (hp : w.procs[pid]? = some p)
    (hcode : p.code = .op (.db (.discardFailedRunAndBeginDeletion rid note)) next) :
    w.shared.db.Spent rid := by
  have hcli : p.role = .cli := (heeding_unlimited h).allowed hp hcode (c := .ok)
    ⟨by simp [unlimited], by simp [unlimited]⟩
  rcases heedful_reach h p (List.mem_of_getElem? hp) hcli with ⟨rid', note', heq⟩ | ⟨huses, _⟩
  · obtain ⟨next', hdiscard⟩ := discard_code rid' note'
    rw [hcode, hdiscard] at heq
    cases heq
  · rw [hcode] at huses
    exact huses.1 rid note rfl

theorem heeding_patient (h : system.Reach Heeding start w) : patient.Reach w := by
  induction h with
  | init => exact .init
  | step l before lawful moves ih =>
    refine .step l ih ?_ moves
    cases l with
    | run pid c =>
      refine fun p o next hp hcode => ⟨⟨by simp [patient], by simp [patient]⟩, ?_⟩
      rintro rid note rfl _ q hq _
      obtain ⟨x, hx, hmark⟩ := discard_spent before hp hcode
      rw [hq] at hx
      cases hx
      exact hmark
    | env e => exact ⟨by simp [Terms.Calm, patient], trivial⟩
    | enter | stop | crash => trivial

/-- If every `qa discard` that reads its run `FAILED` reads it marked, then every discarded
run is marked; and whatever happened since that reading, the run of a discard about to be
committed is still marked, so it is none that `list_retryable_failed_runs` would return. -/
theorem discarded_exhausted (h : system.Reach Heeding start w) :
    (∀ rid q, w.shared.db.run? rid = some q → q.state = .discarded → q.retryExhausted = true) ∧
    ∀ (pid : Nat) p rid note next, w.procs[pid]? = some p →
      p.code = .op (.db (.discardFailedRunAndBeginDeletion rid note)) next →
      ∃ q, w.shared.db.run? rid = some q ∧ q.retryExhausted = true ∧
        ∀ m, ∀ e ∈ w.shared.db.listRetryableFailedRuns m, e.1.id ≠ rid := by
  refine ⟨((heeding_patient h).keeps discards_keeps).2, fun pid p rid note next hp hcode => ?_⟩
  have hspent := discard_spent h hp hcode
  obtain ⟨q, hq, hmark⟩ := id hspent
  exact ⟨q, hq, hmark, hspent.not_retryable (heeding_unlimited h).inv.db.ids⟩

/-- The operation reads a failed run that is not marked. -/
def owed (s : Shared) : Op → Bool
  | .db (.getRun rid) => (s.db.run? rid).any fun q => q.state == .failed && !q.retryExhausted
  | _ => false

theorem avoids_owed {l : Label Role Entry Choice Env} (h : avoids owed w l = true) :
    Heeding w l := by
  cases l with
  | run pid c =>
    intro p rid note hp hcode _ q hq hfailed
    obtain ⟨next, hdiscard⟩ := discard_code rid note
    simpa [avoids, about_eq hp (hcode.trans hdiscard), owed, hq, hfailed] using h
  | _ => trivial

/-- The next tick marks the failure, and the operator discards it. -/
def markedDiscard : List (Label Role Entry Choice Env) :=
  firstFailure ++ steps 0 11 ++ [.enter .cli (.command (.discard 1 "lost"))] ++ steps 4 5

/-- The first run has failed with its only execution spent, a tick has marked it, and its `qa
discard` has been committed: the run is `DISCARDED`, and its mark stands. -/
theorem discarded_exhausted_first : ∃ w q, system.Reach Heeding start w ∧
    w.shared.db.run? 1 = some q ∧ q.state = .discarded ∧ q.retryExhausted = true := by
  have hrun : (system.replay (avoids owed) markedDiscard start).any
      (fun w => (w.shared.db.run? 1).any fun q => q.state == .discarded) = true := by
    decide +kernel
  obtain ⟨w, hw, htest⟩ := (Option.any_eq_true _ _).mp hrun
  have hreach : system.Reach Heeding start w :=
    Machine.Reach.init.replay (fun _ _ => avoids_owed) hw
  obtain ⟨q, hq, hs⟩ := (Option.any_eq_true _ _).mp htest
  exact ⟨w, q, hreach, hq, eq_of_beq hs, (discarded_exhausted hreach).1 1 q hq (eq_of_beq hs)⟩

/-- A controller that would retry the failure starts, and the operator discards it
before the first tick. -/
def owedDiscard : List (Label Role Entry Choice Env) :=
  firstFailure ++ [.crash, .enter .main (.run { smallConfig with maxProcessingAttempts := 2 }),
    .enter .cli (.command (.discard 1 "lost"))] ++ steps 5 5

/-- The first run has failed once and a restarted controller would allow it a second execution.
A `qa discard` before the first tick is committed all the same: the run is not marked, and its
raw data is given up while a retry is owed. -/
theorem discarded_owed : ¬ ∀ w, unlimited.Reach w → ∀ rid q, w.shared.db.run? rid = some q →
    q.state = .discarded → q.retryExhausted = true := by
  intro hall
  obtain ⟨w, hreach, htest⟩ := unlimited.reach_of_replay (fun _ _ => true)
    (fun _ l _ => unlimited_ok l) owedDiscard
    (fun w => (w.shared.db.run? 1).any fun q => q.state == .discarded && !q.retryExhausted)
    (by decide +kernel)
  obtain ⟨q, hq, hs⟩ := (Option.any_eq_true _ _).mp htest
  simp only [Bool.and_eq_true, beq_iff_eq, Bool.not_eq_true'] at hs
  have hmark := hall w hreach 1 q hq hs.1
  rw [hs.2] at hmark
  cases hmark

end Sdpctl
