import Sdpctl.Properties.QaList

/-!
One verdict for each run. Every action checks on a snapshot first and its
transaction checks again; so of any number of actions on one run, in any order
with the retries of the controller, one commits at most, and the others change
nothing.
-/

namespace Sdpctl

open FileTree Coop

variable {T : Terms} {L : Limits} {r : Role} {s s' : Shared} {db db' : Db}

theorem Db.RunChange.settled {q : Query} {rid : Nat} {x x' : ProcessingRun}
    (h : Db.RunChange db q rid (some x) x') (hdecided : x.state.Decided) : x' = x := by
  cases h with
  | same => rfl
  | marked failed => rcases hdecided with hs | hs | hs <;> simp [hs] at failed
  | moved call legal before =>
    subst before
    rcases hdecided with hs | hs | hs <;> simp [hs, runTransitions] at legal
  | decided call before after =>
    rcases hdecided with hs | hs | hs <;> rcases before with hb | hb <;> simp [hs] at hb

theorem RunMove.undecided {q q' : ProcessingRun} (move : RunMove r s q q') :
    ¬ q.state.Decided ∧ ¬ q'.state.Decided := by
  cases move with
  | start _ _ _ before after | giveUp _ _ _ before after | orphaned _ _ before after
  | retry _ _ before after => simp [RunState.Decided, before, after]
  | settle _ _ _ before after =>
    rcases after with after | after <;> simp [RunState.Decided, before, after]

/-- A run has a verdict exactly when it has been decided: the verdict comes with the decision
and with nothing else. -/
def Db.Judged (db : Db) : Prop :=
  ∀ rid q, db.run? rid = some q → (q.qaVerdict.isSome ↔ q.state.Decided)

theorem Db.Judged.call (hinv : Inv T s) {q : Query} (hallowed : allowedQuery T r s q)
    (call : Db.Call s.db q db') (h : s.db.Judged) : db'.Judged := by
  intro rid x hx
  have hchange := call.runChange hinv.db.ids hx
  cases hbefore : s.db.run? rid with
  | none =>
    rw [hbefore] at hchange
    cases hchange with
    | created state fresh unjudged => simp [state, unjudged, RunState.Decided]
  | some x₀ =>
    rw [hbefore] at hchange
    have hold := h rid x₀ hbefore
    cases hchange with
    | same => exact hold
    | marked => exact hold
    | decided hcall before after => exact ⟨fun _ => after, fun _ => rfl⟩
    | moved hq legal before =>
      subst hq
      obtain rfl := (Db.mem_of_run? hbefore).2
      obtain ⟨hno, hno'⟩ := (hallowed x₀ hbefore before).undecided
      exact ⟨fun hverdict => absurd (hold.mp hverdict) hno, fun hdecided => absurd hdecided hno'⟩

theorem judged_keeps (L : Limits) : L.Keeps fun s => True ∧ s.db.Judged :=
  Limits.keeps_tables L.keeps_true (fun _ _ h => by cases h)
    fun hinv _ h _ hallowed _ hrun => h.call hinv hallowed (.of_run hinv.db.ids hrun)

/-- The step commits the verdict: the run it is on, what becomes of the run, the
word for it and the operator's note. -/
def Commits (v : Nat × RunState × String × String) (s s' : Shared) : Prop :=
  ∃ (q : Query) (y : q.Reply), q.verdict = some v ∧ q.run s.db = .ok (y, s'.db)

def Decides (rid : Nat) (s s' : Shared) : Prop := ∃ v, v.1 = rid ∧ Commits v s s'

theorem verdict_of_reads {q : Query} (h : q.reads = true) : q.verdict = none := by
  cases q <;> first | rfl | cases h

theorem Db.Call.decides {q : Query} (call : Db.Call db q db') {rid : Nat} {new : RunState}
    {verdict note : String} (hq : q.verdict = some (rid, new, verdict, note)) :
    ∃ x, db.run? rid = some x ∧ x.state.Reviewable ∧ new.Decided ∧
      ((∃ oid o, Db.Releases db db' oid x (judged x new verdict note) o) ∨
        ∃ mid n, Db.RunStep db mid x (judged x new verdict note) ∧ Db.RunAdded mid db' n ∧
          new = .superseded ∧ n.observationId = x.observationId) := by
  have hreleases : ∀ {i : Nat} {x : ProcessingRun} {o : Observation},
      Db.Releases db db' i x (judged x new verdict note) o → db.run? x.id = some x ∧
        x.state.Reviewable ∧ new.Decided := by
    intro i x o step
    obtain ⟨mid, hrun, _⟩ := step.steps
    exact ⟨hrun.found, step.open_, step.decided.imp_right .inr⟩
  cases call with
  | same reads => simp [verdict_of_reads reads] at hq
  | accepted id before step | discarded id before step =>
    cases hq
    subst id
    obtain ⟨hfound, hopen, hdecided⟩ := hreleases step
    exact ⟨_, hfound, hopen, hdecided, .inl ⟨_, _, step⟩⟩
  | reprocessed id found stored before step added owner =>
    cases hq
    subst id
    exact ⟨_, step.found, before, .inr (.inl rfl), .inr ⟨_, _, step, added, rfl, owner⟩⟩
  | noted | admitted | observation | unforced | forced | created | run | exhausted | marked =>
    cases hq

theorem Db.Call.verdict {q : Query} (ids : db.Ids) (call : Db.Call db q db') {rid : Nat}
    {new : RunState} {verdict note : String} (hq : q.verdict = some (rid, new, verdict, note)) :
    ∃ x, db.run? rid = some x ∧ x.state.Reviewable ∧ new.Decided ∧
      db'.run? rid = some (Db.judged x new verdict note) := by
  obtain ⟨x, hx, hopen, hdecided, hcases⟩ := call.decides hq
  refine ⟨x, hx, hopen, hdecided, ?_⟩
  obtain rfl := (Db.mem_of_run? hx).2
  rcases hcases with ⟨oid, o, step⟩ | ⟨mid, n, step, added, _⟩
  · obtain ⟨mid, hrun, hobs⟩ := step.steps
    exact (hobs.run? _).trans hrun.run?_self
  · rw [added.run? (step.ids ids), if_neg]
    · exact step.run?_self
    · intro heq
      exact added.newId (step.ids ids) _ (Db.mem_of_run? step.run?_self).1 heq

theorem RunState.Reviewable.undecided {state : RunState} (h : state.Reviewable) :
    ¬ state.Decided := by
  rcases h with rfl | rfl <;> simp [RunState.Decided]

theorem Commits.verdict {rid : Nat} {new : RunState} {verdict note : String} (ids : s.db.Ids)
    (h : Commits (rid, new, verdict, note) s s') :
    ∃ x, s.db.run? rid = some x ∧ x.state.Reviewable ∧ new.Decided ∧
      s'.db.run? rid = some (Db.judged x new verdict note) := by
  obtain ⟨q, y, hq, hrun⟩ := h
  exact (Db.Call.of_run ids hrun).verdict ids hq

/-- The event is about the run, about its observation or about the next run. -/
def Event.Concerns (db : Db) (x : ProcessingRun) : Event → Prop
  | .run id _ _ _ => id = x.id ∨ id = db.runSeq + 1
  | .observation id _ _ _ => id = x.observationId
  | .reconcile _ _ => False

/-- What a decision on the run `x` leaves alone: the other runs, the other
observations and the history so far. It adds no observation, no run but the next one
of the same observation when it is a reprocess, and no event about anything else. -/
structure Db.Spares (db db' : Db) (x : ProcessingRun) (new : RunState) : Prop where
  runs : ∀ i y, i ≠ x.id → db.run? i = some y → db'.run? i = some y
  observations : ∀ i, i ≠ x.observationId → db'.obs? i = db.obs? i
  added : ∀ i y, db.run? i = none → db'.run? i = some y →
    new = .superseded ∧ i = db.runSeq + 1 ∧ y.observationId = x.observationId
  events : ∃ es, db'.events = db.events ++ es ∧ ∀ e ∈ es, e.Concerns db x

theorem Db.Call.spares {q : Query} (ids : db.Ids) (call : Db.Call db q db') {rid : Nat}
    {new : RunState} {verdict note : String} (hq : q.verdict = some (rid, new, verdict, note))
    {x : ProcessingRun} (hx : db.run? rid = some x) : db.Spares db' x new := by
  obtain ⟨x', hx', _, _, hcases⟩ := call.decides hq
  obtain rfl : x = x' := Option.some.inj (hx.symm.trans hx')
  rcases hcases with ⟨oid, o, step⟩ | ⟨mid, n, step, added, hnew, howner⟩
  · obtain ⟨mid, hrun, hobs⟩ := step.steps
    have hruns : ∀ i, i ≠ x.id → db'.run? i = db.run? i :=
      fun i hne => (hobs.run? i).trans (hrun.run?_ne hne)
    refine ⟨fun i y hne hy => (hruns i hne).trans hy, fun i hne => ?_, fun i y hnone hy => ?_, ?_⟩
    · refine (hobs.obs?_ne ?_).trans (hrun.obs? i)
      exact fun heq => hne (heq.trans (step.obsId.trans step.owner.symm))
    · by_cases heq : i = x.id
      · rw [heq, show db.run? x.id = some x from hrun.found] at hnone
        cases hnone
      · rw [hruns i heq, hnone] at hy
        cases hy
    · obtain ⟨reason, hlog⟩ := hrun.log
      rcases hobs.log with ⟨hsame, _⟩ | ⟨reason', hlog'⟩
      · exact ⟨_, hsame.trans hlog, by simp [Event.Concerns]⟩
      · rw [hlog, List.append_assoc] at hlog'
        refine ⟨_, hlog', ?_⟩
        simp [Event.Concerns, step.obsId, step.owner]
  · have hadded := added.run? (step.ids ids)
    refine ⟨fun i y hne hy => ?_, fun i _ => (added.obs? i).trans (step.obs? i),
      fun i y hnone hy => ?_, ?_⟩
    · rw [hadded, if_neg, step.run?_ne hne, hy]
      rintro rfl
      have hfresh := added.run?_none (step.ids ids)
      rw [step.run?] at hfresh
      split at hfresh
      · cases hfresh
      · rw [hy] at hfresh
        cases hfresh
    · rw [hadded] at hy
      split at hy
      · rename_i heq
        cases hy
        exact ⟨hnew, by rw [heq, added.id, step.runSeq], howner⟩
      · by_cases heq : i = x.id
        · rw [heq, show db.run? x.id = some x from step.found] at hnone
          cases hnone
        · rw [step.run?_ne heq, hnone] at hy
          cases hy
    · obtain ⟨reason, hlog⟩ := step.log
      obtain ⟨reason', hlog'⟩ := added.log
      rw [hlog, List.append_assoc] at hlog'
      refine ⟨_, hlog', ?_⟩
      simp [Event.Concerns, added.id, step.runSeq]

theorem Limits.tally_verdicts {rid n : Nat} {w : World Op.Reply Exn Shared Role Entry}
    (h : system.Tally L.ok (Decides rid) start n w) :
    n = 0 ∨ n = 1 ∧ ∃ x, w.shared.db.run? rid = some x ∧ x.state.Decided := by
  refine h.invariant (fun n s => n = 0 ∨ n = 1 ∧ ∃ x, s.db.run? rid = some x ∧ x.state.Decided)
    (.inl rfl) ?_
  intro n w l w' hreach hn hok hstep
  have hinv := Limits.Reach.inv hreach
  refine ⟨?_, fun _ => ?_⟩
  · rintro ⟨⟨_, new, verdict, note⟩, rfl, hcommits⟩
    obtain ⟨x, hx, hopen, hdecided, hx'⟩ := hcommits.verdict hinv.db.ids
    rcases hn with rfl | ⟨rfl, x₀, hx₀, hs⟩
    · exact .inr ⟨rfl, _, hx', hdecided⟩
    · rw [hx] at hx₀
      cases hx₀
      exact absurd hs hopen.undecided
  · refine hn.imp_right fun ⟨hone, x, hx, hs⟩ => ⟨hone, ?_⟩
    rcases (Limits.Reach.shift hreach hok hstep).tables with hsame | ⟨_, q, y, _, _, _, hrun⟩
    · exact ⟨x, hsame ▸ hx, hs⟩
    · obtain ⟨x', hx', hchange⟩ := (Db.Call.of_run hinv.db.ids hrun).persists hinv.db.ids hx
      rw [hchange.settled hs] at hx'
      exact ⟨x, hx', hs⟩

theorem settled_shift {rid : Nat} {x : ProcessingRun} {s s' : Shared} (hinv : Inv L.terms s)
    (h : s.db.run? rid = some x ∧ x.state.Decided) (hshift : L.Shift s s') :
    s'.db.run? rid = some x ∧ x.state.Decided := by
  refine ⟨?_, h.2⟩
  rcases hshift.tables with hsame | ⟨_, q, y, _, _, _, hrun⟩
  · exact hsame ▸ h.1
  · obtain ⟨x', hx', hchange⟩ := (Db.Call.of_run hinv.db.ids hrun).persists hinv.db.ids h.1
    rw [hx', hchange.settled h.2]

def Op.looks : Op → Bool
  | .db q => q.reads
  | .exists_ _ => true
  | _ => false

theorem exec_looks {o : Op} (hlooks : o.looks = true) (hinv : Inv T s) {c : Choice}
    {x : Except Exn o.Reply} (h : exec r o c s = some (x, s')) : s' = s := by
  cases o with
  | db q =>
    rcases Shared.query_eq h with rfl | ⟨y, db, _, hrun, rfl⟩
    · rfl
    · cases Db.Call.of_run hinv.db.ids hrun with
      | same => rfl
      | _ => cases hlooks
  | exists_ p => exact Shared.reading_eq h
  | _ => cases hlooks

/-- What a verdict relies on in a reply: the run that it asks for has the id by which
it asks. -/
def Op.Answers : (o : Op) → Except Exn o.Reply → Prop
  | .db (.getRun rid), .ok run => run.id = rid
  | _, _ => True

theorem exec_answers {o : Op} {c : Choice} {x : Except Exn o.Reply}
    (h : exec r o c s = some (x, s')) : o.Answers x := by
  unfold Op.Answers
  split
  · rcases Shared.query_cases h with ⟨y, db, hrun, heq, _⟩ | ⟨e, heq, _⟩
    · cases heq
      exact (Db.mem_of_run? (getRun_ok hrun).1).2
    · cases heq
  · trivial

/-- The code of an action before it has committed the verdict `v`: all it has done is
look, the only change that it can make next is to commit `v`, and unless it commits `v`
it ends by raising. -/
def Undecided {α : Type} (v : Nat × RunState × String × String) : M α → Prop
  | .ret x => ∃ e, x = .error e
  | .op o next => (o.looks = true ∧ ∀ x, o.Answers x → Undecided v (next x)) ∨
      (∃ q, o = .db q ∧ q.verdict = some v) ∧ ∀ e, Undecided v (next (.error e))

namespace Undecided

variable {α β : Type} {v : Nat × RunState × String × String}

theorem bind {p : M α} (h : Undecided v p) (f : α → M β) : Undecided v (p.bind f) := by
  induction p with
  | ret x =>
    obtain ⟨e, rfl⟩ := h
    exact ⟨e, rfl⟩
  | op o next ih =>
    rcases h with ⟨hlooks, hnext⟩ | ⟨hverdict, hnext⟩
    · exact .inl ⟨hlooks, fun x hx => ih x (hnext x hx)⟩
    · exact .inr ⟨hverdict, fun e => ih _ (hnext e)⟩

theorem raise (e : Exn) : Undecided v (throw e : M α) := ⟨e, rfl⟩

theorem ite {p q : M α} {b : Prop} [Decidable b] (hp : Undecided v p) (hq : Undecided v q) :
    Undecided v (if b then p else q) := by
  split
  · exact hp
  · exact hq

theorem look {o : Op} (hlooks : o.looks = true) {f : o.Reply → M α}
    (hf : ∀ a, o.Answers (.ok a) → Undecided v (f a)) : Undecided v ((call o).bind f) := by
  refine .inl ⟨hlooks, fun x hx => ?_⟩
  cases x with
  | ok a => exact hf a hx
  | error e => exact ⟨e, rfl⟩

theorem verdict {q : Query} (hverdict : q.verdict = some v) (f : q.Reply → M α) :
    Undecided v ((store q).bind f) :=
  .inr ⟨⟨q, rfl, hverdict⟩, fun e => ⟨e, rfl⟩⟩

/-- The checks of a verdict only look, and what follows them is about the run that was
asked for. -/
theorem review {rid : Nat} {wrong : ProcessingRun → Prop} [DecidablePred wrong]
    {onRun onObservation onData onOthers : String} {rest : ProcessingRun → Observation → M α}
    (hrest : ∀ run obs, run.id = rid → Undecided v (rest run obs)) :
    Undecided v (Sdpctl.review rid wrong onRun onObservation onData onOthers rest) := by
  refine .look rfl fun run hrun => .ite (.raise _) ?_
  refine .look rfl fun obs _ => .ite (.raise _) ?_
  refine .look rfl fun _ _ => .ite (.raise _) ?_
  exact .look rfl fun _ _ => .ite (.raise _) (hrest run obs hrun)

theorem acceptRun (rid : Nat) (note : String) :
    Undecided (rid, .accepted, "accept", note) (Sdpctl.acceptRun rid note) := by
  rw [acceptRun_eq]
  exact .review fun run _ hrun => .verdict (by simp [Query.verdict, hrun]) _

theorem reprocessRun (rid : Nat) (note : String) :
    Undecided (rid, .superseded, "reprocess", note) (Sdpctl.reprocessRun rid note) := by
  rw [reprocessRun_eq]
  exact .review fun run _ hrun =>
    .inr ⟨⟨_, rfl, by simp [Query.verdict, hrun]⟩, fun e => ⟨e, rfl⟩⟩

theorem discardFailedRun (rid : Nat) (note : String) :
    Undecided (rid, .discarded, "discard", note) (Sdpctl.discardFailedRun rid note) := by
  rw [discardFailedRun_eq]
  exact .review fun run _ hrun => .verdict (by simp [Query.verdict, hrun]) _

end Undecided

/-- The verdict that a command gives, with its run and its note. -/
def Command.verdict : Command → Option (Nat × RunState × String × String)
  | .accept rid note => some (rid, .accepted, "accept", note)
  | .reprocess rid note => some (rid, .superseded, "reprocess", note)
  | .discard rid note => some (rid, .discarded, "discard", note)
  | .resolve _ | .purge _ => none

theorem undecided_command {c : Command} {v : Nat × RunState × String × String}
    (h : c.verdict = some v) : Undecided v (Entry.code (.command c)) := by
  cases c with
  | accept rid note =>
    cases h
    exact (Undecided.acceptRun rid note).bind _
  | reprocess rid note =>
    cases h
    exact ((Undecided.reprocessRun rid note).bind _).bind _
  | discard rid note =>
    cases h
    exact (Undecided.discardFailedRun rid note).bind _
  | resolve | purge => cases h

variable {v : Nat × RunState × String × String}

/-- An operation of an undecided action commits its verdict, or changes nothing and
leaves it undecided. -/
theorem undecided_exec {α : Type} {o : Op} {next : Except Exn o.Reply → M α} (hinv : Inv T s)
    (hcode : Undecided v (.op o next)) {c : Choice} {x : Except Exn o.Reply}
    (h : exec r o c s = some (x, s')) :
    (Commits v s s' ∧ s' = { s with db := s'.db }) ∨ (s' = s ∧ Undecided v (next x)) := by
  rcases hcode with ⟨hlooks, hnext⟩ | ⟨⟨q, rfl, hverdict⟩, hnext⟩
  · exact .inr ⟨exec_looks hlooks hinv h, hnext x (exec_answers h)⟩
  · rcases Shared.query_cases h with ⟨y, db, hrun, _, rfl⟩ | ⟨e, rfl, rfl⟩
    · exact .inl ⟨⟨q, y, hverdict, hrun⟩, rfl⟩
    · exact .inr ⟨rfl, hnext e⟩

theorem undecided_resume {code : M (Option Entry)} (h : Undecided v code) :
    Undecided v (system.resume r code) := by
  unfold Machine.resume
  split
  · obtain ⟨e, he⟩ := h
    cases he
  · exact h

theorem undecided_step {w w' : World Op.Reply Exn Shared Role Entry} (h : L.Reach w) {pid : Nat}
    {p : Proc Op.Reply Exn Role Entry} (hp : w.procs[pid]? = some p) (hcli : p.role = .cli)
    (hcode : Undecided v p.code) {c : Choice} (hstep : system.step (.run pid c) w = some w') :
    (Commits v w.shared w'.shared ∧ w'.shared = { w.shared with db := w'.shared.db }) ∨
      (w'.shared = w.shared ∧
        ∃ p', w'.procs[pid]? = some p' ∧ p'.role = .cli ∧ Undecided v p'.code) := by
  cases system.stepped_of_step hstep with
  | @run _ _ p₀ o next x s' _ found code _ performs ends =>
    obtain rfl : p = p₀ := Option.some.inj (hp.symm.trans found)
    rw [hcli] at performs
    rw [code] at hcode
    rcases ends with rfl | ⟨hleader, _⟩
    · rcases undecided_exec h.inv hcode performs with hcommit | ⟨hsame, hnext⟩
      · exact .inl hcommit
      · refine .inr ⟨hsame, { p with code := system.resume p.role (next x) }, ?_, hcli,
          undecided_resume hnext⟩
        have hlt := (List.getElem?_eq_some_iff.mp hp).1
        simp [Machine.settle, List.getElem?_append, hlt]
    · rw [hcli] at hleader
      cases hleader

/-- An action whose run has been decided, before it could commit. It has been stopped
from outside, or all that it will do is look, and then raise. -/
def Lost (v : Nat × RunState × String × String) (pid : Nat)
    (w : World Op.Reply Exn Shared Role Entry) : Prop :=
  ∃ p, w.procs[pid]? = some p ∧ p.role = .cli ∧ (Undecided v p.code ∨ p.code = .ret (.ok none))

theorem Lost.step {w w' : World Op.Reply Exn Shared Role Entry} (h : L.Reach w) {pid : Nat}
    (hlost : Lost v pid w) {x : ProcessingRun} (hx : w.shared.db.run? v.1 = some x)
    (hdecided : x.state.Decided) {c : Choice} (hstep : system.step (.run pid c) w = some w') :
    w'.shared = w.shared ∧ Lost v pid w' := by
  obtain ⟨p, hp, hcli, hcode | hcode⟩ := hlost
  · rcases undecided_step h hp hcli hcode hstep with ⟨hcommits, _⟩ | ⟨hsame, p', hp', hcli', hcode'⟩
    · obtain ⟨y, hy, hopen, _⟩ := Commits.verdict h.inv.db.ids hcommits
      obtain rfl : x = y := Option.some.inj (hx.symm.trans hy)
      exact absurd hdecided hopen.undecided
    · exact ⟨hsame, p', hp', hcli', .inl hcode'⟩
  · simp [Machine.step, hp, hcode] at hstep

/-- Once the run of an action is decided and the action has not committed, it never
will, whatever else happens. -/
theorem Lost.later {w w' : World Op.Reply Exn Shared Role Entry} (h : L.Reach w) {pid : Nat}
    (hlost : Lost v pid w) {x : ProcessingRun} (hx : w.shared.db.run? v.1 = some x)
    (hdecided : x.state.Decided) (later : system.Reach L.ok w w') : Lost v pid w' := by
  refine later.invariant (Lost v pid) hlost fun w₁ l w₂ hreach hlost₁ _ hstep => ?_
  have hsettled := h.later (P := fun s => s.db.run? v.1 = some x ∧ x.state.Decided) ⟨hx, hdecided⟩
    settled_shift hreach
  have hreach₁ : L.Reach w₁ := Machine.Reach.trans h hreach
  obtain ⟨p, hp, hcli, hcode⟩ := id hlost₁
  rcases (system.stepped_of_step hstep).apart hp (by simp [system, hcli]) with
    hkept | ⟨_, hstopped⟩ | ⟨c, rfl⟩
  · exact ⟨p, hkept, hcli, hcode⟩
  · exact ⟨p.halt, hstopped, hcli, .inr rfl⟩
  · exact (Lost.step hreach₁ hlost₁ hsettled.1 hdecided hstep).2

/-- One verdict for each run. At most one is ever committed for a run, and a run with a
verdict stays as it is. The code of a command commits nothing but the verdict it was
called for, on its own run and with its own note, and before that it only looks; a
command whose run was decided by another changes nothing ever after, and raises. A
verdict judges its run and spares everything but the run, its observation, the one run
that a reprocess adds, and their history. -/
theorem one_verdict {w : World Op.Reply Exn Shared Role Entry} (h : unlimited.Reach w) :
    (∀ rid n, system.Tally unlimited.ok (Decides rid) start n w → n ≤ 1) ∧
    (∀ rid x, w.shared.db.run? rid = some x → x.qaVerdict.isSome →
      ∀ w', system.Reach unlimited.ok w w' → w'.shared.db.run? rid = some x) ∧
    (∀ (c : Command) v, c.verdict = some v → Undecided v (Entry.code (.command c))) ∧
    (∀ v (pid : Nat) p c w', w.procs[pid]? = some p → p.role = .cli → Undecided v p.code →
      system.step (.run pid c) w = some w' →
      (Commits v w.shared w'.shared ∧ w'.shared = { w.shared with db := w'.shared.db }) ∨
        (w'.shared = w.shared ∧
          ∃ p', w'.procs[pid]? = some p' ∧ p'.role = .cli ∧ Undecided v p'.code)) ∧
    (∀ v (pid : Nat) p x, w.procs[pid]? = some p → p.role = .cli → Undecided v p.code →
      w.shared.db.run? v.1 = some x → x.qaVerdict.isSome →
      ∀ w', system.Reach unlimited.ok w w' → Lost v pid w' ∧
        ∀ c w'', system.step (.run pid c) w' = some w'' → w''.shared = w'.shared) ∧
    ∀ (q : Query) y db' rid new verdict note, q.verdict = some (rid, new, verdict, note) →
      q.run w.shared.db = .ok (y, db') →
      ∃ x, w.shared.db.run? rid = some x ∧ db'.run? rid = some (Db.judged x new verdict note) ∧
        Db.Spares w.shared.db db' x new := by
  have hinv := h.inv
  have hdecided : ∀ {rid x}, w.shared.db.run? rid = some x → x.qaVerdict.isSome →
      x.state.Decided := fun hx => ((h.keeps (judged_keeps unlimited)).2 _ _ hx).mp
  refine ⟨fun rid n htally => ?_, fun rid x hx hverdict w' hlater => ?_,
    fun _ _ => undecided_command, fun v pid p c w' hp hcli hcode hstep =>
      undecided_step h hp hcli hcode hstep,
    fun v pid p x hp hcli hcode hx hverdict w' hlater => ?_,
    fun q y db' rid new verdict note hq hrun => ?_⟩
  · rcases Limits.tally_verdicts htally with rfl | ⟨rfl, _⟩
    · exact Nat.zero_le 1
    · exact Nat.le_refl 1
  · exact (h.later (P := fun s => s.db.run? rid = some x ∧ x.state.Decided)
      ⟨hx, hdecided hx hverdict⟩ settled_shift hlater).1
  · have hsettled := h.later (P := fun s => s.db.run? v.1 = some x ∧ x.state.Decided)
      ⟨hx, hdecided hx hverdict⟩ settled_shift hlater
    have hlost : Lost v pid w' :=
      Lost.later h ⟨p, hp, hcli, .inl hcode⟩ hx (hdecided hx hverdict) hlater
    exact ⟨hlost, fun c w'' hstep =>
      (Lost.step (Machine.Reach.trans h hlater) hlost hsettled.1 hsettled.2 hstep).1⟩
  · have hcall := Db.Call.of_run hinv.db.ids hrun
    obtain ⟨x, hx, _, _, hx'⟩ := hcall.verdict hinv.db.ids hq
    exact ⟨x, hx, hx', hcall.spares hinv.db.ids hq hx⟩

def firstVerdict : List (Label Role Entry Choice Env) :=
  firstReview ++ [.enter .cli (.command (.accept 1 "fine"))] ++ steps 4 5

/-- The first run has been accepted, and every later step leaves its state and its note as they
are. -/
theorem one_verdict_first : ∃ w x, unlimited.Reach w ∧ w.shared.db.run? 1 = some x ∧
    x.qaVerdict = some "accept" ∧ ∀ w', system.Reach unlimited.ok w w' →
      w'.shared.db.run? 1 = some x := by
  obtain ⟨w, hreach, htest⟩ := unlimited.reach_of_replay (fun _ _ => true)
    (fun _ l _ => unlimited_ok l) firstVerdict
    (fun w => (w.shared.db.run? 1).any fun x => x.qaVerdict == some "accept") (by decide +kernel)
  obtain ⟨x, hx, hs⟩ := (Option.any_eq_true _ _).mp htest
  have haccept : x.qaVerdict = some "accept" := by simpa using hs
  exact ⟨w, x, hreach, hx, haccept, (one_verdict hreach).2.1 1 x hx (by simp [haccept])⟩

end Sdpctl
