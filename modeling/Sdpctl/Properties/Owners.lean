import Sdpctl.Slots.Sound

/-!
Who owns the running rows. From the end of the first sweep of a controller on, a
running row has one live worker, which holds a slot or is just between its slot and
the end of its failure handler, or it has none because that handler raised. Nobody
but the worker moves the row, and what the worker itself does to it succeeds.
-/

namespace Sdpctl

open FileTree Coop

variable {w : World Op.Reply Exn Shared Role Entry} {s : Shared} {v : List (Role × Duty)}

/-- `_sweep_orphaned_inprocess_states` has ended: the controller is about to perform the
first operation of `_retry_failed_runs`. -/
def SweepEnds (w : World Op.Reply Exn Shared Role Entry) : Prop :=
  ∃ (pid : Nat) (p : Proc Op.Reply Exn Role Entry) (m : Nat) (next : _),
    w.procs[pid]? = some p ∧ p.role = .main ∧
    p.code = .op (.db (.markExhaustedFailedRuns m)) next

/-- The process is a `_process` worker of the run that has not ended: it still has an operation
to perform. -/
def LiveWorker (w : World Op.Reply Exn Shared Role Entry) (pid rid : Nat) : Prop :=
  ∃ (p : Proc Op.Reply Exn Role Entry) (task : Nat) (o : Op) (next : _),
    w.procs[pid]? = some p ∧ p.role = .process task rid ∧ p.code = .op o next

section Phases

theorem LiveWorker.phase {pid rid : Nat} (h : LiveWorker w pid rid) (hon : duties.On w v) :
    ∃ p task g, w.procs[pid]? = some p ∧ p.role = .process task rid ∧ duties.In p g ∧
      v[pid]? = some (.process task rid, g) ∧ g.works = true := by
  obtain ⟨p, task, o, next, hp, hrole, hcode⟩ := h
  obtain ⟨g, hg, hin⟩ := hon.entry hp
  have hmay := (hin.tracks hcode).1
  rw [hrole] at hg hmay
  exact ⟨p, task, g, hp, hrole, hin, hg, works_of_may hmay⟩

def executing (c : Role × Duty) : Option Nat :=
  match c.1 with
  | .process _ rid => if c.2.executes then some rid else none
  | _ => none

theorem executing_count (v : List (Role × Duty)) :
    (v.filterMap executing).length ≤ v.countP holding + v.countP handling := by
  induction v with
  | nil => exact Nat.le_refl _
  | cons c rest ih =>
    obtain ⟨r, g⟩ := c
    rw [List.filterMap_cons, List.countP_cons, List.countP_cons]
    cases r with
    | process task rid =>
      cases g <;> simp [executing, holding, handling, Duty.executes, Duty.holds] <;> omega
    | _ =>
      simp only [executing, holding, handling]
      simpa using ih

end Phases

section Account

theorem Slots.bounded {after : Bool} (h : Slots after w.shared v) (hon : duties.On w v)
    (hup : w.shared.ctl.up = true) {rids : List Nat} (hnodup : rids.Nodup)
    (hall : ∀ rid ∈ rids, w.shared.db.Running rid ∧ ∃ pid, LiveWorker w pid rid) :
    rids.length ≤ w.shared.ctl.cfg.maxParallelProcessing := by
  have hsub : List.Subperm rids (v.filterMap executing) := by
    refine List.subperm_of_subset hnodup fun rid hrid => ?_
    obtain ⟨hrunning, pid, hlive⟩ := hall rid hrid
    obtain ⟨p, task, g, _, _, _, hv, hworks⟩ := hlive.phase hon
    have hexecutes := (h.workers pid task rid g hv hworks).running.mpr hrunning
    refine List.mem_filterMap.mpr ⟨_, List.mem_of_getElem? hv, ?_⟩
    simp [executing, hexecutes]
  have hcount := executing_count v
  have hslots := h.slots hup
  have hroom := h.room hup
  have hlength := hsub.length_le
  omega

theorem Slots.settled {after : Bool} (h : Slots after w.shared v) (hon : duties.On w v)
    (ids : w.shared.db.Ids) {pid : Nat} {p : Proc Op.Reply Exn Role Entry} {task rid i : Nat}
    {new : RunState} {reason : String} {code : Option Int} {next}
    (hp : w.procs[pid]? = some p) (hrole : p.role = .process task rid)
    (hcode : p.code = .op (.db (.transitionRun i .running new reason code)) next) :
    i = rid ∧
      ∃ db, (Query.transitionRun i .running new reason code).run w.shared.db = .ok ((), db) := by
  obtain ⟨g, hv, hin⟩ := hon.entry hp
  have hmay := (hin.tracks hcode).1
  rw [hrole] at hv hmay
  have hserves := h.workers pid task rid g hv (works_of_may hmay)
  have hsettles : g.executes = true ∧ i = rid ∧ (new = .failed ∨ new = .awaitingQa) := by
    cases g with
    | waiting => rcases hmay with ho | ho | ho | ⟨_, ho⟩ | ⟨_, _, ho⟩ <;> cases ho
    | held => rcases hmay with ho | ho | ⟨_, _, ho⟩ <;> cases ho
    | claimed =>
      rcases hmay with ho | ho | ho | ⟨new', _, _, hnew, ho⟩ <;> cases ho
      exact ⟨rfl, rfl, hnew⟩
    | failing =>
      rcases hmay with ho | ⟨_, ho⟩ | ⟨_, _, ho⟩ <;> cases ho
      exact ⟨rfl, rfl, .inl rfl⟩
    | _ => exact hmay.elim
  obtain ⟨hexecutes, rfl, hnew⟩ := hsettles
  obtain ⟨q, hq, hstate⟩ := hserves.running.mp hexecutes
  have hlegal : new ∈ runTransitions .running := by
    rcases hnew with rfl | rfl <;> decide
  refine ⟨rfl, ?_⟩
  cases hrun : w.shared.db.transitionRun i .running new reason code with
  | ok db => exact ⟨db, by simp [Query.run, hrun, Except.map]⟩
  | error e =>
    obtain ⟨_, hno⟩ := Db.transitionRun_error ids hlegal hrun
    exact absurd hstate (hno q hq)

theorem Slots.untouched {after : Bool} (h : Slots after w.shared v) (hon : duties.On w v)
    (hreach : unlimited.Reach w) {pid rid : Nat} {l : Label Role Entry Choice Env}
    {w' : World Op.Reply Exn Shared Role Entry} (hlive : LiveWorker w pid rid)
    (hrunning : w.shared.db.Running rid) (hother : ∀ c, l ≠ .run pid c)
    (hstep : system.step l w = some w') :
    w'.shared.db.run? rid = w.shared.db.run? rid := by
  cases system.stepped_of_step hstep with
  | @run i c p o next x s' _ hp hcode _ hexec ends =>
    obtain ⟨q, task, g, hq, hrole, _, hv, hworks⟩ := hlive.phase hon
    have howns := (h.workers pid task rid g hv hworks).owns
    have hne : p.role ≠ .process task rid := by
      intro heq
      obtain ⟨q', _, o', next', hq', _, hcode'⟩ := hlive
      rw [hq] at hq'
      cases hq'
      have hsame : i = pid := hreach.holds.unique i pid p q hp hq ⟨o, next, hcode⟩
        ⟨o', next', hcode'⟩ (by rw [heq]; rfl) (heq.trans hrole.symm)
      exact hother c (by rw [hsame])
    have hallowed := hreach.allowed hp hcode (c := c) ⟨by simp [unlimited], by simp [unlimited]⟩
    have hmove := exec_step hreach.inv hallowed hexec
    obtain ⟨row, hrow, hstate⟩ := hrunning
    have hkept := hmove.running_of_other hreach.inv hne howns hrow hstate
    rw [hrow]
    rcases ends with rfl | ⟨_, rfl⟩ <;> exact hkept
  | env moves => exact congrArg (·.run? rid) (env_move moves).db
  | enter moves => exact congrArg (·.run? rid) (enter_same (system_enter moves).2).1
  | stop | crash => rfl

end Account

section Sweep

theorem slots_initial : Slots false initial [] := by
  refine ⟨?_, ?_, ?_, ?_, ?_, ?_, ?_⟩
  · intro _ i r g hi
    cases hi
  · intro i j g g' hi
    cases hi
  · intro i task rid g hi
    cases hi
  · intro hup
    cases hup
  · intro hup
    cases hup
  · intro i g hi
    cases hi
  · intro hafter
    cases hafter

theorem oneController_false (l : Label Role Entry Choice Env) : oneController false w l := by
  cases l with
  | enter r n => cases r <;> first | rfl | trivial
  | _ => trivial

/-- When the last row of its first sweep is visited, the controller has swept. -/
theorem Slots.swept (h : Slots false s v) {pid : Nat} (hv : v[pid]? = some (.main, .sweeping [])) :
    Slots true s (v.set pid (.main, .swept [])) := by
  have hback : ∀ {i : Nat} {r : Role} {g : Duty}, (v.set pid (.main, .swept []))[i]? = some (r, g) →
      i = pid ∧ r = .main ∧ g = .swept [] ∨ i ≠ pid ∧ v[i]? = some (r, g) := by
    intro i r g hi
    rw [← List.append_nil (v.set pid _)] at hi
    rcases moved_cases hi with ⟨hpid, heq⟩ | hold | hmem
    · cases heq
      exact .inl ⟨hpid, rfl, rfl⟩
    · exact .inr hold
    · cases hmem
  have hcount : ∀ p : Role × Duty → Bool, (∀ g, p (.main, g) = false) →
      (v.set pid (.main, .swept [])).countP p = v.countP p := by
    intro p hp
    have hmoved := moved_count (b := []) (c := (Role.main, Duty.swept [])) p hv
    simpa [hp] using hmoved
  have hself : (v.set pid (.main, .swept []))[pid]? = some (.main, .swept []) := by
    simpa using moved_self (b := []) (c := (Role.main, Duty.swept [])) hv
  have hmain := h.main pid _ hv
  refine ⟨?_, ?_, ?_, ?_, ?_, ?_, fun _ _ => ⟨pid, [], hself⟩⟩
  · intro hdown i r g hi hr
    rcases hback hi with ⟨rfl, rfl, _⟩ | ⟨_, hi⟩
    · cases h.down hdown i _ _ hv hr
    · exact h.down hdown i r g hi hr
  · intro i j g g' hi hj hg hg'
    have hold : ∀ {k : Nat} {d : Duty}, (v.set pid (.main, .swept []))[k]? = some (.main, d) →
        d.controls = true → ∃ d₀, v[k]? = some (.main, d₀) ∧ d₀.controls = true := by
      intro k d hk hd
      rcases hback hk with ⟨rfl, _, _⟩ | ⟨_, hk'⟩
      · exact ⟨_, hv, rfl⟩
      · exact ⟨d, hk', hd⟩
    obtain ⟨d₀, hi', hd₀⟩ := hold hi hg
    obtain ⟨d₁, hj', hd₁⟩ := hold hj hg'
    exact h.single i j d₀ d₁ hi' hj' hd₀ hd₁
  · intro i task rid g hi hg
    rcases hback hi with ⟨_, hr, _⟩ | ⟨_, hi⟩
    · cases hr
    · exact h.workers i task rid g hi hg
  · intro hup
    rw [hcount holding fun _ => rfl]
    exact h.slots hup
  · intro hup
    rw [hcount handling fun _ => rfl]
    exact h.room hup
  · intro i g hi
    rcases hback hi with ⟨_, _, rfl⟩ | ⟨hne, hi⟩
    · exact ⟨fun rid hrunning => absurd (hmain.2 rid hrunning) (by simp), by simp⟩
    · cases hg : g.controls with
      | true => exact absurd (h.single i pid g _ hi hv hg rfl) hne
      | false => cases g <;> trivial

/-- At the end of a sweep the slots, the tasks and the rows hang together. -/
theorem SweepEnds.slots (hends : SweepEnds w) (hreach : unlimited.Reach w) :
    ∃ v, duties.On w v ∧ Slots true w.shared v := by
  have hstart : duties.On start [] := ⟨rfl, fun hp _ => by cases hp⟩
  have hsound : duties.Sound system (oneController false) start (Slots false) := slots_sound .init
  obtain ⟨v, hon, hslots⟩ := hsound.reach hstart slots_initial
    (hreach.mono fun _ l _ => oneController_false l)
  obtain ⟨pid, p, m, next, hp, hrole, hcode⟩ := hends
  obtain ⟨g, hv, hin⟩ := hon.entry hp
  obtain ⟨hmay, htracks⟩ := hin.tracks hcode
  rw [hrole] at hv hmay htracks
  cases g with
  | unswept => exact hmay.elim
  | sweeping todo =>
    obtain ⟨rfl, _⟩ : todo = [] ∧ _ := hmay.resolve_left id
    refine ⟨_, ?_, hslots.swept hv⟩
    have hmoved : duties.In p (.swept []) := by
      left
      rw [hrole, hcode]
      refine ⟨⟨.inr (.inr (.inl ⟨m, rfl⟩)), (fun rid ho => by cases ho), fun _ => rfl⟩,
        fun x _ => ?_⟩
      have hturn := htracks x trivial
      cases x <;> exact hturn
    have hset : duties.On { shared := w.shared, procs := w.procs.set pid p }
        (v.set pid (p.role, .swept [])) := hon.set w.shared hmoved
    obtain ⟨hlt, hget⟩ := List.getElem?_eq_some_iff.mp hp
    have hsame : w.procs.set pid p = w.procs := by
      rw [← hget]
      exact List.set_getElem_self hlt
    rw [hsame, hrole] at hset
    exact hset
  | swept queued =>
    exact ⟨v, hon, { hslots with after := fun _ _ => ⟨pid, queued, hv⟩ }⟩
  | _ => exact hmay.elim

end Sweep

section Concrete

end Concrete

end Sdpctl
