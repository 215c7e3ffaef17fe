import Sdpctl.Coop.Phases
import Sdpctl.Programs.Footprint
import Sdpctl.System.Machine

/-!
What the controller and its processing workers are at: how far the first sweep has
come, whether a worker holds a slot, whether its run is running. The code of both
keeps to a script that says what each of these phases allows.
-/

namespace Sdpctl

open FileTree Coop

inductive Duty where
  /-- It has nothing to do with the runs. -/
  | bystander
  /-- The controller, before it has listed the running rows of a sweep. -/
  | unswept
  /-- The controller, with the rows that its first sweep has still to visit. -/
  | sweeping (todo : List Nat)
  /-- The controller after a sweep, with the rows that it has read as queued. -/
  | swept (queued : List Nat)
  /-- A worker without a slot. -/
  | waiting
  /-- A worker with a slot whose run is not running. -/
  | held
  /-- A worker with a slot whose run is running. -/
  | claimed
  /-- A worker past its slot whose run is still running. -/
  | failing
  | done
  /-- A worker that ended in its failure handler. -/
  | lost
  | dead
  deriving DecidableEq

namespace Duty

def holds : Duty → Bool
  | .held | .claimed => true
  | _ => false

def executes : Duty → Bool
  | .claimed | .failing => true
  | _ => false

/-- The run of the worker is running, if nobody has moved it since the worker ended. -/
def leaves : Duty → Bool
  | .claimed | .failing | .lost => true
  | _ => false

def works : Duty → Bool
  | .waiting | .held | .claimed | .failing => true
  | _ => false

def controls : Duty → Bool
  | .unswept | .sweeping _ | .swept _ => true
  | _ => false

/-- What an operation of the controller leads to. -/
def control (g : Duty) (o : Op) (x : Except Exn o.Reply) : Duty :=
  match g with
  | .unswept =>
    match o, x with
    | .db (.listRuns [.running]), .ok rows => .sweeping (rows.map (·.id))
    | _, _ => .unswept
  | .sweeping todo =>
    match o, x with
    | .db (.listRuns [.running]), .ok rows => .sweeping (rows.map (·.id))
    | .db (.transitionRun rid .running .failed _ _), .ok _
    | .db (.transitionRun rid .running .failed _ _), .error (.transitionError _) =>
        .sweeping (todo.filter (· ≠ rid))
    | .db (.markExhaustedFailedRuns _), _ => .swept []
    | _, _ => .sweeping todo
  | .swept queued =>
    match o, x with
    | _, .error _ => .swept []
    | .db (.listRuns [.queued]), .ok rows => .swept (rows.map (·.id))
    | .tickReturned _, .ok _ => .swept []
    | _, .ok _ => .swept queued
  | g => g

def work (g : Duty) (o : Op) (x : Except Exn o.Reply) : Duty :=
  match g with
  | .waiting =>
    match o, x with
    | .acquire, .ok _ => .held
    | .finish _, _ => .done
    | _, _ => .waiting
  | .held =>
    match o, x with
    | .db (.transitionRun _ .queued .running _ _), .ok _ => .claimed
    | .release, _ => .waiting
    | _, _ => .held
  | .claimed =>
    match o, x with
    | .db (.transitionRun _ .running _ _ _), .ok _ => .held
    | .release, _ => .failing
    | _, _ => .claimed
  | .failing =>
    match o, x with
    | .db (.transitionRun _ .running _ _ _), .ok _ => .waiting
    | .finish _, _ => .lost
    | _, _ => .failing
  | g => g

end Duty

/-- The script of the controller: no worker starts before the first sweep has visited
every running row, and none but for a row read as queued. -/
def controllerScript : Script Op.Reply Exn Duty where
  turn := Duty.control
  may g o :=
    match g with
    | .unswept => o.plain
    | .sweeping todo => o.plain ∨ (todo = [] ∧ ∃ m, o = .db (.markExhaustedFailedRuns m))
    | .swept queued => o.ticks ∧ (∀ rid, o = .trackProcess rid → rid ∈ queued) ∧
        (awaits o = true → queued = [])
    | _ => False
  can g o x :=
    match g, o, x with
    | .unswept, .runTaskLive _, x | .sweeping _, .runTaskLive _, x => x = .ok false
    | _, _, _ => True

/-- What a worker does at any time: it reads its rows, writes events and products. -/
def Op.tends (rid : Nat) : Op → Prop
  | .db (.getRun i) => i = rid
  | .db (.getObservation _) | .db (.recordEvent _ _ _) => True
  | .startProcess _ _ _ _ _ | .exists_ _ | .makePreview _ _ => True
  | _ => False

def workerScript (rid : Nat) : Script Op.Reply Exn Duty where
  turn := Duty.work
  may g o :=
    match g with
    | .waiting => o.tends rid ∨ o = .taskStart ∨ o = .acquire ∨ (∃ task, o = .finish task) ∨
        ∃ reason code, o = .db (.transitionRun rid .queued .failed reason code)
    | .held => o.tends rid ∨ o = .release ∨
        ∃ reason code, o = .db (.transitionRun rid .queued .running reason code)
    | .claimed => o.tends rid ∨ o = .release ∨ o = .awaitProcess rid ∨
        ∃ new reason code, (new = .failed ∨ new = .awaitingQa) ∧
          o = .db (.transitionRun rid .running new reason code)
    | .failing => o.tends rid ∨ (∃ task, o = .finish task) ∨
        ∃ reason code, o = .db (.transitionRun rid .running .failed reason code)
    | _ => False
  can g o x :=
    match g, o, x with
    | .waiting, .db (.getRun _), .ok run => run.state ≠ .running
    | .failing, .db (.getRun _), .ok run => run.state = .running
    | .failing, .db (.getRun _), .error e => e = .sqliteError
    | .failing, .db (.transitionRun _ _ _ _ _), .error e => e = .sqliteError
    | _, _, _ => True

def bystanderScript : Script Op.Reply Exn Duty where
  turn g _ _ := g
  may g o := g = .bystander ∧ (o.plain ∨ ∃ i p l, o = .startObserve i p l)
  can _ _ _ := True

section Worker

variable {rid : Nat}

/-- The claim at the start: the run of the worker is running if it says so. -/
theorem claimRun_tracks : (claimRun rid).Tracks (workerScript rid) (fun x g =>
    g = .claimed ∧ x = .ok true ∨ g = .held ∧ x ≠ .ok true) .held := by
  refine .catchAll (P := fun x g => g = .claimed ∧ x = .ok true ∨ g = .held ∧ ∃ e, x = .error e)
    ?_ (fun a g h => ?_) fun e g h => ?_
  · refine .call (.inr (.inr ⟨_, _, rfl⟩)) (fun _ _ => .inl ⟨rfl, rfl⟩)
      fun e _ => .inr ⟨rfl, e, rfl⟩
  · rcases h with h | ⟨_, e, he⟩
    · exact .inl h
    · cases he
  · obtain rfl : g = .held := by
      rcases h with ⟨_, he⟩ | ⟨hg, _⟩
      · cases he
      · exact hg
    cases e <;> exact .inr ⟨rfl, by simp⟩

theorem previewReason_tracks (image output : Path) :
    (previewReason rid image output).Tracks (workerScript rid)
      (fun _ g => g = .claimed) .claimed := by
  refine .catchAll (P := fun _ g => g = .claimed) ?_ (fun _ _ h => h) fun e g h => ?_
  · exact .call (.inl trivial) (fun _ _ => rfl) fun _ _ => rfl
  · subst h
    exact .call (.inl trivial) (fun _ _ => rfl) fun _ _ => rfl

/-- With a slot: the run is running exactly when the body of the worker ends by an
exception after its claim. -/
theorem processRun_tracks : (processRun rid).Tracks (workerScript rid) (fun x g =>
    g = .held ∨ g = .claimed ∧ ∃ e, x = .error e) .held := by
  have hsettle : ∀ {new : RunState} {reason : String} {code : Option Int},
      new = .failed ∨ new = .awaitingQa →
      (store (.transitionRun rid .running new reason code)).Tracks (workerScript rid) (fun x g =>
        g = .held ∨ g = .claimed ∧ ∃ e, x = .error e) .claimed := by
    intro new reason code hnew
    refine ⟨.inr (.inr (.inr ⟨_, _, _, hnew, rfl⟩)), fun x _ => ?_⟩
    cases x with
    | ok _ => exact .inl rfl
    | error e => exact .inr ⟨rfl, e, rfl⟩
  refine .call (.inl rfl) (fun run _ => ?_) fun _ _ => .inl rfl
  refine .bind claimRun_tracks (fun b g h => ?_) fun e g h => .inl ?_
  · cases b with
    | false =>
      obtain rfl : g = .held := by simpa using h
      exact .inl rfl
    | true =>
      obtain rfl : g = .claimed := by simpa using h
      refine .call (.inl trivial) (fun obs _ => ?_) fun e _ => .inr ⟨rfl, e, rfl⟩
      refine .call (.inl trivial) (fun _ _ => ?_) fun e _ => .inr ⟨rfl, e, rfl⟩
      refine .call (.inr (.inr (.inl rfl))) (fun rc _ => ?_) fun e _ => .inr ⟨rfl, e, rfl⟩
      refine .ite (fun _ => hsettle (.inl rfl)) fun _ => ?_
      refine .call (.inl trivial) (fun b _ => ?_) fun e _ => .inr ⟨rfl, e, rfl⟩
      refine .ite (fun _ => ?_) fun _ => hsettle (.inl rfl)
      refine .bind (previewReason_tracks _ _) (fun reason g hg => ?_)
        fun e g hg => .inr ⟨hg, e, rfl⟩
      subst hg
      exact hsettle (.inr rfl)
  · simpa using h

/-- The handler, without a slot: it moves the run on, or it raises itself. -/
theorem failProcess_tracks {g : Duty} (hg : g = .waiting ∨ g = .failing) (e : Exn) :
    (failProcess rid e).Tracks (workerScript rid) (fun x g =>
      g = .waiting ∨ g = .failing ∧ ∃ e, x = .error e) g := by
  rcases hg with rfl | rfl
  · refine .bind (P := fun x g => g = .waiting ∧ ∀ run, x = .ok (some run) → run.state ≠ .running)
      ?_ (fun found g h => ?_) fun e g h => .inl h.1
    · refine .catchAll (P := fun x g => g = .waiting ∧ ∀ run, x = .ok (some run) →
        run.state ≠ .running) ?_ (fun _ _ h => h) fun e g h => ?_
      · refine .call (.inl rfl) (fun run hrun => ⟨rfl, fun q hq => ?_⟩) fun _ _ => ⟨rfl, by simp⟩
        cases hq
        exact hrun
      · cases e <;> exact ⟨h.1, by simp⟩
    · obtain ⟨rfl, hstate⟩ := h
      cases found with
      | none => exact .inl rfl
      | some run =>
        refine .ite (fun _ => ?_) fun _ => .ite (fun hrun => absurd hrun (hstate run rfl))
          fun _ => ?_
        · refine .catchAll (P := fun _ g => g = .waiting) ?_ (fun _ _ h => .inl h) fun e g h => ?_
          · exact ⟨.inr (.inr (.inr (.inr ⟨_, _, rfl⟩))), fun _ _ => rfl⟩
          · cases e <;> exact .inl h
        · exact ⟨.inl trivial, fun _ _ => .inl rfl⟩
  · refine .bind (P := fun x g => g = .failing ∧ ((∃ run, x = .ok (some run) ∧
        run.state = .running) ∨ ∃ e, x = .error e)) ?_ (fun found g h => ?_)
      fun e g h => .inr ⟨h.1, e, rfl⟩
    · refine .catchAll (P := fun x g => g = .failing ∧ ((∃ run, x = .ok (some run) ∧
        run.state = .running) ∨ x = .error .sqliteError)) ?_ (fun a g h => ?_) fun e g h => ?_
      · refine .call (.inl rfl) (fun run hrun => ⟨rfl, .inl ⟨run, rfl, hrun⟩⟩) fun e he => ?_
        exact ⟨rfl, .inr (congrArg _ he)⟩
      · exact ⟨h.1, h.2.imp_right fun h => ⟨_, h⟩⟩
      · obtain ⟨rfl, ⟨_, h, _⟩ | h⟩ := h
        · cases h
        · cases h
          exact ⟨rfl, .inr ⟨_, rfl⟩⟩
    · obtain ⟨rfl, ⟨run, hrun, hstate⟩ | ⟨_, h⟩⟩ := h
      · cases hrun
        refine .ite (fun hno => ?_) fun _ => .ite (fun _ => ?_) fun hno => absurd hstate hno
        · rw [hstate] at hno
          cases hno
        · refine .catchAll (P := fun x g => g = .waiting ∨ g = .failing ∧ x = .error .sqliteError)
            ?_ (fun a g h => ?_) fun e g h => ?_
          · refine ⟨.inr (.inr ⟨_, _, rfl⟩), fun x hx => ?_⟩
            cases x with
            | ok _ => exact .inl rfl
            | error e => exact .inr ⟨rfl, congrArg _ hx⟩
          · rcases h with h | ⟨_, h⟩
            · exact .inl h
            · cases h
          · rcases h with h | ⟨h, he⟩
            · cases e <;> exact .inl h
            · cases he
              exact .inr ⟨h, _, rfl⟩
      · cases h

/-- `_process`: when it ends, its run is not running, or its handler has raised. -/
theorem process_tracks (cfg : Config) (task : Nat) :
    (Entry.process cfg task rid).code.Tracks (workerScript rid) (fun x g =>
      (∀ n, x ≠ .ok (some n)) ∧ (g = .done ∨ g = .lost ∧ ∃ e, x = .error e)) .waiting := by
  have hfinish : ∀ {g : Duty} {α : Type} {f : Unit → M α} {Q : Except Exn α → Duty → Prop},
      g = .waiting ∨ g = .failing → (∀ g', g' = (if g = .waiting then .done else .lost) →
        (f ()).Tracks (workerScript rid) Q g' ∧ ∀ e, Q (.error e) g') →
      ((call (.finish task)).bind f).Tracks (workerScript rid) Q g := by
    intro g α f Q hg hQ
    rcases hg with rfl | rfl
    · exact .call (.inr (.inr (.inr (.inl ⟨_, rfl⟩)))) (fun _ _ => (hQ _ rfl).1)
        fun e _ => (hQ _ rfl).2 e
    · exact .call (.inr (.inl ⟨_, rfl⟩)) (fun _ _ => (hQ _ rfl).1) fun e _ => (hQ _ rfl).2 e
  have hbody : (do call .taskStart; processWorker rid : M (Option Entry)).Tracks (workerScript rid)
      (fun x g => g = .waiting ∧ (∀ n, x ≠ .ok (some n)) ∨ g = .failing ∧ ∃ e, x = .error e)
      .waiting := by
    refine .call (.inr (.inl rfl)) (fun _ _ => ?_) fun _ _ => .inl ⟨rfl, by simp⟩
    refine .bind (P := fun x g => g = .waiting ∨ g = .failing ∧ ∃ e, x = .error e) ?_
      (fun _ g h => .inl ⟨?_, by simp⟩) fun e g h => ?_
    · refine .catchAll (P := fun x g => g = .waiting ∨ g = .failing ∧ ∃ e, x = .error e) ?_
        (fun _ _ h => h) fun e g h => failProcess_tracks (h.imp_right And.left) e
      refine .call (.inr (.inr (.inl rfl))) (fun _ _ => ?_) fun _ _ => .inl rfl
      refine processRun_tracks.finallyDo fun x g h => ?_
      rcases h with rfl | ⟨rfl, e, rfl⟩
      · exact .call (.inr (.inl rfl)) (fun _ _ => .inl rfl) fun _ _ => .inl rfl
      · exact .call (.inr (.inl rfl)) (fun _ _ => .inr ⟨rfl, e, rfl⟩) fun e _ => .inr ⟨rfl, e, rfl⟩
    · simpa using h
    · rcases h with h | h
      · exact .inl ⟨h, by simp⟩
      · exact .inr ⟨h.1, e, rfl⟩
  refine .bind (P := fun x g => (g = .waiting ∧ x = .ok none) ∨
      (g = .done ∨ g = .lost) ∧ ∃ e, x = .error e) ?_ (fun next g h => ?_) fun e g h => ?_
  · refine hbody.catchAll (fun a g h => ?_) fun e g h => ?_
    · rcases h with ⟨hg, hno⟩ | ⟨_, e, he⟩
      · cases a with
        | none => exact .inl ⟨hg, rfl⟩
        | some n => exact absurd rfl (hno n)
      · cases he
    · refine hfinish (h.imp And.left And.left)
        fun g' hg' => ⟨.inr ⟨?_, e, rfl⟩, fun e' => .inr ⟨?_, e', rfl⟩⟩
      all_goals
        rw [hg']
        split
        · exact .inl rfl
        · exact .inr rfl
  · obtain ⟨rfl, hnext⟩ | ⟨_, e, he⟩ := h
    · cases hnext
      exact hfinish (.inl rfl) fun g' hg' => ⟨⟨by simp, .inl hg'⟩, fun e => ⟨by simp, .inl hg'⟩⟩
    · cases he
  · obtain ⟨_, he⟩ | ⟨hg, _⟩ := h
    · cases he
    · exact ⟨by simp, hg.imp_right fun h => ⟨h, e, rfl⟩⟩

end Worker

section Controller

/-- The controller has not ended its first sweep. -/
def Duty.Unready (g : Duty) : Prop := g = .unswept ∨ ∃ todo, g = .sweeping todo

theorem control_unready {g : Duty} (hg : g.Unready) {o : Op} (ho : o.plain)
    (x : Except Exn o.Reply) : (g.control o x).Unready := by
  rcases hg with rfl | ⟨todo, rfl⟩
  · unfold Duty.control
    simp only
    split
    · exact .inr ⟨_, rfl⟩
    · exact .inl rfl
  · unfold Duty.control
    simp only
    split
    · exact .inr ⟨_, rfl⟩
    · exact .inr ⟨_, rfl⟩
    · exact .inr ⟨_, rfl⟩
    · exact ho.elim
    · exact .inr ⟨_, rfl⟩

theorem control_swept {o : Op} (ho : o.plain) (x : Except Exn o.Reply) :
    (Duty.swept []).control o x = .swept [] := by
  unfold Duty.control
  simp only
  split
  · rfl
  · exact ho.elim
  · rfl
  · rfl

/-- Before the first sweep ends, a part of the tick that starts nothing. -/
theorem unready_tracks {α : Type} {p : M α} (hp : p.Uses Op.plain) {g : Duty} (hg : g.Unready) :
    p.Tracks controllerScript (fun _ g => g.Unready) g := by
  refine Prog.Tracks.uses hp (fun g o hg ho => ⟨?_, fun x _ => control_unready hg ho x⟩) hg
  rcases hg with rfl | ⟨todo, rfl⟩
  · exact ho
  · exact .inl ho

theorem swept_tracks {α : Type} {p : M α} (hp : p.Uses Op.plain) :
    p.Tracks controllerScript (fun _ g => g = .swept []) (.swept []) := by
  refine Prog.Tracks.uses hp (fun g o hg ho => ?_) rfl
  subst hg
  refine ⟨⟨ho.ticks, fun rid hrid => ?_, fun _ => rfl⟩, fun x _ => control_swept ho x⟩
  subst hrid
  exact ho.elim

/-- How the visit of the running row `rid` ends: the row is done with, also when somebody
else has moved it, or the exception goes on. -/
def Visited (todo : List Nat) (rid : Nat) (x : Except Exn Unit) (g : Duty) : Prop :=
  match x with
  | .ok _ | .error (.transitionError _) => g = .sweeping (todo.filter (· ≠ rid))
  | .error _ => g.Unready

/-- A sweep: at its end it has visited every row that it has read as running. -/
theorem sweep_tracks {g : Duty} (hg : g.Unready) :
    sweepOrphanedInprocessStates.Tracks controllerScript (fun x g => match x with
      | .ok _ => g = .sweeping []
      | .error _ => g.Unready) g := by
  have hask : (store (.listObservations [.observing])).Uses Op.plain := Prog.uses_call trivial
  refine .bind (unready_tracks hask hg) (fun _ g hg => ?_) fun _ _ h => h
  refine .bind (unready_tracks (Prog.uses_forEach sweepObservation_plain) hg) (fun _ g hg => ?_)
    fun _ _ h => h
  have hlist : ∀ x : Except Exn (List ProcessingRun), ∀ rows, x = .ok rows →
      g.control (.db (.listRuns [.running])) x = .sweeping (rows.map (·.id)) := by
    rintro _ rows rfl
    rcases hg with rfl | ⟨todo, rfl⟩ <;> rfl
  have hmay : controllerScript.may g (.db (.listRuns [.running])) := by
    rcases hg with rfl | ⟨todo, rfl⟩
    · exact trivial
    · exact .inl trivial
  refine .call hmay (fun rows _ => ?_) fun e _ => ?_
  rotate_left
  · rcases hg with rfl | ⟨todo, rfl⟩
    · exact .inl rfl
    · exact .inr ⟨_, rfl⟩
  rw [show controllerScript.turn g _ (.ok rows) = _ from hlist _ rows rfl]
  refine (Prog.Tracks.forEach (I := fun rest g => ∃ todo, g = .sweeping todo ∧
    ∀ i ∈ todo, i ∈ rest.map ProcessingRun.id) (E := fun _ g => g.Unready) ?_
    ⟨_, rfl, fun _ h => h⟩).mono fun x g h => ?_
  · rintro run rest _ ⟨todo, rfl, htodo⟩
    have hleft : ∀ i ∈ todo.filter (· ≠ run.id), i ∈ rest.map ProcessingRun.id := by
      intro i hi
      obtain ⟨hmem, hne⟩ := List.mem_filter.mp hi
      have := htodo i hmem
      simp only [List.map_cons, List.mem_cons] at this
      exact this.resolve_left (of_decide_eq_true hne)
    refine .call (.inl trivial) (fun b hb => ?_) fun e _ => .inr ⟨_, rfl⟩
    have hdead : b = false := Except.ok.inj hb
    refine .ite (fun hlive => absurd hlive (by simp [hdead])) fun _ => ?_
    refine .catchAll (P := Visited todo run.id) ?_ (fun _ g h => ⟨_, h, hleft⟩) fun e g h => ?_
    · refine ⟨.inl trivial, fun x _ => ?_⟩
      cases x with
      | ok _ => exact rfl
      | error e => cases e <;> first | exact rfl | exact .inr ⟨_, rfl⟩
    · cases e <;> first | exact h | exact ⟨_, h, hleft⟩
  · cases x with
    | ok _ =>
      obtain ⟨todo, rfl, htodo⟩ := h
      have hnil : todo = [] := List.eq_nil_iff_forall_not_mem.mpr fun i hi => by
        simpa using htodo i hi
      rw [hnil]
    | error e => exact h

/-- A tick after its sweep: a worker starts only for a row read as queued. -/
theorem afterSweep_tracks (cfg : Config) {g : Duty} (hg : g = .sweeping [] ∨ g = .swept []) :
    (afterSweep cfg).Tracks controllerScript (fun _ g => g = .swept []) g := by
  have hrest : (do
      let candidates ← store (.listRetryableFailedRuns cfg.maxProcessingAttempts)
      Prog.forEach candidates (retryRun cfg) : M Unit).Uses Op.plain :=
    Prog.uses_bind (Prog.uses_call trivial) fun _ => Prog.uses_forEach (retryRun_plain cfg)
  have hretry : (retryFailedRuns cfg).Tracks controllerScript (fun _ g => g = .swept []) g := by
    rcases hg with rfl | rfl
    · exact .call (.inr ⟨rfl, _, rfl⟩) (fun _ _ => swept_tracks hrest) fun _ _ => rfl
    · exact .call ⟨.inr (.inr (.inl ⟨_, rfl⟩)), by simp, fun _ => rfl⟩
        (fun _ _ => swept_tracks hrest) fun _ _ => rfl
  refine .bind hretry (fun _ g hg => ?_) fun _ _ h => h
  subst hg
  have hask : (store (.listObservations [.planned])).Uses Op.plain := Prog.uses_call trivial
  refine .bind (swept_tracks hask) (fun _ g hg => ?_) fun _ _ h => h
  subst hg
  refine .bind (swept_tracks (Prog.uses_forEach resumePlanned_plain)) (fun _ g hg => ?_)
    fun _ _ h => h
  subst hg
  refine .bind (swept_tracks (admitObservation_plain cfg)) (fun _ g hg => ?_) fun _ _ h => h
  subst hg
  have hmissing : (store .listStoredObservationsWithoutRuns).Uses Op.plain := Prog.uses_call trivial
  refine .bind (swept_tracks hmissing) (fun _ g hg => ?_) fun _ _ h => h
  subst hg
  refine .bind (swept_tracks (Prog.uses_forEach fun obs => createInitialRun_plain obs.id))
    (fun _ g hg => ?_) fun _ _ h => h
  subst hg
  refine .call ⟨.inr (.inr (.inr rfl)), by simp, fun h => by cases h⟩ (fun rows _ => ?_)
    fun _ _ => rfl
  refine .bind (P := fun x g => match x with
    | .ok _ => ∃ ids, g = .swept ids
    | .error _ => g = .swept []) ?_ (fun _ g hg => ?_) fun _ _ h => h
  · refine (Prog.Tracks.forEach (I := fun rest g => ∃ ids, g = .swept ids ∧
      ∀ run ∈ rest, run.id ∈ ids) (E := fun _ g => g = .swept []) ?_
      ⟨_, rfl, fun _ h => List.mem_map_of_mem h⟩).mono fun x g h => ?_
    · rintro run rest _ ⟨ids, rfl, hids⟩
      have hrest : ∃ ids', Duty.swept ids = .swept ids' ∧ ∀ run ∈ rest, run.id ∈ ids' :=
        ⟨ids, rfl, fun q hq => hids q (List.mem_cons_of_mem _ hq)⟩
      refine .call ⟨.inl trivial, by simp, fun h => by cases h⟩ (fun b _ => ?_) fun _ _ => rfl
      refine .ite (fun _ => hrest) fun _ => ?_
      refine ⟨⟨.inr (.inl ⟨_, rfl⟩), fun rid hrid => ?_, fun h => by cases h⟩, fun x _ => ?_⟩
      · cases hrid
        exact hids run (by simp)
      cases x with
      | ok _ => exact hrest
      | error _ => exact rfl
    · cases x with
      | ok _ =>
        obtain ⟨ids, hg, _⟩ := h
        exact ⟨ids, hg⟩
      | error _ => exact h
  · obtain ⟨ids, rfl⟩ := hg
    refine ⟨⟨.inl trivial, by simp, fun h => by cases h⟩, fun x _ => ?_⟩
    cases x <;> exact rfl

/-- A controller that has not ended may take up its next tick. -/
def Duty.Ready (g : Duty) : Prop := g.Unready ∨ g = .swept []

theorem run_tracks (cfg : Config) : (Entry.run cfg).code.Tracks controllerScript (fun x g =>
    g.Ready ∧ ∀ n, x = .ok (some n) → n = .tick cfg) .unswept := by
  refine .bind (unready_tracks startupReconcile_plain (.inl rfl)) (fun _ g hg => ⟨.inl hg, ?_⟩)
    fun e g hg => ⟨.inl hg, by simp⟩
  intro n hn
  cases hn
  rfl

theorem turn_tracks (cfg : Config) {g : Duty} (hg : g.Ready) :
    (Entry.tick cfg).code.Tracks controllerScript (fun x g =>
      g.Ready ∧ ∀ n, x = .ok (some n) → n = .tick cfg) g := by
  have htick : (tick cfg).Tracks controllerScript (fun x g => match x with
      | .ok _ => g = .swept []
      | .error _ => g.Ready) g := by
    rw [tick_eq]
    rcases hg with hg | rfl
    · refine .bind (sweep_tracks hg) (fun _ g hg => ?_) fun _ _ h => .inl h
      refine (afterSweep_tracks cfg (.inl hg)).mono fun x g h => ?_
      cases x with
      | ok _ => exact h
      | error _ => exact .inr h
    · refine .bind (swept_tracks sweep_plain) (fun _ g hg => ?_) fun _ _ h => .inr h
      refine (afterSweep_tracks cfg (.inr hg)).mono fun x g h => ?_
      cases x with
      | ok _ => exact h
      | error _ => exact .inr h
  refine .bind htick (fun _ g hg => ?_) fun e g hg => ⟨hg, by simp⟩
  subst hg
  refine .call ⟨.inl trivial, by simp, fun _ => rfl⟩ (fun _ _ => ⟨.inr rfl, ?_⟩)
    fun e _ => ⟨.inr rfl, by simp⟩
  intro n hn
  cases hn
  rfl

end Controller

section Others

def Entry.Observes (n : Entry) : Prop :=
  (∃ cfg task oid, n = .observe cfg task oid) ∨
    ∃ cfg task oid handle msPath warned, n = .watch cfg task oid handle msPath warned

theorem endTask_returns {task : Nat} {body : M (Option Entry)} {φ : Option Entry → Prop}
    (hnone : φ none) (h : body.Returns φ) : (endTask task body).Returns φ := by
  refine Prog.returns_bind (Prog.returns_catchAll h fun e => Prog.returns_after fun _ => trivial)
    fun next hnext => ?_
  cases next with
  | none => exact Prog.returns_after fun _ => hnone
  | some n => exact hnext

theorem observeGuard_returns {oid : Nat} {handle : Option Nat} {body : M (Option Entry)}
    {φ : Option Entry → Prop} (hnone : φ none) (h : body.Returns φ) :
    (observeGuard oid handle body).Returns φ :=
  Prog.returns_catchAll h fun _ => Prog.returns_after fun _ => Prog.returns_after fun _ => hnone

theorem observes_returns {n : Entry} (hn : n.Observes) :
    n.code.Returns fun next => ∀ m, next = some m → m.Observes := by
  have hwatch : ∀ cfg task oid handle msPath warned, ∀ m,
      some (Entry.watch cfg task oid handle msPath warned) = some m → m.Observes := by
    intro cfg task oid handle msPath warned m hm
    cases hm
    exact .inr ⟨_, _, _, _, _, _, rfl⟩
  rcases hn with ⟨cfg, task, oid, rfl⟩ | ⟨cfg, task, oid, handle, msPath, warned, rfl⟩
  · refine endTask_returns (by simp) (Prog.returns_after fun _ => observeGuard_returns (by simp) ?_)
    refine Prog.returns_after fun _ => Prog.returns_after fun b => Prog.returns_ite ?_
      (by simp [Prog.Returns])
    exact Prog.returns_after fun obs => Prog.returns_after fun handle => hwatch _ _ _ _ _ _
  · refine endTask_returns (by simp) (observeGuard_returns (by simp) ?_)
    refine Prog.returns_after fun b => Prog.returns_ite (Prog.returns_after fun _ => by
      simp [Prog.Returns]) ?_
    refine Prog.returns_after fun _ => Prog.returns_after fun size => Prog.returns_ite
      (hwatch _ _ _ _ _ _) (Prog.returns_ite ?_ (Prog.returns_ite (hwatch _ _ _ _ _ _) ?_))
    · exact Prog.returns_after fun _ => Prog.returns_after fun _ => by simp [Prog.Returns]
    · exact Prog.returns_after fun _ => hwatch _ _ _ _ _ _

theorem observes_uses {n : Entry} (hn : n.Observes) :
    n.code.Uses fun o => o.plain ∨ ∃ i p l, o = .startObserve i p l := by
  have hplain : ∀ {α : Type} {p : M α}, p.Uses Op.plain →
      p.Uses fun o => o.plain ∨ ∃ i p l, o = .startObserve i p l :=
    fun h => h.mono fun _ ho => .inl ho
  have hcall : ∀ {o : Op}, o.plain →
      (call o).Uses fun o => o.plain ∨ ∃ i p l, o = .startObserve i p l :=
    fun h => Prog.uses_call (.inl h)
  rcases hn with ⟨cfg, task, oid, rfl⟩ | ⟨cfg, task, oid, handle, msPath, warned, rfl⟩
  · refine Prog.uses_bind (Prog.uses_catchAll ?_ fun e => ?_) fun next => ?_
    · refine Prog.uses_bind (hcall trivial) fun _ => Prog.uses_catchAll ?_ fun e => ?_
      · have hclaim : (claimObservation oid).Uses Op.plain := by
          refine Prog.uses_catchAll (Prog.uses_bind (Prog.uses_call trivial) fun _ => trivial)
            fun e => ?_
          cases e <;> exact trivial
        refine Prog.uses_bind (hcall trivial) fun _ => Prog.uses_bind (hplain hclaim) fun b =>
          Prog.uses_ite ?_ trivial
        refine Prog.uses_bind (hcall trivial) fun obs => ?_
        exact Prog.uses_bind (Prog.uses_call (.inr ⟨_, _, _, rfl⟩)) fun _ => trivial
      · exact hplain (uses_plain (observeHandler_retires oid none _ _))
    · exact Prog.uses_bind (hcall trivial) fun _ => trivial
    · cases next with
      | none => exact Prog.uses_bind (hcall trivial) fun _ => trivial
      | some n => exact trivial
  · exact hplain (endTask_plain (observeGuard_plain (watchTurn_plain _ _ _ _ _ _)))

theorem bystander_tracks {α : Type} {p : M α} (hp : p.Uses fun o => o.plain ∨
      ∃ i q l, o = .startObserve i q l) :
    p.Tracks bystanderScript (fun _ g => g = .bystander) .bystander :=
  Prog.Tracks.uses hp (fun _ _ hg ho => ⟨⟨hg, ho⟩, fun _ _ => hg⟩) rfl

end Others

def duties : Play Op Op.Reply Exn Duty Role Entry where
  script
    | .main => controllerScript
    | .process _ rid => workerScript rid
    | _ => bystanderScript
  begins r n g :=
    match r with
    | .main => (∃ cfg, n = .run cfg) ∧ g = .unswept
    | .process task rid => (∃ cfg, n = .process cfg task rid) ∧ g = .waiting
    | .observe _ _ => n.Observes ∧ g = .bystander
    | .cli => (∃ c, n = .command c) ∧ g = .bystander
  again r n g :=
    match r with
    | .main => (∃ cfg, n = .tick cfg) ∧ g.Ready
    | .observe _ _ => n.Observes ∧ g = .bystander
    | _ => False
  ends r g x :=
    match r with
    | .main => g.Ready
    | .process _ _ => g = .done ∨ g = .lost ∧ ∃ e, x = .error e
    | _ => g = .bystander
  dead := .dead

theorem duties_code {r : Role} {n : Entry} {g : Duty}
    (h : duties.begins r n g ∨ duties.again r n g) :
    n.code.Tracks (duties.script r) (duties.post r) g := by
  cases r with
  | main =>
    have hpost : ∀ (cfg : Config) (x : Except Exn (Option Entry)) g,
        g.Ready ∧ (∀ n, x = .ok (some n) → n = .tick cfg) → duties.post .main x g := by
      rintro cfg (e | (_ | n)) g ⟨hg, hn⟩
      · exact hg
      · exact hg
      · exact ⟨⟨cfg, hn n rfl⟩, hg⟩
    rcases h with ⟨⟨cfg, rfl⟩, rfl⟩ | ⟨⟨cfg, rfl⟩, hg⟩
    · exact (run_tracks cfg).mono (hpost cfg)
    · exact (turn_tracks cfg hg).mono (hpost cfg)
  | process task rid =>
    rcases h with ⟨⟨cfg, rfl⟩, rfl⟩ | h
    · refine (process_tracks cfg task).mono ?_
      rintro (e | (_ | n)) g ⟨hno, hg⟩
      · exact hg
      · exact hg
      · exact absurd rfl (hno n)
    · exact h.elim
  | observe task oid =>
    obtain ⟨hn, rfl⟩ : n.Observes ∧ g = .bystander := h.elim id id
    refine ((bystander_tracks (observes_uses hn)).returns (observes_returns hn)).mono ?_
    rintro (e | (_ | m)) g ⟨hg, hm⟩
    · exact hg
    · exact hg
    · exact ⟨hm _ rfl m rfl, hg⟩
  | cli =>
    rcases h with ⟨⟨c, rfl⟩, rfl⟩ | h
    · have hreturns : (Entry.command c).code.Returns fun next => next = none :=
        Prog.returns_after fun _ => rfl
      have hplain : (Entry.command c).code.Uses Op.plain := by
        refine Prog.uses_bind (command_plain c) fun _ => ?_
        exact trivial
      have huses := hplain.mono (ψ := fun o => o.plain ∨ ∃ i p l, o = .startObserve i p l)
        fun _ ho => .inl ho
      refine ((bystander_tracks huses).returns hreturns).mono ?_
      rintro (e | (_ | m)) g ⟨hg, hm⟩
      · exact hg
      · exact hg
      · cases hm _ rfl
    · exact h.elim

end Sdpctl
