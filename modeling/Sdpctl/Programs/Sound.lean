import Sdpctl.Programs.Commands
import Sdpctl.Programs.Observe
import Sdpctl.Programs.Tick

/-!
The verification of the whole system: every entry point keeps its side of the
logic, so in every reachable world the invariant holds and every operation about
to run is allowed.
-/

namespace Sdpctl

open FileTree Coop

variable {T : Terms}

theorem Verified.code {r : Role} {n : Entry} {s : Shared}
    (h : Verified T r (pre r n) n.code (fun next s => ∀ m, next = some m → pre r m s)
      fun _ _ => True) (hinv : Inv T s) (hpre : pre r n s) :
    (discipline T).wp r n.code ((discipline T).post r) s := by
  refine Logic.wp_mono ?_ (h s hinv hpre)
  rintro (e | next) s' hx
  · trivial
  · cases next with
    | none => trivial
    | some m => exact hx m rfl

theorem entry_code {r : Role} {n : Entry} {s : Shared} (hinv : Inv T s) (hpre : pre r n s) :
    (discipline T).wp r n.code ((discipline T).post r) s := by
  cases r with
  | main =>
    cases n with
    | run cfg => exact run_rule.code hinv hpre
    | tick cfg => exact turn_rule.code hinv hpre
    | _ => exact hpre.elim
  | observe task oid =>
    cases n with
    | observe cfg task' oid' =>
      obtain ⟨rfl, rfl, _⟩ := id hpre
      exact (observe_rule cfg task' oid').code hinv hpre
    | watch cfg task' oid' handle msPath warned =>
      obtain ⟨rfl, rfl, _⟩ := id hpre
      exact (watch_rule cfg task' oid' handle msPath warned).code hinv hpre
    | _ => exact hpre.elim
  | process task rid =>
    cases n with
    | process cfg task' rid' =>
      obtain ⟨rfl, rfl, howns⟩ := hpre
      exact Verified.code ((process_rule task' rid' cfg).pre fun _ _ h => h.2.2) hinv
        ⟨rfl, rfl, howns⟩
    | _ => exact hpre.elim
  | cli =>
    cases n with
    | command c =>
      exact Verified.code (.bind (command_rule c) fun _ => .pure fun _ _ _ _ hn => by cases hn)
        hinv hpre
    | _ => exact hpre.elim

theorem sound (T : Terms) : (discipline T).Sound := discipline_sound T entry_code

theorem inv_initial (T : Terms) : Inv T initial where
  db := Db.lawful_empty
  disk := by
    refine ⟨?_, ?_, ?_⟩
    · simp [initial, layout, Tree.wfOf]
    · intro n hn
      simp only [layout, List.mem_cons, List.not_mem_nil, or_false] at hn
      rcases hn with rfl | rfl | rfl | rfl | rfl <;> exact ⟨0, [], rfl⟩
    · intro dir n hdir hhas
      rcases hdir with rfl | rfl <;> cases hhas
  tasks := ⟨by simp [initial], by simp [initial], by simp [initial], fun _ => rfl⟩
  runners := ⟨by simp [initial], by simp [initial], by simp [initial], by simp [initial],
    by simp [initial]⟩
  cache := by simp [initial]
  trash oid o ho := by simp [initial, Db.empty, Db.obs?] at ho
  weighs _ oid o ho := by simp [initial, Db.empty, Db.obs?] at ho

/-- What the runs of a theorem are limited to. -/
structure Limits where
  terms : Terms
  run : Op → Choice → Shared → Prop := fun _ _ _ => True
  env : Env → Shared → Prop := fun _ _ => True
  enter : Role → Entry → Prop := fun _ _ => True

def Limits.ok (L : Limits) (w : World Op.Reply Exn Shared Role Entry) :
    Label Role Entry Choice Env → Prop
  | .run pid c => ∀ p o next, w.procs[pid]? = some p → p.code = .op o next →
      okRun L.terms o c w.shared ∧ L.run o c w.shared
  | .env e => (L.terms.Calm → Peaceful e w.shared) ∧ L.env e w.shared
  | .enter r n => L.enter r n
  | _ => True

/-- The worlds that can be reached within the limits. -/
def Limits.Reach (L : Limits) (w : World Op.Reply Exn Shared Role Entry) : Prop :=
  system.Reach L.ok start w

variable {L : Limits} {w : World Op.Reply Exn Shared Role Entry}

theorem Limits.ok.label {l : Label Role Entry Choice Env} (h : L.ok w l) :
    (discipline L.terms).okLabel w l := by
  cases l with
  | run pid c => exact fun p o next hp hcode => (h p o next hp hcode).1
  | env e => exact h.1
  | enter r n | stop pid | crash => trivial

theorem Limits.Reach.holds (h : L.Reach w) : (discipline L.terms).Holds w :=
  (sound L.terms).reach (.start (inv_initial L.terms)) (h.mono fun _ _ => Limits.ok.label)

theorem Limits.Reach.inv (h : L.Reach w) : Inv L.terms w.shared := h.holds.inv

theorem Limits.Reach.allowed (h : L.Reach w) {pid : Nat} {p : Proc Op.Reply Exn Role Entry}
    {o : Op} {next} (hp : w.procs[pid]? = some p) (hcode : p.code = .op o next) {c : Choice}
    (hok : okRun L.terms o c w.shared) : Sdpctl.allowed L.terms p.role w.shared o :=
  h.holds.allowed (sound L.terms) hp hcode hok

/-- What has to be shown of an assertion on the shared state: each kind of step
keeps it. -/
structure Limits.Keeps (L : Limits) (P : Shared → Prop) : Prop where
  start : P initial
  op : ∀ {r o c x s s'}, Inv L.terms s → P s → (r ≠ .cli → s.ctl.up = true) →
    Sdpctl.allowed L.terms r s o → okRun L.terms o c s → L.run o c s →
    exec r o c s = some (x, s') → P s'
  env : ∀ {e s s'}, Inv L.terms s → P s → (L.terms.Calm → Peaceful e s) → L.env e s →
    Sdpctl.env e s = some s' → P s'
  enter : ∀ {r n s s'}, Inv L.terms s → P s → L.enter r n → Sdpctl.enter r n s = some s' → P s'
  down : ∀ {s}, Inv L.terms s → P s → P (Sdpctl.down s)

/-- What one step of a run within the limits makes of the shared state. -/
inductive Limits.Shift (L : Limits) (s : Shared) : Shared → Prop where
  | op {r : Role} {o : Op} {c : Choice} {x : Except Exn o.Reply} {s' : Shared}
      (up : r ≠ .cli → s.ctl.up = true) (allowed : Sdpctl.allowed L.terms r s o)
      (ok : okRun L.terms o c s) (limit : L.run o c s) (exec : Sdpctl.exec r o c s = some (x, s')) :
      Shift L s s'
  /-- The last operation of the controller. -/
  | last {r : Role} {o : Op} {c : Choice} {x : Except Exn o.Reply} {s' : Shared}
      (up : r ≠ .cli → s.ctl.up = true) (allowed : Sdpctl.allowed L.terms r s o)
      (ok : okRun L.terms o c s) (limit : L.run o c s) (exec : Sdpctl.exec r o c s = some (x, s')) :
      Shift L s (Sdpctl.down s')
  | env {e : Env} {s' : Shared} (peace : L.terms.Calm → Peaceful e s) (limit : L.env e s)
      (moves : Sdpctl.env e s = some s') : Shift L s s'
  | enter {r : Role} {n : Entry} {s' : Shared} (limit : L.enter r n)
      (moves : Sdpctl.enter r n s = some s') : Shift L s s'
  | stop : Shift L s s
  | crash : Shift L s (Sdpctl.down s)

theorem Limits.Reach.performs (h : L.Reach w) {pid : Nat} {c : Choice} (hok : L.ok w (.run pid c))
    {w' : World Op.Reply Exn Shared Role Entry} (hstep : system.step (.run pid c) w = some w') :
    ∃ (r : Role) (o : Op) (x : Except Exn o.Reply) (s' : Shared),
      (r ≠ .cli → w.shared.ctl.up = true) ∧
      Sdpctl.allowed L.terms r w.shared o ∧ okRun L.terms o c w.shared ∧ L.run o c w.shared ∧
      exec r o c w.shared = some (x, s') ∧ (w'.shared = s' ∨ w'.shared = Sdpctl.down s') := by
  cases system.stepped_of_step hstep with
  | @run _ _ p o next x s' _ hp hcode _ hexec ends =>
    obtain ⟨hrun, hlimit⟩ := hok p o next hp hcode
    have hup : p.role ≠ .cli → w.shared.ctl.up = true := fun hcoop => registered_up
      (h.holds.registered pid p hp ⟨o, next, hcode⟩ (by simp [system, hcoop]))
    refine ⟨p.role, o, x, s', hup, h.allowed hp hcode hrun, hrun, hlimit, hexec, ?_⟩
    rcases ends with rfl | ⟨_, rfl⟩
    · exact .inl rfl
    · exact .inr rfl

theorem Limits.Reach.shift (h : L.Reach w) {l : Label Role Entry Choice Env} (hok : L.ok w l)
    {w' : World Op.Reply Exn Shared Role Entry} (hstep : system.step l w = some w') :
    L.Shift w.shared w'.shared := by
  cases system.stepped_of_step hstep with
  | run =>
    obtain ⟨_, _, _, s', hup, hallowed, hrun, hlimit, hexec, hend | hend⟩ := h.performs hok hstep
    · rw [hend]
      exact .op hup hallowed hrun hlimit hexec
    · rw [hend]
      exact .last hup hallowed hrun hlimit hexec
  | env moves => exact .env hok.1 hok.2 moves
  | enter moves => exact .enter hok (system_enter moves).2
  | stop => exact .stop
  | crash => exact .crash

theorem Limits.Keeps.shift {P : Shared → Prop} (hkeep : L.Keeps P) {s s' : Shared}
    (hinv : Inv L.terms s) (hP : P s) (h : L.Shift s s') : P s' := by
  cases h with
  | op up allowed ok limit exec => exact hkeep.op hinv hP up allowed ok limit exec
  | last up allowed ok limit exec =>
    exact hkeep.down ((exec_step hinv allowed exec).inv hinv)
      (hkeep.op hinv hP up allowed ok limit exec)
  | env peace limit moves => exact hkeep.env hinv hP peace limit moves
  | enter limit moves => exact hkeep.enter hinv hP limit moves
  | stop => exact hP
  | crash => exact hkeep.down hinv hP

theorem Limits.Reach.keeps {P : Shared → Prop} (hkeep : L.Keeps P) (h : L.Reach w) :
    P w.shared :=
  h.invariant (fun w => P w.shared) hkeep.start fun _ _ _ hbefore hP hok hstep =>
    hkeep.shift (Limits.Reach.inv hbefore) hP (Limits.Reach.shift hbefore hok hstep)

/-- What holds in a reachable world and is kept by every step holds ever after. -/
theorem Limits.Reach.later {P : Shared → Prop} (h : L.Reach w) (hP : P w.shared)
    (keep : ∀ {s s'}, Inv L.terms s → P s → L.Shift s s' → P s')
    {w' : World Op.Reply Exn Shared Role Entry} (later : system.Reach L.ok w w') : P w'.shared := by
  refine later.invariant (fun w => P w.shared) hP fun w₁ l w₂ hreach hP₁ hok hstep => ?_
  have hreach₁ : L.Reach w₁ := Machine.Reach.trans h hreach
  exact keep hreach₁.inv hP₁ (hreach₁.shift hok hstep)

section Concrete

/-- A concrete run within the limits, and what a test says of its end. -/
theorem Limits.reach_of_replay
    (check : World Op.Reply Exn Shared Role Entry → Label Role Entry Choice Env → Bool)
    (hcheck : ∀ w l, check w l = true → L.ok w l) (labels : List (Label Role Entry Choice Env))
    (test : World Op.Reply Exn Shared Role Entry → Bool)
    (h : (system.replay check labels start).any test = true) :
    ∃ w, L.Reach w ∧ test w = true :=
  Machine.reach_of_replay L.ok check hcheck labels start test h

def smallConfig : Config := { storageThreshold := 100, observationReservation := 60 }

def smallSet : Tree := .dir 1 [("DATA", .file 1 [1, 2, 3])]

/-- Some steps of one process in which nothing fails. -/
def steps (pid n : Nat) : List (Label Role Entry Choice Env) := List.replicate n (.run pid .ok)

/-- A controller starts over an empty store, its first tick admits an observation,
and the runner of that observation writes. -/
def firstObservation : List (Label Role Entry Choice Env) :=
  [.enter .main (.run smallConfig)] ++ steps 0 8 ++ [.run 0 (.order [])] ++ steps 0 25 ++
    steps 1 6 ++ [.env (.launch 0), .env (.write 0 smallSet)]

/-- The observation is complete, and the next tick has queued its first run and
admitted another observation. -/
def firstRun : List (Label Role Entry Choice Env) :=
  firstObservation ++ [.env (.containerExit 0), .env (.runnerReturn 0 0)] ++ steps 1 15 ++
    steps 0 34

/-- The operation that a process is about to perform. -/
def about (w : World Op.Reply Exn Shared Role Entry) (pid : Nat) : Option Op :=
  (w.procs[pid]?).bind fun p =>
    match p.code with
    | .op o _ => some o
    | .ret _ => none

theorem about_eq {pid : Nat} {p : Proc Op.Reply Exn Role Entry} {o : Op} {next}
    (hp : w.procs[pid]? = some p) (hcode : p.code = .op o next) : about w pid = some o := by
  simp [about, hp, hcode]

theorem about_some {pid : Nat} {o : Op} (h : about w pid = some o) :
    ∃ p next, w.procs[pid]? = some p ∧ p.code = .op o next := by
  obtain ⟨p, hp, hcode⟩ := Option.bind_eq_some_iff.mp h
  split at hcode
  · rename_i o' next heq
    cases hcode
    exact ⟨p, next, hp, heq⟩
  · cases hcode

/-- The process is about to swallow an exception. -/
def swallows (p : Proc Op.Reply Exn Role Entry) : Bool :=
  match p.code with
  | .op (.swallow _ _) _ => true
  | _ => false

/-- Only runners at work write, and no more than their reservation. -/
def calm (s : Shared) : Env → Bool
  | .write h t =>
      ((s.runners[h]?).map Runner.running).getD false &&
        decide (t.bytes ≤ smallConfig.observationReservation)
  | .loss _ => false
  | _ => true

theorem calm_peaceful {e : Env} {s : Shared} (h : calm s e = true) :
    Peaceful e s ∧ (∀ i, e ≠ .loss i) ∧
      ∀ i t, e = .write i t → t.bytes ≤ smallConfig.observationReservation := by
  cases e with
  | write i t =>
    simp only [calm, Bool.and_eq_true, decide_eq_true_eq] at h
    refine ⟨?_, by simp, fun j u heq => ?_⟩
    · cases hw : s.runners[i]? with
      | none => simp [hw] at h
      | some r => exact ⟨r, hw, by simpa [hw] using h.1⟩
    · cases heq
      exact h.2
  | loss oid => cases h
  | launch | containerExit | runnerReturn | runnerRaise | product =>
    exact ⟨trivial, by simp, by simp⟩

/-- Nothing fails, and the environment is calm. -/
def harmless (w : World Op.Reply Exn Shared Role Entry) :
    Label Role Entry Choice Env → Bool
  | .run pid c => !((w.procs[pid]?).map swallows).getD false && !c.faulty
  | .env e => calm w.shared e
  | .enter _ (.run cfg) => decide (cfg = smallConfig)
  | _ => true

/-- The step performs none of these operations. -/
def avoids (bad : Shared → Op → Bool) (w : World Op.Reply Exn Shared Role Entry) :
    Label Role Entry Choice Env → Bool
  | .run pid _ => !(about w pid).any (bad w.shared)
  | _ => true

/-- Harmless steps that perform none of these operations. -/
def avoiding (bad : Shared → Op → Bool) (w : World Op.Reply Exn Shared Role Entry)
    (l : Label Role Entry Choice Env) : Bool := harmless w l && avoids bad w l

/-- A run of harmless steps is within limits that ask only to avoid some operations. -/
theorem avoiding_ok {bad : Shared → Op → Bool} {l : Label Role Entry Choice Env}
    (h : avoiding bad w l = true) (hrun : ∀ o c s, bad s o = false → L.run o c s)
    (henv : ∀ e s, Peaceful e s → (∀ i, e ≠ .loss i) →
      (∀ i t, e = .write i t → t.bytes ≤ smallConfig.observationReservation) → L.env e s)
    (henter : ∀ r n, (∀ cfg, n = .run cfg → cfg = smallConfig) → L.enter r n) : L.ok w l := by
  unfold avoiding at h
  rw [Bool.and_eq_true] at h
  obtain ⟨h, hno⟩ := h
  cases l with
  | run pid c =>
    intro p o next hp hcode
    simp only [harmless, hp, Option.map_some, Option.getD_some, Bool.and_eq_true,
      Bool.not_eq_true'] at h
    simp only [avoids, about_eq hp hcode, Option.any_some, Bool.not_eq_true'] at hno
    refine ⟨⟨fun _ _ e he => ?_, fun _ _ => h.2⟩, hrun o c w.shared hno⟩
    subst he
    simp [swallows, hcode] at h
  | env e =>
    obtain ⟨hpeace, hloss, hsize⟩ := calm_peaceful h
    exact ⟨fun _ => hpeace, henv _ _ hpeace hloss hsize⟩
  | enter r n =>
    refine henter r n fun cfg hn => ?_
    subst hn
    simpa [harmless] using h
  | stop pid | crash => trivial

theorem harmless_ok {l : Label Role Entry Choice Env} (h : harmless w l = true)
    (hrun : ∀ o c s, L.run o c s)
    (henv : ∀ e s, Peaceful e s → (∀ i, e ≠ .loss i) →
      (∀ i t, e = .write i t → t.bytes ≤ smallConfig.observationReservation) → L.env e s)
    (henter : ∀ r n, (∀ cfg, n = .run cfg → cfg = smallConfig) → L.enter r n) : L.ok w l := by
  have hnone : avoiding (fun _ _ => false) w l = true := by
    cases l <;> simpa [avoiding, avoids] using h
  exact avoiding_ok hnone (fun o c s _ => hrun o c s) henv henter

/-- Every controller that starts has a configuration that passes the test. -/
def starting (test : Config → Bool) : Label Role Entry Choice Env → Bool
  | .enter _ (.run cfg) => test cfg
  | _ => true

theorem starting_ok {test : Config → Bool} {l : Label Role Entry Choice Env}
    (h : starting test l = true) (hterms : L.terms = .any) (hrun : ∀ o c s, L.run o c s)
    (henv : ∀ e s, L.env e s)
    (henter : ∀ r n, (∀ cfg, n = .run cfg → test cfg = true) → L.enter r n) : L.ok w l := by
  cases l with
  | run pid c => exact fun _ _ _ _ _ => ⟨⟨by simp [hterms], by simp [hterms]⟩, hrun _ _ _⟩
  | env e => exact ⟨by simp [Terms.Calm, hterms], henv _ _⟩
  | enter r n =>
    refine henter r n fun cfg hn => ?_
    subst hn
    exact h
  | stop pid | crash => trivial

end Concrete

end Sdpctl
