import Sdpctl.Coop.Refinement
import Sdpctl.Properties.Gate
import Sdpctl.Sql.System

/-!
The system command by command. Its runner is the container runner: a stop of
containers is a series of commands, with pauses, in which containers come and go and
everybody else moves. The executable may answer anything, and whatever containers it
takes away are gone.
-/

namespace Sdpctl

open FileTree Coop

/-- The operations of a controller that runs containers. -/
inductive HostOp where
  | plain (o : Op)
  /-- Run the executable. -/
  | ask (args : List String)
  /-- A method of the runner returns, or raises. The text of its exception is dropped:
  one caller suppresses it, and the other one dies of it. -/
  | returns (o : Op) (ok : Bool)

@[reducible] def HostOp.Reply : HostOp → Type
  | .plain o | .returns o _ => o.Reply
  | .ask _ => CommandResult

inductive HostChoice where
  | plain (c : Choice)
  /-- The executable answers, and so many containers are gone. -/
  | answers (r : CommandResult) (gone : List Nat)
  | fails

/-- None of the containers that the stop is about is alive. -/
def Shared.stopped (s : Shared) : Op → Bool
  | .abortObservation oid => s.containers.all fun h =>
      ((s.runners[h]?).map fun w => w.oid != oid).getD true
  | .killManaged => s.containers.isEmpty
  | _ => false

def Shared.stopChoice (s : Shared) (o : Op) (ok : Bool) : Choice :=
  if ok then if s.stopped o then .ok else .blind else .fail

def hostExec (r : Role) (o : HostOp) (c : HostChoice) (s : Shared) :
    Option (Except Exn o.Reply × Shared) :=
  match o, c with
  | .plain o, .plain c => exec r o c s
  | .ask _, .answers reply gone =>
      some (.ok reply, { s with containers := s.containers.filter (· ∉ gone) })
  | .ask _, .fails => some (.error (.osError []), s)
  | .returns o ok, .plain _ => exec r o (s.stopChoice o ok) s
  | _, _ => none

/-- Perform an operation of a program of the runner. -/
def HostOp.lift : (o : Op) → Prog HostOp.Reply Exn o.Reply
  | .command args => .op (.ask args) .ret
  | o => .op (.plain o) .ret

def Op.Stops : Op → Prop
  | .abortObservation _ | .killManaged => True
  | _ => False

theorem Op.stops_abort (oid : Nat) : (Op.abortObservation oid).Stops := trivial

theorem Op.stops_kill : Op.killManaged.Stops := trivial

theorem Op.Stops.awaits {o : Op} (h : o.Stops) : awaits o = true := by
  cases o <;> first | rfl | exact h.elim

def HostOp.stop (o : Op) (p : M Unit) : Prog HostOp.Reply Exn o.Reply :=
  (p.expand HostOp.lift).hand fun x => .op (.returns o x.isOk) .ret

def HostOp.block (executable : String) : (o : Op) → Prog HostOp.Reply Exn o.Reply
  | .abortObservation oid =>
      HostOp.stop (.abortObservation oid) (ContainerRunner.abortObservation executable oid)
  | .killManaged => HostOp.stop .killManaged (ContainerRunner.killManaged executable)
  | o => .op (.plain o) .ret

/-- The system with its container runner as a machine. -/
def hostMachine (executable : String) :
    Machine HostOp HostOp.Reply Exn Shared Role Entry HostChoice Env where
  exec := hostExec
  awaits o :=
    match o with
    | .plain o => awaits o
    | .ask _ => true
    | .returns _ _ => false
  coop := system.coop
  leader := system.leader
  code _ n := n.code.expand (HostOp.block executable)
  spawn o s :=
    match o with
    | .plain o => spawn o s
    | _ => none
  env
  enter := system.enter
  down

abbrev HostWorld : Type := World HostOp.Reply Exn Shared Role Entry

def hostStart : HostWorld := { shared := initial, procs := [] }

variable {executable : String}

/-- The limits of the system, command by command. The commands have none. -/
def hostBounds (executable : String) (B : system.Bounds) : (hostMachine executable).Bounds where
  run r o c s :=
    match o, c with
    | .plain o, .plain c => B.run r o c s
    | .returns o ok, _ => B.run r o (s.stopChoice o ok) s
    | _, _ => True
  env := B.env
  enter := B.enter

/-- The operations are the blocks of commands that perform them. -/
def hostBlocks (executable : String) : Blocks system (hostMachine executable) where
  impl := HostOp.block executable
  abs s := s
  Within o rest _ := o.Stops ∧ ∃ p : M Unit, p.Uses OnlyAsks ∧ rest = HostOp.stop o p
  Foresees _ _ _ _ _ := False

section Gate

theorem containerIds_asks (filters : List String) :
    (containerIds executable filters).Uses OnlyAsks :=
  Prog.uses_bind (Prog.uses_call trivial) fun _ => trivial

theorem waitGone_asks (cid : String) (n : Nat) : (waitGone executable cid n).Uses OnlyAsks := by
  induction n with
  | zero => trivial
  | succ n ih =>
    refine Prog.uses_bind (containerIds_asks _) fun ids => Prog.uses_ite trivial ?_
    exact Prog.uses_bind (Prog.uses_call trivial) fun _ => ih

theorem removeListed_asks (filters : List String) :
    (removeListed executable filters).Uses OnlyAsks := by
  refine Prog.uses_bind (containerIds_asks _) fun ids => Prog.uses_forEach fun cid => ?_
  exact Prog.uses_bind (Prog.uses_call trivial) fun _ => waitGone_asks cid 100

end Gate

section Steps

variable {B : system.Bounds} {r : Role} {o : Op} {s t : Shared}

theorem drift_gone (hexit : ∀ h s, B.env (.containerExit h) s) (gone : List Nat) :
    B.Drift s { s with containers := s.containers.filter (· ∉ gone) } := by
  induction gone with
  | nil => exact .of_eq (by simp)
  | cons h gone ih =>
    refine .step ih (hexit h _) ?_
    simp only [system, env, List.filter_filter, Option.some.injEq, Shared.mk.injEq, true_and,
      and_true]
    apply List.filter_congr
    simp

theorem stop_step (hexit : ∀ h s, B.env (.containerExit h) s) {p : M Unit}
    (hp : p.Uses OnlyAsks) (hstops : o.Stops) {rest : Prog HostOp.Reply Exn o.Reply}
    {o' : HostOp} {k} (hrest : HostOp.stop o p = .op o' k) {c : HostChoice} {y}
    (bound : (hostBounds executable B).run r o' c s)
    (h : hostExec r o' c s = some (y, t)) :
    (hostBlocks executable).Outcome B r o rest o' s t (k y) := by
  have onward : ∀ {q : M Unit}, q.Uses OnlyAsks → B.Drift s t →
      (hostMachine executable).spawn o' s = none →
      (hostBlocks executable).Outcome B r o rest o' s t (HostOp.stop o q) :=
    fun hq drift alone => .goes drift alone ⟨hstops, _, hq, rfl⟩ fun _ hf => hf.elim
  cases p with
  | ret x =>
    cases hrest
    cases c with
    | plain c =>
      refine .acts bound h ?_
      cases o <;> first | rfl | exact hstops.elim
    | answers | fails => cases h
  | op q next =>
    obtain ⟨hask, hnext⟩ := hp
    cases q with
    | command args =>
      cases hrest
      cases c with
      | plain c => cases h
      | answers reply gone =>
        cases h
        exact onward (hnext _) (drift_gone hexit gone) rfl
      | fails =>
        cases h
        exact onward (hnext _) .rest rfl
    | sleep =>
      cases hrest
      cases c with
      | plain c =>
        cases c <;> cases h
        exact onward (hnext _) .rest rfl
      | answers | fails => cases h
    | _ => exact hask.elim

end Steps

end Sdpctl
