import Sdpctl.Properties.RunChain
import Sdpctl.Sql.System

/-!
The methods of the store are atomic. Whatever the controller and the commands do to the
database statement by statement, interleaved at every statement, cut off by a failure,
a crash or the loss of the lock, the committed tables are those of a run in which every
method is one step; so everything that is shown of those runs holds of these.
-/

namespace Sdpctl

open FileTree Coop

variable {L : Limits} {w : SqlWorld}

/-- A process about to perform a plain operation is about to perform it in the coarse
world as well. -/
theorem follows_plain {init : World Op.Reply Exn Shared Role Entry} {ps}
    (h : sqlStore.blocks.Follows L.bounds init w ps) {pid : Nat}
    {p : Proc (Fine.Reply (D := Db) Op.Reply Statement.Answer) Exn Role Entry} {o : Op} {k}
    (found : w.procs[pid]? = some p) (code : p.code = .op (.plain o) k) :
    ∃ next, (Blocks.world w.shared.base ps).procs[pid]? =
      some { role := p.role, code := .op o next } := by
  rw [h.procs, List.getElem?_map, Option.map_eq_some_iff] at found
  obtain ⟨⟨r, place⟩, hpid, rfl⟩ := found
  have hfit := h.fits _ (List.mem_of_getElem? hpid)
  cases place with
  | ended x => cases code
  | inside o' next rest =>
    rcases hfit with rfl | hwithin
    · have hop : o' = o := by
        cases hm : o'.method with
        | whole =>
          have hblock : sqlStore.blocks.impl o' = .op (.plain o') .ret :=
            congrArg Method.block hm
          simp only [Blocks.fine, hblock, Prog.op_hand] at code
          cases code
          rfl
        | transaction body =>
          have hblock : sqlStore.blocks.impl o' = _ :=
            (congrArg Method.block hm).trans (transact_eq body)
          simp only [Blocks.fine, hblock, Prog.op_hand] at code
          cases code
        | selects f g join =>
          have hblock : sqlStore.blocks.impl o' = _ :=
            (congrArg Method.block hm).trans (twoSelects_eq f g join)
          simp only [Blocks.fine, hblock, Prog.op_hand] at code
          cases code
      subst hop
      exact ⟨next, Blocks.world_found hpid⟩
    · cases hwithin with
      | @running _ b =>
        cases b with
        | ret x => cases x <;> cases code
        | stmt st rest =>
          simp only [Blocks.fine, Coop.running, Prog.op_hand] at code
          cases code
      | undoing => cases code
      | between => cases code

/-- Statement by statement the system reaches the committed state, with the processes at
the same operations outside of the database, of a run method by method. -/
theorem statements_refine_methods (hfree : ∀ q c s, L.run (.db q) c s)
    (h : sqlStore.machine.Reach (sqlStore.bounds L.bounds).ok sqlStart w) :
    ∃ w', L.Reach w' ∧ w'.shared = w.shared.base ∧
      w'.procs.map Proc.role = w.procs.map Proc.role ∧
      ∀ (pid : Nat) p o k, w.procs[pid]? = some p → p.code = .op (.plain o) k →
        ∃ next, w'.procs[pid]? = some { role := p.role, code := .op o next } := by
  obtain ⟨ps, hfollows⟩ := (sqlStore_lawful hfree).refines (fun _ => known) h
  refine ⟨Blocks.world w.shared.base ps, hfollows.reach.mono fun _ _ => Limits.bounds_ok.mp, rfl,
    ?_, fun pid p o k found code => follows_plain hfollows found code⟩
  rw [hfollows.procs]
  simp [Blocks.world, Function.comp_def]

/-- The operation that a process is about to perform. -/
def SqlWorld.about (w : SqlWorld) (pid : Nat) : Option (Fine Op Statement Db) :=
  (w.procs[pid]?).bind fun p =>
    match p.code with
    | .op o _ => some o
    | .ret _ => none

def SqlWorld.smoothly (w : SqlWorld) (pid : Nat) :
    Label Role Entry (Turnout Choice) (Outside Env) :=
  match SqlWorld.about w pid with
  | some (.plain (.iterdir _)) => .run pid (.plain (.order []))
  | some (.plain _) => .run pid (.plain .ok)
  | _ => .run pid .works

/-- Some steps of a process in which nothing fails. -/
def SqlWorld.smooth (pid : Nat) : Nat → SqlWorld → Option SqlWorld
  | 0, w => some w
  | n + 1, w => (sqlStore.machine.step (SqlWorld.smoothly w pid) w).bind (SqlWorld.smooth pid n)

theorem smooth_reach {ok} (hok : ∀ w l, ok w l) {init w w' : SqlWorld} {pid n : Nat}
    (before : sqlStore.machine.Reach ok init w) (h : SqlWorld.smooth pid n w = some w') :
    sqlStore.machine.Reach ok init w' := by
  induction n generalizing w with
  | zero =>
    cases h
    exact before
  | succ n ih =>
    obtain ⟨mid, hstep, hrest⟩ := Option.bind_eq_some_iff.mp h
    exact ih (.step _ before (hok _ _) hstep) hrest

theorem unlimited_sql (w : SqlWorld) (l : Label Role Entry (Turnout Choice) (Outside Env)) :
    (sqlStore.bounds unlimited.bounds).ok w l := by
  have hrun : ∀ r o c s, unlimited.bounds.run r o c s := fun _ _ _ _ =>
    ⟨⟨by simp [unlimited], by simp [unlimited]⟩, trivial⟩
  cases l with
  | run pid c =>
    intro p o next _ _
    cases o with
    | plain o =>
      cases c with
      | plain c => exact hrun p.role o c w.shared.base
      | works | fails => trivial
    | _ => trivial
  | env e =>
    cases e with
    | plain e => exact ⟨by simp [Terms.Calm, unlimited], trivial⟩
    | release => trivial
  | enter | stop | crash => trivial

/-- A controller that starts over an empty store, before and after the commit of its first
observation: the new row is seen after the commit only. -/
theorem statements_refine_methods_first :
    (∃ w', unlimited.Reach w' ∧ w'.shared.db.observations.map Observation.id = []) ∧
    ∃ w', unlimited.Reach w' ∧ w'.shared.db.observations.map Observation.id = [1] := by
  have hcase : ∀ n ids, (((sqlStore.machine.step (.enter .main (.run smallConfig)) sqlStart).bind
      (SqlWorld.smooth 0 n)).any fun w =>
        decide (w.shared.base.db.observations.map Observation.id = ids)) = true →
      ∃ w', unlimited.Reach w' ∧ w'.shared.db.observations.map Observation.id = ids := by
    intro n ids h
    obtain ⟨w, hw, hids⟩ := (Option.any_eq_true _ _).mp h
    obtain ⟨first, hfirst, hsmooth⟩ := Option.bind_eq_some_iff.mp hw
    have hreach := smooth_reach unlimited_sql (.step _ .init (unlimited_sql _ _) hfirst) hsmooth
    obtain ⟨w', hreach', hshared, _⟩ := statements_refine_methods (fun _ _ _ => trivial) hreach
    exact ⟨w', hreach', by rw [hshared]; exact of_decide_eq_true hids⟩
  exact ⟨hcase 36 [] (by decide +kernel), hcase 37 [1] (by decide +kernel)⟩

end Sdpctl
