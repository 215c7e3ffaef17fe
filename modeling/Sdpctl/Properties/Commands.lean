import Sdpctl.Properties.RunChain
import Sdpctl.Runners.Host

/-!
A stop of containers is atomic. Whatever the container runner asks and is answered, and
whoever moves while it polls, the controller and the commands reach nothing that they do
not reach when each stop is one step.
-/

namespace Sdpctl

open FileTree Coop

variable {executable : String} {B : system.Bounds}

theorem block_starts (executable : String) (o : Op) : ∃ o' k, HostOp.block executable o = .op o' k ∧
    (hostMachine executable).awaits o' = awaits o := by
  cases o <;> exact ⟨_, _, rfl, rfl⟩

theorem stop_busy (o : Op) (p : M Unit) (hp : p.Uses OnlyAsks) :
    ∃ o' k, HostOp.stop o p = .op o' k := by
  cases p with
  | ret x => exact ⟨_, _, rfl⟩
  | op q next =>
    obtain ⟨hask, _⟩ := hp
    cases q with
    | command | sleep => exact ⟨_, _, rfl⟩
    | _ => exact hask.elim

theorem hostBlocks_sound (hexit : ∀ h s, B.env (.containerExit h) s) :
    (hostBlocks executable).Sound B (hostBounds executable B) fun _ _ _ => True where
  coop _ := rfl
  leader _ := rfl
  leads r h := by
    have hmain : r = .main := by simpa [system] using h
    subst hmain
    rfl
  code _ _ := rfl
  starts := block_starts executable
  busy := by
    rintro o rest s ⟨hstops, p, hp, rfl⟩
    obtain ⟨o', k, hk⟩ := stop_busy o p hp
    exact ⟨o', k, hk, fun _ => ⟨hstops.awaits, fun _ _ _ => id⟩⟩
  step := by
    rintro r o rest o' k c s y t hplace hrest - bound h
    rcases hplace with rfl | ⟨hstops, p, hp, rfl⟩
    · cases o with
      | abortObservation oid =>
        exact stop_step hexit (removeListed_asks _) (Op.stops_abort oid) hrest bound h
      | killManaged => exact stop_step hexit (removeListed_asks _) Op.stops_kill hrest bound h
      | _ =>
        cases hrest
        cases c with
        | plain c => exact .acts bound h rfl
        | answers | fails => cases h
    · exact stop_step hexit hp hstops hrest bound h
  within_exec h _ := h
  within_env h _ := h
  within_enter h _ := h
  within_down h := h
  foresees_coop h := h.elim
  foresees_late h := h
  foresees_exec _ _ _ _ h := h
  foresees_env _ _ h := h
  foresees_enter _ h := h
  env bound h := .step .rest bound h
  enter bound h := ⟨bound, h⟩
  down _ := rfl

/-- An operation of the host, and the one that it is performed for. -/
def HostOp.PartOf (o : Op) : HostOp → Prop
  | .plain q => o = q ∨ o.Stops ∧ q = .sleep
  | .ask _ => o.Stops
  | .returns q _ => o = q ∧ o.Stops

theorem stop_partOf {o : Op} {p : M Unit} (hp : p.Uses OnlyAsks) (hstops : o.Stops) {o' : HostOp}
    {k} (h : HostOp.stop o p = .op o' k) : HostOp.PartOf o o' := by
  cases p with
  | ret x =>
    cases h
    exact ⟨rfl, hstops⟩
  | op q next =>
    obtain ⟨hask, _⟩ := hp
    cases q with
    | command args =>
      cases h
      exact hstops
    | sleep =>
      cases h
      exact .inr ⟨hstops, rfl⟩
    | _ => exact hask.elim

theorem block_partOf {o : Op} {o' : HostOp} {k} (h : HostOp.block executable o = .op o' k) :
    HostOp.PartOf o o' := by
  cases o with
  | abortObservation oid => exact stop_partOf (removeListed_asks _) (Op.stops_abort oid) h
  | killManaged => exact stop_partOf (removeListed_asks _) Op.stops_kill h
  | _ =>
    cases h
    exact .inl rfl

variable {L : Limits} {w : HostWorld}

/-- Command by command the system reaches the state of a run in which every stop is one
step, and a process in the middle of a stop stands at the stop in that run. -/
theorem commands_refine_stops (hexit : ∀ h s, L.bounds.env (.containerExit h) s)
    (h : (hostMachine executable).Reach (hostBounds executable L.bounds).ok hostStart w) :
    ∃ w', L.Reach w' ∧ w'.shared = w.shared ∧
      w'.procs.map Proc.role = w.procs.map Proc.role ∧
      ∀ (pid : Nat) p o' k, w.procs[pid]? = some p → p.code = .op o' k →
        ∃ o next, w'.procs[pid]? = some { role := p.role, code := .op o next } ∧
          HostOp.PartOf o o' := by
  have hstart : (hostBlocks executable).Follows L.bounds start hostStart [] :=
    ⟨rfl, by simp, .init, by simp⟩
  obtain ⟨ps, hfollows⟩ :=
    (hostBlocks_sound hexit).refines hstart (fun _ _ _ _ _ _ _ _ => trivial) h
  refine ⟨Blocks.world w.shared ps, hfollows.reach.mono fun _ _ => Limits.bounds_ok.mp, rfl, ?_,
    fun pid p o' k found code => ?_⟩
  · rw [hfollows.procs]
    simp [Blocks.world, Function.comp_def]
  · rw [hfollows.procs, List.getElem?_map, Option.map_eq_some_iff] at found
    obtain ⟨⟨r, place⟩, hpid, rfl⟩ := found
    have hfit := hfollows.fits _ (List.mem_of_getElem? hpid)
    cases place with
    | ended x => cases code
    | inside o next rest =>
      refine ⟨o, next, Blocks.world_found hpid, ?_⟩
      obtain ⟨q, k', rfl⟩ : ∃ q k', rest = .op q k' := by
        rcases hfit with rfl | ⟨_, p, hp, rfl⟩
        · obtain ⟨q, k', hk, _⟩ := block_starts executable o
          exact ⟨q, k', hk⟩
        · exact stop_busy o p hp
      cases code
      rcases hfit with hblock | ⟨hstops, p, hp, hrest⟩
      · exact block_partOf hblock.symm
      · exact stop_partOf hp hstops hrest.symm

/-- The command that a process is about to run. -/
def HostWorld.asks (w : HostWorld) (pid : Nat) : Option (List String) :=
  (w.procs[pid]?).bind fun p =>
    match p.code with
    | .op (.ask args) _ => some args
    | _ => none

theorem HostWorld.of_asks {w : HostWorld} {pid : Nat} {args : List String}
    (h : w.asks pid = some args) :
    ∃ p k, w.procs[pid]? = some p ∧ p.code = .op (.ask args) k := by
  obtain ⟨p, hp, hcode⟩ := Option.bind_eq_some_iff.mp h
  split at hcode
  · rename_i args' k hop
    cases hcode
    exact ⟨p, k, hp, hop⟩
  · cases hcode

theorem unlimited_host (w : HostWorld) (l : Label Role Entry HostChoice Env) :
    (hostBounds executable unlimited.bounds).ok w l := by
  have hrun : ∀ r o c s, unlimited.bounds.run r o c s := fun _ _ _ _ =>
    ⟨⟨by simp [unlimited], by simp [unlimited]⟩, trivial⟩
  cases l with
  | run pid c =>
    intro p o next _ _
    cases o with
    | plain o =>
      cases c with
      | plain c => exact hrun p.role o c w.shared
      | answers | fails => trivial
    | ask => trivial
    | returns o ok => exact hrun p.role o _ w.shared
  | env e => exact ⟨by simp [Terms.Calm, unlimited], trivial⟩
  | enter | stop | crash => trivial

/-- A controller that starts and has listed one container is at its stop of containers. -/
theorem commands_refine_stops_boot : ∃ w' r o next, unlimited.Reach w' ∧
    w'.procs[0]? = some { role := r, code := .op o next } ∧ o.Stops := by
  obtain ⟨w, hreplay, hasks⟩ := (Option.any_eq_true _ _).mp (show
    ((hostMachine "podman").replay (fun _ _ => true)
      [.enter .main (.run smallConfig), .run 0 (.answers ⟨0, "c1\n"⟩ [])] hostStart).any
      (fun w => HostWorld.asks w 0 == some ["podman", "rm", "-f", "c1"]) = true from by
        decide +kernel)
  have hreach : (hostMachine "podman").Reach (hostBounds "podman" unlimited.bounds).ok
      hostStart w := .replay (fun w l _ => unlimited_host w l) .init hreplay
  obtain ⟨p, k, found, code⟩ := HostWorld.of_asks (beq_iff_eq.mp hasks)
  obtain ⟨w', hreach', _, _, hplaces⟩ :=
    commands_refine_stops (fun _ _ => ⟨by simp [Terms.Calm, unlimited], trivial⟩) hreach
  obtain ⟨o, next, hplace, hpart⟩ := hplaces 0 p _ k found code
  exact ⟨w', p.role, o, next, hreach', hplace, hpart⟩

end Sdpctl
