import Sdpctl.Coop.Pool
import Mathlib.Order.Basic

/-!
A relay: programs side by side that work towards one goal. The work goes through
stages, and each operation is known by what it does in a stage. Whoever moves the
work to another stage could finish it alone from there, so the goal is reached
when all have ended, whatever became of the others.
-/

namespace Coop
namespace Prog

variable {Op K ε α : Type} {Reply : Op → Type}
variable {A : (o : Op) → K → Except ε (Reply o) → K → Prop} {may : Op → K → Prop} {goal : K}

variable (A goal) in
/-- Left alone, the program can only end at the goal. -/
def Finishes (p : Prog Reply ε α) (k : K) : Prop := ∀ x k', p.Runs A k x k' → k' = goal

theorem finishes_op {o : Op} {next : Except ε (Reply o) → Prog Reply ε α} {k : K}
    (h : ∀ x k', A o k x k' → (next x).Finishes A goal k') :
    (Prog.op o next).Finishes A goal k :=
  fun x k' ⟨y, u, hA, hrest⟩ => h y u hA x k' hrest

theorem Finishes.next {o : Op} {next : Except ε (Reply o) → Prog Reply ε α} {k k' : K}
    {x : Except ε (Reply o)} (h : (Prog.op o next).Finishes A goal k) (hA : A o k x k') :
    (next x).Finishes A goal k' :=
  fun y k'' hrun => h y k'' ⟨x, k', hA, hrun⟩

theorem finishes_goal (hgoal : ∀ o x k, A o goal x k → k = goal) (p : Prog Reply ε α) :
    p.Finishes A goal goal := by
  intro x k hrun
  induction p with
  | ret y => exact hrun.2
  | op o next ih =>
    obtain ⟨y, u, hA, hrest⟩ := hrun
    obtain rfl := hgoal o y u hA
    exact ih y hrest

theorem Finishes.catchAll (hgoal : ∀ o x k, A o goal x k → k = goal) {p : Prog Reply ε α}
    {h : ε → Prog Reply ε α} {k : K} (hp : p.Finishes A goal k) :
    (p.catchAll h).Finishes A goal k := by
  intro x k' hrun
  rcases runs_catchAll.mp hrun with ⟨a, ha, _⟩ | ⟨e, u, he, hrest⟩
  · exact hp _ _ ha
  · obtain rfl := hp _ _ he
    exact finishes_goal hgoal (h e) x k' hrest

variable [Preorder K]

variable (A may goal) in
/-- Whatever stage the others reach before each operation, the program may perform
it, and when it moves the work on it finishes. -/
def Relays : Prog Reply ε α → K → Prop
  | .ret _, _ => True
  | .op o next, k => ∀ k', k ≤ k' → may o k' ∧ ∀ x k'', A o k' x k'' →
      (k'' ≠ k' → (next x).Finishes A goal k'') ∧ (next x).Relays k''

theorem Relays.mono {p : Prog Reply ε α} {k k' : K} (h : p.Relays A may goal k) (hk : k ≤ k') :
    p.Relays A may goal k' := by
  cases p with
  | ret x => trivial
  | op o next => exact fun k'' hk'' => h k'' (hk.trans hk'')

theorem Relays.catchAll (hgoal : ∀ o x k, A o goal x k → k = goal) {p : Prog Reply ε α}
    {h : ε → Prog Reply ε α} {k : K} (hp : p.Relays A may goal k)
    (hh : ∀ e k, (h e).Relays A may goal k) : (p.catchAll h).Relays A may goal k := by
  induction p generalizing k with
  | ret x =>
    cases x with
    | ok a => trivial
    | error e => exact hh e k
  | op o next ih =>
    intro k' hk
    obtain ⟨hmay, hnext⟩ := hp k' hk
    refine ⟨hmay, fun x k'' hA => ?_⟩
    obtain ⟨hmoves, hrest⟩ := hnext x k'' hA
    exact ⟨fun hne => (hmoves hne).catchAll hgoal, ih x hrest⟩

end Prog

namespace Pool

variable {Op K S ε α ι : Type} {Reply : Op → Type} [Preorder K]
variable {A : (o : Op) → K → Except ε (Reply o) → K → Prop} {may : Op → K → Prop} {goal : K}
variable {R : ι → (o : Op) → S → Except ε (Reply o) → S → Prop} {at_ : K → S → Prop}

/-- The work is at a stage, everybody keeps to the relay, and somebody could finish
the work alone. -/
structure Relay (A : (o : Op) → K → Except ε (Reply o) → K → Prop) (may : Op → K → Prop) (goal : K)
    (at_ : K → S → Prop) (w : Pool Reply ε α ι S) (k : K) : Prop where
  here : at_ k w.shared
  relays : ∀ i, (w.code i).Relays A may goal k
  carried : ∃ i, (w.code i).Finishes A goal k

theorem Relay.ended {w : Pool Reply ε α ι S} {k : K} (h : Relay A may goal at_ w k)
    (hend : w.Ended) : at_ goal w.shared := by
  obtain ⟨i, hi⟩ := h.carried
  obtain ⟨x, hx⟩ := hend i
  rw [hx] at hi
  obtain rfl : k = goal := hi x k ⟨rfl, rfl⟩
  exact h.here

variable [DecidableEq ι]

theorem Relay.step (ahead : ∀ o k x k', A o k x k' → k ≤ k')
    (sim : ∀ i o k s x t, at_ k s → may o k → R i o s x t → ∃ k', A o k x k' ∧ at_ k' t)
    {w w' : Pool Reply ε α ι S} {i : ι} {k : K} (h : Relay A may goal at_ w k)
    (hstep : Step R w i w') : ∃ k', Relay A may goal at_ w' k' := by
  obtain ⟨hcode, hdoes⟩ := hstep
  rename_i o next x t
  have hrelays := h.relays i
  rw [hcode] at hrelays
  obtain ⟨hmay, hnext⟩ := hrelays k le_rfl
  obtain ⟨k', hA, hhere⟩ := sim i o k w.shared x t h.here hmay hdoes
  obtain ⟨hmoves, hrest⟩ := hnext x k' hA
  refine ⟨k', hhere, fun j => ?_, ?_⟩
  · by_cases hj : j = i
    · subst hj
      simpa using hrest
    · simpa [hj] using (h.relays j).mono (ahead o k x k' hA)
  · by_cases hsame : k' = k
    · -- the work has not moved: who could finish it still can
      obtain ⟨j, hj⟩ := h.carried
      by_cases hji : j = i
      · subst hji
        rw [hcode] at hj
        exact ⟨j, by simpa using hj.next hA⟩
      · exact ⟨j, by simpa [hji, hsame] using hj⟩
    · exact ⟨i, by simpa using hmoves hsame⟩

theorem Reach.relay (ahead : ∀ o k x k', A o k x k' → k ≤ k')
    (sim : ∀ i o k s x t, at_ k s → may o k → R i o s x t → ∃ k', A o k x k' ∧ at_ k' t)
    {ok : Pool Reply ε α ι S → ι → Pool Reply ε α ι S → Prop} {init w : Pool Reply ε α ι S}
    {k : K} (start : Relay A may goal at_ init k)
    (h : Reach R ok init w) : ∃ k', Relay A may goal at_ w k' :=
  h.invariant (fun w => ∃ k, Relay A may goal at_ w k) ⟨k, start⟩
    fun _ _ _ _ ⟨_, hrelay⟩ hstep _ => hrelay.step ahead sim hstep

end Pool
end Coop
