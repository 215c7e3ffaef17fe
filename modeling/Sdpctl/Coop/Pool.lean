import Sdpctl.Coop.Solo
import Mathlib.Logic.Function.Basic

/-!
Separate programs side by side over one shared state. Any one of them performs
its next operation at any time; there may be any number of them.
-/

namespace Coop

variable {Op S ε α ι : Type} {Reply : Op → Type}

/-- What is left of each program, and the state they share. -/
structure Pool {Op : Type} (Reply : Op → Type) (ε α ι S : Type) where
  code : ι → Prog Reply ε α
  shared : S

namespace Pool

variable [DecidableEq ι] (R : ι → (o : Op) → S → Except ε (Reply o) → S → Prop)

/-- The program `i` performs its next operation. -/
inductive Step (w : Pool Reply ε α ι S) (i : ι) : Pool Reply ε α ι S → Prop where
  | op {o : Op} {next : Except ε (Reply o) → Prog Reply ε α} {x : Except ε (Reply o)} {t : S}
      (code : w.code i = .op o next) (does : R i o w.shared x t) :
      Step w i { code := Function.update w.code i (next x), shared := t }

inductive Reach (ok : Pool Reply ε α ι S → ι → Pool Reply ε α ι S → Prop)
    (init : Pool Reply ε α ι S) : Pool Reply ε α ι S → Prop where
  | start : Reach ok init init
  | step {w w' : Pool Reply ε α ι S} {i : ι} (before : Reach ok init w) (moves : Step R w i w')
      (lawful : ok w i w') : Reach ok init w'

def Ended (w : Pool Reply ε α ι S) : Prop := ∀ i, ∃ x, w.code i = .ret x

variable {R} {ok : Pool Reply ε α ι S → ι → Pool Reply ε α ι S → Prop}
variable {init w : Pool Reply ε α ι S}

theorem Reach.invariant (P : Pool Reply ε α ι S → Prop) (start : P init)
    (keep : ∀ w i w', Reach R ok init w → P w → Step R w i w' → ok w i w' → P w')
    (h : Reach R ok init w) : P w := by
  induction h with
  | start => exact start
  | step before moves lawful ih => exact keep _ _ _ before ih moves lawful

theorem Reach.trans {mid : Pool Reply ε α ι S} (before : Reach R ok init mid)
    (h : Reach R ok mid w) : Reach R ok init w := by
  induction h with
  | start => exact before
  | step _ moves lawful ih => exact ih.step moves lawful

theorem Reach.runs {i : ι} {x : Except ε α} {t : S} (hok : ∀ w w', ok w i w')
    (h : (w.code i).Runs (R i) w.shared x t) :
    Reach R ok w { code := Function.update w.code i (.ret x), shared := t } := by
  generalize hp : w.code i = p at h
  induction p generalizing w with
  | ret y =>
    obtain ⟨rfl, rfl⟩ := h
    rw [← hp, Function.update_eq_self]
    exact .start
  | op o next ih =>
    obtain ⟨y, u, hdoes, hrest⟩ := h
    have hfirst := Reach.start.step (.op hp hdoes) (hok _ _)
    have htail := ih y (w := { code := Function.update w.code i (next y), shared := u })
      (by simp) hrest
    simpa using hfirst.trans htail

/-- Perform a list of operations, each by the given program and with the given outcome;
every pool on the way has to pass a check. -/
def replay {C : Type} (exec : ι → (o : Op) → C → S → Option (Except ε (Reply o) × S))
    (check : Pool Reply ε α ι S → Bool) :
    List (ι × C) → Pool Reply ε α ι S → Option (Pool Reply ε α ι S)
  | [], w => some w
  | (i, c) :: rest, w =>
      match w.code i with
      | .ret _ => none
      | .op o next => (exec i o c w.shared).bind fun (x, t) =>
          let w' := { code := Function.update w.code i (next x), shared := t }
          if check w && check w' then replay exec check rest w' else none

theorem Reach.replay {C : Type} {exec : ι → (o : Op) → C → S → Option (Except ε (Reply o) × S)}
    {check : Pool Reply ε α ι S → Bool} {steps : List (ι × C)} {w' : Pool Reply ε α ι S}
    (h : replay exec check steps w = some w') :
    Reach (fun i o s x t => ∃ c, exec i o c s = some (x, t))
      (fun w _ w' => check w = true ∧ check w' = true) w w' := by
  induction steps generalizing w with
  | nil =>
    cases h
    exact .start
  | cons step rest ih =>
    obtain ⟨i, c⟩ := step
    unfold Pool.replay at h
    split at h
    · cases h
    · rename_i o next hcode
      obtain ⟨⟨x, t⟩, hexec, hrest⟩ := Option.bind_eq_some_iff.mp h
      simp only at hrest
      split at hrest
      · rename_i hchecks
        have hchecked := Bool.and_eq_true_iff.mp hchecks
        exact (Reach.start.step (.op hcode ⟨c, hexec⟩) hchecked).trans (ih hrest)
      · cases hrest

end Pool
end Coop
