import Sdpctl.Coop.Solo
import Mathlib.Algebra.GroupWithZero.Nat

/-!
A program and what its operations are answered. `reply i o` is the answer to `o`
as the `i`-th operation, so a change by others between two operations shows only
in the answers, and a program has one outcome for every way of answering.
-/

namespace Coop
namespace Prog

variable {Op ε α β : Type} {Reply : Op → Type}
variable {reply : Nat → (o : Op) → Except ε (Reply o)}

/-- The result of a program whose first operation is the `i`-th, and the number
of the first operation after it. -/
def outcome (reply : Nat → (o : Op) → Except ε (Reply o)) :
    Nat → Prog Reply ε α → Except ε α × Nat
  | i, .ret x => (x, i)
  | i, .op o next => (next (reply i o)).outcome reply (i + 1)

@[simp] theorem outcome_ret (x : Except ε α) (i : Nat) :
    (Prog.ret x : Prog Reply ε α).outcome reply i = (x, i) := rfl

@[simp] theorem outcome_op (o : Op) (next : Except ε (Reply o) → Prog Reply ε α) (i : Nat) :
    (Prog.op o next).outcome reply i = (next (reply i o)).outcome reply (i + 1) := rfl

@[simp] theorem outcome_call (o : Op) (i : Nat) :
    (call o : Prog Reply ε (Reply o)).outcome reply i = (reply i o, i + 1) := rfl

@[simp] theorem outcome_call_bind (o : Op) (f : Reply o → Prog Reply ε β) (i : Nat) :
    ((call o).bind f).outcome reply i =
      match reply i o with
      | .ok a => (f a).outcome reply (i + 1)
      | .error e => (.error e, i + 1) := by
  simp only [call, op_bind, outcome_op]
  cases reply i o <;> rfl

/-- The operations that a program performs, each with its number. -/
def asked (reply : Nat → (o : Op) → Except ε (Reply o)) : Nat → Prog Reply ε α → List (Nat × Op)
  | _, .ret _ => []
  | i, .op o next => (i, o) :: (next (reply i o)).asked reply (i + 1)

@[simp] theorem asked_ret (x : Except ε α) (i : Nat) :
    (Prog.ret x : Prog Reply ε α).asked reply i = [] := rfl

@[simp] theorem asked_call (o : Op) (i : Nat) :
    (call o : Prog Reply ε (Reply o)).asked reply i = [(i, o)] := rfl

@[simp] theorem asked_call_bind (o : Op) (f : Reply o → Prog Reply ε β) (i : Nat) :
    ((call o).bind f).asked reply i =
      (i, o) :: match reply i o with
      | .ok a => (f a).asked reply (i + 1)
      | .error _ => [] := by
  simp only [call, op_bind, asked]
  cases reply i o <;> rfl

theorem Uses.asked {φ : Op → Prop} {p : Prog Reply ε α} (h : p.Uses φ) {i : Nat} {e : Nat × Op}
    (he : e ∈ p.asked reply i) : φ e.2 := by
  induction p generalizing i with
  | ret x => cases he
  | op o next ih =>
    rcases List.mem_cons.mp he with rfl | hrest
    · exact h.1
    · exact ih (reply i o) (h.2 _) hrest

theorem outcome_bind_ok {p : Prog Reply ε α} {f : α → Prog Reply ε β} {i j : Nat} {a : α}
    (h : p.outcome reply i = (.ok a, j)) : (p.bind f).outcome reply i = (f a).outcome reply j := by
  induction p generalizing i with
  | ret x =>
    cases h
    rfl
  | op o next ih => exact ih (reply i o) h

theorem outcome_catchAll_ok {p : Prog Reply ε α} {h : ε → Prog Reply ε α} {i j : Nat} {a : α}
    (hp : p.outcome reply i = (.ok a, j)) : (p.catchAll h).outcome reply i = (.ok a, j) := by
  induction p generalizing i with
  | ret x =>
    cases hp
    rfl
  | op o next ih => exact ih (reply i o) hp

theorem outcome_catchAll_error {p : Prog Reply ε α} {h : ε → Prog Reply ε α} {i j : Nat} {e : ε}
    (hp : p.outcome reply i = (.error e, j)) :
    (p.catchAll h).outcome reply i = (h e).outcome reply j := by
  induction p generalizing i with
  | ret x =>
    cases hp
    rfl
  | op o next ih => exact ih (reply i o) hp

/-- A sum over a list returns when each of its rounds does, within the bounds that
hold for each round. -/
theorem outcome_foldEach {xs : List α} {f : Nat → α → Prog Reply ε Nat} {lo hi : α → Nat}
    (step : ∀ total x i, ∃ v j, (f total x).outcome reply i = (.ok (total + v), j) ∧
      lo x ≤ v ∧ v ≤ hi x) (total i : Nat) :
    ∃ v j, (foldEach xs total f).outcome reply i = (.ok (total + v), j) ∧
      (xs.map lo).sum ≤ v ∧ v ≤ (xs.map hi).sum := by
  induction xs generalizing total i with
  | nil => exact ⟨0, i, rfl, Nat.le_refl _, Nat.le_refl _⟩
  | cons x rest ih =>
    obtain ⟨v, j, hfirst, hlo, hhi⟩ := step total x i
    obtain ⟨v', k, hrest, hlo', hhi'⟩ := ih (total + v) j
    refine ⟨v + v', k, ?_, ?_, ?_⟩
    · have hbind := outcome_bind_ok (f := fun n => foldEach rest n f) hfirst
      rw [← Nat.add_assoc, ← hrest]
      exact hbind
    · simp only [List.map_cons, List.sum_cons]
      omega
    · simp only [List.map_cons, List.sum_cons]
      omega

end Prog
end Coop
