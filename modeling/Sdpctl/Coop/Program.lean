import Mathlib.Data.List.Basic
import Mathlib.Tactic.Common

/-!
Programs as trees of atomic operations. A node performs one operation and
continues with its reply, which is a value or an exception; a leaf is the
result of the whole program. Nothing here says what an operation does: the
same tree is run by a machine, walked by a program logic, or evaluated alone.
-/

namespace Coop

/-- A program over the operations `Op`. An operation `o` replies with a value of
type `Reply o` or raises an exception of type `ε`. -/
inductive Prog {Op : Type} (Reply : Op → Type) (ε α : Type) : Type where
  | ret (result : Except ε α)
  | op (o : Op) (next : Except ε (Reply o) → Prog Reply ε α)

namespace Prog

variable {Op : Type} {Reply : Op → Type} {ε α β γ : Type}

def bind (p : Prog Reply ε α) (f : α → Prog Reply ε β) : Prog Reply ε β :=
  match p with
  | .ret (.ok a) => f a
  | .ret (.error e) => .ret (.error e)
  | .op o next => .op o fun x => (next x).bind f

/-- `try p except: h`. -/
def catchAll (p : Prog Reply ε α) (h : ε → Prog Reply ε α) : Prog Reply ε α :=
  match p with
  | .ret (.ok a) => .ret (.ok a)
  | .ret (.error e) => h e
  | .op o next => .op o fun x => (next x).catchAll h

instance : Monad (Prog Reply ε) where
  pure a := .ret (.ok a)
  bind := bind

instance : MonadExceptOf ε (Prog Reply ε) where
  throw e := .ret (.error e)
  tryCatch := catchAll

def call (o : Op) : Prog Reply ε (Reply o) := .op o .ret

/-- `try: p finally: q`. -/
def finallyDo (p : Prog Reply ε α) (q : Prog Reply ε Unit) : Prog Reply ε α :=
  match p with
  | .ret x => q.bind fun _ => .ret x
  | .op o next => .op o fun x => (next x).finallyDo q

/-- `for x in xs: f x`. -/
def forEach (xs : List α) (f : α → Prog Reply ε Unit) : Prog Reply ε Unit :=
  match xs with
  | [] => pure ()
  | x :: rest => do
      f x
      forEach rest f

/-- Run `f` over a list from the left, carrying an accumulator. -/
def foldEach (xs : List α) (init : β) (f : β → α → Prog Reply ε β) : Prog Reply ε β :=
  match xs with
  | [] => pure init
  | x :: rest => do
      let next ← f init x
      foldEach rest next f

/-- Every operation that can occur in the tree satisfies `φ`. -/
def Uses (φ : Op → Prop) : Prog Reply ε α → Prop
  | .ret _ => True
  | .op o next => φ o ∧ ∀ x, (next x).Uses φ

@[simp] theorem pure_def (a : α) : (pure a : Prog Reply ε α) = .ret (.ok a) := rfl

@[simp] theorem throw_def (e : ε) : (throw e : Prog Reply ε α) = .ret (.error e) := rfl

@[simp] theorem bind_def (p : Prog Reply ε α) (f : α → Prog Reply ε β) :
    (p >>= f) = p.bind f := rfl

@[simp] theorem tryCatch_def (p : Prog Reply ε α) (h : ε → Prog Reply ε α) :
    (tryCatch p h) = p.catchAll h := rfl

@[simp] theorem ret_ok_bind (a : α) (f : α → Prog Reply ε β) :
    (Prog.ret (.ok a) : Prog Reply ε α).bind f = f a := rfl

@[simp] theorem ret_error_bind (e : ε) (f : α → Prog Reply ε β) :
    (Prog.ret (.error e) : Prog Reply ε α).bind f = .ret (.error e) := rfl

@[simp] theorem op_bind (o : Op) (next : Except ε (Reply o) → Prog Reply ε α)
    (f : α → Prog Reply ε β) :
    (Prog.op o next).bind f = .op o fun x => (next x).bind f := rfl

theorem bind_assoc (p : Prog Reply ε α) (f : α → Prog Reply ε β) (g : β → Prog Reply ε γ) :
    (p.bind f).bind g = p.bind fun a => (f a).bind g := by
  induction p with
  | ret x => cases x <;> rfl
  | op o next ih => simp only [op_bind, ih]

end Prog
end Coop
