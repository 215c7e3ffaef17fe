import Sdpctl.Coop.Refinement

/-!
Transactions on a store that several processes share. Some operations of a machine are
methods of its store: a transaction of several statements, or two queries. On the fine
machine every statement is a step. A transaction takes the write lock, works on a copy
and puts it in place at its end, and is rolled back when anything fails. The lock can be
lost at any moment, as by the death of its holder; what then is left of the transaction
fails. The fine machine refines the one in which every method is a single step.
-/

namespace Coop

variable {Stmt : Type} {Answer : Stmt → Type} {ε D α β : Type}

/-- The body of a transaction. An exception ends it: nothing inside handles one. -/
inductive Tx {Stmt : Type} (Answer : Stmt → Type) (ε α : Type) where
  | ret (x : Except ε α)
  | stmt (st : Stmt) (next : Answer st → Tx Answer ε α)

namespace Tx

def bind (p : Tx Answer ε α) (f : α → Tx Answer ε β) : Tx Answer ε β :=
  match p with
  | .ret (.ok a) => f a
  | .ret (.error e) => .ret (.error e)
  | .stmt st next => .stmt st fun y => (next y).bind f

instance : Monad (Tx Answer ε) where
  pure a := .ret (.ok a)
  bind := bind

def execute (st : Stmt) : Tx Answer ε (Answer st) := .stmt st fun y => .ret (.ok y)

def raise (e : ε) : Tx Answer ε α := .ret (.error e)

/-- `for x in xs: f x`. -/
def forEach (xs : List α) (f : α → Tx Answer ε Unit) : Tx Answer ε Unit :=
  match xs with
  | [] => pure ()
  | x :: rest => do
      f x
      forEach rest f

/-- What the body makes of the data when it runs alone. -/
def eval (run : (st : Stmt) → D → Except ε (Answer st × D)) : Tx Answer ε α → D → Except ε (α × D)
  | .ret (.ok a), d => .ok (a, d)
  | .ret (.error e), _ => .error e
  | .stmt st next, d =>
    match run st d with
    | .ok (y, d') => (next y).eval run d'
    | .error e => .error e

variable {run : (st : Stmt) → D → Except ε (Answer st × D)}

@[simp] theorem pure_def (a : α) : (pure a : Tx Answer ε α) = .ret (.ok a) := rfl

@[simp] theorem bind_def (p : Tx Answer ε α) (f : α → Tx Answer ε β) :
    (p >>= f) = p.bind f := rfl

@[simp] theorem eval_ok (a : α) (d : D) :
    (Tx.ret (.ok a) : Tx Answer ε α).eval run d = .ok (a, d) := rfl

@[simp] theorem eval_error (e : ε) (d : D) :
    (Tx.ret (.error e) : Tx Answer ε α).eval run d = .error e := rfl

@[simp] theorem eval_raise (e : ε) (d : D) :
    (raise e : Tx Answer ε α).eval run d = .error e := rfl

theorem eval_stmt (st : Stmt) (next : Answer st → Tx Answer ε α) (d : D) :
    (Tx.stmt st next).eval run d = (run st d).bind fun x => (next x.1).eval run x.2 := by
  simp only [eval]
  cases run st d <;> rfl

@[simp] theorem eval_bind (p : Tx Answer ε α) (f : α → Tx Answer ε β) (d : D) :
    (p.bind f).eval run d = (p.eval run d).bind fun x => (f x.1).eval run x.2 := by
  induction p generalizing d with
  | ret x => cases x <;> rfl
  | stmt st next ih =>
    simp only [bind, eval_stmt]
    cases run st d with
    | error e => rfl
    | ok x => exact ih x.1 x.2

@[simp] theorem eval_execute (st : Stmt) (d : D) :
    (execute st : Tx Answer ε (Answer st)).eval run d = run st d := by
  unfold execute
  rw [eval_stmt]
  cases run st d <;> rfl

end Tx

/-- An open transaction: the number of its lock, and the data as it sees them. -/
structure Connection (D : Type) where
  number : Nat
  data : D

inductive Fine (Op Stmt D : Type) where
  /-- An operation that is a single step. -/
  | plain (o : Op)
  /-- Connect and take the write lock. -/
  | begin_
  | execute (con : Connection D) (st : Stmt)
  /-- Put the data in place, give the lock back and close the connection. -/
  | commit (con : Connection D)
  /-- Give the lock back and close the connection. -/
  | rollback (number : Nat)
  /-- A query outside of any transaction, on its own connection. -/
  | select (st : Stmt)

@[reducible] def Fine.Reply {Op : Type} (Reply : Op → Type) (Answer : Stmt → Type) :
    Fine Op Stmt D → Type
  | .plain o => Reply o
  | .begin_ => Connection D
  | .execute _ st => Answer st × Connection D
  | .commit _ | .rollback _ => Unit
  | .select st => Answer st

/-- How an operation is implemented on the store. -/
inductive Method {Stmt : Type} (Answer : Stmt → Type) (ε α : Type) where
  /-- As one step: at most one statement, outside of a transaction. -/
  | whole
  | transaction (body : Tx Answer ε α)
  /-- Two queries on one connection, without a transaction around them. -/
  | selects (first second : Stmt) (join : Answer first → Answer second → α)

/-- The operation is a step of its own on the fine machine. -/
def Method.isWhole : Method Answer ε α → Bool
  | .whole => true
  | _ => false

section Programs

variable {Op : Type} {Reply : Op → Type}

abbrev FineProg {Op Stmt : Type} (Reply : Op → Type) (Answer : Stmt → Type) (D ε α : Type) : Type :=
  @Prog (Fine Op Stmt D) (Fine.Reply Reply Answer) ε α

/-- Perform one operation of the fine machine. -/
def perform (o : Fine Op Stmt D) : FineProg Reply Answer D ε (Fine.Reply Reply Answer o) :=
  Prog.call o

def Tx.over (con : Connection D) :
    Tx Answer ε α → FineProg Reply Answer D ε (α × Connection D)
  | .ret (.ok a) => pure (a, con)
  | .ret (.error e) => throw e
  | .stmt st next => do
    let y ← perform (.execute con st)
    (next y.1).over y.2

/-- `with self.tx() as con`. Before the lock is taken there is nothing to roll back. -/
def transact (body : Tx Answer ε α) : FineProg Reply Answer D ε α := do
  let con ← perform .begin_
  tryCatch
    (do
      let x ← body.over con
      perform (.commit x.2)
      return x.1)
    fun e => do
      perform (.rollback con.number)
      throw e

/-- `with self.connection() as con`, with two queries. -/
def twoSelects (first second : Stmt) (join : Answer first → Answer second → α) :
    FineProg Reply Answer D ε α := do
  let x ← perform (.select first)
  let y ← perform (.select second)
  return join x y

def Method.block {o : Op} : Method Answer ε (Reply o) → FineProg Reply Answer D ε (Reply o)
  | .whole => perform (.plain o)
  | .transaction body => transact body
  | .selects first second join => twoSelects first second join

def second (st : Stmt) (join : Answer st → α) : FineProg Reply Answer D ε α :=
  .op (.select st) fun
    | .ok y => .ret (.ok (join y))
    | .error e => .ret (.error e)

def undoing (n : Nat) (e : ε) : FineProg Reply Answer D ε α :=
  .op (.rollback n) fun
    | .ok _ => .ret (.error e)
    | .error e' => .ret (.error e')

/-- A transaction with this much of its body left. -/
def running (n : Nat) (con : Connection D) : Tx Answer ε α → FineProg Reply Answer D ε α
  | .ret (.ok a) => .op (.commit con) fun
    | .ok _ => .ret (.ok a)
    | .error e => undoing n e
  | .ret (.error e) => undoing n e
  | .stmt st next => .op (.execute con st) fun
    | .ok y => running n y.2 (next y.1)
    | .error e => undoing n e

theorem undo_eq (n : Nat) (e : ε) :
    (do
      perform (.rollback n)
      throw e : FineProg Reply Answer D ε α) = undoing n e := by
  refine congrArg (Prog.op _) (funext fun x => ?_)
  cases x <;> rfl

theorem over_eq (n : Nat) (con : Connection D) (body : Tx Answer ε α) :
    tryCatch
      (do
        let x ← body.over con
        perform (.commit x.2)
        return x.1 : FineProg Reply Answer D ε α)
      (fun e => do
        perform (.rollback n)
        throw e) = running n con body := by
  induction body generalizing con with
  | ret x =>
    cases x with
    | ok a =>
      refine congrArg (Prog.op _) (funext fun x => ?_)
      cases x with
      | ok u => rfl
      | error e => exact undo_eq n e
    | error e => exact undo_eq n e
  | stmt st next ih =>
    rw [Tx.over, running]
    refine congrArg (Prog.op (Fine.execute con st)) (funext fun x => ?_)
    cases x with
    | ok y => exact ih y.1 y.2
    | error e => exact undo_eq n e

theorem transact_eq (body : Tx Answer ε α) :
    (transact body : FineProg Reply Answer D ε α) = .op .begin_ fun
      | .ok con => running con.number con body
      | .error e => .ret (.error e) := by
  refine congrArg (Prog.op _) (funext fun x => ?_)
  cases x with
  | ok con => exact over_eq con.number con body
  | error e => rfl

theorem twoSelects_eq (first other : Stmt) (join : Answer first → Answer other → α) :
    (twoSelects first other join : FineProg Reply Answer D ε α) = .op (.select first) fun
      | .ok x => second other (join x)
      | .error e => .ret (.error e) := by
  refine congrArg (Prog.op _) (funext fun x => ?_)
  cases x with
  | ok x =>
    refine congrArg (Prog.op _) (funext fun y => ?_)
    cases y <;> rfl
  | error e => rfl

end Programs

variable {Op : Type} {Reply : Op → Type} {S Role Entry Choice Env : Type}

/-- A machine with a store: where the data is, what a statement does to it, and which
operations are methods of the store. -/
structure Stored (H : Machine Op Reply ε S Role Entry Choice Env) (Answer : Stmt → Type)
    (D : Type) where
  data : S → D
  put : D → S → S
  exec : (st : Stmt) → D → Except ε (Answer st × D)
  method : (o : Op) → Method Answer ε (Reply o)
  /-- How a method comes out when nothing fails, and when something does. -/
  works : Choice
  fails : Choice
  fault : ε

/-- The state of the fine machine: who holds the write lock, and the next lock. -/
structure Locked (S : Type) where
  base : S
  holder : Option Nat
  next : Nat

/-- How an operation of the fine machine comes out: a step of the coarse machine as
there, any other well or badly. -/
inductive Turnout (Choice : Type) where
  | plain (c : Choice)
  | works
  | fails

/-- What happens outside of the processes of the fine machine. -/
inductive Outside (Env : Type) where
  | plain (e : Env)
  /-- The lock is lost: its holder has died, or the database has rolled back by itself. -/
  | release

namespace Stored

variable {H : Machine Op Reply ε S Role Entry Choice Env} (P : Stored H Answer D)

/-- The statement on a connection, which has to hold the lock. -/
def execute (con : Connection D) (st : Stmt) (s : Locked S) :
    Except ε (Answer st × Connection D) :=
  if s.holder = some con.number then
    match P.exec st con.data with
    | .ok (y, d) => .ok (y, { con with data := d })
    | .error e => .error e
  else .error P.fault

def perform (r : Role) (o : Fine Op Stmt D) (c : Turnout Choice) (s : Locked S) :
    Option (Except ε (Fine.Reply Reply Answer o) × Locked S) :=
  match o, c with
  | .plain o, .plain c =>
    if (P.method o).isWhole then
      (H.exec r o c s.base).map fun x => (x.1, { s with base := x.2 })
    else none
  | .begin_, .works =>
    if s.holder = none then
      some (.ok { number := s.next, data := P.data s.base },
        { s with holder := some s.next, next := s.next + 1 })
    else none
  | .execute con st, .works => some (P.execute con st s, s)
  | .commit con, .works =>
    if s.holder = some con.number then
      some (.ok (), { s with base := P.put con.data s.base, holder := none })
    else some (.error P.fault, s)
  | .rollback n, .works =>
    if s.holder = some n then some (.ok (), { s with holder := none })
    else some (.error P.fault, s)
  | .select st, .works => some ((P.exec st (P.data s.base)).map fun x => x.1, s)
  | .begin_, .fails => some (.error P.fault, s)
  | .execute _ _, .fails => some (.error P.fault, s)
  | .commit _, .fails => some (.error P.fault, s)
  | .rollback n, .fails =>
    some (.error P.fault, { s with holder := if s.holder = some n then none else s.holder })
  | .select _, .fails => some (.error P.fault, s)
  | _, _ => none

def machine : Machine (Fine Op Stmt D) (Fine.Reply Reply Answer) ε (Locked S) Role Entry
    (Turnout Choice) (Outside Env) where
  exec := P.perform
  awaits
    | .plain o => H.awaits o
    | _ => false
  coop := H.coop
  leader := H.leader
  code r n := (H.code r n).expand fun o => (P.method o).block
  spawn
    | .plain o, s => H.spawn o s.base
    | _, _ => none
  env
    | .plain e, s => (H.env e s.base).map fun t => { s with base := t }
    | .release, s => some { s with holder := none }
  enter r n s := (H.enter r n s.base).map fun t => { s with base := t }
  down s := { s with base := H.down s.base }

/-- The bounds on the operations of the coarse machine, on the fine one; statements have none. -/
def bounds (hi : H.Bounds) : P.machine.Bounds where
  run r o c s :=
    match o, c with
    | .plain o, .plain c => hi.run r o c s.base
    | _, _ => True
  env e s :=
    match e with
    | .plain e => hi.env e s.base
    | .release => True
  enter := hi.enter

end Stored
end Coop
