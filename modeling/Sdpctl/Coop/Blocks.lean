import Sdpctl.Coop.Machine
import Sdpctl.Coop.Solo

/-!
Operations that are programs themselves. A coarse machine performs an operation in one
step; a fine machine performs the block of finer operations that implements it, and
the blocks of different processes interleave. All steps of a block but one leave the
coarse state to its environment, and that one does what the operation does. It is the
last step of the block, unless the block only looks: such a block can foresee its reply
before its end, and then no separate process may spoil the reply.
-/

namespace Coop
namespace Prog

variable {Op Op' : Type} {Reply : Op → Type} {Reply' : Op' → Type} {ε α β γ : Type}

/-- Run `p` and go on with its result, a value or an exception. -/
def hand (p : Prog Reply ε α) (k : Except ε α → Prog Reply ε β) : Prog Reply ε β :=
  match p with
  | .ret x => k x
  | .op o next => .op o fun x => (next x).hand k

/-- The program with its operations replaced by their blocks. -/
def expand (impl : (o : Op) → Prog Reply' ε (Reply o)) : Prog Reply ε α → Prog Reply' ε α
  | .ret x => .ret x
  | .op o next => (impl o).hand fun x => (next x).expand impl

@[simp] theorem ret_hand (x : Except ε α) (k : Except ε α → Prog Reply ε β) :
    (Prog.ret x : Prog Reply ε α).hand k = k x := rfl

@[simp] theorem op_hand (o : Op) (next : Except ε (Reply o) → Prog Reply ε α)
    (k : Except ε α → Prog Reply ε β) :
    (Prog.op o next).hand k = .op o fun x => (next x).hand k := rfl

@[simp] theorem expand_ret (impl : (o : Op) → Prog Reply' ε (Reply o)) (x : Except ε α) :
    (Prog.ret x : Prog Reply ε α).expand impl = .ret x := rfl

@[simp] theorem expand_op (impl : (o : Op) → Prog Reply' ε (Reply o)) (o : Op)
    (next : Except ε (Reply o) → Prog Reply ε α) :
    (Prog.op o next).expand impl = (impl o).hand fun x => (next x).expand impl := rfl

end Prog

namespace Machine

variable {Op : Type} {Reply : Op → Type} {ε S Role Entry Choice Env : Type}
variable (M : Machine Op Reply ε S Role Entry Choice Env)

/-- What the runs of a machine are limited to, operation by operation. -/
structure Bounds (_M : Machine Op Reply ε S Role Entry Choice Env) where
  run : Role → Op → Choice → S → Prop
  env : Env → S → Prop
  enter : Role → Entry → Prop

variable {M}

def Bounds.ok (B : M.Bounds) (w : World Reply ε S Role Entry) :
    Label Role Entry Choice Env → Prop
  | .run pid c => ∀ p o next, w.procs[pid]? = some p → p.code = .op o next →
      B.run p.role o c w.shared
  | .env e => B.env e w.shared
  | .enter r n => B.enter r n
  | _ => True

/-- What the environment can do within the bounds. -/
inductive Bounds.Drift (B : M.Bounds) (s : S) : S → Prop where
  | rest : Drift B s s
  | step {t u : S} {e : Env} (before : Drift B s t) (bound : B.env e t)
      (moves : M.env e t = some u) : Drift B s u

theorem Bounds.Drift.of_eq {B : M.Bounds} {s t : S} (h : t = s) : B.Drift s t := by
  subst h
  exact .rest

variable (M)

/-- The cooperative group ends with the leader. -/
def closing (r : Role) (code : Prog Reply ε (Option Entry)) (w : World Reply ε S Role Entry) :
    World Reply ε S Role Entry :=
  match M.leader r, code with
  | true, .ret _ => M.crash w
  | _, _ => w

def Closes (r : Role) (code : Prog Reply ε (Option Entry)) : Prop :=
  M.leader r = true ∧ ∃ x, code = .ret x

variable {M}

theorem closing_of_closes {r : Role} {code : Prog Reply ε (Option Entry)}
    {w : World Reply ε S Role Entry} (h : M.Closes r code) : M.closing r code w = M.crash w := by
  obtain ⟨hleader, x, rfl⟩ := h
  simp [closing, hleader]

theorem closing_of_not {r : Role} {code : Prog Reply ε (Option Entry)}
    {w : World Reply ε S Role Entry} (h : ¬ M.Closes r code) : M.closing r code w = w := by
  unfold closing
  split
  · rename_i x hleader
    exact absurd ⟨hleader, x, rfl⟩ h
  · rfl

theorem step_run {w : World Reply ε S Role Entry} {pid : Nat} {c : Choice}
    {p : Proc Reply ε Role Entry} {o : Op} {next : Except ε (Reply o) → Prog Reply ε (Option Entry)}
    {x : Except ε (Reply o)} {s : S} (found : w.procs[pid]? = some p) (code : p.code = .op o next)
    (waits : M.coop p.role = true → M.othersWait w.procs pid = true)
    (performs : M.exec p.role o c w.shared = some (x, s)) :
    M.step (.run pid c) w = some (M.closing p.role (M.resume p.role (next x))
      (M.settle w pid p o (M.resume p.role (next x)) s)) := by
  have hturn : (M.coop p.role && !M.othersWait w.procs pid) = false := by
    cases hcoop : M.coop p.role with
    | false => rfl
    | true => simp [waits hcoop]
  simp only [step, found, code, hturn, performs, closing]
  cases M.leader p.role <;> cases M.resume p.role (next x) <;> rfl

theorem othersWait_iff {procs : List (Proc Reply ε Role Entry)} {pid : Nat} :
    M.othersWait procs pid = true ↔ ∀ (j : Nat) q, procs[j]? = some q → j ≠ pid →
      M.coop q.role = true → M.waiting q = true := by
  unfold othersWait
  rw [List.all_eq_true]
  constructor
  · intro h j q hq hne hcoop
    simpa [hne, hcoop] using h (q, j) (List.mem_zipIdx_iff_getElem?.mpr hq)
  · rintro h ⟨q, j⟩ hmem
    have hq := List.mem_zipIdx_iff_getElem?.mp hmem
    by_cases hne : j = pid
    · simp [hne]
    · cases hcoop : M.coop q.role with
      | false => simp [hcoop]
      | true => simp [h j q hq hne hcoop]

end Machine

variable {Op Op' : Type} {Reply : Op → Type} {Reply' : Op' → Type}
variable {ε S S' Role Entry Choice Choice' Env Env' : Type}

/-- How the operations of the machine `H` are implemented on the machine `L`. -/
structure Blocks (H : Machine Op Reply ε S Role Entry Choice Env)
    (L : Machine Op' Reply' ε S' Role Entry Choice' Env') where
  impl : (o : Op) → Prog Reply' ε (Reply o)
  /-- The coarse state that a fine one stands for. -/
  abs : S' → S
  /-- A process can be in the middle of the block of `o`, with this much left of it. -/
  Within : (o : Op) → Prog Reply' ε (Reply o) → S' → Prop
  /-- What is left of the block returns `x`, unless it raises. -/
  Foresees : Role → (o : Op) → Prog Reply' ε (Reply o) → Except ε (Reply o) → S → Prop

/-- Where a process stands: at its end, or at an operation, in its block. -/
inductive Place {Op Op' : Type} (Reply : Op → Type) (Reply' : Op' → Type) (ε Entry : Type) where
  | ended (x : Except ε (Option Entry))
  | inside (o : Op) (next : Except ε (Reply o) → Prog Reply ε (Option Entry))
      (rest : Prog Reply' ε (Reply o))

namespace Blocks

variable {H : Machine Op Reply ε S Role Entry Choice Env}
variable {L : Machine Op' Reply' ε S' Role Entry Choice' Env'}
variable (B : Blocks H L) (hi : H.Bounds) (lo : L.Bounds) (permits : Role → Op → S → Prop)

/-- What a step of a block comes to, by what is left of the block afterwards. -/
inductive Outcome (r : Role) (o : Op) (rest : Prog Reply' ε (Reply o)) (o' : Op') (s t : S') :
    Prog Reply' ε (Reply o) → Prop where
  /-- The block goes on, and what it foresees was foreseen or is settled by this step. -/
  | goes {rest' : Prog Reply' ε (Reply o)} (drift : hi.Drift (B.abs s) (B.abs t))
      (alone : L.spawn o' s = none) (within : B.Within o rest' t)
      (foresees : ∀ x, B.Foresees r o rest' x (B.abs t) → B.abs t = B.abs s ∧
        (B.Foresees r o rest x (B.abs s) ∨ H.spawn o (B.abs s) = none ∧
          ∃ c, hi.run r o c (B.abs s) ∧ H.exec r o c (B.abs s) = some (x, B.abs s))) :
      Outcome r o rest o' s t rest'
  /-- The block ends and does what its operation does. -/
  | acts {x : Except ε (Reply o)} {c : Choice} (bound : hi.run r o c (B.abs s))
      (performs : H.exec r o c (B.abs s) = some (x, B.abs t))
      (born : L.spawn o' s = H.spawn o (B.abs s)) : Outcome r o rest o' s t (.ret x)
  /-- The block ends with what it foresaw. -/
  | keeps {x : Except ε (Reply o)} (same : B.abs t = B.abs s) (alone : L.spawn o' s = none)
      (foreseen : B.Foresees r o rest x (B.abs s)) : Outcome r o rest o' s t (.ret x)

/-- What has to be shown of an implementation. -/
structure Sound : Prop where
  coop : ∀ r, L.coop r = H.coop r
  leader : ∀ r, L.leader r = H.leader r
  leads : ∀ r, H.leader r = true → H.coop r = true
  code : ∀ r n, L.code r n = (H.code r n).expand B.impl
  /-- A block waits where its operation waits. In its middle it may wait on, when its
  operation waits and it foresees nothing. -/
  starts : ∀ o, ∃ o' k, B.impl o = .op o' k ∧ L.awaits o' = H.awaits o
  busy : ∀ {o rest s}, B.Within o rest s → ∃ o' k, rest = .op o' k ∧
    (L.awaits o' = true → H.awaits o = true ∧ ∀ r x s, ¬ B.Foresees r o rest x s)
  step : ∀ {r o rest o' k c s y t}, rest = B.impl o ∨ B.Within o rest s → rest = .op o' k →
    permits r o (B.abs s) → lo.run r o' c s → L.exec r o' c s = some (y, t) →
    B.Outcome hi r o rest o' s t (k y)
  within_exec : ∀ {o rest r o' c s y t}, B.Within o rest s → L.exec r o' c s = some (y, t) →
    B.Within o rest t
  within_env : ∀ {o rest e s t}, B.Within o rest s → L.env e s = some t → B.Within o rest t
  within_enter : ∀ {o rest r n s t}, B.Within o rest s → L.enter r n s = some t →
    B.Within o rest t
  within_down : ∀ {o rest s}, B.Within o rest s → B.Within o rest (L.down s)
  foresees_coop : ∀ {r o rest x s}, B.Foresees r o rest x s → H.coop r = true
  foresees_late : ∀ {r o x s}, ¬ B.Foresees r o (B.impl o) x s
  /-- Whoever can move while a cooperative process is in a block leaves its reply alone. -/
  foresees_exec : ∀ {r o rest x r' o' c s y t}, H.coop r' = false → permits r' o' s →
    hi.run r' o' c s → H.exec r' o' c s = some (y, t) → B.Foresees r o rest x t →
    B.Foresees r o rest x s
  foresees_env : ∀ {r o rest x e s t}, hi.env e s → H.env e s = some t →
    B.Foresees r o rest x t → B.Foresees r o rest x s
  foresees_enter : ∀ {r o rest x r' n s t}, H.enter r' n s = some t →
    B.Foresees r o rest x t → B.Foresees r o rest x s
  env : ∀ {e s t}, lo.env e s → L.env e s = some t → hi.Drift (B.abs s) (B.abs t)
  enter : ∀ {r n s t}, lo.enter r n → L.enter r n s = some t →
    hi.enter r n ∧ H.enter r n (B.abs s) = some (B.abs t)
  down : ∀ s, B.abs (L.down s) = H.down (B.abs s)

def at_ : Prog Reply ε (Option Entry) → Place Reply Reply' ε Entry
  | .ret x => .ended x
  | .op o next => .inside o next (B.impl o)

def coarse (p : Role × Place Reply Reply' ε Entry) : Proc Reply ε Role Entry where
  role := p.1
  code :=
    match p.2 with
    | .ended x => .ret x
    | .inside o next _ => .op o next

def fine (p : Role × Place Reply Reply' ε Entry) : Proc Reply' ε Role Entry where
  role := p.1
  code :=
    match p.2 with
    | .ended x => .ret x
    | .inside _ next rest => rest.hand fun x => (next x).expand B.impl

/-- The place is at the start of a block, or in the middle of one. -/
def Fits (s : S') : Place Reply Reply' ε Entry → Prop
  | .ended _ => True
  | .inside o _ rest => rest = B.impl o ∨ B.Within o rest s

def world (s : S) (ps : List (Role × Place Reply Reply' ε Entry)) : World Reply ε S Role Entry where
  shared := s
  procs := ps.map coarse

variable {B hi lo permits}

@[simp] theorem coarse_role (p : Role × Place Reply Reply' ε Entry) : (coarse p).role = p.1 := rfl

@[simp] theorem fine_role (p : Role × Place Reply Reply' ε Entry) : (B.fine p).role = p.1 := rfl

@[simp] theorem coarse_at (r : Role) (p : Prog Reply ε (Option Entry)) :
    coarse (r, B.at_ p) = { role := r, code := p } := by
  cases p <;> rfl

@[simp] theorem fine_at (r : Role) (p : Prog Reply ε (Option Entry)) :
    B.fine (r, B.at_ p) = { role := r, code := p.expand B.impl } := by
  cases p <;> rfl

theorem fits_at (s : S') (p : Prog Reply ε (Option Entry)) : B.Fits s (B.at_ p) := by
  cases p with
  | ret x => trivial
  | op o next => exact .inl rfl

variable (B hi) in
/-- A fine world that follows a coarse one, which is reached from `init`. Where a reply is
foreseen, the coarse world can be reached with the reply taken, unless that is its end. -/
structure Follows (init : World Reply ε S Role Entry) (w : World Reply' ε S' Role Entry)
    (ps : List (Role × Place Reply Reply' ε Entry)) : Prop where
  procs : w.procs = ps.map B.fine
  fits : ∀ p ∈ ps, B.Fits w.shared p.2
  reach : H.Reach hi.ok init (world (B.abs w.shared) ps)
  foresees : ∀ (i : Nat) r o next rest x, ps[i]? = some (r, .inside o next rest) →
    B.Foresees r o rest x (B.abs w.shared) → H.Closes r (H.resume r (next x)) ∨
      H.Reach hi.ok init (world (B.abs w.shared) (ps.set i (r, B.at_ (H.resume r (next x)))))

theorem set_found {α : Type} {l : List α} {i : Nat} {a : α} (h : l[i]? = some a) :
    l.set i a = l := by
  obtain ⟨hlt, rfl⟩ := List.getElem?_eq_some_iff.mp h
  exact List.set_getElem_self hlt

def fall (H : Machine Op Reply ε S Role Entry Choice Env)
    (p : Role × Place Reply Reply' ε Entry) : Role × Place Reply Reply' ε Entry :=
  if H.coop p.1 then (p.1, .ended (.ok none)) else p

theorem coarse_fall (p : Role × Place Reply Reply' ε Entry) :
    coarse (fall H p) = if H.coop p.1 then (coarse p).halt else coarse p := by
  unfold fall
  split <;> rfl

theorem fine_fall (p : Role × Place Reply Reply' ε Entry) :
    B.fine (fall H p) = if H.coop p.1 then (B.fine p).halt else B.fine p := by
  unfold fall
  split <;> rfl

theorem crash_world (s : S) (ps : List (Role × Place Reply Reply' ε Entry)) :
    H.crash (world s ps) = world (H.down s) (ps.map (fall H)) := by
  unfold Machine.crash world
  rw [List.map_map, List.map_map]
  congr 2
  funext p
  exact (coarse_fall p).symm

variable (B) in
/-- The place of a process that an operation starts. -/
def born : Option (Role × Entry) → List (Role × Place Reply Reply' ε Entry)
  | some (r, n) => [(r, B.at_ (H.code r n))]
  | none => []

theorem settle_world {s t : S} {ps : List (Role × Place Reply Reply' ε Entry)} {pid : Nat}
    {r : Role} (place : Place Reply Reply' ε Entry) {o : Op} {code : Prog Reply ε (Option Entry)} :
    H.settle (world s ps) pid (coarse (r, place)) o code t =
      world t (ps.set pid (r, B.at_ code) ++ B.born (H.spawn o s)) := by
  unfold Machine.settle world
  rw [List.map_append, List.map_set, coarse_at]
  rcases H.spawn o s with _ | ⟨r', n⟩
  · rfl
  · simp only [born, List.map_cons, List.map_nil, coarse_at]
    rfl

theorem world_found {s : S} {ps : List (Role × Place Reply Reply' ε Entry)} {pid : Nat} {r : Role}
    {o : Op} {next rest} (h : ps[pid]? = some (r, .inside o next rest)) :
    (world s ps).procs[pid]? = some { role := r, code := .op o next } := by
  simp [world, h, coarse]

theorem world_step {s t : S} {ps : List (Role × Place Reply Reply' ε Entry)} {pid : Nat} {r : Role}
    {o : Op} {next rest} {c : Choice} {x : Except ε (Reply o)}
    (hpid : ps[pid]? = some (r, .inside o next rest))
    (waits : H.coop r = true → H.othersWait (world s ps).procs pid = true)
    (performs : H.exec r o c s = some (x, t)) :
    H.step (.run pid c) (world s ps) = some (H.closing r (H.resume r (next x))
      (world t (ps.set pid (r, B.at_ (H.resume r (next x))) ++ B.born (H.spawn o s)))) := by
  rw [Machine.step_run (world_found hpid) rfl waits performs]
  exact congrArg some (congrArg _ (settle_world (.inside o next rest)))

theorem world_reach {init : World Reply ε S Role Entry} {s t : S}
    {ps : List (Role × Place Reply Reply' ε Entry)} {pid : Nat} {r : Role} {o : Op} {next rest}
    {c : Choice} {x : Except ε (Reply o)} (hreach : H.Reach hi.ok init (world s ps))
    (hpid : ps[pid]? = some (r, .inside o next rest))
    (waits : H.coop r = true → H.othersWait (world s ps).procs pid = true)
    (bound : hi.run r o c s) (performs : H.exec r o c s = some (x, t)) :
    H.Reach hi.ok init (H.closing r (H.resume r (next x))
      (world t (ps.set pid (r, B.at_ (H.resume r (next x))) ++ B.born (H.spawn o s)))) := by
  refine .step (.run pid c) hreach (fun p o' next' hp hcode => ?_) (world_step hpid waits performs)
  rw [world_found hpid] at hp
  cases hp
  cases hcode
  exact bound

theorem drift_reach {init : World Reply ε S Role Entry} {s t : S}
    {ps : List (Role × Place Reply Reply' ε Entry)} (h : hi.Drift s t)
    (hreach : H.Reach hi.ok init (world s ps)) : H.Reach hi.ok init (world t ps) := by
  induction h with
  | rest => exact hreach
  | @step t u e _ bound moves ih =>
    refine .step (.env e) ih bound ?_
    simp only [Machine.step, world]
    exact congrArg (Option.map _) moves

section Step

variable {init : World Reply ε S Role Entry} {s t : S'} {pid : Nat} {r : Role} {o : Op}
variable {ps : List (Role × Place Reply Reply' ε Entry)}
variable {next : Except ε (Reply o) → Prog Reply ε (Option Entry)} {rest : Prog Reply' ε (Reply o)}

theorem Follows.goes {procs : List (Proc Reply' ε Role Entry)} {rest' : Prog Reply' ε (Reply o)}
    (h : B.Follows hi init { shared := s, procs } ps)
    (hpid : ps[pid]? = some (r, .inside o next rest))
    (waits : H.coop r = true → H.othersWait (world (B.abs s) ps).procs pid = true)
    (hstable : ∀ p ∈ ps, B.Fits t p.2) (drift : hi.Drift (B.abs s) (B.abs t))
    (before : ∀ {r o rest x}, B.Foresees r o rest x (B.abs t) → B.Foresees r o rest x (B.abs s))
    (within : B.Within o rest' t)
    (foresees : ∀ x, B.Foresees r o rest' x (B.abs t) → B.abs t = B.abs s ∧
      (B.Foresees r o rest x (B.abs s) ∨ H.spawn o (B.abs s) = none ∧
        ∃ c, hi.run r o c (B.abs s) ∧ H.exec r o c (B.abs s) = some (x, B.abs s))) :
    B.Follows hi init { shared := t, procs := procs.set pid (B.fine (r, .inside o next rest')) }
      (ps.set pid (r, .inside o next rest')) := by
  -- in the coarse world only the environment has moved, whatever else is put at another place
  have hdrift : ∀ (qs : List (Role × Place Reply Reply' ε Entry)),
      qs[pid]? = some (r, .inside o next rest) → H.Reach hi.ok init (world (B.abs s) qs) →
      H.Reach hi.ok init (world (B.abs t) (qs.set pid (r, .inside o next rest'))) := by
    intro qs hq hreach
    have hsame : (world (B.abs t) (qs.set pid (r, .inside o next rest')) :
        World Reply ε S Role Entry) = world (B.abs t) qs := by
      unfold world
      rw [List.map_set, set_found]
      simp [hq, coarse]
    rw [hsame]
    exact drift_reach drift hreach
  refine ⟨?_, ?_, hdrift ps hpid h.reach, ?_⟩
  · have hprocs : procs = ps.map B.fine := h.procs
    rw [hprocs, List.map_set]
  · intro p hp
    rcases List.mem_or_eq_of_mem_set hp with hp | rfl
    · exact hstable p hp
    · exact .inr within
  · intro i r' o' next' rest'' x hi hf
    by_cases heq : i = pid
    · subst heq
      have hlt : i < ps.length := (List.getElem?_eq_some_iff.mp hpid).1
      rw [List.getElem?_set_self hlt] at hi
      cases hi
      obtain ⟨same, hsettled⟩ := foresees x hf
      rw [List.set_set, same]
      rcases hsettled with hbefore | ⟨hnone, c, hbound, hexec⟩
      · exact h.foresees i r o next rest x hpid hbefore
      · by_cases hcloses : H.Closes r (H.resume r (next x))
        · exact .inl hcloses
        · have hreach := world_reach (B := B) h.reach hpid waits hbound hexec
          rw [Machine.closing_of_not hcloses, hnone, born, List.append_nil] at hreach
          exact .inr hreach
    · rw [List.getElem?_set_ne (Ne.symm heq)] at hi
      refine (h.foresees i r' o' next' rest'' x hi (before hf)).imp id fun hreach => ?_
      rw [List.set_comm _ _ (Ne.symm heq)]
      refine hdrift _ ?_ hreach
      rw [List.getElem?_set_ne heq]
      exact hpid

theorem Follows.stop {procs : List (Proc Reply' ε Role Entry)}
    {p : Role × Place Reply Reply' ε Entry}
    (h : B.Follows hi init { shared := s, procs } ps) (hpid : ps[pid]? = some p)
    (alone : H.coop p.1 = false) :
    B.Follows hi init { shared := s, procs := procs.set pid (B.fine p).halt }
      (ps.set pid (p.1, .ended (.ok none))) := by
  have hstops : ∀ qs : List (Role × Place Reply Reply' ε Entry), qs[pid]? = some p →
      H.Reach hi.ok init (world (B.abs s) qs) →
      H.Reach hi.ok init (world (B.abs s) (qs.set pid (p.1, .ended (.ok none)))) := by
    intro qs hq hreach
    refine .step (.stop pid) hreach trivial ?_
    simp only [Machine.step, world, List.getElem?_map, hq, Option.map_some, coarse_role, alone,
      List.map_set]
    rfl
  refine ⟨?_, ?_, hstops ps hpid h.reach, fun i r o next rest x hi hf => ?_⟩
  · have hprocs : procs = ps.map B.fine := h.procs
    rw [List.map_set, hprocs]
    rfl
  · intro q hq
    rcases List.mem_or_eq_of_mem_set hq with hq | rfl
    · exact h.fits q hq
    · trivial
  · by_cases heq : i = pid
    · subst heq
      rw [List.getElem?_set_self (List.getElem?_eq_some_iff.mp hpid).1] at hi
      cases hi
    · rw [List.getElem?_set_ne (Ne.symm heq)] at hi
      refine (h.foresees i r o next rest x hi hf).imp id fun htaken => ?_
      rw [List.set_comm _ _ (Ne.symm heq)]
      refine hstops _ ?_ htaken
      rw [List.getElem?_set_ne heq]
      exact hpid

end Step

end Blocks
end Coop
