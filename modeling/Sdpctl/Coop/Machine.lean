import Sdpctl.Coop.Program

/-!
A pool of processes over one shared state. Some processes are cooperative:
they live in one operating-system process with an event loop, so one of them
can only take a step while all the others wait at an operation that gives
control back. The remaining processes are separate and are interleaved at
every operation. The cooperative group dies as a whole, a separate process
dies alone, and either can happen between any two operations.
-/

namespace Coop

variable {Op : Type}

/-- What the processes are made of. A process runs the code of an entry point;
when that code returns another entry point the process continues there, so a
loop of unbounded length is a finite tree for each turn. -/
structure Machine (Op : Type) (Reply : Op → Type) (ε S Role Entry Choice Env : Type) where
  /-- The effect of one operation of a role; `none` when it cannot happen now. -/
  exec : Role → (o : Op) → Choice → S → Option (Except ε (Reply o) × S)
  /-- The operation gives control back to the event loop. -/
  awaits : Op → Bool
  /-- The process belongs to the cooperative group. -/
  coop : Role → Bool
  /-- The end of this process is the end of the cooperative group. -/
  leader : Role → Bool
  code : Role → Entry → Prog Reply ε (Option Entry)
  /-- The process that an operation starts. -/
  spawn : Op → S → Option (Role × Entry)
  /-- A step of the environment. -/
  env : Env → S → Option S
  /-- A process started from outside. -/
  enter : Role → Entry → S → Option S
  /-- What the death of the cooperative group does to the shared state. -/
  down : S → S

/-- A process: its role and what is left of its code. -/
structure Proc {Op : Type} (Reply : Op → Type) (ε Role Entry : Type) where
  role : Role
  code : Prog Reply ε (Option Entry)

def Proc.halt {Reply : Op → Type} {ε Role Entry : Type} (p : Proc Reply ε Role Entry) :
    Proc Reply ε Role Entry :=
  { p with code := .ret (.ok none) }

/-- The shared state and every process started so far; an ended process keeps
its place. -/
structure World {Op : Type} (Reply : Op → Type) (ε S Role Entry : Type) where
  shared : S
  procs : List (Proc Reply ε Role Entry)

inductive Label (Role Entry Choice Env : Type) where
  | run (pid : Nat) (c : Choice)
  | env (e : Env)
  | enter (r : Role) (n : Entry)
  | stop (pid : Nat)
  | crash
  deriving Repr

namespace Machine

variable {Reply : Op → Type} {ε S Role Entry Choice Env : Type}
variable (M : Machine Op Reply ε S Role Entry Choice Env)

/-- The process has nothing to do before the event loop resumes it. -/
def waiting (p : Proc Reply ε Role Entry) : Bool :=
  match p.code with
  | .ret _ => true
  | .op o _ => M.awaits o

/-- Every cooperative process other than `pid` waits. -/
def othersWait (procs : List (Proc Reply ε Role Entry)) (pid : Nat) : Bool :=
  procs.zipIdx.all fun (q, j) => j == pid || !M.coop q.role || M.waiting q

/-- Continue at the entry point that a finished turn returned. -/
def resume (r : Role) : Prog Reply ε (Option Entry) → Prog Reply ε (Option Entry)
  | .ret (.ok (some n)) => M.code r n
  | p => p

def crash (w : World Reply ε S Role Entry) : World Reply ε S Role Entry :=
  { shared := M.down w.shared,
    procs := w.procs.map fun p => if M.coop p.role then p.halt else p }

/-- The world after process `pid` performed `o` and has `code` left. -/
def settle (w : World Reply ε S Role Entry) (pid : Nat) (p : Proc Reply ε Role Entry)
    (o : Op) (code : Prog Reply ε (Option Entry)) (s : S) : World Reply ε S Role Entry :=
  let born := match M.spawn o w.shared with
    | some (r, n) => [{ role := r, code := M.code r n }]
    | none => []
  { shared := s, procs := w.procs.set pid { p with code := code } ++ born }

def step : Label Role Entry Choice Env → World Reply ε S Role Entry →
    Option (World Reply ε S Role Entry)
  | .run pid c, w =>
      match w.procs[pid]? with
      | none => none
      | some p =>
        match p.code with
        | .ret _ => none
        | .op o next =>
          if M.coop p.role && !M.othersWait w.procs pid then none
          else match M.exec p.role o c w.shared with
            | none => none
            | some (x, s) =>
              let w' := M.settle w pid p o (M.resume p.role (next x)) s
              match M.leader p.role, M.resume p.role (next x) with
              | true, .ret _ => some (M.crash w')
              | _, _ => some w'
  | .env e, w => (M.env e w.shared).map fun s => { w with shared := s }
  | .enter r n, w => (M.enter r n w.shared).map fun s =>
      { shared := s, procs := w.procs ++ [{ role := r, code := M.code r n }] }
  | .stop pid, w =>
      match w.procs[pid]? with
      | none => none
      | some p =>
        if M.coop p.role then none else some { w with procs := w.procs.set pid p.halt }
  | .crash, w => some (M.crash w)

inductive Stepped (w : World Reply ε S Role Entry) :
    Label Role Entry Choice Env → World Reply ε S Role Entry → Prop where
  /-- A process whose turn it is performs an operation, and the leader may end with it. -/
  | run {pid : Nat} {c : Choice} {p : Proc Reply ε Role Entry} {o : Op}
      {next : Except ε (Reply o) → Prog Reply ε (Option Entry)} {x : Except ε (Reply o)} {s : S}
      {w' : World Reply ε S Role Entry} (found : w.procs[pid]? = some p)
      (code : p.code = .op o next)
      (waits : M.coop p.role = true → M.othersWait w.procs pid = true)
      (performs : M.exec p.role o c w.shared = some (x, s))
      (ends : w' = M.settle w pid p o (M.resume p.role (next x)) s ∨
        M.leader p.role = true ∧
          w' = M.crash (M.settle w pid p o (M.resume p.role (next x)) s)) :
      Stepped w (.run pid c) w'
  | env {e : Env} {s : S} (moves : M.env e w.shared = some s) :
      Stepped w (.env e) { w with shared := s }
  | enter {r : Role} {n : Entry} {s : S} (moves : M.enter r n w.shared = some s) :
      Stepped w (.enter r n)
        { shared := s, procs := w.procs ++ [{ role := r, code := M.code r n }] }
  | stop {pid : Nat} {p : Proc Reply ε Role Entry} (found : w.procs[pid]? = some p)
      (alone : M.coop p.role = false) :
      Stepped w (.stop pid) { w with procs := w.procs.set pid p.halt }
  | crash : Stepped w .crash (M.crash w)

theorem stepped_of_step {l : Label Role Entry Choice Env} {w w' : World Reply ε S Role Entry}
    (h : M.step l w = some w') : M.Stepped w l w' := by
  cases l with
  | run pid c =>
    simp only [step] at h
    split at h
    · cases h
    · rename_i p hp
      split at h
      · cases h
      · rename_i o next hcode
        split at h
        · cases h
        · rename_i hturn
          split at h
          · cases h
          · rename_i x s hexec
            refine .run hp hcode (fun hcoop => by simpa [hcoop] using hturn) hexec ?_
            split at h <;> cases h
            · rename_i hleader _
              exact .inr ⟨hleader, rfl⟩
            · exact .inl rfl
  | env e =>
    obtain ⟨s, hs, rfl⟩ := Option.map_eq_some_iff.mp h
    exact .env hs
  | enter r n =>
    obtain ⟨s, hs, rfl⟩ := Option.map_eq_some_iff.mp h
    exact .enter hs
  | stop pid =>
    simp only [step] at h
    split at h
    · cases h
    · rename_i p hp
      split at h <;> cases h
      rename_i hcoop
      exact .stop hp (by simpa using hcoop)
  | crash =>
    cases h
    exact .crash

/-- Perform a list of labels, each of which has to pass a check. -/
def replay (check : World Reply ε S Role Entry → Label Role Entry Choice Env → Bool) :
    List (Label Role Entry Choice Env) → World Reply ε S Role Entry →
    Option (World Reply ε S Role Entry)
  | [], w => some w
  | l :: rest, w =>
      if check w l then
        match M.step l w with
        | none => none
        | some w' => replay check rest w'
      else none

/-- The worlds that can be reached by steps satisfying `ok`. -/
inductive Reach (ok : World Reply ε S Role Entry → Label Role Entry Choice Env → Prop)
    (init : World Reply ε S Role Entry) : World Reply ε S Role Entry → Prop where
  | init : Reach ok init init
  | step {w w' : World Reply ε S Role Entry} (l : Label Role Entry Choice Env)
      (before : Reach ok init w) (lawful : ok w l) (moves : M.step l w = some w') :
      Reach ok init w'

variable {M}

/-- A process on its own is left alone by a step, but for a step of its own and for
being stopped. -/
theorem Stepped.apart {w w' : World Reply ε S Role Entry} {l : Label Role Entry Choice Env}
    (h : M.Stepped w l w') {pid : Nat} {p : Proc Reply ε Role Entry}
    (hp : w.procs[pid]? = some p) (alone : M.coop p.role = false) :
    w'.procs[pid]? = some p ∨ (l = .stop pid ∧ w'.procs[pid]? = some p.halt) ∨
      ∃ c, l = .run pid c := by
  have hlt := (List.getElem?_eq_some_iff.mp hp).1
  have hcrash : ∀ v : World Reply ε S Role Entry, v.procs[pid]? = some p →
      (M.crash v).procs[pid]? = some p := fun v hv => by
    simp only [Machine.crash, List.getElem?_map, hv, Option.map_some, alone, Bool.false_eq_true,
      if_false]
  cases h with
  | @run i c q o next x s _ found code waits performs ends =>
    by_cases heq : i = pid
    · exact .inr (.inr ⟨c, by rw [heq]⟩)
    · have hsettle : (M.settle w i q o (M.resume q.role (next x)) s).procs[pid]? = some p := by
        have hset : pid < (w.procs.set i { q with code := M.resume q.role (next x) }).length := by
          simpa using hlt
        rw [settle, List.getElem?_append_left hset, List.getElem?_set_ne heq, hp]
      rcases ends with rfl | ⟨_, rfl⟩
      · exact .inl hsettle
      · exact .inl (hcrash _ hsettle)
  | env => exact .inl hp
  | enter => exact .inl ((List.getElem?_append_left hlt).trans hp)
  | @stop i q found _ =>
    by_cases heq : i = pid
    · subst heq
      obtain rfl : p = q := Option.some.inj (hp.symm.trans found)
      exact .inr (.inl ⟨rfl, by simp [hlt]⟩)
    · exact .inl (by simp [List.getElem?_set_ne heq, hp])
  | crash => exact .inl (hcrash w hp)

theorem Reach.mono {ok ok' : World Reply ε S Role Entry → Label Role Entry Choice Env → Prop}
    {init w : World Reply ε S Role Entry} (h : M.Reach ok init w)
    (weaker : ∀ w l, ok w l → ok' w l) : M.Reach ok' init w := by
  induction h with
  | init => exact .init
  | step l _ lawful moves ih => exact .step l ih (weaker _ _ lawful) moves

/-- A replay whose check implies the condition on steps reaches its end. -/
theorem Reach.replay {ok : World Reply ε S Role Entry → Label Role Entry Choice Env → Prop}
    {check : World Reply ε S Role Entry → Label Role Entry Choice Env → Bool}
    (hcheck : ∀ w l, check w l = true → ok w l) {labels : List (Label Role Entry Choice Env)}
    {init w w' : World Reply ε S Role Entry} (before : M.Reach ok init w)
    (h : M.replay check labels w = some w') : M.Reach ok init w' := by
  induction labels generalizing w with
  | nil =>
    cases h
    exact before
  | cons l rest ih =>
    unfold Machine.replay at h
    split at h
    · rename_i hpass
      split at h
      · cases h
      · rename_i w'' hstep
        exact ih (.step l before (hcheck w l hpass) hstep) h
    · cases h

/-- A world that a replay ends in is reachable, and passes the test that it is put to. -/
theorem reach_of_replay (ok : World Reply ε S Role Entry → Label Role Entry Choice Env → Prop)
    (check : World Reply ε S Role Entry → Label Role Entry Choice Env → Bool)
    (hcheck : ∀ w l, check w l = true → ok w l) (labels : List (Label Role Entry Choice Env))
    (init : World Reply ε S Role Entry) (test : World Reply ε S Role Entry → Bool)
    (h : (M.replay check labels init).any test = true) :
    ∃ w, M.Reach ok init w ∧ test w = true := by
  obtain ⟨w, hw, htest⟩ := (Option.any_eq_true _ _).mp h
  exact ⟨w, Reach.init.replay hcheck hw, htest⟩

/-- A property of the initial world that every step keeps holds of every
reachable world. -/
theorem Reach.invariant {ok : World Reply ε S Role Entry → Label Role Entry Choice Env → Prop}
    {init w : World Reply ε S Role Entry} (P : World Reply ε S Role Entry → Prop)
    (start : P init)
    (keep : ∀ w l w', M.Reach ok init w → P w → ok w l → M.step l w = some w' → P w')
    (h : M.Reach ok init w) : P w := by
  induction h with
  | init => exact start
  | step l before lawful moves ih => exact keep _ _ _ before ih lawful moves

theorem Reach.trans {ok : World Reply ε S Role Entry → Label Role Entry Choice Env → Prop}
    {init mid w : World Reply ε S Role Entry} (before : M.Reach ok init mid)
    (h : M.Reach ok mid w) : M.Reach ok init w := by
  induction h with
  | init => exact before
  | step l _ lawful moves ih => exact .step l ih lawful moves

variable (M) in
/-- A reachable world, and how many of the steps on the way made the change of
the shared state that is counted. -/
inductive Tally (ok : World Reply ε S Role Entry → Label Role Entry Choice Env → Prop)
    (change : S → S → Prop) (init : World Reply ε S Role Entry) :
    Nat → World Reply ε S Role Entry → Prop where
  | init : Tally ok change init 0 init
  | pass {n : Nat} {w w' : World Reply ε S Role Entry} (l : Label Role Entry Choice Env)
      (before : Tally ok change init n w) (lawful : ok w l) (moves : M.step l w = some w')
      (other : ¬ change w.shared w'.shared) : Tally ok change init n w'
  | count {n : Nat} {w w' : World Reply ε S Role Entry} (l : Label Role Entry Choice Env)
      (before : Tally ok change init n w) (lawful : ok w l) (moves : M.step l w = some w')
      (counted : change w.shared w'.shared) : Tally ok change init (n + 1) w'

theorem Tally.reach {ok : World Reply ε S Role Entry → Label Role Entry Choice Env → Prop}
    {change : S → S → Prop} {init w : World Reply ε S Role Entry} {n : Nat}
    (h : M.Tally ok change init n w) : M.Reach ok init w := by
  induction h with
  | init => exact .init
  | pass l _ lawful moves _ ih => exact .step l ih lawful moves
  | count l _ lawful moves _ ih => exact .step l ih lawful moves

theorem Reach.tally {ok : World Reply ε S Role Entry → Label Role Entry Choice Env → Prop}
    {init w : World Reply ε S Role Entry} (change : S → S → Prop) (h : M.Reach ok init w) :
    ∃ n, M.Tally ok change init n w := by
  induction h with
  | init => exact ⟨0, .init⟩
  | @step w w' l _ lawful moves ih =>
    obtain ⟨n, hn⟩ := ih
    by_cases hchange : change w.shared w'.shared
    · exact ⟨n + 1, .count l hn lawful moves hchange⟩
    · exact ⟨n, .pass l hn lawful moves hchange⟩

theorem Tally.trans {ok : World Reply ε S Role Entry → Label Role Entry Choice Env → Prop}
    {change : S → S → Prop} {init mid w : World Reply ε S Role Entry} {m n : Nat}
    (before : M.Tally ok change init m mid) (h : M.Tally ok change mid n w) :
    M.Tally ok change init (m + n) w := by
  induction h with
  | init => exact before
  | pass l _ lawful moves other ih => exact .pass l ih lawful moves other
  | count l _ lawful moves counted ih => exact .count l ih lawful moves counted

/-- An assertion on the count and the shared state that every step keeps. -/
theorem Tally.invariant {ok : World Reply ε S Role Entry → Label Role Entry Choice Env → Prop}
    {change : S → S → Prop} {init w : World Reply ε S Role Entry} {n : Nat} (P : Nat → S → Prop)
    (start : P 0 init.shared)
    (keep : ∀ n w l w', M.Reach ok init w → P n w.shared → ok w l → M.step l w = some w' →
      (change w.shared w'.shared → P (n + 1) w'.shared) ∧
        (¬ change w.shared w'.shared → P n w'.shared))
    (h : M.Tally ok change init n w) : P n w.shared := by
  induction h with
  | init => exact start
  | pass l before lawful moves other ih =>
    exact (keep _ _ l _ before.reach ih lawful moves).2 other
  | count l before lawful moves counted ih =>
    exact (keep _ _ l _ before.reach ih lawful moves).1 counted

end Machine
end Coop
