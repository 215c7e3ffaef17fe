import Sdpctl.Coop.Machine
import Sdpctl.Coop.Solo

/-!
What a role can perform at all. If the code of every entry point of a role performs
operations of one kind only, and goes on at entry points of that role only, then no
process of the role is ever about to perform anything else.
-/

namespace Coop
namespace Prog

variable {Op : Type} {Reply : Op → Type} {ε α : Type}

theorem uses_all {φ : Op → Prop} (h : ∀ o, φ o) (p : Prog Reply ε α) : p.Uses φ := by
  induction p with
  | ret x => trivial
  | op o next ih => exact ⟨h o, ih⟩

theorem returns_all {φ : α → Prop} (h : ∀ a, φ a) (p : Prog Reply ε α) : p.Returns φ := by
  induction p with
  | ret x =>
    cases x with
    | ok a => exact h a
    | error e => trivial
  | op o next ih => exact ih

end Prog

namespace Machine

variable {Op : Type} {Reply : Op → Type} {ε S Role Entry Choice Env : Type}

/-- What holds of the code of every process, and may speak of the shared state: of what a
process starts with, of what it goes on with after a reply (judged in the state in which
the operation was performed), and of what it was when something else has changed. -/
theorem Reach.residues {M : Machine Op Reply ε S Role Entry Choice Env}
    {ok : World Reply ε S Role Entry → Label Role Entry Choice Env → Prop}
    {init w : World Reply ε S Role Entry} (K : Role → S → Prog Reply ε (Option Entry) → Prop)
    (start : ∀ p ∈ init.procs, K p.role init.shared p.code)
    (halted : ∀ r s, K r s (.ret (.ok none)))
    (entered : ∀ {r n s s'}, M.enter r n s = some s' → K r s' (M.code r n))
    (spawned : ∀ {o r n s}, M.spawn o s = some (r, n) → K r s (M.code r n))
    (steady : ∀ {w l w'}, M.Reach ok init w → ok w l → M.step l w = some w' →
      ∀ r code, K r w.shared code → K r w'.shared code)
    (own : ∀ {w pid c p o next x s}, M.Reach ok init w → ok w (.run pid c) →
      w.procs[pid]? = some p → p.code = .op o next → M.exec p.role o c w.shared = some (x, s) →
      K p.role w.shared (.op o next) → K p.role w.shared (M.resume p.role (next x)))
    (h : M.Reach ok init w) : ∀ p ∈ w.procs, K p.role w.shared p.code := by
  refine h.invariant (fun w => ∀ p ∈ w.procs, K p.role w.shared p.code) start ?_
  intro v l v' hreach hv hok hstep
  have hsteady := steady hreach hok hstep
  have hcrash : ∀ ps : List (Proc Reply ε Role Entry), (∀ p ∈ ps, K p.role v'.shared p.code) →
      ∀ p ∈ ps.map (fun p => if M.coop p.role then p.halt else p), K p.role v'.shared p.code := by
    intro ps hps p hp
    obtain ⟨q, hq, rfl⟩ := List.mem_map.mp hp
    split
    · exact halted _ _
    · exact hps q hq
  cases M.stepped_of_step hstep with
  | @run pid c p o next x s _ found code _ performs ends =>
    have hold := hv p (List.mem_of_getElem? found)
    rw [code] at hold
    have hresume := own hreach hok found code performs hold
    have hsettle : ∀ q ∈ (M.settle v pid p o (M.resume p.role (next x)) s).procs,
        K q.role v'.shared q.code := by
      intro q hq
      rcases List.mem_append.mp hq with hq | hq
      · rcases List.mem_or_eq_of_mem_set hq with hq | rfl
        · exact hsteady _ _ (hv q hq)
        · exact hsteady _ _ hresume
      · split at hq
        · rename_i r n hspawn
          rw [List.mem_singleton.mp hq]
          exact hsteady _ _ (spawned hspawn)
        · cases hq
    rcases ends with rfl | ⟨_, rfl⟩
    · exact hsettle
    · exact hcrash _ hsettle
  | env => exact fun p hp => hsteady _ _ (hv p hp)
  | enter moves =>
    intro p hp
    rcases List.mem_append.mp hp with hp | hp
    · exact hsteady _ _ (hv p hp)
    · rw [List.mem_singleton.mp hp]
      exact entered moves
  | stop found _ =>
    intro p hp
    rcases List.mem_or_eq_of_mem_set hp with hp | rfl
    · exact hv p hp
    · exact halted _ _
  | crash => exact hcrash _ fun p hp => hsteady _ _ (hv p hp)

/-- `Reach.residues`, where what a process goes on with is judged in two parts: what is left
after a reply, and what an entry point makes of a hand-over. -/
theorem Reach.codes {M : Machine Op Reply ε S Role Entry Choice Env}
    {ok : World Reply ε S Role Entry → Label Role Entry Choice Env → Prop}
    {init w : World Reply ε S Role Entry} (K : Role → S → Prog Reply ε (Option Entry) → Prop)
    (start : ∀ p ∈ init.procs, K p.role init.shared p.code)
    (halted : ∀ r s, K r s (.ret (.ok none)))
    (entered : ∀ {r n s s'}, M.enter r n s = some s' → K r s' (M.code r n))
    (spawned : ∀ {o r n s}, M.spawn o s = some (r, n) → K r s (M.code r n))
    (handed : ∀ {r n s}, K r s (.ret (.ok (some n))) → K r s (M.code r n))
    (steady : ∀ {w l w'}, M.Reach ok init w → ok w l → M.step l w = some w' →
      ∀ r code, K r w.shared code → K r w'.shared code)
    (own : ∀ {w pid c p o next x s}, M.Reach ok init w → ok w (.run pid c) →
      w.procs[pid]? = some p → p.code = .op o next → M.exec p.role o c w.shared = some (x, s) →
      K p.role w.shared (.op o next) → K p.role w.shared (next x))
    (h : M.Reach ok init w) : ∀ p ∈ w.procs, K p.role w.shared p.code := by
  refine h.residues K start halted entered spawned steady ?_
  intro v pid c p o next x s hreach hok found code performs hold
  have hnext := own hreach hok found code performs hold
  unfold Machine.resume
  split
  · rename_i n heq
    rw [heq] at hnext
    exact handed hnext
  · exact hnext

/-- Where no entry point is a bare hand-over, no process stands at one. -/
theorem Reach.onward {M : Machine Op Reply ε S Role Entry Choice Env}
    {ok : World Reply ε S Role Entry → Label Role Entry Choice Env → Prop}
    {init w : World Reply ε S Role Entry} (h : M.Reach ok init w)
    (code : ∀ r n m, M.code r n ≠ .ret (.ok (some m)))
    (start : ∀ p ∈ init.procs, ∀ m, p.code ≠ .ret (.ok (some m))) :
    ∀ p ∈ w.procs, ∀ m, p.code ≠ .ret (.ok (some m)) := by
  refine h.residues (fun _ _ p => ∀ m, p ≠ .ret (.ok (some m))) start ?_ (fun _ => code _ _)
    (fun _ => code _ _) (fun _ _ _ _ _ hp => hp) ?_
  · rintro r s m ⟨⟩
  · intro v pid c p o next x s _ _ _ _ _ _
    unfold Machine.resume
    split
    · exact code _ _
    · rename_i hno
      exact fun m heq => hno m heq

/-- A machine with other code and another way in does the same step where both machines
agree: on the code that a process goes on with, on the code of a process that is
started, and on what enters. -/
theorem step_congr {M : Machine Op Reply ε S Role Entry Choice Env}
    {code : Role → Entry → Prog Reply ε (Option Entry)} {enter : Role → Entry → S → Option S}
    {l : Label Role Entry Choice Env} {w : World Reply ε S Role Entry}
    (handed : ∀ {pid c p o next x n}, l = .run pid c → w.procs[pid]? = some p →
      p.code = .op o next → next x = .ret (.ok (some n)) → code p.role n = M.code p.role n)
    (spawned : ∀ {o r n}, M.spawn o w.shared = some (r, n) → code r n = M.code r n)
    (entered : ∀ {r n}, l = .enter r n →
      enter r n w.shared = M.enter r n w.shared ∧ code r n = M.code r n) :
    ({ M with code := code, enter := enter } : Machine Op Reply ε S Role Entry Choice Env).step
      l w = M.step l w := by
  cases l with
  | run pid c =>
    have hturn : ∀ procs, ({ M with code := code, enter := enter } : Machine Op Reply ε S Role
        Entry Choice Env).othersWait procs pid = M.othersWait procs pid := fun _ => rfl
    have hcrash : ∀ v, ({ M with code := code, enter := enter } : Machine Op Reply ε S Role
        Entry Choice Env).crash v = M.crash v := fun _ => rfl
    have hsettle : ∀ p o left s, ({ M with code := code, enter := enter } : Machine Op Reply ε S
        Role Entry Choice Env).settle w pid p o left s = M.settle w pid p o left s := by
      intro p o left s
      cases hspawn : M.spawn o w.shared with
      | none => simp only [settle, hspawn]
      | some born => simp only [settle, hspawn, spawned (r := born.1) (n := born.2) hspawn]
    cases hp : w.procs[pid]? with
    | none => simp only [step, hp]
    | some p =>
      cases hcode : p.code with
      | ret x => simp only [step, hp, hcode]
      | op o next =>
        have hresume : ∀ x, ({ M with code := code, enter := enter } : Machine Op Reply ε S Role
            Entry Choice Env).resume p.role (next x) = M.resume p.role (next x) := by
          intro x
          unfold resume
          split
          · rename_i n heq
            exact handed rfl hp hcode heq
          · rfl
        simp only [step, hp, hcode, hturn, hcrash, hresume, hsettle]
  | enter r n =>
    obtain ⟨henter, hcode⟩ := entered rfl
    simp only [step, henter, hcode]
  | env e => rfl
  | stop pid => rfl
  | crash => rfl

theorem Reach.within {M N : Machine Op Reply ε S Role Entry Choice Env}
    {ok ok' : World Reply ε S Role Entry → Label Role Entry Choice Env → Prop}
    {init w : World Reply ε S Role Entry} (h : N.Reach ok' init w)
    (agree : ∀ {w l w'}, N.Reach ok' init w → ok' w l → N.step l w = some w' →
      ok w l ∧ M.step l w = some w') : M.Reach ok init w := by
  induction h with
  | init => exact .init
  | step l before lawful moves ih =>
    obtain ⟨hok, hstep⟩ := agree before lawful moves
    exact .step l ih hok hstep

/-- The entry points and the operations of each role. -/
structure Confines (M : Machine Op Reply ε S Role Entry Choice Env)
    (entries : Role → Entry → Prop) (ops : Role → Op → Prop) : Prop where
  uses : ∀ {r n}, entries r n → (M.code r n).Uses (ops r)
  returns : ∀ {r n}, entries r n →
    (M.code r n).Returns fun next => ∀ m, next = some m → entries r m
  spawn : ∀ {o s r n}, M.spawn o s = some (r, n) → entries r n
  enter : ∀ {r n s s'}, M.enter r n s = some s' → entries r n

/-- What is left of the code of a process keeps to its role. -/
structure Keeping (entries : Role → Entry → Prop) (ops : Role → Op → Prop) (r : Role)
    (code : Prog Reply ε (Option Entry)) : Prop where
  uses : code.Uses (ops r)
  returns : code.Returns fun next => ∀ m, next = some m → entries r m

variable {M : Machine Op Reply ε S Role Entry Choice Env}
variable {entries : Role → Entry → Prop} {ops : Role → Op → Prop}

theorem Confines.entry (h : M.Confines entries ops) {r : Role} {n : Entry} (hn : entries r n) :
    Keeping entries ops r (M.code r n) := ⟨h.uses hn, h.returns hn⟩

theorem keeping_halt (r : Role) :
    Keeping entries ops r (.ret (.ok none) : Prog Reply ε (Option Entry)) :=
  ⟨trivial, fun _ h => by cases h⟩

theorem Confines.reach (h : M.Confines entries ops)
    {ok : World Reply ε S Role Entry → Label Role Entry Choice Env → Prop}
    {init w : World Reply ε S Role Entry} (hreach : M.Reach ok init w)
    (start : ∀ p ∈ init.procs, Keeping entries ops p.role p.code) :
    ∀ p ∈ w.procs, Keeping entries ops p.role p.code :=
  hreach.codes (fun r _ code => Keeping entries ops r code) start (fun r _ => keeping_halt r)
    (fun moves => h.entry (h.enter moves)) (fun spawn => h.entry (h.spawn spawn))
    (fun hand => h.entry (hand.returns _ rfl)) (fun _ _ _ _ _ hcode => hcode)
    fun _ _ _ _ _ hcode => ⟨hcode.uses.2 _, hcode.returns _⟩

theorem Confines.about (h : M.Confines entries ops)
    {ok : World Reply ε S Role Entry → Label Role Entry Choice Env → Prop}
    {init w : World Reply ε S Role Entry} (hreach : M.Reach ok init w)
    (start : ∀ p ∈ init.procs, Keeping entries ops p.role p.code) {pid : Nat}
    {p : Proc Reply ε Role Entry} {o : Op} {next}
    (found : w.procs[pid]? = some p) (code : p.code = .op o next) : ops p.role o := by
  have huses := (h.reach hreach start p (List.mem_of_getElem? found)).uses
  rw [code] at huses
  exact huses.1

end Machine
end Coop
