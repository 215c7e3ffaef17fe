import Sdpctl.Coop.Machine

/-!
Rely–guarantee reasoning for a machine. A logic fixes a global invariant, what
each role may do (`allowed`), and what each role relies on the others to do
between two of its operations. A cooperative process relies only on the
separate processes and the environment inside a synchronous stretch, and on
everybody at an operation that gives control back.

`wp` walks one program. `Logic.Sound` collects the obligations that are proved
once for a logic, and `Sound.reach` turns them into facts about every reachable
world: the invariant holds and every operation about to run is allowed.
-/

namespace Coop

variable {Op : Type} {Reply : Op → Type} {ε S Role Entry Choice Env : Type}
variable {α β : Type}

/-- The parameters of one verification of a machine. -/
structure Logic (M : Machine Op Reply ε S Role Entry Choice Env) where
  inv : S → Prop
  /-- The assumption on operations: what the verified runs are limited to. -/
  okRun : Role → Op → Choice → S → Prop
  okEnv : Env → S → Prop
  okEnter : Role → Entry → S → Prop
  /-- What a role may do, as a condition on the state before the operation. -/
  allowed : Role → Op → S → Prop
  /-- What the others may do to the state; the flag is set when the process waits. -/
  rely : Role → Bool → S → S → Prop
  /-- What an entry point may assume. -/
  pre : Role → Entry → S → Prop
  /-- The cooperative process of this role has been started. -/
  registered : Role → S → Prop

namespace Logic

variable {M : Machine Op Reply ε S Role Entry Choice Env} (L : Logic M)

/-- Everybody may interfere: the process is separate, or waits at `o`. -/
def open_ (_L : Logic M) (r : Role) (o : Op) : Bool := !M.coop r || M.awaits o

/-- The weakest precondition: whatever the others do before each operation, the
operation is allowed, and the result satisfies `Q`. -/
def wp (r : Role) : Prog Reply ε α → (Except ε α → S → Prop) → S → Prop
  | .ret x, Q, s => Q x s
  | .op o next, Q, s =>
      ∀ s₁, L.rely r (L.open_ r o) s s₁ → L.inv s₁ → ∀ c, L.okRun r o c s₁ →
        L.allowed r o s₁ ∧
          ∀ x s₂, M.exec r o c s₁ = some (x, s₂) → L.inv s₂ → wp r (next x) Q s₂

/-- `Q` for a value and `E` for an exception. -/
def split (Q : α → S → Prop) (E : ε → S → Prop) : Except ε α → S → Prop
  | .ok a, s => Q a s
  | .error e, s => E e s

/-- What the code of an entry point must establish. -/
def post (r : Role) : Except ε (Option Entry) → S → Prop
  | .ok (some n), s => L.pre r n s
  | _, _ => True

structure Sound : Prop where
  rely_refl : ∀ r b s, L.rely r b s s
  rely_trans : ∀ {r b s₁ s₂ s₃}, L.rely r b s₁ s₂ → L.rely r b s₂ s₃ → L.rely r b s₁ s₃
  rely_open : ∀ {r s₁ s₂}, L.rely r false s₁ s₂ → L.rely r true s₁ s₂
  /-- An allowed operation keeps the invariant. -/
  inv_run : ∀ {r o c s x s'}, L.inv s → L.okRun r o c s → L.allowed r o s →
    M.exec r o c s = some (x, s') → L.inv s'
  /-- A cooperative process keeps to what the waiting ones rely on. -/
  guar_coop : ∀ {r r' o c s x s'}, M.coop r = true → r ≠ r' → L.inv s → L.inv s' →
    L.okRun r o c s → L.allowed r o s → M.exec r o c s = some (x, s') → L.rely r' true s s'
  /-- A separate process keeps to what everybody relies on. -/
  guar_free : ∀ {r r' o c s x s'}, M.coop r = false → L.inv s → L.inv s' →
    L.okRun r o c s → L.allowed r o s → M.exec r o c s = some (x, s') → L.rely r' false s s'
  inv_env : ∀ {e s s'}, L.inv s → L.okEnv e s → M.env e s = some s' → L.inv s'
  guar_env : ∀ {e r s s'}, L.inv s → L.okEnv e s → M.env e s = some s' → L.rely r false s s'
  inv_enter : ∀ {r n s s'}, L.inv s → L.okEnter r n s → M.enter r n s = some s' → L.inv s'
  pre_enter : ∀ {r n s s'}, L.inv s → L.okEnter r n s → M.enter r n s = some s' → L.pre r n s'
  guar_enter : ∀ {r r' n s s'}, M.coop r = false → L.inv s → L.okEnter r n s →
    M.enter r n s = some s' → L.rely r' false s s'
  guar_boot : ∀ {r r' n s s'}, M.coop r' = false → L.inv s → L.okEnter r n s →
    M.enter r n s = some s' → L.rely r' true s s'
  inv_down : ∀ {s}, L.inv s → L.inv (M.down s)
  guar_down : ∀ {r s}, M.coop r = false → L.inv s → L.rely r true s (M.down s)
  /-- A cooperative process is started under a name that nobody has. -/
  registered_run : ∀ {r r' o c s x s'}, L.registered r s → L.inv s → L.okRun r' o c s →
    L.allowed r' o s → M.exec r' o c s = some (x, s') → L.registered r s'
  registered_env : ∀ {r e s s'}, L.registered r s → M.env e s = some s' → L.registered r s'
  registered_enter : ∀ {r r' n s s'}, L.registered r s → M.enter r' n s = some s' →
    M.coop r' = false → L.registered r s'
  boot : ∀ {r n s s'}, M.coop r = true → M.enter r n s = some s' →
    (∀ r', ¬ L.registered r' s) ∧ L.registered r s'
  spawn : ∀ {r o c s x s' r' n}, L.inv s → L.okRun r o c s → L.allowed r o s →
    M.exec r o c s = some (x, s') → M.spawn o s = some (r', n) →
    ¬ L.registered r' s ∧ L.registered r' s' ∧ L.pre r' n s'
  /-- The code of every entry point is verified from its precondition. -/
  code : ∀ {r n s}, L.inv s → L.pre r n s → L.wp r (M.code r n) (L.post r) s

def okLabel (w : World Reply ε S Role Entry) : Label Role Entry Choice Env → Prop
  | .run pid c => ∀ p o next, w.procs[pid]? = some p → p.code = .op o next →
      L.okRun p.role o c w.shared
  | .env e => L.okEnv e w.shared
  | .enter r n => L.okEnter r n w.shared
  | _ => True

/-- The process still has an operation to perform. -/
def Live (p : Proc Reply ε Role Entry) : Prop := ∃ o next, p.code = .op o next

structure Holds (w : World Reply ε S Role Entry) : Prop where
  inv : L.inv w.shared
  code : ∀ (pid : Nat) p, w.procs[pid]? = some p → Live p →
    L.wp p.role p.code (L.post p.role) w.shared
  registered : ∀ (pid : Nat) p, w.procs[pid]? = some p → Live p → M.coop p.role = true →
    L.registered p.role w.shared
  unique : ∀ (i j : Nat) p q, w.procs[i]? = some p → w.procs[j]? = some q → Live p → Live q →
    M.coop p.role = true → p.role = q.role → i = j

variable {L}

theorem wp_rely (sound : L.Sound) {r : Role} {p : Prog Reply ε α} {o : Op}
    {next : Except ε (Reply o) → Prog Reply ε α} {Q : Except ε α → S → Prop} {s s' : S}
    (hp : p = .op o next) (h : L.wp r p Q s) (hrely : L.rely r (L.open_ r o) s s') :
    L.wp r p Q s' := by
  subst hp
  intro s₁ h₁
  exact h s₁ (sound.rely_trans hrely h₁)

theorem wp_resume (sound : L.Sound) {r : Role} {p : Prog Reply ε (Option Entry)} {s : S}
    (hinv : L.inv s) (h : L.wp r p (L.post r) s) : L.wp r (M.resume r p) (L.post r) s := by
  unfold Machine.resume
  split
  · exact sound.code hinv h
  · exact h

theorem not_live_halt (p : Proc Reply ε Role Entry) : ¬ Live p.halt := by
  rintro ⟨o, next, h⟩
  cases h

/-- The death of the cooperative group keeps the invariant of the world. -/
theorem Holds.crash (sound : L.Sound) {w : World Reply ε S Role Entry} (h : L.Holds w) :
    L.Holds (M.crash w) := by
  have hold : ∀ (pid : Nat) p, (M.crash w).procs[pid]? = some p → Live p →
      w.procs[pid]? = some p ∧ M.coop p.role = false := by
    intro pid p hp hlive
    simp only [Machine.crash, List.getElem?_map, Option.map_eq_some_iff] at hp
    obtain ⟨q, hq, rfl⟩ := hp
    split at hlive
    · exact absurd hlive (not_live_halt q)
    · rename_i hcoop
      simp only [hcoop]
      exact ⟨hq, by simpa using hcoop⟩
  refine ⟨sound.inv_down h.inv, ?_, ?_, ?_⟩
  · intro pid p hp hlive
    obtain ⟨hq, hcoop⟩ := hold pid p hp hlive
    obtain ⟨o, next, hcode⟩ := hlive
    refine wp_rely sound hcode (h.code pid p hq ⟨o, next, hcode⟩) ?_
    have hopen : L.open_ p.role o = true := by simp [open_, hcoop]
    rw [hopen]
    exact sound.guar_down hcoop h.inv
  · intro pid p hp hlive hc
    exact absurd hc (by simp [(hold pid p hp hlive).2])
  · intro i j p q hp hq hlp _ hc
    exact absurd hc (by simp [(hold i p hp hlp).2])

theorem rely_other (sound : L.Sound) {w : World Reply ε S Role Entry} (h : L.Holds w)
    {pid j : Nat} {p q : Proc Reply ε Role Entry} {o o' : Op} {c : Choice} {s' : S}
    {next next' x}
    (hp : w.procs[pid]? = some p) (hpo : p.code = .op o next)
    (hq : w.procs[j]? = some q) (hqo : q.code = .op o' next') (hne : j ≠ pid)
    (hwait : M.coop p.role = true → M.othersWait w.procs pid = true)
    (hok : L.okRun p.role o c w.shared) (hallowed : L.allowed p.role o w.shared)
    (hexec : M.exec p.role o c w.shared = some (x, s')) :
    L.rely q.role (L.open_ q.role o') w.shared s' := by
  have hinv' := sound.inv_run h.inv hok hallowed hexec
  cases hcoop : M.coop p.role with
  | false =>
    have hrely : L.rely q.role false w.shared s' :=
      sound.guar_free hcoop h.inv hinv' hok hallowed hexec
    cases L.open_ q.role o' with
    | false => exact hrely
    | true => exact sound.rely_open hrely
  | true =>
    have hroles : p.role ≠ q.role := fun heq =>
      hne (h.unique pid j p q hp hq ⟨o, next, hpo⟩ ⟨o', next', hqo⟩ hcoop heq).symm
    have hopen : L.open_ q.role o' = true := by
      have hall := hwait hcoop
      unfold Machine.othersWait at hall
      have hj := List.all_eq_true.mp hall (q, j)
        (List.mem_zipIdx_iff_getElem?.mpr hq)
      simp only [Machine.waiting, hqo, Bool.or_eq_true, beq_iff_eq, hne, false_or] at hj
      simpa [open_] using hj
    rw [hopen]
    exact sound.guar_coop hcoop hroles h.inv hinv' hok hallowed hexec

theorem Holds.settle (sound : L.Sound) {w : World Reply ε S Role Entry} (h : L.Holds w)
    {pid : Nat} {p : Proc Reply ε Role Entry} {o : Op} {c : Choice} {s' : S} {next x}
    (hp : w.procs[pid]? = some p) (hpo : p.code = .op o next)
    (hwait : M.coop p.role = true → M.othersWait w.procs pid = true)
    (hok : L.okRun p.role o c w.shared)
    (hexec : M.exec p.role o c w.shared = some (x, s')) :
    L.Holds (M.settle w pid p o (M.resume p.role (next x)) s') := by
  have hlive : Live p := ⟨o, next, hpo⟩
  have hwp := h.code pid p hp hlive
  rw [hpo] at hwp
  obtain ⟨hallowed, hnext⟩ := hwp w.shared (sound.rely_refl _ _ _) h.inv c hok
  have hinv' := sound.inv_run h.inv hok hallowed hexec
  have hcode := wp_resume sound hinv' (hnext x s' hexec hinv')
  -- a process of the new pool is the one that moved, an old one, or the one just started
  have hcases : ∀ (j : Nat) q,
      (M.settle w pid p o (M.resume p.role (next x)) s').procs[j]? = some q → Live q →
      (j = pid ∧ q = { p with code := M.resume p.role (next x) }) ∨
      (j ≠ pid ∧ w.procs[j]? = some q) ∨
      (j = w.procs.length ∧ ∃ n, M.spawn o w.shared = some (q.role, n) ∧
        q.code = M.code q.role n) := by
    intro j q hq _
    simp only [Machine.settle] at hq
    rw [List.getElem?_append] at hq
    simp only [List.length_set] at hq
    split at hq
    · rw [List.getElem?_set] at hq
      split at hq
      · rename_i heq
        split at hq
        · exact .inl ⟨heq.symm, by simpa using hq.symm⟩
        · cases hq
      · rename_i hne
        exact .inr (.inl ⟨fun heq => hne heq.symm, hq⟩)
    · rename_i hlen
      cases hspawn : M.spawn o w.shared with
      | none => simp [hspawn] at hq
      | some rn =>
        obtain ⟨r', n⟩ := rn
        simp only [hspawn] at hq
        have hzero : j - w.procs.length = 0 := by
          cases hj : j - w.procs.length with
          | zero => rfl
          | succ k => simp [hj] at hq
        simp only [hzero, List.getElem?_cons_zero, Option.some.injEq] at hq
        subst hq
        exact .inr (.inr ⟨by omega, n, rfl, rfl⟩)
  have hreg : M.coop p.role = true → L.registered p.role w.shared := h.registered pid p hp hlive
  refine ⟨hinv', ?_, ?_, ?_⟩
  · intro j q hq hq_live
    rcases hcases j q hq hq_live with ⟨_, rfl⟩ | ⟨hne, hold⟩ | ⟨_, n, hspawn, hqcode⟩
    · exact hcode
    · obtain ⟨o', next', hqo⟩ := hq_live
      exact wp_rely sound hqo (h.code j q hold ⟨o', next', hqo⟩)
        (rely_other sound h hp hpo hold hqo hne hwait hok hallowed hexec)
    · obtain ⟨_, _, hpre⟩ := sound.spawn h.inv hok hallowed hexec hspawn
      rw [hqcode]
      exact sound.code hinv' hpre
  · intro j q hq hq_live hc
    rcases hcases j q hq hq_live with ⟨_, rfl⟩ | ⟨_, hold⟩ | ⟨_, n, hspawn, _⟩
    · exact sound.registered_run (hreg hc) h.inv hok hallowed hexec
    · exact sound.registered_run (h.registered j q hold hq_live hc) h.inv hok hallowed hexec
    · exact (sound.spawn h.inv hok hallowed hexec hspawn).2.1
  · intro i j q q' hq hq' hql hql' hc heq
    have fresh : ∀ n r, M.spawn o w.shared = some (r, n) → ¬ L.registered r w.shared :=
      fun n r hspawn => (sound.spawn h.inv hok hallowed hexec hspawn).1
    rcases hcases i q hq hql with ⟨rfl, rfl⟩ | ⟨hne, hold⟩ | ⟨rfl, n, hspawn, _⟩ <;>
      rcases hcases j q' hq' hql' with ⟨rfl, rfl⟩ | ⟨hne', hold'⟩ | ⟨rfl, n', hspawn', _⟩
    · rfl
    · exact h.unique i j p q' hp hold' hlive hql' hc heq
    · exact absurd (hreg hc) (by rw [show p.role = q'.role from heq]; exact fresh _ _ hspawn')
    · exact h.unique i j q p hold hp hql hlive hc heq
    · exact h.unique i j q q' hold hold' hql hql' hc heq
    · exact absurd (h.registered i q hold hql hc) (by rw [heq]; exact fresh _ _ hspawn')
    · exact absurd (hreg (by rw [← show q.role = p.role from heq]; exact hc))
        (by rw [← show q.role = p.role from heq]; exact fresh _ _ hspawn)
    · exact absurd (h.registered j q' hold' hql' (heq ▸ hc)) (by rw [← heq]; exact fresh _ _ hspawn)
    · rfl

/-- A step of the environment, or a change of the shared state that everybody
relies on, keeps every residual verified. -/
theorem Holds.move (sound : L.Sound) {w : World Reply ε S Role Entry} (h : L.Holds w) {s' : S}
    (hinv : L.inv s') (hrely : ∀ r, L.rely r false w.shared s')
    (hreg : ∀ r, L.registered r w.shared → L.registered r s') :
    L.Holds { w with shared := s' } := by
  refine ⟨hinv, ?_, fun pid p hp hlive hc => hreg _ (h.registered pid p hp hlive hc), h.unique⟩
  intro pid p hp hlive
  obtain ⟨o, next, hcode⟩ := hlive
  refine wp_rely sound hcode (h.code pid p hp ⟨o, next, hcode⟩) ?_
  cases L.open_ p.role o with
  | false => exact hrely _
  | true => exact sound.rely_open (hrely _)

theorem Holds.enter (sound : L.Sound) {w : World Reply ε S Role Entry} (h : L.Holds w)
    {r : Role} {n : Entry} {s' : S} (hok : L.okEnter r n w.shared)
    (henter : M.enter r n w.shared = some s') :
    L.Holds { shared := s', procs := w.procs ++ [{ role := r, code := M.code r n }] } := by
  have hinv' := sound.inv_enter h.inv hok henter
  have hpre := sound.pre_enter h.inv hok henter
  have hcases : ∀ (j : Nat) q, (w.procs ++ [⟨r, M.code r n⟩])[j]? = some q →
      w.procs[j]? = some q ∨ (j = w.procs.length ∧ q = ⟨r, M.code r n⟩) := by
    intro j q hq
    rw [List.getElem?_append] at hq
    split at hq
    · exact .inl hq
    · cases hj : j - w.procs.length with
      | zero => exact .inr ⟨by omega, by simpa [hj] using hq.symm⟩
      | succ k => simp [hj] at hq
  cases hcoop : M.coop r with
  | false =>
    refine ⟨hinv', ?_, ?_, ?_⟩
    · intro j q hq hlive
      rcases hcases j q hq with hold | ⟨_, rfl⟩
      · obtain ⟨o, next, hcode⟩ := hlive
        refine wp_rely sound hcode (h.code j q hold ⟨o, next, hcode⟩) ?_
        have hrely : L.rely q.role false w.shared s' := sound.guar_enter hcoop h.inv hok henter
        cases L.open_ q.role o with
        | false => exact hrely
        | true => exact sound.rely_open hrely
      · exact sound.code hinv' hpre
    · intro j q hq hlive hc
      rcases hcases j q hq with hold | ⟨_, rfl⟩
      · exact sound.registered_enter (h.registered j q hold hlive hc) henter hcoop
      · exact absurd hc (by simp [hcoop])
    · intro i j q q' hq hq' hl hl' hc heq
      rcases hcases i q hq with hold | ⟨_, rfl⟩
      · rcases hcases j q' hq' with hold' | ⟨_, rfl⟩
        · exact h.unique i j q q' hold hold' hl hl' hc heq
        · exact absurd hc (by rw [heq]; simp [hcoop])
      · exact absurd hc (by simp [hcoop])
  | true =>
    obtain ⟨hnone, hsome⟩ := sound.boot hcoop henter
    have hfree : ∀ (j : Nat) q, w.procs[j]? = some q → Live q → M.coop q.role = false := by
      intro j q hq hlive
      cases hc : M.coop q.role with
      | false => rfl
      | true => exact absurd (h.registered j q hq hlive hc) (hnone _)
    refine ⟨hinv', ?_, ?_, ?_⟩
    · intro j q hq hlive
      rcases hcases j q hq with hold | ⟨_, rfl⟩
      · have hc := hfree j q hold hlive
        obtain ⟨o, next, hcode⟩ := hlive
        refine wp_rely sound hcode (h.code j q hold ⟨o, next, hcode⟩) ?_
        have hopen : L.open_ q.role o = true := by simp [open_, hc]
        rw [hopen]
        exact sound.guar_boot hc h.inv hok henter
      · exact sound.code hinv' hpre
    · intro j q hq hlive hc
      rcases hcases j q hq with hold | ⟨_, rfl⟩
      · exact absurd hc (by simp [hfree j q hold hlive])
      · exact hsome
    · intro i j q q' hq hq' hl hl' hc heq
      rcases hcases i q hq with hold | ⟨hi, rfl⟩
      · exact absurd hc (by simp [hfree i q hold hl])
      · rcases hcases j q' hq' with hold' | ⟨hj, rfl⟩
        · exact absurd (heq ▸ hc) (by simp [hfree j q' hold' hl'])
        · exact hi.trans hj.symm

theorem Holds.stop {w : World Reply ε S Role Entry} (h : L.Holds w) (pid : Nat)
    (p : Proc Reply ε Role Entry) :
    L.Holds { w with procs := w.procs.set pid p.halt } := by
  have hold : ∀ (j : Nat) q, (w.procs.set pid p.halt)[j]? = some q → Live q →
      w.procs[j]? = some q := by
    intro j q hq hlive
    rw [List.getElem?_set] at hq
    split at hq
    · split at hq
      · cases hq
        exact absurd hlive (not_live_halt p)
      · cases hq
    · exact hq
  exact ⟨h.inv, fun j q hq hl => h.code j q (hold j q hq hl) hl,
    fun j q hq hl => h.registered j q (hold j q hq hl) hl,
    fun i j q q' hq hq' hl hl' => h.unique i j q q' (hold i q hq hl) (hold j q' hq' hl') hl hl'⟩

theorem Holds.step (sound : L.Sound) {w w' : World Reply ε S Role Entry}
    {l : Label Role Entry Choice Env} (h : L.Holds w) (hok : L.okLabel w l)
    (hstep : M.step l w = some w') : L.Holds w' := by
  cases M.stepped_of_step hstep with
  | @run pid c p o next x s' _ found code waits performs ends =>
    have hsettled := h.settle sound found code waits (hok p o next found code) performs
    rcases ends with rfl | ⟨_, rfl⟩
    · exact hsettled
    · exact hsettled.crash sound
  | env moves =>
    exact h.move sound (sound.inv_env h.inv hok moves) (fun r => sound.guar_env h.inv hok moves)
      (fun r hr => sound.registered_env hr moves)
  | enter moves => exact h.enter sound hok moves
  | @stop pid p found alone => exact h.stop pid p
  | crash => exact h.crash sound

theorem Holds.start {s : S} (hinv : L.inv s) :
    L.Holds ({ shared := s, procs := [] } : World Reply ε S Role Entry) :=
  ⟨hinv, fun _ _ h => by simp at h, fun _ _ h => by simp at h, fun _ _ _ _ h => by simp at h⟩

/-- Soundness: the invariant of the world holds in every reachable world. -/
theorem Sound.reach (sound : L.Sound) {init w : World Reply ε S Role Entry}
    (hinit : L.Holds init) (h : M.Reach L.okLabel init w) : L.Holds w :=
  h.invariant L.Holds hinit fun _ _ _ _ hold hok hstep => hold.step sound hok hstep

/-- An operation that a process of a verified world can perform is allowed. -/
theorem Holds.allowed (sound : L.Sound) {w : World Reply ε S Role Entry} (h : L.Holds w)
    {pid : Nat} {p : Proc Reply ε Role Entry} {o : Op} {next}
    (hp : w.procs[pid]? = some p) (hpo : p.code = .op o next) {c : Choice}
    (hok : L.okRun p.role o c w.shared) : L.allowed p.role o w.shared := by
  have hwp := h.code pid p hp ⟨o, next, hpo⟩
  rw [hpo] at hwp
  exact (hwp w.shared (sound.rely_refl _ _ _) h.inv c hok).1

end Logic
end Coop
