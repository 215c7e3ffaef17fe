import Sdpctl.Slots.Worker

/-!
The processing slots of one controller. A slot is a count in a semaphore, the owner of
a run is a task in a table, and that the run is executed is a row in the store. From
the end of the first sweep on they agree: a running row has one live worker, which
holds a slot or is handling a failure, unless its worker's handler itself raised.
-/

namespace Sdpctl

open FileTree Coop

variable {s s' : Shared}

/-- What is known of a worker that has not ended. -/
structure Serves (s : Shared) (task rid : Nat) (g : Duty) : Prop where
  owns : OwnsRun task rid s
  running : g.executes = true ↔ s.db.Running rid

def Owned (v : List (Role × Duty)) (rid : Nat) : Prop :=
  ∃ (i task : Nat) (g : Duty), v[i]? = some (.process task rid, g) ∧ g.leaves = true

/-- What the controller knows of the running rows. -/
def Governs (s : Shared) (v : List (Role × Duty)) : Duty → Prop
  | .unswept => ∀ t ∈ s.ctl.tasks, t.kind = .observe
  | .sweeping todo => (∀ t ∈ s.ctl.tasks, t.kind = .observe) ∧ ∀ rid, s.db.Running rid → rid ∈ todo
  | .swept queued => (∀ rid, s.db.Running rid → Owned v rid) ∧ ∀ rid ∈ queued, ¬ s.db.Running rid
  | _ => True

def holding (c : Role × Duty) : Bool :=
  match c.1 with
  | .process _ _ => c.2.holds
  | _ => false

/-- A worker past its slot whose run is still running. -/
def handling (c : Role × Duty) : Bool :=
  match c.1 with
  | .process _ _ => c.2 == .failing
  | _ => false

/-- How the slots, the tasks and the running rows hang together. -/
structure Slots (after : Bool) (s : Shared) (v : List (Role × Duty)) : Prop where
  down : s.ctl.up = false → ∀ (i : Nat) (r : Role) (g : Duty), v[i]? = some (r, g) → r ≠ .cli →
    g = .dead
  single : ∀ (i j : Nat) (g g' : Duty), v[i]? = some (.main, g) → v[j]? = some (.main, g') →
    g.controls = true → g'.controls = true → i = j
  workers : ∀ (i task rid : Nat) (g : Duty), v[i]? = some (.process task rid, g) →
    g.works = true → Serves s task rid g
  slots : s.ctl.up = true → s.ctl.free + v.countP holding = s.ctl.cfg.maxParallelProcessing
  room : s.ctl.up = true → v.countP handling ≤ s.ctl.free
  main : ∀ (i : Nat) (g : Duty), v[i]? = some (.main, g) → Governs s v g
  after : after = true → s.ctl.up = true → ∃ (i : Nat) (queued : List Nat),
    v[i]? = some (.main, .swept queued)

variable {w : World Op.Reply Exn Shared Role Entry} {v : List (Role × Duty)} {after : Bool}

theorem worker_live (hon : duties.On w v) {i task rid : Nat} {g : Duty}
    (hi : v[i]? = some (.process task rid, g)) (hg : g.works = true) :
    ∃ q, w.procs[i]? = some q ∧ q.role = .process task rid ∧ ∃ o next, q.code = .op o next := by
  obtain ⟨q, hq, hrole, hin⟩ := hon.proc hi
  refine ⟨q, hq, hrole, hin.live ?_ ?_⟩
  · rintro rfl
    cases hg
  · rw [show q.role = .process task rid from hrole]
    rintro (e | (_ | n)) h
    · rcases h with rfl | ⟨rfl, _⟩ <;> cases hg
    · rcases h with rfl | ⟨rfl, _⟩ <;> cases hg
    · exact h

theorem Slots.distinct (h : Slots after w.shared v) (hholds : (discipline .any).Holds w)
    (hon : duties.On w v) {i j task task' rid : Nat} {g g' : Duty}
    (hi : v[i]? = some (.process task rid, g)) (hg : g.works = true)
    (hj : v[j]? = some (.process task' rid, g')) (hg' : g'.works = true) : i = j := by
  obtain ⟨p, hp, hrole, hlive⟩ := worker_live hon hi hg
  obtain ⟨q, hq, hrole', hlive'⟩ := worker_live hon hj hg'
  have htask := (h.workers i task rid g hi hg).owns.unique (h.workers j task' rid g' hj hg').owns
  subst htask
  exact hholds.unique i j p q hp hq hlive hlive' (by rw [hrole]; rfl) (hrole.trans hrole'.symm)

theorem Duty.leaves_of_works {g : Duty} (hg : g.works = true) : g.leaves = g.executes := by
  cases g <;> first | rfl | cases hg

theorem rests_handling {r : Role} {g : Duty} (h : duties.Rests awaits r g) :
    handling (r, g) = false := by
  cases r with
  | process task rid =>
    cases g with
    | failing =>
      rcases h with h | ⟨o, hmay, hawaits⟩ | ⟨x, h⟩
      · cases h
      · rcases hmay with ho | ⟨_, rfl⟩ | ⟨_, _, rfl⟩
        · cases o <;> first | exact ho.elim | cases hawaits
        · cases hawaits
        · cases hawaits
      · rcases x with e | (_ | n)
        · rcases h with h | ⟨h, _⟩ <;> cases h
        · rcases h with h | ⟨h, _⟩ <;> cases h
        · exact h.elim
    | _ => rfl
  | _ => rfl

theorem rests_queued {queued : List Nat} (h : duties.Rests awaits .main (.swept queued)) :
    queued = [] := by
  have hready : (Duty.swept queued).Ready → queued = [] := by
    rintro ((h | ⟨_, h⟩) | h) <;> cases h
    rfl
  rcases h with h | ⟨o, hmay, hawaits⟩ | ⟨x, h⟩
  · cases h
  · exact hmay.2.2 hawaits
  · rcases x with e | (_ | n)
    · exact hready h
    · exact hready h
    · exact hready h.2

theorem Governs.no_worker {g : Duty} (h : Governs s v g) (hg : g.Unready) (rid : Nat) :
    s.ctl.live .process rid = false := by
  refine Bool.eq_false_iff.mpr fun hlive => ?_
  obtain ⟨t, ht, _⟩ := Ctl.live_iff.mp hlive
  obtain ⟨hmem, hkind, _⟩ := Ctl.mem_of_latest ht
  have hobserve : t.kind = .observe := by
    rcases hg with rfl | ⟨todo, rfl⟩
    · exact h t hmem
    · exact h.1 t hmem
  rw [hobserve] at hkind
  cases hkind

theorem Governs.idle {g : Duty} (h : Governs s v g) (hg : g.Unready) {task rid : Nat} :
    ¬ OwnsRun task rid s := by
  intro howns
  have hlive := h.no_worker hg rid
  rw [Ctl.live_iff.mpr ⟨_, howns, rfl⟩] at hlive
  cases hlive

/-- A coroutine that has something left to do belongs to a controller that is up. -/
theorem Slots.awake (h : Slots after s v) {pid : Nat} {r : Role} {g : Duty}
    (hv : v[pid]? = some (r, g)) (hr : r ≠ .cli) (hg : g ≠ .dead) : s.ctl.up = true := by
  cases hup : s.ctl.up with
  | true => rfl
  | false => exact absurd (h.down hup pid r g hv hr) hg

theorem Owned.moved {pid rid : Nat} {r : Role} {g g' : Duty} {cs : List (Role × Duty)}
    (h : Owned v rid) (hv : v[pid]? = some (r, g)) (hno : ∀ task, r ≠ .process task rid) :
    Owned (v.set pid (r, g') ++ cs) rid := by
  obtain ⟨i, task, d, hi, hd⟩ := h
  refine ⟨i, task, d, moved_other (fun heq => ?_) hi, hd⟩
  rw [heq, hv] at hi
  cases hi
  exact hno task rfl

theorem handling_none {pid : Nat} {r : Role} {g : Duty} (hv : v[pid]? = some (r, g))
    (hhere : handling (r, g) = false)
    (hrests : ∀ j r' g', j ≠ pid → v[j]? = some (r', g') → system.coop r' = true →
      duties.Rests awaits r' g') : v.countP handling = 0 := by
  refine List.countP_eq_zero.mpr fun d hd => ?_
  obtain ⟨j, hj⟩ := List.mem_iff_getElem?.mp hd
  by_cases hne : j = pid
  · rw [hne, hv] at hj
    cases hj
    simp [hhere]
  · cases hrole : d.1 with
    | cli => simp [handling, hrole]
    | main | observe | process =>
      have hrest := rests_handling (hrests j d.1 d.2 hne hj (by rw [hrole]; rfl))
      simp [hrest]

/-- What the controller knows is still so after the step of a worker that it waits for. -/
theorem Governs.worked {pid task rid : Nat} {g g' d : Duty} (h : Governs s v d)
    (hd : duties.Rests awaits .main d) (hv : v[pid]? = some (.process task rid, g))
    (howns : OwnsRun task rid s)
    (hapart : ∀ rid', rid' ≠ rid → (s'.db.Running rid' ↔ s.db.Running rid'))
    (hleaves : g'.leaves = true ↔ s'.db.Running rid) :
    Governs s' (v.set pid (.process task rid, g') ++ []) d := by
  cases d with
  | unswept => exact absurd howns (h.idle (.inl rfl))
  | sweeping todo => exact absurd howns (h.idle (.inr ⟨_, rfl⟩))
  | swept queued =>
    obtain rfl := rests_queued hd
    refine ⟨fun rid' hrun => ?_, fun _ hmem => by cases hmem⟩
    by_cases hrid : rid' = rid
    · subst hrid
      exact ⟨pid, task, _, moved_self hv, hleaves.mpr hrun⟩
    · refine (h.1 rid' ((hapart rid' hrid).mp hrun)).moved hv fun task' heq => hrid ?_
      cases heq
      rfl
  | _ => trivial

theorem Slots.worker (h : Slots after w.shared v) (hholds : (discipline .any).Holds w)
    (hon : duties.On w v) {pid task rid : Nat} {g : Duty} {o : Op} {c : Choice}
    {x : Except Exn o.Reply} (hv : v[pid]? = some (.process task rid, g))
    (hmay : (workerScript rid).may g o)
    (hrests : ∀ j r' g', j ≠ pid → v[j]? = some (r', g') → system.coop r' = true →
      duties.Rests awaits r' g')
    (hallowed : allowed .any (.process task rid) w.shared o)
    (hexec : exec (.process task rid) o c w.shared = some (x, s')) :
    (workerScript rid).can g o x ∧
      Slots after s' (v.set pid (.process task rid, g.work o x) ++ []) := by
  have hworks := works_of_may hmay
  have hserves := h.workers pid task rid g hv hworks
  have hinv := hholds.inv
  have hstep := exec_step hinv hallowed hexec
  obtain ⟨hup, hcfg⟩ := (exec_framed hexec).controller
  obtain ⟨hslots, hroom, htasks⟩ := work_slots hmay hexec
  have hleaves := work_running hinv.db.ids hmay hserves.running hexec
  have hapart : ∀ rid', rid' ≠ rid → (s'.db.Running rid' ↔ w.shared.db.Running rid') :=
    fun _ hne => hstep.running_apart hinv hne
  have halive : w.shared.ctl.up = true := by
    refine h.awake hv (by simp) ?_
    rintro rfl
    cases hworks
  refine ⟨work_can hinv.db.ids hmay hserves.running hexec, ?_, ?_, ?_, ?_, ?_, ?_, ?_⟩
  · intro hdown
    rw [hup, halive] at hdown
    cases hdown
  · intro i j d d' hi hj
    rcases moved_cases hi with ⟨_, heq⟩ | ⟨_, hi⟩ | hmem
    · cases heq
    · rcases moved_cases hj with ⟨_, heq⟩ | ⟨_, hj⟩ | hmem
      · cases heq
      · exact h.single i j d d' hi hj
      · cases hmem
    · cases hmem
  · intro i task' rid' d hi hd
    rcases moved_cases hi with ⟨rfl, heq⟩ | ⟨hne, hi⟩ | hmem
    · cases heq
      refine ⟨?_, ?_⟩
      · unfold OwnsRun Ctl.latest
        rw [htasks hd]
        exact hserves.owns
      · rw [← Duty.leaves_of_works hd]
        exact hleaves
    · have hrid : rid' ≠ rid := fun heq => hne (h.distinct hholds hon (heq ▸ hi) hd hv hworks)
      have hserves' := h.workers i task' rid' d hi hd
      refine ⟨hstep.ownsRun hinv (fun heq => hrid ?_) hserves'.owns, ?_⟩
      · cases heq
        rfl
      · rw [hapart rid' hrid]
        exact hserves'.running
    · cases hmem
  · intro _
    have hcount := moved_count (b := []) (c := (Role.process task rid, g.work o x)) holding hv
    have hbefore := h.slots halive
    rw [hcfg]
    simp only [holding, List.countP_nil] at hcount ⊢
    omega
  · intro _
    have hcount := moved_count (b := []) (c := (Role.process task rid, g.work o x)) handling hv
    have hbefore := h.room halive
    simp only [handling, List.countP_nil] at hcount ⊢
    rcases hroom with ⟨rfl, rfl⟩ | hroom
    · -- it takes its slot while all others wait
      have hnone := handling_none hv rfl hrests
      have hturn : (Duty.waiting.work Op.acquire x == Duty.failing) = false := by
        cases x <;> rfl
      have hhere : (Duty.waiting == Duty.failing) = false := rfl
      rw [hturn, hhere, hnone] at hcount
      simp only [Bool.toNat_false] at hcount
      omega
    · omega
  · intro i d hi
    rcases moved_cases hi with ⟨_, heq⟩ | ⟨hne, hi⟩ | hmem
    · cases heq
    · exact (h.main i d hi).worked (hrests i _ _ hne hi rfl) hv hserves.owns hapart hleaves
    · cases hmem
  · intro hafter _
    obtain ⟨i, queued, hi⟩ := h.after hafter halive
    refine ⟨i, queued, moved_other (fun heq => ?_) hi⟩
    rw [heq, hv] at hi
    cases hi

end Sdpctl
