import Sdpctl.Store.Calls
import Sdpctl.System.Machine

/-!
What an operation leaves alone, whoever performs it and however it comes out.
-/

namespace Sdpctl

open FileTree Coop

variable {r : Role} {s s' : Shared} {c : Choice}

theorem Shared.reading_eq {α : Type} {p : Path} {x y : Except Exn α}
    (h : s.reading c p x = some (y, s')) : s' = s := by
  unfold Shared.reading at h
  split at h <;> simp_all

theorem Shared.sure_eq {α : Type} {t : Shared} {x y : Except Exn α}
    (h : Shared.sure c x t = some (y, s')) : s' = t := by
  unfold Shared.sure at h
  split at h <;> simp_all

theorem Shared.writing_eq {p : Path} {x : Except Exn Disk} {y : Except Exn Unit}
    (h : s.writing c p x = some (y, s')) :
    s' = s ∨ ∃ disk, x = .ok disk ∧ s' = { s with disk } := by
  unfold Shared.writing at h
  split at h
  · split at h
    · rename_i disk
      exact .inr ⟨disk, rfl, by simp_all⟩
    · exact .inl (by simp_all)
  · exact .inl (by simp_all)
  · cases h

theorem Shared.removing_eq {p : Path} {x : Except Exn Disk} {part : Tree → Option Disk}
    {y : Except Exn Unit} (h : s.removing c p x part = some (y, s')) :
    s' = s ∨ (∃ disk, x = .ok disk ∧ s' = { s.notePurge p with disk }) ∨
      ∃ t disk, part t = some disk ∧ s' = { s.notePurge p with disk } := by
  unfold Shared.removing at h
  split at h
  · rename_i t
    rw [Option.map_eq_some_iff] at h
    obtain ⟨disk, hpart, heq⟩ := h
    exact .inr (.inr ⟨t, disk, hpart, by simp_all⟩)
  · split at h
    · rename_i disk
      exact .inr (.inl ⟨disk, rfl, by simp_all⟩)
    · exact .inl (by simp_all)
  · exact .inl (by simp_all)
  · cases h

/-- A method of the store leaves the state alone or commits its transaction. -/
theorem Shared.query_eq {q : Query} {x : Except Exn q.Reply}
    (h : s.query c q = some (x, s')) :
    s' = s ∨ ∃ y db, c = .ok ∧ q.run s.db = .ok (y, db) ∧ s' = { s with db } := by
  unfold Shared.query at h
  split at h
  · split at h
    · rename_i y db hrun
      exact .inr ⟨y, db, rfl, hrun, by simp_all⟩
    · exact .inl (by simp_all)
  · exact .inl (by simp_all)
  · cases h

/-- A method of the store commits and returns, or raises and changes nothing. -/
theorem Shared.query_cases {q : Query} {c : Choice} {x : Except Exn q.Reply}
    (h : s.query c q = some (x, s')) :
    (∃ y db, q.run s.db = .ok (y, db) ∧ x = .ok y ∧ s' = { s with db }) ∨
      ∃ e, x = .error e ∧ s' = s := by
  unfold Shared.query at h
  split at h
  · split at h
    · rename_i y db hrun
      cases h
      exact .inl ⟨y, db, hrun, rfl, rfl⟩
    · cases h
      exact .inr ⟨_, rfl, rfl⟩
  · cases h
    exact .inr ⟨_, rfl, rfl⟩
  · cases h

/-- The operation asks, waits or makes a note: it changes nothing. -/
def Op.still : Op → Bool
  | .exists_ _ | .isDir _ | .isFile _ | .statSize _ | .statMtime _ | .resolve _ | .rglob _
  | .iterdir _ | .entryCount _ | .makePreview _ _ | .diverge | .cacheGet | .obsTaskLive _
  | .runTaskLive _ | .tickReturned _ | .swallow _ _ | .taskStart | .sleep | .startProcess _ _ _ _ _
  | .runnerDone _ | .runnerResult _ | .waitRunner _ | .joinRunner _ | .awaitProcess _
  | .command _ => true
  | _ => false

theorem exec_still {o : Op} (ho : o.still = true) {x : Except Exn o.Reply}
    (h : exec r o c s = some (x, s')) : s' = s := by
  cases o with
  | exists_ | isDir | isFile | statSize | statMtime | resolve | rglob | entryCount | makePreview =>
    exact Shared.reading_eq h
  | cacheGet | obsTaskLive | runTaskLive | tickReturned | swallow | taskStart | sleep
  | startProcess => exact Shared.sure_eq h
  | diverge => cases h
  | runnerDone =>
    simp only [exec] at h
    split at h
    · cases h
    · exact Shared.sure_eq h
  | runnerResult handle =>
    simp only [exec] at h
    split at h
    · cases h
    · obtain ⟨y, _, hy⟩ := Option.bind_eq_some_iff.mp h
      exact Shared.sure_eq hy
  | waitRunner handle =>
    simp only [exec] at h
    split at h
    · split at h
      · cases h
      · obtain ⟨y, _, hy⟩ := Option.map_eq_some_iff.mp h
        cases hy
        rfl
    · cases h
      rfl
    · cases h
  | iterdir p =>
    simp only [exec] at h
    split at h
    · split at h
      · split at h <;> cases h
        rfl
      · cases h
        rfl
    · cases h
      rfl
    · cases h
  | joinRunner | awaitProcess | command =>
    simp only [exec] at h
    split at h <;> cases h <;> rfl
  | _ => cases ho

theorem exec_acquire {x : Except Exn Unit} (h : exec r .acquire c s = some (x, s')) :
    s' = { s with ctl := { s.ctl with free := s.ctl.free - 1 } } := by
  simp only [exec] at h
  split at h
  · cases h
  · exact Shared.sure_eq h

theorem exec_cancelRunner {handle : Nat} {x : Except Exn Unit}
    (h : exec r (.cancelRunner handle) c s = some (x, s')) :
    s' = s ∨ s' = s.setRunner handle .cancelled := by
  simp only [exec] at h
  split at h
  · cases h
  · rw [Shared.sure_eq h]
    split
    · exact .inr rfl
    · exact .inl rfl

theorem exec_abortObservation {oid : Nat} {x : Except Exn Unit}
    (h : exec r (.abortObservation oid) c s = some (x, s')) :
    s' = s ∨ ∃ p, s' = { s with containers := s.containers.filter p } := by
  simp only [exec] at h
  split at h <;> cases h
  · exact .inr ⟨_, rfl⟩
  · exact .inl rfl
  · exact .inl rfl

theorem exec_killManaged {x : Except Exn Unit} (h : exec r .killManaged c s = some (x, s')) :
    s' = s ∨ ∃ containers, containers ⊆ s.containers ∧
      s' = { s with containers, runners := s.runners.map Runner.slain } := by
  simp only [exec] at h
  split at h <;> cases h
  · exact .inr ⟨[], List.nil_subset _, rfl⟩
  · exact .inr ⟨s.containers, List.Subset.refl _, rfl⟩
  · exact .inl rfl

def Op.writes : Op → Bool
  | .mkdir _ | .rename _ _ | .rmtree _ | .unlink _ => true
  | _ => false

def Op.ends : Op → Bool
  | .cancelRunner _ | .killManaged => true
  | _ => false

/-- The parts of the state that the operation has nothing to do with. -/
structure Framed (o : Op) (c : Choice) (s s' : Shared) : Prop where
  db : s'.db = s.db ∨
    ∃ q y db, o = .db q ∧ c = .ok ∧ q.run s.db = .ok (y, db) ∧ s' = { s with db }
  disk : o.writes = false → s'.disk = s.disk
  controller : s'.ctl.up = s.ctl.up ∧ s'.ctl.cfg = s.ctl.cfg
  runners : o.ends = false →
    s'.containers.Sublist s.containers ∧ ∃ new, s'.runners = s.runners ++ new

/-- The state is as it was, but for the tree and the memory of the controller. -/
theorem Framed.of_same {o : Op} (hdb : s'.db = s.db) (hdisk : o.writes = false → s'.disk = s.disk)
    (hctl : s'.ctl.up = s.ctl.up ∧ s'.ctl.cfg = s.ctl.cfg)
    (hcontainers : s'.containers.Sublist s.containers) (hrunners : s'.runners = s.runners) :
    Framed o c s s' :=
  ⟨.inl hdb, hdisk, hctl, fun _ => ⟨hcontainers, [], by simp [hrunners]⟩⟩

theorem Framed.refl (o : Op) (c : Choice) (s : Shared) : Framed o c s s :=
  .of_same rfl (fun _ => rfl) ⟨rfl, rfl⟩ (List.Sublist.refl _) rfl

theorem exec_framed {o : Op} {x : Except Exn o.Reply} (h : exec r o c s = some (x, s')) :
    Framed o c s s' := by
  by_cases hstill : o.still = true
  · rw [exec_still hstill h]
    exact .refl _ _ _
  cases o with
  | db q =>
    rcases Shared.query_eq h with rfl | ⟨y, db, hc, hrun, rfl⟩
    · exact .refl _ _ _
    · exact ⟨.inr ⟨q, y, db, rfl, hc, hrun, rfl⟩, fun _ => rfl, ⟨rfl, rfl⟩,
        fun _ => ⟨List.Sublist.refl _, [], by simp⟩⟩
  | mkdir | rename =>
    rcases Shared.writing_eq h with rfl | ⟨disk, hdisk, rfl⟩
    · exact .refl _ _ _
    · exact .of_same rfl (by simp [Op.writes]) ⟨rfl, rfl⟩ (List.Sublist.refl _) rfl
  | rmtree | unlink =>
    rcases Shared.removing_eq h with rfl | ⟨disk, hdisk, rfl⟩ | ⟨t, disk, hpart, rfl⟩
    · exact .refl _ _ _
    · exact .of_same (by simp) (by simp [Op.writes]) (by simp) (by simp) (by simp)
    · exact .of_same (by simp) (by simp [Op.writes]) (by simp) (by simp) (by simp)
  | trackObserve | trackProcess | finish | release =>
    rw [Shared.sure_eq h]
    exact .of_same rfl (fun _ => rfl) ⟨rfl, rfl⟩ (List.Sublist.refl _) rfl
  | cachePut | cachePop =>
    rw [Shared.sure_eq h]
    split
    · exact .refl _ _ _
    · exact .of_same rfl (fun _ => rfl) ⟨rfl, rfl⟩ (List.Sublist.refl _) rfl
  | acquire =>
    rw [exec_acquire h]
    exact .of_same rfl (fun _ => rfl) ⟨rfl, rfl⟩ (List.Sublist.refl _) rfl
  | startObserve oid msPath logPath =>
    rw [Shared.sure_eq h]
    exact ⟨.inl rfl, fun _ => rfl, ⟨rfl, rfl⟩, fun _ => ⟨List.Sublist.refl _, _, rfl⟩⟩
  | cancelRunner handle =>
    rcases exec_cancelRunner h with rfl | rfl
    · exact .refl _ _ _
    · exact ⟨.inl rfl, fun _ => rfl, ⟨rfl, rfl⟩, by simp [Op.ends]⟩
  | abortObservation oid =>
    rcases exec_abortObservation h with rfl | ⟨p, rfl⟩
    · exact .refl _ _ _
    · exact .of_same rfl (fun _ => rfl) ⟨rfl, rfl⟩ List.filter_sublist rfl
  | killManaged =>
    rcases exec_killManaged h with rfl | ⟨_, _, rfl⟩
    · exact .refl _ _ _
    · exact ⟨.inl rfl, fun _ => rfl, ⟨rfl, rfl⟩, by simp [Op.ends]⟩
  | _ => exact absurd rfl hstill

/-- The operation changes the table of tasks or the slots. -/
def Op.schedules : Op → Bool
  | .trackObserve _ | .trackProcess _ | .finish _ | .acquire | .release => true
  | _ => false

theorem exec_schedule {o : Op} {x : Except Exn o.Reply} (h : exec r o c s = some (x, s'))
    (ho : o.schedules = false) : s'.ctl.tasks = s.ctl.tasks ∧ s'.ctl.free = s.ctl.free := by
  by_cases hstill : o.still = true
  · rw [exec_still hstill h]
    exact ⟨rfl, rfl⟩
  cases o with
  | trackObserve | trackProcess | finish | acquire | release => cases ho
  | db q =>
    rcases Shared.query_eq h with rfl | ⟨_, _, _, _, rfl⟩ <;> exact ⟨rfl, rfl⟩
  | mkdir | rename =>
    rcases Shared.writing_eq h with rfl | ⟨_, _, rfl⟩ <;> exact ⟨rfl, rfl⟩
  | rmtree | unlink =>
    rcases Shared.removing_eq h with rfl | ⟨_, _, rfl⟩ | ⟨_, _, _, rfl⟩ <;> simp
  | startObserve =>
    rw [Shared.sure_eq h]
    exact ⟨rfl, rfl⟩
  | cachePut | cachePop =>
    rw [Shared.sure_eq h]
    split <;> exact ⟨rfl, rfl⟩
  | cancelRunner =>
    rcases exec_cancelRunner h with rfl | rfl <;> exact ⟨rfl, rfl⟩
  | abortObservation =>
    rcases exec_abortObservation h with rfl | ⟨_, rfl⟩ <;> exact ⟨rfl, rfl⟩
  | killManaged =>
    rcases exec_killManaged h with rfl | ⟨_, _, rfl⟩ <;> exact ⟨rfl, rfl⟩
  | _ => exact absurd rfl hstill

/-- What happens when a process starts from outside: a controller comes up where none
is, or a command goes on record as the operator's order. -/
inductive Entered (s : Shared) : Role → Entry → Shared → Prop where
  | boot {cfg : Config} (down : s.ctl.up = false) (valid : cfg.Valid) :
      Entered s .main (.run cfg) { s with ctl :=
        { up := true, cfg, tasks := [], cache := none, free := cfg.maxParallelProcessing } }
  | resolve {oid : Nat} :
      Entered s .cli (.command (.resolve oid)) { s with dropped := oid :: s.dropped }
  | command {c : Command} (other : ∀ oid, c ≠ .resolve oid) : Entered s .cli (.command c) s

theorem enter_cases {n : Entry} (h : enter r n s = some s') : Entered s r n s' := by
  unfold enter at h
  split at h
  · split at h
    · cases h
    · rename_i hup
      split at h
      · cases h
        exact .boot (by simpa using hup) ‹_›
      · cases h
  · cases h
    exact .resolve
  · rename_i hresolve
    cases h
    exact .command hresolve
  · cases h

theorem enter_same {n : Entry} (h : enter r n s = some s') :
    s'.db = s.db ∧ s'.disk = s.disk ∧ s'.runners = s.runners ∧ s'.containers = s.containers := by
  cases enter_cases h <;> exact ⟨rfl, rfl, rfl, rfl⟩

inductive Happens (s : Shared) : Env → Shared → Prop where
  | launch {h : Nat} {w : Runner} (found : s.runners[h]? = some w) (may : w.mayLaunch = true) :
      Happens s (.launch h) { s with
        runners := s.runners.modify h fun r => { r with launched := true }
        containers := h :: s.containers }
  | containerExit {h : Nat} :
      Happens s (.containerExit h) { s with containers := s.containers.filter (· ≠ h) }
  | write {h : Nat} {t : Tree} {w : Runner} (found : s.runners[h]? = some w)
      (live : h ∈ s.containers) (wf : t.wf) (ino : t.ino = s.writtenIno w.msPath)
      (below : s.disk.isDirAt (parent w.msPath)) :
      Happens s (.write h t) { s with
        disk := s.disk.put w.msPath (some t)
        produced := (w.oid, t) :: s.produced.filter fun e => e.1 ≠ w.oid || e.2.ino ≠ t.ino
        nextIno := s.nextIno + 1 }
  | returned {h : Nat} {rc : Int} {w : Runner} (found : s.runners[h]? = some w)
      (pending : w.state = .pending) : Happens s (.runnerReturn h rc) (s.setRunner h (.returned rc))
  | raised {h : Nat} {w : Runner} (found : s.runners[h]? = some w) (pending : w.state = .pending) :
      Happens s (.runnerRaise h) (s.setRunner h .raised)
  | product {oid attempt : Nat} {t : Tree} (wf : t.wf) (dir : t.isDir)
      (below : (s.disk.ensureDir (parent (outputDir oid attempt))).isDirAt
        (parent (outputDir oid attempt))) :
      Happens s (.product oid attempt t) { s with disk :=
        (s.disk.ensureDir (parent (outputDir oid attempt))).put (outputDir oid attempt) (some t) }
  | loss {oid : Nat} :
      Happens s (.loss oid) { s with disk := s.disk.put (msPathOf oid) none }

theorem env_cases {e : Env} (h : env e s = some s') : Happens s e s' := by
  cases e with
  | launch handle =>
    simp only [env] at h
    split at h
    · cases h
    · split at h <;> cases h
      exact .launch ‹_› ‹_›
  | containerExit handle =>
    cases h
    exact .containerExit
  | write handle t =>
    simp only [env] at h
    split at h
    · cases h
    · rename_i w hw
      split at h
      · rename_i hguard
        cases h
        exact .write hw hguard.1 hguard.2.1 hguard.2.2.1 hguard.2.2.2
      · cases h
  | runnerReturn handle rc =>
    simp only [env] at h
    split at h
    · cases h
    · split at h <;> cases h
      exact .returned ‹_› ‹_›
  | runnerRaise handle =>
    simp only [env] at h
    split at h
    · cases h
    · split at h <;> cases h
      exact .raised ‹_› ‹_›
  | product oid attempt t =>
    simp only [env] at h
    split at h
    · rename_i hguard
      cases h
      exact .product hguard.1 hguard.2.1 hguard.2.2
    · cases h
  | loss oid =>
    cases h
    exact .loss

end Sdpctl
