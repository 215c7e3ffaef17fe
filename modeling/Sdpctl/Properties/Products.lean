import Sdpctl.Properties.QaList
import Sdpctl.Programs.Inside

/-!
The products that reached QA. Both cleanups remove whole directories, one of them
on the word of an old snapshot; no such directory is that of a product that an
operator has been shown, because no two runs share one and a run does not come
back from QA. Only `quarantine purge` can reach one, with a name that leads out of
the quarantine directory.
-/

namespace Sdpctl

open FileTree Coop Journal

variable {T : Terms} {r : Role} {s s' : Shared}

@[simp] theorem outputDir_inj {a b c d : Nat} : outputDir a b = outputDir c d ↔ a = c ∧ b = d := by
  constructor
  · intro h
    simp only [outputDir, List.cons.injEq, and_true, true_and] at h
    exact ⟨padded_injective 6 (append_left_cancel h.1), padded_injective 3 (append_left_cancel h.2)⟩
  · rintro ⟨rfl, rfl⟩
    rfl

theorem outputDir_apart {a b c d : Nat} (h : ¬ (a = c ∧ b = d)) :
    Apart (outputDir a b) (outputDir c d) := by
  have hne : outputDir a b ≠ outputDir c d := fun heq => h (outputDir_inj.mp heq)
  simp only [outputDir, ne_eq, List.cons.injEq, true_and, and_true, not_and_or] at hne
  simp only [outputDir, apart_cons, ne_eq, not_true_eq_false, false_or, apart_nil_left, or_false]
  exact hne

@[simp] theorem parent_product (d : Path) : parent (d ++ ["product"]) = d := by simp [parent]

theorem Chain.attempt_inj {rs : List ProcessingRun} (h : Chain rs) {p q : ProcessingRun}
    (hp : p ∈ rs) (hq : q ∈ rs) (heq : p.attempt = q.attempt) : p = q := by
  refine List.inj_on_of_nodup_map (f := (·.attempt)) ?_ hp hq heq
  rw [h.attempts]
  exact List.nodup_range'

theorem Inv.outputDir_unique (hinv : Inv T s) {i j : Nat} {p q : ProcessingRun}
    (hp : s.db.run? i = some p) (hq : s.db.run? j = some q)
    (heq : outputDir p.observationId p.attempt = outputDir q.observationId q.attempt) : i = j := by
  obtain ⟨howner, hattempt⟩ := outputDir_inj.mp heq
  have hpq := (hinv.db.chain q.observationId).attempt_inj
    (Db.mem_runsOf.mpr ⟨(Db.mem_of_run? hp).1, howner⟩) (Db.Lawful.mem_runsOf_of_run? hq) hattempt
  rw [← (Db.mem_of_run? hp).2, ← (Db.mem_of_run? hq).2, hpq]

theorem Db.Call.reachedQa {db db' : Db} {q : Query} (call : Db.Call db q db')
    {rid : Nat} (h : db.reachedQa rid = true) : db'.reachedQa rid = true := by
  cases call with
  | same | unforced => exact h
  | noted entity id reason => exact (recordEvent_reachedQa entity id reason rid).trans h
  | admitted step | observation _ _ _ step | forced _ step | created _ _ _ _ step
  | exhausted step | marked step => exact (step.reachedQa rid).trans h
  | run legal id before step => rw [step.reachedQa, h, Bool.true_or]
  | accepted id before step | discarded id before step =>
    obtain ⟨mid, hrun, hobs⟩ := step.steps
    rw [hobs.reachedQa, hrun.reachedQa, h, Bool.true_or]
  | reprocessed id found stored before step added =>
    rw [added.reachedQa, step.reachedQa, h, Bool.true_or]

theorem Db.Logged.reachedQa {db : Db} (h : db.Logged) {rid : Nat}
    (hstate : db.runState rid = some .awaitingQa) : db.reachedQa rid = true := by
  have hlast := (h.run rid).last
  rw [hstate] at hlast
  obtain ⟨m, hm, hawaiting⟩ := Option.map_eq_some_iff.mp hlast
  obtain ⟨e, he, hmove⟩ := List.mem_filterMap.mp (List.mem_of_getLast? hm)
  refine List.any_eq_true.mpr ⟨e, he, ?_⟩
  unfold runMove at hmove
  split at hmove
  · split at hmove
    · rename_i id before after reason heq
      cases hmove
      obtain rfl : after = .awaitingQa := hawaiting
      simp [isDelivery, heq]
    · cases hmove
  · cases hmove

/-- No step of a process touches the products of a run that has reached QA. -/
theorem Step.products (hinv : Inv T s) (h : Step T r s s') {rid : Nat} {q : ProcessingRun}
    (hq : s.db.run? rid = some q) (hreached : s.db.reachedQa rid = true) :
    s'.disk.get? (outputDir q.observationId q.attempt) =
      s.disk.get? (outputDir q.observationId q.attempt) := by
  have hset : ∀ {d : Disk} {p : Path} {x : Option Tree}, Removable r s p →
      d.root = s.disk.root.set p x → d.get? (outputDir q.observationId q.attempt) =
        s.disk.get? (outputDir q.observationId q.attempt) := by
    intro d p x may hroot
    refine Disk.get?_of_set hroot ?_
    cases may with
    | product run role path unreviewed =>
      subst path
      obtain ⟨q', hq', howner, hattempt⟩ := unreviewed.row
      refine outputDir_apart fun hsame => ?_
      have hrid := hinv.outputDir_unique hq hq'
        (by rw [outputDir_inj, howner, hattempt]; exact hsame)
      have hunseen := unreviewed.unseen
      rw [← hrid, hreached] at hunseen
      cases hunseen
    | raw oid givenUp path => rcases path with rfl | rfl <;> simp [outputDir, msPathOf, trashPath]
    | entry name role path =>
      subst path
      simp [outputDir, quarantineEntry]
  have hmove : ∀ {p q' : Path} {t : Tree}, Apart (outputDir q.observationId q.attempt) p →
      Apart (outputDir q.observationId q.attempt) q' →
      (s.disk.move p q' t).get? (outputDir q.observationId q.attempt) =
        s.disk.get? (outputDir q.observationId q.attempt) := by
    intro p q' t hp hq'
    exact (Disk.get?_put_apart _ _ hq').trans (Disk.get?_put_apart _ _ hp)
  cases h with
  | quarantine may found =>
    exact hmove (by simp [outputDir, observationsRoot]) (by simp [outputDir, quarantineEntry])
  | trash may found => exact hmove (by simp [outputDir, msPathOf]) (by simp [outputDir, trashPath])
  | remove may found => exact hset may rfl
  | prune may found wf part => exact hset may rfl
  | stay | db | cache | track | finish | slots | start | cancel | abort | slain => rfl

def Delivered (q : ProcessingRun) (s : Shared) : Prop :=
  s.db.reachedQa q.id = true ∧ ∃ q', s.db.run? q.id = some q' ∧
    q'.observationId = q.observationId ∧ q'.attempt = q.attempt

theorem Delivered.moves {q : ProcessingRun} (hinv : Inv T s) (h : Delivered q s)
    (hmove : s'.db = s.db ∨ ∃ (c : Query) (y : c.Reply), c.run s.db = .ok (y, s'.db)) :
    Delivered q s' := by
  obtain ⟨hreached, q', hq', howner, hattempt⟩ := h
  rcases hmove with hsame | ⟨call, y, hrun⟩
  · exact ⟨hsame ▸ hreached, q', hsame ▸ hq', howner, hattempt⟩
  · have hcall := Db.Call.of_run hinv.db.ids hrun
    obtain ⟨q'', hq'', hchange⟩ := hcall.persists hinv.db.ids hq'
    refine ⟨hcall.reachedQa hreached, q'', hq'', ?_⟩
    cases hchange <;> exact ⟨howner, hattempt⟩

/-- The operation makes a runner or the preview write into the directory. -/
def WritesInto (dir : Path) : Op → Prop
  | .startProcess _ _ _ outputPrefix _ => parent outputPrefix = dir
  | .makePreview _ output => parent output = dir
  | _ => False

/-- Every run has the directory of its observation and attempt, so no two runs share one. -/
theorem Inv.products_apart (hinv : Inv T s) :
    (∀ i j p q, s.db.run? i = some p → s.db.run? j = some q →
      parent p.outputPrefix = parent q.outputPrefix → i = j) ∧
    ∀ rid q, s.db.run? rid = some q →
      parent q.outputPrefix = outputDir q.observationId q.attempt := by
  have hdir : ∀ rid q, s.db.run? rid = some q →
      parent q.outputPrefix = outputDir q.observationId q.attempt := by
    intro rid q hq
    rw [hinv.db.outputPrefix rid q hq, parent_product]
  refine ⟨fun i j p q hp hq heq => ?_, hdir⟩
  rw [hdir i p hp, hdir j q hq] at heq
  exact hinv.outputDir_unique hp hq heq

/-- A worker has nothing written into the directory of a run that has been in QA: it writes
for a run that is `RUNNING`, and no two runs share a directory. -/
theorem Delivered.spared (hinv : Inv T s) {q : ProcessingRun} (h : Delivered q s) {o : Op}
    (hallowed : allowed T r s o) : ¬ WritesInto (outputDir q.observationId q.attempt) o := by
  obtain ⟨hreached, q', hq', howner, hattempt⟩ := h
  have hno : ¬ WritesTo s (outputDir q.observationId q.attempt) := by
    rintro ⟨x, hx, hrunning, heq⟩
    have hid := hinv.outputDir_unique hq' hx (by rw [howner, hattempt, heq])
    obtain ⟨y, hy, hdelivered⟩ := hinv.db.delivered _ hreached
    rw [hid, hx] at hy
    cases hy
    rcases hdelivered with hs | hs | hs | hs <;> simp [hrunning] at hs
  intro hwrites
  cases o with
  | startProcess oid rid msPath outputPrefix logPath =>
    have hwrites' : parent outputPrefix = _ := hwrites
    exact hno (hwrites' ▸ hallowed.2.2)
  | makePreview image output =>
    have hwrites' : parent output = _ := hwrites
    exact hno (hwrites' ▸ hallowed)
  | _ => exact hwrites

section Shell

variable {site : Site} {w w' : World Op.Reply Exn Shared Role Entry}

/-- A step of the shell leaves the tables alone or commits one method of the store. -/
theorem shell_tables {l : Label Role Entry Choice Env} (h : (shell site).step l w = some w') :
    w'.shared.db = w.shared.db ∨
      ∃ (q : Query) (y : q.Reply), q.run w.shared.db = .ok (y, w'.shared.db) := by
  cases (shell site).stepped_of_step h with
  | @run pid c p o next x s' _ found code waits performs ends =>
    have hdb : w'.shared.db = s'.db := by
      rcases ends with rfl | ⟨_, rfl⟩ <;> rfl
    rw [hdb]
    rcases (exec_framed performs).db with hsame | ⟨q, y, db, rfl, _, hrun, rfl⟩
    · exact .inl hsame
    · exact .inr ⟨q, y, hrun⟩
  | env moves => exact .inl (env_move moves).db
  | enter moves => exact .inl (enter_same moves).1
  | stop | crash => exact .inl rfl

theorem inside_logged (h : (shell site).Reach (InsideNames site) start w) :
    w.shared.db.Logged := by
  refine h.invariant (fun w => w.shared.db.Logged) .empty fun v l v' hreach hlogged _ hstep => ?_
  rcases shell_tables hstep with hsame | ⟨q, y, hrun⟩
  · rw [hsame]
    exact hlogged
  · exact hlogged.call (.of_run (inside_holds hreach).inv.db.ids hrun)

/-- A run that waits for QA has been in QA ever after. -/
theorem delivered_later (h : (shell site).Reach (InsideNames site) start w) {rid : Nat}
    {q : ProcessingRun} (hq : w.shared.db.run? rid = some q) (hawaiting : q.state = .awaitingQa)
    (hlater : (shell site).Reach (InsideNames site) w w') : Delivered q w'.shared := by
  obtain rfl := (Db.mem_of_run? hq).2
  have hstate : w.shared.db.runState q.id = some .awaitingQa := by
    simp [Db.runState, hq, hawaiting]
  have hreached := (inside_logged h).reachedQa hstate
  refine hlater.invariant (fun w => Delivered q w.shared) ⟨hreached, q, hq, rfl, rfl⟩ ?_
  intro v l v' hreach hdelivered _ hstep
  exact hdelivered.moves (inside_holds (Machine.Reach.trans h hreach)).inv (shell_tables hstep)

/-- No step of a process touches the products of a run that has been in QA. -/
theorem delivered_kept (h : (shell site).Reach (InsideNames site) start w) {q : ProcessingRun}
    (hdelivered : Delivered q w.shared) {pid : Nat} {c : Choice}
    (hstep : (shell site).step (.run pid c) w = some w') :
    w'.shared.disk.get? (outputDir q.observationId q.attempt) =
      w.shared.disk.get? (outputDir q.observationId q.attempt) := by
  have hholds := inside_holds h
  cases (shell site).stepped_of_step hstep with
  | @run _ _ p o next x s' _ found code waits performs ends =>
    have hallowed := hholds.allowed (inside_sound site) found code (c := c) trivial
    have hkept : s'.disk.get? (outputDir q.observationId q.attempt) =
        w.shared.disk.get? (outputDir q.observationId q.attempt) := by
      rcases inside_exec hholds.inv hallowed performs with hmove | ⟨_, hdug⟩
      · obtain ⟨hreached, q', hq', howner, hattempt⟩ := hdelivered
        rw [← howner, ← hattempt]
        exact hmove.products hholds.inv hq' hreached
      · exact hdug.elsewhere _ (by decide)
    rcases ends with rfl | ⟨_, rfl⟩ <;> exact hkept

end Shell

/-- As long as `quarantine purge` is given names that lead strictly below the quarantine,
whatever else happens, no two runs share an output directory, and once a run has been
`AWAITING_QA` no step of the controller or of a command changes what is in its directory,
and none is about to have it written. -/
theorem products_kept (site : Site) {w : World Op.Reply Exn Shared Role Entry}
    (h : (shell site).Reach (InsideNames site) start w) :
    (∀ a b c d, outputDir a b = outputDir c d → a = c ∧ b = d) ∧
    (∀ i j p q, w.shared.db.run? i = some p → w.shared.db.run? j = some q →
      parent p.outputPrefix = parent q.outputPrefix → i = j) ∧
    (∀ rid q, w.shared.db.run? rid = some q →
      parent q.outputPrefix = outputDir q.observationId q.attempt) ∧
    ∀ rid q, w.shared.db.run? rid = some q → q.state = .awaitingQa →
      ∀ w', (shell site).Reach (InsideNames site) w w' →
        (∀ pid c w'', (shell site).step (.run pid c) w' = some w'' →
          w''.shared.disk.get? (parent q.outputPrefix) =
            w'.shared.disk.get? (parent q.outputPrefix)) ∧
        ∀ (pid : Nat) p o next, w'.procs[pid]? = some p → p.code = .op o next →
          ¬ WritesInto (parent q.outputPrefix) o := by
  obtain ⟨hunique, hdir⟩ := (inside_holds h).inv.products_apart
  refine ⟨fun _ _ _ _ => outputDir_inj.mp, hunique, hdir, fun rid q hq hawaiting w' hlater => ?_⟩
  have hreach := Machine.Reach.trans h hlater
  have hdelivered := delivered_later h hq hawaiting hlater
  have hholds := inside_holds hreach
  rw [hdir rid q hq]
  refine ⟨fun pid c w'' hstep => delivered_kept hreach hdelivered hstep, ?_⟩
  intro pid p o next hp hcode
  rcases hholds.allowed (inside_sound site) hp hcode (c := .ok) trivial with hallowed | ⟨_, hdigs⟩
  · exact hdelivered.spared hholds.inv hallowed
  · cases o <;> first | exact hdigs.elim | exact id

/-- A data root at the top of a file system that holds nothing else. -/
def topSite : Site where
  dataRoot := ["data"]
  outside := .dir 0 [("data", .dir 0 [])]
  found := ⟨0, [], rfl⟩

/-- The first run waits for QA, in the machine with the whole command line. Its products are
there, and no next step of any process changes them. -/
theorem products_kept_first : ∃ w q, (shell topSite).Reach (InsideNames topSite) start w ∧
    w.shared.db.run? 1 = some q ∧ q.state = .awaitingQa ∧
    w.shared.disk.has (parent q.outputPrefix) = true ∧
    ∀ pid c w', (shell topSite).step (.run pid c) w = some w' →
      w'.shared.disk.get? (parent q.outputPrefix) = w.shared.disk.get? (parent q.outputPrefix) := by
  obtain ⟨w, hreach, htest⟩ := Machine.reach_of_replay (M := shell topSite) (InsideNames topSite)
    (fun _ => plainLabel) (fun _ _ h => (plainNames_of_label h).inside) firstReview start
    (fun w => (w.shared.db.run? 1).any fun q => q.state == .awaitingQa &&
      w.shared.disk.has (parent q.outputPrefix)) (by decide +kernel)
  obtain ⟨q, hq, hs⟩ := (Option.any_eq_true _ _).mp htest
  simp only [Bool.and_eq_true, beq_iff_eq] at hs
  exact ⟨w, q, hreach, hq, hs.1, hs.2,
    ((products_kept topSite hreach).2.2.2 1 q hq hs.1 w .init).1⟩

/-- The operator gives `quarantine purge` the way to the products of the first run. -/
def purgedProducts : List (Label Role Entry Choice Env) :=
  firstReview ++ [.enter .cli (.command (.purge "../products/obs-000001/run-001"))] ++ steps 4 5

/-- The operator gives `quarantine purge` a name that leads out of the quarantine, to the
products of the first run. The run still waits for QA, and the command removes its output
directory. -/
theorem products_purged : ¬ ∀ w, (shell topSite).Reach (fun _ _ => True) start w →
    ∀ rid q, w.shared.db.run? rid = some q → q.state = .awaitingQa →
      ∀ pid c w', (shell topSite).step (.run pid c) w = some w' →
        w'.shared.disk.has (parent q.outputPrefix) = w.shared.disk.has (parent q.outputPrefix) := by
  intro hall
  obtain ⟨w, hreach, htest⟩ := Machine.reach_of_replay (M := shell topSite) (fun _ _ => True)
    (fun _ _ => true) (fun _ _ _ => trivial) purgedProducts start
    (fun w => ((shell topSite).step (.run 4 .ok) w).any fun w' =>
      (w.shared.db.run? 1).any fun q => q.state == .awaitingQa &&
        (w.shared.disk.has (parent q.outputPrefix) && !w'.shared.disk.has (parent q.outputPrefix)))
    (by decide +kernel)
  obtain ⟨w', hstep, htest⟩ := (Option.any_eq_true _ _).mp htest
  obtain ⟨q, hq, hs⟩ := (Option.any_eq_true _ _).mp htest
  simp only [Bool.and_eq_true, beq_iff_eq, Bool.not_eq_true'] at hs
  obtain ⟨hawaiting, hthere, hgone⟩ := hs
  have hsame := hall w hreach 1 q hq hawaiting 4 .ok w' hstep
  rw [hgone, hthere] at hsame
  cases hsame

end Sdpctl
