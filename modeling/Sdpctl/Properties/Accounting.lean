import Sdpctl.Programs.Sound

/-!
The ledger and the disk. While no exception of `quarantine_path` is suppressed
with the data still in place, the ledger agrees with what is under
`observations/` whenever nothing is under way. A suppressed one can leave bytes
there that no sum counts.
-/

namespace Sdpctl

open FileTree Coop

variable {T : Terms} {s : Shared}

/-- Whenever an exception of `quarantine_path` is suppressed, the data has been
moved before. -/
def moved : Limits where
  terms := .unswallowed

/-- No observation is planned, observing, deleting or inconsistent: nobody is writing, and
nothing waits for a recovery. -/
def AtRest (db : Db) : Prop := ∀ oid o, db.obs? oid = some o →
  o.state ≠ .planned ∧ o.state ≠ .observing ∧ o.state ≠ .deleting ∧ o.state ≠ .inconsistent

/-- The bytes at the paths of all observations. -/
def rawBytes (s : Shared) : Nat :=
  (s.db.observations.map fun o => s.disk.bytesAt o.msPath).sum

theorem Disk.Weighs.usedBy_eq {d : Disk} {o : Observation} (h : d.Weighs T o)
    (hthorough : T.Thorough) (hplanned : o.state ≠ .planned) (hobserving : o.state ≠ .observing)
    (hdeleting : o.state ≠ .deleting) : Db.usedBy o = d.bytesAt (msPathOf o.id) ∨
      o.state = .inconsistent := by
  unfold Disk.Weighs at h
  unfold Db.usedBy
  cases hstate : o.state with
  | planned => exact absurd hstate hplanned
  | observing => exact absurd hstate hobserving
  | deleting => exact absurd hstate hdeleting
  | inconsistent => exact .inr rfl
  | stored =>
    simp only [hstate] at h
    exact .inl (by simp [Db.countsUsed, h.1])
  | deleted =>
    simp only [hstate] at h
    exact .inl (by simp [Db.countsUsed, Disk.bytesAt_of_absent h.1])
  | observeFailed =>
    simp only [hstate] at h
    exact .inl (by simp [Db.countsUsed, Disk.bytesAt_of_absent (h.1 hthorough)])

/-- Everything under `observations/` is at the path of an observation. -/
theorem Inv.observations_bytes (hinv : Inv T s) :
    s.disk.bytesAt observationsRoot = rawBytes s := by
  have hnames : (s.db.observations.map fun o => obsName o.id).Nodup := by
    have hids := hinv.db.ids.obsNodup
    rw [show (fun o : Observation => obsName o.id) = obsName ∘ Observation.id from rfl,
      ← List.map_map]
    exact hids.map fun i j heq => obsName_inj.mp heq
  have hsum := Tree.bytesAt_eq_sum hinv.disk.wf hnames
    (fun n hn => Shared.row_name hinv.disk (.inl rfl) hn)
    (hinv.disk.dirs "observations" (by simp [layout]))
  rw [List.map_map] at hsum
  refine hsum.trans (congrArg List.sum (List.map_congr_left fun o ho => ?_))
  rw [hinv.db.msPath o.id o (hinv.db.ids.obs? ho)]
  rfl

theorem Inv.used_eq (hinv : Inv T s) (hthorough : T.Thorough) (hrest : AtRest s.db) :
    s.db.used = rawBytes s := by
  refine congrArg List.sum (List.map_congr_left fun o ho => ?_)
  have hfound := hinv.db.ids.obs? ho
  obtain ⟨hplanned, hobserving, hdeleting, hinconsistent⟩ := hrest o.id o hfound
  rw [hinv.db.msPath o.id o hfound]
  exact ((hinv.weighs hthorough.calm o.id o hfound).usedBy_eq hthorough hplanned hobserving
    hdeleting).resolve_right hinconsistent

/-- As long as no exception of `quarantine_path` is suppressed over data in
place, at rest the ledger is the size of `observations/`, and a failed
observation never has anything at its path. -/
theorem accounting_agrees {w : World Op.Reply Exn Shared Role Entry} (h : moved.Reach w) :
    (AtRest w.shared.db → w.shared.db.logicalStorage.1 = rawBytes w.shared ∧
      w.shared.db.logicalStorage.1 = w.shared.disk.bytesAt observationsRoot) ∧
    ∀ oid o, w.shared.db.obs? oid = some o → o.state = .observeFailed →
      w.shared.disk.absent o.msPath := by
  have hinv := h.inv
  have hthorough : moved.terms.Thorough := .inl rfl
  refine ⟨fun hrest => ?_, fun oid o ho hs => ?_⟩
  · rw [hinv.observations_bytes, Db.logicalStorage_eq]
    exact ⟨hinv.used_eq hthorough hrest, hinv.used_eq hthorough hrest⟩
  · have hweighs := hinv.weighs hthorough.calm oid o ho
    rw [hinv.db.msPath oid o ho, ← (Db.mem_of_obs? ho).2]
    unfold Disk.Weighs at hweighs
    simp only [hs] at hweighs
    exact hweighs.1 hthorough

def firstStored : List (Label Role Entry Choice Env) :=
  firstObservation ++ [.env (.containerExit 0), .env (.runnerReturn 0 0)] ++ steps 1 15

/-- Once its runner has returned, the first observation is at rest: the ledger uses the three
bytes that are under `observations/`. -/
theorem accounting_agrees_stored : ∃ w, moved.Reach w ∧ AtRest w.shared.db ∧
    w.shared.db.logicalStorage.1 = 3 ∧ w.shared.disk.bytesAt observationsRoot = 3 := by
  obtain ⟨w, hreach, htest⟩ := moved.reach_of_replay harmless
    (fun w l h => harmless_ok h (fun _ _ _ => trivial) (fun _ _ _ _ _ => trivial)
      fun _ _ _ => trivial)
    firstStored (fun w => (w.shared.db.observations.all fun o => decide (o.state = .stored)) &&
      decide (w.shared.db.logicalStorage.1 = 3)) (by decide +kernel)
  simp only [Bool.and_eq_true, List.all_eq_true, decide_eq_true_eq] at htest
  obtain ⟨hstored, hused⟩ := htest
  have hrest : AtRest w.shared.db := fun oid o ho => by
    simp [hstored o (Db.mem_of_obs? ho).1]
  refine ⟨w, hreach, hrest, hused, ?_⟩
  rw [← ((accounting_agrees hreach).1 hrest).2]
  exact hused

/-- Renames into the quarantine may fail, and nothing else does; writers stop
with their runner, nothing gets lost, and what succeeds leaves its data. -/
def stubborn : Limits where
  terms := .any
  run o c _ := c.faulty = true → ∃ p q, o = .rename p q ∧ parent q = quarantineRoot
  env e s := Peaceful e s ∧ ∀ h, e = .runnerReturn h 0 →
    ∃ w, s.runners[h]? = some w ∧ s.disk.has w.msPath = true

/-- The process is about to rename something into the quarantine. -/
def quarantines (p : Proc Op.Reply Exn Role Entry) : Bool :=
  match p.code with
  | .op (.rename _ q) _ => decide (parent q = quarantineRoot)
  | _ => false

def succeeds : Env → Bool
  | .runnerReturn _ rc => rc == 0
  | _ => false

def stubbornly (w : World Op.Reply Exn Shared Role Entry) : Label Role Entry Choice Env → Bool
  | .run pid c => !c.faulty || ((w.procs[pid]?).map quarantines).getD false
  | .env e => calm w.shared e && !succeeds e
  | _ => true

theorem stubbornly_ok {w : World Op.Reply Exn Shared Role Entry}
    {l : Label Role Entry Choice Env} (h : stubbornly w l = true) : stubborn.ok w l := by
  cases l with
  | run pid c =>
    intro p o next hp hcode
    refine ⟨⟨by simp [stubborn], by simp [stubborn]⟩, fun hfaulty => ?_⟩
    have hquarantines : quarantines p = true := by simpa [stubbornly, hp, hfaulty] using h
    unfold quarantines at hquarantines
    split at hquarantines
    · rename_i source q next' hcode'
      rw [hcode] at hcode'
      cases hcode'
      exact ⟨source, q, rfl, of_decide_eq_true hquarantines⟩
    · cases hquarantines
  | env e =>
    simp only [stubbornly, Bool.and_eq_true, Bool.not_eq_true'] at h
    refine ⟨by simp [Terms.Calm, stubborn], (calm_peaceful h.1).1, fun i heq => ?_⟩
    subst heq
    cases h.2
  | enter | stop | crash => trivial

/-- The runner exits with an error, and the move of its data into the quarantine
fails, in the worker and again in its exception handler. -/
def stuckInPlace : List (Label Role Entry Choice Env) :=
  firstObservation ++ [.env (.containerExit 0), .env (.runnerReturn 0 1)] ++ steps 1 12 ++
    [.run 1 .fail] ++ steps 1 7 ++ [.run 1 .fail] ++ steps 1 3

/-- The rename into `quarantine/` fails twice, in `_observe` and in its handler, and the
exception is suppressed. The row becomes `OBSERVE_FAILED` and counts nothing, and its data is
still in place: the bytes fall out of every sum. -/
theorem accounting_disagrees : ¬ ∀ w, stubborn.Reach w → AtRest w.shared.db →
    w.shared.db.logicalStorage.1 = rawBytes w.shared ∧
      ∀ oid o, w.shared.db.obs? oid = some o → o.state = .observeFailed →
        w.shared.disk.absent o.msPath := by
  intro hall
  obtain ⟨w, hreach, htest⟩ := stubborn.reach_of_replay stubbornly (fun _ _ => stubbornly_ok)
    stuckInPlace (fun w =>
      (w.shared.db.observations.all fun o => decide (o.state = .observeFailed)) &&
        decide (w.shared.db.logicalStorage.1 = 0) && decide (rawBytes w.shared = 3))
    (by decide +kernel)
  simp only [Bool.and_eq_true, List.all_eq_true, decide_eq_true_eq] at htest
  obtain ⟨⟨hfailed, hused⟩, hraw⟩ := htest
  have hrest : AtRest w.shared.db := fun oid o ho => by
    simp [hfailed o (Db.mem_of_obs? ho).1]
  have hagree := (hall w hreach hrest).1
  rw [hused, hraw] at hagree
  cases hagree

end Sdpctl
