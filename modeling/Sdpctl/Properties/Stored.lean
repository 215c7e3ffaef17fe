import Sdpctl.Programs.Tables
import Sdpctl.Properties.Vigil

/-!
What `STORED` says about the disk. The size in the row is the size of what is
there, and a size of nothing is zero; so a runner that returns zero without having
created its measurement set leaves a stored observation without data. Where no runner
does so, every stored observation has its measurement set, of the size in its row.
-/

namespace Sdpctl

open FileTree Coop

variable {T : Terms} {r : Role} {s s' : Shared} {db' : Db}

/-- Nobody changes files from outside, and an observation is completed only when
its measurement set exists. -/
def delivering : Limits where
  terms := .calm
  run o c s := ∀ q oid, o = .db q → c = .ok → q.completes oid = true →
    s.db.InState oid .observing → s.disk.has (msPathOf oid) = true

/-- Every stored observation has something at the path of its measurement set, a file or a
directory. -/
def Shared.MsThere (s : Shared) : Prop :=
  ∀ oid o, s.db.obs? oid = some o → o.state = .stored → s.disk.has (msPathOf oid) = true

namespace Shared.MsThere

theorem congr (h : s.MsThere) (hdb : s'.db = s.db)
    (hdisk : ∀ oid o, s.db.obs? oid = some o → o.state = .stored →
      s'.disk.get? (msPathOf oid) = s.disk.get? (msPathOf oid)) : s'.MsThere := by
  intro oid o ho hstored
  rw [hdb] at ho
  have hbefore := h oid o ho hstored
  unfold Disk.has at hbefore ⊢
  rwa [hdisk oid o ho hstored]

theorem call (hinv : Inv T s) {q : Query} (call : Db.Call s.db q db')
    (hthere : ∀ oid, q.completes oid = true → s.db.InState oid .observing →
      s.disk.has (msPathOf oid) = true) (h : s.MsThere) :
    ({ s with db := db' } : Shared).MsThere := by
  intro oid x hx hstored
  have hchange := call.obsChange hinv.db.ids hx
  cases hbefore : s.db.obs? oid with
  | none =>
    rw [hbefore] at hchange
    cases hchange with
    | created hcall hrow => simp [hrow, Db.planned] at hstored
  | some o =>
    rw [hbefore] at hchange
    cases hchange with
    | same => exact h oid x hbefore hstored
    | forced => exact h oid o hbefore hstored
    | released => simp at hstored
    | @moved x expected new reason size reserved error hcall legal before =>
      obtain rfl : new = .stored := hstored
      subst hcall
      cases expected <;> simp [obsTransitions] at legal
      exact hthere oid (by simp [Query.completes]) ⟨o, hbefore, before⟩

end Shared.MsThere

theorem msThere_keeps : delivering.Keeps Shared.MsThere where
  start oid o ho := by simp [initial, Db.empty, Db.obs?] at ho
  op hinv h hup hallowed hok hlimit hexec := by
    have hstep := exec_step hinv hallowed hexec
    rcases (exec_framed hexec).db with hsame | ⟨q, y, db, rfl, rfl, hrun, rfl⟩
    · refine h.congr hsame fun oid o ho hstored => ?_
      rcases hstep.sees hinv.disk ho with ⟨hms, _⟩ | ⟨hclosing, _⟩ | ⟨hobserving, _⟩
      · exact hms
      · rcases hclosing with hs | hs | hs <;> simp [hstored] at hs
      · simp [hstored] at hobserving
    · exact h.call hinv (.of_run hinv.db.ids hrun) fun oid hq hs => hlimit q oid rfl rfl hq hs
  env hinv h hpeace hlimit henv := by
    refine h.congr (env_move henv).db fun oid o ho hstored => ?_
    exact env_ms hinv (hpeace (by simp [Terms.Calm, delivering])) henv oid
      (hinv.runners.noWriter ho (by simp [hstored]))
  enter hinv h hlimit henter := by
    obtain ⟨hdb, hdisk, _⟩ := enter_same henter
    exact h.congr hdb fun _ _ _ _ => by rw [hdisk]
  down hinv h := h

/-- What is completed with its measurement set keeps it: every stored observation has its
measurement set, of the size in its row. -/
theorem msThere_stored {w : World Op.Reply Exn Shared Role Entry} (h : delivering.Reach w)
    {oid : Nat} {o : Observation} (ho : w.shared.db.obs? oid = some o)
    (hstored : o.state = .stored) :
    w.shared.disk.has o.msPath = true ∧ w.shared.disk.bytesAt o.msPath = o.sizeBytes := by
  have hinv := h.inv
  obtain rfl := (Db.mem_of_obs? ho).2
  have hweighs := hinv.weighs (by simp [Terms.Calm, delivering]) _ o ho
  unfold Disk.Weighs at hweighs
  simp only [hstored] at hweighs
  rw [hinv.db.msPath _ o ho]
  exact ⟨h.keeps msThere_keeps _ o ho hstored, hweighs.1⟩

/-- Where every runner that returns zero has left its measurement set, an observation is
completed only with its measurement set there: nothing takes it away between the return
and the commit. -/
theorem punctual_delivering {w : World Op.Reply Exn Shared Role Entry} (h : punctual.Reach w) :
    delivering.Reach w := by
  refine h.within fun {v l v'} hreach hok hstep => ⟨?_, hstep⟩
  cases l with
  | run pid c =>
    refine fun p o next hp hcode => ⟨(hok p o next hp hcode).1, fun q oid ho _ hq hs => ?_⟩
    subst ho
    exact completed_delivered hreach hp hcode hq hs
  | env e => exact ⟨hok.1, trivial⟩
  | enter | stop | crash => trivial

/-- Where every runner that returns zero has left its measurement set, an observation is
completed only with its measurement set there; and wherever this is so, by whatever
cause, every stored observation has a measurement set of the size in its row. -/
theorem stored_has_data (w : World Op.Reply Exn Shared Role Entry) :
    (punctual.Reach w → delivering.Reach w) ∧
    (delivering.Reach w → ∀ oid o, w.shared.db.obs? oid = some o → o.state = .stored →
      w.shared.disk.has o.msPath = true ∧ w.shared.disk.bytesAt o.msPath = o.sizeBytes) := by
  refine ⟨punctual_delivering, fun h oid o ho hstored => ?_⟩
  exact msThere_stored h ho hstored

/-- Nobody changes files from outside, and writers stop with their runner; what the runners
write and return is up to them. -/
def untouched : Limits where
  terms := .calm

/-- A runner returns zero only when its measurement set is there. -/
def leaving (w : World Op.Reply Exn Shared Role Entry) : Label Role Entry Choice Env → Bool
  | .env (.runnerReturn h rc) =>
      rc != 0 || (w.shared.runners[h]?).all fun v => w.shared.disk.has (msPathOf v.oid)
  | _ => true

theorem leaving_ok {w : World Op.Reply Exn Shared Role Entry} {l : Label Role Entry Choice Env}
    (h : (harmless w l && leaving w l) = true) : punctual.ok w l := by
  rw [Bool.and_eq_true] at h
  have hcalm : untouched.ok w l := harmless_ok h.1 (fun _ _ _ => trivial)
    (fun _ _ _ _ _ => trivial) fun _ _ _ => trivial
  cases l with
  | run pid c => exact hcalm
  | env e =>
    refine ⟨hcalm.1, fun i v he hv => ?_⟩
    subst he
    simpa [leaving, hv] using h.2
  | enter | stop | crash => trivial

/-- The first observation is stored. Its runner had left three bytes when it returned zero, and
they are there, of the size in the row. -/
theorem stored_has_data_first : ∃ w o, punctual.Reach w ∧ w.shared.db.obs? 1 = some o ∧
    o.state = .stored ∧ w.shared.disk.has o.msPath = true ∧
    w.shared.disk.bytesAt o.msPath = o.sizeBytes := by
  obtain ⟨w, hreach, htest⟩ := punctual.reach_of_replay (fun w l => harmless w l && leaving w l)
    (fun _ _ h => leaving_ok h) firstRun
    (fun w => (w.shared.db.obs? 1).any fun o => o.state == .stored) (by decide +kernel)
  obtain ⟨o, ho, hs⟩ := (Option.any_eq_true _ _).mp htest
  obtain ⟨hdelivering, hstored⟩ := stored_has_data w
  exact ⟨w, o, hreach, ho, eq_of_beq hs, hstored (hdelivering hreach) 1 o ho (eq_of_beq hs)⟩

/-- The runner of the first observation returns zero without having written. -/
def emptyReturn : List (Label Role Entry Choice Env) :=
  [.enter .main (.run smallConfig)] ++ steps 0 8 ++ [.run 0 (.order [])] ++ steps 0 25 ++
    steps 1 6 ++ [.env (.launch 0), .env (.containerExit 0), .env (.runnerReturn 0 0)] ++ steps 1 7

/-- The runner of the first observation returns zero without having written anything. Its exit
code is all that is tested, a missing path has the size zero, and the observation is stored
without data. -/
theorem stored_without_data : ¬ ∀ w, untouched.Reach w → ∀ oid o,
    w.shared.db.obs? oid = some o → o.state = .stored → w.shared.disk.has o.msPath = true := by
  intro hall
  obtain ⟨w, hreach, htest⟩ := untouched.reach_of_replay harmless
    (fun w l h => harmless_ok h (fun _ _ _ => trivial) (fun _ _ _ _ _ => trivial)
      fun _ _ _ => trivial)
    emptyReturn (fun w => (w.shared.db.obs? 1).any fun o =>
      o.state == .stored && !w.shared.disk.has o.msPath) (by decide +kernel)
  obtain ⟨o, ho, hs⟩ := (Option.any_eq_true _ _).mp htest
  simp only [Bool.and_eq_true, beq_iff_eq, Bool.not_eq_true'] at hs
  have hthere := hall w hreach 1 o ho hs.1
  rw [hs.2] at hthere
  cases hthere

end Sdpctl
