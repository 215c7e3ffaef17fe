import Sdpctl.Coop.Solo
import Sdpctl.Runners.Container
import Sdpctl.System.Machine

/-!
The writer-safety gate. The container executable may answer every command with
any exit status and any output; the listings take an output for what it says
without looking at the status, so the gate is as good as the statuses behind the
empty listings that it believes.
-/

namespace Sdpctl

open FileTree Coop

/-- A command of the executable and how it came out. -/
abbrev Exchange := List String × Except Exn CommandResult

/-- The system together with what the container executable has been asked so far and what it has
answered, command by command. -/
structure Session where
  shared : Shared
  asked : List Exchange

/-- The executable answers the `n`-th command by `replies n`; every other
operation is one of the system. -/
def commandStep (replies : Nat → Except Exn CommandResult) :
    (o : Op) → Session → Except Exn o.Reply → Session → Prop
  | .command args, s, x, t =>
      x = replies s.asked.length ∧ t = { s with asked := s.asked ++ [(args, x)] }
  | o, s, x, t => t.asked = s.asked ∧ ∃ c, exec .main o c s.shared = some (x, t.shared)

section Replies

variable (replies : Nat → Except Exn CommandResult)

/-- The exit status of the listing that ends a wait of so many polls, the first
of which is the `k`-th command, and the number of the command after it. -/
def waitEnd : Nat → Nat → Option (Int × Nat)
  | 0, _ => none
  | n + 1, k =>
      match replies k with
      | .ok r => if (words r.out).isEmpty then some (r.status, k + 1) else waitEnd n (k + 1)
      | .error _ => none

/-- The containers whose removal ends, each with the exit status of the listing
that ends it; the first removal is the `k`-th command. -/
def waitEnds : List String → Nat → List (String × Int)
  | [], _ => []
  | cid :: rest, k =>
      match waitEnd replies 100 (k + 1) with
      | some (status, next) => (cid, status) :: waitEnds rest next
      | none => []

/-- The executable can be believed: the first listing succeeded, and for every
container in it so did a listing that ended a wait for it. -/
def Trusted : Prop :=
  ∃ r, replies 0 = .ok r ∧ r.status = 0 ∧
    ∀ cid ∈ words r.out, (cid, 0) ∈ waitEnds replies (words r.out) 1

end Replies

def idFilters (cid : String) : List String := ["id=" ++ cid]

/-- What the gate is for: some listing by the filters succeeded, and for every
container in it a later listing by its id succeeded and was empty. -/
def FailedClosed (executable : String) (filters : List String) (asked : List Exchange) : Prop :=
  ∃ (i : Nat) (r : CommandResult),
    asked[i]? = some (psArgs executable filters, .ok r) ∧ r.status = 0 ∧
    ∀ cid ∈ words r.out, ∃ (j : Nat) (q : CommandResult), i < j ∧
      asked[j]? = some (psArgs executable (idFilters cid), .ok q) ∧ q.status = 0 ∧ words q.out = []

variable {replies : Nat → Except Exn CommandResult} {executable cid : String} {s t : Session}

theorem containerIds_runs {filters : List String} {y : Except Exn (List String)} :
    (containerIds executable filters).Runs (commandStep replies) s y t ↔
      y = (replies s.asked.length).map (fun r => words r.out) ∧
      t = { s with asked :=
        s.asked ++ [(psArgs executable filters, replies s.asked.length)] } := by
  unfold containerIds
  simp only [Prog.bind_def, Prog.pure_def, Prog.runs_bind, Prog.runs_call, commandStep]
  constructor
  · rintro (⟨e, ⟨he, rfl⟩, rfl⟩ | ⟨r, u, ⟨hr, rfl⟩, rfl, rfl⟩)
    · exact ⟨by rw [← he]; rfl, by rw [← he]⟩
    · exact ⟨by rw [← hr]; rfl, by rw [← hr]⟩
  · rintro ⟨rfl, rfl⟩
    cases h : replies s.asked.length with
    | error e => exact .inl ⟨e, ⟨rfl, rfl⟩, rfl⟩
    | ok r => exact .inr ⟨r, _, ⟨rfl, rfl⟩, rfl, rfl⟩

theorem psArgs_inj {filters filters' : List String} :
    psArgs executable filters = psArgs executable filters' ↔ filters = filters' := by
  constructor
  · intro h
    have hrest := List.append_cancel_left h
    induction filters generalizing filters' with
    | nil =>
      cases filters' with
      | nil => rfl
      | cons f fs => cases hrest
    | cons f fs ih =>
      cases filters' with
      | nil => cases hrest
      | cons g gs =>
        simp only [List.flatMap_cons, List.cons_append, List.nil_append, List.cons.injEq,
          true_and] at hrest
        rw [hrest.1, ih (by simp [psArgs, hrest.2]) hrest.2]
  · rintro rfl
    rfl

theorem idFilters_inj {cid' : String} : idFilters cid = idFilters cid' ↔ cid = cid' := by
  constructor
  · intro h
    exact append_left_cancel (List.cons.inj h).1
  · rintro rfl
    rfl

theorem waitGone_runs {n : Nat}
    (h : (waitGone executable cid n).Runs (commandStep replies) s (.ok ()) t) :
    ∃ polls r,
      t.asked = s.asked ++ (polls ++ [(psArgs executable (idFilters cid), .ok r)]) ∧
      (∀ x ∈ polls, x.1 = psArgs executable (idFilters cid) ∧
        ∀ q, x.2 = .ok q → words q.out ≠ []) ∧ words r.out = [] ∧
      waitEnd replies n s.asked.length = some (r.status, t.asked.length) := by
  induction n generalizing s with
  | zero =>
    obtain ⟨hraised, -⟩ := h
    cases hraised
  | succ n ih =>
    obtain ⟨ids, u, hids, hrest⟩ := Prog.runs_bind_ok.mp h
    obtain ⟨hlist, hu⟩ := containerIds_runs.mp hids
    cases hreply : replies s.asked.length with
    | error e =>
      rw [hreply] at hlist
      cases hlist
    | ok r =>
      rw [hreply] at hlist hu
      cases hlist
      by_cases hempty : (words r.out).isEmpty
      · rw [if_pos hempty] at hrest
        obtain ⟨-, rfl⟩ := hrest
        subst hu
        refine ⟨[], r, rfl, by simp, by simpa using hempty, ?_⟩
        simp [waitEnd, hreply, hempty]
      · rw [if_neg hempty] at hrest
        obtain ⟨_, v, hsleep, hwait⟩ := Prog.runs_bind_ok.mp hrest
        obtain ⟨hasked, -⟩ := Prog.runs_call.mp hsleep
        rw [hu] at hasked
        obtain ⟨polls, q, ht, hpolls, hq, hend⟩ := ih hwait
        refine ⟨(psArgs executable (idFilters cid), .ok r) :: polls, q, ?_, ?_, hq, ?_⟩
        · rw [ht, hasked]
          simp [idFilters]
        · intro x hx
          rcases List.mem_cons.mp hx with rfl | hx
          · refine ⟨rfl, fun q hq => ?_⟩
            cases hq
            simpa using hempty
          · exact hpolls x hx
        · rw [waitEnd, hreply]
          simp only [hempty, Bool.false_eq_true, if_false]
          simpa [hasked] using hend

theorem removeAndWaitGone_runs
    (h : (removeAndWaitGone executable cid).Runs (commandStep replies) s (.ok ()) t) :
    ∃ rm polls r, t.asked = s.asked ++
        (rm :: polls ++ [(psArgs executable (idFilters cid), .ok r)]) ∧
      rm.1 = [executable, "rm", "-f", cid] ∧
      (∀ x ∈ polls, x.1 = psArgs executable (idFilters cid) ∧
        ∀ q, x.2 = .ok q → words q.out ≠ []) ∧ words r.out = [] ∧
      waitEnd replies 100 (s.asked.length + 1) = some (r.status, t.asked.length) := by
  obtain ⟨removed, u, hrm, hwait⟩ := Prog.runs_bind_ok.mp h
  obtain ⟨-, rfl⟩ := Prog.runs_call.mp hrm
  obtain ⟨polls, r, ht, hpolls, hr, hend⟩ := waitGone_runs hwait
  refine ⟨([executable, "rm", "-f", cid], .ok removed), polls, r, ?_, rfl, hpolls, hr, ?_⟩
  · rw [ht]
    simp only [List.append_assoc, List.cons_append, List.nil_append]
  · simpa using hend

/-- The removals of a list of containers: the log tells how each of them ended. -/
theorem removals_runs {ids : List String}
    (h : (Prog.forEach ids (removeAndWaitGone executable)).Runs (commandStep replies)
      s (.ok ()) t) :
    ∃ log, t.asked = s.asked ++ log ∧
      (∀ x ∈ log, ∀ filters, (∀ cid, filters ≠ idFilters cid) → x.1 ≠ psArgs executable filters) ∧
      ∀ cid status, (cid, status) ∈ waitEnds replies ids s.asked.length ↔
        ∃ r, (psArgs executable (idFilters cid), .ok r) ∈ log ∧ words r.out = [] ∧
          r.status = status := by
  induction ids generalizing s with
  | nil =>
    obtain ⟨-, rfl⟩ := h
    exact ⟨[], by simp, by simp, by simp [waitEnds]⟩
  | cons first rest ih =>
    obtain ⟨_, u, hfirst, hrest⟩ := Prog.runs_bind_ok.mp h
    obtain ⟨rm, polls, r, hu, hrm, hpolls, hr, hend⟩ := removeAndWaitGone_runs hfirst
    obtain ⟨log, ht, hother, hlog⟩ := ih hrest
    refine ⟨rm :: polls ++ (psArgs executable (idFilters first), .ok r) :: log, ?_, ?_, ?_⟩
    · rw [ht, hu]
      simp
    · intro x hx filters hfilters
      have hid : psArgs executable (idFilters first) ≠ psArgs executable filters :=
        fun heq => hfilters first (psArgs_inj.mp heq).symm
      rcases List.mem_append.mp hx with hx | hx
      · rcases List.mem_cons.mp hx with rfl | hx
        · rw [hrm]
          simp [psArgs]
        · rw [(hpolls x hx).1]
          exact hid
      · rcases List.mem_cons.mp hx with rfl | hx
        · exact hid
        · exact hother x hx filters hfilters
    · intro cid status
      rw [waitEnds, hend, List.mem_cons, Prod.mk.injEq, hlog]
      constructor
      · rintro (⟨rfl, rfl⟩ | ⟨q, hq, hempty, hstatus⟩)
        · exact ⟨r, by simp, hr, rfl⟩
        · exact ⟨q, by simp [hq], hempty, hstatus⟩
      · rintro ⟨q, hq, hempty, hstatus⟩
        rcases List.mem_append.mp hq with hq | hq
        · rcases List.mem_cons.mp hq with rfl | hq
          · simp [psArgs] at hrm
          · exact absurd hempty ((hpolls _ hq).2 q rfl)
        · rcases List.mem_cons.mp hq with heq | hq
          · obtain ⟨hargs, hreply⟩ := Prod.mk.inj heq
            cases hreply
            exact .inl ⟨idFilters_inj.mp (psArgs_inj.mp hargs), hstatus.symm⟩
          · exact .inr ⟨q, hq, hempty, hstatus⟩

theorem removeListed_failed_closed {filters : List String} {shared : Shared}
    (hfilters : ∀ cid, filters ≠ idFilters cid)
    (h : (removeListed executable filters).Runs (commandStep replies) ⟨shared, []⟩ (.ok ()) t) :
    FailedClosed executable filters t.asked ↔ Trusted replies := by
  obtain ⟨ids, u, hids, hrest⟩ := Prog.runs_bind_ok.mp h
  obtain ⟨hlist, rfl⟩ := containerIds_runs.mp hids
  cases hreply : replies 0 with
  | error e =>
    simp only [List.length_nil, hreply] at hlist
    cases hlist
  | ok r =>
    simp only [List.length_nil, List.nil_append, hreply] at hlist hrest
    cases hlist
    obtain ⟨log, ht, hother, hlog⟩ := removals_runs hrest
    simp only [List.length_singleton] at hlog
    rw [ht]
    constructor
    · rintro ⟨i, q, hi, hstatus, hgone⟩
      have hzero : i = 0 := by
        cases i with
        | zero => rfl
        | succ i =>
          have hmem := List.mem_of_getElem? (show log[i]? = _ by simpa using hi)
          exact absurd rfl (hother _ hmem filters hfilters)
      subst hzero
      simp only [List.cons_append, List.getElem?_cons_zero, Option.some.injEq, Prod.mk.injEq,
        Except.ok.injEq, true_and] at hi
      subst hi
      refine ⟨r, hreply, hstatus, fun cid hcid => ?_⟩
      obtain ⟨j, q, hj, hentry, hq, hempty⟩ := hgone cid hcid
      cases j with
      | zero => omega
      | succ j =>
        have hmem := List.mem_of_getElem? (show log[j]? = _ by simpa using hentry)
        exact (hlog cid 0).mpr ⟨q, hmem, hempty, hq⟩
    · rintro ⟨q, hq, hstatus, hends⟩
      rw [hreply] at hq
      cases hq
      refine ⟨0, r, by simp, hstatus, fun cid hcid => ?_⟩
      obtain ⟨q, hmem, hempty, hq⟩ := (hlog cid 0).mp (hends cid hcid)
      obtain ⟨j, hj⟩ := List.getElem?_of_mem hmem
      exact ⟨j + 1, q, by omega, by simpa using hj, hq, hempty⟩

theorem managedFilters_ne (cid : String) : managedFilters ≠ idFilters cid := by
  intro h
  have hlist := congrArg String.toList (List.cons.inj h).1
  rw [String.toList_append] at hlist
  cases (List.cons.inj hlist).1

theorem abortFilters_ne (oid : Nat) (cid : String) : abortFilters oid ≠ idFilters cid := by
  intro h
  cases (List.cons.inj h).2

/-- The operation asks the executable, or waits. -/
def OnlyAsks : Op → Prop
  | .command _ | .sleep => True
  | _ => False

theorem removeListed_shared {filters : List String} {y : Except Exn Unit}
    (h : (removeListed executable filters).Runs (commandStep replies) s y t) :
    t.shared = s.shared := by
  have hids : ∀ filters, (containerIds executable filters).Uses OnlyAsks :=
    fun _ => Prog.uses_bind ⟨trivial, fun _ => trivial⟩ fun _ => trivial
  have hwait : ∀ cid n, (waitGone executable cid n).Uses OnlyAsks := by
    intro cid n
    induction n with
    | zero => exact trivial
    | succ n ih =>
      refine Prog.uses_bind (hids _) fun ids => ?_
      split
      · exact trivial
      · exact ⟨trivial, fun x => by cases x <;> [exact trivial; exact ih]⟩
  have huses : (removeListed executable filters).Uses OnlyAsks := by
    refine Prog.uses_bind (hids _) fun ids => Prog.uses_forEach fun cid => ?_
    exact Prog.uses_bind ⟨trivial, fun _ => trivial⟩ fun _ => hwait cid 100
  refine h.keeps (I := fun u => u.shared = s.shared) huses ?_ rfl
  intro o u x v ho hstep hu
  cases o with
  | command args =>
    obtain ⟨-, rfl⟩ := hstep
    exact hu
  | sleep =>
    obtain ⟨-, c, hexec⟩ := hstep
    have hsame : v.shared = u.shared := by
      cases c <;> simp only [exec, Shared.sure, reduceCtorEq, Option.some.injEq, Prod.mk.injEq]
        at hexec
      exact hexec.2.symm
    exact hsame.trans hu
  | _ => exact ho.elim

/-- A gate that returns has established that the containers are gone exactly
when the executable can be believed, and a gate that raises keeps the recovery
from touching a row or a file. -/
theorem gate_closed (replies : Nat → Except Exn CommandResult) (executable : String)
    (shared : Shared) (t : Session) :
    ((ContainerRunner.killManaged executable).Runs (commandStep replies) ⟨shared, []⟩ (.ok ()) t →
      (FailedClosed executable managedFilters t.asked ↔ Trusted replies)) ∧
    (∀ oid, (ContainerRunner.abortObservation executable oid).Runs (commandStep replies)
        ⟨shared, []⟩ (.ok ()) t →
      (FailedClosed executable (abortFilters oid) t.asked ↔ Trusted replies)) ∧
    ∀ y, (startupReconcile (ContainerRunner.killManaged executable)).Runs (commandStep replies)
        ⟨shared, []⟩ y t →
      (∃ u, (ContainerRunner.killManaged executable).Runs (commandStep replies) ⟨shared, []⟩
        (.ok ()) u) ∨ ((∃ e, y = .error e) ∧ t.shared = shared) := by
  refine ⟨removeListed_failed_closed managedFilters_ne,
    fun oid => removeListed_failed_closed (abortFilters_ne oid), fun y h => ?_⟩
  rcases Prog.runs_bind.mp h with ⟨e, hgate, rfl⟩ | ⟨_, u, hgate, _⟩
  · exact .inr ⟨⟨e, rfl⟩, removeListed_shared hgate⟩
  · exact .inl ⟨u, hgate⟩

/-- An executable that lists one container, removes it, and lists none. -/
def oneContainer : Nat → Except Exn CommandResult
  | 0 => .ok ⟨0, "c1\n"⟩
  | _ => .ok ⟨0, ""⟩

/-- The gate over one container, command by command: it is listed, removed, and no longer
listed. Every listing can be believed, and the gate has established that nothing is left. -/
theorem gate_closed_one : ∃ t : Session,
    (ContainerRunner.killManaged "podman").Runs (commandStep oneContainer)
      ⟨initial, []⟩ (.ok ()) t ∧
      (FailedClosed "podman" managedFilters t.asked ↔ Trusted oneContainer) ∧
      Trusted oneContainer := by
  have hrun : (ContainerRunner.killManaged "podman").Runs (commandStep oneContainer) ⟨initial, []⟩
      (.ok ()) ⟨initial, [(psArgs "podman" managedFilters, .ok ⟨0, "c1\n"⟩),
        (["podman", "rm", "-f", "c1"], .ok ⟨0, ""⟩),
        (psArgs "podman" (idFilters "c1"), .ok ⟨0, ""⟩)]⟩ := by
    refine Prog.runs_bind_ok.mpr ⟨["c1"], _, containerIds_runs.mpr ⟨?_, rfl⟩, ?_⟩
    · exact congrArg Except.ok (show ["c1"] = words "c1\n" by decide)
    · refine Prog.runs_bind_ok.mpr ⟨(), _, ?_, rfl, rfl⟩
      refine Prog.runs_bind_ok.mpr ⟨_, _, Prog.runs_call.mpr ⟨rfl, rfl⟩, ?_⟩
      exact Prog.runs_bind_ok.mpr ⟨[], _, containerIds_runs.mpr ⟨rfl, rfl⟩, rfl, rfl⟩
  exact ⟨_, hrun, (gate_closed oneContainer "podman" initial _).1 hrun,
    ⟨0, "c1\n"⟩, rfl, rfl, by decide⟩

/-- An executable that cannot reach its containers: every command fails and
prints nothing. -/
def engineDown : Nat → Except Exn CommandResult := fun _ => .ok ⟨1, ""⟩

/-- With every listing failed the gate still opens: the exit status is ignored, and an empty
output counts as no containers while one is alive. -/
theorem gate_opens : ∃ t : Session,
    (ContainerRunner.killManaged "podman").Runs (commandStep engineDown) ⟨initial, []⟩ (.ok ()) t ∧
      ¬ FailedClosed "podman" managedFilters t.asked := by
  refine ⟨⟨initial, [(psArgs "podman" managedFilters, .ok ⟨1, ""⟩)]⟩, ?_, ?_⟩
  · refine Prog.runs_bind_ok.mpr ⟨[], _, containerIds_runs.mpr ⟨rfl, rfl⟩, rfl, rfl⟩
  · rintro ⟨i, r, hi, hstatus, -⟩
    cases i with
    | zero =>
      cases hi
      cases hstatus
    | succ i => cases hi

end Sdpctl
