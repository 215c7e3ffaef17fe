import Sdpctl.Discipline.Rely
import Sdpctl.Coop.Triples

/-!
The rely–guarantee logic of the system. Everything but the code of the entry
points is discharged here.
-/

namespace Sdpctl

open FileTree Coop

/-- The operation is a call of the file system. -/
def Op.onFiles : Op → Bool
  | .exists_ _ | .isDir _ | .isFile _ | .statSize _ | .statMtime _ | .resolve _ | .mkdir _
  | .rename _ _ | .rmtree _ | .unlink _ | .iterdir _ | .rglob _ | .entryCount _ => true
  | _ => false

def Choice.faulty : Choice → Bool
  | .fail | .leaves _ => true
  | _ => false

def okRun (T : Terms) (o : Op) (c : Choice) (s : Shared) : Prop :=
  (T = .unswallowed → ∀ p e, o = .swallow p e → s.disk.absent p) ∧
    (T = .faultless → o.onFiles = true → c.faulty = false)

def pre : Role → Entry → Shared → Prop
  | .main, .run cfg, s => s.ctl.up = true ∧ s.ctl.cfg = cfg ∧ s.ctl.tasks = []
  | .main, .tick cfg, s => s.ctl.up = true ∧ s.ctl.cfg = cfg ∧ NoOrphan s
  | .observe task oid, .observe cfg task' oid', s => task' = task ∧ oid' = oid ∧
      Owns task oid s ∧ s.ctl.cfg = cfg ∧ NoOrphan s ∧ ∀ w ∈ s.runners, w.oid ≠ oid
  | .observe task oid, .watch cfg task' oid' handle msPath _, s => task' = task ∧ oid' = oid ∧
      Owns task oid s ∧ s.ctl.cfg = cfg ∧ NoOrphan s ∧ s.db.InState oid .observing ∧
      msPath = msPathOf oid ∧ ∃ w, s.runners[handle]? = some w ∧ w.oid = oid
  | .process task rid, .process _ task' rid', s => task' = task ∧ rid' = rid ∧ OwnsRun task rid s
  | .cli, .command (.resolve oid), s => oid ∈ s.dropped
  | .cli, .command _, _ => True
  | _, _, _ => False

def registered : Role → Shared → Prop
  | .main, s => s.ctl.up = true
  | .observe task _, s | .process task _, s => s.ctl.up = true ∧ task < s.ctl.tasks.length
  | .cli, _ => False

/-- The logic of the system under the given terms. -/
def discipline (T : Terms) : Logic system where
  inv := Inv T
  okRun _ o c s := okRun T o c s
  okEnv e s := T.Calm → Peaceful e s
  okEnter _ _ _ := True
  allowed r o s := allowed T r s o
  rely r b s s' := Onward T s s' ∧ (r ≠ .cli → Keeps r s s') ∧ (b = false → Quiet T s s')
  pre := pre
  registered := registered

variable {T : Terms} {r r' : Role} {s s' : Shared}

theorem Step.tasks_length (h : Step T r s s') : s.ctl.tasks.length ≤ s'.ctl.tasks.length := by
  cases h with
  | track => simp [Ctl.track]
  | finish => simp [Ctl.finish]
  | remove | prune => simp
  | _ => exact Nat.le_refl _

theorem Step.registered (h : Step T r' s s') (hreg : registered r s) : registered r s' := by
  have hlen := h.tasks_length
  cases r with
  | main => exact h.up.trans hreg
  | observe task oid => exact ⟨h.up.trans hreg.1, Nat.lt_of_lt_of_le hreg.2 hlen⟩
  | process task rid => exact ⟨h.up.trans hreg.1, Nat.lt_of_lt_of_le hreg.2 hlen⟩
  | cli => exact hreg

theorem registered_congr (hctl : s'.ctl = s.ctl) (hreg : registered r s) : registered r s' := by
  cases r with
  | cli => exact hreg
  | main | observe | process => simpa only [Sdpctl.registered, hctl] using hreg

theorem registered_up (hreg : registered r s) : s.ctl.up = true := by
  cases r with
  | main => exact hreg
  | observe task oid => exact hreg.1
  | process task rid => exact hreg.1
  | cli => exact hreg.elim

theorem enter_pre {n : Entry} (h : enter r n s = some s') : pre r n s' := by
  cases enter_cases h with
  | boot => exact ⟨rfl, rfl, rfl⟩
  | resolve => exact List.mem_cons_self
  | @command c other =>
    cases c with
    | resolve oid => exact (other oid rfl).elim
    | _ => trivial

/-- A coroutine is started as `_spawn` names it, and its entry may assume what
the scheduler knows. -/
theorem spawn_pre {o : Op} {c : Choice} {x : Except Exn o.Reply} {n : Entry} (hinv : Inv T s)
    (hallowed : allowed T r s o) (hexec : exec r o c s = some (x, s'))
    (hspawn : spawn o s = some (r', n)) :
    ¬ registered r' s ∧ registered r' s' ∧ pre r' n s' := by
  cases o with
  | trackObserve oid =>
    obtain ⟨_, hup, _, hplanned, hno⟩ := hallowed
    rw [Shared.sure_eq hexec]
    cases hspawn
    exact ⟨fun h => Nat.lt_irrefl _ h.2, ⟨hup, by simp [Ctl.track]⟩, rfl, rfl,
      Ctl.latest_track_self _ _ _, rfl, hno, hinv.runners.none_of_planned hplanned⟩
  | trackProcess rid =>
    obtain ⟨_, hup, _⟩ := hallowed
    rw [Shared.sure_eq hexec]
    cases hspawn
    exact ⟨fun h => Nat.lt_irrefl _ h.2, ⟨hup, by simp [Ctl.track]⟩, rfl, rfl,
      Ctl.latest_track_self _ _ _⟩
  | _ => cases hspawn

/-- The obligations of the logic, given the verification of the entry points. -/
theorem discipline_sound (T : Terms)
    (code : ∀ {r : Role} {n : Entry} {s : Shared}, Inv T s → pre r n s →
      (discipline T).wp r n.code ((discipline T).post r) s) : (discipline T).Sound where
  rely_refl r _ s := ⟨.refl s, fun _ => .refl r s, fun _ => .refl s⟩
  rely_trans h h' := ⟨h.1.trans h'.1, fun hr => (h.2.1 hr).trans (h'.2.1 hr),
    fun hb => (h.2.2 hb).trans (h'.2.2 hb)⟩
  rely_open h := ⟨h.1, h.2.1, by simp⟩
  inv_run hinv _ hallowed hexec := (exec_step hinv hallowed hexec).inv hinv
  guar_coop _ hne hinv _ _ hallowed hexec :=
    have hstep := exec_step hinv hallowed hexec
    ⟨hstep.onward hinv, fun _ => hstep.keeps hinv hne, by simp⟩
  guar_free {r r' o c s x s'} hcoop hinv _ _ hallowed hexec := by
    have hcli : r = .cli := by simpa [system] using hcoop
    subst hcli
    have hstep := exec_step hinv hallowed hexec
    exact ⟨hstep.onward hinv, fun _ => (hstep.quiet hinv).keeps, fun _ => hstep.quiet hinv⟩
  inv_env hinv hok h := env_inv hinv hok h
  guar_env hinv hok h := ⟨env_onward hinv hok h, fun _ => (env_quiet hinv hok h).keeps,
    fun _ => env_quiet hinv hok h⟩
  inv_enter hinv _ h := enter_inv hinv (system_enter h).2
  pre_enter _ _ h := enter_pre (system_enter h).2
  guar_enter {r r' n s s'} hcoop hinv _ h := by
    have hcli : r = .cli := by simpa [system] using hcoop
    subst hcli
    have henter := (system_enter h).2
    exact ⟨enter_onward henter, fun _ => (enter_quiet (T := T) henter).keeps,
      fun _ => enter_quiet henter⟩
  guar_boot {r r' n s s'} hcoop _ _ h := by
    have hcli : r' = .cli := by simpa [system] using hcoop
    exact ⟨enter_onward (system_enter h).2, fun hne => absurd hcli hne, by simp⟩
  inv_down hinv := down_inv hinv
  guar_down {r s} hcoop _ := by
    have hcli : r = .cli := by simpa [system] using hcoop
    exact ⟨down_onward s, fun hne => absurd hcli hne, by simp⟩
  registered_run hreg hinv _ hallowed hexec := (exec_step hinv hallowed hexec).registered hreg
  registered_env hreg h := registered_congr (env_move h).ctl hreg
  registered_enter {r r' n s s'} hreg h hcoop := by
    have hcli : r' = .cli := by simpa [system] using hcoop
    subst hcli
    exact registered_congr (enter_quiet (T := .any) (system_enter h).2).ctl hreg
  boot {r n s s'} hcoop h := by
    cases enter_cases (system_enter h).2 with
    | boot down =>
      exact ⟨fun r' hreg => Bool.false_ne_true (down.symm.trans (registered_up hreg)), rfl⟩
    | resolve | command => cases hcoop
  spawn hinv _ hallowed hexec h := spawn_pre hinv hallowed hexec h
  code := code

end Sdpctl
