import Sdpctl.Coop.Confined
import Sdpctl.Coop.Isolation
import Sdpctl.Programs.Footprint
import Sdpctl.Programs.Sound
import Sdpctl.Sql.Methods

/-!
The system statement by statement. Every method of the store that is a transaction takes
the write lock of the database, and the lock of a dead process is lost.
-/

namespace Sdpctl

open FileTree Coop

def sqlStore : Stored system Statement.Answer Db where
  data := Shared.db
  put db s := { s with db }
  exec := Statement.run
  method := Op.method
  works := .ok
  fails := .fail
  fault := .sqliteError

/-- A world of the system statement by statement. -/
abbrev SqlWorld : Type :=
  World (Fine.Reply (D := Db) Op.Reply Statement.Answer) Exn (Locked Shared) Role Entry

def sqlStart : SqlWorld where
  shared := { base := initial, holder := none, next := 0 }
  procs := []

section Terse

/-- The operation does not ask for the bytes used and reserved. -/
def Op.terse : Op → Prop
  | .db .logicalStorage => False
  | _ => True

theorem command_terse (c : Command) : c.body.Uses Op.terse :=
  (command_uses c).mono fun o h => by
    cases o with
    | db q => cases q <;> first | exact trivial | exact h.elim
    | _ => trivial

theorem system_confines : system.Confines
    (fun r n => r = .cli → ∃ c, n = .command c) (fun r o => r = .cli → o.terse) where
  uses {r n} hn := by
    by_cases hr : r = .cli
    · obtain ⟨c, rfl⟩ := hn hr
      have huses : (Entry.code (.command c)).Uses Op.terse :=
        Prog.uses_bind (command_terse c) fun _ => trivial
      exact huses.mono fun _ h _ => h
    · exact Prog.uses_all (fun _ hcli => absurd hcli hr) _
  returns {r n} hn := by
    by_cases hr : r = .cli
    · obtain ⟨c, rfl⟩ := hn hr
      exact Prog.returns_after fun _ _ h => by cases h
    · exact Prog.returns_all (fun _ _ _ hcli => absurd hcli hr) _
  spawn {o s r n} h hr := by
    subst hr
    cases o <;> cases h
  enter {r n s s'} h hr := by
    cases enter_cases (system_enter h).2 with
    | boot => cases hr
    | resolve => exact ⟨_, rfl⟩
    | command => exact ⟨_, rfl⟩

end Terse

section Lawful

variable {L : Limits}

def Limits.bounds (L : Limits) : system.Bounds where
  run _ o c s := okRun L.terms o c s ∧ L.run o c s
  env e s := (L.terms.Calm → Peaceful e s) ∧ L.env e s
  enter := L.enter

theorem Limits.bounds_ok {w : World Op.Reply Exn Shared Role Entry}
    {l : Label Role Entry Choice Env} : L.bounds.ok w l ↔ L.ok w l := by
  cases l <;> rfl

/-- What is known of an operation that is about to be performed. -/
structure Known (T : Terms) (r : Role) (o : Op) (s : Shared) : Prop where
  inv : Inv T s
  allowed : ∀ c, okRun T o c s → allowed T r s o
  terse : r = .cli → o.terse

theorem known {w : World Op.Reply Exn Shared Role Entry} (h : system.Reach L.bounds.ok start w)
    (pid : Nat) (p : Proc Op.Reply Exn Role Entry) (o : Op)
    (next : Except Exn o.Reply → M (Option Entry)) (found : w.procs[pid]? = some p)
    (code : p.code = .op o next) : Known L.terms p.role o w.shared := by
  have hreach : L.Reach w := h.mono fun _ _ => Limits.bounds_ok.mp
  exact ⟨hreach.inv, fun c hok => hreach.allowed found code hok,
    system_confines.about hreach (by simp [start]) found code⟩

/-- Whatever is not a method with statements of its own leaves the tables alone. -/
theorem exec_whole {r : Role} {o : Op} {c : Choice} {s s' : Shared} {x : Except Exn o.Reply}
    (hwhole : o.method.isWhole = true) (h : exec r o c s = some (x, s')) : s'.db = s.db := by
  rcases (exec_framed h).db with hsame | ⟨q, y, db, rfl, _, hrun, rfl⟩
  · exact hsame
  · exact Query.method_whole hwhole hrun

theorem method_of_not_whole {o : Op} (h : o.method.isWhole = false) :
    ∃ q, o = .db q ∧ q.method.isWhole = false := by
  cases o with
  | db q => exact ⟨q, rfl, h⟩
  | _ => cases h

/-- Only `logical_storage` is made of two queries. -/
theorem method_selects {o : Op} {f g : Statement} {join : f.Answer → g.Answer → o.Reply}
    (h : o.method = .selects f g join) :
    o = .db .logicalStorage ∧ f = .sumUsed ∧ g = .sumReserved := by
  cases o with
  | db q =>
    cases q with
    | logicalStorage =>
      cases h
      exact ⟨rfl, rfl, rfl⟩
    | transitionObservation | forceObservationFields | transitionRun =>
      simp only [Op.method, Query.method] at h
      split at h <;> cases h
    | _ => cases h
  | _ => cases h

theorem sqlStore_lawful (hfree : ∀ q c s, L.run (.db q) c s) :
    sqlStore.Lawful L.bounds (Known L.terms) where
  leads r h := by
    have hmain : r = .main := by simpa [system] using h
    subst hmain
    rfl
  whole := exec_whole
  alone h := by
    obtain ⟨q, rfl, _⟩ := method_of_not_whole h
    exact ⟨rfl, fun _ => rfl⟩
  transaction {r o body s} h := by
    obtain ⟨q, rfl, _⟩ := method_of_not_whole (o := o) (by rw [show o.method = _ from h]; rfl)
    show exec r (.db q) .ok s = _
    rw [show body.eval sqlStore.exec (sqlStore.data s) = _ from Query.method_eval h s.db]
    simp only [exec, Shared.query]
    cases q.run s.db <;> rfl
  selects {o f g join} h := by
    obtain ⟨rfl, rfl, rfl⟩ := method_selects h
    cases h
    exact ⟨by simp, _, _, fun _ => rfl, fun _ => rfl, fun _ _ => rfl⟩
  fails h := by
    obtain ⟨q, rfl, _⟩ := method_of_not_whole h
    rfl
  free h := by
    obtain ⟨q, rfl, _⟩ := method_of_not_whole h
    have hok : ∀ c s, okRun L.terms (.db q) c s := by
      intro c s
      constructor
      · intro _ _ _ heq
        cases heq
      · intro _ heq
        cases heq
    exact ⟨⟨hok _ _, hfree _ _ _⟩, hok _ _, hfree _ _ _⟩
  env h := by cases env_cases h <;> rfl
  enter h := (enter_same (system_enter h).2).1
  down _ := rfl
  data_put _ _ := rfl
  looks {r o s f g join} hknown h := by
    obtain ⟨rfl, _⟩ := method_selects h
    have hrole : r ≠ .cli := fun hcli => hknown.terse hcli
    simpa [system] using hrole
  steady {r o s c x t o' f g join} hcoop hknown hbound hexec h := by
    obtain ⟨rfl, rfl, rfl⟩ := method_selects h
    have hcli : r = .cli := by simpa [system] using hcoop
    subst hcli
    have hquiet := (exec_step hknown.inv (hknown.allowed c hbound.1) hexec).quiet hknown.inv
    have hsum : ∀ db : Db, (Statement.sumReserved.run db).map Prod.fst = .ok db.reserved :=
      fun db => congrArg (Except.ok ∘ Prod.snd) db.logicalStorage_eq
    exact (hsum t.db).trans ((congrArg Except.ok hquiet.db.reserved).trans (hsum s.db).symm)

end Lawful

end Sdpctl
