import Sdpctl.Programs.Sound
import Sdpctl.Store.Trails

/-!
Assertions about the tables. Only a committed method of the store changes the
tables, so a run keeps such an assertion when every call of a method keeps it.
-/

namespace Sdpctl

open FileTree Coop

/-- The induction over a run, for an assertion `Q` about the tables and one about
the controller that goes before it. -/
theorem Limits.keeps_tables {L : Limits} {C : Shared → Prop} {Q : Db → Prop} (side : L.Keeps C)
    (start : Q Db.empty)
    (call : ∀ {r : Role} {q : Query} {y : q.Reply} {s : Shared} {db' : Db}, Inv L.terms s → C s →
      Q s.db → (r ≠ .cli → s.ctl.up = true) → allowedQuery L.terms r s q → L.run (.db q) .ok s →
      q.run s.db = .ok (y, db') → Q db') : L.Keeps fun s => C s ∧ Q s.db where
  start := ⟨side.start, start⟩
  op hinv h hup hallowed hok hlimit hexec := by
    refine ⟨side.op hinv h.1 hup hallowed hok hlimit hexec, ?_⟩
    rcases (exec_framed hexec).db with hsame | ⟨q, y, db, rfl, rfl, hrun, rfl⟩
    · rw [hsame]
      exact h.2
    · exact call hinv h.1 h.2 hup hallowed hlimit hrun
  env hinv h hpeace hlimit henv := by
    refine ⟨side.env hinv h.1 hpeace hlimit henv, ?_⟩
    rw [(env_move henv).db]
    exact h.2
  enter hinv h hlimit henter := by
    refine ⟨side.enter hinv h.1 hlimit henter, ?_⟩
    rw [(enter_same henter).1]
    exact h.2
  down hinv h := ⟨side.down hinv h.1, h.2⟩

/-- A step leaves the tables alone or commits one method of the store. -/
theorem Limits.Shift.tables {L : Limits} {s s' : Shared} (h : L.Shift s s') :
    s'.db = s.db ∨ ∃ (r : Role) (q : Query) (y : q.Reply), (r ≠ .cli → s.ctl.up = true) ∧
      allowedQuery L.terms r s q ∧ L.run (.db q) .ok s ∧ q.run s.db = .ok (y, s'.db) := by
  cases h with
  | @op r _ _ _ _ up allowed ok limit exec | @last r _ _ _ _ up allowed ok limit exec =>
    rcases (exec_framed exec).db with hsame | ⟨q, y, db, rfl, rfl, hrun, rfl⟩
    · exact .inl hsame
    · exact .inr ⟨r, q, y, up, allowed, limit, hrun⟩
  | env peace limit moves => exact .inl (env_move moves).db
  | enter limit moves => exact .inl (enter_same moves).1
  | stop | crash => exact .inl rfl

theorem Limits.keeps_true (L : Limits) : L.Keeps fun _ => True where
  start := trivial
  op _ _ _ _ _ _ _ := trivial
  env _ _ _ _ _ := trivial
  enter _ _ _ _ := trivial
  down _ _ := trivial

theorem Limits.Keeps.and {L : Limits} {P P' : Shared → Prop} (h : L.Keeps P) (h' : L.Keeps P') :
    L.Keeps fun s => P s ∧ P' s where
  start := ⟨h.start, h'.start⟩
  op hinv hP hup hallowed hok hlimit hexec :=
    ⟨h.op hinv hP.1 hup hallowed hok hlimit hexec, h'.op hinv hP.2 hup hallowed hok hlimit hexec⟩
  env hinv hP hpeace hlimit henv :=
    ⟨h.env hinv hP.1 hpeace hlimit henv, h'.env hinv hP.2 hpeace hlimit henv⟩
  enter hinv hP hlimit henter :=
    ⟨h.enter hinv hP.1 hlimit henter, h'.enter hinv hP.2 hlimit henter⟩
  down hinv hP := ⟨h.down hinv hP.1, h'.down hinv hP.2⟩

/-- The controller that is up runs under a configuration that may be started. -/
theorem Limits.keeps_config {L : Limits} {K : Config → Prop}
    (hstart : ∀ r cfg, L.enter r (.run cfg) → cfg.Valid → K cfg) :
    L.Keeps fun s => s.ctl.up = true → K s.ctl.cfg where
  start hup := by cases hup
  op _ h _ _ _ _ hexec := by
    rw [(exec_framed hexec).controller.1, (exec_framed hexec).controller.2]
    exact h
  env _ h _ _ henv := by
    rw [(env_move henv).ctl]
    exact h
  enter _ h hlimit henter := by
    cases enter_cases henter with
    | boot _ valid => exact fun _ => hstart _ _ hlimit valid
    | resolve | command => exact h
  down _ _ hup := by cases hup

end Sdpctl
