import Sdpctl.Properties.RunChain

/-!
No stranded data: when a tick returns, whatever it met on its way, every stored
observation has somebody who acts on it next, and everything that is in progress
has a live task.
-/

namespace Sdpctl

open FileTree Coop

/-- The queued runs that the last scan of a tick has read, when the tick is about
to return. -/
def returning (p : Proc Op.Reply Exn Role Entry) : Option (List Nat) :=
  match p.code with
  | .op (.tickReturned scanned) _ => some scanned
  | _ => none

theorem returning_iff {p : Proc Op.Reply Exn Role Entry} {scanned : List Nat} :
    returning p = some scanned ↔ ∃ next, p.code = .op (.tickReturned scanned) next := by
  unfold returning
  split
  · rename_i scanned' next hcode
    constructor
    · intro h
      cases h
      exact ⟨next, hcode⟩
    · rintro ⟨next', hcode'⟩
      rw [hcode] at hcode'
      cases hcode'
      rfl
  · rename_i hother
    constructor
    · intro h
      cases h
    · rintro ⟨next, hcode⟩
      exact absurd hcode (hother scanned next)

/-- Wherever a tick returns, nothing is stranded: a stored observation has an
active run, one for the operator, or an accepted one; and what is planned,
observing, running or was queued in the last scan has a live task. -/
theorem nothing_stranded {w : World Op.Reply Exn Shared Role Entry} (h : unlimited.Reach w)
    {pid : Nat} {p : Proc Op.Reply Exn Role Entry} {scanned : List Nat}
    (hp : w.procs[pid]? = some p) (hreturn : returning p = some scanned) :
    (∀ oid o, w.shared.db.obs? oid = some o → o.state = .stored →
      ∃ r ∈ w.shared.db.runsOf oid, r.state = .queued ∨ r.state = .running ∨
        r ∈ listQaItems w.shared.db ∨ r.state = .accepted) ∧
    (∀ oid o, w.shared.db.obs? oid = some o → o.state = .planned ∨ o.state = .observing →
      w.shared.ctl.live .observe oid = true) ∧
    (∀ rid r, w.shared.db.run? rid = some r → r.state = .running →
      w.shared.ctl.live .process rid = true) ∧
    ∀ rid ∈ scanned, w.shared.ctl.live .process rid = true := by
  obtain ⟨next, hcode⟩ := returning_iff.mp hreturn
  have hallowed := h.allowed hp hcode (c := .ok) ⟨by simp [unlimited], by simp [unlimited]⟩
  have hsettled := hallowed.2
  exact ⟨hsettled.stored, hsettled.active, hsettled.running, hsettled.scanned⟩

/-- The tick that has queued the first run of an observation is about to return. -/
def firstReturn : List (Label Role Entry Choice Env) := firstRun.dropLast

/-- The tick that finds the first stored observation returns with its run in the scan, and the
worker of that run is alive. -/
theorem nothing_stranded_first : ∃ w p, unlimited.Reach w ∧ w.procs[0]? = some p ∧
    returning p = some [1] ∧ w.shared.ctl.live .process 1 = true := by
  obtain ⟨w, hreach, htest⟩ := unlimited.reach_of_replay harmless
    (fun w l h => harmless_ok h (fun _ _ _ => trivial) (fun _ _ _ _ _ => trivial)
      fun _ _ _ => trivial)
    firstReturn (fun w => (w.procs[0]?).any fun p => returning p = some [1]) (by decide +kernel)
  obtain ⟨p, hp, hreturn⟩ := (Option.any_eq_true _ _).mp htest
  have hreturn := of_decide_eq_true hreturn
  have hlive := (nothing_stranded hreach hp hreturn).2.2.2 1 (by simp)
  exact ⟨w, p, hreach, hp, hreturn, hlive⟩

end Sdpctl
