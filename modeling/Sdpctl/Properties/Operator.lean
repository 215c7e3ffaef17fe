import Sdpctl.Operator.Alone

/-!
What the operator can rely on. From every reachable state, whatever has crashed or
been cut off before, a command that is left alone comes to its end: it makes exactly
its change when it finds what it needs, and raises and changes nothing otherwise.
-/

namespace Sdpctl

open FileTree Coop

variable {T : Terms} {s : Shared}

theorem command_body_alone (hinv : Inv T s) (hregular : s.estate.Regular) (c : Command) :
    Alone c.body (Outcome c s) s := by
  cases c with
  | accept rid note => exact acceptRun_alone hinv hregular note
  | reprocess rid note => exact reprocessRun_alone hinv note
  | discard rid note => exact discardFailedRun_alone hinv hregular note
  | resolve oid => exact resolveObservationDrop_alone hinv hregular oid
  | purge name => exact quarantinePurge_alone hregular name

/-- A command that is entered in a reachable state and left alone has its outcome: what it
answers, and what it makes of the rows and files. A purge has to be given the plain name of an
entry of the quarantine. -/
theorem command_alone {w : World Op.Reply Exn Shared Role Entry} (h : unlimited.Reach w)
    {c : Command} (plain : (Entry.command c).plain = true) {t : Shared}
    (entered : enter .cli (.command c) w.shared = some t) : Alone c.body (Outcome c t) t := by
  let v : World Op.Reply Exn Shared Role Entry :=
    { shared := t, procs := w.procs ++ [{ role := .cli, code := Entry.code (.command c) }] }
  have hreach : unlimited.Reach v := by
    refine .step (.enter .cli (.command c)) h (unlimited_ok _) ?_
    simp [Machine.step, system, plain, entered, v]
  exact command_body_alone hreach.inv hreach.regular c

/-- The first run waits for QA. An accept of it is ready to be entered, and left alone it has
its outcome: the run is `ACCEPTED`, and its data goes. -/
theorem command_alone_accept : ∃ w t, unlimited.Reach w ∧
    enter .cli (.command (.accept 1 "good")) w.shared = some t ∧
    (Command.accept 1 "good").Ready t.estate ∧
    Alone (acceptRun 1 "good") (Outcome (.accept 1 "good") t) t := by
  obtain ⟨w, hreach, htest⟩ := unlimited.reach_of_replay (fun _ _ => true)
    (fun _ l _ => unlimited_ok l) firstReview
    (fun w => (w.shared.db.run? 1).any fun q => q.state == .awaitingQa && q.observationId == 1 &&
      (w.shared.db.obs? 1).any fun o => o.state == .stored && w.shared.disk.has o.msPath)
    (by decide +kernel)
  simp only [Option.any_eq_true, Bool.and_eq_true, beq_iff_eq] at htest
  obtain ⟨q, hq, ⟨hstate, howner⟩, o, ho, hstored, hdata⟩ := htest
  refine ⟨w, w.shared, hreach, rfl, ⟨q, o, hq, by simp [hstate], ?_, hstored, hdata⟩,
    command_alone (c := .accept 1 "good") hreach rfl rfl⟩
  rw [howner]
  exact ho

end Sdpctl
