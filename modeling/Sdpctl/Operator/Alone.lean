import Sdpctl.Operator.Effects
import Sdpctl.Properties.QaList

/-!
A command alone, when no operation fails. Each program comes to its end, with the
change of its command when it finds what it needs, and otherwise with an exception
and nothing changed.
-/

namespace Sdpctl

open FileTree Coop

variable {T : Terms} {s : Shared}

/-- The program of a command, alone and without a failing operation, comes to an end
with `Q`. -/
abbrev Alone {α : Type} (p : M α) (Q : Except Exn α → Shared → Prop) (s : Shared) : Prop :=
  p.Meets (smoothly .cli) (fun _ => True) Q s

section Rules

variable {α : Type}

theorem alone_raise {q : Query} {e : Exn} {f : q.Reply → M α} {Q : Except Exn α → Shared → Prop}
    (h : q.run s.db = .error e) (hQ : Q (.error e) s) : Alone ((store q).bind f) Q s := by
  have hdoes : ∀ x u, (smoothly .cli).does (.db q) s x u → x = .error e ∧ u = s := by
    rintro x u ⟨c, hc, hx⟩
    cases c <;> simp [Choice.smooth, exec, Shared.query, h] at hc hx
    exact ⟨hx.1.symm, hx.2.symm⟩
  refine ⟨⟨.error e, s, .ok, rfl, by simp [exec, Shared.query, h]⟩, fun _ _ => trivial,
    fun x u hx => ⟨trivial, ?_⟩⟩
  obtain ⟨rfl, rfl⟩ := hdoes x u hx
  exact hQ

theorem alone_then {β : Type} {p : M β} {f : β → M α} {Q : Except Exn α → Shared → Prop}
    (h : Smooth .cli (fun _ => True) p (fun a t => Alone (f a) Q t) s) : Alone (p.bind f) Q s :=
  Prog.Meets.then h

theorem getRun_found {q : ProcessingRun} {rid : Nat} (h : s.db.run? rid = some q) :
    (Query.getRun rid).run s.db = .ok (q, s.db) := by
  simp [Query.run, Db.getRun, h, Except.map]

theorem getRun_missing {rid : Nat} (h : s.db.run? rid = none) :
    (Query.getRun rid).run s.db = .error (.keyError rid) := by
  simp [Query.run, Db.getRun, h, Except.map]

theorem getObservation_present {o : Observation} {oid : Nat} (h : s.db.obs? oid = some o) :
    (Query.getObservation oid).run s.db = .ok (o, s.db) := by
  simp [Query.run, Db.getObservation, h, Except.map]

theorem getObservation_missing {oid : Nat} (h : s.db.obs? oid = none) :
    (Query.getObservation oid).run s.db = .error (.keyError oid) := by
  simp [Query.run, Db.getObservation, h, Except.map]

end Rules

section Review

variable {α : Type} {rid : Nat} {wrong : ProcessingRun → Prop} [DecidablePred wrong]
  {states : List RunState} {onRun onObservation onData onOthers : String}
  {rest : ProcessingRun → Observation → M α} {Q : Except Exn α → Shared → Prop}

/-- The checks of a verdict let through what waits for it: another active run is never
what they find. -/
theorem review_ready (hinv : Inv T s) (hwrong : ∀ q : ProcessingRun, wrong q ↔ q.state ∉ states)
    (hopen : .superseded ∉ states) {q : ProcessingRun} {o : Observation}
    (h : s.estate.Awaits rid states q o) (hrest : Alone (rest q o) Q s) :
    Alone (review rid wrong onRun onObservation onData onOthers rest) Q s := by
  have hrun : s.db.run? rid = some q := h.run
  have hobs : s.db.obs? q.observationId = some o := h.obs
  have hdata : s.disk.has o.msPath = true := h.data
  have hne : q.state ≠ .superseded := fun heq => hopen (heq ▸ h.state)
  have halone : s.db.hasOtherActiveRuns o.id q.id = false := by
    rw [(Db.mem_of_obs? hobs).2, (Db.mem_of_run? hrun).2]
    exact hinv.no_other_active hrun hne
  refine alone_then (smooth_look (getRun_found hrun) trivial ?_)
  rw [if_neg (by simpa [hwrong] using h.state)]
  refine alone_then (smooth_look (getObservation_present hobs) trivial ?_)
  rw [if_neg (by simpa using h.stored)]
  refine alone_then (smooth_exists trivial ?_)
  rw [hdata]
  refine alone_then (smooth_look (a := false) (by simp [Query.run, halone]) trivial ?_)
  exact hrest

theorem review_refused (hinv : Inv T s) (hwrong : ∀ q : ProcessingRun, wrong q ↔ q.state ∉ states)
    (h : ¬ ∃ q o, s.estate.Awaits rid states q o) (hraise : ∀ e, Q (.error e) s) :
    Alone (review rid wrong onRun onObservation onData onOthers rest) Q s := by
  cases hrun : s.db.run? rid with
  | none => exact alone_raise (getRun_missing hrun) (hraise _)
  | some q =>
    refine alone_then (smooth_look (getRun_found hrun) trivial ?_)
    by_cases hstate : q.state ∈ states
    · rw [if_neg (by simpa [hwrong] using hstate)]
      obtain ⟨o, hobs⟩ := Option.isSome_iff_exists.mp (hinv.db.owner rid q hrun)
      refine alone_then (smooth_look (getObservation_present hobs) trivial ?_)
      by_cases hstored : o.state = .stored
      · rw [if_neg (by simpa using hstored)]
        refine alone_then (smooth_exists trivial ?_)
        cases hdata : s.disk.has o.msPath with
        | true => exact absurd ⟨q, o, hrun, hstate, hobs, hstored, hdata⟩ h
        | false => exact hraise _
      · rw [if_pos (by simpa using hstored)]
        exact hraise _
    · rw [if_pos (by simpa [hwrong] using hstate)]
      exact hraise _

end Review

section Verdicts

variable {q : ProcessingRun} {o : Observation} {rid : Nat}

theorem Db.guardedObs_found {db : Db} (ids : db.Ids) {oid : Nat} (ho : db.obs? oid = some o)
    (f : Observation → Observation) (event : Event) :
    ∃ db', db.guardedObs oid o.state f event = .ok db' := by
  have hkey := Keyed.filter_key ids.obsNodup oid
  rw [show Keyed.find Observation.id db.observations oid = some o from ho] at hkey
  have hsplit : db.observations.filter (obsGuard oid o.state) =
      (db.observations.filter fun x => x.id == oid).filter fun x => x.state == o.state := by
    rw [List.filter_filter]
    refine List.filter_congr fun x _ => ?_
    simp [obsGuard, Bool.and_comm]
  have hone : db.observations.filter (obsGuard oid o.state) = [o] := by
    rw [hsplit, hkey]
    simp
  unfold guardedObs
  rw [hone]
  exact ⟨_, if_neg (by simp)⟩

/-- The transaction of a verdict goes through when the run waits for it. -/
theorem Db.releases_found (ids : s.db.Ids) {before after : RunState}
    {verdict note reason reason' : String} {complaint : RunState → String}
    (h : s.estate.Awaits rid [before] q o)
    (halone : s.db.hasOtherActiveRuns o.id rid = false) :
    ∃ db, (do
      let (_, obs) ← s.db.qaTarget rid [before] complaint
      let db ← s.db.decideRun rid before after verdict note reason
      let db ← db.beginDeletion obs.id reason'
      return (obs.id, db)) = Except.ok (o.id, db) := by
  have hrun : s.db.run? rid = some q := h.run
  have hobs : s.db.obs? q.observationId = some o := h.obs
  have hstate : q.state = before := by simpa using h.state
  have htarget : s.db.qaTarget rid [before] complaint = .ok (q, o) := by
    simp [qaTarget, hrun, hstate, hobs, h.stored, halone]
  obtain ⟨mid, hmid⟩ : ∃ mid, s.db.decideRun rid before after verdict note reason = .ok mid :=
    hstate ▸ guardedRun_found ids hrun _ _
  obtain ⟨-, step⟩ := decideRun_ok ids hrun hmid
  have hstored : mid.obs? o.id = some o := by
    rw [step.obs?, (mem_of_obs? hobs).2]
    exact hobs
  obtain ⟨db, hdb⟩ : ∃ db, mid.beginDeletion o.id reason' = .ok db := by
    unfold beginDeletion
    rw [← h.stored]
    exact guardedObs_found (step.ids ids) hstored _ _
  exact ⟨db, by simp [htarget, hmid, hdb, bind, Except.bind, pure, Except.pure]⟩

/-- What the transaction of a verdict and the deletion after it come to. -/
theorem releases_alone (hinv : Inv T s) (hregular : s.estate.Regular) {before after : RunState}
    {verdict note : String} (h : s.estate.Awaits rid [before] q o) {db : Db} {q' : ProcessingRun}
    {r : Observation} (hid : q'.id = rid)
    (hreleases : Db.Releases s.db db o.id q' (Db.judged q' after verdict note) r) :
    Smooth .cli (fun _ => True) (finishObservationDeletion o.id)
      (fun _ t => s.estate.Releases t.estate rid before after verdict note) { s with db } := by
  obtain ⟨mid, hrun, hobs⟩ := hreleases.steps
  have hbegun := hreleases.begun hinv hregular
  have hrunFound : s.db.run? rid = some q := h.run
  have hfound : s.db.obs? q.observationId = some o := h.obs
  have hqq : q' = q := by
    have hagain : s.db.run? q'.id = some q' := hrun.found
    rw [hid, hrunFound] at hagain
    exact (Option.some.inj hagain).symm
  subst hqq
  have hro : r = o := by
    have hagain : mid.obs? r.id = some r := hobs.found
    rw [hrun.obs?, hreleases.obsId, (Db.mem_of_obs? hfound).2, hfound] at hagain
    exact (Option.some.inj hagain).symm
  subst hro
  have ids : db.Ids := hobs.ids (hrun.ids hinv.db.ids)
  obtain ⟨n, hn⟩ := hbegun.regular.msPath _ (Estate.mem_of_obs? hbegun.obs).1
  have hsmooth : Smooth .cli _ _ _ { s with db } := finishObservationDeletion_smooth ids
    hbegun.regular.stands hbegun.obs hn hbegun.state hbegun.free
  refine Prog.Gives.mono hsmooth (fun _ _ => trivial) ?_
  rintro _ t ⟨-, hend⟩
  have hrow : deleting.row (Shared.estate { s with db }) { r with state := .deleting } =
      r.removed none := if_neg (by simpa using hbegun.free)
  have hobservations : db.observations =
      Keyed.replace Observation.id { r with state := .deleting } s.db.observations := by
    rw [hobs.rows, hrun.observations]
  have hruns : db.processingRuns =
      Keyed.replace ProcessingRun.id (Db.judged q' after verdict note) s.db.processingRuns := by
    rw [hobs.runs, hrun.rows]
  refine ⟨q', r, h, ⟨?_, ?_⟩, ?_⟩
  · rw [hend]
    change Keyed.replace Observation.id (deleting.row _ _) db.observations = _
    have hkey : Observation.id { r with state := .deleting } = (r.removed none).id := rfl
    rw [hrow, hobservations]
    exact Keyed.replace_replace hkey
  · rw [hend]
    exact Disk.cleared_deleted hn hregular.stands hbegun.free
  · rw [hend]
    exact hruns

theorem Estate.Awaits.no_other_active (hinv : Inv T s) {states : List RunState}
    (h : s.estate.Awaits rid states q o) (hopen : .superseded ∉ states) :
    s.db.hasOtherActiveRuns o.id rid = false := by
  have hrun : s.db.run? rid = some q := h.run
  have hobs : s.db.obs? q.observationId = some o := h.obs
  rw [(Db.mem_of_obs? hobs).2]
  exact hinv.no_other_active hrun fun heq => hopen (heq ▸ h.state)

/-- What a command comes to: its change, or an exception and no change. -/
def Outcome (c : Command) (s : Shared) (x : Except Exn Unit) (t : Shared) : Prop :=
  (c.Ready s.estate ∧ x = .ok () ∧ c.Makes s.estate t.estate) ∨
    (¬ c.Ready s.estate ∧ (∃ e, x = .error e) ∧ t.estate = s.estate)

theorem Outcome.done {c : Command} {p : M Unit} {t : Shared} (hready : c.Ready s.estate)
    (h : Smooth .cli (fun _ => True) p (fun _ u => c.Makes s.estate u.estate) t) :
    Alone p (Outcome c s) t := by
  refine Prog.Meets.mono h (fun _ h => h) ?_
  rintro x u ⟨_, rfl, hmakes⟩
  exact .inl ⟨hready, rfl, hmakes⟩

theorem Outcome.refused {c : Command} (h : ¬ c.Ready s.estate) (e : Exn) :
    Outcome c s (.error e) s := .inr ⟨h, ⟨e, rfl⟩, rfl⟩

theorem acceptRun_alone (hinv : Inv T s) (hregular : s.estate.Regular) (note : String) :
    Alone (acceptRun rid note) (Outcome (.accept rid note) s) s := by
  have hwrong : ∀ q : ProcessingRun, q.state ≠ .awaitingQa ↔ q.state ∉ [.awaitingQa] := by simp
  rw [acceptRun_eq]
  by_cases hready : (Command.accept rid note).Ready s.estate
  · obtain ⟨q, o, h⟩ := id hready
    have hid : q.id = rid := (Db.mem_of_run? (show s.db.run? rid = some q from h.run)).2
    refine review_ready hinv hwrong (by simp) h ?_
    obtain ⟨db, hcommit⟩ : ∃ db, s.db.acceptRunAndBeginDeletion rid note = .ok (o.id, db) :=
      Db.releases_found hinv.db.ids h (h.no_other_active hinv (by simp))
    obtain ⟨q', r, hq', _, hreleases⟩ := Db.acceptRunAndBeginDeletion_ok hinv.db.ids hcommit
    rw [hid]
    refine alone_then (smooth_store hcommit trivial ?_)
    exact Outcome.done hready (releases_alone hinv hregular h hq' hreleases)
  · exact review_refused hinv hwrong hready (Outcome.refused hready)

theorem discardFailedRun_alone (hinv : Inv T s) (hregular : s.estate.Regular) (note : String) :
    Alone (discardFailedRun rid note) (Outcome (.discard rid note) s) s := by
  have hwrong : ∀ q : ProcessingRun, q.state ≠ .failed ↔ q.state ∉ [.failed] := by simp
  rw [discardFailedRun_eq]
  by_cases hready : (Command.discard rid note).Ready s.estate
  · obtain ⟨q, o, h⟩ := id hready
    have hid : q.id = rid := (Db.mem_of_run? (show s.db.run? rid = some q from h.run)).2
    refine review_ready hinv hwrong (by simp) h ?_
    obtain ⟨db, hcommit⟩ : ∃ db, s.db.discardFailedRunAndBeginDeletion rid note = .ok (o.id, db) :=
      Db.releases_found hinv.db.ids h (h.no_other_active hinv (by simp))
    obtain ⟨q', r, hq', _, hreleases⟩ :=
      Db.discardFailedRunAndBeginDeletion_ok hinv.db.ids hcommit
    rw [hid]
    refine alone_then (smooth_store hcommit trivial ?_)
    exact Outcome.done hready (releases_alone hinv hregular h hq' hreleases)
  · exact review_refused hinv hwrong hready (Outcome.refused hready)

/-- The transaction of a reprocessing: the run is superseded and its successor queued. -/
theorem Db.Lawful.reprocess_found {dropped : List Nat} (hlawful : s.db.Lawful dropped)
    (h : s.estate.Awaits rid [.awaitingQa, .failed] q o)
    (halone : s.db.hasOtherActiveRuns o.id rid = false) (note : String) :
    ∃ new mid db, s.db.reprocessRunAndCreate rid (outputDir o.id (q.attempt + 1) ++ ["product"])
        (processLog o.id (q.attempt + 1)) note = .ok (new, db) ∧
      RunStep s.db mid q (judged q .superseded "reprocess" note) ∧
      RunAdded mid db (q.successor (mid.runSeq + 1)) := by
  have hrun : s.db.run? rid = some q := h.run
  have hobs : s.db.obs? q.observationId = some o := h.obs
  have hid : o.id = q.observationId := (mem_of_obs? hobs).2
  have hstate : q.state = .awaitingQa ∨ q.state = .failed := by simpa using h.state
  have htarget : ∀ complaint, s.db.qaTarget rid [.awaitingQa, .failed] complaint = .ok (q, o) := by
    intro complaint
    simp [qaTarget, hrun, hstate, hobs, h.stored, halone]
  have hlegal : RunState.superseded ∈ runTransitions q.state := by
    rcases hstate with hs | hs <;> simp [hs, runTransitions]
  obtain ⟨mid, hmid⟩ : ∃ mid, s.db.decideRun rid q.state .superseded "reprocess" note
      "human requested reprocessing" = .ok mid := guardedRun_found hlawful.ids hrun _ _
  obtain ⟨-, step⟩ := decideRun_ok hlawful.ids hrun hmid
  have hsplit : s.db.reprocessRunAndCreate rid (outputDir o.id (q.attempt + 1) ++ ["product"])
      (processLog o.id (q.attempt + 1)) note = mid.insertRun o.id (q.attempt + 1)
        (outputDir o.id (q.attempt + 1) ++ ["product"]) (processLog o.id (q.attempt + 1))
        "created by reprocess" := by
    simp [reprocessRunAndCreate, htarget, bind, Except.bind, hlegal, hmid]
  obtain ⟨new, db, hcommit⟩ := hlawful.reprocess_ok hrun hstate hobs h.stored (hid ▸ halone)
    (outputDir o.id (q.attempt + 1) ++ ["product"]) (processLog o.id (q.attempt + 1)) note
  have hadded := insertRun_ok (hsplit.symm.trans hcommit)
  rw [hid] at hadded
  exact ⟨new, mid, db, hcommit, step, hadded⟩

theorem reprocessRun_alone (hinv : Inv T s) (note : String) :
    Alone (Command.body (.reprocess rid note)) (Outcome (.reprocess rid note) s) s := by
  have hwrong : ∀ q : ProcessingRun, (q.state ≠ .awaitingQa ∧ q.state ≠ .failed) ↔
      q.state ∉ [.awaitingQa, .failed] := by simp
  by_cases hready : (Command.reprocess rid note).Ready s.estate
  · obtain ⟨q, o, h⟩ := id hready
    have hid : q.id = rid := (Db.mem_of_run? (show s.db.run? rid = some q from h.run)).2
    obtain ⟨new, mid, db, hcommit, step, hadded⟩ :=
      hinv.db.reprocess_found h (h.no_other_active hinv (by simp)) note
    refine .then (review_ready (Q := fun x t => ∃ a, x = .ok a ∧ Outcome _ s (.ok ()) t) hinv hwrong
      (by simp) h ?_)
    rw [hid]
    have hquery : (Query.reprocessRunAndCreate rid (outputDir o.id (q.attempt + 1) ++ ["product"])
        (processLog o.id (q.attempt + 1)) note).run s.db = .ok (new, db) := hcommit
    refine smooth_store (K := fun _ => True) hquery trivial
      (.inl ⟨hready, rfl, q, o, mid.runSeq + 1, h, fun x hx => ?_, ?_, ?_, rfl⟩)
    · have hle := hinv.db.ids.runBound x hx
      rw [step.runSeq]
      omega
    · exact hadded.rows.trans (congrArg (· ++ _) step.rows)
    · exact hadded.observations.trans step.observations
  · refine .bind (review_refused (Q := fun x t => ∃ e, x = .error e ∧ t = s) hinv hwrong hready
      fun e => ⟨e, rfl, rfl⟩) ?_ ?_
    · rintro a t ⟨e, he, _⟩
      cases he
    · rintro e t ⟨_, _, rfl⟩
      exact Outcome.refused hready e

end Verdicts

section Files

theorem dropCopy_alone {p : Path} {P : Unit → Shared → Prop}
    (hP : ∀ t : Shared, t.db = s.db → t.disk = s.disk.emptied p → P () t) :
    Smooth .cli (fun _ => True) (dropCopy p) P s := by
  refine .then (smooth_exists (K := fun _ => True) trivial ?_)
  cases hhas : s.disk.has p with
  | false => exact .pure (hP s rfl (Disk.emptied_of_gone (Disk.has_eq_false.mp hhas)).symm)
  | true =>
    refine removeTree_smooth (K := fun _ => True) hhas (fun _ _ _ => trivial) trivial trivial
      fun t hdb hdisk => ?_
    exact hP t hdb (hdisk.trans (Disk.emptied_of_has hhas).symm)

theorem dropCopies_alone {p q : Path} {P : Unit → Shared → Prop}
    (hP : ∀ t : Shared, t.db = s.db → t.disk = (s.disk.emptied p).emptied q → P () t) :
    Smooth .cli (fun _ => True) (Prog.forEach [p, q] dropCopy) P s := by
  refine .then (dropCopy_alone fun t hdb hdisk => ?_)
  refine .then (dropCopy_alone fun u hdb' hdisk' => ?_)
  exact .pure (hP u (hdb'.trans hdb) (hdisk'.trans (by rw [hdisk])))

theorem resolveObservationDrop_alone (hinv : Inv T s) (hregular : s.estate.Regular) (oid : Nat) :
    Alone (resolveObservationDrop oid) (Outcome (.resolve oid) s) s := by
  cases hobs : s.db.obs? oid with
  | none =>
    refine alone_raise (getObservation_missing hobs) (Outcome.refused ?_ _)
    rintro ⟨o, ho, _⟩
    have hfound : s.db.obs? oid = some o := ho
    rw [hobs] at hfound
    cases hfound
  | some o =>
    have hid : o.id = oid := (Db.mem_of_obs? hobs).2
    have hfound : s.estate.obs? o.id = some o := by
      rw [hid]
      exact hobs
    refine alone_then (smooth_look (getObservation_present hobs) trivial ?_)
    by_cases hstate : o.state = .deleting ∨ o.state = .inconsistent
    · rw [if_neg (by tauto)]
      obtain ⟨n, hn⟩ := hregular.msPath o (Estate.mem_of_obs? hfound).1
      refine alone_then (dropCopies_alone fun t hdb hdisk => ?_)
      refine alone_then (invalidateAuxiliaryCache_smooth trivial fun u hdb' hdisk' => ?_)
      have hestate : u.estate =
          { s.estate with disk := (s.disk.emptied o.msPath).emptied (trashPath o.id) } :=
        estate_files (hdb'.trans hdb) (hdisk'.trans hdisk)
      have ids : u.db.Ids := (hdb'.trans hdb) ▸ hinv.db.ids
      have hlegal : ObservationState.deleted ∈ obsTransitions o.state := by
        rcases hstate with hs | hs <;> simp [hs, obsTransitions]
      have hclear : s.disk.Cleared u.disk [o.msPath, trashPath o.id] := by
        have hemptied := Disk.cleared_emptied (d := s.disk) (p := o.msPath) (q := trashPath o.id)
          (by simp [hn]) (by simp [trashPath]) (by simp [hn, trashPath])
        rwa [← hdisk, ← hdisk'] at hemptied
      refine Outcome.done ⟨o, hobs, hstate⟩ (transitionObservation_smooth (K := fun _ => True) ids
        (by rw [hestate]; exact hfound) rfl hlegal rfl trivial fun t _ ht => ?_)
      refine ⟨o, hobs, ?_, ?_, ?_⟩
      · rw [ht, hestate]
        rfl
      · rw [ht, hestate]
        rfl
      · rw [ht]
        exact hclear
    · rw [if_pos (by tauto)]
      refine Outcome.refused ?_ _
      rintro ⟨r, hr, hrstate⟩
      have hsame : s.db.obs? oid = some r := hr
      rw [hobs] at hsame
      cases hsame
      exact hstate hrstate

theorem quarantinePurge_alone (hregular : s.estate.Regular) (name : String) :
    Alone (quarantinePurge name) (Outcome (.purge name) s) s := by
  refine alone_then (smooth_exists trivial ?_)
  cases hhas : s.disk.has (quarantineEntry name) with
  | false =>
    refine Outcome.refused (fun hready => ?_) _
    have hthere : s.disk.has (quarantineEntry name) = true := hready
    rw [hhas] at hthere
    cases hthere
  | true =>
    refine Outcome.done hhas (.then (removeTree_smooth (K := fun _ => True) hhas
      (fun _ _ _ => trivial) trivial trivial fun t hdb hdisk => ?_))
    refine invalidateAuxiliaryCache_smooth (K := fun _ => True) trivial fun u hdb' hdisk' => ?_
    have hestate : u.estate =
        { s.estate with disk := s.disk.put (quarantineEntry name) none } :=
      estate_files (hdb'.trans hdb) (hdisk'.trans hdisk)
    rw [hestate]
    refine ⟨rfl, rfl, fun p hp => ?_, fun q hq => ?_⟩
    · rw [List.mem_singleton.mp hp]
      exact Disk.get?_put_self (p := ["quarantine"]) (hregular.stands _ (by simp [layout]))
    · exact Disk.get?_put_apart _ _ (hq _ (by simp))

end Files

end Sdpctl
