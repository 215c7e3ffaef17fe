import Sdpctl.Programs.Moving

/-!
`_process`, verified: whatever happens, the worker owns its task until it
finishes it.
-/

namespace Sdpctl

open FileTree Coop

variable {T : Terms} {r : Role} {P A : Shared → Prop}

theorem endTask_rule {task : Nat} {body : M (Option Entry)} (hfirm : Firm T r A)
    (hfin : ∀ s, Inv T s → A s → Finishes r s task)
    (hbody : Verified T r P body (fun next s => match next with
      | some n => pre r n s
      | none => A s) fun _ => A) :
    Verified T r P (endTask task body) (fun next s => ∀ n, next = some n → pre r n s)
      (fun _ _ => True) := by
  have hfinish : ∀ {E : Exn → Shared → Prop},
      Verified T r A (call (.finish task)) (fun _ _ => True) E := by
    intro E
    refine Logic.Triple.call (hfirm.stable rfl) fun s c hinv hA _ =>
      ⟨hfin s hinv hA, fun x s' hx _ => ?_⟩
    cases c <;> cases hx
    trivial
  refine .bind (.catchAll hbody fun e => .bind hfinish fun _ => .raise fun _ _ _ => trivial)
    fun next => ?_
  cases next with
  | some n => exact .pure fun s _ h m heq => Option.some.inj heq ▸ h
  | none => exact .bind hfinish fun _ => .pure fun _ _ _ _ heq => by cases heq

theorem ownsRun_patient (task rid : Nat) : Patient T (.process task rid) (OwnsRun task rid) :=
  fun _ _ _ hk _ _ h => (hk.mine h).1

theorem ownsRun_frame (task rid : Nat) : Frame T (.process task rid) (OwnsRun task rid) :=
  ⟨(ownsRun_patient task rid).firm (by simp), fun _ _ _ _ _ _ h => h⟩

section Process

variable (task rid : Nat)

def Claimed (run : ProcessingRun) (s : Shared) : Prop :=
  OwnsRun task rid s ∧ ∃ q, s.db.run? rid = some q ∧ q.state = .running ∧
    q.observationId = run.observationId ∧ q.attempt = run.attempt

theorem claimed_patient (run : ProcessingRun) :
    Patient T (.process task rid) (Claimed task rid run) := by
  rintro s s' _ hk _ _ ⟨howns, q, hq, hs, hrow⟩
  obtain ⟨howns', hrun⟩ := hk.mine howns
  exact ⟨howns', q, hrun q hq hs, hs, hrow⟩

theorem Claimed.writes {run : ProcessingRun} {s : Shared} (h : Claimed task rid run s) {dir : Path}
    (hdir : dir = outputDir run.observationId run.attempt) : WritesTo s dir := by
  obtain ⟨_, q, hq, hs, howner, hattempt⟩ := h
  exact ⟨q, (Db.mem_of_run? hq).2.symm ▸ hq, hs, by rw [hdir, howner, hattempt]⟩

/-- The claim at the start: the run is running, or somebody else has moved it. -/
theorem claimRun_rule (run : ProcessingRun) :
    Verified T (.process task rid) (fun s => OwnsRun task rid s ∧ ∃ q, s.db.run? rid = some q ∧
        q.observationId = run.observationId ∧ q.attempt = run.attempt) (claimRun rid)
      (fun b s => OwnsRun task rid s ∧ (b = true → Claimed task rid run s))
      (fun _ => OwnsRun task rid) := by
  have hfirm := (ownsRun_frame (T := T) task rid).firm.and
    (Lasting.firm (r := .process task rid) (runKept_lasting rid run))
  refine .catchAll (E := fun _ => OwnsRun task rid) (.bind (Q := fun _ s => OwnsRun task rid s ∧
    Claimed task rid run s) (transitionRun_rule (by decide) hfirm ?_ ?_ fun _ _ _ h _ => h.1)
    fun _ => .pure fun _ _ h => ⟨h.1, fun _ => h.2⟩) fun e => ?_
  · rintro s hinv ⟨howns, _⟩ q hq hstate
    have hid := (Db.mem_of_run? hq).2
    exact .start task (by rw [hid]) (by rw [hid]; exact howns) hstate rfl
  · rintro s db q hinv ⟨howns, q₀, hq₀, howner, hattempt⟩ hid hstate step
    have hafter : db.run? rid =
        some { q with state := .running, exitCode := none <|> q.exitCode } := by
      rw [step.run?, if_pos hid.symm]
    have hbefore : s.db.run? rid = some q := hid ▸ step.found
    rw [hq₀] at hbefore
    cases hbefore
    exact ⟨howns, howns, _, hafter, rfl, howner, hattempt⟩
  · split
    · exact .pure fun _ _ h => ⟨h, by simp⟩
    · exact .raise fun _ _ h => h

theorem settle_rule {expected new : RunState} {reason : String} {code : Option Int}
    (hmove : (expected = .running ∧ (new = .failed ∨ new = .awaitingQa)) ∨
      (expected = .queued ∧ new = .failed)) :
    Verified T (.process task rid) (OwnsRun task rid)
      (store (.transitionRun rid expected new reason code)) (fun _ => OwnsRun task rid)
      (fun e s => OwnsRun task rid s ∧ Refused e True) := by
  have hframe := ownsRun_frame (T := T) task rid
  refine transitionRun_rule ?_ hframe.firm ?_ (fun s db _ _ h _ _ _ => hframe.db db h)
    fun s e _ h he => ⟨h, he.imp_right fun h => ⟨h.1, trivial⟩⟩
  · rcases hmove with ⟨rfl, rfl | rfl⟩ | ⟨rfl, rfl⟩ <;> decide
  · rintro s hinv howns q hq hstate
    have hid := (Db.mem_of_run? hq).2
    rcases hmove with ⟨rfl, hnew⟩ | ⟨rfl, rfl⟩
    · exact .settle task (by rw [hid]) (by rw [hid]; exact howns) hstate hnew
    · exact .giveUp task (by rw [hid]) (by rw [hid]; exact howns) hstate rfl

theorem processRun_rule :
    Verified T (.process task rid) (OwnsRun task rid) (processRun rid)
      (fun _ => OwnsRun task rid) (fun _ => OwnsRun task rid) := by
  have hframe := ownsRun_frame (T := T) task rid
  have hsettle : ∀ {new : RunState} {reason : String} {code : Option Int},
      new = .failed ∨ new = .awaitingQa → Verified T (.process task rid) (OwnsRun task rid)
        (store (.transitionRun rid .running new reason code)) (fun _ => OwnsRun task rid)
        (fun _ => OwnsRun task rid) :=
    fun hnew => (settle_rule task rid (.inl ⟨rfl, hnew⟩)).exc fun _ _ _ h => h.1
  refine .bind (getRun_rule rid hframe.firm) fun run => ?_
  refine .pre (.assume fun hout : run.outputPrefix = _ => ?_) fun s hinv h =>
    ⟨hinv.db.outputPrefix rid run h.2, h⟩
  refine .bind ((claimRun_rule task rid run).pre fun s _ h => ⟨h.1, run, h.2, rfl, rfl⟩)
    fun b => .ite (fun hb => ?_) fun _ => .pure fun _ _ h => h.1
  have hpatient := claimed_patient (T := T) task rid run
  have hclaimed : Firm T (.process task rid) (Claimed task rid run) := hpatient.firm (by simp)
  have hgive : ∀ s, Claimed task rid run s → OwnsRun task rid s := fun _ h => h.1
  refine .bind (((getObservation_rule run.observationId hclaimed).pre fun s _ h => h.2 hb).exc
    fun _ _ _ h => h.1) fun obs => ?_
  rintro s hinv ⟨h, hobs⟩
  have hid : obs.id = run.observationId := (Db.mem_of_obs? hobs).2
  refine Logic.Triple.bind (Q := fun _ => Claimed task rid run) (Verified.look rfl hclaimed ?_ ?_)
    (fun _ => ?_) s hinv h
  · rintro s _ hclaim
    obtain ⟨_, q, hq, hstate, howner, _⟩ := id hclaim
    exact ⟨⟨task, rfl⟩, ⟨q, hq, hstate, howner.trans hid.symm⟩,
      hclaim.writes task rid (by simp [hout, parent])⟩
  · intro s c x s' _ h _ hx
    cases c <;> cases hx
    exact ⟨rfl, h⟩
  refine .bind (Q := fun _ => Claimed task rid run) (wait_rule (by simp) hpatient
    (fun _ _ _ => trivial) fun s c x s' _ h hx => ?_) fun rc => ?_
  · cases c <;> cases hx
    · exact ⟨rfl, h.1⟩
    · exact ⟨rfl, h⟩
  refine .ite (fun _ => (hsettle (.inl rfl)).pre fun s _ => hgive s) fun _ => ?_
  refine .bind ((exists_rule _ hclaimed).exc fun _ _ _ h => h.1.1) fun b => .ite (fun _ => ?_)
    fun _ => (hsettle (.inl rfl)).pre fun s _ h => hgive s h.1
  refine .bind (Q := fun _ => OwnsRun task rid) (.pre ?_ fun _ _ h => h.1)
    fun reason => hsettle (.inr rfl)
  refine .catchAll (E := fun _ => OwnsRun task rid) (.bind (Q := fun _ => OwnsRun task rid)
    (Verified.look rfl hclaimed (fun s _ h => ?_) fun s c x s' _ h _ hx => ?_)
    fun _ => .pure fun _ _ h => h) fun e => ?_
  · exact h.writes task rid (by simp [hout, parent])
  · cases c <;> cases hx <;> exact ⟨rfl, h.1⟩
  · exact .bind (note_rule _ hframe fun _ => trivial) fun _ => .pure fun _ _ h => h

/-- The handler of `_process`. -/
theorem failProcess_rule (e : Exn) :
    Verified T (.process task rid) (OwnsRun task rid) (failProcess rid e)
      (fun _ => OwnsRun task rid) (fun _ => OwnsRun task rid) := by
  have hframe := ownsRun_frame (T := T) task rid
  have hfind : Verified T (.process task rid) (OwnsRun task rid) (findRun rid)
      (fun _ => OwnsRun task rid) (fun _ => OwnsRun task rid) := by
    refine .catchAll (.bind ((getRun_rule rid hframe.firm).post fun _ _ _ h => h.1) fun _ =>
      .pure fun _ _ h => h) fun e => ?_
    split
    · exact .pure fun _ _ h => h
    · exact .raise fun _ _ h => h
  refine .bind hfind fun found => ?_
  cases found with
  | none => exact .pure fun _ _ h => h
  | some run =>
    refine .ite (fun _ => ?_) fun _ => .ite (fun _ => ?_) fun _ => ?_
    · exact suppressTransitionError_rule (settle_rule task rid (.inr ⟨rfl, rfl⟩))
        (fun _ _ h _ => h) fun _ _ h => h
    · exact suppressTransitionError_rule (settle_rule task rid (.inl ⟨rfl, .inl rfl⟩))
        (fun _ _ h _ => h) fun _ _ h => h
    · exact note_rule _ hframe fun _ => trivial

/-- `_process`, from the start of its task to its end. -/
theorem process_rule (cfg : Config) :
    Verified T (.process task rid) (OwnsRun task rid) (Entry.process cfg task rid).code
      (fun next s => ∀ n, next = some n → pre (.process task rid) n s) (fun _ _ => True) := by
  have hframe := ownsRun_frame (T := T) task rid
  have hpatient := ownsRun_patient (T := T) task rid
  have hslots : ∀ {o : Op} (ho : o = .acquire ∨ o = .release), Verified T (.process task rid)
      (OwnsRun task rid) (call o) (fun _ => OwnsRun task rid) (fun _ => OwnsRun task rid) := by
    intro o ho
    refine Logic.Triple.call (hpatient.stable (by simp)) fun s c hinv h _ => ⟨?_,
      fun x s' hx _ => ?_⟩
    · rcases ho with rfl | rfl <;> exact Role.noConfusion
    · rcases ho with rfl | rfl
      · simp only [system, exec] at hx
        split at hx
        · cases hx
        · cases c <;> cases hx
          exact hframe.free _ h
      · cases c <;> cases hx
        exact hframe.free _ h
  refine endTask_rule hframe.firm (fun s _ h => .process rid rfl h) ?_
  refine .bind (pause_rule (.inl rfl) (by simp) hpatient) fun _ => ?_
  refine .bind (Q := fun _ => OwnsRun task rid) (.catchAll (E := fun _ => OwnsRun task rid) ?_
    fun e => failProcess_rule task rid e) fun _ => .pure fun _ _ h => h
  refine .bind (hslots (.inl rfl)) fun _ => ?_
  exact .finallyDo (processRun_rule task rid) (fun _ => hslots (.inr rfl))
    fun _ => hslots (.inr rfl)

end Process

end Sdpctl
