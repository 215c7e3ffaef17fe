import Sdpctl.Programs.Tables
import Sdpctl.Properties.RunChain

/-!
Runs and the data they need. A restart that finds raw data missing moves the
observation on without a look at its runs. As long as that happens only to
observations whose runs do not mind, every run that may still use raw data, and
every run that an operator may be shown, belongs to a stored observation.
-/

namespace Sdpctl

open FileTree Coop

variable {T : Terms} {r : Role} {s : Shared} {db' : Db}

/-- Every run of the kind belongs to a stored observation, whose raw data the runner is to read.
-/
def Db.Backed (kind : ProcessingRun → Prop) (db : Db) : Prop :=
  ∀ rid q, db.run? rid = some q → kind q → db.InState q.observationId .stored

/-- A kind of open runs that a run enters only with its observation stored. -/
structure OpenKind (kind : ProcessingRun → Prop) : Prop where
  undecided : ∀ {q}, kind q → ¬ q.state.Decided
  entered : ∀ {r s q q'}, RunMove r s q q' → q'.retryExhausted = q.retryExhausted → kind q' →
    kind q ∨ s.db.InState q.observationId .stored

/-- The method takes a stored observation to `INCONSISTENT`. -/
def Query.loses (oid : Nat) : Query → Bool
  | .transitionObservation i .stored .inconsistent _ _ _ _ => i == oid
  | _ => false

namespace Db.Backed

variable {kind : ProcessingRun → Prop}

theorem runs (hobs : ∀ i, db'.obs? i = s.db.obs? i)
    (hruns : ∀ rid q, db'.run? rid = some q → kind q → s.db.InState q.observationId .stored) :
    db'.Backed kind := by
  intro rid q hq hkind
  obtain ⟨o, ho, hs⟩ := hruns rid q hq hkind
  exact ⟨o, by rw [hobs]; exact ho, hs⟩

theorem last (hkind : OpenKind kind) (hinv : Inv T s) {rid : Nat} {q x : ProcessingRun}
    (hq : s.db.run? rid = some q) (hopen : kind q) (hx : x ∈ s.db.runsOf q.observationId)
    (hlast : x.state ≠ .superseded) : x = q := by
  have hundecided := hkind.undecided hopen
  refine (hinv.db.chain _).unique hx (Db.Lawful.mem_runsOf_of_run? hq) hlast fun hs => ?_
  exact hundecided (.inr (.inl hs))

/-- A row of the observation table changes, and none that the kind rests on is lost. -/
theorem observation (hinv : Inv T s) (h : s.db.Backed kind)
    {o o' : Observation} (step : Db.ObsStep s.db db' o o') (move : ObsMove T r s o o')
    (hkept : o.state = .stored → o'.state = .inconsistent →
      ∀ q ∈ s.db.runsOf o.id, ¬ kind q) : db'.Backed kind := by
  intro rid q hq hopen
  rw [step.run?] at hq
  refine (h rid q hq hopen).obsStep step fun howner hstored => ?_
  cases move with
  | note role state => rw [state, hstored]
  | claim _ _ _ before | abandon _ _ _ before | fail _ _ before | complete _ _ _ _ before =>
    simp [before] at hstored
  | repair role before after size reserved released =>
    rcases hinv.db.released o.id o (step.id ▸ step.found) released with hs | hs <;>
      simp [hs] at hstored
  | miss role before after =>
    have hmem := Db.Lawful.mem_runsOf_of_run? hq
    rw [← howner, ← step.id] at hmem
    exact absurd hopen (hkept before after q hmem)
  | delete role before =>
    rcases before with hs | hs <;> simp [hs] at hstored

/-- The observation of a run with a verdict is given up; the kind does not rest on it. -/
theorem released (hkind : OpenKind kind) (hinv : Inv T s) (h : s.db.Backed kind) {oid : Nat}
    {q q' : ProcessingRun} {o : Observation} (step : Db.Releases s.db db' oid q q' o) :
    db'.Backed kind := by
  obtain ⟨mid, hrun, hobs⟩ := step.steps
  have hqopen : q.state ≠ .superseded := by rcases step.open_ with hs | hs <;> simp [hs]
  intro rid x hx hopen
  rw [hobs.run?, hrun.run?] at hx
  split at hx
  · cases hx
    exact absurd (step.decided.imp_right .inr) (hkind.undecided hopen)
  · rename_i hne
    refine InState.obsStep ?_ hobs fun howner _ => ?_
    · obtain ⟨p, hp, hs⟩ := h rid x hx hopen
      exact ⟨p, by rw [hrun.obs?]; exact hp, hs⟩
    · have hmem := Db.Lawful.mem_runsOf_of_run? (hrun.id ▸ hrun.found)
      rw [step.owner, ← step.obsId, show o.id = x.observationId from howner] at hmem
      have hsame := last hkind hinv hx hopen hmem hqopen
      exact absurd ((Db.mem_of_run? hx).2.symm.trans (hsame ▸ hrun.id)) hne

/-- What a call keeps, when nothing that the kind rests on is lost or marked. -/
theorem call (hkind : OpenKind kind) (hinv : Inv T s) {q : Query}
    (hallowed : allowedQuery T r s q)
    (hkept : ∀ oid, q.loses oid = true → s.db.InState oid .stored →
      ∀ x ∈ s.db.runsOf oid, ¬ kind x)
    (hmarked : ∀ x ∈ s.db.processingRuns, q.marks s.db x = true →
      kind { x with retryExhausted := true } → kind x ∨ s.db.InState x.observationId .stored)
    (call : Db.Call s.db q db') (h : s.db.Backed kind) : db'.Backed kind := by
  have hmark : ∀ {hit}, Db.Marked s.db db' hit → q.marks s.db = hit → db'.Backed kind := by
    intro hit step hhit
    refine runs step.obs? fun rid x hx hopen => ?_
    rw [step.run?] at hx
    obtain ⟨y, hy, rfl⟩ := Option.map_eq_some_iff.mp hx
    rw [Db.mark_observationId]
    unfold Db.mark at hopen
    split at hopen
    · rename_i hy'
      rcases hmarked y (Db.mem_of_run? hy).1 (hhit ▸ hy') hopen with hold | hstored
      · exact h rid y hy hold
      · exact hstored
    · exact h rid y hy hopen
  cases call with
  | same | unforced => exact h
  | noted => exact h
  | admitted step =>
    intro rid x hx hopen
    rw [step.run?] at hx
    obtain ⟨o, ho, hs⟩ := h rid x hx hopen
    refine ⟨o, ?_, hs⟩
    rw [step.obs? hinv.db.ids, if_neg]
    · exact ho
    · intro heq
      exact step.fresh hinv.db.ids o (Db.mem_of_obs? ho).1 ((Db.mem_of_obs? ho).2.trans heq)
  | observation legal id before step =>
    rename_i oid expected new _ _ _ _ o
    refine h.observation hinv step (hallowed o (id ▸ step.found) before) fun hs hlost => ?_
    obtain rfl := id
    obtain rfl : expected = .stored := before.symm.trans hs
    obtain rfl : new = .inconsistent := hlost
    exact hkept o.id (by simp [Query.loses]) ⟨o, step.found, hs⟩
  | forced id step => exact h.observation hinv step (.note hallowed.1 rfl rfl (by
      simp [hallowed.2])) fun hs hlost => by simp [hs] at hlost
  | created owner attempt path unjudged step =>
    refine runs step.obs? fun rid x hx hopen => ?_
    rw [step.run? hinv.db.ids] at hx
    split at hx
    · cases hx
      rw [owner]
      exact hallowed.stored
    · exact h rid x hx hopen
  | run legal id before step =>
    refine runs step.obs? fun rid x hx hopen => ?_
    rcases Db.Lawful.runStep_cases step hx with rfl | hx
    · exact (hkind.entered (hallowed _ (id ▸ step.found) before) rfl hopen).elim
        (h _ _ step.found) fun hstored => hstored
    · exact h rid x hx hopen
  | exhausted step => exact hmark step rfl
  | marked step => exact hmark step rfl
  | accepted id before step | discarded id before step => exact h.released hkind hinv step
  | reprocessed id found stored before step added owner attempt path unjudged =>
    refine runs (fun i => (added.obs? i).trans (step.obs? i)) fun rid x hx hopen => ?_
    rw [added.run? (step.ids hinv.db.ids)] at hx
    split at hx
    · cases hx
      rw [owner]
      exact ⟨_, found, stored⟩
    · rcases Db.Lawful.runStep_cases step hx with rfl | hx
      · exact absurd (.inr (.inl rfl)) (hkind.undecided hopen)
      · exact h rid x hx hopen

end Db.Backed

/-- The kind of a run that still has to be processed. -/
def Unprocessed (q : ProcessingRun) : Prop := q.state = .queued ∨ q.state = .running

theorem unprocessed_openKind : OpenKind Unprocessed where
  undecided h := by rcases h with hs | hs <;> simp [hs, RunState.Decided]
  entered move _ h := by
    cases move with
    | start _ _ _ before => exact .inl (.inl before)
    | settle _ _ _ _ after =>
      rcases after with after | after <;> rcases h with hs | hs <;> simp [after] at hs
    | giveUp _ _ _ _ after | orphaned _ _ _ after =>
      rcases h with hs | hs <;> simp [after] at hs
    | retry role stored => exact .inr stored

/-- A stored observation becomes `INCONSISTENT` only when none of its runs is
queued or running. -/
def attended : Limits where
  terms := .any
  run o c s := ∀ q oid, o = .db q → c = .ok → q.loses oid = true → s.db.InState oid .stored →
    ∀ x ∈ s.db.runsOf oid, ¬ Unprocessed x

theorem unprocessed_keeps : attended.Keeps fun s => True ∧ s.db.Backed Unprocessed :=
  Limits.keeps_tables attended.keeps_true (fun _ _ h => by cases h)
    fun hinv _ h _ hallowed hlimit hrun => h.call unprocessed_openKind hinv hallowed
      (fun oid hloses hstored => hlimit _ oid rfl rfl hloses hstored)
      (fun _ _ _ hopen => .inl hopen) (.of_run hinv.db.ids hrun)

/-- As long as no observation becomes `INCONSISTENT` under a queued or running run, a run is
claimed, started and under way only while its observation is `STORED`. The restart that looks
for lost data is the one step that could break this. -/
theorem processing_on_stored {w : World Op.Reply Exn Shared Role Entry} (h : attended.Reach w) :
    (∀ rid q, w.shared.db.run? rid = some q → q.state = .running →
      ∃ o, w.shared.db.obs? q.observationId = some o ∧ o.state = .stored) ∧
    (∀ (pid : Nat) p rid reason code next q, w.procs[pid]? = some p →
      p.code = .op (.db (.transitionRun rid .queued .running reason code)) next →
      w.shared.db.run? rid = some q → q.state = .queued →
      ∃ o, w.shared.db.obs? q.observationId = some o ∧ o.state = .stored) ∧
    ∀ (pid : Nat) p oid rid msPath outputPrefix logPath next, w.procs[pid]? = some p →
      p.code = .op (.startProcess oid rid msPath outputPrefix logPath) next →
      ∃ o, w.shared.db.obs? oid = some o ∧ o.state = .stored := by
  have hbacked := (h.keeps unprocessed_keeps).2
  refine ⟨fun rid q hq hs => hbacked rid q hq (.inr hs),
    fun _ _ rid _ _ _ q _ _ hq hs => hbacked rid q hq (.inl hs), ?_⟩
  intro pid p oid rid msPath outputPrefix logPath next hp hcode
  obtain ⟨_, ⟨q, hq, hs, rfl⟩, _⟩ :=
    h.allowed hp hcode (c := .ok) ⟨by simp [attended], by simp [attended]⟩
  exact hbacked rid q hq (.inr hs)

/-- The operation takes an observation to `INCONSISTENT`. -/
def loses : Op → Bool
  | .db (.transitionObservation _ .stored .inconsistent _ _ _ _) => true
  | _ => false

theorem loses_of {o : Op} {q : Query} {oid : Nat} (ho : o = .db q) (h : q.loses oid = true) :
    loses o = true := by
  subst ho
  unfold Query.loses at h
  split at h
  · rfl
  · cases h

def firstRunning : List (Label Role Entry Choice Env) := firstRun ++ steps 3 4

/-- The first run is `RUNNING` on an observation that is `STORED`, in a run of the system in
which no data is lost. -/
theorem processing_on_stored_first : ∃ w q o, attended.Reach w ∧ w.shared.db.run? 1 = some q ∧
    q.state = .running ∧ w.shared.db.obs? q.observationId = some o ∧ o.state = .stored := by
  obtain ⟨w, hreach, htest⟩ := attended.reach_of_replay (avoiding fun _ => loses)
    (fun w l h => avoiding_ok h
      (fun o c s hno q oid ho _ hloses => by simp [loses_of ho hloses] at hno)
      (fun _ _ _ _ _ => trivial) fun _ _ _ => trivial)
    firstRunning (fun w => (w.shared.db.run? 1).any fun q => q.state == .running)
    (by decide +kernel)
  obtain ⟨q, hq, hs⟩ := (Option.any_eq_true _ _).mp htest
  have hrunning := eq_of_beq hs
  obtain ⟨o, ho, hstored⟩ := (processing_on_stored hreach).1 1 q hq hrunning
  exact ⟨w, q, o, hreach, hq, hrunning, ho, hstored⟩

/-- The raw data of an observation with a queued run gets lost; a restart finds
it, and the next tick spawns the run. -/
def lostUnderway : List (Label Role Entry Choice Env) :=
  firstRun ++ [.env (.loss 1), .crash, .enter .main (.run smallConfig)] ++ steps 4 13 ++
    [.run 4 (.order [])] ++ steps 4 13 ++ steps 6 4

/-- The data of the first observation gets lost while its run is `QUEUED`, and the controller
restarts. The observation becomes `INCONSISTENT`, nobody looks at the run, and the next tick has
it claimed and processed. -/
theorem processing_on_lost : ¬ ∀ w, unlimited.Reach w → ∀ rid q,
    w.shared.db.run? rid = some q → q.state = .running →
      ∃ o, w.shared.db.obs? q.observationId = some o ∧ o.state = .stored := by
  intro hall
  obtain ⟨w, hreach, htest⟩ := unlimited.reach_of_replay (fun _ _ => true)
    (fun _ l _ => unlimited_ok l) lostUnderway
    (fun w => ((w.shared.db.run? 1).any fun q => q.state == .running && q.observationId == 1) &&
      (w.shared.db.obs? 1).any fun o => o.state == .inconsistent) (by decide +kernel)
  simp only [Bool.and_eq_true, Option.any_eq_true, beq_iff_eq] at htest
  obtain ⟨⟨q, hq, hrunning, howner⟩, o, ho, hlost⟩ := htest
  obtain ⟨o', ho', hstored⟩ := hall w hreach 1 q hq hrunning
  rw [howner, ho] at ho'
  cases ho'
  rw [hlost] at hstored
  cases hstored

end Sdpctl
