import Sdpctl.Properties.Backed

/-!
What the operator is shown. The query behind `qa list` looks at the run alone,
the actions look at the run, its observation and its siblings. They agree as
long as no observation is lost under a run that is shown, or will be.
-/

namespace Sdpctl

open FileTree Coop

variable {T : Terms} {s : Shared}

/-- The kind of a run that is on the list, or gets there without a look at its
observation. -/
def Listable (q : ProcessingRun) : Prop :=
  q.state = .queued ∨ q.state = .running ∨ q.state = .awaitingQa ∨
    (q.state = .failed ∧ q.retryExhausted = true)

theorem listable_openKind : OpenKind Listable where
  undecided h := by
    rcases h with hs | hs | hs | ⟨hs, _⟩ <;> simp [hs, RunState.Decided]
  entered move _ _ := by
    cases move with
    | start _ _ _ before | giveUp _ _ _ before => exact .inl (.inl before)
    | settle _ _ _ before | orphaned _ _ before => exact .inl (.inr (.inl before))
    | retry role stored => exact .inr stored

theorem mem_listQaItems {db : Db} {q : ProcessingRun} : q ∈ listQaItems db ↔
    q ∈ db.processingRuns ∧
      (q.state = .awaitingQa ∨ (q.state = .failed ∧ q.retryExhausted = true)) := by
  simp [listQaItems, Db.listHumanActionableRuns]

/-- A stored observation becomes `INCONSISTENT` only when none of its runs can be
listed any more, and only runs of stored observations are marked exhausted. -/
def curated : Limits where
  terms := .any
  run o c s := ∀ q, o = .db q → c = .ok →
    (∀ oid, q.loses oid = true → s.db.InState oid .stored →
      ∀ x ∈ s.db.runsOf oid, ¬ Listable x) ∧
    ∀ x ∈ s.db.processingRuns, q.marks s.db x = true → s.db.InState x.observationId .stored

theorem listable_keeps : curated.Keeps fun s => True ∧ s.db.Backed Listable :=
  Limits.keeps_tables curated.keeps_true (fun _ _ h => by cases h)
    fun hinv _ h _ hallowed hlimit hrun => h.call listable_openKind hinv hallowed
      (hlimit _ rfl rfl).1 (fun x hx hmark _ => .inr ((hlimit _ rfl rfl).2 x hx hmark))
      (.of_run hinv.db.ids hrun)

/-- The only open run of an observation has no other active run beside it. -/
theorem Inv.no_other_active (hinv : Inv T s) {rid : Nat} {q : ProcessingRun}
    (hq : s.db.run? rid = some q) (hopen : q.state ≠ .superseded) :
    s.db.hasOtherActiveRuns q.observationId rid = false := by
  refine List.any_eq_false.mpr fun x hx hother => ?_
  simp only [Bool.and_eq_true, bne_iff_ne, ne_eq, Db.isActive, activeRunStates, decide_eq_true_eq,
    List.mem_cons, List.not_mem_nil, or_false] at hother
  obtain ⟨hne, hactive⟩ := hother
  have hxopen : x.state ≠ .superseded := by rcases hactive with hs | hs | hs <;> simp [hs]
  have hsame := (hinv.db.chain _).unique hx (Db.Lawful.mem_runsOf_of_run? hq) hxopen hopen
  exact hne (hsame ▸ (Db.mem_of_run? hq).2)

/-- As long as no observation is lost under a run that an operator may be shown,
every listed run belongs to a stored observation, is alone there, and can be
reprocessed. -/
theorem qa_list_actionable {w : World Op.Reply Exn Shared Role Entry} (h : curated.Reach w) :
    ∀ q ∈ listQaItems w.shared.db,
      (∃ o, w.shared.db.obs? q.observationId = some o ∧ o.state = .stored) ∧
      w.shared.db.hasOtherActiveRuns q.observationId q.id = false ∧
      ∀ outputPrefix logPath note, ∃ new db',
        w.shared.db.reprocessRunAndCreate q.id outputPrefix logPath note = .ok (new, db') := by
  intro q hq
  have hinv := h.inv
  obtain ⟨hmem, hlisted⟩ := mem_listQaItems.mp hq
  have hfound := hinv.db.ids.run? hmem
  obtain ⟨o, ho, hstored⟩ := (h.keeps listable_keeps).2 q.id q hfound (.inr (.inr hlisted))
  have hopen : q.state ≠ .superseded := by
    rcases hlisted with hs | ⟨hs, _⟩ <;> simp [hs]
  have halone := hinv.no_other_active hfound hopen
  exact ⟨⟨o, ho, hstored⟩, halone,
    hinv.db.reprocess_ok hfound (hlisted.imp_right And.left) ho hstored halone⟩

def marks (s : Shared) : Op → Bool
  | .db q => s.db.processingRuns.any (q.marks s.db)
  | _ => false

def smallProducts : Tree := .dir 9 [("product-image.fits", .file 10 [0])]

def firstReview : List (Label Role Entry Choice Env) :=
  firstRun ++ steps 3 6 ++ [.env (.product 1 1 smallProducts), .run 3 (.exit 0)] ++ steps 3 5

/-- The first run waits for QA in a run of the system that loses no data: it is listed, and
`reprocess` can be committed on it. -/
theorem qa_list_actionable_first : ∃ w q, curated.Reach w ∧ q ∈ listQaItems w.shared.db ∧
    ∃ new db', w.shared.db.reprocessRunAndCreate q.id [] [] "again" = .ok (new, db') := by
  obtain ⟨w, hreach, htest⟩ := curated.reach_of_replay
    (avoiding fun s o => loses o || marks s o)
    (fun w l h => avoiding_ok h
      (fun o c s hno q ho _ => by
        subst ho
        simp only [Bool.or_eq_false_iff] at hno
        refine ⟨fun oid hloses => ?_, fun x hx hmark => ?_⟩
        · simp [loses_of rfl hloses] at hno
        · exact absurd hmark (List.any_eq_false.mp hno.2 x hx))
      (fun _ _ _ _ _ => trivial) fun _ _ _ => trivial)
    firstReview (fun w => !(listQaItems w.shared.db).isEmpty) (by decide +kernel)
  obtain ⟨q, hq⟩ := List.exists_mem_of_ne_nil (listQaItems w.shared.db) (by simpa using htest)
  exact ⟨w, q, hreach, hq, (qa_list_actionable hreach q hq).2.2 [] [] "again"⟩

/-- The raw data gets lost under the run that waits for QA, and a restart finds it. -/
def lostInReview : List (Label Role Entry Choice Env) :=
  firstReview ++ [.env (.loss 1), .crash, .enter .main (.run smallConfig)] ++ steps 4 13 ++
    [.run 4 (.order [])]

/-- The data of the first observation gets lost while its run is `AWAITING_QA`, and the
controller restarts. The observation becomes `INCONSISTENT`, and its run stays on the list. -/
theorem qa_list_stale : ¬ ∀ w, unlimited.Reach w → ∀ q ∈ listQaItems w.shared.db,
    ∃ o, w.shared.db.obs? q.observationId = some o ∧ o.state = .stored := by
  intro hall
  obtain ⟨w, hreach, htest⟩ := unlimited.reach_of_replay (fun _ _ => true)
    (fun _ l _ => unlimited_ok l) lostInReview
    (fun w => ((listQaItems w.shared.db).any fun q => q.observationId == 1) &&
      (w.shared.db.obs? 1).any fun o => o.state == .inconsistent) (by decide +kernel)
  simp only [Bool.and_eq_true, List.any_eq_true, Option.any_eq_true, beq_iff_eq] at htest
  obtain ⟨⟨q, hq, howner⟩, o, ho, hlost⟩ := htest
  obtain ⟨o', ho', hstored⟩ := hall w hreach q hq
  rw [howner, ho] at ho'
  cases ho'
  rw [hlost] at hstored
  cases hstored

end Sdpctl
