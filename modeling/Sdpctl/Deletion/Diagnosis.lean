import Sdpctl.Coop.Informed
import Sdpctl.Restart.Faults

/-!
The diagnosis that both copies of an observation exist. Only two existence tests in
a row lead to it, so a program that raises or writes it has seen the live copy and
then, with nothing in between of its own, the copy in the trash.
-/

namespace Sdpctl

open FileTree Coop

/-- What `startup_reconcile` writes on the row when a deletion finds two copies. -/
def wedgeDiagnosis (oid : Nat) : String := failureMessage (bothCopies oid) "deletion completion"

/-- What no operation of a deletion raises by itself is told apart by its type. -/
def Exn.Tame : Exn → Prop
  | .runtimeError _ | .runnerError _ => False
  | _ => True

section Tame

variable {db : Db} {e : Exn}

theorem guardedObs_tame {oid : Nat} {expected : ObservationState} {f : Observation → Observation}
    {event : Event} (h : db.guardedObs oid expected f event = .error e) : e.Tame := by
  unfold Db.guardedObs at h
  split at h
  · cases h
    trivial
  · cases h

theorem guardedRun_tame {rid : Nat} {expected : RunState} {f : ProcessingRun → ProcessingRun}
    {event : Event} (h : db.guardedRun rid expected f event = .error e) : e.Tame := by
  unfold Db.guardedRun at h
  split at h
  · cases h
    trivial
  · cases h

theorem insertRun_tame {oid attempt : Nat} {outputPrefix logPath : Path} {reason : String}
    (h : db.insertRun oid attempt outputPrefix logPath reason = .error e) : e.Tame := by
  unfold Db.insertRun at h
  split at h
  · cases h
    trivial
  · split at h
    · cases h
      trivial
    · cases h

theorem qaTarget_tame {rid : Nat} {states : List RunState} {complaint : RunState → String}
    (h : db.qaTarget rid states complaint = .error e) : e.Tame := by
  unfold Db.qaTarget at h
  split at h
  · cases h
    trivial
  · split at h
    · cases h
      trivial
    · split at h
      · cases h
        trivial
      · split at h
        · cases h
          trivial
        · split at h
          · cases h
            trivial
          · cases h

theorem bind_error {α β : Type} {x : Except Exn α} {f : α → Except Exn β}
    (h : (x >>= f) = .error e) : x = .error e ∨ ∃ a, x = .ok a ∧ f a = .error e := by
  cases x with
  | error e' =>
    cases h
    exact .inl rfl
  | ok a => exact .inr ⟨a, rfl, h⟩

/-- The transactions of accept and discard raise what their parts raise. -/
theorem verdict_tame {rid : Nat} {states : List RunState} {complaint : RunState → String}
    {expected new : RunState} {verdict note reason later : String}
    (h : (do
      let (_, obs) ← db.qaTarget rid states complaint
      let db ← db.decideRun rid expected new verdict note reason
      let db ← db.beginDeletion obs.id later
      return (obs.id, db) : Except Exn (Nat × Db)) = .error e) : e.Tame := by
  rcases bind_error h with h | ⟨⟨_, obs⟩, _, h⟩
  · exact qaTarget_tame h
  · rcases bind_error h with h | ⟨_, _, h⟩
    · exact guardedRun_tame h
    · rcases bind_error h with h | ⟨_, _, h⟩
      · exact guardedObs_tame h
      · cases h

theorem reprocess_tame {rid : Nat} {outputPrefix logPath : Path} {note : String}
    (h : db.reprocessRunAndCreate rid outputPrefix logPath note = .error e) : e.Tame := by
  rcases bind_error h with h | ⟨⟨run, obs⟩, _, h⟩
  · exact qaTarget_tame h
  · simp only at h
    split at h
    · cases h
      trivial
    · rcases bind_error h with h | ⟨_, _, h⟩
      · exact guardedRun_tame h
      · exact insertRun_tame h

/-- No method of the store raises what could be taken for the diagnosis. -/
theorem Query.run_tame {q : Query} (h : q.run db = .error e) : e.Tame := by
  cases q with
  | getObservation =>
    have h := map_error h
    unfold Db.getObservation at h
    split at h
    · cases h
    · cases h
      trivial
  | getRun =>
    have h := map_error h
    unfold Db.getRun at h
    split at h
    · cases h
    · cases h
      trivial
  | transitionObservation =>
    have h := map_error h
    unfold Db.transitionObservation at h
    split at h
    · cases h
      trivial
    · exact guardedObs_tame h
  | transitionRun =>
    have h := map_error h
    unfold Db.transitionRun at h
    split at h
    · cases h
      trivial
    · exact guardedRun_tame h
  | createRun => exact insertRun_tame h
  | acceptRunAndBeginDeletion | discardFailedRunAndBeginDeletion => exact verdict_tame h
  | reprocessRunAndCreate => exact reprocess_tame h
  | _ => cases h

variable {role : Role} {c : Choice} {s t : Shared}

theorem reading_tame {α : Type} {p : Path} {x : Except Exn α} (hx : ∀ e, x = .error e → e.Tame)
    (h : s.reading c p x = some (.error e, t)) : e.Tame := by
  unfold Shared.reading at h
  split at h
  · cases h
    exact hx e rfl
  · cases h
    trivial
  · cases h

theorem writing_tame {p : Path} {x : Except Exn Disk} (hx : ∀ e, x = .error e → e.Tame)
    (h : s.writing c p x = some (.error e, t)) : e.Tame := by
  unfold Shared.writing at h
  split at h
  · split at h
    · cases h
    · cases h
      exact hx e rfl
  · cases h
    trivial
  · cases h

theorem removing_tame {p : Path} {x : Except Exn Disk} {part : Tree → Option Disk}
    (hx : ∀ e, x = .error e → e.Tame) (h : s.removing c p x part = some (.error e, t)) :
    e.Tame := by
  unfold Shared.removing at h
  split at h
  · obtain ⟨_, _, heq⟩ := Option.map_eq_some_iff.mp h
    cases heq
    trivial
  · split at h
    · cases h
    · cases h
      exact hx e rfl
  · cases h
    trivial
  · cases h

/-- No operation of a deletion raises what could be taken for the diagnosis. -/
theorem exec_tame {o : Op} (ho : o.deletes) (h : exec role o c s = some (.error e, t)) :
    e.Tame := by
  cases o with
  | db q =>
    simp only [exec, Shared.query] at h
    split at h
    · split at h
      · cases h
      · rename_i he
        cases h
        exact q.run_tame he
    · cases h
      trivial
    · cases h
  | exists_ | isDir | resolve => exact reading_tame (fun _ he => by cases he) h
  | mkdir p =>
    refine writing_tame (fun e he => ?_) h
    unfold Disk.mkdir at he
    split at he
    · cases he
    · split at he
      · cases he
      · cases he
        trivial
  | rename p q =>
    refine writing_tame (fun e he => ?_) h
    unfold Disk.rename at he
    split at he
    · cases he
      trivial
    · split at he
      · cases he
        trivial
      · split at he
        · cases he
          trivial
        · split at he
          · cases he
          · split at he
            · cases he
            · cases he
              trivial
  | rmtree p =>
    refine removing_tame (fun e he => ?_) h
    unfold Disk.rmtree at he
    split at he
    · cases he
      trivial
    · split at he
      · cases he
      · cases he
        trivial
  | unlink p =>
    refine removing_tame (fun e he => ?_) h
    unfold Disk.unlink at he
    split at he
    · cases he
      trivial
    · split at he
      · cases he
        trivial
      · cases he
  | cachePop =>
    simp only [exec, Shared.sure] at h
    split at h
    · cases h
    · cases h
  | _ => exact ho.elim

end Tame

section Texts

theorem head_text {a : String} {k : Char} (h : a.toList.head? = some k) (m c : String) :
    (a ++ m ++ c).toList.head? = some k := by
  simp [String.toList_append, List.head?_append, h]

theorem Exn.Tame.head {e : Exn} (h : e.Tame) : e.repr.toList.head? ≠ some 'R' := by
  have hother : ∀ {a : String} (k : Char), a.toList.head? = some k → k ≠ 'R' →
      ∀ m c : String, (a ++ m ++ c).toList.head? ≠ some 'R' := by
    intro a k ha hk m c heq
    rw [head_text ha] at heq
    exact hk (Option.some.inj heq)
  cases e with
  | runtimeError | runnerError => exact h.elim
  | transitionError => exact hother 'T' rfl (by decide) _ _
  | keyError => exact hother 'K' rfl (by decide) _ _
  | valueError => exact hother 'V' rfl (by decide) _ _
  | fileNotFoundError => exact hother 'F' rfl (by decide) _ _
  | osError => exact hother 'O' rfl (by decide) _ _
  | integrityError => exact hother 'I' rfl (by decide) _ _
  | sqliteError => exact (by decide : "OperationalError()".toList.head? ≠ some 'R')
  | timeoutError => exact (by decide : "TimeoutError()".toList.head? ≠ some 'R')

theorem Exn.Tame.repr_ne {e : Exn} (h : e.Tame) (m : String) : e.repr ≠ (runtimeError m).repr := by
  intro heq
  have hhead := h.head
  rw [heq] at hhead
  exact hhead (head_text rfl _ _)

theorem repr_bothCopies_inj {i j : Nat} (h : (bothCopies i).repr = (bothCopies j).repr) :
    i = j := by
  have hnumbers : i.repr = j.repr := append_left_cancel (append_left_cancel (append_right_cancel h))
  exact padded_injective 0 (by simp [padded, hnumbers])

theorem failureMessage_inj {e e' : Exn} {context : String}
    (h : failureMessage e context = failureMessage e' context) : e.repr = e'.repr :=
  append_left_cancel h

theorem ne_failureMessage {text : String} (h : text.toList.head? ≠ some 'r') (e : Exn)
    (context : String) : text ≠ failureMessage e context := by
  intro heq
  rw [heq] at h
  have hhead :
      ("reconcile failure during " ++ (context ++ ": ") ++ e.repr).toList.head? = some 'r' :=
    head_text rfl _ _
  rw [← String.append_assoc] at hhead
  exact h hhead

end Texts

/-- What a deletion has seen: the live copy of an observation just now, and both of
its copies at some time. -/
structure Seen where
  live : Nat → Prop
  both : Nat → Prop

def Seen.learn (g : Seen) : (o : Op) → Except Exn o.Reply → Seen
  | .exists_ p, .ok true =>
      { live := fun oid => p = msPathOf oid
        both := fun oid => g.both oid ∨ (p = trashPath oid ∧ g.live oid) }
  | _, _ => { live := fun _ => False, both := g.both }

/-- The text that an operation writes on the row of an observation. -/
def Op.notes : Op → Option (Nat × String)
  | .db (.transitionObservation oid _ _ _ _ _ (some m)) => some (oid, m)
  | .db (.forceObservationFields oid _ (some m)) => some (oid, m)
  | _ => none

/-- The rows that a deletion reads have their own live paths. -/
def ReadsNamed : (o : Op) → Except Exn o.Reply → Prop
  | .db (.getObservation _), .ok o => o.msPath = msPathOf o.id
  | _, _ => True

/-- Who raises or writes the diagnosis has seen both copies. -/
def wedge : Lore Op.Reply Exn Seen where
  learn := Seen.learn
  can o x := (∀ e, x = .error e → e.Tame) ∧ ReadsNamed o x
  fine g o := o.deletes ∧ ∀ oid m, o.notes = some (oid, m) → m = wedgeDiagnosis oid → g.both oid
  raises g e := ∀ oid, e.repr = (bothCopies oid).repr → g.both oid

section Rules

variable {α : Type} {g : Seen}

theorem tame_raises {e : Exn} (h : e.Tame) (g : Seen) : wedge.raises g e :=
  fun _ heq => absurd heq (h.repr_ne _)

theorem informed_op {o : Op} {f : o.Reply → M α} (ho : o.deletes) (hnotes : o.notes = none)
    (hok : ∀ a, ReadsNamed o (.ok a) → (f a).Informed wedge (g.learn o (.ok a))) :
    ((call o).bind f).Informed wedge g := by
  refine .call_bind ⟨ho, fun _ _ hm => ?_⟩ (fun e he => tame_raises (he.1 e rfl) _)
    fun a ha => hok a ha.2
  rw [hnotes] at hm
  cases hm

theorem informed_call {o : Op} (ho : o.deletes)
    (hnotes : ∀ oid m, o.notes = some (oid, m) → m = wedgeDiagnosis oid → g.both oid) :
    (call o).Informed wedge g :=
  .call ⟨ho, hnotes⟩ fun e he => tame_raises (he.1 e rfl) _

theorem informed_quiet {o : Op} (ho : o.deletes) (hnotes : o.notes = none) (g : Seen) :
    (call o).Informed wedge g :=
  informed_call ho fun _ _ hm => by
    rw [hnotes] at hm
    cases hm

theorem informed_throw {e : Exn} (h : e.Tame) (g : Seen) :
    (Prog.ret (.error e) : M α).Informed wedge g := tame_raises h g

end Rules

section Programs

theorem invalidate_informed (g : Seen) : invalidateAuxiliaryCache.Informed wedge g :=
  informed_op trivial rfl fun _ _ => informed_quiet (o := .cachePop) trivial rfl _

theorem removeTree_informed (p : Path) (g : Seen) : (removeTree p).Informed wedge g := by
  refine informed_op (o := .isDir p) trivial rfl fun _ _ => ?_
  exact .ite (fun _ => informed_quiet (o := .rmtree p) trivial rfl _)
    fun _ => informed_quiet (o := .unlink p) trivial rfl _

theorem moveLiveToTrash_informed (oid : Nat) (g : Seen) :
    (moveLiveToTrash oid (msPathOf oid) (trashPath oid)).Informed wedge g := by
  refine informed_op (o := .exists_ _) trivial rfl fun b _ => ?_
  cases b with
  | false => trivial
  | true =>
    refine informed_op (o := .exists_ _) trivial rfl fun c _ => ?_
    cases c with
    | true =>
      intro i hi
      obtain rfl := repr_bothCopies_inj hi
      exact .inr ⟨rfl, rfl⟩
    | false =>
      refine informed_op (o := .rename _ _) trivial rfl fun _ _ => ?_
      exact invalidate_informed _

theorem emptyTrash_informed (p : Path) (g : Seen) : (emptyTrash p).Informed wedge g := by
  refine informed_op (o := .exists_ p) trivial rfl fun _ _ => .ite (fun _ => ?_) fun _ => trivial
  exact (removeTree_informed p _).bind fun _ g => invalidate_informed g

theorem finish_informed (oid : Nat) (g : Seen) :
    (finishObservationDeletion oid).Informed wedge g := by
  refine informed_op (o := .db (.getObservation oid)) trivial rfl fun o ho => ?_
  rw [show o.msPath = msPathOf o.id from ho]
  refine .ite (fun _ => informed_throw (e := .valueError _) trivial _) fun _ => ?_
  refine informed_op (o := .mkdir _) trivial rfl fun _ _ => ?_
  refine (moveLiveToTrash_informed o.id _).bind fun _ g => ?_
  exact (emptyTrash_informed _ g).bind fun _ g =>
    informed_quiet (o := .db (.transitionObservation _ _ _ _ _ _ none)) trivial rfl g

theorem drop_informed (oid : Nat) (reason : String) (g : Seen) :
    (forceDropObservationData oid reason).Informed wedge g := by
  refine informed_op (o := .db (.getObservation oid)) trivial rfl fun o _ => ?_
  refine .ite (fun _ => informed_throw (e := .valueError _) trivial _) fun _ => ?_
  have hcopy : ∀ p g, (dropCopy p).Informed wedge g := fun p g =>
    informed_op (o := .exists_ p) trivial rfl fun _ _ =>
      .ite (fun _ => removeTree_informed p _) fun _ => trivial
  refine (Prog.Informed.forEach (fun p _ g => hcopy p g) _).bind fun _ g => ?_
  refine (invalidate_informed g).bind fun _ g => informed_call trivial fun i m hm htext => ?_
  -- the operator's text is another one
  cases hm
  exact absurd htext (ne_failureMessage (by decide) _ _)

/-- The handler writes the diagnosis of the exception that it has caught. -/
theorem recordFailure_informed {oid : Nat} {e : Exn} {g : Seen} (h : wedge.raises g e) :
    (recordObservationRecoveryFailure oid e "deletion completion").Informed wedge g := by
  refine ⟨⟨trivial, fun i m hm htext => ?_⟩, fun x hx => ?_⟩
  · cases hm
    exact h oid (failureMessage_inj htext)
  · refine informed_op (o := .db (.recordEvent _ _ _)) trivial rfl fun _ _ => ?_
    cases x with
    | ok a => trivial
    | error e => exact informed_throw (hx.1 e rfl) _

theorem resume_informed (obs : Observation) (g : Seen) :
    (resumeDeletion obs).Informed wedge g :=
  (finish_informed obs.id g).catchAll fun _ _ he => recordFailure_informed he

/-- The deletions that `startup_reconcile` completes. -/
def deletionPhase : M Unit := do
  let deleting ← store (.listObservations [.deleting])
  Prog.forEach deleting resumeDeletion

theorem deletionPhase_informed (g : Seen) : deletionPhase.Informed wedge g :=
  informed_op (o := .db (.listObservations _)) trivial rfl fun _ _ =>
    .forEach (fun obs _ g => resume_informed obs g) _

theorem review_informed {rid : Nat} {wrong : ProcessingRun → Prop} [DecidablePred wrong]
    {onRun onObservation onData onOthers : String} {rest : ProcessingRun → Observation → M Unit}
    (h : ∀ run obs g, (rest run obs).Informed wedge g) (g : Seen) :
    (review rid wrong onRun onObservation onData onOthers rest).Informed wedge g := by
  have hstop : ∀ m g, (Prog.ret (.error (.valueError m)) : M Unit).Informed wedge g :=
    fun m g => informed_throw (e := .valueError m) trivial g
  refine informed_op (o := .db (.getRun rid)) trivial rfl fun run _ => ?_
  refine .ite (fun _ => hstop _ _) fun _ => ?_
  refine informed_op (o := .db (.getObservation _)) trivial rfl fun obs _ => ?_
  refine .ite (fun _ => hstop _ _) fun _ => ?_
  refine informed_op (o := .exists_ _) trivial rfl fun _ _ => .ite (fun _ => hstop _ _) fun _ => ?_
  refine informed_op (o := .db (.hasOtherActiveRuns _ _)) trivial rfl fun _ _ => ?_
  exact .ite (fun _ => hstop _ _) fun _ => h run obs _

theorem accept_informed (rid : Nat) (note : String) (g : Seen) :
    (acceptRun rid note).Informed wedge g := by
  rw [acceptRun_eq]
  refine review_informed (fun run obs g => ?_) g
  exact informed_op (o := .db (.acceptRunAndBeginDeletion _ _)) trivial rfl
    fun _ _ => finish_informed _ _

theorem discard_informed (rid : Nat) (note : String) (g : Seen) :
    (discardFailedRun rid note).Informed wedge g := by
  rw [discardFailedRun_eq]
  refine review_informed (fun run obs g => ?_) g
  exact informed_op (o := .db (.discardFailedRunAndBeginDeletion _ _)) trivial rfl
    fun _ _ => finish_informed _ _

end Programs

end Sdpctl
