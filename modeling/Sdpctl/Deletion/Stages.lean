import Sdpctl.Coop.Relay
import Sdpctl.Reconcile
import Sdpctl.Restart.Files
import Sdpctl.Store.Trails
import Sdpctl.System.Frame

/-!
A deletion as a relay. The only copy of the data goes from its live place to the
trash or is removed, and then the row becomes `DELETED`; what each operation of a
deletion replies depends only on how far that has come.
-/

namespace Sdpctl

open FileTree Coop

inductive Stage where
  | live
  | trash
  | gone
  | deleted
  deriving DecidableEq, Repr

namespace Stage

def rank : Stage → Nat
  | .live => 0
  | .trash => 1
  | .gone => 2
  | .deleted => 3

instance : Preorder Stage := Preorder.lift rank

theorem le_iff {k k' : Stage} : k ≤ k' ↔ k.rank ≤ k'.rank := Iff.rfl

def copyAt (oid : Nat) (k : Stage) (p : Path) : Bool :=
  match k with
  | .live => p = msPathOf oid
  | .trash => p = trashPath oid
  | _ => false

def state : Stage → ObservationState
  | .deleted => .deleted
  | _ => .deleting

/-- What the event table says since the deletion began. -/
def moves : Stage → List (Option ObservationState × ObservationState)
  | .deleted => [(some .deleting, .deleted)]
  | _ => []

end Stage

/-- The operations of a deletion, and when they may be performed: a row is marked
`DELETED` once the data is gone, and a removal fits what it removes. -/
def May (oid : Nat) (dir : Bool) : Op → Stage → Prop
  | .db (.getObservation id), _ => id = oid
  | .db (.transitionObservation id expected new _ _ _ _), k =>
      id = oid ∧ expected = .deleting ∧ new = .deleted ∧ .gone ≤ k
  | .db (.forceObservationFields id reserved _), _ => id = oid ∧ reserved = none
  | .db (.recordEvent _ _ _), _ | .resolve _, _ | .cachePop, _ => True
  | .exists_ p, _ | .isDir p, _ => p = msPathOf oid ∨ p = trashPath oid
  | .mkdir p, _ => p = trashRoot
  | .rename p q, _ => p = msPathOf oid ∧ q = trashPath oid
  | .rmtree p, k => (p = msPathOf oid ∨ p = trashPath oid) ∧ (k.copyAt oid p = true → dir = true)
  | .unlink p, k => (p = msPathOf oid ∨ p = trashPath oid) ∧ (k.copyAt oid p = true → dir = false)
  | _, _ => False

/-- What an operation of a deletion replies in a stage, and the stage it leads to;
`dir` says whether the data is a directory. -/
def Acts (oid : Nat) (dir : Bool) : (o : Op) → Stage → Except Exn o.Reply → Stage → Prop
  | .db (.getObservation _), k, x, k' => k' = k ∧ ∃ o, x = .ok o ∧ o.id = oid ∧
      o.msPath = msPathOf oid ∧ o.state = k.state
  | .db (.transitionObservation _ _ _ _ _ _ _), k, x, k' =>
      (k = .gone ∧ x = .ok () ∧ k' = .deleted) ∨ (k = .deleted ∧ (∃ e, x = .error e) ∧ k' = k)
  | .db (.forceObservationFields _ _ _), k, x, k' | .db (.recordEvent _ _ _), k, x, k' =>
      x = .ok () ∧ k' = k
  | .exists_ p, k, x, k' => x = .ok (k.copyAt oid p) ∧ k' = k
  | .isDir p, k, x, k' => x = .ok (k.copyAt oid p && dir) ∧ k' = k
  | .resolve p, k, x, k' => x = .ok p ∧ k' = k
  | .mkdir _, k, x, k' | .cachePop, k, x, k' => x = .ok () ∧ k' = k
  | .rename _ _, k, x, k' => (k = .live ∧ x = .ok () ∧ k' = .trash) ∨
      (k ≠ .live ∧ (∃ e, x = .error e) ∧ k' = k)
  | .rmtree p, k, x, k' | .unlink p, k, x, k' =>
      (k.copyAt oid p = true ∧ x = .ok () ∧ k' = .gone) ∨
        (k.copyAt oid p = false ∧ (∃ e, x = .error e) ∧ k' = k)
  | _, _, _, _ => False

variable {oid : Nat} {dir : Bool} {k k' : Stage}

theorem Stage.copyAt_le {p : Path} (h : k.copyAt oid p = true) : k ≤ .gone := by
  cases k with
  | live | trash | gone => simp [Stage.le_iff, Stage.rank]
  | deleted => cases h

theorem acts_ahead {o : Op} {x : Except Exn o.Reply} (h : Acts oid dir o k x k') : k ≤ k' := by
  cases o with
  | db q =>
    cases q with
    | getObservation =>
      obtain ⟨rfl, _⟩ := h
      exact le_rfl
    | forceObservationFields | recordEvent =>
      obtain ⟨_, rfl⟩ := h
      exact le_rfl
    | transitionObservation =>
      rcases h with ⟨rfl, _, rfl⟩ | ⟨_, _, rfl⟩
      · simp [Stage.le_iff, Stage.rank]
      · exact le_rfl
    | _ => exact h.elim
  | exists_ | isDir | resolve | mkdir | cachePop =>
    obtain ⟨_, rfl⟩ := h
    exact le_rfl
  | rename =>
    rcases h with ⟨rfl, _, rfl⟩ | ⟨_, _, rfl⟩
    · simp [Stage.le_iff, Stage.rank]
    · exact le_rfl
  | rmtree | unlink =>
    rcases h with ⟨hcopy, _, rfl⟩ | ⟨_, _, rfl⟩
    · exact Stage.copyAt_le hcopy
    · exact le_rfl
  | _ => exact h.elim

theorem acts_deleted (o : Op) (x : Except Exn o.Reply) (k : Stage)
    (h : Acts oid dir o .deleted x k) : k = .deleted := by
  have hle := acts_ahead h
  cases k with
  | deleted => rfl
  | _ => simp [Stage.le_iff, Stage.rank] at hle

/-- What is true of the store and the disk in a stage: the row and its events, the
one copy `t`, and everything else as it was in `s₀`. -/
structure Stands (oid : Nat) (s₀ : Shared) (t : Tree) (k : Stage) (s : Shared) : Prop where
  ids : s.db.Ids
  row : ∃ o, s.db.obs? oid = some o ∧ o.msPath = msPathOf oid ∧ o.state = k.state
  trail : s.db.obsTrail oid = s₀.db.obsTrail oid ++ k.moves
  layout : s.disk.Stands
  live : s.disk.get? (msPathOf oid) = if k = .live then some t else none
  trash : s.disk.get? (trashPath oid) = if k = .trash then some t else none
  frame : ∀ p, Apart p (msPathOf oid) → Apart p (trashPath oid) →
    s.disk.get? p = s₀.disk.get? p

namespace Stands

variable {s₀ s s' : Shared} {t : Tree}

theorem at_copy (h : Stands oid s₀ t k s) {p : Path} (hp : p = msPathOf oid ∨ p = trashPath oid) :
    s.disk.get? p = if k.copyAt oid p = true then some t else none := by
  have hne : msPathOf oid ≠ trashPath oid := by simp [msPathOf, trashPath]
  rcases hp with rfl | rfl
  · rw [h.live]
    cases k <;> simp [Stage.copyAt, hne]
  · rw [h.trash]
    cases k <;> simp [Stage.copyAt, hne.symm]

theorem congr (h : Stands oid s₀ t k s) (hdb : s'.db = s.db) (hdisk : s'.disk = s.disk) :
    Stands oid s₀ t k s' := by
  obtain ⟨ids, row, trail, layout, live, trash, frame⟩ := h
  rw [← hdb] at ids row trail
  rw [← hdisk] at layout live trash frame
  exact ⟨ids, row, trail, layout, live, trash, frame⟩

theorem noted (h : Stands oid s₀ t k s) {db : Db} (ids : db.Ids)
    (hrow : ∀ o, s.db.obs? oid = some o → ∃ o', db.obs? oid = some o' ∧ o'.msPath = o.msPath ∧
      o'.state = o.state) (htrail : db.obsTrail oid = s.db.obsTrail oid) :
    Stands oid s₀ t k { s with db } where
  ids := ids
  row := by
    obtain ⟨o, ho, hpath, hstate⟩ := h.row
    obtain ⟨o', ho', hpath', hstate'⟩ := hrow o ho
    exact ⟨o', ho', hpath'.trans hpath, hstate'.trans hstate⟩
  trail := htrail.trans h.trail
  layout := h.layout
  live := h.live
  trash := h.trash
  frame := h.frame

/-- The row becomes `DELETED`. -/
theorem marked (h : Stands oid s₀ t .gone s) {o o' : Observation} {db : Db}
    (step : Db.ObsStep s.db db o o') (hid : o'.id = oid) (hbefore : o.state = .deleting)
    (hafter : o'.state = .deleted) : Stands oid s₀ t .deleted { s with db } where
  ids := step.ids h.ids
  row := by
    obtain ⟨p, hp, hpath, _⟩ := h.row
    have hfound := step.found
    rw [hid, hp, Option.some.injEq] at hfound
    subst hfound
    exact ⟨o', hid ▸ step.obs?_self, step.msPath.trans hpath, hafter⟩
  trail := by
    have htrail := h.trail
    rcases step.log with ⟨_, hsame⟩ | ⟨reason, hlog⟩
    · rw [hbefore, hafter] at hsame
      cases hsame
    · rw [Db.obsTrail_append hlog, htrail]
      simp [Db.obsMove, hid, hbefore, hafter, Stage.moves]
  layout := h.layout
  live := by simpa using h.live
  trash := by simpa using h.trash
  frame := h.frame

theorem moved (h : Stands oid s₀ t .live s) : Stands oid s₀ t .trash
    { s with disk := s.disk.move (msPathOf oid) (trashPath oid) t } where
  ids := h.ids
  row := h.row
  trail := h.trail
  layout := h.layout.move _ _ _ _ _
  live := by
    have hdir : s.disk.root.IsDir ["observations"] := h.layout _ (by simp [Sdpctl.layout])
    exact Disk.get?_move_source hdir (by simp [trashPath])
  trash := by
    have hdir : (s.disk.put (msPathOf oid) none).root.IsDir ["trash"] :=
      h.layout.put _ _ _ _ _ (by simp [Sdpctl.layout])
    exact Disk.get?_put_self hdir
  frame p hlive htrash := (Disk.get?_move_apart t hlive htrash).trans (h.frame p hlive htrash)

theorem removed (h : Stands oid s₀ t k s) {p : Path} (hp : p = msPathOf oid ∨ p = trashPath oid)
    (hcopy : k.copyAt oid p = true) : Stands oid s₀ t .gone
    { s.notePurge p with disk := s.disk.put p none } := by
  have hapart : Apart (msPathOf oid) (trashPath oid) := by simp [msPathOf, trashPath]
  have hdirs : ∀ a : String, a ∈ Sdpctl.layout → s.disk.root.IsDir [a] := h.layout
  have hmoves : k.moves = [] := by
    cases k with
    | deleted => cases hcopy
    | _ => rfl
  have hstate : k.state = .deleting := by
    cases k with
    | deleted => cases hcopy
    | _ => rfl
  have hlayout : (s.disk.put p none).Stands := by
    rcases hp with rfl | rfl
    · exact h.layout.put _ _ _ _
    · exact h.layout.put _ _ _ _
  have hcopies : (s.disk.put p none).get? (msPathOf oid) = none ∧
      (s.disk.put p none).get? (trashPath oid) = none := by
    cases k with
    | live =>
      obtain rfl : p = msPathOf oid := by simpa [Stage.copyAt] using hcopy
      refine ⟨Disk.get?_put_self (hdirs "observations" (by simp [Sdpctl.layout])), ?_⟩
      rw [Disk.get?_put_apart _ _ hapart.symm, h.trash]
      rfl
    | trash =>
      obtain rfl : p = trashPath oid := by simpa [Stage.copyAt] using hcopy
      refine ⟨?_, Disk.get?_put_self (hdirs "trash" (by simp [Sdpctl.layout]))⟩
      rw [Disk.get?_put_apart _ _ hapart, h.live]
      rfl
    | _ => cases hcopy
  refine ⟨by simpa using h.ids, ?_, ?_, hlayout, hcopies.1, hcopies.2, fun q hlive htrash => ?_⟩
  · have hrow := h.row
    rw [hstate] at hrow
    simp only [Shared.notePurge_db]
    exact hrow
  · have htrail := h.trail
    rw [hmoves] at htrail
    simp only [Shared.notePurge_db]
    exact htrail
  · have hq : Apart q p := by
      rcases hp with rfl | rfl
      · exact hlive
      · exact htrash
    exact (Disk.get?_put_apart _ _ hq).trans (h.frame q hlive htrash)

theorem query (h : Stands oid s₀ t k s) {q : Query} (hmay : May oid t.isDir (.db q) k)
    {x : Except Exn q.Reply} (hexec : s.query .ok q = some (x, s')) :
    ∃ k', Acts oid t.isDir (.db q) k x k' ∧ Stands oid s₀ t k' s' := by
  cases q with
  | getObservation id =>
    obtain rfl : id = oid := hmay
    obtain ⟨o, ho, hpath, hstate⟩ := h.row
    have hrun : (Query.getObservation id).run s.db = .ok (o, s.db) := by
      simp [Query.run, Db.getObservation, ho, Except.map]
    simp only [Shared.query, hrun, Option.some.injEq, Prod.mk.injEq] at hexec
    obtain ⟨rfl, rfl⟩ := hexec
    exact ⟨k, ⟨rfl, o, rfl, (Db.mem_of_obs? ho).2, hpath, hstate⟩, h⟩
  | transitionObservation id expected new reason size reserved error =>
    obtain ⟨rfl, rfl, rfl, hgone⟩ := hmay
    obtain ⟨o, ho, hpath, hstate⟩ := h.row
    cases hrun : s.db.transitionObservation id .deleting .deleted reason size reserved error with
    | ok db =>
      simp only [Shared.query, Query.run, hrun, Except.map, Option.some.injEq,
        Prod.mk.injEq] at hexec
      obtain ⟨rfl, rfl⟩ := hexec
      obtain ⟨_, b, hb, hbefore, step⟩ := Db.transitionObservation_ok h.ids hrun
      have hfound := step.found
      simp only [hb, ho, Option.some.injEq] at hfound
      subst hfound
      rw [hbefore] at hstate
      cases k with
      | gone => exact ⟨.deleted, .inl ⟨rfl, rfl, rfl⟩, h.marked step hb hbefore rfl⟩
      | deleted => cases hstate
      | _ => simp [Stage.le_iff, Stage.rank] at hgone
    | error e =>
      simp only [Shared.query, Query.run, hrun, Except.map, Option.some.injEq,
        Prod.mk.injEq] at hexec
      obtain ⟨rfl, rfl⟩ := hexec
      have hne := (Db.transitionObservation_error h.ids (by decide) hrun).2 o ho
      cases k with
      | deleted => exact ⟨.deleted, .inr ⟨rfl, ⟨e, rfl⟩, rfl⟩, h⟩
      | _ => exact absurd hstate hne
  | forceObservationFields id reserved error =>
    obtain ⟨rfl, rfl⟩ := hmay
    simp only [Shared.query, Query.run, Option.some.injEq, Prod.mk.injEq] at hexec
    obtain ⟨rfl, rfl⟩ := hexec
    obtain ⟨o, ho, _⟩ := h.row
    have hid := (Db.mem_of_obs? ho).2
    subst hid
    have step := Db.forceObservationFields_found h.ids ho none error
    refine ⟨k, ⟨rfl, rfl⟩, h.noted (step.ids h.ids) (fun b hb => ?_) rfl⟩
    rw [ho, Option.some.injEq] at hb
    subst hb
    exact ⟨_, step.obs?_self, rfl, rfl⟩
  | recordEvent entity id reason =>
    simp only [Shared.query, Query.run, Option.some.injEq, Prod.mk.injEq] at hexec
    obtain ⟨rfl, rfl⟩ := hexec
    refine ⟨k, ⟨rfl, rfl⟩, h.noted ⟨h.ids.1, h.ids.2, h.ids.3, h.ids.4⟩
      (fun o ho => ⟨o, ho, rfl, rfl⟩) ?_⟩
    cases entity <;> simp [Db.recordEvent, Db.record, Db.obsTrail, Db.obsMove]
  | _ => exact hmay.elim

theorem exec {role : Role} (h : Stands oid s₀ t k s) {o : Op} (hmay : May oid t.isDir o k)
    {x : Except Exn o.Reply} (hexec : Sdpctl.exec role o .ok s = some (x, s')) :
    ∃ k', Acts oid t.isDir o k x k' ∧ Stands oid s₀ t k' s' := by
  cases o with
  | db q => exact h.query hmay hexec
  | exists_ p =>
    cases hexec
    refine ⟨k, ⟨?_, rfl⟩, h⟩
    simp only [Disk.has, h.at_copy hmay]
    cases k.copyAt oid p <;> rfl
  | isDir p =>
    cases hexec
    refine ⟨k, ⟨?_, rfl⟩, h⟩
    simp only [Disk.isDirAt, h.at_copy hmay]
    cases k.copyAt oid p <;> rfl
  | resolve p =>
    cases hexec
    exact ⟨k, ⟨rfl, rfl⟩, h⟩
  | mkdir p =>
    obtain rfl : p = trashRoot := hmay
    have hdir : s.disk.root.IsDir trashRoot := h.layout "trash" (by simp [Sdpctl.layout])
    simp only [Sdpctl.exec, Shared.writing, Disk.mkdir_of_isDir hdir, Option.some.injEq,
      Prod.mk.injEq] at hexec
    obtain ⟨rfl, rfl⟩ := hexec
    exact ⟨k, ⟨rfl, rfl⟩, h⟩
  | cachePop =>
    cases hexec
    refine ⟨k, ⟨rfl, rfl⟩, ?_⟩
    split
    · exact h
    · exact h.congr rfl rfl
  | rename p q =>
    obtain ⟨rfl, rfl⟩ := hmay
    have hapart : Apart (msPathOf oid) (trashPath oid) := by simp [msPathOf, trashPath]
    by_cases hk : k = .live
    · subst hk
      have hsource : s.disk.get? (msPathOf oid) = some t := h.live
      have hfree : s.disk.get? (trashPath oid) = none := h.trash
      have hdir : s.disk.root.IsDir (parent (trashPath oid)) :=
        h.layout "trash" (by simp [Sdpctl.layout])
      have hdone := Disk.rename_free hsource hfree hdir hapart.not_prefix hapart.symm.not_prefix
      simp only [Sdpctl.exec, Shared.writing, hdone, Option.some.injEq, Prod.mk.injEq] at hexec
      obtain ⟨rfl, rfl⟩ := hexec
      exact ⟨.trash, .inl ⟨rfl, rfl, rfl⟩, h.moved⟩
    · have hmissing : s.disk.get? (msPathOf oid) = none := by rw [h.live, if_neg hk]
      simp only [Sdpctl.exec, Shared.writing, Disk.rename, hmissing, Option.some.injEq,
        Prod.mk.injEq] at hexec
      obtain ⟨rfl, rfl⟩ := hexec
      exact ⟨k, .inr ⟨hk, ⟨_, rfl⟩, rfl⟩, h⟩
  | rmtree p =>
    obtain ⟨hp, hdir⟩ := hmay
    have hhere := h.at_copy hp
    cases hcopy : k.copyAt oid p with
    | false =>
      simp only [hcopy, Bool.false_eq_true, ite_false] at hhere
      simp only [Sdpctl.exec, Shared.removing, Disk.rmtree, hhere, Option.some.injEq,
        Prod.mk.injEq] at hexec
      obtain ⟨rfl, rfl⟩ := hexec
      exact ⟨k, .inr ⟨hcopy, ⟨_, rfl⟩, rfl⟩, h⟩
    | true =>
      simp only [hcopy, ite_true] at hhere
      simp only [Sdpctl.exec, Shared.removing, Disk.rmtree, hhere, hdir hcopy, ite_true,
        Option.some.injEq, Prod.mk.injEq] at hexec
      obtain ⟨rfl, rfl⟩ := hexec
      exact ⟨.gone, .inl ⟨hcopy, rfl, rfl⟩, h.removed hp hcopy⟩
  | unlink p =>
    obtain ⟨hp, hdir⟩ := hmay
    have hhere := h.at_copy hp
    cases hcopy : k.copyAt oid p with
    | false =>
      simp only [hcopy, Bool.false_eq_true, ite_false] at hhere
      simp only [Sdpctl.exec, Shared.removing, Disk.unlink, hhere, Option.some.injEq,
        Prod.mk.injEq] at hexec
      obtain ⟨rfl, rfl⟩ := hexec
      exact ⟨k, .inr ⟨hcopy, ⟨_, rfl⟩, rfl⟩, h⟩
    | true =>
      simp only [hcopy, ite_true] at hhere
      simp only [Sdpctl.exec, Shared.removing, Disk.unlink, hhere, hdir hcopy,
        Bool.false_eq_true, ite_false, Option.some.injEq, Prod.mk.injEq] at hexec
      obtain ⟨rfl, rfl⟩ := hexec
      exact ⟨.gone, .inl ⟨hcopy, rfl, rfl⟩, h.removed hp hcopy⟩
  | _ => exact hmay.elim

end Stands

end Sdpctl
