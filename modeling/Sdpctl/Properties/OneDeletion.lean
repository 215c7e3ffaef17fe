import Sdpctl.Deletion.Calls
import Sdpctl.Restart.Faults

/-!
Deletions of one observation side by side. They make each other fail, but the one
that moves the data on always comes to the next move, so among them they complete
the deletion, once.
-/

namespace Sdpctl

open FileTree Coop

/-- The calls that delete an observation: what an accept or a discard ends with, what
`resolve --drop` does, and what a restart does inside its `try`. -/
inductive DeletionCall (oid : Nat) : M Unit → Prop where
  | finish : DeletionCall oid (finishObservationDeletion oid)
  | drop (reason : String) : DeletionCall oid (forceDropObservationData oid reason)
  | resume (obs : Observation) (of : obs.id = oid) : DeletionCall oid (resumeDeletion obs)

/-- An operation of one of the calls: nothing fails but what the others have made fail. -/
def amid {ι : Type} (role : ι → Role) (i : ι) (o : Op) (s : Shared) (x : Except Exn o.Reply)
    (t : Shared) : Prop :=
  exec (role i) o .ok s = some (x, t)

namespace DeletionCall

variable {oid : Nat} {dir : Bool} {p : M Unit} {k : Stage}

theorem goes (h : DeletionCall oid p) (k : Stage) : Goes oid dir p k := by
  cases h with
  | finish => exact finishObservationDeletion_goes k
  | drop reason => exact forceDropObservationData_goes k
  | resume obs of => exact resumeDeletion_goes of k

theorem completes (h : DeletionCall oid p) (hk : k = .live ∨ k = .trash) :
    Completes oid dir p k := by
  cases h with
  | finish => exact finishObservationDeletion_completes hk
  | drop reason => exact forceDropObservationData_completes hk
  | resume obs of => exact resumeDeletion_completes of hk

end DeletionCall

/-- One copy, and a row that is `DELETING`, make the first stage of a deletion. -/
theorem stands_of_one {oid : Nat} {s : Shared} {o : Observation} (ids : s.db.Ids)
    (layout : s.disk.Stands) (ho : s.db.obs? oid = some o) (hstate : o.state = .deleting)
    (hpath : o.msPath = msPathOf oid)
    (hone : s.disk.has (msPathOf oid) ≠ s.disk.has (trashPath oid)) :
    ∃ t k, (k = .live ∨ k = .trash) ∧ Stands oid s t k s := by
  cases hlive : s.disk.get? (msPathOf oid) with
  | some t =>
    have htrash : s.disk.get? (trashPath oid) = none := by
      cases htrash : s.disk.get? (trashPath oid) with
      | none => rfl
      | some u => simp [Disk.has, hlive, htrash] at hone
    exact ⟨t, .live, .inl rfl, ids, ⟨o, ho, hpath, hstate⟩, by simp [Stage.moves], layout, hlive,
      htrash, fun _ _ _ => rfl⟩
  | none =>
    cases htrash : s.disk.get? (trashPath oid) with
    | none => simp [Disk.has, hlive, htrash] at hone
    | some u =>
      exact ⟨u, .trash, .inr rfl, ids, ⟨o, ho, hpath, hstate⟩, by simp [Stage.moves], layout,
        hlive, htrash, fun _ _ _ => rfl⟩

/-- However many calls delete the observation side by side, and in whatever order their
operations come: when all have returned or raised, the row is `DELETED` by one
transition, neither copy exists, and nothing else has changed. -/
theorem concurrent_deletions_complete {ι : Type} [DecidableEq ι] [Nonempty ι] {oid : Nat}
    (role : ι → Role) {calls : ι → M Unit} (hcalls : ∀ i, DeletionCall oid (calls i))
    {s : Shared} {o : Observation} (ids : s.db.Ids) (layout : s.disk.Stands)
    (ho : s.db.obs? oid = some o) (hstate : o.state = .deleting) (hpath : o.msPath = msPathOf oid)
    (hone : s.disk.has (msPathOf oid) ≠ s.disk.has (trashPath oid))
    {w : Pool Op.Reply Exn Unit ι Shared}
    (h : Pool.Reach (amid role) (fun _ _ _ => True) { code := calls, shared := s } w)
    (hend : w.Ended) :
    w.shared.db.InState oid .deleted ∧ w.shared.disk.has (msPathOf oid) = false ∧
      w.shared.disk.has (trashPath oid) = false ∧
      w.shared.db.obsTrail oid = s.db.obsTrail oid ++ [(some .deleting, .deleted)] ∧
      ∀ p, Apart p (msPathOf oid) → Apart p (trashPath oid) →
        w.shared.disk.get? p = s.disk.get? p := by
  obtain ⟨t, k, hk, hstands⟩ := stands_of_one ids layout ho hstate hpath hone
  obtain ⟨i⟩ := ‹Nonempty ι›
  have hstart : Pool.Relay (Acts oid t.isDir) (May oid t.isDir) .deleted (Stands oid s t)
      { code := calls, shared := s } k :=
    ⟨hstands, fun j => (hcalls j).goes k, i, (hcalls i).completes hk⟩
  obtain ⟨k', hrelay⟩ := h.relay (fun _ _ _ _ hacts => acts_ahead hacts)
    (fun _ _ _ _ _ _ hhere hmay hexec => hhere.exec hmay hexec) hstart
  have hdone := hrelay.ended hend
  obtain ⟨o', ho', _, hdeleted⟩ := hdone.row
  refine ⟨⟨o', ho', hdeleted⟩, ?_, ?_, hdone.trail, hdone.frame⟩
  · exact Disk.has_eq_false.mpr hdone.live
  · exact Disk.has_eq_false.mpr hdone.trash

theorem oneDeleting_layout : oneDeleting.disk.Stands := by
  intro n hn
  apply Disk.isDirAt_iff.mp
  revert n
  decide

def twoCalls (b : Bool) : M Unit :=
  if b then finishObservationDeletion 1 else forceDropObservationData 1 "drop"

/-- The copy is in the trash when a deletion and a drop come; the one that comes
second raises. -/
theorem concurrent_deletions_complete_two : ∃ w : Pool Op.Reply Exn Unit Bool Shared,
    Pool.Reach (amid fun _ => .cli) (fun _ _ _ => True)
      { code := twoCalls, shared := oneDeleting } w ∧
    w.code false = .ret (.error (.valueError "observation is neither DELETING nor INCONSISTENT")) ∧
    w.shared.db.InState 1 .deleted ∧
    w.shared.db.obsTrail 1 = [(some .deleting, .deleted)] := by
  have hrun : ((follow .cli (List.replicate 9 .ok) (finishObservationDeletion 1)
      oneDeleting).bind ended).any (fun r =>
        ((follow .cli (List.replicate 1 .ok) (forceDropObservationData 1 "drop") r.2).bind
          ended).any fun r => r.1 = .error
            (.valueError "observation is neither DELETING nor INCONSISTENT")) = true := by
    decide +kernel
  have hok : ∀ n, ∀ o s y t, ∀ c ∈ List.replicate n Choice.ok, exec .cli o c s = some (y, t) →
      amid (fun _ : Bool => .cli) true o s y t := by
    intro n o s y t c hc hexec
    rw [List.eq_of_mem_replicate hc] at hexec
    exact hexec
  obtain ⟨x, s, hfirst, htest⟩ := runs_of_ended (hok 9) hrun
  obtain ⟨y, t, hsecond, hlate⟩ := runs_of_ended (hok 1) htest
  have hone : Pool.Reach (amid fun _ => .cli) (fun _ _ _ => True)
      { code := twoCalls, shared := oneDeleting } _ :=
    Pool.Reach.runs (i := true) (fun _ _ => trivial) hfirst
  have htwo := hone.trans (Pool.Reach.runs (i := false) (fun _ _ => trivial) hsecond)
  have hids : oneDeleting.db.Ids := ⟨by decide, by decide, by decide, by decide⟩
  have hend : ∀ b, ∃ z,
      Function.update (Function.update twoCalls true (.ret x)) false (.ret y) b = .ret z := by
    intro b
    cases b with
    | true => exact ⟨x, rfl⟩
    | false => exact ⟨y, rfl⟩
  obtain ⟨hstate, _, _, htrail, _⟩ := concurrent_deletions_complete (fun _ => .cli)
    (fun b => by cases b; exacts [.drop _, .finish]) hids oneDeleting_layout rfl rfl rfl
    (by decide) htwo hend
  exact ⟨_, htwo, congrArg Prog.ret (of_decide_eq_true hlate), hstate, htrail⟩

end Sdpctl
