import Sdpctl.Discipline.Moves
import Sdpctl.System.Frame

/-!
An allowed operation makes a step of the discipline.
-/

namespace Sdpctl

open FileTree Coop

variable {T : Terms} {r : Role} {s s' : Shared} {c : Choice}

theorem query_move (hinv : Inv T s) {q : Query} (hallowed : allowedQuery T r s q) {y : q.Reply}
    {db : Db} (h : q.run s.db = .ok (y, db)) : db = s.db ∨ DbMove T r s db := by
  cases Db.Call.of_run hinv.db.ids h with
  | same | unforced => exact .inl rfl
  | noted entity id reason =>
    exact .inr (.events rfl rfl rfl rfl (Db.recordEvent_attempts entity id reason)
      (Db.recordEvent_reachedQa entity id reason))
  | admitted step => exact .inr (.admitted step rfl rfl rfl hallowed)
  | observation legal id before step =>
    exact .inr (.obs step (hallowed _ (id ▸ step.found) before))
  | forced id step =>
    refine .inr (.obs step (.note hallowed.1 rfl rfl ?_))
    simp [hallowed.2]
  | created owner attempt path unjudged step =>
    refine .inr (.created step ?_ (owner ▸ path ▸ hallowed))
    simp [attempt, Db.nextAttempt, hallowed.none]
  | run legal id before step => exact .inr (.run step (hallowed _ (id ▸ step.found) before))
  | exhausted step | marked step => exact .inr (.marked hallowed step)
  | accepted id before step | discarded id before step => exact .inr (.released hallowed step)
  | reprocessed id found stored before step added owner attempt path unjudged =>
    refine .inr (.reprocessed hallowed.1 step added before rfl ⟨_, found, stored⟩ owner attempt ?_)
    rw [path, hallowed.2 _ (id ▸ step.id ▸ step.found)]

theorem DiskOk.isDir {db : Db} {d : Disk} (h : DiskOk db d) {p : Path}
    (hp : p = quarantineRoot ∨ p = trashRoot) : d.root.IsDir p := by
  rcases hp with rfl | rfl
  · exact h.dirs "quarantine" (by simp [layout])
  · exact h.dirs "trash" (by simp [layout])

theorem exec_step (hinv : Inv T s) {o : Op} (hallowed : allowed T r s o) {x : Except Exn o.Reply}
    (h : exec r o c s = some (x, s')) : Step T r s s' := by
  by_cases hstill : o.still = true
  · rw [exec_still hstill h]
    exact .stay
  cases o with
  | db q =>
    rcases Shared.query_eq h with rfl | ⟨y, db, _, hrun, rfl⟩
    · exact .stay
    · rcases query_move hinv hallowed hrun with rfl | hmove
      · exact .stay
      · exact .db hmove
  | mkdir p =>
    rcases Shared.writing_eq h with rfl | ⟨disk, hdisk, rfl⟩
    · exact .stay
    · rw [Disk.mkdir_of_isDir (hinv.disk.isDir hallowed)] at hdisk
      cases hdisk
      exact .stay
  | rename p q =>
    rcases Shared.writing_eq h with rfl | ⟨disk, hdisk, rfl⟩
    · exact .stay
    · obtain ⟨t, ht, rfl⟩ := Disk.rename_ok hdisk
      rcases hallowed with ⟨name, label, rfl, rfl, hmay⟩ | ⟨oid, rfl, rfl, hmay⟩
      · exact .quarantine hmay ht
      · exact .trash hmay ht
  | rmtree p =>
    rcases Shared.removing_eq h with rfl | ⟨disk, hdisk, rfl⟩ | ⟨t, disk, hpart, rfl⟩
    · exact .stay
    · obtain ⟨u, hu, rfl⟩ := Disk.rmtree_ok hdisk
      exact .remove hallowed hu
    · obtain ⟨u, hu, hwf, hshrinks, rfl⟩ := Disk.rmtreePart_some hpart
      exact .prune hallowed hu hwf hshrinks
  | unlink p =>
    rcases Shared.removing_eq h with rfl | ⟨disk, hdisk, rfl⟩ | ⟨t, disk, hpart, rfl⟩
    · exact .stay
    · obtain ⟨u, hu, rfl⟩ := Disk.unlink_ok hdisk
      exact .remove hallowed hu
    · cases hpart
  | cachePut e =>
    rw [Shared.sure_eq h, if_neg (by simp [hallowed.1])]
    exact .cache (by simp [hallowed.1]) fun _ he => Option.some.inj he ▸ hallowed.2
  | cachePop =>
    rw [Shared.sure_eq h]
    split
    · exact .stay
    · rename_i hrole
      exact .cache hrole (by simp)
  | trackObserve oid =>
    rw [Shared.sure_eq h]
    obtain ⟨hrole, hup, hdead, hplanned, _⟩ := hallowed
    exact .track hrole hup hdead fun _ => hplanned
  | trackProcess rid =>
    rw [Shared.sure_eq h]
    exact .track hallowed.1 hallowed.2.1 hallowed.2.2 (by simp)
  | finish task =>
    rw [Shared.sure_eq h]
    exact .finish hallowed
  | acquire =>
    rw [exec_acquire h]
    exact .slots hallowed
  | release =>
    rw [Shared.sure_eq h]
    exact .slots hallowed
  | startObserve oid msPath logPath =>
    rw [Shared.sure_eq h]
    exact .start hallowed
  | cancelRunner handle =>
    obtain ⟨task, oid, w, hrole, howns, hw, hown⟩ := hallowed
    rcases exec_cancelRunner h with rfl | rfl
    · exact .stay
    · exact .cancel hrole howns hw hown
  | abortObservation oid =>
    obtain ⟨task, hrole, _⟩ := hallowed
    rcases exec_abortObservation h with rfl | ⟨p, rfl⟩
    · exact .stay
    · exact .abort (by simp [hrole]) (List.filter_subset_self _)
  | killManaged =>
    rcases exec_killManaged h with rfl | ⟨_, hsub, rfl⟩
    · exact .stay
    · exact .slain hallowed.1 hallowed.2 hsub
  | _ => exact absurd rfl hstill

end Sdpctl
