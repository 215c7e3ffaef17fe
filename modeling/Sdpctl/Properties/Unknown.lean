import Sdpctl.Coop.Phases
import Sdpctl.Programs.Footprint
import Sdpctl.Properties.RunChain

/-!
Unknown raw data under `observations/`. A worker writes where its row says, and its
row names a path that comes from its id alone; whether something is there already
nobody looks. What the admission finds free stays free until the runner starts.
-/

namespace Sdpctl

open FileTree Coop

variable {r : Role} {s s' : Shared}

/-- A path under `observations/` that is free, with no runner that could fill it. -/
def Vacant (oid : Nat) (s : Shared) : Prop :=
  s.disk.absent (msPathOf oid) ∧ ∀ w ∈ s.runners, w.oid ≠ oid

/-- What a process has claimed and not yet begun to observe. -/
inductive Claim where
  | nothing
  | row (oid : Nat)

def Claim.turn (g : Claim) : (o : Op) → Except Exn o.Reply → Claim
  | .db (.transitionObservation oid .planned .observing _ _ _ _), .ok _ => .row oid
  | .startObserve _ _ _, _ => .nothing
  | _, _ => g

/-- A worker begins only what it has claimed, at the path of its row. -/
def claiming : Script Op.Reply Exn Claim where
  turn := Claim.turn
  may g o :=
    match o with
    | .startObserve oid p _ => g = .row oid ∧ p = msPathOf oid
    | .rename _ q => (∃ label, q = quarantineEntry label) ∨ ∃ oid, q = trashPath oid
    | .mkdir p => p = quarantineRoot ∨ p = trashRoot
    | _ => True
  can _ o x :=
    match o, x with
    | .db (.getObservation oid), .ok obs => obs.id = oid ∧ obs.msPath = msPathOf oid
    | _, _ => True

/-- Every process follows the same script, from any claim and to any claim. -/
def claimingPlay : Play Op Op.Reply Exn Claim Role Entry where
  script _ := claiming
  begins _ _ _ := True
  again _ _ _ := True
  ends _ _ _ := True
  dead := .nothing

theorem claiming_plain (g : Claim) {o : Op} (h : o.ticks ∨ o = .acquire ∨ o = .release) :
    claiming.may g o := by
  rcases h with (h | ⟨_, rfl⟩ | ⟨_, rfl⟩ | rfl) | rfl | rfl
  · cases o <;> first | exact trivial | exact h | exact h.elim
  all_goals exact trivial

theorem tracks_claiming {α : Type} {p : M α}
    (hp : p.Uses fun o => o.ticks ∨ o = .acquire ∨ o = .release) (g : Claim) :
    p.Tracks claiming (fun _ _ => True) g :=
  Prog.Tracks.uses (Γ := fun _ => True) hp (fun g _ _ h => ⟨claiming_plain g h, fun _ _ => trivial⟩)
    trivial

theorem plain_tracks_claiming {α : Type} {p : M α} (hp : p.Uses Op.plain) (g : Claim) :
    p.Tracks claiming (fun _ _ => True) g :=
  tracks_claiming (hp.mono fun _ h => .inl h.ticks) g

theorem observeStart_tracks (cfg : Config) (task oid : Nat) (g : Claim) :
    (observeStart cfg task oid).Tracks claiming (fun _ _ => True) g := by
  have hclaim : (claimObservation oid).Tracks claiming
      (fun x g => x = .ok true → g = .row oid) g := by
    refine .catchAll (P := fun x g => (∃ b, x = .ok b) → x = .ok true ∧ g = .row oid) ?_
      (fun a g h _ => (h ⟨a, rfl⟩).2) fun e g _ => ?_
    · refine .call trivial (fun _ _ => ?_) fun _ _ h => by simp at h
      exact fun _ => ⟨rfl, rfl⟩
    · cases e <;> exact fun h => by cases h
  refine .call trivial (fun _ _ => ?_) fun _ _ => trivial
  refine Prog.Tracks.bind (P := fun x g => x = .ok true → g = .row oid) ?_ (fun b g hg => ?_)
    fun _ _ _ => trivial
  · exact hclaim
  refine .ite (fun hb => ?_) fun _ => trivial
  obtain rfl : g = .row oid := hg (by rw [hb])
  refine .call trivial (fun obs hobs => ?_) fun _ _ => trivial
  obtain ⟨_, hpath⟩ : obs.id = oid ∧ obs.msPath = msPathOf oid := hobs
  exact .call ⟨rfl, hpath⟩ (fun _ _ => trivial) fun _ _ => trivial

theorem entry_tracks_claiming (n : Entry) (g : Claim) :
    n.code.Tracks claiming (fun _ _ => True) g := by
  have hended : ∀ {task : Nat} {body : M (Option Entry)} {g : Claim},
      (∀ g, body.Tracks claiming (fun _ _ => True) g) →
      (endTask task body).Tracks claiming (fun _ _ => True) g := by
    intro task body g hbody
    refine Prog.Tracks.bind (P := fun _ _ => True)
      (Prog.Tracks.catchAll (P := fun _ _ => True) (hbody g) (fun _ _ _ => trivial) fun _ g _ => ?_)
      (fun next g _ => ?_) fun _ _ _ => trivial
    · exact .call trivial (fun _ _ => trivial) fun _ _ => trivial
    · cases next with
      | none => exact .call trivial (fun _ _ => trivial) fun _ _ => trivial
      | some n => exact trivial
  cases n with
  | run cfg =>
    refine plain_tracks_claiming (Prog.uses_bind startupReconcile_plain fun _ => ?_) g
    exact trivial
  | tick cfg =>
    refine tracks_claiming (Prog.uses_bind ((tick_ticks cfg).mono fun _ h => .inl h) fun _ => ?_) g
    exact Prog.uses_bind (Prog.uses_call (.inl (.inl trivial))) fun _ => trivial
  | observe cfg task oid =>
    refine hended fun g => .call trivial (fun _ _ => ?_) fun _ _ => trivial
    refine Prog.Tracks.catchAll (P := fun _ _ => True) (observeStart_tracks cfg task oid _)
      (fun _ _ _ => trivial) fun _ g _ => plain_tracks_claiming ?_ g
    exact uses_plain (observeHandler_retires oid none _ _)
  | watch cfg task oid handle msPath warned =>
    exact plain_tracks_claiming
      (endTask_plain (observeGuard_plain (watchTurn_plain cfg task oid handle msPath warned))) g
  | process cfg task rid =>
    refine hended fun g => tracks_claiming ?_ g
    refine Prog.uses_bind (Prog.uses_call (.inl (.inl trivial))) fun _ => ?_
    refine Prog.uses_bind (Prog.uses_catchAll ?_ fun e => ?_) fun _ => trivial
    · refine Prog.uses_bind (Prog.uses_call (.inr (.inl rfl))) fun _ => ?_
      exact Prog.uses_finallyDo ((processRun_plain rid).mono fun _ h => .inl h.ticks)
        (Prog.uses_call (.inr (.inr rfl)))
    · exact (failProcess_plain rid e).mono fun _ h => .inl h.ticks
  | command c =>
    refine plain_tracks_claiming (Prog.uses_bind (command_plain c) fun _ => ?_) g
    exact trivial

section Steady

/-- The rows stay, nothing comes to a path under `observations/` without a runner of
its own, and no runner is added. -/
structure Steady (s s' : Shared) : Prop where
  db : s'.db = s.db
  absent : ∀ oid, Vacant oid s → s'.disk.absent (msPathOf oid)
  roster : ∀ w' ∈ s'.runners, ∃ w ∈ s.runners, w'.oid = w.oid ∧ w'.msPath = w.msPath

theorem Steady.vacant (h : Steady s s') {oid : Nat} (hv : Vacant oid s) : Vacant oid s' := by
  refine ⟨h.absent oid hv, fun w' hw' => ?_⟩
  obtain ⟨w, hw, hoid, _⟩ := h.roster w' hw'
  rw [hoid]
  exact hv.2 w hw

theorem Steady.of_same (hdb : s'.db = s.db) (hdisk : s'.disk = s.disk)
    (hrunners : s'.runners = s.runners) : Steady s s' :=
  ⟨hdb, fun _ h => by rw [hdisk]; exact h.1, fun w hw => ⟨w, hrunners ▸ hw, rfl, rfl⟩⟩

theorem roster_map {f : Runner → Runner} (hf : ∀ w, (f w).oid = w.oid ∧ (f w).msPath = w.msPath)
    (rs : List Runner) : ∀ w' ∈ rs.map f, ∃ w ∈ rs, w'.oid = w.oid ∧ w'.msPath = w.msPath := by
  intro w' hw'
  obtain ⟨w, hw, rfl⟩ := List.mem_map.mp hw'
  exact ⟨w, hw, hf w⟩

theorem roster_modify {f : Runner → Runner}
    (hf : ∀ w, (f w).oid = w.oid ∧ (f w).msPath = w.msPath) (i : Nat) (rs : List Runner) :
    ∀ w' ∈ rs.modify i f, ∃ w ∈ rs, w'.oid = w.oid ∧ w'.msPath = w.msPath := by
  intro w' hw'
  obtain ⟨j, hj⟩ := List.mem_iff_getElem?.mp hw'
  rw [List.getElem?_modify, Option.map_eq_map, Option.map_eq_some_iff] at hj
  obtain ⟨w, hw, rfl⟩ := hj
  refine ⟨w, List.mem_of_getElem? hw, ?_⟩
  split
  · exact hf w
  · exact ⟨rfl, rfl⟩

theorem slain_same (w : Runner) : w.slain.oid = w.oid ∧ w.slain.msPath = w.msPath := by
  unfold Runner.slain
  split <;> exact ⟨rfl, rfl⟩

theorem orphaned_same (w : Runner) : w.orphaned.oid = w.oid ∧ w.orphaned.msPath = w.msPath := by
  unfold Runner.orphaned
  split <;> exact ⟨rfl, rfl⟩

/-- What is moved away, or made in quarantine or trash, leaves a free path free. -/
theorem absent_mkdir {p : Path} {d : Disk} (hp : p = quarantineRoot ∨ p = trashRoot)
    (hd : s.disk.mkdir p = .ok d) {oid : Nat} (h : s.disk.absent (msPathOf oid)) :
    d.absent (msPathOf oid) := by
  refine Eq.trans ?_ h
  rcases hp with rfl | rfl
  · exact Disk.get?_mkdir_ne hd (by decide) _
  · exact Disk.get?_mkdir_ne hd (by decide) _

theorem absent_rename {p q : Path} {d : Disk}
    (hq : (∃ label, q = quarantineEntry label) ∨ ∃ i, q = trashPath i)
    (hd : s.disk.rename p q = .ok d) {oid : Nat} (h : s.disk.absent (msPathOf oid)) :
    d.absent (msPathOf oid) := by
  obtain ⟨t, _, rfl⟩ := Disk.rename_ok hd
  have hgone : (s.disk.put p none).get? (msPathOf oid) = none := Tree.get?_set_none h p
  refine (Disk.get?_put_apart _ _ ?_).trans hgone
  rcases hq with ⟨label, rfl⟩ | ⟨i, rfl⟩
  · simp [msPathOf, quarantineEntry]
  · simp [msPathOf, trashPath]

theorem absent_removing {p : Path} {d : Disk} (hd : s.disk.put p none = d ∨
      ∃ t, s.disk.rmtreePart p t = some d) {oid : Nat} (h : s.disk.absent (msPathOf oid)) :
    d.absent (msPathOf oid) := by
  rcases hd with rfl | ⟨t, ht⟩
  · exact Tree.get?_set_none h p
  · obtain ⟨u, hu, _, hpart, rfl⟩ := Disk.rmtreePart_some ht
    exact Tree.get?_set_part hu hpart h

/-- An operation that is in the script, touches no table and starts no runner. -/
theorem exec_steady {g : Claim} {o : Op} {c : Choice} {x : Except Exn o.Reply}
    (hmay : claiming.may g o) (hdb : ∀ q, o ≠ .db q) (hstart : ∀ i p l, o ≠ .startObserve i p l)
    (h : exec r o c s = some (x, s')) : Steady s s' := by
  have hrefl : Steady s s := .of_same rfl rfl rfl
  by_cases hstill : o.still = true
  · rw [exec_still hstill h]
    exact hrefl
  cases o with
  | db q => exact absurd rfl (hdb q)
  | startObserve i p l => exact absurd rfl (hstart i p l)
  | mkdir p =>
    rcases Shared.writing_eq h with rfl | ⟨disk, hdisk, rfl⟩
    · exact hrefl
    · exact ⟨rfl, fun oid hv => absent_mkdir hmay hdisk hv.1, fun w hw => ⟨w, hw, rfl, rfl⟩⟩
  | rename p q =>
    rcases Shared.writing_eq h with rfl | ⟨disk, hdisk, rfl⟩
    · exact hrefl
    · exact ⟨rfl, fun oid hv => absent_rename hmay hdisk hv.1, fun w hw => ⟨w, hw, rfl, rfl⟩⟩
  | rmtree p =>
    rcases Shared.removing_eq h with rfl | ⟨disk, hdisk, rfl⟩ | ⟨t, disk, hpart, rfl⟩
    · exact hrefl
    · obtain ⟨u, hu, rfl⟩ := Disk.rmtree_ok hdisk
      exact ⟨by simp, fun oid hv => absent_removing (.inl rfl) hv.1,
        fun w hw => ⟨w, by simpa using hw, rfl, rfl⟩⟩
    · exact ⟨by simp, fun oid hv => absent_removing (.inr ⟨t, hpart⟩) hv.1,
        fun w hw => ⟨w, by simpa using hw, rfl, rfl⟩⟩
  | unlink p =>
    rcases Shared.removing_eq h with rfl | ⟨disk, hdisk, rfl⟩ | ⟨t, disk, hpart, rfl⟩
    · exact hrefl
    · obtain ⟨u, hu, rfl⟩ := Disk.unlink_ok hdisk
      exact ⟨by simp, fun oid hv => absent_removing (.inl rfl) hv.1,
        fun w hw => ⟨w, by simpa using hw, rfl, rfl⟩⟩
    · cases hpart
  | trackObserve | trackProcess | finish | release =>
    rw [Shared.sure_eq h]
    exact .of_same rfl rfl rfl
  | cachePut | cachePop =>
    rw [Shared.sure_eq h]
    split <;> exact .of_same rfl rfl rfl
  | acquire =>
    rw [exec_acquire h]
    exact .of_same rfl rfl rfl
  | cancelRunner handle =>
    rcases exec_cancelRunner h with rfl | rfl
    · exact hrefl
    · exact ⟨rfl, fun _ hv => hv.1, roster_modify (by simp) _ _⟩
  | abortObservation oid =>
    rcases exec_abortObservation h with rfl | ⟨p, rfl⟩ <;> exact .of_same rfl rfl rfl
  | killManaged =>
    rcases exec_killManaged h with rfl | ⟨_, _, rfl⟩
    · exact hrefl
    · exact ⟨rfl, fun _ hv => hv.1, roster_map slain_same _⟩
  | _ => exact absurd rfl hstill

/-- The environment writes only where a runner of the observation exists. -/
theorem env_steady {e : Env} (hpath : ∀ w ∈ s.runners, w.msPath = msPathOf w.oid)
    (h : env e s = some s') : Steady s s' := by
  cases env_move h with
  | runners later =>
    refine ⟨rfl, fun _ hv => hv.1, fun w' hw' => ?_⟩
    obtain ⟨i, hi⟩ := List.mem_iff_getElem?.mp hw'
    obtain ⟨w, hw, hoid, hms, _⟩ := later.each i w' hi
    exact ⟨w, List.mem_of_getElem? hw, hoid, hms⟩
  | @write _ w _ _ _ found wf =>
    refine ⟨rfl, fun oid hv => ?_, fun w hw => ⟨w, hw, rfl, rfl⟩⟩
    have hmem := List.mem_of_getElem? found
    have hne : oid ≠ w.oid := fun heq => hv.2 _ hmem heq.symm
    refine (get?_write s.disk (hpath _ hmem) ?_).trans hv.1
    simpa [msPathOf] using hne
  | product wf dir below =>
    exact ⟨rfl, fun oid hv => (get?_product s.disk (by decide)).trans hv.1,
      fun w hw => ⟨w, hw, rfl, rfl⟩⟩
  | loss =>
    exact ⟨rfl, fun oid hv => Tree.get?_set_none hv.1 _, fun w hw => ⟨w, hw, rfl, rfl⟩⟩

end Steady

/-- What a process has claimed is free and its alone, and so is what is planned. -/
structure Claims (s : Shared) (v : List (Role × Claim)) : Prop where
  ids : s.db.Ids
  named : s.db.Named
  runners : ∀ w ∈ s.runners, w.msPath = msPathOf w.oid ∧
    ∃ o, s.db.obs? w.oid = some o ∧ o.state ≠ .planned
  planned : ∀ oid o, s.db.obs? oid = some o → o.state = .planned →
    s.disk.absent (msPathOf oid)
  claimed : ∀ {i : Nat} {r : Role} {oid : Nat}, v[i]? = some (r, Claim.row oid) → Vacant oid s ∧
    ∃ o, s.db.obs? oid = some o ∧ o.state ≠ .planned
  once : ∀ {i j : Nat} {r r' : Role} {oid : Nat}, v[i]? = some (r, Claim.row oid) →
    v[j]? = some (r', Claim.row oid) → i = j

namespace Claims

variable {v v' : List (Role × Claim)}

theorem fewer (h : Claims s v)
    (hsub : ∀ (i : Nat) (r : Role) (oid : Nat), v'[i]? = some (r, Claim.row oid) →
      v[i]? = some (r, Claim.row oid)) : Claims s v' where
  ids := h.ids
  named := h.named
  runners := h.runners
  planned := h.planned
  claimed hi := h.claimed (hsub _ _ _ hi)
  once hi hj := h.once (hsub _ _ _ hi) (hsub _ _ _ hj)

theorem vacant (h : Claims s v) {oid : Nat} {o : Observation} (ho : s.db.obs? oid = some o)
    (hstate : o.state = .planned) : Vacant oid s := by
  refine ⟨h.planned oid o ho hstate, fun w hw hoid => ?_⟩
  obtain ⟨_, p, hp, hno⟩ := h.runners w hw
  rw [hoid, ho] at hp
  cases hp
  exact hno hstate

theorem steady (h : Claims s v) (hs : Steady s s') : Claims s' v where
  ids := hs.db ▸ h.ids
  named := hs.db ▸ h.named
  runners w' hw' := by
    obtain ⟨w, hw, hoid, hpath⟩ := hs.roster w' hw'
    rw [hoid, hpath, hs.db]
    exact h.runners w hw
  planned oid o ho hstate := by
    rw [hs.db] at ho
    exact hs.absent oid (h.vacant ho hstate)
  claimed hi := by
    obtain ⟨hv, hrow⟩ := h.claimed hi
    exact ⟨hs.vacant hv, hs.db.symm ▸ hrow⟩
  once := h.once

theorem keep (h : Claims s v) {pid : Nat} {g g' : Claim} (hv : v[pid]? = some (r, g))
    (hkeep : ∀ oid, g' = .row oid → g = .row oid) : Claims s (v.set pid (r, g')) := by
  apply h.fewer
  intro i r' oid hi
  rw [List.getElem?_set] at hi
  split at hi
  · rename_i heq
    subst heq
    split at hi
    · simp only [Option.some.injEq, Prod.mk.injEq] at hi
      rw [hv, hi.1, hkeep oid hi.2]
    · cases hi
  · exact hi

theorem born (h : Claims s v) {cs : List (Role × Claim)} (hcs : ∀ c ∈ cs, c.2 = .nothing) :
    Claims s (v ++ cs) := by
  apply h.fewer
  intro i r oid hi
  rw [List.getElem?_append] at hi
  split at hi
  · exact hi
  · have hnone := hcs _ (List.mem_of_getElem? hi)
    cases hnone

theorem fallen (h : Claims s v) (coop : Role → Bool) : Claims s (claimingPlay.fallen coop v) := by
  apply h.fewer
  intro i r oid hi
  simp only [Play.fallen, List.getElem?_map, Option.map_eq_some_iff] at hi
  obtain ⟨c, hc, heq⟩ := hi
  split at heq
  · cases heq
  · rw [hc, heq]

theorem planned_before {db : Db} {q : Query} {oid : Nat} {x y : Observation}
    (h : Db.ObsChange db q oid (some x) y) (hy : y.state = .planned) : x.state = .planned := by
  cases h with
  | same | forced => exact hy
  | @moved _ expected new _ _ _ _ _ legal =>
    obtain rfl : new = .planned := hy
    cases expected <;> simp [obsTransitions] at legal
  | released => cases hy

theorem call (h : Claims s v) {q : Query} {db' : Db} (call : Db.Call s.db q db')
    (hfree : ∀ n, q = .createObservationAuto n → s.disk.absent (msPathOf (s.db.obsSeq + 1))) :
    Claims { s with db := db' } v := by
  have hrow : ∀ oid, (∃ o, s.db.obs? oid = some o ∧ o.state ≠ .planned) →
      ∃ o, db'.obs? oid = some o ∧ o.state ≠ .planned := by
    intro oid ⟨o, ho, hstate⟩
    obtain ⟨o', ho', hchange⟩ := call.remains h.ids ho
    exact ⟨o', ho', fun hp => hstate (planned_before hchange hp)⟩
  refine ⟨call.ids h.ids, call.named h.ids h.named, fun w hw => ?_, fun oid o ho hstate => ?_,
    fun hi => ?_, h.once⟩
  · exact ⟨(h.runners w hw).1, hrow _ (h.runners w hw).2⟩
  · have hchange := call.obsChange h.ids ho
    cases hbefore : s.db.obs? oid with
    | none =>
      rw [hbefore] at hchange
      cases hchange with
      | created created row =>
        subst row
        rw [← (Db.mem_of_obs? ho).2]
        exact hfree _ created
    | some x =>
      rw [hbefore] at hchange
      exact h.planned oid x hbefore (planned_before hchange hstate)
  · exact ⟨(h.claimed hi).1, hrow _ (h.claimed hi).2⟩

theorem claim (h : Claims s v) {pid : Nat} {g : Claim} (hv : v[pid]? = some (r, g)) {oid : Nat}
    (hfree : Vacant oid s) (hrow : ∃ o, s.db.obs? oid = some o ∧ o.state ≠ .planned)
    (hnew : ∀ (i : Nat) (r' : Role), v[i]? ≠ some (r', Claim.row oid)) :
    Claims s (v.set pid (r, .row oid)) := by
  have hlt := (List.getElem?_eq_some_iff.mp hv).1
  have hcases : ∀ {i : Nat} {r' : Role} {oid' : Nat},
      (v.set pid (r, Claim.row oid))[i]? = some (r', Claim.row oid') →
      (i = pid ∧ oid' = oid) ∨ (i ≠ pid ∧ v[i]? = some (r', Claim.row oid')) := by
    intro i r' oid' hi
    rw [List.getElem?_set] at hi
    split at hi
    · rename_i heq
      cases hi
      exact .inl ⟨heq.symm, rfl⟩
    · rename_i hne
      exact .inr ⟨fun heq => hne heq.symm, hi⟩
  refine ⟨h.ids, h.named, h.runners, h.planned, fun hi => ?_, fun hi hj => ?_⟩
  · rcases hcases hi with ⟨_, rfl⟩ | ⟨_, hold⟩
    · exact ⟨hfree, hrow⟩
    · exact h.claimed hold
  · rcases hcases hi with ⟨rfl, rfl⟩ | ⟨_, hi'⟩
    · rcases hcases hj with ⟨rfl, _⟩ | ⟨_, hj'⟩
      · rfl
      · exact absurd hj' (hnew _ _)
    · rcases hcases hj with ⟨rfl, rfl⟩ | ⟨_, hj'⟩
      · exact absurd hi' (hnew _ _)
      · exact h.once hi' hj'

theorem observe (h : Claims s v) {pid oid : Nat} (hv : v[pid]? = some (r, Claim.row oid))
    {w : Runner} (hoid : w.oid = oid) (hpath : w.msPath = msPathOf oid) :
    Claims { s with runners := s.runners ++ [w] } (v.set pid (r, .nothing)) := by
  have hother : ∀ {i : Nat} {r' : Role} {oid' : Nat},
      (v.set pid (r, Claim.nothing))[i]? = some (r', Claim.row oid') →
      i ≠ pid ∧ v[i]? = some (r', Claim.row oid') := by
    intro i r' oid' hi
    rw [List.getElem?_set] at hi
    split at hi
    · split at hi <;> cases hi
    · rename_i hne
      exact ⟨fun heq => hne heq.symm, hi⟩
  refine ⟨h.ids, h.named, fun w' hw' => ?_, h.planned, fun hi => ?_, fun hi hj => ?_⟩
  · rcases List.mem_append.mp hw' with hw' | hw'
    · exact h.runners w' hw'
    · obtain rfl := List.mem_singleton.mp hw'
      exact ⟨hoid ▸ hpath, hoid ▸ (h.claimed hv).2⟩
  · obtain ⟨hne, hold⟩ := hother hi
    obtain ⟨⟨habsent, hrunners⟩, hrow⟩ := h.claimed hold
    refine ⟨⟨habsent, fun w' hw' => ?_⟩, hrow⟩
    rcases List.mem_append.mp hw' with hw' | hw'
    · exact hrunners w' hw'
    · obtain rfl := List.mem_singleton.mp hw'
      rw [hoid]
      intro heq
      exact hne (h.once hold (heq ▸ hv))
  · exact h.once (hother hi).2 (hother hj).2

theorem query (h : Claims s v) {pid : Nat} {g : Claim} (hv : v[pid]? = some (r, g)) {q : Query}
    {c : Choice} {x : Except Exn q.Reply}
    (hfree : ∀ n, q = .createObservationAuto n → s.disk.absent (msPathOf (s.db.obsSeq + 1)))
    (hexec : s.query c q = some (x, s')) : claiming.can g (.db q) x ∧
      Claims s' (v.set pid (r, Claim.turn g (.db q) x)) := by
  rcases Shared.query_cases hexec with ⟨y, db', hrun, rfl, rfl⟩ | ⟨e, rfl, rfl⟩
  · have hcall := Db.Call.of_run h.ids hrun
    have hafter := h.call hcall hfree
    constructor
    · cases q with
      | getObservation oid =>
        obtain ⟨ho, _⟩ := getObservation_ok hrun
        exact ⟨(Db.mem_of_obs? ho).2, h.named _ _ ho⟩
      | _ => trivial
    · cases q with
      | transitionObservation oid expected new reason size reserved error =>
        by_cases hclaim : expected = .planned ∧ new = .observing
        · obtain ⟨rfl, rfl⟩ := hclaim
          cases hcall with
          | same reads => cases reads
          | observation legal id before step =>
            rename_i o
            subst id
            have hvacant := h.vacant step.found before
            refine hafter.claim hv hvacant ⟨_, by rw [step.obs?, if_pos rfl], by simp⟩ ?_
            intro i r' hi
            obtain ⟨_, p, hp, hno⟩ := h.claimed hi
            rw [step.found] at hp
            cases hp
            exact hno before
        · have hsame : Claim.turn g (.db (.transitionObservation oid expected new reason size
              reserved error)) (.ok y) = g := by
            cases expected <;> cases new <;> first | rfl | simp at hclaim
          rw [hsame]
          exact hafter.keep hv fun _ hg => hg
      | _ => exact hafter.keep hv fun _ hg => hg
  · refine ⟨by cases q <;> trivial, ?_⟩
    have hsame : Claim.turn g (.db q) (.error e) = g := by
      cases q with
      | transitionObservation oid expected new => cases expected <;> cases new <;> rfl
      | _ => rfl
    rw [hsame]
    exact h.keep hv fun _ hg => hg

end Claims

/-- Every admission takes an id at whose path nothing exists. -/
def admitsFree (w : World Op.Reply Exn Shared Role Entry) : Label Role Entry Choice Env → Prop
  | .run pid _ => ∀ p reserved next, w.procs[pid]? = some p →
      p.code = .op (.db (.createObservationAuto reserved)) next →
      w.shared.disk.has (msPathOf (w.shared.db.obsSeq + 1)) = false
  | _ => True

theorem births_nothing (o : Op) (s : Shared) :
    ∃ cs, claimingPlay.Births (spawn o s) cs ∧ ∀ c ∈ cs, c.2 = .nothing := by
  cases o with
  | trackObserve | trackProcess => exact ⟨[(_, .nothing)], .one trivial, by simp⟩
  | _ => exact ⟨[], .nobody, by simp⟩

theorem claims_sound (init : World Op.Reply Exn Shared Role Entry) :
    claimingPlay.Sound system admitsFree init Claims where
  code _ := (entry_tracks_claiming _ _).mono fun x g _ => by
    rcases x with e | (_ | n) <;> trivial
  run := by
    intro w v pid p o next c x s' g _ _ hJ hp hcode hv hmay _ hok hexec
    obtain ⟨cs, hbirths, hcs⟩ := births_nothing o w.shared
    suffices h : claiming.can g o x ∧ Claims s' (v.set pid (p.role, Claim.turn g o x)) from
      ⟨h.1, cs, hbirths, h.2.born hcs⟩
    have hother : (∀ q, o ≠ .db q) → (∀ i p l, o ≠ .startObserve i p l) → Claims s' v :=
      fun hdb hstart => hJ.steady (exec_steady hmay hdb hstart hexec)
    cases o with
    | db q =>
      refine hJ.query hv (fun n hn => ?_) hexec
      subst hn
      exact Disk.has_eq_false.mp (hok p n next hp hcode)
    | startObserve oid path log =>
      obtain ⟨rfl, rfl⟩ : g = .row oid ∧ path = msPathOf oid := hmay
      rw [Shared.sure_eq hexec]
      exact ⟨trivial, hJ.observe hv rfl rfl⟩
    | _ => exact ⟨trivial, (hother (by simp) (by simp)).keep hv fun _ hg => hg⟩
  env _ hJ _ henv := hJ.steady (env_steady (fun w hw => (hJ.runners w hw).1) henv)
  enter := by
    intro w v r n s' _ hJ _ henter
    obtain ⟨hdb, hdisk, hrunners, _⟩ := enter_same (system_enter henter).2
    exact ⟨.nothing, trivial, (hJ.steady (.of_same hdb hdisk hrunners)).born (by simp)⟩
  stop hJ hv _ := hJ.keep hv (by simp [claimingPlay])
  crash hJ := (hJ.fallen _).steady ⟨rfl, fun _ hv => hv.1, roster_map orphaned_same _⟩

/-- Nothing runs; the store is that of an earlier run, and the disk is `d`. -/
def inherited (s : Shared) (d : Disk) : World Op.Reply Exn Shared Role Entry :=
  { shared := { down s with disk := d }, procs := [] }

theorem claims_inherited {s : Shared} {d : Disk} (hinv : Inv .any s)
    (hplanned : ∀ oid o, s.db.obs? oid = some o → o.state = .planned →
      d.has (msPathOf oid) = false) : Claims (inherited s d).shared [] where
  ids := hinv.db.ids
  named := hinv.db.msPath
  runners w hw := by
    obtain ⟨w', hw', rfl⟩ := List.mem_map.mp hw
    obtain ⟨hoid, hpath⟩ := orphaned_same w'
    rw [hoid, hpath]
    exact ⟨hinv.runners.msPath w' hw', hinv.runners.rows w' hw'⟩
  planned oid o ho hstate := Disk.has_eq_false.mp (hplanned oid o ho hstate)
  claimed hi := by simp at hi
  once hi := by simp at hi

/-- Over any disk, and over the store of any earlier run or a new one: as long as every
admission takes an id at whose path nothing exists, and nothing exists at the path of
a row that is still planned, a runner only starts at a path at which nothing exists. -/
theorem runner_starts_on_nothing {before w : World Op.Reply Exn Shared Role Entry} {d : Disk}
    (hbefore : unlimited.Reach before)
    (hplanned : ∀ oid o, before.shared.db.obs? oid = some o → o.state = .planned →
      d.has (msPathOf oid) = false)
    (h : system.Reach admitsFree (inherited before.shared d) w) {pid oid : Nat}
    {p : Proc Op.Reply Exn Role Entry} {msPath logPath : Path} {next}
    (hp : w.procs[pid]? = some p) (hcode : p.code = .op (.startObserve oid msPath logPath) next) :
    w.shared.disk.has msPath = false := by
  have hon : claimingPlay.On (inherited before.shared d) [] :=
    ⟨rfl, fun {pid p c} hp _ => by simp [inherited] at hp⟩
  obtain ⟨v, hon, hclaims⟩ :=
    (claims_sound _).reach hon (claims_inherited hbefore.inv hplanned) h
  obtain ⟨g, hv, hin⟩ := hon.entry hp
  obtain ⟨rfl, rfl⟩ : g = .row oid ∧ msPath = msPathOf oid := (hin.tracks hcode).1
  exact Disk.has_eq_false.mpr (hclaims.claimed hv).1.1

def leftover : Disk := initial.disk.put (msPathOf 1) (some smallSet)

/-- The next id is that of a path at which something exists. -/
def occupied (s : Shared) : Op → Bool
  | .db (.createObservationAuto _) => s.disk.has (msPathOf (s.db.obsSeq + 1))
  | _ => false

/-- The start of a runner at a path at which something exists, or at which nothing does. -/
def startsAt (full : Bool) (w : World Op.Reply Exn Shared Role Entry) (pid : Nat) : Bool :=
  match about w pid with
  | some (.startObserve _ msPath _) => w.shared.disk.has msPath == full
  | _ => false

theorem startsAt_some {full : Bool} {w : World Op.Reply Exn Shared Role Entry} {pid : Nat}
    (h : startsAt full w pid = true) : ∃ p oid msPath logPath next, w.procs[pid]? = some p ∧
      p.code = .op (.startObserve oid msPath logPath) next ∧ w.shared.disk.has msPath = full := by
  unfold startsAt at h
  split at h
  · rename_i oid msPath logPath habout
    obtain ⟨p, next, hp, hcode⟩ := about_some habout
    exact ⟨p, oid, msPath, logPath, next, hp, hcode, eq_of_beq h⟩
  · cases h

/-- An unknown tree is at the path that the first observation will get. The restart sets it
aside before the admission, and when the runner is about to start nothing exists there. -/
theorem runner_starts_on_nothing_first : ∃ w p oid msPath logPath next,
    system.Reach admitsFree (inherited initial leftover) w ∧ w.procs[1]? = some p ∧
      p.code = .op (.startObserve oid msPath logPath) next ∧
      w.shared.disk.has msPath = false := by
  have hcheck : ∀ w l, avoids occupied w l = true → admitsFree w l := by
    intro w l h
    cases l with
    | run pid c =>
      intro p reserved next hp hcode
      simpa [avoids, about_eq hp hcode, occupied] using h
    | env | enter | stop | crash => trivial
  have hrun : (system.replay (avoids occupied) ([.enter .main (.run smallConfig)] ++ steps 0 8 ++
      [.run 0 (.order [obsName 1])] ++ steps 0 35 ++ steps 1 4)
      (inherited initial leftover)).any (fun w => startsAt false w 1) = true := by decide +kernel
  obtain ⟨w, hw, htest⟩ := (Option.any_eq_true _ _).mp hrun
  obtain ⟨p, oid, msPath, logPath, next, hp, hcode, _⟩ := startsAt_some htest
  have hreach := Machine.Reach.init.replay hcheck hw
  have hstart : unlimited.Reach start := .init
  exact ⟨w, p, oid, msPath, logPath, next, hreach, hp, hcode,
    runner_starts_on_nothing hstart (fun _ _ ho => by cases ho) hreach hp hcode⟩

/-- The quarantine of the leftover fails, and the runner of the first observation starts
over it. -/
theorem runner_starts_on_leftover : ¬ ∀ (d : Disk) (w : World Op.Reply Exn Shared Role Entry),
    system.Reach (fun _ _ => True) (inherited initial d) w →
    ∀ (pid oid : Nat) (p : Proc Op.Reply Exn Role Entry) (msPath logPath : Path) next,
      w.procs[pid]? = some p → p.code = .op (.startObserve oid msPath logPath) next →
      w.shared.disk.has msPath = false := by
  intro hall
  have hrun : (system.replay (fun _ _ => true) ([.enter .main (.run smallConfig)] ++ steps 0 8 ++
      [.run 0 (.order [obsName 1])] ++ steps 0 4 ++ [.run 0 .fail] ++ steps 0 26 ++ steps 1 4)
      (inherited initial leftover)).any (fun w => startsAt true w 1) = true := by decide +kernel
  obtain ⟨w, hw, htest⟩ := (Option.any_eq_true _ _).mp hrun
  obtain ⟨p, oid, msPath, logPath, next, hp, hcode, hhas⟩ := startsAt_some htest
  have hfree := hall leftover w (Machine.Reach.init.replay (fun _ _ _ => trivial) hw) 1 oid p msPath
    logPath next hp hcode
  rw [hfree] at hhas
  cases hhas

end Sdpctl
