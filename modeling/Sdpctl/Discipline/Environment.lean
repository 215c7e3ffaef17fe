import Sdpctl.Discipline.Keep

/-!
The steps that no process makes: the environment moves, a controller or a
command starts, the controller dies.
-/

namespace Sdpctl

open FileTree Coop

variable {T : Terms} {s s' : Shared}

/-- The environment keeps to the calm terms: a writer is at work, and nothing
gets lost. -/
def Peaceful (e : Env) (s : Shared) : Prop :=
  match e with
  | .write h _ => ∃ w, s.runners[h]? = some w ∧ w.running = true
  | .loss _ => False
  | _ => True

/-- What the environment can make of the state. -/
inductive EnvMove (s : Shared) : Shared → Prop where
  | runners {runners : List Runner} {containers : List Nat}
      (later : RunnersLater s.runners runners)
      (orphans : (∀ w ∈ s.runners, w.state ≠ .orphan) → ∀ w ∈ runners, w.state ≠ .orphan) :
      EnvMove s { s with runners, containers }
  | write {h : Nat} {w : Runner} {t : Tree} {produced : List (Nat × Tree)} {nextIno : Nat}
      (found : s.runners[h]? = some w) (wf : t.wf) :
      EnvMove s { s with disk := s.disk.put w.msPath (some t), produced, nextIno }
  | product {oid attempt : Nat} {t : Tree} (wf : t.wf) (dir : t.isDir)
      (below : (s.disk.ensureDir (parent (outputDir oid attempt))).isDirAt
        (parent (outputDir oid attempt))) :
      EnvMove s { s with disk :=
        (s.disk.ensureDir (parent (outputDir oid attempt))).put (outputDir oid attempt) (some t) }
  | loss {oid : Nat} : EnvMove s { s with disk := s.disk.put (msPathOf oid) none }

theorem forall_mem_modify {P : Runner → Prop} {f : Runner → Runner} {rs : List Runner} {i : Nat}
    (h : ∀ w ∈ rs, P w) (hf : ∀ w, P w → P (f w)) : ∀ w ∈ rs.modify i f, P w := by
  intro w hw
  obtain ⟨j, hj⟩ := List.mem_iff_getElem?.mp hw
  rw [List.getElem?_modify, Option.map_eq_map, Option.map_eq_some_iff] at hj
  obtain ⟨v, hv, rfl⟩ := hj
  have hbefore := h v (List.mem_of_getElem? hv)
  split
  · exact hf v hbefore
  · exact hbefore

theorem env_move {e : Env} (h : env e s = some s') : EnvMove s s' := by
  cases env_cases h with
  | launch =>
    refine .runners ?_ fun hno => forall_mem_modify hno fun _ => id
    apply RunnersLater.modify
    · exact fun _ => rfl
    · exact fun _ => rfl
    · exact fun _ => id
    · exact fun _ => id
  | containerExit => exact .runners (.refl _) id
  | write found live wf => exact .write found wf
  | returned | raised =>
    exact .runners (RunnersLater.setState _ (by simp) (by simp) _)
      fun hno => forall_mem_modify hno (by simp)
  | product wf dir below => exact .product wf dir below
  | loss => exact .loss

theorem ensureDir_cases (d : Disk) (p : Path) :
    d.ensureDir p = d ∨ d.ensureDir p = d.put p (some (.dir 0 [])) := by
  unfold Disk.ensureDir
  split
  · exact .inl rfl
  · exact .inr rfl

/-- A write shows under `observations/` only, and there under its own name. -/
theorem get?_write {w : Runner} {t : Tree} {p : Path} (d : Disk) {oid : Nat}
    (hpath : w.msPath = msPathOf oid) (h : Apart p (msPathOf oid)) :
    (d.put w.msPath (some t)).get? p = d.get? p := by
  rw [hpath]
  exact Disk.get?_put_apart _ _ h

/-- A product shows under `products/` only. -/
theorem get?_product {oid attempt : Nat} {t : Tree} (d : Disk) {n : String} {p : Path}
    (h : n ≠ "products") :
    ((d.ensureDir (parent (outputDir oid attempt))).put (outputDir oid attempt) (some t)).get?
      (n :: p) = d.get? (n :: p) := by
  rw [Disk.get?_put_apart _ _ (by simp [outputDir, h])]
  rcases ensureDir_cases d (parent (outputDir oid attempt)) with heq | heq
  · rw [heq]
  · rw [heq, Disk.get?_put_apart _ _ (by simp [parent, outputDir, h])]

theorem bytesAt_product {oid attempt : Nat} {t : Tree} (d : Disk) {n : String}
    (h : n ≠ "products") :
    ((d.ensureDir (parent (outputDir oid attempt))).put (outputDir oid attempt) (some t)).bytesAt
      [n] = d.bytesAt [n] :=
  Disk.bytesAt_congr (get?_product _ h)

theorem mtime_product {oid attempt : Nat} {t : Tree} (d : Disk) :
    ((d.ensureDir (parent (outputDir oid attempt))).put (outputDir oid attempt) (some t)).mtime
      quarantineRoot = d.mtime quarantineRoot := by
  rcases ensureDir_cases d (parent (outputDir oid attempt)) with heq | heq <;>
    rw [heq] <;> simp [Disk.put, parent, outputDir, quarantineRoot]

theorem DiskOk.product {db : Db} {d : Disk} (hok : DiskOk db d) {oid attempt : Nat} {t : Tree}
    (hwf : t.wf) : DiskOk db
      ((d.ensureDir (parent (outputDir oid attempt))).put (outputDir oid attempt) (some t)) := by
  have hmid : DiskOk db (d.ensureDir (parent (outputDir oid attempt))) := by
    rcases ensureDir_cases d (parent (outputDir oid attempt)) with heq | heq <;> rw [heq]
    · exact hok
    · have hroot : (d.put ["products", "obs-" ++ padded 6 oid] (some (.dir 0 []))).root =
        d.root.set ["products", "obs-" ++ padded 6 oid] (some (.dir 0 [])) := rfl
      exact hok.set hroot (fun u hu => by cases hu; simp [Tree.wfOf]) (by simp)
  exact hmid.set (a := "products") rfl (fun u hu => Option.some.inj hu ▸ hwf) (by simp)

variable {e : Env}

theorem EnvMove.db (h : EnvMove s s') : s'.db = s.db := by cases h <;> rfl

theorem EnvMove.ctl (h : EnvMove s s') : s'.ctl = s.ctl := by cases h <;> rfl

theorem EnvMove.dropped (h : EnvMove s s') : s'.dropped = s.dropped := by cases h <;> rfl

theorem EnvMove.runnersLater (h : EnvMove s s') : RunnersLater s.runners s'.runners := by
  cases h with
  | runners later orphans => exact later
  | _ => exact .refl _

theorem EnvMove.noOrphan (h : EnvMove s s') (hno : NoOrphan s) : NoOrphan s' := by
  cases h with
  | runners later orphans => exact orphans hno
  | _ => exact hno

theorem EnvMove.diskOk (hinv : Inv T s) (h : EnvMove s s') : DiskOk s'.db s'.disk := by
  cases h with
  | runners later orphans => exact hinv.disk
  | write found wf =>
    rename_i i w t _ _
    have hw := List.mem_of_getElem? found
    obtain ⟨o, ho, _⟩ := hinv.runners.rows w hw
    have hroot : (s.disk.put w.msPath (some t)).root =
        s.disk.root.set ["observations", obsName w.oid] (some t) := by
      simp only [Disk.put, hinv.runners.msPath w hw, msPathOf]
    exact hinv.disk.set hroot (fun u hu => Option.some.inj hu ▸ wf)
      fun _ => ⟨rfl, fun _ => ⟨w.oid, o, ho, rfl⟩⟩
  | product wf dir below => exact hinv.disk.product wf
  | loss =>
    rename_i oid
    have hroot : (s.disk.put (msPathOf oid) none).root =
      s.disk.root.set ["observations", obsName oid] none := rfl
    exact hinv.disk.set hroot (by simp) fun _ => ⟨rfl, by simp⟩

theorem EnvMove.quarantine (hinv : Inv T s) (h : EnvMove s s') (p : Path) :
    s'.disk.get? (quarantineRoot ++ p) = s.disk.get? (quarantineRoot ++ p) ∧
      s'.disk.mtime quarantineRoot = s.disk.mtime quarantineRoot := by
  cases h with
  | runners later orphans => exact ⟨rfl, rfl⟩
  | write found wf =>
    have hpath := hinv.runners.msPath _ (List.mem_of_getElem? found)
    refine ⟨get?_write _ hpath (by simp [quarantineRoot, msPathOf]), ?_⟩
    simp [Disk.put, hpath, parent, msPathOf, quarantineRoot]
  | product wf dir below => exact ⟨get?_product _ (by decide), mtime_product _⟩
  | loss =>
    exact ⟨Disk.get?_put_apart _ _ (by simp [quarantineRoot, msPathOf]),
      by simp [Disk.put, parent, msPathOf, quarantineRoot]⟩

theorem EnvMove.cacheOk (hinv : Inv T s) (h : EnvMove s s') :
    ∀ c, s'.ctl.cache = some c → CacheOk s'.disk c := by
  intro c hc
  rw [h.ctl] at hc
  obtain ⟨hget, hmtime⟩ := h.quarantine hinv []
  simp only [List.append_nil] at hget
  exact (hinv.cache c hc).kept (.inr ⟨hmtime, Nat.le_of_eq (Disk.bytesAt_congr hget)⟩)

theorem EnvMove.trash (hinv : Inv T s) (h : EnvMove s s') (oid : Nat) :
    s'.disk.get? (trashPath oid) = s.disk.get? (trashPath oid) := by
  cases h with
  | runners later orphans => rfl
  | write found wf =>
    exact get?_write _ (hinv.runners.msPath _ (List.mem_of_getElem? found))
      (by simp [trashPath, msPathOf])
  | product wf dir below => exact get?_product _ (by decide)
  | loss => exact Disk.get?_put_apart _ _ (by simp [trashPath, msPathOf])

theorem env_ms (hinv : Inv T s) (hcalm : Peaceful e s) (h : env e s = some s') (oid : Nat)
    (hno : NoWriter oid s) : s'.disk.get? (msPathOf oid) = s.disk.get? (msPathOf oid) := by
  cases env_cases h with
  | launch | containerExit | returned | raised => rfl
  | @write handle t w found =>
    obtain ⟨v, hv, hrun⟩ := hcalm
    obtain rfl : v = w := Option.some.inj (hv.symm.trans found)
    have hmem := List.mem_of_getElem? hv
    have hne : oid ≠ v.oid := by
      rintro rfl
      simp [hno v hmem rfl] at hrun
    exact get?_write _ (hinv.runners.msPath v hmem) (by simp [msPathOf, hne])
  | product => exact get?_product _ (by decide)
  | loss => exact hcalm.elim

theorem env_inv (hinv : Inv T s) (hcalm : T.Calm → Peaceful e s) (h : env e s = some s') :
    Inv T s' := by
  have hmove := env_move h
  refine ⟨?_, hmove.diskOk hinv, ?_, ?_, hmove.cacheOk hinv, ?_, ?_⟩
  · rw [hmove.db, hmove.dropped]
    exact hinv.db
  · exact hinv.tasks.rowsKept (by rw [hmove.ctl]) (by rw [hmove.ctl]) (by rw [hmove.db]; simp)
  · refine hinv.runners.later hmove.runnersLater ?_ ?_ ?_
    · exact fun oid o ho hs => ⟨o, by rw [hmove.db]; exact ho, hs⟩
    · exact fun _ _ _ hobs => by rw [hmove.db]; exact hobs
    · exact fun _ _ _ hlive => by rw [hmove.ctl]; exact hlive
  · intro oid o ho hopen
    rw [hmove.db] at ho
    exact (hmove.trash hinv oid).trans (hinv.trash oid o ho hopen)
  · intro hT oid o ho
    rw [hmove.db] at ho
    have hid := (Db.mem_of_obs? ho).2
    have hbefore := hinv.weighs hT oid o ho
    have htrash := hmove.trash hinv oid
    by_cases hobs : o.state = .observing
    · unfold Disk.Weighs Disk.absent at hbefore ⊢
      simp only [hobs, hid] at hbefore ⊢
      rwa [htrash]
    · have hno := hinv.runners.noWriter ho hobs
      exact Disk.weighs_congr (hid ▸ env_ms hinv (hcalm hT) h oid hno) (hid ▸ htrash) hbefore

/-- A controller that comes up finds no task, so no runner is pending. -/
theorem enter_inv {r : Role} {n : Entry} (hinv : Inv T s) (h : enter r n s = some s') :
    Inv T s' := by
  cases enter_cases h with
  | boot down =>
    have hidle := hinv.tasks.down down
    refine ⟨hinv.db, hinv.disk, ⟨by simp, by simp, by simp, by simp⟩, ?_, by simp, hinv.trash,
      hinv.weighs⟩
    refine hinv.runners.later (RunnersLater.refl _) ?_ ?_ ?_
    · exact fun oid o ho hs => ⟨o, ho, hs⟩
    · exact fun _ _ _ hobs => hobs
    · intro w hw hpend hlive
      simp [Ctl.live, Ctl.latest, hidle] at hlive
  | resolve =>
    exact ⟨hinv.db.mono (List.subset_cons_self _ _), hinv.disk,
      ⟨hinv.tasks.nodup, hinv.tasks.bound, hinv.tasks.rows, hinv.tasks.down⟩,
      ⟨hinv.runners.msPath, hinv.runners.rows, hinv.runners.nodup, hinv.runners.observing,
        hinv.runners.live⟩, hinv.cache, hinv.trash, hinv.weighs⟩
  | command => exact hinv

theorem down_inv (hinv : Inv T s) : Inv T (down s) := by
  refine ⟨hinv.db, hinv.disk, ⟨by simp [down], by simp [down], by simp [down], by simp [down]⟩, ?_,
    by simp [down], hinv.trash, hinv.weighs⟩
  refine hinv.runners.later (RunnersLater.orphaned _) ?_ ?_ ?_
  · exact fun oid o ho hs => ⟨o, ho, hs⟩
  · exact fun _ _ _ hobs => hobs
  · intro w hw hpend
    obtain ⟨v, _, rfl⟩ := List.mem_map.mp hw
    unfold Runner.orphaned at hpend
    split at hpend
    · cases hpend
    · rename_i hne
      exact absurd hpend hne

end Sdpctl
