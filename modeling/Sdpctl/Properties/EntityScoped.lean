import Sdpctl.Properties.Restart
import Sdpctl.Restart.Scoped

/-!
Recovery is entity-scoped. File operations on some entities may fail during a
restart; the controller still starts, the other entities come to where they come
without a failure, and a failed recovery is recorded. The scan for orphans resolves
paths outside its `try`, so it is so as long as none of these resolutions fails.
-/

namespace Sdpctl

open FileTree Coop

/-- The estate `E` is, outside `F`, what the restart without a failure makes of the
first one: the rows, the sizes and the data at its places are the same, and what was
set aside is in quarantine, each at a place of its own under the same label. -/
structure Unaffected (first : Estate) (F : Entity → Prop) (E₀ E : Estate) : Prop where
  observations : ∀ i, first.Has (.observation i) → ¬ F (.observation i) → Estate.Alike i E₀ E
  children : ∀ n, first.Has (.child n) → ¬ F (.child n) →
    E.disk.get? ["observations", n] = E₀.disk.get? ["observations", n]
  shelves : ∃ shelf₀ shelf, Shelved first.disk E₀.disk shelf₀ ∧ Shelved first.disk E.disk shelf ∧
    ∀ e, first.SetsAside e → ¬ F e → (shelf₀ e).isSome ∧ (shelf e).isSome

/-- A step of the recovery of the observation has raised: its `except` clause is next. -/
def Caught {α : Type} (oid : Nat) (e : Exn) (context : String) (p : M α) : Prop :=
  ∃ rest : Unit → M α, p = (recordObservationRecoveryFailure oid e context).bind rest

/-- A restart from `s`, when the operations `faults` on the entities `F` may fail. -/
structure EntityScoped (F : Entity → Prop) (faults : Op → Prop) (s : Shared) : Prop where
  returns : ∀ p t, Prog.Leads (failing faults) startup s p t →
    (∃ x u, Prog.Leads (failing faults) p t (.ret x) u) ∧ ∀ x, p = .ret x → x = .ok ()
  unaffected : ∀ x t t₀, Prog.Leads (failing faults) startup s (.ret x) t →
    Prog.Leads (smoothly .main) startup s (.ret (.ok ())) t₀ →
    Unaffected s.estate F t₀.estate t.estate
  recorded : ∀ i e context p t, F (.observation i) → Prog.Leads (failing faults) startup s p t →
    Caught i e context p → ∀ x u, Prog.Leads (failing faults) p t (.ret x) u →
      (∃ o, u.db.obs? i = some o ∧ o.error.isSome) ∧
      t.db.events ++ [.observation i none none (failureMessage e context)] <+: u.db.events

section Recorded

variable {faults : Op → Prop} {s t u : Shared} {i : Nat}

theorem failing_exec {o : Op} {x : Except Exn o.Reply} (h : (failing faults).does o s x t) :
    ∃ c, exec .main o c s = some (x, t) := by
  rcases h with ⟨c, _, hexec⟩ | ⟨_, _, hexec⟩
  · exact ⟨c, hexec⟩
  · exact hexec

theorem failing_keeps {I : Db → Prop} (hI : ∀ db q db', db.Ids → Db.Call db q db' → I db → I db')
    {α : Type} {p q : M α} (h : Prog.Leads (failing faults) p s q t) (ids : s.db.Ids)
    (hs : I s.db) : t.db.Ids ∧ I t.db := by
  refine h.keeps (I := fun t => t.db.Ids ∧ I t.db) ?_ ⟨ids, hs⟩
  rintro o s x t hdoes ⟨ids, hs⟩
  obtain ⟨c, hexec⟩ := failing_exec hdoes
  refine ⟨exec_ids hexec ids, ?_⟩
  rcases (exec_framed hexec).db with hsame | ⟨q, y, db, _, _, hrun, rfl⟩
  · rw [hsame]
    exact hs
  · exact hI _ q _ ids (.of_run ids hrun) hs

/-- The `except` clause writes the failure to the row and to the history. -/
theorem recordObservationRecoveryFailure_writes {e : Exn} {context : String} {o : Observation}
    (ids : s.db.Ids) (ho : s.db.obs? i = some o) :
    Smooth .main (fun _ => True) (recordObservationRecoveryFailure i e context)
      (fun _ t => t.db.Ids ∧ (∃ o, t.db.obs? i = some o ∧ o.error.isSome) ∧
        t.db.events = s.db.events ++ [.observation i none none (failureMessage e context)]) s := by
  obtain ⟨_, rfl⟩ := Db.mem_of_obs? ho
  have step := Db.forceObservationFields_found ids ho none (some (failureMessage e context))
  have hids : ∀ db : Db, db.Ids →
      (db.recordEvent .observation o.id (failureMessage e context)).Ids :=
    fun db ids => ⟨ids.obsNodup, ids.obsBound, ids.runNodup, ids.runBound⟩
  have hforce :
      (Query.forceObservationFields o.id none (some (failureMessage e context))).run s.db =
        .ok ((), s.db.forceObservationFields o.id none (some (failureMessage e context))) := rfl
  have hrecord : ∀ db : Db,
      (Query.recordEvent .observation o.id (failureMessage e context)).run db =
      .ok ((), db.recordEvent .observation o.id (failureMessage e context)) := fun _ => rfl
  refine Prog.Gives.finallyDo (smooth_store (K := fun _ => True) hforce trivial
    (smooth_store (K := fun _ => True) (hrecord _) trivial ?_))
  exact ⟨hids _ (step.ids ids), ⟨_, step.obs?_self, rfl⟩, rfl⟩

theorem startup_recorded (hpath : ∀ o, faults o → o.path ≠ none) (ids : s.db.Ids) {e : Exn}
    {context : String} {p : M Unit} (hrow : (s.db.obs? i).isSome)
    (h : Prog.Leads (failing faults) startup s p t) (hcaught : Caught i e context p)
    {x : Except Exn Unit} (hend : Prog.Leads (failing faults) p t (.ret x) u) :
    (∃ o, u.db.obs? i = some o ∧ o.error.isSome) ∧
      t.db.events ++ [.observation i none none (failureMessage e context)] <+: u.db.events := by
  obtain ⟨rest, rfl⟩ := hcaught
  obtain ⟨ids', hrow'⟩ := failing_keeps (I := fun db => (db.obs? i).isSome)
    (fun db q db' ids call hdb => by
    obtain ⟨o, ho⟩ := Option.isSome_iff_exists.mp hdb
    obtain ⟨o', ho', _⟩ := call.remains ids ho
    rw [ho']
    rfl) h ids hrow
  obtain ⟨o, ho⟩ := Option.isSome_iff_exists.mp hrow'
  have hwrites : Copes faults (recordObservationRecoveryFailure i e context) _ t :=
    .of_smooth (uses_pathless hpath (recordObservationRecoveryFailure_pathless _ _ _))
      (recordObservationRecoveryFailure_writes ids' ho)
  obtain ⟨_, v, ⟨hids, herror, hevents⟩, hrest⟩ := hwrites.split hend
  refine (failing_keeps (I := fun db => (∃ o, db.obs? i = some o ∧ o.error.isSome) ∧
    t.db.events ++ [.observation i none none (failureMessage e context)] <+: db.events) ?_
    hrest hids
    ⟨herror, hevents ▸ List.prefix_refl _⟩).2
  rintro db q db' ids call ⟨⟨o, ho, hset⟩, hprefix⟩
  exact ⟨call.error_stays ids ho hset, hprefix.trans call.appends⟩

end Recorded

section Scan

variable {first : Estate} {F : Entity → Prop} {faults : Op → Prop} {s t : Shared}

theorem startup_isolated (hfirst : s.estate.Named) (hfaults : Faults s.estate F faults)
    (hresolve : Resolvable s.estate faults) (ids : s.db.Ids) :
    Copes faults startup (fun _ t => Isolated s.estate F t.estate) s := by
  refine Prog.Gives.bind (Copes.of_smooth (K := fun _ => True)
    (P := fun _ t => t.db = s.db ∧ t.disk = s.disk)
    (Prog.uses_call fun hfault => hfaults.path hfault rfl)
    (smooth_killManaged trivial fun t hdb hdisk => ⟨hdb, hdisk⟩)) ?_
  rintro _ t ⟨hdb, hdisk⟩
  refine phases_journey hfirst hfaults (hdb ▸ ids) (estate_files hdb hdisk)
    (W := fun p t => Copes faults p (fun _ t => Isolated s.estate F t.estate) t)
    (Prog.Gives.sequential _) fun t ids h hshelves => ?_
  exact scanOrphans_isolated hfirst hfaults hresolve ids h hshelves

theorem resolve_raises {p : Path} (h : faults (.resolve p)) :
    (call (.resolve p)).Raises (failing faults) s :=
  ⟨.osError p, s, .next .here (.inr ⟨h, ⟨_, rfl⟩, .fail, rfl⟩)⟩

theorem foldEach_raises {rows : List Observation}
    (h : ∃ o ∈ rows, faults (.resolve o.msPath)) (known : List Path) (s : Shared) :
    (Prog.foldEach rows known fun known o => do
      let p ← call (.resolve o.msPath)
      return p :: known).Raises (failing faults) s := by
  induction rows generalizing known s with
  | nil => simp at h
  | cons o rest ih =>
    by_cases ho : faults (.resolve o.msPath)
    · exact ((resolve_raises ho).bind _).bind _
    · obtain ⟨p, hp, hfault⟩ := h
      have hrest : ∃ p ∈ rest, faults (.resolve p.msPath) := by
        rcases List.mem_cons.mp hp with rfl | hmem
        · exact absurd hfault ho
        · exact ⟨p, hmem, hfault⟩
      have hfirst : Copes faults (call (.resolve o.msPath)) (fun _ _ => True) s :=
        .of_smooth (K := fun _ => True) (Prog.uses_call ho) (smooth_resolve trivial trivial)
      refine Prog.Raises.sequential (hfirst.bind (Q := fun x t => ∃ k, x = .ok k ∧ True)
        fun p t _ =>
        ⟨_, rfl, trivial⟩) fun k t _ => ih hrest k t

theorem forEach_raises {known : List Path} {names : List String}
    (hpath : ∀ o, faults o → o.path ≠ none)
    (h : ∃ n ∈ names, faults (.resolve ["observations", n])) (ids : s.db.Ids)
    (hstands : s.disk.Stands)
    (hknown : ∀ p, p ∈ known ↔ p ∈ s.estate.observations.map Observation.msPath) :
    (Prog.forEach names (scanChild known)).Raises (failing faults) s := by
  induction names generalizing s with
  | nil => simp at h
  | cons n rest ih =>
    by_cases hn : faults (.resolve ["observations", n])
    · exact ((resolve_raises hn).bind _).bind _
    · obtain ⟨m, hm, hfault⟩ := h
      have hrest : ∃ m ∈ rest, faults (.resolve ["observations", m]) := by
        rcases List.mem_cons.mp hm with rfl | hmem
        · exact absurd hfault hn
        · exact ⟨m, hmem, hfault⟩
      refine Prog.Raises.sequential (scanChild_attempted hpath ids hstands hn hknown
        fun _ _ _ _ => (trivial : True)) ?_
      rintro _ t ⟨hids, ht⟩
      have hsame : (s.disk.Stands → t.disk.Stands) ∧
          t.estate.observations = s.estate.observations := by
        rcases ht with ht | ⟨_, _, ht⟩
        · have hkeeps := Estate.scanned_keeps (E := s.estate) n
          rw [← ht] at hkeeps
          exact hkeeps
        · have hdisk : t.disk = s.disk := congrArg Estate.disk ht
          rw [ht, hdisk]
          exact ⟨id, rfl⟩
      exact ih hrest hids (hsame.1 hstands) (by rw [hsame.2]; exact hknown)

theorem startup_raises (hfirst : s.estate.Named) (hfaults : Faults s.estate F faults)
    (ids : s.db.Ids) (h : ¬ Resolvable s.estate faults) : startup.Raises (failing faults) s := by
  have hpath : ∀ o, faults o → o.path ≠ none := fun o => hfaults.path
  have hsmooth : ∀ {o : Op} {P : o.Reply → Shared → Prop} {t : Shared}, ¬ faults o →
      Smooth .main (fun _ => True) (call o) P t → Copes faults (call o) P t :=
    fun ho => .of_smooth (Prog.uses_call ho)
  refine Prog.Raises.sequential (hsmooth (P := fun _ t => t.db = s.db ∧ t.disk = s.disk)
    (fun hfault => hpath _ hfault rfl)
    (smooth_killManaged trivial fun t hdb hdisk => ⟨hdb, hdisk⟩)) ?_
  rintro _ t ⟨hdb, hdisk⟩
  refine phases_journey hfirst hfaults (hdb ▸ ids) (estate_files hdb hdisk)
    (W := fun p t => p.Raises (failing faults) t) Prog.Raises.sequential fun t ids hscan _ => ?_
  have hlook : Copes faults (store (.listObservations []))
      (fun rows u => rows = t.estate.observations ∧ u = t) t :=
    hsmooth (fun hfault => hpath _ hfault rfl) (smooth_look rfl trivial ⟨rfl, rfl⟩)
  by_cases hrow : ∃ o ∈ t.estate.observations, faults (.resolve o.msPath)
  · refine Prog.Raises.sequential hlook ?_
    rintro _ _ ⟨rfl, rfl⟩
    exact (foldEach_raises hrow [] _).bind _
  -- the paths of the rows can be resolved, so it is a child that no row knows
  have hrows : ∀ o ∈ t.estate.observations, ¬ faults (.resolve o.msPath) :=
    fun o ho hfault => hrow ⟨o, ho, hfault⟩
  obtain ⟨n, hhas, hfault⟩ : ∃ n, t.disk.has ["observations", n] = true ∧
      faults (.resolve ["observations", n]) := by
    by_contra hno
    refine h ⟨fun o ho hfault => ?_, fun n hn hfault => ?_⟩
    · obtain ⟨p, hp, _, hsame⟩ := hscan.kin.symm.sameRows.mem_obs ho
      exact hrows p hp (hsame ▸ hfault)
    · by_cases hknown : ["observations", n] ∈ s.estate.observations.map Observation.msPath
      · rw [← hscan.kin.sameRows.msPaths] at hknown
        obtain ⟨o, ho, hsame⟩ := List.mem_map.mp hknown
        exact hrows o ho (hsame ▸ hfault)
      · have hsame : t.disk.get? ["observations", n] = s.disk.get? ["observations", n] :=
          hscan.unknown n hknown
        have hn' : s.disk.has ["observations", n] = true := hn
        exact hno ⟨n, by rwa [Disk.has, hsame], hfault⟩
  obtain ⟨j, es, hdir⟩ : t.disk.root.IsDir ["observations"] :=
    hscan.named.stands _ (by simp [layout])
  have hget : t.disk.get? observationsRoot = some (.dir j es) := hdir
  have hnames : t.disk.names observationsRoot = .ok (es.map (·.1)) := by
    simp [Disk.names, hget]
  refine scanOrphans_loop (W := fun p t => p.Raises (failing faults) t) Prog.Raises.sequential hlook
    (fun o ho => hsmooth (hrows o ho) (smooth_resolve trivial ⟨rfl, rfl⟩))
    (hsmooth (observationsRoot_common hfaults)
      (smooth_exists trivial ⟨by simp [Disk.has, hget], rfl⟩)) fun known hknown => ?_
  refine Prog.Raises.sequential (hsmooth (o := .iterdir observationsRoot)
    (P := fun names u => names.Perm (es.map (·.1)) ∧ u = t) (fun hfault => hpath _ hfault rfl)
    (smooth_iterdir hnames trivial fun names hperm => ⟨hperm, rfl⟩)) ?_
  rintro names _ ⟨hperm, rfl⟩
  exact forEach_raises hpath ⟨n, hperm.mem_iff.mpr ((Disk.mem_names hnames).mpr hhas), hfault⟩ ids
    hscan.named.stands hknown

end Scan

/-- The rows of a reachable state, over any files in a layout that stands. -/
theorem Inv.named {T : Terms} {s : Shared} (hinv : Inv T s) {d : Disk} (hd : d.Stands) :
    ({ s with disk := d } : Shared).estate.Named where
  toPlaced := hinv.placed hd
  rowPath o ho := hinv.db.msPath _ o (Keyed.find_of_mem hinv.db.ids.obsNodup ho)
  runPath q hq := by
    have hout := hinv.db.outputPrefix _ q (Keyed.find_of_mem hinv.db.ids.runNodup hq)
    exact ⟨_, by rw [hout, parent_product]⟩
  runOwner q hq := hinv.db.owner _ q (Keyed.find_of_mem hinv.db.ids.runNodup hq)

theorem Restarts.named {w : World Op.Reply Exn Shared Role Entry} (h : unlimited.Reach w)
    {s : Shared} (hs : Restarts w.shared s) {d : Disk} (hd : d.Stands) :
    ({ s with disk := d } : Shared).estate.Named ∧ s.db.Ids := by
  obtain ⟨hdb, _⟩ := hs.same
  have hw := h.inv.named hd
  simp only [Shared.estate, hdb] at hw ⊢
  exact ⟨hw, h.inv.db.ids⟩

section EntityScoped

variable {F : Entity → Prop} {faults : Op → Prop} {s : Shared}

theorem entityScoped_of_resolvable (hfirst : s.estate.Named) (hfaults : Faults s.estate F faults)
    (ids : s.db.Ids) (hresolve : Resolvable s.estate faults) : EntityScoped F faults s := by
  have hrun := startup_isolated hfirst hfaults hresolve ids
  refine ⟨fun p t hleads => ?_, fun x t t₀ hleads hleads₀ => ?_, ?_⟩
  · have hrest := (hrun.leads trivial hleads).1
    refine ⟨hrest.ends, ?_⟩
    rintro x rfl
    obtain ⟨a, ha, _⟩ := hrest
    exact ha
  · obtain ⟨_, _, hend⟩ := hrun.result trivial hleads
    have hnone : Faults s.estate (fun _ => False) fun _ => False := ⟨nofun, nofun⟩
    have hrun₀ := startup_isolated hfirst hnone ⟨fun _ _ => id, fun _ _ => id⟩ ids
    obtain ⟨_, _, hend₀⟩ := hrun₀.result trivial (hleads₀.mono fun _ _ _ _ => .inl)
    obtain ⟨shelf₀, hshelf₀, hdue₀⟩ := hend₀.shelves
    obtain ⟨shelf, hshelf, hdue⟩ := hend.shelves
    refine ⟨fun i hi hF => (hend₀.alike i hi id).symm.trans (hend.alike i hi hF),
      fun n hn hF => (hend.children n hn hF).trans (hend₀.children n hn id).symm,
      shelf₀, shelf, hshelf₀, hshelf, fun e he hF => ⟨hdue₀ e ⟨he, id⟩, hdue e ⟨he, hF⟩⟩⟩
  · intro i e context p t hF hleads hcaught x u hend
    exact startup_recorded (fun o => hfaults.path) ids (hfaults.has _ hF) hleads hcaught hend

theorem not_entityScoped_of_raises (h : startup.Raises (failing faults) s) :
    ¬ EntityScoped F faults s := by
  obtain ⟨e, t, hleads⟩ := h
  intro hscoped
  have hok := (hscoped.returns _ _ hleads).2 _ rfl
  cases hok

end EntityScoped

/-- Recovery is entity-scoped exactly when no resolution of the scan for orphans can
fail. From every reachable state, over whatever files there are, a controller that
starts while file operations on the entities `F` fail comes to its end, leaves every
other entity as it would be without a failure, and records every failed recovery of
an observation; but a path of a row, or of a child, that cannot be resolved keeps it
from starting. -/
theorem reconcile_entity_scoped {w : World Op.Reply Exn Shared Role Entry} (h : unlimited.Reach w)
    {s : Shared} (hs : Restarts w.shared s) {d : Disk} (hd : d.Stands) {F : Entity → Prop}
    {faults : Op → Prop} (hfaults : Faults ({ s with disk := d } : Shared).estate F faults) :
    EntityScoped F faults { s with disk := d } ↔
      Resolvable ({ s with disk := d } : Shared).estate faults := by
  obtain ⟨hnamed, ids⟩ := hs.named h hd
  constructor
  · intro hscoped
    by_contra hresolve
    exact not_entityScoped_of_raises (startup_raises hnamed hfaults ids hresolve) hscoped
  · exact entityScoped_of_resolvable hnamed hfaults ids

def anyOn (F : Entity → Prop) (o : Op) : Prop := ∃ e p, F e ∧ o.path = some p ∧ e.Owns p

theorem interrupted_with_child (name : String) (hname : name ≠ obsName 1) :
    ∃ (w : World Op.Reply Exn Shared Role Entry) (s : Shared) (d : Disk), unlimited.Reach w ∧
      Restarts w.shared s ∧ d.Stands ∧ d.has ["observations", name] = true ∧
      ({ s with disk := d } : Shared).estate.Has (.observation 1) ∧
      ({ s with disk := d } : Shared).estate.Has (.child name) := by
  obtain ⟨w, hreach, htest⟩ := unlimited.reach_of_replay (fun _ _ => true)
    (fun _ l _ => unlimited_ok l) firstObservation
    (fun w => (w.shared.db.observations.map Observation.msPath == [msPathOf 1]) &&
      ((w.shared.db.obs? 1).isSome &&
        (enter .main (.run smallConfig) (down w.shared)).isSome)) (by decide +kernel)
  simp only [Bool.and_eq_true, beq_iff_eq] at htest
  obtain ⟨hpaths, hrow, hstarts⟩ := htest
  obtain ⟨s, hs⟩ := Option.isSome_iff_exists.mp hstarts
  have hrestarts : Restarts w.shared s := ⟨smallConfig, hs⟩
  obtain ⟨hdb, _⟩ := hrestarts.same
  have hstands := hreach.inv.disk.dirs
  refine ⟨w, s, w.shared.disk.put ["observations", name] (some (.file 9 [])), hreach, hrestarts,
    Disk.Stands.put hstands "observations" name [] _, ?_, ?_, ?_⟩
  · have hself : (w.shared.disk.put ["observations", name] (some (.file 9 []))).get?
        ["observations", name] = some (.file 9 []) :=
      Disk.get?_put_self (p := ["observations"]) (hstands _ (by simp [layout]))
    simp [Disk.has, hself]
  · change (s.db.obs? 1).isSome
    rw [hdb]
    exact hrow
  · change ["observations", name] ∉ s.db.observations.map Observation.msPath
    rw [hdb, hpaths]
    simpa [msPathOf] using hname

/-- The existence test of an interrupted observation's path fails, with an unknown child beside
it. All paths can be resolved, so the controller starts and the failure stays with its entity.
-/
theorem reconcile_entity_scoped_first : ∃ (w : World Op.Reply Exn Shared Role Entry) (s : Shared)
    (d : Disk), unlimited.Reach w ∧ Restarts w.shared s ∧ d.has ["observations", "loop"] = true ∧
      EntityScoped (fun e => e = .observation 1) (fun o => o = .exists_ (msPathOf 1))
        { s with disk := d } := by
  obtain ⟨w, s, d, hreach, hrestarts, hstands, hhas, hrow, _⟩ :=
    interrupted_with_child "loop" (by decide)
  refine ⟨w, s, d, hreach, hrestarts, hhas, (reconcile_entity_scoped hreach hrestarts hstands
    ⟨?_, ?_⟩).mpr ⟨nofun, nofun⟩⟩
  · rintro _ rfl
    exact hrow
  · rintro _ rfl
    exact ⟨_, _, rfl, rfl, .inl rfl⟩

/-- A child of `observations/` that cannot be resolved, such as a symbolic link to
itself, keeps the controller from starting. -/
theorem reconcile_stopped_by_child : ∃ (w : World Op.Reply Exn Shared Role Entry) (s : Shared)
    (d : Disk), unlimited.Reach w ∧ Restarts w.shared s ∧ d.Stands ∧
      Faults ({ s with disk := d } : Shared).estate (fun e => e = .child "loop")
        (anyOn fun e => e = .child "loop") ∧
      ¬ EntityScoped (fun e => e = .child "loop") (anyOn fun e => e = .child "loop")
        { s with disk := d } := by
  obtain ⟨w, s, d, hreach, hrestarts, hstands, hhas, _, hchild⟩ :=
    interrupted_with_child "loop" (by decide)
  have hfaults : Faults ({ s with disk := d } : Shared).estate (fun e => e = .child "loop")
      (anyOn fun e => e = .child "loop") := ⟨by rintro _ rfl; exact hchild, fun _ ho => ho⟩
  obtain ⟨hnamed, ids⟩ := hrestarts.named hreach hstands
  refine ⟨w, s, d, hreach, hrestarts, hstands, hfaults, not_entityScoped_of_raises
    (startup_raises hnamed hfaults ids fun hresolve => ?_)⟩
  exact hresolve.2 "loop" hhas ⟨_, _, rfl, rfl, rfl⟩

end Sdpctl
