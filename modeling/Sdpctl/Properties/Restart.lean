import Sdpctl.Restart.Regular

/-!
Restarts converge. A controller that starts alone, over whatever the one before
has left, comes to rows and files that are reconciled; a second restart changes
nothing; and it does not matter how often a restart is interrupted on the way.
-/

namespace Sdpctl

open FileTree Coop

/-- What a controller does before its first tick. -/
def startup : M Unit := startupReconcile (call .killManaged)

/-- A controller starts after the one before has died, with whatever the death has left of the
rows, the files and the containers. -/
def Restarts (s s' : Shared) : Prop := ∃ cfg, enter .main (.run cfg) (down s) = some s'

/-- Where restarts have come that were interrupted again and again. -/
inductive Interrupted (s : Shared) : Shared → Prop where
  | never : Interrupted s s
  | again {c d c' : Shared} (before : Interrupted s c)
      (cut : Prog.Leaves (smoothly .main) startup c d)
      (restarts : Restarts d c') : Interrupted s c'

structure Reconciled (E : Estate) : Prop where
  observing : ∀ o ∈ E.observations, o.state ≠ .observing
  running : ∀ q ∈ E.processingRuns, q.state ≠ .running
  present : ∀ o ∈ E.observations, o.state = .stored → E.disk.has o.msPath = true
  unaccepted : ∀ o ∈ E.observations, o.state = .stored →
    (∀ q ∈ E.processingRuns, q.observationId = o.id → Db.isActive q = false) →
    ∀ q ∈ E.processingRuns, q.observationId = o.id → q.state ≠ .accepted
  deleting : ∀ o ∈ E.observations, o.state = .deleting →
    E.disk.has o.msPath = true ∧ E.disk.has (trashPath o.id) = true

section Restarts

variable {s s' t c d : Shared}

theorem Restarts.same (h : Restarts s s') : s'.db = s.db ∧ s'.estate = s.estate := by
  obtain ⟨cfg, h⟩ := h
  obtain ⟨hdb, hdisk, _, _⟩ := enter_same h
  have hdb' : s'.db = s.db := hdb
  have hdisk' : s'.disk = s.disk := hdisk
  exact ⟨hdb', estate_files hdb' hdisk'⟩

theorem leaves_ids {α : Type} {p : M α} (h : Prog.Leaves (smoothly .main) p s t) (ids : s.db.Ids) :
    t.db.Ids := by
  refine h.keeps (I := fun s => s.db.Ids) ?_ ?_ ids
  · rintro o s x t ⟨_, _, hexec⟩ ids
    exact exec_ids hexec ids
  · rintro o s t ⟨_, _, hexec⟩ ids
    exact exec_ids hexec ids

theorem Toward.trans {E F G : Estate} (h : Toward E F) (h' : Toward F G) : Toward E G := by
  refine ⟨h'.regular, h'.goal.trans h.goal, fun hdone => ?_⟩
  obtain rfl := h.idle hdone
  exact h'.idle hdone

theorem Interrupted.toward (h : Interrupted s c) (ids : s.db.Ids) (hregular : s.estate.Regular) :
    c.db.Ids ∧ Toward s.estate c.estate := by
  induction h with
  | never => exact ⟨ids, hregular, rfl, fun _ => rfl⟩
  | again _ cut restarts ih =>
    obtain ⟨ids', htoward⟩ := ih
    obtain ⟨hdb, hestate⟩ := restarts.same
    have hcut := (startupReconcile_smooth ids' htoward.regular).leaves
      ⟨htoward.regular, rfl, fun _ => rfl⟩ cut
    rw [hdb, hestate]
    exact ⟨leaves_ids cut ids', htoward.trans hcut⟩

end Restarts

theorem Restarted.reconciled {first E : Estate} (h : Restarted first E) : Reconciled E := by
  have hmended : ∀ m : Mending, m = givingUp ∨ m = releasing ∨ m = deleting ∨ m = verifying →
      ∀ o ∈ E.observations, o.state = m.state → m.settled E o := fun m hm o ho hs =>
    h.done _ (mending_mem hm ho) o (h.regular.obs? ho) hs
  refine ⟨fun o ho hs => hmended givingUp (by simp) o ho hs, fun q hq hs => ?_,
    fun o ho hs => hmended verifying (by simp) o ho hs,
    fun o ho hs hidle q hq howner haccepted => ?_,
    fun o ho hs => ?_⟩
  · exact (abandoning_done h.regular).mp (h.done _ (abandoning_mem hq)) q (h.regular.run? hq) hs
  · have hkept : E.releases o.id = false := hmended releasing (by simp) o ho hs
    have hreleases : E.releases o.id = true := by
      simp only [Estate.releases, Bool.and_eq_true, List.any_eq_true, Bool.not_eq_true',
        List.any_eq_false, List.mem_filter, beq_iff_eq]
      exact ⟨⟨q, ⟨hq, howner⟩, haccepted⟩, fun p hp => by simp [hidle p hp.1 hp.2]⟩
    rw [hkept] at hreleases
    cases hreleases
  · obtain ⟨hwedged, _⟩ := hmended deleting (by simp) o ho hs
    simpa [Disk.wedged] using hwedged

/-- A startup over a regular estate comes to its end, and carries out every repair. -/
theorem startup_ends {s : Shared} (ids : s.db.Ids) (hregular : s.estate.Regular) :
    (∀ p t, Prog.Leads (smoothly .main) startup s p t →
      ∃ x u, Prog.Leads (smoothly .main) p t (.ret x) u) ∧
    ∀ x t, Prog.Leads (smoothly .main) startup s (.ret x) t →
      x = .ok () ∧ Restarted s.estate t.estate := by
  have hrun := startupReconcile_smooth ids hregular
  have hself : Toward s.estate s.estate := ⟨hregular, rfl, fun _ => rfl⟩
  refine ⟨fun p t hleads => (hrun.leads hself hleads).1.ends, fun x t hleads => ?_⟩
  obtain ⟨a, rfl, ha⟩ := hrun.result hself hleads
  exact ⟨rfl, ha⟩

/-- Restarts converge: from every reachable state a controller that starts alone,
with its gate opened and no operation failing, comes to the same reconciled rows
and files, however often it is interrupted and started again; and the next
restart changes nothing. -/
theorem restart_converges {w : World Op.Reply Exn Shared Role Entry} (h : unlimited.Reach w)
    {s : Shared} (hs : Restarts w.shared s) :
    ∃ E : Estate, Reconciled E ∧ ∀ c, Interrupted s c →
      (∀ p t, Prog.Leads (smoothly .main) startup c p t →
        ∃ x u, Prog.Leads (smoothly .main) p t (.ret x) u) ∧
      ∀ x t, Prog.Leads (smoothly .main) startup c (.ret x) t → x = .ok () ∧ t.estate = E ∧
        ∀ t', Restarts t t' → ∀ u, Prog.Leaves (smoothly .main) startup t' u → u.estate = E := by
  obtain ⟨hdb, hestate⟩ := hs.same
  have ids : s.db.Ids := hdb ▸ h.inv.db.ids
  have hregular : s.estate.Regular := hestate ▸ h.regular
  refine ⟨s.estate.restarted, ?_, fun c hc => ?_⟩
  · obtain ⟨hends, hresult⟩ := startup_ends ids hregular
    obtain ⟨x, t, hend⟩ := hends _ _ .here
    obtain ⟨_, hrestarted⟩ := hresult x t hend
    exact hrestarted.arrived ▸ hrestarted.reconciled
  obtain ⟨hids, htoward⟩ := hc.toward ids hregular
  obtain ⟨hends, hresult⟩ := startup_ends hids htoward.regular
  refine ⟨hends, fun x t hleads => ?_⟩
  obtain ⟨hx, hrestarted⟩ := hresult x t hleads
  have hend : t.estate = s.estate.restarted := hrestarted.arrived.trans htoward.goal
  refine ⟨hx, hend, fun t' ht' u hu => ?_⟩
  -- the next restart finds every repair done
  obtain ⟨hdb', hestate'⟩ := ht'.same
  have hids' : t'.db.Ids := hdb' ▸ leaves_ids (.between hleads) hids
  have hregular' : t'.estate.Regular := hestate' ▸ hrestarted.regular
  have hidle := ((startupReconcile_smooth hids' hregular').leaves
    ⟨hregular', rfl, fun _ => rfl⟩ hu).idle (hestate' ▸ hrestarted.done)
  rw [hidle, hestate', hend]

/-- The first observation is interrupted half-way, with its data in place. The restart runs to
its end and comes to the reconciled rows and files, in which the observation is given up. -/
theorem restart_converges_first : ∃ w s, unlimited.Reach w ∧ Restarts w.shared s ∧
    w.shared.db.InState 1 .observing ∧ w.shared.disk.has (msPathOf 1) = true ∧
    ∃ E, Reconciled E ∧ ∃ t, Prog.Leads (smoothly .main) startup s (.ret (.ok ())) t ∧
      t.estate = E := by
  obtain ⟨w, hreach, htest⟩ := unlimited.reach_of_replay (fun _ _ => true)
    (fun _ l _ => unlimited_ok l) firstObservation
    (fun w => ((w.shared.db.obs? 1).any fun o => o.state == .observing) &&
      (w.shared.disk.has (msPathOf 1) &&
        (enter .main (.run smallConfig) (down w.shared)).isSome)) (by decide +kernel)
  simp only [Bool.and_eq_true] at htest
  obtain ⟨hobserving, hhas, hstarts⟩ := htest
  obtain ⟨o, ho, hstate⟩ := (Option.any_eq_true _ _).mp hobserving
  obtain ⟨s, hs⟩ := Option.isSome_iff_exists.mp hstarts
  obtain ⟨E, hE, hall⟩ := restart_converges hreach ⟨smallConfig, hs⟩
  obtain ⟨hends, hresult⟩ := hall s .never
  obtain ⟨x, t, hleads⟩ := hends _ _ .here
  obtain ⟨rfl, hend, _⟩ := hresult x t hleads
  exact ⟨w, s, hreach, ⟨smallConfig, hs⟩, ⟨o, ho, by simpa using hstate⟩, hhas, E, hE, t,
    hleads, hend⟩

end Sdpctl
