import Sdpctl.Properties.Restart
import Sdpctl.Restart.Outcome

/-!
Deletion is crash-safe. Wherever an accept or a discard ends, by a crash or by an
exception, either nothing has happened, or the verdict stands and the deletion is
on its way; and then the next restart completes it and leaves the rest alone.
-/

namespace Sdpctl

open FileTree Coop

/-- The command ends a run with a verdict that deletes its raw data. -/
inductive Deletes (rid : Nat) : Command → RunState → Prop where
  | accept (note : String) : Deletes rid (.accept rid note) .accepted
  | discard (note : String) : Deletes rid (.discard rid note) .discarded

section Cut

variable {T : Terms} {s c : Shared} {rid : Nat} {cmd : Command} {verdict : RunState} {p : M Unit}

theorem Deletes.cut (h : Deletes rid cmd verdict) (hinv : Inv T s) (hregular : s.estate.Regular)
    (hleads : Prog.Leads (anyhow .cli) cmd.body s p c) : Cut s rid verdict c := by
  have hsame : Cut s rid verdict s := .inl ⟨rfl, rfl⟩
  cases h with
  | accept note => exact ((acceptRun_cut hinv hregular rid note).leads hsame hleads).2
  | discard note => exact ((discardFailedRun_cut hinv hregular rid note).leads hsame hleads).2

end Cut

/-- Every cut of an accept or a discard leaves the rows and files as they were, or
the verdict and a deletion with one copy at most before it. A restart then
completes the deletion, and stored data that no accepted run releases stays. -/
theorem deletion_crash_safe {w : World Op.Reply Exn Shared Role Entry} (h : unlimited.Reach w)
    {rid : Nat} {cmd : Command} {verdict : RunState} (hcmd : Deletes rid cmd verdict)
    {p : M Unit} {c : Shared} (hcut : Prog.Leads (anyhow .cli) cmd.body w.shared p c) :
    (c.db = w.shared.db ∧ c.disk = w.shared.disk) ∨
      ∃ q o, c.db.run? rid = some q ∧ q.state = verdict ∧ c.db.obs? q.observationId = some o ∧
        (o.state = .deleting ∨ o.state = .deleted) ∧
        (c.disk.has o.msPath = false ∨ c.disk.has (trashPath o.id) = false) ∧
        ∀ s, Restarts c s →
          (∀ p' t, Prog.Leads (smoothly .main) startup s p' t →
            ∃ x u, Prog.Leads (smoothly .main) p' t (.ret x) u) ∧
          ∀ x t, Prog.Leads (smoothly .main) startup s (.ret x) t → x = .ok () ∧
            (∃ o', t.db.obs? o.id = some o' ∧ o'.state = .deleted ∧ o'.sizeBytes = 0 ∧
              t.disk.has o'.msPath = false ∧ t.disk.has (trashPath o.id) = false) ∧
            ∀ i b, i ≠ o.id → w.shared.db.obs? i = some b → b.state = .stored →
              (∀ r ∈ w.shared.db.runsOf i, r.state ≠ .accepted) →
              t.disk.get? b.msPath = w.shared.disk.get? b.msPath := by
  rcases hcmd.cut h.inv h.regular hcut with hsame | ⟨E₀, a, hbegun, hleaves⟩
  · exact .inl hsame
  refine .inr ?_
  have ids : c.db.Ids := hcut.keeps (I := fun s => s.db.Ids)
    (fun o s x t ⟨_, hexec⟩ ids => exec_ids hexec ids) h.inv.db.ids
  have hregular : c.estate.Regular :=
    hbegun.regular.shift (deleting_lawful.leaves_shift hbegun.regular.toPlaced hleaves)
  obtain ⟨o, ho, hP⟩ := hbegun.going hleaves
  obtain ⟨q, hq, hverdict, howner⟩ := hbegun.run
  have hid : o.id = a.id := (Estate.mem_of_obs? ho).2
  have hrun : c.estate.run? rid = some q := by
    rw [Estate.run?, Mending.leaves_processingRuns hleaves]
    exact hq
  refine ⟨q, o, hrun, hverdict, howner ▸ ho, hP.state, ?_, fun s hs => ?_⟩
  · exact hP.one.imp Disk.has_eq_false.mpr Disk.has_eq_false.mpr
  obtain ⟨hdb, hestate⟩ := hs.same
  obtain ⟨hends, hresult⟩ := startup_ends (hdb ▸ ids) (hestate ▸ hregular)
  refine ⟨hends, fun x t hleads => ?_⟩
  obtain ⟨hx, hrestarted⟩ := hresult x t hleads
  rw [hestate] at hrestarted
  refine ⟨hx, ?_, fun i b hi hb hstored hunaccepted => ?_⟩
  · obtain ⟨o', ho', hdeleted, hsize, hlive, htrash⟩ :=
      hrestarted.completed hregular (hbegun.going hleaves)
    have hid' : o'.id = o.id := (Estate.mem_of_obs? ho').2.trans hid.symm
    rw [hid'] at htrash
    exact ⟨o', hid ▸ ho', hdeleted, hsize, Disk.has_eq_false.mpr hlive,
      Disk.has_eq_false.mpr htrash⟩
  · rw [hid] at hi
    have hkept : w.shared.estate.Holds i 
        (Kept b.msPath (w.shared.disk.get? b.msPath)) := ⟨b, hb, .inl hstored, rfl, rfl⟩
    have hfree : w.shared.estate.Unaccepted i := fun r hr howner =>
      hunaccepted r (Db.mem_runsOf.mpr ⟨hr, howner⟩)
    obtain ⟨b', _, _, hpath, hdata⟩ := hrestarted.kept hregular
      (hbegun.unaccepted hleaves hi hfree) (hbegun.kept hleaves hi hkept)
    exact hpath ▸ hdata

/-- An accept is cut off right after its rename into the trash, with the verdict committed. The
restart finds the one copy, removes it, and the observation is `DELETED`. -/
theorem deletion_crash_safe_first : ∃ w p c s t, unlimited.Reach w ∧
    Prog.Leads (anyhow .cli) (Command.accept 1 "fine").body w.shared p c ∧
    c.disk.has (msPathOf 1) = false ∧ c.disk.has (trashPath 1) = true ∧
    Restarts c s ∧ Prog.Leads (smoothly .main) startup s (.ret (.ok ())) t ∧
    t.db.InState 1 .deleted := by
  obtain ⟨w, hreach, htest⟩ := unlimited.reach_of_replay (fun _ _ => true)
    (fun _ l _ => unlimited_ok l) firstReview
    (fun w => (follow .cli (List.replicate 10 .ok) (Command.accept 1 "fine").body w.shared).any
      fun (_, c) => !c.disk.has (msPathOf 1) && c.disk.has (trashPath 1) &&
        (!w.shared.disk.has (trashPath 1) && (c.db.run? 1).any (fun q => q.observationId == 1)) &&
        (enter .main (.run smallConfig) (down c)).isSome) (by decide +kernel)
  obtain ⟨⟨p, c⟩, hfollow, htest⟩ := (Option.any_eq_true _ _).mp htest
  simp only [Bool.and_eq_true, Bool.not_eq_true'] at htest
  obtain ⟨⟨⟨hlive, htrash⟩, hbefore, hany⟩, hstarts⟩ := htest
  obtain ⟨s, hs⟩ := Option.isSome_iff_exists.mp hstarts
  have hcut := leads_of_follow hfollow
  have hrestarts : Restarts c s := ⟨smallConfig, hs⟩
  rcases deletion_crash_safe hreach (.accept "fine") hcut with ⟨_, hsame⟩ | hdeleting
  · rw [hsame, hbefore] at htrash
    cases htrash
  · obtain ⟨q, o, hq, _, ho, _, _, hall⟩ := hdeleting
    obtain ⟨hends, hresult⟩ := hall s hrestarts
    obtain ⟨x, t, hend⟩ := hends _ _ .here
    obtain ⟨rfl, ⟨o', ho', hdeleted, _⟩, _⟩ := hresult x t hend
    have howner : q.observationId = 1 := by simpa [hq] using hany
    have hid : o.id = 1 := howner ▸ (Db.mem_of_obs? ho).2
    exact ⟨w, p, c, s, t, hreach, hcut, hlive, htrash, hrestarts, hend, o', hid ▸ ho', hdeleted⟩

end Sdpctl
