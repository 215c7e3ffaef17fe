import Sdpctl.Properties.Accounting
import Sdpctl.Properties.Restart
import Sdpctl.Restart.Charging

/-!
What a restart leaves under `observations/`. The scan knows every path that a row
has, and admission counts by the state of the row; the two agree, but for data at
the path of an observation that is `DELETED` or `OBSERVE_FAILED`.
-/

namespace Sdpctl

open FileTree Coop

/-- What is under `observations/` is counted by `logical_storage`, and whatever
else was there has come to quarantine as it was. -/
structure ChargedOrMoved (before after : Estate) : Prop where
  charged : ∀ n, after.disk.has ["observations", n] = true →
    ∃ o ∈ after.observations, o.msPath = ["observations", n] ∧ o.state.charged = true
  moved : ∀ n t, before.disk.get? ["observations", n] = some t →
    (∀ o ∈ before.observations, o.msPath = ["observations", n] → o.state.charged = false) →
    after.disk.get? ["observations", n] = none ∧ before.disk.Quarantined after.disk t

/-- The observation is past its use, and not counted any more. -/
def ObservationState.Spent (st : ObservationState) : Prop := st = .deleted ∨ st = .observeFailed

theorem ObservationState.spent_iff {st : ObservationState} :
    st.Spent ↔ st.charged = false ∧ st ≠ .observing := by
  cases st <;> simp [Spent, charged, Db.countsUsed, Db.countsReserved]

section Searched

variable {E F : Estate}

theorem Swept.mem {mid : Estate} (h : Swept mid [] F) {n : String}
    (hhas : F.disk.has ["observations", n] = true) :
    ∃ o ∈ mid.observations, o.msPath = ["observations", n] ∧
      F.disk.get? ["observations", n] = mid.disk.get? ["observations", n] := by
  by_cases hknown : ["observations", n] ∈ mid.observations.map Observation.msPath
  · obtain ⟨o, ho, hpath⟩ := List.mem_map.mp hknown
    exact ⟨o, ho, hpath, h.known n hknown⟩
  · rcases h.unknown n hknown with ⟨hmem, _⟩ | ⟨hnone, _⟩
    · cases hmem
    · simp [Disk.has, hnone] at hhas

/-- Where no spent observation has data, everything is charged or moved. -/
theorem Searched.chargedOrMoved (h : Searched E F) (hplaced : E.Placed)
    (hspent : ∀ o ∈ E.observations, o.state.Spent → E.disk.get? o.msPath = none) :
    ChargedOrMoved E F := by
  obtain ⟨mid, hmid, hsince, hswept⟩ := h
  refine ⟨fun n hhas => ?_, fun n t ht huncharged => ?_⟩
  · obtain ⟨o', ho', hpath, hsame⟩ := hswept.mem hhas
    refine ⟨o', hswept.observations ▸ ho', hpath, ?_⟩
    obtain ⟨o, ho, hid, hpath'⟩ := hsince.rows.mem_obs ho'
    have hdata : mid.disk.get? o.msPath ≠ none := by
      rw [hpath', hpath, ← hsame]
      simpa [Disk.has, Option.isSome_iff_ne_none] using hhas
    cases hsince.course o.id o o' (hplaced.obs? ho) (hid ▸ hmid.obs? ho') with
    | same state data =>
      by_contra huncharged
      have hover : o'.state ≠ .observing := fun hs => by simpa using hsince.begun o' ho' hs
      have hs : o.state.Spent := by
        rw [← state]
        exact ObservationState.spent_iff.mpr ⟨by simpa using huncharged, hover⟩
      exact hdata (data.trans (hspent o ho hs))
    | charged before later after => exact after.resolve_right hdata
    | givenUp before after gone moved => exact absurd gone hdata
  · by_cases hknown : ["observations", n] ∈ mid.observations.map Observation.msPath
    · obtain ⟨o', ho', hpath⟩ := List.mem_map.mp hknown
      obtain ⟨o, ho, hid, hpath'⟩ := hsince.rows.mem_obs ho'
      have hn : o.msPath = ["observations", n] := hpath'.trans hpath
      have hcharged := huncharged o ho hn
      cases hsince.course o.id o o' (hplaced.obs? ho) (hid ▸ hmid.obs? ho') with
      | same state data =>
        have hover : o.state ≠ .observing := fun hs => by
          simpa using hsince.begun o' ho' (state.trans hs)
        have hnone := hspent o ho (ObservationState.spent_iff.mpr ⟨hcharged, hover⟩)
        rw [hn, ht] at hnone
        cases hnone
      | charged before later after => simp [before] at hcharged
      | givenUp before after gone moved =>
        rw [hn] at gone moved
        exact ⟨(hswept.known n hknown).trans gone, (moved t ht).retained hswept.retains⟩
    · rcases hswept.unknown n hknown with ⟨hmem, _⟩ | ⟨hnone, hmoved⟩
      · cases hmem
      · rw [hsince.rows.msPaths] at hknown
        exact ⟨hnone, .after hsince.retains (hmoved t ((hsince.unknown n hknown).trans ht))⟩

theorem Searched.overlooked (h : Searched E F) (hplaced : E.Placed) {o : Observation}
    (ho : o ∈ E.observations) (hspent : o.state.Spent) (hdata : E.disk.get? o.msPath ≠ none) :
    ¬ ChargedOrMoved E F := by
  obtain ⟨mid, hmid, hsince, hswept⟩ := h
  intro hcharged
  obtain ⟨huncharged, hover⟩ := ObservationState.spent_iff.mp hspent
  obtain ⟨n, hn⟩ := hplaced.msPath o ho
  obtain ⟨o', ho', hpath⟩ := hsince.rows.obs? hmid ho
  -- neither the phases nor the scan have touched it
  obtain ⟨hstate, hsame⟩ : o'.state = o.state ∧ mid.disk.get? o.msPath = E.disk.get? o.msPath := by
    cases hsince.course o.id o o' (hplaced.obs? ho) ho' with
    | same state data => exact ⟨state, data⟩
    | charged before later after => simp [before] at huncharged
    | givenUp before after gone moved => exact absurd before hover
  have hmem' := (Estate.mem_of_obs? ho').1
  have hknown : ["observations", n] ∈ mid.observations.map Observation.msPath :=
    List.mem_map.mpr ⟨o', hmem', hpath.trans hn⟩
  have hhas : F.disk.has ["observations", n] = true := by
    rw [Disk.has, hswept.known n hknown, ← hn, hsame]
    exact Option.isSome_iff_ne_none.mpr hdata
  obtain ⟨p, hp, hpn, hpcharged⟩ := hcharged.charged n hhas
  rw [hswept.observations] at hp
  have hid := hmid.own p hp o' hmem' (hpn.trans (hpath.trans hn).symm)
  have hpo : p = o' := List.inj_on_of_nodup_map hmid.obsNodup hp hmem' hid
  rw [hpo, hstate, huncharged] at hpcharged
  cases hpcharged

end Searched

/-- A restart that runs to its end, over any rows and any data, leaves nothing
uncharged under `observations/` if and only if no observation that is `DELETED` or
`OBSERVE_FAILED` had data at its path. -/
theorem restart_charges {s : Shared} (ids : s.db.Ids) (h : s.estate.Placed) :
    (∃ t, Prog.Leads (smoothly .main) startup s (.ret (.ok ())) t) ∧
    ∀ x t, Prog.Leads (smoothly .main) startup s (.ret x) t → x = .ok () ∧
      (ChargedOrMoved s.estate t.estate ↔ ∀ o ∈ s.db.observations,
        o.state = .deleted ∨ o.state = .observeFailed → s.disk.has o.msPath = false) := by
  have hrun : Smooth .main (fun _ => True) startup (fun _ t => Searched s.estate t.estate) s :=
    startupReconcile_searched ids h
  have hresult : ∀ x t, Prog.Leads (smoothly .main) startup s (.ret x) t →
      x = .ok () ∧ Searched s.estate t.estate := by
    intro x t hleads
    obtain ⟨a, rfl, ha⟩ := hrun.result trivial hleads
    exact ⟨rfl, ha⟩
  refine ⟨?_, fun x t hleads => ?_⟩
  · obtain ⟨x, t, hleads⟩ := hrun.ends
    obtain ⟨rfl, _⟩ := hresult x t hleads
    exact ⟨t, hleads⟩
  · obtain ⟨hx, hsearched⟩ := hresult x t hleads
    refine ⟨hx, fun hcharged o ho hspent => ?_, fun hspent => ?_⟩
    · by_contra hhas
      refine hsearched.overlooked h ho hspent (fun hnone => hhas ?_) hcharged
      exact Disk.has_eq_false.mpr hnone
    · exact hsearched.chargedOrMoved h fun o ho hs => Disk.has_eq_false.mp (hspent o ho hs)

/-- The state, with a tree of unknown origin added under `observations/`. -/
def Shared.strayed (s : Shared) : Shared :=
  { s with disk := s.disk.put ["observations", "stray"] (some smallSet) }

/-- An observation under way and an unknown tree beside it: the restart sets both aside, and
nothing is left uncharged under `observations/`. -/
theorem restart_charges_first : ∃ s t, s.disk.get? ["observations", "stray"] = some smallSet ∧
    s.disk.has (msPathOf 1) = true ∧ Prog.Leads (smoothly .main) startup s (.ret (.ok ())) t ∧
    ChargedOrMoved s.estate t.estate ∧ s.disk.Quarantined t.disk smallSet := by
  obtain ⟨w, hreach, htest⟩ := unlimited.reach_of_replay (fun _ _ => true)
    (fun _ l _ => unlimited_ok l) firstObservation
    (fun w => (w.shared.db.observations.all fun o =>
        o.state == .observing && o.msPath != ["observations", "stray"]) &&
      w.shared.strayed.disk.has (msPathOf 1)) (by decide +kernel)
  simp only [Bool.and_eq_true, List.all_eq_true, beq_iff_eq, bne_iff_ne] at htest
  obtain ⟨hrows, hhas⟩ := htest
  have hplaced := hreach.regular.toPlaced
  have hsame : w.shared.estate.SameRows w.shared.strayed.estate := ⟨rfl, rfl⟩
  have hstray : w.shared.strayed.disk.get? ["observations", "stray"] = some smallSet :=
    Disk.get?_put_self (p := ["observations"]) (hplaced.stands _ (by simp [layout]))
  have hids : w.shared.strayed.db.Ids := hreach.inv.db.ids
  obtain ⟨⟨t, hleads⟩, hall⟩ := restart_charges hids
    (hsame.placed hplaced (hplaced.stands.put "observations" "stray" [] _))
  have hcharged : ChargedOrMoved w.shared.strayed.estate t.estate := by
    refine (hall _ t hleads).2.mpr fun o ho hspent => ?_
    rw [(hrows o ho).1] at hspent
    simp at hspent
  refine ⟨w.shared.strayed, t, hstray, hhas, hleads, hcharged, ?_⟩
  exact (hcharged.moved "stray" smallSet hstray fun o ho hpath =>
    absurd hpath (hrows o ho).2).2

/-- The data of an observation that has failed long ago is still at its path. The scan skips
every path that a row has ever had, no phase looks at failed rows, and nothing counts the data.
-/
theorem restart_overlooks : ∃ w s t, unlimited.Reach w ∧ Restarts w.shared s ∧
    Prog.Leads (smoothly .main) startup s (.ret (.ok ())) t ∧
      ¬ ChargedOrMoved s.estate t.estate := by
  obtain ⟨w, hreach, htest⟩ := unlimited.reach_of_replay (fun _ _ => true)
    (fun _ l _ => unlimited_ok l) stuckInPlace
    (fun w => ((w.shared.db.obs? 1).any fun o =>
        o.state == .observeFailed && w.shared.disk.has o.msPath) &&
      (enter .main (.run smallConfig) (down w.shared)).isSome) (by decide +kernel)
  simp only [Bool.and_eq_true] at htest
  obtain ⟨hfailed, hstarts⟩ := htest
  obtain ⟨o, ho, hstate⟩ := (Option.any_eq_true _ _).mp hfailed
  simp only [Bool.and_eq_true, beq_iff_eq] at hstate
  obtain ⟨s, hs⟩ := Option.isSome_iff_exists.mp hstarts
  obtain ⟨hdb, hestate⟩ := Restarts.same ⟨smallConfig, hs⟩
  have hplaced : s.estate.Placed := hestate ▸ hreach.regular.toPlaced
  have hrun : Smooth .main (fun _ => True) startup (fun _ t => Searched s.estate t.estate) s :=
    startupReconcile_searched (hdb ▸ hreach.inv.db.ids) hplaced
  obtain ⟨x, t, hleads⟩ := hrun.ends
  obtain ⟨_, rfl, hsearched⟩ := hrun.result trivial hleads
  refine ⟨w, s, t, hreach, ⟨smallConfig, hs⟩, hleads, hsearched.overlooked hplaced (o := o) ?_
    (.inr hstate.1) ?_⟩
  · rw [hestate]
    exact (Db.mem_of_obs? ho).1
  · rw [hestate]
    exact Option.isSome_iff_ne_none.mp hstate.2

end Sdpctl
