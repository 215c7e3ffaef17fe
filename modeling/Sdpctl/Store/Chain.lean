import Sdpctl.Store.Methods
import Mathlib.Data.List.Range

/-!
The chain of runs of one observation: the attempts are numbered from one
without a gap, and every run but the last is superseded. The invariant of the
tables is built around it: at most the last run is open, so a human verdict on
it speaks for the whole observation.
-/

namespace Sdpctl

/-- The runs of one observation, ordered by id. -/
structure Chain (rs : List ProcessingRun) : Prop where
  attempts : rs.map (·.attempt) = List.range' 1 rs.length
  earlier : rs.Pairwise fun a _ => a.state = .superseded
  last : ∀ r, rs.getLast? = some r → r.state ≠ .superseded

namespace Chain

variable {rs : List ProcessingRun} {r r' q : ProcessingRun}

theorem nil : Chain [] := ⟨rfl, .nil, by simp⟩

theorem split (h : Chain rs) (hr : r ∈ rs) (hopen : r.state ≠ .superseded) :
    ∃ pre, rs = pre ++ [r] ∧ ∀ a ∈ pre, a.state = .superseded := by
  obtain ⟨pre, suf, rfl⟩ := List.append_of_mem hr
  have hpair := List.pairwise_append.mp h.earlier
  cases suf with
  | nil => exact ⟨pre, rfl, fun a ha => hpair.2.2 a ha r (by simp)⟩
  | cons b suf =>
    have htail := List.pairwise_cons.mp hpair.2.1
    exact absurd (htail.1 b (by simp)) hopen

theorem unique (h : Chain rs) (hr : r ∈ rs) (hq : q ∈ rs) (hr' : r.state ≠ .superseded)
    (hq' : q.state ≠ .superseded) : r = q := by
  obtain ⟨pre, rfl, hpre⟩ := h.split hr hr'
  rcases List.mem_append.mp hq with hmem | hmem
  · exact absurd (hpre q hmem) hq'
  · exact (List.mem_singleton.mp hmem).symm

theorem open_last (h : Chain rs) (hne : rs ≠ []) : ∃ r ∈ rs, r.state ≠ .superseded := by
  obtain ⟨pre, r, rfl⟩ := (List.eq_nil_or_concat rs).resolve_left hne
  simp only [List.concat_eq_append] at *
  exact ⟨r, by simp, h.last r (by simp)⟩

theorem attempt_eq_length (h : Chain (rs ++ [r])) : r.attempt = rs.length + 1 := by
  have hattempts := h.attempts
  rw [List.map_append, List.length_append, List.length_singleton, List.range'_1_concat] at hattempts
  have hlast := (List.append_inj' hattempts rfl).2
  simpa [Nat.add_comm] using hlast

theorem replace_last (h : Chain rs) (hnodup : (rs.map ProcessingRun.id).Nodup)
    (hfound : Keyed.find ProcessingRun.id rs r'.id = some r) (hopen : r.state ≠ .superseded) :
    ∃ pre, rs = pre ++ [r] ∧ Keyed.replace ProcessingRun.id r' rs = pre ++ [r'] ∧
      ∀ a ∈ pre, a.state = .superseded := by
  obtain ⟨pre, suf, hrs, hreplace⟩ := Keyed.replace_split hnodup hfound
  obtain ⟨pre', hrs', hpre⟩ := h.split (Keyed.mem_of_find hfound).1 hopen
  cases suf with
  | nil =>
    have hpre_eq : pre = pre' := (List.append_inj' (hrs.symm.trans hrs') rfl).1
    exact ⟨pre, hrs, hreplace, hpre_eq ▸ hpre⟩
  | cons b suf =>
    rw [hrs] at h
    have hpair := List.pairwise_append.mp h.earlier
    exact absurd ((List.pairwise_cons.mp hpair.2.1).1 b (by simp)) hopen

theorem replace (h : Chain rs) (hnodup : (rs.map ProcessingRun.id).Nodup)
    (hfound : Keyed.find ProcessingRun.id rs r'.id = some r) (hopen : r.state ≠ .superseded)
    (hattempt : r'.attempt = r.attempt) (hopen' : r'.state ≠ .superseded) :
    Chain (Keyed.replace ProcessingRun.id r' rs) := by
  obtain ⟨pre, hrs, hreplace, hpre⟩ := h.replace_last hnodup hfound hopen
  rw [hreplace]
  rw [hrs] at h
  refine ⟨?_, ?_, ?_⟩
  · simpa [hattempt] using h.attempts
  · rw [List.pairwise_append]
    exact ⟨(List.pairwise_append.mp h.earlier).1, List.pairwise_singleton _ _,
      fun a ha _ _ => hpre a ha⟩
  · intro s hs
    simp only [List.getLast?_concat, Option.some.injEq] at hs
    exact hs ▸ hopen'

theorem supersede (h : Chain rs) (hnodup : (rs.map ProcessingRun.id).Nodup)
    (hfound : Keyed.find ProcessingRun.id rs r'.id = some r) (hopen : r.state ≠ .superseded)
    (hattempt : r'.attempt = r.attempt) (hclosed : r'.state = .superseded)
    (hnext : q.attempt = r.attempt + 1) (hq : q.state ≠ .superseded) :
    Chain (Keyed.replace ProcessingRun.id r' rs ++ [q]) := by
  obtain ⟨pre, hrs, hreplace, hpre⟩ := h.replace_last hnodup hfound hopen
  rw [hreplace]
  rw [hrs] at h
  have hlength := h.attempt_eq_length
  refine ⟨?_, ?_, ?_⟩
  · rw [List.map_append, List.length_append, List.length_singleton, List.range'_1_concat]
    have hsame : (pre ++ [r']).map (·.attempt) = (pre ++ [r]).map (·.attempt) := by
      simp [hattempt]
    rw [hsame, h.attempts]
    simp [hnext, hlength, Nat.add_comm]
  · rw [List.pairwise_append, List.pairwise_append]
    refine ⟨⟨(List.pairwise_append.mp h.earlier).1, List.pairwise_singleton _ _,
      fun a ha _ _ => hpre a ha⟩, List.pairwise_singleton _ _, ?_⟩
    intro a ha _ _
    rcases List.mem_append.mp ha with ha | ha
    · exact hpre a ha
    · exact List.mem_singleton.mp ha ▸ hclosed
  · intro s hs
    simp only [List.getLast?_concat, Option.some.injEq] at hs
    exact hs ▸ hq

theorem first (hattempt : q.attempt = 1) (hq : q.state ≠ .superseded) : Chain [q] :=
  ⟨by simp [hattempt], List.pairwise_singleton _ _, by simp [hq]⟩

theorem map {f : ProcessingRun → ProcessingRun} (h : Chain rs)
    (hattempt : ∀ r, (f r).attempt = r.attempt) (hstate : ∀ r, (f r).state = r.state) :
    Chain (rs.map f) := by
  refine ⟨?_, ?_, ?_⟩
  · simpa [Function.comp_def, hattempt] using h.attempts
  · rw [List.pairwise_map]
    exact h.earlier.imp fun hab => by rw [hstate, hab]
  · intro s hs
    rw [List.getLast?_map, Option.map_eq_some_iff] at hs
    obtain ⟨r, hr, rfl⟩ := hs
    rw [hstate]
    exact h.last r hr

end Chain
end Sdpctl
