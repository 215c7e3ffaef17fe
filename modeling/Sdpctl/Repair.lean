import Mathlib.Data.List.Basic
import Mathlib.Tactic.Common

/-!
Repairs that can be interrupted. A repair takes a state to one where its defect
is gone; an interruption leaves some state in between, and another attempt from
there comes to the same end. When no repair of a list brings back an earlier
defect, the list can be interrupted anywhere and run again from its beginning.
-/

structure Repair (S : Type) where
  fix : S → S
  /-- What an interruption can leave. -/
  leaves : S → S → Prop
  /-- There is nothing to repair. -/
  done : S → Prop

namespace Repair

variable {S : Type} (W : S → Prop)

/-- The repair can be interrupted and tried again, in the states `W`. -/
structure Sound (r : Repair S) : Prop where
  well : ∀ {s t}, W s → r.leaves s t → W t
  whole : ∀ {s}, W s → r.leaves s (r.fix s)
  settles : ∀ {s}, W s → r.done (r.fix s)
  rests : ∀ {s t}, W s → r.done s → r.leaves s t → t = s
  resumes : ∀ {s t}, W s → r.leaves s t → r.fix t = r.fix s

/-- `r`, interrupted or not, does not bring back the defect of `q`. -/
def Spares (q r : Repair S) : Prop := ∀ s t, W s → q.done s → r.leaves s t → q.done t

/-- A list of repairs that can be interrupted as a whole. -/
structure Orderly (rs : List (Repair S)) : Prop where
  sound : ∀ r ∈ rs, r.Sound W
  spares : rs.Pairwise (Spares W)

def fixAll (rs : List (Repair S)) (s : S) : S := rs.foldl (fun s r => r.fix s) s

/-- Of the repairs `all` those of `rest` remain, and they lead to `goal`. -/
structure At (all rest : List (Repair S)) (goal s : S) : Prop where
  before : ∃ pre, all = pre ++ rest ∧ ∀ q ∈ pre, q.done s
  well : W s
  goal : fixAll rest s = goal

variable {W} {all rest rs : List (Repair S)} {r : Repair S} {goal s t : S}

theorem Sound.stays (h : r.Sound W) (hW : W s) (hdone : r.done s) : r.fix s = s :=
  h.rests hW hdone (h.whole hW)

@[simp] theorem fixAll_nil (s : S) : fixAll [] s = s := rfl

@[simp] theorem fixAll_cons (r : Repair S) (rs : List (Repair S)) (s : S) :
    fixAll (r :: rs) s = fixAll rs (r.fix s) := rfl

theorem fixAll_append (rs rs' : List (Repair S)) (s : S) :
    fixAll (rs ++ rs') s = fixAll rs' (fixAll rs s) := List.foldl_append

theorem fixAll_of_done (sound : ∀ r ∈ rs, r.Sound W) (hW : W s) (hdone : ∀ r ∈ rs, r.done s) :
    fixAll rs s = s := by
  induction rs with
  | nil => rfl
  | cons r rs ih =>
    have hfix : r.fix s = s := (sound r (by simp)).stays hW (hdone r (by simp))
    rw [fixAll_cons, hfix]
    exact ih (fun q hq => sound q (by simp [hq])) fun q hq => hdone q (by simp [hq])

theorem fixAll_keeps {I : S → Prop} (sound : ∀ r ∈ rs, r.Sound W)
    (keeps : ∀ r ∈ rs, ∀ s, W s → I s → I (r.fix s)) (hW : W s) (hI : I s) : I (fixAll rs s) := by
  induction rs generalizing s with
  | nil => exact hI
  | cons r rs ih =>
    have hsound := sound r (by simp)
    exact ih (fun q hq => sound q (by simp [hq])) (fun q hq => keeps q (by simp [hq]))
      (hsound.well hW (hsound.whole hW)) (keeps r (by simp) s hW hI)

theorem At.start (hW : W s) : At W all all (fixAll all s) s :=
  ⟨⟨[], rfl, by simp⟩, hW, rfl⟩

theorem At.again (horder : Orderly W all) (h : At W all rest goal s) : fixAll all s = goal := by
  obtain ⟨pre, hall, hdone⟩ := h.before
  have hpre : fixAll pre s = s :=
    fixAll_of_done (fun r hr => horder.sound r (by simp [hall, hr])) h.well hdone
  rw [hall, fixAll_append, hpre, h.goal]

theorem At.skip (horder : Orderly W all) (h : At W all (r :: rest) goal s) (hdone : r.done s) :
    At W all rest goal s := by
  obtain ⟨pre, hall, hpre⟩ := h.before
  have hfix : r.fix s = s := (horder.sound r (by simp [hall])).stays h.well hdone
  refine ⟨⟨pre ++ [r], by simp [hall], ?_⟩, h.well, ?_⟩
  · intro q hq
    rcases List.mem_append.mp hq with hq | hq
    · exact hpre q hq
    · rw [List.mem_singleton.mp hq]
      exact hdone
  · have hgoal := h.goal
    rwa [fixAll_cons, hfix] at hgoal

theorem At.kept (horder : Orderly W all) (h : At W all (r :: rest) goal s)
    (hleaves : r.leaves s t) :
    ∃ pre, all = pre ++ r :: rest ∧ ∀ q ∈ pre, q.done t := by
  obtain ⟨pre, hall, hpre⟩ := h.before
  have hpairs := horder.spares
  rw [hall, List.pairwise_append] at hpairs
  exact ⟨pre, hall, fun q hq => hpairs.2.2 q hq r (by simp) s t h.well (hpre q hq) hleaves⟩

/-- The next repair, interrupted: the whole list still leads to the same end. -/
theorem At.resumes (horder : Orderly W all) (h : At W all (r :: rest) goal s)
    (hleaves : r.leaves s t) : W t ∧ fixAll all t = goal := by
  obtain ⟨pre, hall, hpre⟩ := h.kept horder hleaves
  have hsound : r.Sound W := horder.sound r (by simp [hall])
  have hW : W t := hsound.well h.well hleaves
  have hgoal : fixAll (r :: rest) t = goal := by
    rw [← h.goal, fixAll_cons, fixAll_cons, hsound.resumes h.well hleaves]
  exact ⟨hW, At.again horder ⟨⟨pre, hall, hpre⟩, hW, hgoal⟩⟩

theorem At.fixed (horder : Orderly W all) (h : At W all (r :: rest) goal s) :
    At W all rest goal (r.fix s) := by
  have hsound : r.Sound W := by
    obtain ⟨pre, hall, _⟩ := h.before
    exact horder.sound r (by simp [hall])
  have hwhole : r.leaves s (r.fix s) := hsound.whole h.well
  obtain ⟨pre, hall, hpre⟩ := h.kept horder hwhole
  refine ⟨⟨pre ++ [r], by simp [hall], ?_⟩, hsound.well h.well hwhole, h.goal⟩
  intro q hq
  rcases List.mem_append.mp hq with hq | hq
  · exact hpre q hq
  · rw [List.mem_singleton.mp hq]
    exact hsound.settles h.well

theorem At.ended (h : At W all [] goal s) : s = goal ∧ ∀ q ∈ all, q.done s := by
  obtain ⟨pre, hall, hpre⟩ := h.before
  rw [List.append_nil] at hall
  rw [hall]
  exact ⟨h.goal, hpre⟩

section Astray

variable {agree : S → S → Prop}

/-- The repair makes the same of states that agree. -/
def Respects (agree : S → S → Prop) (r : Repair S) : Prop :=
  ∀ s t, agree s t → agree (r.fix s) (r.fix t)

theorem fixAll_respects (h : ∀ r ∈ rs, r.Respects agree) (hst : agree s t) :
    agree (fixAll rs s) (fixAll rs t) := by
  induction rs generalizing s t with
  | nil => exact hst
  | cons r rs ih => exact ih (fun q hq => h q (by simp [hq])) (h r (by simp) s t hst)

/-- A repair that goes astray, but to a state that agrees with the repaired one,
does not change what the others lead to. -/
theorem astray (trans : ∀ {s t u}, agree s t → agree t u → agree s u)
    (h : ∀ q ∈ rest, q.Respects agree) (hgoal : agree (fixAll (r :: rest) s) goal)
    (hstray : agree t (r.fix s)) : agree (fixAll rest t) goal :=
  trans (fixAll_respects h hstray) hgoal

end Astray

end Repair
