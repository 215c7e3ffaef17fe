import Mathlib.Data.List.Chain
import Mathlib.Tactic.Common

/-!
A log of state changes. Every entry holds the state before and the state after;
the first one holds no state before. A log is a trail when it leads from a fixed
first state along legal edges to the current state.
-/

namespace Journal

variable {σ : Type} (edge : σ → σ → Prop) (init : σ)

/-- The entries about one entity, the oldest first, and its current state. Nothing
is logged about an entity that does not exist. -/
inductive Trail : List (Option σ × σ) → Option σ → Prop where
  | absent : Trail [] none
  | start : Trail [(none, init)] (some init)
  | move {l : List (Option σ × σ)} {x y : σ} (before : Trail l (some x)) (legal : edge x y) :
      Trail (l ++ [(some x, y)]) (some y)

/-- What one call adds to the log of one entity: the move that it makes, if any. -/
inductive Adds (l : List (Option σ × σ)) : Option σ → List (Option σ × σ) → Option σ → Prop where
  | idle {c : Option σ} : Adds l c l c
  | start : Adds l none (l ++ [(none, init)]) (some init)
  | move {x y : σ} (legal : edge x y) : Adds l (some x) (l ++ [(some x, y)]) (some y)

variable {edge init} {l l' : List (Option σ × σ)} {c c' : Option σ}

theorem Adds.refine {edge' : σ → σ → Prop} (h : Adds edge init l c l' c')
    (hedge : ∀ x y, c = some x → c' = some y → edge x y → edge' x y) :
    Adds edge' init l c l' c' := by
  cases h with
  | idle => exact .idle
  | start => exact .start
  | move legal => exact .move (hedge _ _ rfl rfl legal)

namespace Trail

theorem nil_of_none (h : Trail edge init l none) : l = [] := by
  cases h
  rfl

theorem adds (h : Trail edge init l c) (step : Adds edge init l c l' c') :
    Trail edge init l' c' := by
  cases step with
  | idle => exact h
  | start =>
    rw [h.nil_of_none]
    exact .start
  | move legal => exact .move h legal

theorem ne_nil {x : σ} (h : Trail edge init l (some x)) : l ≠ [] := by
  cases h with
  | start => simp
  | move before legal => simp

theorem first (h : Trail edge init l c) : ∀ m ∈ l.head?, m = (none, init) := by
  induction h with
  | absent => simp
  | start => simp
  | move before legal ih => rwa [List.head?_append_of_ne_nil _ before.ne_nil]

theorem last (h : Trail edge init l c) : l.getLast?.map Prod.snd = c := by
  cases h with
  | absent => rfl
  | start => rfl
  | move before legal => simp

theorem linked (h : Trail edge init l c) : l.IsChain fun a b => b.1 = some a.2 := by
  induction h with
  | absent => exact .nil
  | start => exact .singleton _
  | move before legal ih =>
    refine ih.append (.singleton _) fun a ha b hb => ?_
    have hlast := before.last
    rw [Option.mem_def.mp ha] at hlast
    simp only [List.head?_cons, Option.mem_def, Option.some.injEq] at hb
    rw [← hb]
    exact hlast.symm

theorem legal (h : Trail edge init l c) : ∀ m ∈ l.tail, ∃ x, m.1 = some x ∧ edge x m.2 := by
  induction h with
  | absent => simp
  | start => simp
  | move before legal ih =>
    intro m hm
    rw [List.tail_append_of_ne_nil before.ne_nil, List.mem_append, List.mem_singleton] at hm
    rcases hm with hm | rfl
    · exact ih m hm
    · exact ⟨_, rfl, legal⟩

theorem entered (h : Trail edge init l c) {m : Option σ × σ} (hm : m ∈ l) (hne : m.2 ≠ init) :
    ∃ x, m.1 = some x ∧ edge x m.2 := by
  cases l with
  | nil => cases hm
  | cons a rest =>
    rcases List.mem_cons.mp hm with rfl | hm
    · rw [h.first m rfl] at hne
      exact absurd rfl hne
    · exact h.legal m hm

end Trail

/-- The log tells the whole story of an entity that is now in `state`. -/
structure Faithful (edge : σ → σ → Prop) (init : σ) (l : List (Option σ × σ)) (state : σ) :
    Prop where
  first : l.head? = some (none, init)
  linked : l.IsChain fun a b => b.1 = some a.2
  legal : ∀ m ∈ l.tail, ∃ x, m.1 = some x ∧ edge x m.2
  last : l.getLast?.map Prod.snd = some state

theorem Trail.faithful {x : σ} (h : Trail edge init l (some x)) : Faithful edge init l x where
  first := by
    obtain ⟨m, rest, rfl⟩ := List.exists_cons_of_ne_nil h.ne_nil
    rw [List.head?_cons, h.first m rfl]
  linked := h.linked
  legal := h.legal
  last := h.last

variable [DecidableEq σ]

def entries (state : σ) (l : List (Option σ × σ)) : Nat := l.countP fun m => m.2 = state

/-- Without loops, a call adds an entry into a state exactly when it changes to it. -/
theorem Adds.entries (hloop : ∀ x, ¬ edge x x) (h : Adds edge init l c l' c') (state : σ) :
    Journal.entries state l' =
      Journal.entries state l + if c' = some state ∧ c ≠ some state then 1 else 0 := by
  cases h with
  | idle => simp
  | start => simp [Journal.entries, List.countP_append, List.countP_singleton]
  | @move x y legal =>
    have hne : x ≠ y := by
      rintro rfl
      exact hloop x legal
    simp only [Journal.entries, List.countP_append, List.countP_singleton, Option.some.injEq]
    by_cases hy : y = state
    · subst hy
      simp [hne]
    · simp [hy]

end Journal
