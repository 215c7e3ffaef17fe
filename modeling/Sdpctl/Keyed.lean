import Mathlib.Algebra.BigOperators.Group.List.Basic
import Mathlib.Algebra.GroupWithZero.Nat
import Mathlib.Data.List.Nodup
import Mathlib.Tactic.Common

/-!
Tables as lists of rows with a key. A row is looked up, replaced or appended by
its key, and a sum over the rows changes by the row that changed.
-/

namespace Keyed

variable {α : Type} (key : α → Nat)

def find (rows : List α) (k : Nat) : Option α := rows.find? fun x => key x == k

/-- Put `y` in the place of the row with its key. -/
def replace (y : α) (rows : List α) : List α := rows.map fun x => if key x = key y then y else x

variable {key} {rows : List α} {k : Nat} {x y : α}

theorem mem_of_find (h : find key rows k = some x) : x ∈ rows ∧ key x = k :=
  ⟨List.mem_of_find?_eq_some h, by simpa using List.find?_some h⟩

theorem find_of_mem (hnodup : (rows.map key).Nodup) (hx : x ∈ rows) :
    find key rows (key x) = some x := by
  cases h : find key rows (key x) with
  | none =>
    have hall := List.find?_eq_none.mp h x hx
    simp at hall
  | some z =>
    obtain ⟨hz, hk⟩ := mem_of_find h
    rw [List.inj_on_of_nodup_map hnodup hz hx hk]

theorem find_eq_none_iff : find key rows k = none ↔ ∀ x ∈ rows, key x ≠ k := by
  simp [find]

theorem filter_key (hnodup : (rows.map key).Nodup) (k : Nat) :
    (rows.filter fun x => key x == k) = (find key rows k).toList := by
  induction rows with
  | nil => rfl
  | cons x rows ih =>
    rw [List.map_cons, List.nodup_cons] at hnodup
    by_cases hk : key x = k
    · have hrest : rows.filter (fun y => key y == k) = [] := by
        refine List.filter_eq_nil_iff.mpr fun y hy => ?_
        have hne : key y ≠ k := fun heq => hnodup.1 (hk ▸ heq ▸ List.mem_map_of_mem hy)
        simpa using hne
      simp [find, hk, hrest]
    · have htail := ih hnodup.2
      simpa [find, hk] using htail

@[simp] theorem keys_replace (y : α) (rows : List α) :
    (replace key y rows).map key = rows.map key := by
  unfold replace
  rw [List.map_map]
  refine List.map_congr_left fun x _ => ?_
  simp only [Function.comp_apply]
  split
  · rename_i heq
    exact heq.symm
  · rfl

theorem find_replace (h : find key rows (key y) = some x) (k : Nat) :
    find key (replace key y rows) k = if k = key y then some y else find key rows k := by
  unfold find replace at *
  rw [List.find?_map]
  by_cases hk : k = key y
  · subst hk
    have hcomp : ((fun x => key x == key y) ∘ fun x => if key x = key y then y else x)
        = fun x => key x == key y := by
      funext z
      by_cases hz : key z = key y <;> simp [hz]
    have hxk : key x = key y := by simpa using List.find?_some h
    rw [hcomp, h]
    simp [hxk]
  · have hcomp : ((fun x => key x == k) ∘ fun x => if key x = key y then y else x)
        = fun x => key x == k := by
      funext z
      by_cases hz : key z = key y
      · simp [hz]
      · simp [hz]
    rw [hcomp, if_neg hk]
    cases hf : rows.find? fun x => key x == k with
    | none => rfl
    | some z =>
      have hz : key z = k := by simpa using List.find?_some hf
      simp [hz, hk]

theorem mem_replace (hx : x ∈ replace key y rows) : x = y ∨ (x ∈ rows ∧ key x ≠ key y) := by
  obtain ⟨z, hz, heq⟩ := List.mem_map.mp hx
  split at heq
  · exact .inl heq.symm
  · rename_i hne
    exact .inr ⟨heq ▸ hz, heq ▸ hne⟩

theorem find_append (hfresh : ∀ x ∈ rows, key x ≠ key y) (k : Nat) :
    find key (rows ++ [y]) k = if k = key y then some y else find key rows k := by
  unfold find
  rw [List.find?_append]
  by_cases hk : k = key y
  · subst hk
    have hnone : rows.find? (fun x => key x == key y) = none := by
      simpa using hfresh
    simp [hnone]
  · have hbeq : (key y == k) = false := by simpa using Ne.symm hk
    simp [hk, hbeq]

theorem replace_eq_self (h : ∀ x ∈ rows, key x ≠ key y) : replace key y rows = rows := by
  unfold replace
  rw [List.map_congr_left (g := id) fun x hx => by simp [h x hx], List.map_id]

theorem replace_replace (h : key x = key y) :
    replace key y (replace key x rows) = replace key y rows := by
  unfold replace
  rw [List.map_map]
  refine List.map_congr_left fun z _ => ?_
  simp only [Function.comp_apply]
  by_cases hz : key z = key y
  · simp [hz, h]
  · simp [hz, h]

/-- A replacement by a row that agrees on a part changes nothing of that part. -/
theorem map_replace {β : Type} (f : α → β) (hnodup : (rows.map key).Nodup)
    (h : find key rows (key y) = some x) (hf : f y = f x) :
    (replace key y rows).map f = rows.map f := by
  unfold replace
  rw [List.map_map]
  refine List.map_congr_left fun z hz => ?_
  simp only [Function.comp_apply]
  split
  · rename_i hkey
    have hz' := find_of_mem hnodup hz
    rw [hkey, h] at hz'
    rw [hf, Option.some.inj hz']
  · rfl

theorem replace_split (hnodup : (rows.map key).Nodup) (h : find key rows (key y) = some x) :
    ∃ pre suf, rows = pre ++ x :: suf ∧ replace key y rows = pre ++ y :: suf := by
  obtain ⟨hx, hk⟩ := mem_of_find h
  obtain ⟨pre, suf, rfl⟩ := List.append_of_mem hx
  have hkeys : key x ∉ pre.map key ∧ key x ∉ suf.map key := by
    simp only [List.map_append, List.map_cons, List.nodup_append, List.nodup_cons] at hnodup
    refine ⟨fun hmem => ?_, hnodup.2.1.1⟩
    exact hnodup.2.2 _ hmem _ (by simp) rfl
  have hpre : replace key y pre = pre := replace_eq_self fun z hz heq =>
    hkeys.1 (by rw [hk, ← heq]; exact List.mem_map_of_mem hz)
  have hsuf : replace key y suf = suf := replace_eq_self fun z hz heq =>
    hkeys.2 (by rw [hk, ← heq]; exact List.mem_map_of_mem hz)
  refine ⟨pre, suf, rfl, ?_⟩
  unfold replace at hpre hsuf ⊢
  rw [List.map_append, List.map_cons, hpre, hsuf, if_pos hk]

theorem sum_replace (g : α → Nat) (hnodup : (rows.map key).Nodup)
    (h : find key rows (key y) = some x) :
    ((replace key y rows).map g).sum + g x = (rows.map g).sum + g y := by
  obtain ⟨pre, suf, hrows, hreplace⟩ := replace_split hnodup h
  rw [hreplace, hrows]
  simp only [List.map_append, List.map_cons, List.sum_append, List.sum_cons]
  omega

/-- A filter that treats the old and the new row alike keeps the replacement. -/
theorem filter_replace {p : α → Bool} (h : ∀ x ∈ rows, key x = key y → p x = p y) :
    (replace key y rows).filter p = replace key y (rows.filter p) := by
  unfold replace
  rw [List.filter_map]
  refine congrArg (List.map _) (List.filter_congr fun x hx => ?_)
  simp only [Function.comp_apply]
  split
  · rename_i heq
    exact (h x hx heq).symm
  · rfl

section Middle

variable {f : α → α} {pre suf : List α}

/-- In a table whose first rows have been rewritten the next row is found. -/
theorem find_middle (hf : ∀ x, key (f x) = key x)
    (hnodup : ((pre ++ x :: suf).map key).Nodup) :
    find key (pre.map f ++ x :: suf) (key x) = some x := by
  have hkeys : (pre.map f ++ x :: suf).map key = (pre ++ x :: suf).map key := by
    simp [hf]
  exact find_of_mem (hkeys ▸ hnodup) (by simp)

theorem replace_middle (hf : ∀ x, key (f x) = key x)
    (hnodup : ((pre ++ x :: suf).map key).Nodup) :
    replace key (f x) (pre.map f ++ x :: suf) = (pre ++ [x]).map f ++ suf := by
  simp only [List.map_append, List.map_cons, List.nodup_append, List.nodup_cons] at hnodup
  obtain ⟨_, ⟨hsuf, _⟩, hdisjoint⟩ := hnodup
  have hpre : replace key (f x) (pre.map f) = pre.map f := by
    refine replace_eq_self fun z hz => ?_
    obtain ⟨y, hy, rfl⟩ := List.mem_map.mp hz
    rw [hf, hf]
    exact hdisjoint _ (List.mem_map_of_mem hy) _ (by simp)
  have hrest : replace key (f x) suf = suf := by
    refine replace_eq_self fun z hz heq => hsuf ?_
    rw [← hf, ← heq]
    exact List.mem_map_of_mem hz
  unfold replace at hpre hrest ⊢
  rw [List.map_append, List.map_cons, hpre, hrest, if_pos (hf x).symm]
  simp

end Middle

end Keyed
