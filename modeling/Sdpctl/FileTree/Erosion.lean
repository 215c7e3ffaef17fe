import Sdpctl.FileTree.Measure
import Mathlib.Logic.Relation

/-!
A tree from which others remove. Whatever is left was there before as it is now,
so the bytes that a path names only fall, and a walk that looks at different
paths at different moments is bounded by the first tree and by the last one.
-/

namespace FileTree
namespace Tree

/-- One removal: a file goes, or a directory with all that is below it. -/
def Removal (t t' : Tree) : Prop := ∃ p, t' = t.set p none

def Erodes : Tree → Tree → Prop := Relation.ReflTransGen Removal

theorem set_file (i : Nat) (c : List UInt8) (n : String) (r : Path) (x : Option Tree) :
    (Tree.file i c).set (n :: r) x = .file i c := by
  rw [set]

/-- What is left after a removal was there before: the same, or a directory. -/
theorem Removal.get? {t t' u' : Tree} {q : Path} (h : t.Removal t') (hget : t'.get? q = some u') :
    ∃ u, t.get? q = some u ∧ (u' = u ∨ (u'.isDir ∧ u.isDir)) := by
  obtain ⟨p, rfl⟩ := h
  cases hq : t.get? q with
  | none =>
    rw [get?_set_none hq] at hget
    cases hget
  | some u =>
    refine ⟨u, rfl, ?_⟩
    rcases path_cases q p with ⟨r, rfl⟩ | ⟨n, r, rfl⟩ | hapart
    · by_cases hp : p = []
      · subst hp
        have hsame : t.set [] none = t := by simp [set]
        rw [hsame, hq] at hget
        exact .inl (Option.some.inj hget).symm
      · rw [get?_append] at hq
        obtain ⟨v, hv, -⟩ := Option.bind_eq_some_iff.mp hq
        rw [get?_set_none_below hv hp] at hget
        cases hget
    · rw [get?_set_below hq, Option.some.injEq] at hget
      subst hget
      cases u with
      | file i c => exact .inl (set_file i c n r none)
      | dir i es => exact .inr ⟨isDir_set_below rfl n r none, rfl⟩
    · rw [get?_set_apart t none hapart, hq] at hget
      exact .inl (Option.some.inj hget).symm

theorem Erodes.get? {t t' u' : Tree} {q : Path} (h : t.Erodes t') (hget : t'.get? q = some u') :
    ∃ u, t.get? q = some u ∧ (u' = u ∨ (u'.isDir ∧ u.isDir)) := by
  induction h generalizing u' with
  | refl => exact ⟨u', hget, .inl rfl⟩
  | tail _ hremoval ih =>
    obtain ⟨v, hv, hsame⟩ := hremoval.get? hget
    obtain ⟨u, hu, hbefore⟩ := ih hv
    refine ⟨u, hu, ?_⟩
    rcases hsame with rfl | ⟨hdir', hdir⟩
    · exact hbefore
    · rcases hbefore with rfl | ⟨-, hdir₀⟩
      · exact .inr ⟨hdir', hdir⟩
      · exact .inr ⟨hdir', hdir₀⟩

theorem Erodes.isSome {t t' : Tree} {q : Path} (h : t.Erodes t') (hq : (t'.get? q).isSome) :
    (t.get? q).isSome := by
  obtain ⟨u', hu'⟩ := Option.isSome_iff_exists.mp hq
  obtain ⟨u, hu, -⟩ := h.get? hu'
  exact Option.isSome_iff_exists.mpr ⟨u, hu⟩

theorem Erodes.file {t t' : Tree} {q : Path} {i : Nat} {c : List UInt8} (h : t.Erodes t')
    (hq : t.get? q = some (.file i c)) (hleft : (t'.get? q).isSome) :
    t'.get? q = some (.file i c) := by
  obtain ⟨u', hu'⟩ := Option.isSome_iff_exists.mp hleft
  obtain ⟨u, hu, hsame⟩ := h.get? hu'
  rw [hq] at hu
  cases hu
  rcases hsame with rfl | ⟨-, hdir⟩
  · exact hu'
  · cases hdir

theorem Erodes.shrinks {t t' : Tree} (h : t.Erodes t') : t'.Shrinks t := by
  intro q u' hu'
  obtain ⟨u, hu, hsame⟩ := h.get? hu'
  refine ⟨u, hu, ?_⟩
  rcases hsame with rfl | ⟨hdir', -⟩
  · exact le_rfl
  · cases u' with
    | file i c => cases hdir'
    | dir i es => exact Nat.zero_le _

theorem Erodes.wf {t t' : Tree} (h : t.Erodes t') (hwf : t.wf) : t'.wf := by
  induction h with
  | refl => exact hwf
  | tail _ hremoval ih =>
    obtain ⟨p, rfl⟩ := hremoval
    exact wf_set ih fun u hu => by cases hu

/-- Different paths below the top name no more bytes than the tree has. -/
theorem sum_le_bytes {t : Tree} (h : t.wf) {ps : List Path} (hnodup : ps.Nodup)
    (hbelow : ∀ p ∈ ps, p ≠ []) : (ps.map t.sizeAt).sum ≤ t.bytes := by
  have hpresent : (ps.map t.sizeAt).sum =
      ((ps.filter fun p => (t.get? p).isSome).map t.sizeAt).sum := by
    clear hnodup hbelow
    induction ps with
    | nil => rfl
    | cons p ps ih => cases hp : t.get? p <;> simp [sizeAt, hp, ih]
  have hsub : List.Subperm (ps.filter fun p => (t.get? p).isSome) t.rglob :=
    List.subperm_of_subset (hnodup.filter _) fun p hp =>
      (mem_rglob h p).mpr ⟨hbelow p (List.mem_filter.mp hp).1, (List.mem_filter.mp hp).2⟩
  obtain ⟨l, hperm, hsublist⟩ := hsub
  rw [hpresent, bytes_eq_sum h, ← (hperm.map t.sizeAt).sum_eq]
  exact Nat.le_add_left_of_le ((hsublist.map _).sum_le_sum fun _ _ => Nat.zero_le _)

end Tree
end FileTree
