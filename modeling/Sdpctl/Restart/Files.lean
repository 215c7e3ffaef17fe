import Sdpctl.Storage
import Sdpctl.System.Machine

/-!
What a restart does to the disk, as functions: something is set aside in
quarantine under a free name, a live copy goes to the trash, a tree is removed.
Each can be interrupted, and tried again comes to the same disk.
-/

namespace Sdpctl

open FileTree

theorem suffixed_inj {label : String} {n m : Nat} :
    suffixed label n = suffixed label m ↔ n = m := by
  constructor
  · intro h
    exact padded_injective 3 (append_left_cancel h)
  · rintro rfl
    rfl

theorem suffixed_ne (label : String) (n : Nat) : suffixed label n ≠ label := by
  intro h
  have hlength := congrArg String.length h
  have hdot : ".".length = 1 := rfl
  simp only [suffixed, String.length_append] at hlength
  omega

/-- The names that `_unique_quarantine_target` may choose for a label. -/
def Suffixes (label name : String) : Prop := name = label ∨ ∃ k, name = suffixed label k

namespace Disk

variable {d d' : Disk}

/-- The first free of the numbered names, from `n` on. -/
def firstFree (d : Disk) (label : String) : Nat → Nat → Path
  | 0, n => quarantineEntry (suffixed label n)
  | fuel + 1, n =>
      if d.has (quarantineEntry (suffixed label n)) then d.firstFree label fuel (n + 1)
      else quarantineEntry (suffixed label n)

/-- The name that `_unique_quarantine_target` chooses. -/
def freeEntry (d : Disk) (label : String) : Path :=
  if d.has (quarantineEntry label) then d.firstFree label (d.entryCount quarantineRoot) 1
  else quarantineEntry label

/-- What `quarantine_path` makes of the disk, if there is anything at the path. -/
def setAside (d : Disk) (p : Path) (label : String) : Disk :=
  match d.get? p with
  | some t => d.move p (d.freeEntry label) t
  | none => d

def trashed (d : Disk) (live trash : Path) : Disk :=
  match d.get? live with
  | some t => d.move live trash t
  | none => d

def emptied (d : Disk) (p : Path) : Disk := if d.has p then d.put p none else d

def Stands (d : Disk) : Prop := ∀ n ∈ layout, d.root.IsDir [n]

theorem mem_names {p : Path} {ns : List String} {n : String} (h : d.names p = .ok ns) :
    n ∈ ns ↔ d.has (p ++ [n]) = true := by
  unfold names at h
  split at h
  · cases h
  · cases h
  · rename_i j es hget
    cases h
    have hdir : d.root.get? p = some (.dir j es) := hget
    rw [has, get?, Tree.get?_append, hdir, Option.bind_some, Tree.get?_dir]
    refine lookup_isSome_iff.symm.trans ?_
    cases es.lookup n <;> simp

/-- Of the numbered names one is free: there are more of them than entries. -/
theorem exists_free {label : String} (h : d.has (quarantineEntry label) = true) :
    ∃ i < d.entryCount quarantineRoot,
      d.has (quarantineEntry (suffixed label (1 + i))) = false := by
  by_contra hnone
  have htaken : ∀ i < d.entryCount quarantineRoot,
      d.has (quarantineEntry (suffixed label (1 + i))) = true := by
    intro i hi
    by_contra hfree
    exact hnone ⟨i, hi, by simpa using hfree⟩
  obtain ⟨t, ht⟩ := has_iff.mp h
  obtain ⟨j, es, hdir⟩ : d.root.IsDir quarantineRoot := Tree.isDir_of_get? ht
  have hnames : d.names quarantineRoot = .ok (FileTree.names es) := by
    have hget : d.get? quarantineRoot = some (.dir j es) := hdir
    simp [names, FileTree.names, hget]
  have hentry : ∀ n, d.has (quarantineEntry n) = true → n ∈ FileTree.names es :=
    fun n hn => (mem_names hnames).mpr hn
  have hcount : d.entryCount quarantineRoot = es.length := by
    have hget : d.get? quarantineRoot = some (.dir j es) := hdir
    simp [entryCount, hget]
  let taken := label :: (List.range es.length).map fun i => suffixed label (1 + i)
  have hnodup : taken.Nodup := by
    refine List.nodup_cons.mpr ⟨?_, ?_⟩
    · intro hmem
      obtain ⟨i, _, hi⟩ := List.mem_map.mp hmem
      exact suffixed_ne label (1 + i) hi
    · refine (List.nodup_range).map fun i k hik => ?_
      have heq := suffixed_inj.mp hik
      omega
  have hsub : taken ⊆ FileTree.names es := by
    intro n hn
    rcases List.mem_cons.mp hn with rfl | hn
    · exact hentry n h
    · obtain ⟨i, hi, rfl⟩ := List.mem_map.mp hn
      exact hentry _ (htaken i (by rw [hcount]; exact List.mem_range.mp hi))
  have hle := (List.subperm_of_subset hnodup hsub).length_le
  simp only [taken, FileTree.names, List.length_cons, List.length_map, List.length_range] at hle
  omega

theorem firstFree_free {label : String} {fuel n : Nat}
    (h : ∃ i < fuel, d.has (quarantineEntry (suffixed label (n + i))) = false) :
    d.get? (d.firstFree label fuel n) = none := by
  induction fuel generalizing n with
  | zero =>
    obtain ⟨i, hi, _⟩ := h
    omega
  | succ fuel ih =>
    unfold firstFree
    split
    · rename_i htaken
      refine ih ?_
      obtain ⟨i, hi, hfree⟩ := h
      cases i with
      | zero => simp [htaken] at hfree
      | succ i => exact ⟨i, by omega, by rwa [show n + 1 + i = n + (i + 1) by omega]⟩
    · rename_i hfree
      exact has_eq_false.mp (by simpa using hfree)

theorem firstFree_entry (d : Disk) (label : String) (fuel n : Nat) :
    ∃ k, d.firstFree label fuel n = quarantineEntry (suffixed label k) := by
  induction fuel generalizing n with
  | zero => exact ⟨_, rfl⟩
  | succ fuel ih =>
    unfold firstFree
    split
    · exact ih (n + 1)
    · exact ⟨_, rfl⟩

theorem freeEntry_free (d : Disk) (label : String) : d.get? (d.freeEntry label) = none := by
  unfold freeEntry
  split
  · rename_i htaken
    exact firstFree_free (exists_free htaken)
  · rename_i hfree
    exact has_eq_false.mp (by simpa using hfree)

theorem freeEntry_suffixed (d : Disk) (label : String) :
    ∃ name, Suffixes label name ∧ d.freeEntry label = quarantineEntry name := by
  unfold freeEntry
  split
  · obtain ⟨k, hk⟩ := firstFree_entry d label (d.entryCount quarantineRoot) 1
    exact ⟨_, .inr ⟨k, rfl⟩, hk⟩
  · exact ⟨label, .inl rfl, rfl⟩

theorem freeEntry_entry (d : Disk) (label : String) :
    ∃ name, d.freeEntry label = quarantineEntry name := by
  obtain ⟨name, _, hname⟩ := freeEntry_suffixed d label
  exact ⟨name, hname⟩

theorem Stands.set (h : d.Stands) {a b : String} {rest : Path} {x : Option Tree}
    (hroot : d'.root = d.root.set (a :: b :: rest) x) : d'.Stands := by
  intro n hn
  rw [hroot]
  by_cases hna : n = a
  · subst hna
    exact Tree.IsDir.set_below (q := [n]) (h n hn)
  · exact Tree.IsDir.set_apart (h n hn) (by simp [hna])

theorem Stands.put (h : d.Stands) (a b : String) (rest : Path) (x : Option Tree) :
    (d.put (a :: b :: rest) x).Stands := h.set rfl

theorem Stands.move (h : d.Stands) (a b m n : String) (t : Tree) :
    (d.move [a, b] [m, n] t).Stands := (h.put a b [] none).put m n [] (some t)

theorem get?_move_source {p q : Path} {n : String} {t : Tree} (hdir : d.root.IsDir p)
    (h : Apart (p ++ [n]) q) : (d.move (p ++ [n]) q t).get? (p ++ [n]) = none := by
  unfold move
  rw [get?_put_apart _ _ h]
  exact get?_put_self hdir

theorem get?_move_apart {p q r : Path} (t : Tree) (hp : Apart r p) (hq : Apart r q) :
    (d.move p q t).get? r = d.get? r := by
  unfold move
  rw [get?_put_apart _ _ hq, get?_put_apart _ _ hp]

theorem apart_entry {p : Path} (h : Apart p quarantineRoot) (name : String) :
    Apart p (quarantineEntry name) := by
  cases p with
  | nil => exact (apart_nil_left _ h).elim
  | cons a rest =>
    have hne : a ≠ "quarantine" := by simpa [quarantineRoot] using h
    exact .inl hne

section SetAside

variable {n label : String}

/-- Something that is not under `observations/` by that name, nor in quarantine,
stays where it is. -/
theorem setAside_apart {q : Path} (hp : Apart q ["observations", n])
    (hq : ∀ name, Apart q (quarantineEntry name)) :
    (d.setAside ["observations", n] label).get? q = d.get? q := by
  obtain ⟨name, hname⟩ := freeEntry_entry d label
  unfold setAside
  split
  · rw [hname]
    exact get?_move_apart _ hp (hq name)
  · rfl

theorem setAside_gone (h : d.Stands) :
    (d.setAside ["observations", n] label).get? ["observations", n] = none := by
  obtain ⟨name, hname⟩ := freeEntry_entry d label
  unfold setAside
  split
  · rw [hname]
    exact get?_move_source (p := ["observations"]) (h _ (by simp [layout]))
      (by simp [quarantineEntry])
  · assumption

theorem setAside_of_gone {p : Path} (h : d.get? p = none) : d.setAside p label = d := by
  unfold setAside
  rw [h]

/-- What has been set aside is found again in quarantine, under its label but for a collision
suffix. -/
theorem setAside_shelved (label : String) (h : d.Stands) {t : Tree}
    (ht : d.get? ["observations", n] = some t) :
    ∃ name, Suffixes label name ∧ d.get? (quarantineEntry name) = none ∧
      (d.setAside ["observations", n] label).get? (quarantineEntry name) = some t := by
  obtain ⟨name, hsuffix, hname⟩ := freeEntry_suffixed d label
  refine ⟨name, hsuffix, hname ▸ freeEntry_free d label, ?_⟩
  unfold setAside
  rw [ht, hname]
  have hdir : (d.put ["observations", n] none).root.IsDir ["quarantine"] :=
    (h.put "observations" n [] none) _ (by simp [layout])
  exact get?_put_self (p := ["quarantine"]) hdir

theorem setAside_moved (h : d.Stands) {t : Tree} (ht : d.get? ["observations", n] = some t) :
    ∃ name, d.get? (quarantineEntry name) = none ∧
      (d.setAside ["observations", n] label).get? (quarantineEntry name) = some t := by
  obtain ⟨name, _, hmoved⟩ := setAside_shelved label h ht
  exact ⟨name, hmoved⟩

theorem setAside_kept {name : String} {t : Tree} (ht : d.get? (quarantineEntry name) = some t) :
    (d.setAside ["observations", n] label).get? (quarantineEntry name) = some t := by
  obtain ⟨free, hfree⟩ := freeEntry_entry d label
  have hne : name ≠ free := by
    rintro rfl
    have hnone := freeEntry_free d label
    rw [hfree, ht] at hnone
    cases hnone
  unfold setAside
  split
  · rw [hfree, get?_move_apart _ (by simp [quarantineEntry]) (by simp [quarantineEntry, hne])]
    exact ht
  · exact ht

theorem Stands.setAside (h : d.Stands) : (d.setAside ["observations", n] label).Stands := by
  obtain ⟨name, hname⟩ := freeEntry_entry d label
  unfold Disk.setAside
  split
  · rw [hname]
    exact h.move _ _ _ _ _
  · exact h

end SetAside

section Deletion

variable {n m : String} {p : Path}

theorem emptied_gone (hp : p ≠ []) : (d.emptied p).get? p = none := by
  unfold emptied
  split
  · rename_i hhas
    obtain ⟨t, ht⟩ := has_iff.mp hhas
    obtain ⟨q, n, rfl⟩ := (List.eq_nil_or_concat' p).resolve_left hp
    exact get?_put_self (Tree.isDir_of_get? ht)
  · rename_i hhas
    exact has_eq_false.mp (by simpa using hhas)

theorem emptied_of_gone (h : d.get? p = none) : d.emptied p = d := by
  simp [emptied, has, h]

theorem emptied_apart {q : Path} (h : Apart q p) : (d.emptied p).get? q = d.get? q := by
  unfold emptied
  split
  · exact get?_put_apart d none h
  · rfl

theorem emptied_of_has (h : d.has p = true) : d.emptied p = d.put p none := if_pos h

/-- What a removal that stops part-way leaves is still there to be removed. -/
theorem rmtreePart_has {u : Tree} (hp : p ≠ []) (h : d.rmtreePart p u = some d') :
    d.has p = true ∧ d'.has p = true ∧ ∀ q, Apart q p → d'.get? q = d.get? q := by
  obtain ⟨v, hv, _, _, rfl⟩ := rmtreePart_some h
  obtain ⟨q, n, rfl⟩ := (List.eq_nil_or_concat' p).resolve_left hp
  refine ⟨has_iff.mpr ⟨v, hv⟩, has_iff.mpr ⟨u, ?_⟩, fun r hr => Tree.get?_set_apart _ _ hr⟩
  exact Tree.get?_set_self (Tree.isDir_of_get? hv)

theorem emptied_rmtreePart {u : Tree} (hp : p ≠ []) (h : d.rmtreePart p u = some d') :
    d'.emptied p = d.emptied p := by
  obtain ⟨hhas, hhas', _⟩ := rmtreePart_has hp h
  obtain ⟨v, hv, _, _, rfl⟩ := rmtreePart_some h
  rw [emptied_of_has hhas, emptied_of_has hhas']
  unfold put
  rw [Tree.set_set _ hp]

theorem trashed_gone (h : d.Stands) :
    (d.trashed ["observations", n] ["trash", m]).get? ["observations", n] = none := by
  unfold trashed
  split
  · exact get?_move_source (p := ["observations"]) (h _ (by simp [layout])) (by simp)
  · assumption

theorem trashed_of_gone {live trash : Path} (h : d.get? live = none) :
    d.trashed live trash = d := by
  unfold trashed
  rw [h]

theorem trashed_apart {q : Path} (hlive : Apart q ["observations", n])
    (htrash : Apart q ["trash", m]) :
    (d.trashed ["observations", n] ["trash", m]).get? q = d.get? q := by
  unfold trashed
  split
  · exact get?_move_apart _ hlive htrash
  · rfl

theorem Stands.trashed (h : d.Stands) : (d.trashed ["observations", n] ["trash", m]).Stands := by
  unfold Disk.trashed
  split
  · exact h.move _ _ _ _ _
  · exact h

theorem Stands.emptied (h : d.Stands) (a b : String) (rest : Path) :
    (d.emptied (a :: b :: rest)).Stands := by
  unfold Disk.emptied
  split
  · exact h.put a b rest none
  · exact h

theorem Stands.rmtreePart (h : d.Stands) {a b : String} {rest : Path} {u : Tree}
    (hpart : d.rmtreePart (a :: b :: rest) u = some d') : d'.Stands := by
  obtain ⟨_, _, _, _, rfl⟩ := rmtreePart_some hpart
  exact h.set rfl

end Deletion

end Disk
end Sdpctl
