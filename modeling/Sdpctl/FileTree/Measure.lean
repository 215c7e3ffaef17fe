import Sdpctl.FileTree.Tree
import Mathlib.Algebra.GroupWithZero.Nat
import Mathlib.Algebra.Order.BigOperators.Group.List
import Mathlib.Algebra.Order.Group.Nat
import Mathlib.Data.List.Nodup
import Mathlib.Data.List.Perm.Subperm

/-!
The bytes of a tree, as a walk over its paths counts them. `Shrinks` compares a
tree with what is left of it: every path still there was there before, with at
least as many bytes.
-/

namespace FileTree

def names (es : List (String × Tree)) : List String := es.map (·.1)

namespace Tree

/-- The size of what a path names, zero when it names nothing. -/
def sizeAt (t : Tree) (p : Path) : Nat := ((t.get? p).map statSize).getD 0

/-- What is left of a tree: each path was there before, with at least its size. -/
def Shrinks (t' t : Tree) : Prop :=
  ∀ p u', t'.get? p = some u' → ∃ u, t.get? p = some u ∧ u'.statSize ≤ u.statSize

theorem wfOf_cons {e : String × Tree} {es : List (String × Tree)} :
    wfOf (e :: es) ↔ e.2.wf ∧ e.1 ∉ names es ∧ wfOf es := by
  simp [wfOf, names, and_assoc]

@[simp] theorem wf_dir {i : Nat} {es : List (String × Tree)} : (Tree.dir i es).wf = wfOf es := by
  rw [wf]

@[simp] theorem wf_file {i : Nat} {c : List UInt8} : (Tree.file i c).wf = true := by
  rw [wf]

theorem wfOf_iff {es : List (String × Tree)} :
    wfOf es ↔ (names es).Nodup ∧ ∀ e ∈ es, e.2.wf := by
  induction es with
  | nil => simp [wfOf, names]
  | cons e es ih =>
    rw [wfOf_cons, ih]
    simp only [names, List.map_cons, List.nodup_cons, List.mem_cons, forall_eq_or_imp]
    tauto

end Tree

theorem mem_of_lookup {es : List (String × Tree)} {n : String} {t : Tree}
    (h : es.lookup n = some t) : (n, t) ∈ es := by
  obtain ⟨l, r, rfl, _⟩ := List.lookup_eq_some_iff.mp h
  simp

theorem lookup_isSome_iff {es : List (String × Tree)} {n : String} :
    (es.lookup n).isSome ↔ n ∈ names es := by
  induction es with
  | nil => simp [names]
  | cons e es ih =>
    obtain ⟨k, t⟩ := e
    by_cases hk : n = k
    · simp [names, hk]
    · have hbeq : (n == k) = false := by simpa using hk
      simp only [List.lookup_cons, hbeq, ih, names, List.map_cons, List.mem_cons, hk, false_or]

theorem lookup_of_mem {es : List (String × Tree)} (hnodup : (names es).Nodup) {n : String}
    {t : Tree} (h : (n, t) ∈ es) : es.lookup n = some t := by
  induction es with
  | nil => simp at h
  | cons e es ih =>
    obtain ⟨k, u⟩ := e
    simp only [names, List.map_cons, List.nodup_cons] at hnodup
    rcases List.mem_cons.mp h with heq | hmem
    · cases heq
      simp
    · have hne : n ≠ k := fun heq => hnodup.1 (heq ▸ List.mem_map_of_mem hmem)
      have hbeq : (n == k) = false := by simpa using hne
      simpa only [List.lookup_cons, hbeq] using ih hnodup.2 hmem

theorem mem_setEntry {es : List (String × Tree)} {n : String} {x : Option Tree}
    {e : String × Tree} (h : e ∈ setEntry es n x) : (e ∈ es ∧ e.1 ≠ n) ∨ x = some e.2 := by
  rcases List.mem_append.mp h with h | h
  · exact .inl ⟨(List.mem_filter.mp h).1, by simpa using (List.mem_filter.mp h).2⟩
  · cases x with
    | none => simp at h
    | some t =>
      right
      simp only [Option.map_some, Option.toList_some, List.mem_singleton] at h
      rw [h]

theorem names_setEntry_nodup {es : List (String × Tree)} {n : String} {x : Option Tree}
    (h : (names es).Nodup) : (names (setEntry es n x)).Nodup := by
  have hfilter : (names (es.filter fun e => e.1 != n)).Nodup :=
    h.sublist (List.filter_sublist.map _)
  cases x with
  | none => simpa [setEntry, names] using hfilter
  | some t =>
    simp only [setEntry, names, Option.map_some, Option.toList_some, List.map_append]
    refine List.Nodup.append hfilter (List.nodup_singleton n) ?_
    intro a ha hb
    obtain ⟨e, he, rfl⟩ := List.mem_map.mp ha
    have hne : e.1 ≠ n := by simpa using (List.mem_filter.mp he).2
    exact hne (by simpa using hb)

namespace Tree

theorem wfOf_setEntry {es : List (String × Tree)} {n : String} {x : Option Tree}
    (h : wfOf es) (hx : ∀ t, x = some t → t.wf) : wfOf (setEntry es n x) := by
  rw [wfOf_iff] at h ⊢
  refine ⟨names_setEntry_nodup h.1, fun e he => ?_⟩
  rcases mem_setEntry he with ⟨hmem, _⟩ | hx'
  · exact h.2 e hmem
  · exact hx _ hx'

theorem wf_of_lookup {es : List (String × Tree)} {n : String} {t : Tree} (h : wfOf es)
    (hlookup : es.lookup n = some t) : t.wf :=
  (wfOf_iff.mp h).2 _ (mem_of_lookup hlookup)

theorem wf_set {t : Tree} {p : Path} {x : Option Tree} (h : t.wf)
    (hx : ∀ u, x = some u → u.wf) : (t.set p x).wf := by
  induction p generalizing t with
  | nil => cases x with
    | none => simpa [set] using h
    | some u => simpa [set] using hx u rfl
  | cons n p ih =>
    cases t with
    | file i c => simp [set]
    | dir i es =>
      rw [wf_dir] at h
      cases p with
      | nil => simpa [set] using wfOf_setEntry h hx
      | cons m p =>
        cases hn : es.lookup n with
        | none => simpa [set, hn] using h
        | some c =>
          simp only [set, hn, wf_dir]
          exact wfOf_setEntry h fun u hu => by
            cases hu
            exact ih (wf_of_lookup h hn)

theorem wf_chain (p : Path) : (chain p).wf := by
  induction p with
  | nil => simp [chain, wfOf]
  | cons n p ih => simp [chain, wfOf, ih]

theorem wf_mkdirs {t t' : Tree} {p : Path} (h : t.wf) (hmade : t.mkdirs p = some t') : t'.wf := by
  induction p generalizing t t' with
  | nil =>
    cases t with
    | file i c => cases hmade
    | dir i es =>
      cases hmade
      exact h
  | cons n p ih =>
    cases t with
    | file i c => cases hmade
    | dir i es =>
      rw [wf_dir] at h
      cases hn : es.lookup n with
      | none =>
        simp only [mkdirs, hn, Option.some.injEq] at hmade
        subst hmade
        rw [wf_dir]
        exact wfOf_setEntry h fun u hu => by
          cases hu
          exact wf_chain p
      | some c =>
        simp only [mkdirs, hn] at hmade
        split at hmade
        · rename_i c' hc
          cases hmade
          rw [wf_dir]
          exact wfOf_setEntry h fun u hu => by
            cases hu
            exact ih (wf_of_lookup h hn) hc
        · cases hmade

theorem wf_get? {t u : Tree} {p : Path} (h : t.wf) (hget : t.get? p = some u) : u.wf := by
  induction p generalizing t with
  | nil => simpa using (Option.some.inj ((get?_nil t).symm.trans hget)) ▸ h
  | cons n p ih =>
    cases t with
    | file i c => simp at hget
    | dir i es =>
      rw [get?_dir] at hget
      cases hn : es.lookup n with
      | none => simp [hn] at hget
      | some c =>
        rw [hn, Option.bind_some] at hget
        exact ih (wf_of_lookup (by simpa using h) hn) hget

mutual
theorem mem_rglob {t : Tree} (h : t.wf) (p : Path) :
    p ∈ t.rglob ↔ p ≠ [] ∧ (t.get? p).isSome := by
  cases t with
  | file i c => cases p <;> simp [rglob]
  | dir i es =>
    rw [rglob, mem_rglobOf (by simpa using h)]
    cases p with
    | nil => simp
    | cons n p => simp [get?_dir]
theorem mem_rglobOf {es : List (String × Tree)} (h : wfOf es) (p : Path) :
    p ∈ rglobOf es ↔ ∃ n q, p = n :: q ∧ ((es.lookup n).bind (·.get? q)).isSome := by
  cases es with
  | nil => simp [rglobOf]
  | cons e es =>
    obtain ⟨k, t⟩ := e
    rw [wfOf_cons] at h
    rw [rglobOf, List.mem_append, List.mem_cons, List.mem_map, mem_rglobOf h.2.2]
    constructor
    · rintro ((rfl | ⟨q, hq, rfl⟩) | ⟨n, q, rfl, hq⟩)
      · exact ⟨k, [], rfl, by simp⟩
      · exact ⟨k, q, rfl, by simpa using ((mem_rglob h.1 q).mp hq).2⟩
      · have hne : n ≠ k := by
          rintro rfl
          cases hn : es.lookup n with
          | none => simp [hn] at hq
          | some u => exact h.2.1 (lookup_isSome_iff.mp (by simp [hn]))
        have hbeq : (n == k) = false := by simpa using hne
        exact ⟨n, q, rfl, by simpa only [List.lookup_cons, hbeq] using hq⟩
    · rintro ⟨n, q, rfl, hq⟩
      by_cases hnk : n = k
      · subst hnk
        left
        cases q with
        | nil => exact .inl rfl
        | cons m q =>
          right
          exact ⟨m :: q, (mem_rglob h.1 _).mpr ⟨by simp, by simpa using hq⟩, rfl⟩
      · have hbeq : (n == k) = false := by simpa using hnk
        exact .inr ⟨n, q, rfl, by simpa only [List.lookup_cons, hbeq] using hq⟩
end

mutual
theorem rglob_nodup {t : Tree} (h : t.wf) : t.rglob.Nodup := by
  cases t with
  | file i c => simp [rglob]
  | dir i es =>
    rw [rglob]
    exact rglobOf_nodup (by simpa using h)
theorem rglobOf_nodup {es : List (String × Tree)} (h : wfOf es) : (rglobOf es).Nodup := by
  cases es with
  | nil => simp [rglobOf]
  | cons e es =>
    obtain ⟨k, t⟩ := e
    rw [wfOf_cons] at h
    rw [rglobOf]
    refine List.Nodup.append (List.nodup_cons.mpr ⟨?_, ?_⟩) (rglobOf_nodup h.2.2) ?_
    · rintro hmem
      obtain ⟨q, hq, heq⟩ := List.mem_map.mp hmem
      exact ((mem_rglob h.1 q).mp hq).1 (by simpa using heq)
    · exact (rglob_nodup h.1).map (fun _ _ heq => by simpa using heq)
    · intro p hp hp'
      obtain ⟨n, q, rfl, hq⟩ := (mem_rglobOf h.2.2 p).mp hp'
      have hnk : n = k := by
        rcases List.mem_cons.mp hp with heq | hmem
        · cases heq
          rfl
        · obtain ⟨r, _, heq⟩ := List.mem_map.mp hmem
          cases heq
          rfl
      subst hnk
      cases hn : es.lookup n with
      | none => simp [hn] at hq
      | some u => exact h.2.1 (lookup_isSome_iff.mp (by simp [hn]))
end

mutual
theorem bytes_eq_sum {t : Tree} (h : t.wf) :
    t.bytes = t.statSize + (t.rglob.map t.sizeAt).sum := by
  cases t with
  | file i c => simp [bytes, rglob, statSize]
  | dir i es =>
    rw [bytes, rglob, bytesOf_eq_sum i (by simpa using h)]
    simp [statSize]
theorem bytesOf_eq_sum (i : Nat) {es : List (String × Tree)} (h : wfOf es) :
    bytesOf es = ((rglobOf es).map (Tree.dir i es).sizeAt).sum := by
  cases es with
  | nil => simp [bytesOf, rglobOf]
  | cons e es =>
    obtain ⟨k, t⟩ := e
    rw [wfOf_cons] at h
    have htail : (rglobOf es).map (Tree.dir i ((k, t) :: es)).sizeAt
        = (rglobOf es).map (Tree.dir i es).sizeAt := by
      refine List.map_congr_left fun p hp => ?_
      obtain ⟨n, q, rfl, hq⟩ := (mem_rglobOf h.2.2 p).mp hp
      have hne : n ≠ k := by
        rintro rfl
        cases hn : es.lookup n with
        | none => simp [hn] at hq
        | some u => exact h.2.1 (lookup_isSome_iff.mp (by simp [hn]))
      have hbeq : (n == k) = false := by simpa using hne
      simp only [sizeAt, get?_dir, List.lookup_cons, hbeq]
    have hhead : (t.rglob.map (k :: ·)).map (Tree.dir i ((k, t) :: es)).sizeAt
        = t.rglob.map t.sizeAt := by
      rw [List.map_map]
      refine List.map_congr_left fun p _ => ?_
      simp [sizeAt, get?_dir]
    rw [bytesOf, rglobOf, List.map_append, List.map_cons, List.sum_append, List.sum_cons,
      htail, hhead, ← bytesOf_eq_sum i h.2.2, bytes_eq_sum h.1]
    simp [sizeAt, get?_dir]
end

theorem Shrinks.refl (t : Tree) : t.Shrinks t := fun _ u h => ⟨u, h, le_rfl⟩

theorem Shrinks.sizeAt_le {t' t : Tree} (h : t'.Shrinks t) (p : Path) :
    t'.sizeAt p ≤ t.sizeAt p := by
  unfold sizeAt
  cases hp : t'.get? p with
  | none => simp
  | some u' =>
    obtain ⟨u, hu, hle⟩ := h p u' hp
    simpa [hu] using hle

/-- The bytes of a tree are at most what a list of paths adds up to that names
everything below its top. -/
theorem bytes_le_sum {t : Tree} (h : t.wf) {ps : List Path}
    (hall : ∀ p, p ≠ [] → (t.get? p).isSome → p ∈ ps) :
    t.bytes ≤ t.statSize + (ps.map t.sizeAt).sum := by
  rw [bytes_eq_sum h]
  have hsub : List.Subperm t.rglob ps :=
    List.subperm_of_subset (rglob_nodup h) fun p hp =>
      hall p ((mem_rglob h p).mp hp).1 ((mem_rglob h p).mp hp).2
  obtain ⟨l, hperm, hsublist⟩ := hsub
  have hsum : (t.rglob.map t.sizeAt).sum = (l.map t.sizeAt).sum :=
    (hperm.map t.sizeAt).sum_eq.symm
  have hle : (l.map t.sizeAt).sum ≤ (ps.map t.sizeAt).sum :=
    (hsublist.map t.sizeAt).sum_le_sum fun _ _ => Nat.zero_le _
  omega

theorem Shrinks.bytes_le {t' t : Tree} (h : t'.Shrinks t) (hwf : t.wf) (hwf' : t'.wf) :
    t'.bytes ≤ t.bytes := by
  have hall : ∀ p, p ≠ [] → (t'.get? p).isSome → p ∈ t.rglob := by
    intro p hne hp
    obtain ⟨u', hu'⟩ := Option.isSome_iff_exists.mp hp
    obtain ⟨u, hu, _⟩ := h p u' hu'
    exact (mem_rglob hwf p).mpr ⟨hne, by simp [hu]⟩
  have hbound := bytes_le_sum hwf' hall
  have hmap : (t.rglob.map t'.sizeAt).sum ≤ (t.rglob.map t.sizeAt).sum :=
    List.sum_le_sum fun p _ => h.sizeAt_le p
  have htop : t'.statSize ≤ t.statSize := by
    obtain ⟨u, hu, hle⟩ := h [] t' (by simp)
    simpa [← (Option.some.inj ((get?_nil t).symm.trans hu))] using hle
  rw [bytes_eq_sum hwf]
  omega

theorem shrinks_of_entries {i j : Nat} {es fs : List (String × Tree)}
    (h : ∀ n t', es.lookup n = some t' → ∃ t, fs.lookup n = some t ∧ t'.Shrinks t) :
    (Tree.dir i es).Shrinks (.dir j fs) := by
  intro p u' hu'
  cases p with
  | nil =>
    cases hu'.symm.trans (get?_nil _)
    exact ⟨_, get?_nil _, by simp [statSize]⟩
  | cons n p =>
    rw [get?_dir] at hu'
    cases hn : es.lookup n with
    | none => simp [hn] at hu'
    | some t' =>
      obtain ⟨t, ht, hshrinks⟩ := h n t' hn
      rw [hn, Option.bind_some] at hu'
      obtain ⟨u, hu, hle⟩ := hshrinks p u' hu'
      exact ⟨u, by rw [get?_dir, ht]; exact hu, hle⟩

mutual
theorem shrinks_of_prunedFrom {t' t : Tree} (h : t'.prunedFrom t) : t'.Shrinks t := by
  cases t' with
  | file i c =>
    cases t with
    | file j d =>
      simp only [prunedFrom, Bool.and_eq_true, beq_iff_eq] at h
      rw [h.1, h.2]
      exact .refl _
    | dir j fs => simp [prunedFrom] at h
  | dir i es =>
    cases t with
    | file j d => simp [prunedFrom] at h
    | dir j fs =>
      simp only [prunedFrom, Bool.and_eq_true] at h
      exact shrinks_of_entries (shrinks_of_prunedOf h.2)
theorem shrinks_of_prunedOf {es fs : List (String × Tree)} (h : prunedOf es fs) :
    ∀ n t', es.lookup n = some t' → ∃ t, fs.lookup n = some t ∧ t'.Shrinks t := by
  cases es with
  | nil => simp
  | cons e es =>
    obtain ⟨k, u⟩ := e
    simp only [prunedOf, Bool.and_eq_true] at h
    intro n t' hn
    by_cases hnk : n = k
    · subst hnk
      simp only [List.lookup_cons, beq_self_eq_true, Option.some.injEq] at hn
      subst hn
      cases hf : fs.lookup n with
      | none => simp [hf] at h
      | some t => exact ⟨t, rfl, shrinks_of_prunedFrom (by simpa [hf] using h.1)⟩
    · have hbeq : (n == k) = false := by simpa using hnk
      exact shrinks_of_prunedOf h.2 n t' (by simpa only [List.lookup_cons, hbeq] using hn)
end

theorem get?_set_none {t : Tree} {q : Path} (h : t.get? q = none) (p : Path) :
    (t.set p none).get? q = none := by
  induction p generalizing t q with
  | nil => exact h
  | cons n p ih =>
    cases t with
    | file i c => exact h
    | dir i es =>
      cases q with
      | nil => simp at h
      | cons k q =>
        by_cases hkn : k = n
        · subst hkn
          rw [get?_dir] at h
          cases p with
          | nil => simp [set, get?_dir]
          | cons m p =>
            cases hk : es.lookup k with
            | none => simp [set, hk, get?_dir]
            | some c =>
              rw [hk, Option.bind_some] at h
              simpa [set, hk, get?_dir] using ih h
        · cases p with
          | nil => simpa [set, get?_dir, lookup_setEntry_ne _ _ hkn] using h
          | cons m p =>
            cases hn : es.lookup n with
            | none => simpa [set, hn] using h
            | some c => simpa [set, hn, get?_dir, lookup_setEntry_ne _ _ hkn] using h

theorem get?_set_part {t t' u : Tree} {p q : Path} (hp : t.get? p = some u)
    (hpart : t'.Shrinks u) (h : t.get? q = none) : (t.set p (some t')).get? q = none := by
  have habsent : ∀ r, u.get? r = none → t'.get? r = none := by
    intro r hr
    cases hr' : t'.get? r with
    | none => rfl
    | some v =>
      obtain ⟨w, hw, _⟩ := hpart r v hr'
      rw [hr] at hw
      cases hw
  rcases path_cases q p with ⟨r, rfl⟩ | ⟨n, r, rfl⟩ | hapart
  · rw [get?_append, hp, Option.bind_some] at h
    have hself : (t.set p (some t')).get? p = some t' := by
      by_cases hnil : p = []
      · subst hnil
        simp [set]
      · obtain ⟨dir, m, rfl⟩ : ∃ dir m, p = dir ++ [m] :=
          ⟨p.dropLast, p.getLast hnil, (List.dropLast_append_getLast hnil).symm⟩
        exact get?_set_self (isDir_of_get? hp)
    rw [get?_append, hself, Option.bind_some]
    exact habsent r h
  · rw [get?_append, h] at hp
    cases hp
  · rw [get?_set_apart t _ hapart]
    exact h

/-- What replaces a part of a tree and is less than this part leaves less of the tree. -/
theorem Shrinks.set {t v : Tree} {p : Path} {x : Option Tree} (hp : p ≠ [])
    (hfound : t.get? p = some v) (hx : ∀ u, x = some u → u.Shrinks v) : (t.set p x).Shrinks t := by
  intro q u' hu'
  rcases path_cases q p with ⟨r, rfl⟩ | ⟨n, r, rfl⟩ | hapart
  · obtain ⟨dir, m, rfl⟩ : ∃ dir m, p = dir ++ [m] :=
      ⟨p.dropLast, p.getLast hp, (List.dropLast_append_getLast hp).symm⟩
    rw [get?_append, get?_set_self (isDir_of_get? hfound)] at hu'
    obtain ⟨u, hu, hr⟩ := Option.bind_eq_some_iff.mp hu'
    rw [get?_append, hfound, Option.bind_some]
    exact hx u hu r u' hr
  · -- above the part there are directories, and their own size does not count
    rw [get?_append] at hfound
    obtain ⟨c, hc, hbelow⟩ := Option.bind_eq_some_iff.mp hfound
    rw [get?_set_below hc] at hu'
    cases hu'
    refine ⟨c, hc, ?_⟩
    cases c with
    | file i b => cases hbelow
    | dir i es =>
      have hdir := isDir_set_below (t := .dir i es) rfl n r x
      cases hset : (Tree.dir i es).set (n :: r) x with
      | file j b =>
        rw [hset] at hdir
        cases hdir
      | dir j fs => exact Nat.zero_le _
  · rw [get?_set_apart t x hapart] at hu'
    exact ⟨u', hu', le_rfl⟩

def bytesAtName (es : List (String × Tree)) (n : String) : Nat :=
  ((es.lookup n).map bytes).getD 0

theorem bytesOf_append (es fs : List (String × Tree)) :
    bytesOf (es ++ fs) = bytesOf es + bytesOf fs := by
  induction es with
  | nil => simp [bytesOf]
  | cons e es ih =>
    rw [List.cons_append, bytesOf, bytesOf, ih]
    omega

theorem bytesOf_filter {es : List (String × Tree)} (h : (names es).Nodup) (n : String) :
    bytesOf (es.filter fun e => e.1 != n) + bytesAtName es n = bytesOf es := by
  induction es with
  | nil => simp [bytesOf, bytesAtName]
  | cons e es ih =>
    obtain ⟨k, t⟩ := e
    simp only [names, List.map_cons, List.nodup_cons] at h
    have hrec := ih h.2
    by_cases hk : k = n
    · subst hk
      have habsent : es.lookup k = none := by
        cases hl : es.lookup k with
        | none => rfl
        | some u => exact absurd (lookup_isSome_iff.mp (by simp [hl])) h.1
      simp only [bytesAtName, habsent, Option.map_none, Option.getD_none, Nat.add_zero] at hrec
      simp [bytesAtName, bytesOf, hrec]
      omega
    · have hbeq : (n == k) = false := by simpa using Ne.symm hk
      have hbytes : bytesAtName ((k, t) :: es) n = bytesAtName es n := by
        simp only [bytesAtName, List.lookup_cons, hbeq]
      rw [hbytes]
      simp only [List.filter_cons, bne_iff_ne, ne_eq, hk, not_false_eq_true, if_true, bytesOf]
      omega

/-- Replacing one entry changes the bytes of a directory by that entry. -/
theorem bytesOf_setEntry {es : List (String × Tree)} (h : wfOf es) (n : String)
    (x : Option Tree) :
    bytesOf (setEntry es n x) + bytesAtName es n = bytesOf es + (x.map bytes).getD 0 := by
  have hfilter := bytesOf_filter (wfOf_iff.mp h).1 n
  unfold setEntry
  rw [bytesOf_append]
  cases x with
  | none => simp [bytesOf]; omega
  | some t => simp [bytesOf]; omega

theorem bytesOf_eq_names {es : List (String × Tree)} (h : (names es).Nodup) :
    bytesOf es = ((names es).map (bytesAtName es)).sum := by
  have hentry : ∀ e ∈ es, e.2.bytes = bytesAtName es e.1 := fun e he => by
    simp [bytesAtName, lookup_of_mem h (show (e.1, e.2) ∈ es from he)]
  have hsum : bytesOf es = (es.map fun e => e.2.bytes).sum := by
    clear h hentry
    induction es with
    | nil => simp [bytesOf]
    | cons e es ih => simp [bytesOf, ih]
  rw [hsum, names, List.map_map]
  exact congrArg List.sum (List.map_congr_left hentry)

/-- The bytes of a directory are at most those of the names that cover its entries. -/
theorem bytesOf_le_sum {es : List (String × Tree)} (h : wfOf es) {ns : List String}
    (hall : ∀ n, (es.lookup n).isSome → n ∈ ns) :
    bytesOf es ≤ (ns.map (bytesAtName es)).sum := by
  have hnodup := (wfOf_iff.mp h).1
  have hsub : List.Subperm (names es) ns :=
    List.subperm_of_subset hnodup fun n hn => hall n (lookup_isSome_iff.mpr hn)
  obtain ⟨l, hperm, hsublist⟩ := hsub
  rw [bytesOf_eq_names hnodup, ← (hperm.map (bytesAtName es)).sum_eq]
  exact (hsublist.map _).sum_le_sum fun _ _ => Nat.zero_le _

theorem sum_le_bytesOf {es : List (String × Tree)} (h : wfOf es) {ns : List String}
    (hns : ns.Nodup) : (ns.map (bytesAtName es)).sum ≤ bytesOf es := by
  have hnodup := (wfOf_iff.mp h).1
  have hpresent : (ns.map (bytesAtName es)).sum =
      ((ns.filter fun n => (es.lookup n).isSome).map (bytesAtName es)).sum := by
    clear hns
    induction ns with
    | nil => rfl
    | cons n ns ih => cases hn : es.lookup n <;> simp [bytesAtName, hn, ih]
  have hsub : List.Subperm (ns.filter fun n => (es.lookup n).isSome) (names es) :=
    List.subperm_of_subset (hns.filter _) fun n hn =>
      lookup_isSome_iff.mp (List.mem_filter.mp hn).2
  obtain ⟨l, hperm, hsublist⟩ := hsub
  rw [hpresent, bytesOf_eq_names hnodup, ← (hperm.map (bytesAtName es)).sum_eq]
  exact (hsublist.map _).sum_le_sum fun _ _ => Nat.zero_le _

/-- Replacing an entry of a directory changes its bytes by that entry. -/
theorem bytesAt_set_entry {t : Tree} (hwf : t.wf) {d : String} (hdir : t.IsDir [d]) (n : String)
    (x : Option Tree) :
    (t.set [d, n] x).bytesAt [d] + t.bytesAt [d, n] = t.bytesAt [d] + (x.map bytes).getD 0 := by
  obtain ⟨j, es, hd⟩ := hdir
  cases t with
  | file i c => simp at hd
  | dir i rs =>
    rw [get?_dir] at hd
    cases hlookup : rs.lookup d with
    | none => simp [hlookup] at hd
    | some c =>
      simp only [hlookup, Option.bind_some, get?_nil, Option.some.injEq] at hd
      subst hd
      have hes : wfOf es := by simpa using wf_of_lookup (by simpa using hwf) hlookup
      have hset := bytesOf_setEntry hes n x
      have hname : (Tree.dir i rs).bytesAt [d, n] = bytesAtName es n := by
        simp only [bytesAt, get?_dir, hlookup, Option.bind_some, bytesAtName]
        cases es.lookup n <;> simp
      have hdirBytes : (Tree.dir i rs).bytesAt [d] = bytesOf es := by
        simp [bytesAt, get?_dir, hlookup, bytes]
      have hnew : ((Tree.dir i rs).set [d, n] x).bytesAt [d] = bytesOf (setEntry es n x) := by
        simp [bytesAt, Tree.set, hlookup, get?_dir, bytes]
      rw [hname, hdirBytes, hnew]
      exact hset

theorem bytesAt_set_apart (t : Tree) {p q : Path} (x : Option Tree) (h : Apart q p) :
    (t.set p x).bytesAt q = t.bytesAt q := by
  rw [bytesAt, bytesAt, get?_set_apart t x h]

theorem dir_entries {t : Tree} (hwf : t.wf) {d : String} (hdir : t.IsDir [d]) :
    ∃ es, wfOf es ∧ t.bytesAt [d] = bytesOf es ∧ (∀ n, t.get? [d, n] = es.lookup n) ∧
      (fun n => t.bytesAt [d, n]) = bytesAtName es := by
  obtain ⟨j, es, hd⟩ := hdir
  have hsplit : ∀ n, t.get? [d, n] = es.lookup n := by
    intro n
    have happend := get?_append t [d] [n]
    rw [hd, Option.bind_some, get?_dir] at happend
    rw [show [d, n] = [d] ++ [n] from rfl, happend]
    cases es.lookup n <;> simp
  refine ⟨es, by simpa using wf_get? hwf hd, by simp [bytesAt, hd, bytes], hsplit, ?_⟩
  funext n
  simp only [bytesAt, bytesAtName, hsplit]

/-- A directory weighs at most what the names add up to that cover its entries. -/
theorem bytesAt_le_sum {t : Tree} (hwf : t.wf) {d : String} {ns : List String}
    (hall : ∀ n, (t.get? [d, n]).isSome → n ∈ ns) (hdir : t.IsDir [d]) :
    t.bytesAt [d] ≤ (ns.map fun n => t.bytesAt [d, n]).sum := by
  obtain ⟨es, hes, hbytes, hsplit, hname⟩ := dir_entries hwf hdir
  rw [hbytes, hname]
  exact bytesOf_le_sum hes fun n hn => hall n (by rw [hsplit]; exact hn)

theorem bytesAt_eq_sum {t : Tree} (hwf : t.wf) {d : String} {ns : List String} (hns : ns.Nodup)
    (hall : ∀ n, (t.get? [d, n]).isSome → n ∈ ns) (hdir : t.IsDir [d]) :
    t.bytesAt [d] = (ns.map fun n => t.bytesAt [d, n]).sum := by
  refine Nat.le_antisymm (bytesAt_le_sum hwf hall hdir) ?_
  obtain ⟨es, hes, hbytes, _, hname⟩ := dir_entries hwf hdir
  rw [hbytes, hname]
  exact sum_le_bytesOf hes hns

end Tree
end FileTree
