import Sdpctl.Cache.Walk

/-!
The cache of the sizes of quarantine and trash against the disk. A cached value is
right while its signature matches; once a direct entry of either directory comes
or goes the signature never matches again.
-/

namespace Sdpctl

open FileTree

/-- The signature of the value is past, and does not come back. -/
def Outdated (d : Disk) (e : AuxCache) : Prop :=
  (d.has quarantineRoot = true ∧ e.1.1 < d.mtime quarantineRoot) ∨
    (e.1.2 < d.mtime trashRoot ∧ (0 ≤ e.1.2 ∨ d.has trashRoot = true))

/-- The cached value is what a walk finds, or outdated. -/
structure Coherent (d : Disk) (e : AuxCache) : Prop where
  past : e.1.1 ≤ d.mtime quarantineRoot
  current : (e.1 = d.signature ∧ e.2 = d.auxiliary) ∨ Outdated d e

/-- What a change of the disk means for the signature. -/
inductive Disk.Stirs (d d' : Disk) : Prop where
  /-- No direct entry has come or gone, and everything weighs the same. -/
  | still (has : ∀ p, p = quarantineRoot ∨ p = trashRoot → d'.has p = d.has p)
      (mtime : ∀ p, p = quarantineRoot ∨ p = trashRoot → d'.mtime p = d.mtime p)
      (sizes : d'.auxiliary = d.auxiliary)
  | quarantine (there : d'.has quarantineRoot = true)
      (later : d.mtime quarantineRoot < d'.mtime quarantineRoot)
      (grows : d.mtime trashRoot ≤ d'.mtime trashRoot)
  | trash (before : d.has trashRoot = true) (there : d'.has trashRoot = true)
      (later : d.mtime trashRoot < d'.mtime trashRoot)
      (same : d'.has quarantineRoot = d.has quarantineRoot)
      (grows : d.mtime quarantineRoot ≤ d'.mtime quarantineRoot)
  /-- A directory that was missing is there, and empty. -/
  | made (root : Path) (which : root = quarantineRoot ∨ root = trashRoot)
      (missing : d.has root = false) (there : d'.has root = true)
      (same : ∀ p, p = quarantineRoot ∨ p = trashRoot → p ≠ root → d'.has p = d.has p)
      (mtime : d'.mtime = d.mtime)

namespace Coherent

variable {d d' : Disk} {e : AuxCache}

theorem stamp_le (d : Disk) (p : Path) : d.stamp p ≤ d.mtime p := by
  unfold Disk.stamp
  split <;> omega

theorem fresh (d : Disk) : Coherent d (d.signature, d.auxiliary) :=
  ⟨stamp_le d quarantineRoot, .inl ⟨rfl, rfl⟩⟩

theorem hit (h : Coherent d e) (hsig : e.1 = d.signature) : e.2 = d.auxiliary := by
  rcases h.current with ⟨_, hsizes⟩ | ⟨hthere, hlt⟩ | ⟨hlt, hseen⟩
  · exact hsizes
  · rw [hsig] at hlt
    simp [Disk.signature, Disk.stamp, hthere] at hlt
  · rw [hsig] at hlt hseen
    simp only [Disk.signature, Disk.stamp] at hlt hseen
    split at hlt
    · omega
    · rename_i hmissing
      simp [hmissing] at hseen

theorem still (h : Coherent d e)
    (has : ∀ p, p = quarantineRoot ∨ p = trashRoot → d'.has p = d.has p)
    (mtime : ∀ p, p = quarantineRoot ∨ p = trashRoot → d'.mtime p = d.mtime p)
    (sizes : e.1 = d.signature → d'.auxiliary = d.auxiliary) : Coherent d' e := by
  have hsig : d'.signature = d.signature := by
    simp only [Disk.signature, Disk.stamp, has _ (.inl rfl), has _ (.inr rfl),
      mtime _ (.inl rfl), mtime _ (.inr rfl)]
  refine ⟨by rw [mtime _ (.inl rfl)]; exact h.past, ?_⟩
  rcases h.current with ⟨hmatch, hright⟩ | hold
  · exact .inl ⟨hmatch.trans hsig.symm, hright.trans (sizes hmatch).symm⟩
  · right
    unfold Outdated
    rw [has _ (.inl rfl), has _ (.inr rfl), mtime _ (.inl rfl), mtime _ (.inr rfl)]
    exact hold

theorem stirs (h : Coherent d e) (hstep : d.Stirs d') : Coherent d' e := by
  have hpast := h.past
  cases hstep with
  | still has mtime sizes => exact h.still has mtime fun _ => sizes
  | quarantine there later grows =>
    exact ⟨by omega, .inr (.inl ⟨there, by omega⟩)⟩
  | trash before there later same grows =>
    refine ⟨by omega, .inr ?_⟩
    rcases h.current with ⟨hmatch, _⟩ | ⟨hthere, hlt⟩ | ⟨hlt, _⟩
    · have hstamp := stamp_le d trashRoot
      have hsecond : e.1.2 = d.stamp trashRoot := congrArg Prod.snd hmatch
      exact .inr ⟨by omega, .inr there⟩
    · exact .inl ⟨same.trans hthere, by omega⟩
    · exact .inr ⟨by omega, .inr there⟩
  | made root which missing there same mtime =>
    refine ⟨by rw [mtime]; exact hpast, .inr ?_⟩
    rw [Outdated, mtime]
    rcases which with rfl | rfl
    · have htrash := same trashRoot (.inr rfl) (by decide)
      rcases h.current with ⟨hmatch, _⟩ | ⟨hthere, _⟩ | ⟨hlt, hseen⟩
      · have hfirst : e.1.1 = d.stamp quarantineRoot := congrArg Prod.fst hmatch
        simp only [Disk.stamp, missing, Bool.false_eq_true, ite_false] at hfirst
        exact .inl ⟨there, by omega⟩
      · rw [missing] at hthere
        cases hthere
      · exact .inr ⟨hlt, hseen.imp_right fun hs => htrash.trans hs⟩
    · have hquarantine := same quarantineRoot (.inl rfl) (by decide)
      rcases h.current with ⟨hmatch, _⟩ | ⟨hthere, hlt⟩ | ⟨hlt, hseen⟩
      · have hsecond : e.1.2 = d.stamp trashRoot := congrArg Prod.snd hmatch
        simp only [Disk.stamp, missing, Bool.false_eq_true, ite_false] at hsecond
        exact .inr ⟨by omega, .inr there⟩
      · exact .inl ⟨hquarantine.trans hthere, hlt⟩
      · exact .inr ⟨hlt, .inr there⟩

end Coherent

namespace Disk

variable {d d' : Disk} {p dir : Path} {t : Tree}

theorem has_of_isDir (h : d.root.IsDir p) : d.has p = true := by
  obtain ⟨i, es, hes⟩ := h
  exact has_iff.mpr ⟨_, hes⟩

theorem mkdir_stirs (hp : p = quarantineRoot ∨ p = trashRoot) (h : d.mkdir p = .ok d') :
    d.Stirs d' := by
  unfold mkdir at h
  split at h
  · cases h
    exact .still (fun _ _ => rfl) (fun _ _ => rfl) rfl
  · rename_i hmissing
    obtain ⟨n, rfl⟩ : ∃ n, p = [n] := by rcases hp with rfl | rfl <;> exact ⟨_, rfl⟩
    split at h
    · rename_i root hroot
      cases h
      cases hd : d.root with
      | file i c => simp [hd, Tree.mkdirs] at hroot
      | dir i es =>
        cases hn : es.lookup n with
        | some c =>
          -- something else is in the way, or the directory is there
          cases c with
          | file j b => simp [hd, Tree.mkdirs, hn] at hroot
          | dir j fs => simp [isDirAt, get?, hd, Tree.get?_dir, hn, Tree.isDir] at hmissing
        | none =>
          simp only [hd, Tree.mkdirs, hn, Option.some.injEq] at hroot
          subst hroot
          refine .made [n] hp ?_ ?_ ?_ rfl
          · simp [has, get?, hd, Tree.get?_dir, hn]
          · simp [has, get?, Tree.get?_dir]
          · intro q hq hne
            obtain ⟨m, rfl⟩ : ∃ m, q = [m] := by rcases hq with rfl | rfl <;> exact ⟨_, rfl⟩
            have hmn : m ≠ n := by simpa using hne
            simp [has, get?, hd, Tree.get?_dir, lookup_setEntry_ne _ _ hmn]
    · cases h

theorem isDir_move {q : Path} {n : String} (hdir : d.root.IsDir dir) (hp : ¬ p <+: dir)
    (hq : q = dir ++ [n]) : (d.move p q t).root.IsDir dir := by
  have hmid : (d.put p none).root.IsDir dir := by
    rcases path_cases p dir with ⟨r, rfl⟩ | ⟨m, r, rfl⟩ | hapart
    · cases r with
      | nil => exact absurd (by simp) hp
      | cons m r => exact hdir.set_below
    · exact absurd (List.prefix_append _ _) hp
    · exact hdir.set_apart hapart.symm
  subst hq
  exact hmid.set_below

/-- A rename goes into a directory that is there, and not into what it moves. -/
theorem rename_checks {q : Path} (h : d.rename p q = .ok d') :
    d.root.IsDir (parent q) ∧ ¬ p <+: q := by
  unfold rename at h
  split at h
  · cases h
  · split at h
    · cases h
    · rename_i hdir
      split at h
      · cases h
      · rename_i hapart
        rw [Bool.not_eq_true, Bool.or_eq_false_iff] at hapart
        refine ⟨isDirAt_iff.mp (by simpa using hdir), fun hp => ?_⟩
        rw [List.isPrefixOf_iff_prefix.mpr hp] at hapart
        cases hapart.1

theorem le_mtime_put (d : Disk) (p q : Path) (x : Option Tree) :
    d.mtime q ≤ (d.put p x).mtime q := by
  simp only [put]
  split <;> omega

/-- The directory in which something is put has a new modification time. -/
theorem lt_mtime_move {q : Path} (hq : parent q = dir) :
    d.mtime dir < (d.move p q t).mtime dir := by
  have hle := d.le_mtime_put p dir none
  simp only [move, put, hq, ite_true] at hle ⊢
  omega

theorem le_mtime_move (d : Disk) (p q dir : Path) (t : Tree) :
    d.mtime dir ≤ (d.move p q t).mtime dir :=
  Nat.le_trans (d.le_mtime_put p dir none) ((d.put p none).le_mtime_put q dir (some t))

theorem rename_stirs_quarantine {label : String}
    (h : d.rename p (quarantineEntry label) = .ok d') : d.Stirs d' := by
  obtain ⟨hdir, hnot⟩ := rename_checks h
  obtain ⟨t, ht, rfl⟩ := rename_ok h
  have hprefix : ¬ p <+: quarantineRoot := fun hp => hnot (hp.trans ⟨[label], rfl⟩)
  have hthere := isDir_move (q := quarantineEntry label) (t := t) hdir hprefix rfl
  exact .quarantine (has_of_isDir hthere) (lt_mtime_move rfl) (le_mtime_move _ _ _ _ _)

/-- A live copy that goes into the trash changes the time of the trash only. -/
theorem rename_stirs_trash {oid : Nat} (h : d.rename (msPathOf oid) (trashPath oid) = .ok d') :
    d.Stirs d' := by
  obtain ⟨hdir, _⟩ := rename_checks h
  obtain ⟨t, ht, rfl⟩ := rename_ok h
  have hprefix : ¬ msPathOf oid <+: trashRoot := by simp [msPathOf, trashRoot]
  have hthere := isDir_move (q := trashPath oid) (t := t) hdir hprefix rfl
  have hquarantine : (d.move (msPathOf oid) (trashPath oid) t).get? quarantineRoot =
      d.get? quarantineRoot := by
    unfold move
    rw [get?_put_apart _ _ (by simp [quarantineRoot, trashPath]),
      get?_put_apart _ _ (by simp [quarantineRoot, msPathOf])]
  refine .trash (has_of_isDir hdir) (has_of_isDir hthere) (lt_mtime_move rfl) ?_
    (le_mtime_move _ _ _ _ _)
  simp only [has, hquarantine]

theorem elsewhere_still {root : Tree} {mtime : Path → Nat}
    (hget : ∀ p, p = quarantineRoot ∨ p = trashRoot → root.get? p = d.root.get? p)
    (hmtime : ∀ p, p = quarantineRoot ∨ p = trashRoot → mtime p = d.mtime p) :
    d.Stirs { root, mtime } := by
  refine .still (fun p hp => ?_) hmtime ?_
  · simp only [has, get?, hget p hp]
  · simp only [auxiliary, bytesAt, Tree.bytesAt, hget _ (.inl rfl), hget _ (.inr rfl)]

theorem remove_stirs {oid : Nat} {u : Tree} (hp : p = msPathOf oid ∨ p = trashPath oid)
    (hu : d.get? p = some u) : d.Stirs (d.put p none) := by
  rcases hp with rfl | rfl
  · refine elsewhere_still (fun q hq => ?_) fun q hq => ?_
    · apply Tree.get?_set_apart
      rcases hq with rfl | rfl <;> simp [quarantineRoot, trashRoot, msPathOf]
    · rcases hq with rfl | rfl <;> simp [parent, quarantineRoot, trashRoot, msPathOf]
  · have hdir : d.root.IsDir trashRoot := Tree.isDir_of_get? (p := trashRoot) hu
    have hquarantine : (d.put (trashPath oid) none).get? quarantineRoot = d.get? quarantineRoot :=
      get?_put_apart _ _ (by simp [quarantineRoot, trashPath])
    refine .trash (has_of_isDir hdir) (has_of_isDir (hdir.set_below (r := []))) ?_ ?_
      (d.le_mtime_put _ _ _)
    · simp [put, parent, trashPath, trashRoot]
    · simp only [has, hquarantine]

end Disk

/-- A removal that stopped part-way, and took no bytes from the trash that the value
counts. -/
theorem Coherent.pruned {d : Disk} {e : AuxCache} {p : Path} {t u : Tree} {oid : Nat}
    (h : Coherent d e) (hp : p = msPathOf oid ∨ p = trashPath oid) (hu : d.get? p = some u)
    (hbytes : e.1 = d.signature →
      ({ d with root := d.root.set p (some t) } : Disk).bytesAt trashRoot = d.bytesAt trashRoot) :
    Coherent { d with root := d.root.set p (some t) } e := by
  have hquarantine : (d.root.set p (some t)).get? quarantineRoot = d.root.get? quarantineRoot := by
    apply Tree.get?_set_apart
    rcases hp with rfl | rfl <;> simp [quarantineRoot, msPathOf, trashPath]
  refine h.still (fun q hq => ?_) (fun _ _ => rfl) fun hsig => ?_
  · rcases hq with rfl | rfl
    · simp only [Disk.has, Disk.get?, hquarantine]
    · rcases hp with rfl | rfl
      · have htrash : (d.root.set (msPathOf oid) (some t)).get? trashRoot = d.root.get? trashRoot :=
          Tree.get?_set_apart _ _ (by simp [trashRoot, msPathOf])
        simp only [Disk.has, Disk.get?, htrash]
      · have hdir : d.root.IsDir trashRoot := Tree.isDir_of_get? (p := trashRoot) hu
        rw [Disk.has_of_isDir hdir, Disk.has_of_isDir (hdir.set_below (r := []))]
  · simp only [Disk.auxiliary, hbytes hsig]
    simp only [Disk.bytesAt, Tree.bytesAt, hquarantine]

end Sdpctl
