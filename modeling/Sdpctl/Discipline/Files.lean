import Sdpctl.Discipline.Memory

/-!
The steps on the disk. Whoever moves or removes a tree, an observation that is
not given up keeps what it has, or is quarantined by the one who answers for it;
the quarantine grows only by a step that changes its modification time; and the
bytes that count never grow.
-/

namespace Sdpctl

open FileTree Coop

namespace Disk

variable {d d' : Disk}

/-- Replacing an entry below one directory of the layout leaves the others. -/
theorem bytesAt_set_ne {a b n : String} {rest : Path} {x : Option Tree}
    (hroot : d'.root = d.root.set (a :: b :: rest) x) (hne : n ≠ a) :
    d'.bytesAt [n] = d.bytesAt [n] := by
  unfold bytesAt
  rw [hroot]
  exact Tree.bytesAt_set_apart _ _ (by simp [hne])

/-- What an observation has left under its own names. -/
structure Less (d d' : Disk) (oid : Nat) : Prop where
  bytes : d'.bytesAt (msPathOf oid) + d'.bytesAt (trashPath oid) ≤
    d.bytesAt (msPathOf oid) + d.bytesAt (trashPath oid)
  ms : d.absent (msPathOf oid) → d'.absent (msPathOf oid)
  trash : d.absent (msPathOf oid) → d.absent (trashPath oid) → d'.absent (trashPath oid)

theorem bytesAt_congr {p : Path} (h : d'.get? p = d.get? p) : d'.bytesAt p = d.bytesAt p := by
  unfold bytesAt Tree.bytesAt
  exact congrArg (fun x => (Option.map Tree.bytes x).getD 0) h

theorem bytesAt_of_absent {p : Path} (h : d.absent p) : d.bytesAt p = 0 := by
  have hnone : d.root.get? p = none := h
  simp [bytesAt, Tree.bytesAt, hnone]

theorem bytesAt_of_get? {p : Path} {t : Tree} (h : d.get? p = some t) : d.bytesAt p = t.bytes := by
  have hsome : d.root.get? p = some t := h
  simp [bytesAt, Tree.bytesAt, hsome]

theorem weighs_congr {T : Terms} {o : Observation}
    (hms : d'.get? (msPathOf o.id) = d.get? (msPathOf o.id))
    (htrash : d'.get? (trashPath o.id) = d.get? (trashPath o.id)) (h : d.Weighs T o) :
    d'.Weighs T o := by
  unfold Weighs absent at *
  rw [hms, htrash, bytesAt_congr hms, bytesAt_congr htrash]
  exact h

theorem Less.weighs {T : Terms} {o : Observation} (hless : d.Less d' o.id)
    (hclosing : o.state.Closing)
    (h : d.Weighs T o) : d'.Weighs T o := by
  unfold Weighs at *
  rcases hclosing with hs | hs | hs <;> simp only [hs] at h ⊢
  · exact Nat.le_trans hless.bytes h
  · exact ⟨hless.ms h.1, hless.trash h.1 h.2⟩
  · exact ⟨hless.ms h.1, hless.trash h.1 h.2⟩

def Shrunk (d d' : Disk) : Prop :=
  ∀ q u', d'.get? (quarantineRoot ++ q) = some u' →
    ∃ u, d.get? (quarantineRoot ++ q) = some u ∧ u'.statSize ≤ u.statSize

theorem Shrunk.refl (d : Disk) : d.Shrunk d := fun _ u h => ⟨u, h, Nat.le_refl _⟩

theorem Shrunk.trans {d'' : Disk} (h : d.Shrunk d') (h' : d'.Shrunk d'') : d.Shrunk d'' := by
  intro q u'' hu''
  obtain ⟨u', hu', hle'⟩ := h' q u'' hu''
  obtain ⟨u, hu, hle⟩ := h q u' hu'
  exact ⟨u, hu, Nat.le_trans hle' hle⟩

theorem Shrunk.absent (h : d.Shrunk d') {q : Path} (hq : d.absent (quarantineRoot ++ q)) :
    d'.absent (quarantineRoot ++ q) := by
  cases hget : d'.get? (quarantineRoot ++ q) with
  | none => exact hget
  | some u' =>
    obtain ⟨u, hu, _⟩ := h q u' hget
    rw [hq] at hu
    cases hu

theorem shrunk_of_apart {p : Path} {x : Option Tree} (hroot : d'.root = d.root.set p x)
    (hapart : ∀ q, Apart (quarantineRoot ++ q) p) : d.Shrunk d' := by
  intro q u' hu'
  have hsame : d'.get? (quarantineRoot ++ q) = d.get? (quarantineRoot ++ q) := by
    unfold get?
    rw [hroot]
    exact Tree.get?_set_apart _ _ (hapart q)
  exact ⟨u', hsame ▸ hu', Nat.le_refl _⟩

theorem shrunk_of_entry {name : String} {x : Option Tree} {u : Tree}
    (hdir : d.root.IsDir quarantineRoot) (hroot : d'.root = d.root.set (quarantineEntry name) x)
    (hfound : d.get? (quarantineEntry name) = some u) (hx : ∀ t, x = some t → t.Shrinks u) :
    d.Shrunk d' := by
  intro q u' hu'
  have hself : d'.get? (quarantineEntry name) = x := by
    unfold get?
    rw [hroot]
    exact Tree.get?_set_self (p := quarantineRoot) hdir
  cases q with
  | nil =>
    obtain ⟨i, es, hes⟩ := hdir
    have hdir' : d'.root.IsDir quarantineRoot := by
      rw [hroot]
      exact Tree.IsDir.set_below (q := quarantineRoot) ⟨i, es, hes⟩
    obtain ⟨j, fs, hfs⟩ := hdir'
    simp only [List.append_nil] at hu' ⊢
    refine ⟨.dir i es, hes, ?_⟩
    have heq : u' = .dir j fs := Option.some.inj (hu'.symm.trans hfs)
    simp [heq, Tree.statSize]
  | cons m q =>
    have hpath : quarantineRoot ++ m :: q = quarantineEntry m ++ q := by
      simp [quarantineRoot, quarantineEntry]
    rw [hpath] at hu' ⊢
    by_cases hm : m = name
    · subst hm
      unfold get? at hu' hself hfound ⊢
      rw [Tree.get?_append, hself] at hu'
      rw [Tree.get?_append, hfound]
      cases x with
      | none => cases hu'
      | some t => exact hx t rfl q u' hu'
    · have hsame : d'.get? (quarantineEntry m ++ q) = d.get? (quarantineEntry m ++ q) := by
        unfold get?
        rw [hroot]
        exact Tree.get?_set_apart _ _ (by simp [quarantineEntry, hm])
      exact ⟨u', hsame ▸ hu', Nat.le_refl _⟩

theorem Shrunk.bytes_le (h : d.Shrunk d') (hdir : d.root.IsDir quarantineRoot)
    (hdir' : d'.root.IsDir quarantineRoot) (hwf : d.root.wf) (hwf' : d'.root.wf) :
    d'.bytesAt quarantineRoot ≤ d.bytesAt quarantineRoot := by
  obtain ⟨i, es, hes⟩ := hdir
  obtain ⟨j, fs, hfs⟩ := hdir'
  rw [bytesAt_of_get? hes, bytesAt_of_get? hfs]
  refine Tree.Shrinks.bytes_le (fun q u' hu' => ?_) (Tree.wf_get? hwf hes) (Tree.wf_get? hwf' hfs)
  obtain ⟨u, hu, hle⟩ := h q u' (by unfold get?; rw [Tree.get?_append, hfs]; exact hu')
  refine ⟨u, ?_, hle⟩
  unfold get? at hu
  rwa [Tree.get?_append, hes] at hu

/-- The bytes under `observations/` and `trash/`. -/
def raw (d : Disk) : Nat := d.bytesAt observationsRoot + d.bytesAt trashRoot

theorem physical_eq (d : Disk) : d.physical = d.raw + d.bytesAt quarantineRoot := by
  unfold physical raw
  omega

end Disk

namespace DiskOk

variable {db : Db} {d d' : Disk}

theorem observations (h : DiskOk db d) : d.root.IsDir observationsRoot :=
  h.dirs "observations" (by simp [layout])

theorem quarantine (h : DiskOk db d) : d.root.IsDir quarantineRoot :=
  h.dirs "quarantine" (by simp [layout])

theorem trash (h : DiskOk db d) : d.root.IsDir trashRoot := h.dirs "trash" (by simp [layout])

theorem set (h : DiskOk db d) {a b : String} {rest : Path} {x : Option Tree}
    (hroot : d'.root = d.root.set (a :: b :: rest) x) (hx : ∀ t, x = some t → t.wf)
    (hcovered : a = "observations" ∨ a = "trash" → rest = [] ∧
      (x.isSome → ∃ oid o, db.obs? oid = some o ∧ b = obsName oid)) : DiskOk db d' where
  wf := by
    rw [hroot]
    exact Tree.wf_set h.wf hx
  dirs n hn := by
    rw [hroot]
    by_cases hna : n = a
    · subst hna
      exact Tree.IsDir.set_below (q := [n]) (h.dirs n hn)
    · exact Tree.IsDir.set_apart (h.dirs n hn) (by simp [hna])
  covered dir n hdir hhas := by
    have hget : d'.get? [dir, n] = (d.root.set (a :: b :: rest) x).get? [dir, n] := by
      unfold Disk.get?
      rw [hroot]
    by_cases hapart : Apart [dir, n] (a :: b :: rest)
    · refine h.covered dir n hdir ?_
      rw [Tree.get?_set_apart _ _ hapart] at hget
      unfold Disk.has at hhas ⊢
      rwa [hget] at hhas
    · simp only [apart_cons, not_or, ne_eq, Decidable.not_not] at hapart
      obtain ⟨rfl, rfl, _⟩ := hapart
      obtain ⟨rfl, hsome⟩ := hcovered hdir
      have hself : (d.root.set [dir, n] x).get? [dir, n] = x :=
        Tree.get?_set_self (p := [dir]) (h.dirs dir
          (by rcases hdir with rfl | rfl <;> simp [layout]))
      rw [hself] at hget
      unfold Disk.has at hhas
      rw [hget] at hhas
      exact hsome hhas

theorem rowsKept (h : DiskOk db d) {db' : Db}
    (hrows : ∀ oid, (db.obs? oid).isSome → (db'.obs? oid).isSome) : DiskOk db' d where
  wf := h.wf
  dirs := h.dirs
  covered dir n hdir hhas := by
    obtain ⟨oid, o, ho, rfl⟩ := h.covered dir n hdir hhas
    obtain ⟨o', ho'⟩ := Option.isSome_iff_exists.mp (hrows oid (by simp [ho]))
    exact ⟨oid, o', ho', rfl⟩

/-- A name under `observations/` or `trash/` that is taken belongs to a row. -/
theorem row_of_ms (h : DiskOk db d) {oid : Nat} (hhas : d.has (msPathOf oid)) :
    (db.obs? oid).isSome := by
  obtain ⟨i, o, ho, heq⟩ := h.covered "observations" (obsName oid) (.inl rfl) hhas
  rw [obsName_inj] at heq
  rw [heq, ho]
  rfl

theorem absent_of_fresh (h : DiskOk db d) {oid : Nat} (hnone : db.obs? oid = none) :
    d.absent (msPathOf oid) ∧ d.absent (trashPath oid) := by
  constructor
  · cases hget : d.get? (msPathOf oid) with
    | none => exact hget
    | some t =>
      have hhas : d.has (msPathOf oid) := by simp [Disk.has, hget]
      have hsome := h.row_of_ms hhas
      simp [hnone] at hsome
  · cases hget : d.get? (trashPath oid) with
    | none => exact hget
    | some t =>
      obtain ⟨i, o, ho, heq⟩ := h.covered "trash" (obsName oid) (.inr rfl)
        (show d.has (trashPath oid) from by simp [Disk.has, hget])
      rw [obsName_inj] at heq
      rw [heq, ho] at hnone
      cases hnone

theorem msEntry (h : DiskOk db d) (n : String) (x : Option Tree) :
    (d.root.set ["observations", n] x).bytesAt observationsRoot + d.bytesAt ["observations", n]
      = d.bytesAt observationsRoot + (x.map Tree.bytes).getD 0 :=
  Tree.bytesAt_set_entry h.wf h.observations n x

end DiskOk

theorem Disk.get?_of_set {d d' : Disk} {p q : Path} {x : Option Tree}
    (hroot : d'.root = d.root.set p x) (hq : Apart q p) : d'.get? q = d.get? q := by
  unfold Disk.get?
  rw [hroot]
  exact Tree.get?_set_apart _ _ hq

/-- One of the two names of an observation loses bytes, the other stays as it was. -/
theorem Disk.Less.of_set {d d' : Disk} {p : Path} {x : Option Tree} {u : Tree} {oid : Nat}
    (hroot : d'.root = d.root.set p x) (hfound : d.get? p = some u)
    (hle : d'.bytesAt p ≤ d.bytesAt p) (hp : p = msPathOf oid ∨ p = trashPath oid) :
    d.Less d' oid := by
  rcases hp with rfl | rfl
  · have hap : Apart (trashPath oid) (msPathOf oid) := by simp [trashPath, msPathOf]
    refine ⟨?_, ?_, ?_⟩
    · rw [Disk.bytesAt_congr (Disk.get?_of_set hroot hap)]
      exact Nat.add_le_add_right hle _
    · exact fun habs => absurd (hfound.symm.trans habs) (by simp)
    · exact fun habs => absurd (hfound.symm.trans habs) (by simp)
  · have hap : Apart (msPathOf oid) (trashPath oid) := by simp [trashPath, msPathOf]
    refine ⟨?_, ?_, ?_⟩
    · rw [Disk.bytesAt_congr (Disk.get?_of_set hroot hap)]
      exact Nat.add_le_add_left hle _
    · exact (Disk.get?_of_set hroot hap).trans
    · exact fun _ habs => absurd (hfound.symm.trans habs) (by simp)

theorem Removable.sees {r : Role} {s : Shared} {p : Path} {d' : Disk} {x : Option Tree} {u : Tree}
    (hok : DiskOk s.db s.disk) (may : Removable r s p) (hroot : d'.root = s.disk.root.set p x)
    (hfound : s.disk.get? p = some u) (hpart : ∀ t, x = some t → t.wf ∧ t.Shrinks u) {oid : Nat}
    {o : Observation} (ho : s.db.obs? oid = some o) :
    (d'.get? (msPathOf oid) = s.disk.get? (msPathOf oid) ∧
      d'.get? (trashPath oid) = s.disk.get? (trashPath oid)) ∨
    (o.state.Closing ∧ s.disk.Less d' oid) := by
  have hsame := fun q (hq : Apart q p) => Disk.get?_of_set hroot hq
  cases may with
  | product run role path =>
    subst path
    exact .inl ⟨hsame _ (by simp [msPathOf, outputDir]), hsame _ (by simp [trashPath, outputDir])⟩
  | entry name role path =>
    subst path
    exact .inl ⟨hsame _ (by simp [msPathOf, quarantineEntry]),
      hsame _ (by simp [trashPath, quarantineEntry])⟩
  | raw i givenUp path =>
    by_cases hi : i = oid
    · subst hi
      right
      obtain ⟨o₀, ho₀, hclosing⟩ := givenUp.closing
      rw [ho] at ho₀
      cases ho₀
      refine ⟨hclosing, Disk.Less.of_set hroot hfound ?_ path⟩
      have hself : d'.get? p = x := by
        unfold Disk.get?
        rw [hroot]
        rcases path with rfl | rfl
        · exact Tree.get?_set_self (p := observationsRoot) hok.observations
        · exact Tree.get?_set_self (p := trashRoot) hok.trash
      cases x with
      | none =>
        rw [Disk.bytesAt_of_absent hself]
        exact Nat.zero_le _
      | some t =>
        obtain ⟨hwf, hshrinks⟩ := hpart t rfl
        rw [Disk.bytesAt_of_get? hself, Disk.bytesAt_of_get? hfound]
        exact hshrinks.bytes_le (Tree.wf_get? hok.wf hfound) hwf
    · left
      have hne : oid ≠ i := Ne.symm hi
      rcases path with rfl | rfl
      · exact ⟨hsame _ (by simp [msPathOf, hne]), hsame _ (by simp [msPathOf, trashPath])⟩
      · exact ⟨hsame _ (by simp [msPathOf, trashPath]), hsame _ (by simp [trashPath, hne])⟩

theorem Step.sees {T : Terms} {r : Role} {s s' : Shared} (hok : DiskOk s.db s.disk)
    (h : Step T r s s') {oid : Nat} {o : Observation} (ho : s.db.obs? oid = some o) :
    (s'.disk.get? (msPathOf oid) = s.disk.get? (msPathOf oid) ∧
      s'.disk.get? (trashPath oid) = s.disk.get? (trashPath oid)) ∨
    (o.state.Closing ∧ s.disk.Less s'.disk oid) ∨
    (o.state = .observing ∧ NoWriter oid s ∧ Holder r oid s ∧
      s'.disk.absent (msPathOf oid) ∧
      s'.disk.get? (trashPath oid) = s.disk.get? (trashPath oid)) := by
  cases h with
  | quarantine may found =>
    rename_i name label t
    have htrash : (s.disk.move (observationsRoot ++ [name]) (quarantineEntry label) t).get?
        (trashPath oid) = s.disk.get? (trashPath oid) := by
      unfold Disk.move
      rw [Disk.get?_put_apart _ _ (by simp [trashPath, quarantineEntry]),
        Disk.get?_put_apart _ _ (by simp [trashPath, observationsRoot])]
    by_cases hname : obsName oid = name
    · subst hname
      obtain ⟨hobs, hwriter, hholder⟩ := may.source oid o ho rfl
      refine .inr (.inr ⟨hobs, hwriter, hholder, ?_, htrash⟩)
      unfold Disk.absent Disk.move
      rw [Disk.get?_put_apart _ _ (by simp [msPathOf, quarantineEntry])]
      exact Disk.get?_put_self (p := observationsRoot) hok.observations
    · left
      refine ⟨?_, htrash⟩
      unfold Disk.move
      rw [Disk.get?_put_apart _ _ (by simp [msPathOf, quarantineEntry]),
        Disk.get?_put_apart _ _ (by simp [msPathOf, observationsRoot, hname])]
  | trash may found =>
    rename_i i t
    by_cases hi : i = oid
    · subst hi
      obtain ⟨o₀, ho₀, hclosing⟩ := may.closing
      rw [ho] at ho₀
      cases ho₀
      refine .inr (.inl ⟨hclosing, ?_⟩)
      have hms : (s.disk.move (msPathOf i) (trashPath i) t).get? (msPathOf i) = none := by
        unfold Disk.move
        rw [Disk.get?_put_apart _ _ (by simp [msPathOf, trashPath])]
        exact Disk.get?_put_self (p := observationsRoot) hok.observations
      have hdir : (s.disk.put (msPathOf i) none).root.IsDir trashRoot :=
        Tree.IsDir.set_apart hok.trash (by simp [trashRoot, msPathOf])
      have htr : (s.disk.move (msPathOf i) (trashPath i) t).get? (trashPath i) = some t :=
        Disk.get?_put_self (p := trashRoot) hdir
      refine ⟨?_, fun _ => hms, fun habs => absurd (found.symm.trans habs) (by simp)⟩
      rw [Disk.bytesAt_of_absent hms, Disk.bytesAt_of_get? htr, Disk.bytesAt_of_get? found]
      omega
    · left
      have hne : oid ≠ i := Ne.symm hi
      unfold Disk.move
      constructor
      · rw [Disk.get?_put_apart _ _ (by simp [msPathOf, trashPath]),
          Disk.get?_put_apart _ _ (by simp [msPathOf, hne])]
      · rw [Disk.get?_put_apart _ _ (by simp [trashPath, hne]),
          Disk.get?_put_apart _ _ (by simp [msPathOf, trashPath])]
  | remove may found =>
    have hroot : ∀ p, (s.disk.put p none).root = s.disk.root.set p none := fun _ => rfl
    exact (may.sees hok (hroot _) found (by simp) ho).imp_right .inl
  | prune may found wf part =>
    have hroot : ∀ p t, ({ s.disk with root := s.disk.root.set p (some t) } : Disk).root =
      s.disk.root.set p (some t) := fun _ _ => rfl
    have hpart := may.sees hok (hroot _ _) found (fun _ ht => Option.some.inj ht ▸ ⟨wf, part⟩) ho
    exact hpart.imp_right .inl
  | _ => exact .inl ⟨rfl, rfl⟩

theorem Removable.deep {r : Role} {s : Shared} {p : Path} (h : Removable r s p) :
    ∃ a b rest, p = a :: b :: rest ∧ (a = "observations" ∨ a = "trash" → rest = []) := by
  cases h with
  | product run role path => exact ⟨_, _, _, path, by simp⟩
  | raw oid givenUp path =>
    rcases path with path | path
    · exact ⟨_, _, _, path, fun _ => rfl⟩
    · exact ⟨_, _, _, path, fun _ => rfl⟩
  | entry name role path => exact ⟨_, _, _, path, by simp⟩

theorem Step.diskOk {T : Terms} {r : Role} {s s' : Shared} (hok : DiskOk s.db s.disk)
    (hrows : ∀ oid, (s.db.obs? oid).isSome → (s'.db.obs? oid).isSome)
    (h : Step T r s s') : DiskOk s'.db s'.disk := by
  have hset : ∀ {p : Path} {x : Option Tree} {d' : Disk} {u : Tree},
      d'.root = s.disk.root.set p x → s.disk.get? p = some u → (∀ t, x = some t → t.wf) →
      Removable r s p → DiskOk s.db d' := by
    intro p x d' u hroot hfound hwf hmay
    obtain ⟨a, b, rest, rfl, hrest⟩ := hmay.deep
    refine hok.set hroot hwf fun hdir => ?_
    obtain rfl := hrest hdir
    exact ⟨rfl, fun _ => hok.covered a b hdir (by simp [Disk.has, hfound])⟩
  cases h with
  | db move => exact hok.rowsKept hrows
  | quarantine may found =>
    rename_i name label t
    have hmid : DiskOk s.db (s.disk.put (observationsRoot ++ [name]) none) :=
      hok.set rfl (by simp) fun _ => ⟨rfl, by simp⟩
    exact hmid.set rfl (fun t ht => Option.some.inj ht ▸ Tree.wf_get? hok.wf found) (by simp)
  | trash may found =>
    rename_i oid t
    have hmid : DiskOk s.db (s.disk.put (msPathOf oid) none) :=
      hok.set rfl (by simp) fun _ => ⟨rfl, by simp⟩
    obtain ⟨o, ho, _⟩ := may.closing
    exact hmid.set rfl (fun t ht => Option.some.inj ht ▸ Tree.wf_get? hok.wf found)
      fun _ => ⟨rfl, fun _ => ⟨_, o, ho, rfl⟩⟩
  | remove may found =>
    simp only [Shared.notePurge_db]
    exact hset (x := none) rfl found (by simp) may
  | prune may found wf part =>
    simp only [Shared.notePurge_db]
    exact hset rfl found (fun t ht => Option.some.inj ht ▸ wf) may
  | _ => exact hok

/-- The quarantine has a new modification time, or it weighs no more than before. -/
theorem Step.quarantineSize {T : Terms} {r : Role} {s s' : Shared} (hok : DiskOk s.db s.disk)
    (h : Step T r s s') : s.disk.mtime quarantineRoot < s'.disk.mtime quarantineRoot ∨
      (s'.disk.mtime quarantineRoot = s.disk.mtime quarantineRoot ∧
        s'.disk.bytesAt quarantineRoot ≤ s.disk.bytesAt quarantineRoot) := by
  have hkept : ∀ {a b : String} {rest : Path} {x : Option Tree} {d' : Disk}, a ≠ "quarantine" →
      d'.root = s.disk.root.set (a :: b :: rest) x →
      d'.bytesAt quarantineRoot = s.disk.bytesAt quarantineRoot :=
    fun hne hroot => Disk.bytesAt_set_ne hroot (Ne.symm hne)
  cases h with
  | quarantine may found =>
    left
    simp [Disk.move, Disk.put, parent, quarantineEntry, quarantineRoot, observationsRoot]
  | trash may found =>
    rename_i oid t
    right
    refine ⟨by simp [Disk.move, Disk.put, parent, quarantineRoot, msPathOf, trashPath], ?_⟩
    have hfirst : (s.disk.put (msPathOf oid) none).bytesAt quarantineRoot
        = s.disk.bytesAt quarantineRoot := hkept (by decide) rfl
    rw [← hfirst]
    exact Nat.le_of_eq (Disk.bytesAt_set_ne (a := "trash") rfl (by decide))
  | remove may found =>
    cases may with
    | product run role path =>
      subst path
      refine .inr ⟨by simp [Disk.put, parent, quarantineRoot, outputDir], ?_⟩
      exact Nat.le_of_eq (hkept (a := "products") (by decide) rfl)
    | raw oid givenUp path =>
      right
      rcases path with rfl | rfl
      · refine ⟨by simp [Disk.put, parent, quarantineRoot, msPathOf], ?_⟩
        exact Nat.le_of_eq (hkept (a := "observations") (by decide) rfl)
      · refine ⟨by simp [Disk.put, parent, quarantineRoot, trashPath], ?_⟩
        exact Nat.le_of_eq (hkept (a := "trash") (by decide) rfl)
    | entry name role path =>
      subst path
      left
      simp [Disk.put, parent, quarantineEntry, quarantineRoot]
  | prune may found wf part =>
    rename_i p t u
    refine .inr ⟨rfl, ?_⟩
    cases may with
    | product run role path =>
      subst path
      exact Nat.le_of_eq (hkept (a := "products") (by decide) rfl)
    | raw oid givenUp path =>
      rcases path with rfl | rfl
      · exact Nat.le_of_eq (hkept (a := "observations") (by decide) rfl)
      · exact Nat.le_of_eq (hkept (a := "trash") (by decide) rfl)
    | entry name role path =>
      subst path
      have hentry := Tree.bytesAt_set_entry hok.wf hok.quarantine name (some t)
      have hold : s.disk.root.bytesAt ["quarantine", name] = u.bytes :=
        Disk.bytesAt_of_get? found
      have hle := part.bytes_le (Tree.wf_get? hok.wf found) wf
      rw [hold, Option.map_some, Option.getD_some] at hentry
      change (s.disk.root.set ["quarantine", name] (some t)).bytesAt ["quarantine"]
        ≤ s.disk.root.bytesAt ["quarantine"]
      omega
  | _ => exact .inr ⟨rfl, Nat.le_refl _⟩

theorem DiskOk.move_bytes {db : Db} {d : Disk} (hok : DiskOk db d) {a b m n : String} {t : Tree}
    (ha : a ∈ layout) (hb : b ∈ layout) (hab : a ≠ b) (hfound : d.get? [a, m] = some t) :
    (d.move [a, m] [b, n] t).bytesAt [a] + t.bytes = d.bytesAt [a] ∧
      (d.move [a, m] [b, n] t).bytesAt [b] + d.bytesAt [b, n] = d.bytesAt [b] + t.bytes ∧
      ∀ x, x ≠ a → x ≠ b → (d.move [a, m] [b, n] t).bytesAt [x] = d.bytesAt [x] := by
  have hwf : (d.put [a, m] none).root.wf := Tree.wf_set hok.wf (by simp)
  have hdir : (d.put [a, m] none).root.IsDir [b] :=
    Tree.IsDir.set_apart (hok.dirs b hb) (by simp [Ne.symm hab])
  have hsource := Tree.bytesAt_set_entry hok.wf (hok.dirs a ha) m none
  have htarget := Tree.bytesAt_set_entry hwf hdir n (some t)
  have hfirst : d.root.bytesAt [a, m] = t.bytes := Disk.bytesAt_of_get? hfound
  have hmoved : (d.move [a, m] [b, n] t).bytesAt [a] = (d.put [a, m] none).bytesAt [a] :=
    Disk.bytesAt_set_ne (a := b) rfl hab
  have hkept : (d.put [a, m] none).root.bytesAt [b] = d.root.bytesAt [b] :=
    Disk.bytesAt_set_ne (d := d) (a := a) rfl (Ne.symm hab)
  have hentry : (d.put [a, m] none).root.bytesAt [b, n] = d.root.bytesAt [b, n] :=
    Tree.bytesAt_set_apart _ _ (by simp [Ne.symm hab])
  refine ⟨?_, ?_, ?_⟩
  · rw [hmoved]
    rw [hfirst, Option.map_none, Option.getD_none] at hsource
    exact hsource
  · rw [hkept, hentry, Option.map_some, Option.getD_some] at htarget
    exact htarget
  · intro x hxa hxb
    calc (d.move [a, m] [b, n] t).bytesAt [x]
        = (d.put [a, m] none).bytesAt [x] := Disk.bytesAt_set_ne (a := b) rfl hxb
      _ = d.bytesAt [x] := Disk.bytesAt_set_ne (a := a) rfl hxa

theorem DiskOk.entry_bytes {db : Db} {d d' : Disk} (hok : DiskOk db d) {a m : String}
    {x : Option Tree} {u : Tree} (ha : a ∈ layout) (hroot : d'.root = d.root.set [a, m] x)
    (hfound : d.get? [a, m] = some u) (hle : (x.map Tree.bytes).getD 0 ≤ u.bytes) :
    d'.bytesAt [a] ≤ d.bytesAt [a] := by
  have hentry := Tree.bytesAt_set_entry hok.wf (hok.dirs a ha) m x
  have hold : d.root.bytesAt [a, m] = u.bytes := Disk.bytesAt_of_get? hfound
  rw [hold] at hentry
  unfold Disk.bytesAt
  rw [hroot]
  omega

theorem Removable.bytes_le {r : Role} {s : Shared} {p : Path} {d' : Disk} {x : Option Tree}
    {u : Tree} (hok : DiskOk s.db s.disk) (may : Removable r s p)
    (hroot : d'.root = s.disk.root.set p x) (hfound : s.disk.get? p = some u)
    (hle : (x.map Tree.bytes).getD 0 ≤ u.bytes) (n : String) (hn : n ≠ "products") :
    d'.bytesAt [n] ≤ s.disk.bytesAt [n] := by
  have hcase : ∀ a m, a ∈ layout → p = [a, m] → d'.bytesAt [n] ≤ s.disk.bytesAt [n] := by
    rintro a m ha rfl
    by_cases hna : n = a
    · subst hna
      exact hok.entry_bytes ha hroot hfound hle
    · exact Nat.le_of_eq (Disk.bytesAt_set_ne hroot hna)
  cases may with
  | product run role path =>
    subst path
    exact Nat.le_of_eq (Disk.bytesAt_set_ne hroot hn)
  | raw oid givenUp path =>
    rcases path with path | path
    · exact hcase _ _ (by simp [layout]) path
    · exact hcase _ _ (by simp [layout]) path
  | entry name role path => exact hcase _ _ (by simp [layout]) path

/-- No step adds to the bytes under `observations/` and `trash/`, nor to them and
the quarantine together. -/
theorem Step.bytes_le {T : Terms} {r : Role} {s s' : Shared} (hok : DiskOk s.db s.disk)
    (h : Step T r s s') :
    s'.disk.raw ≤ s.disk.raw ∧ s'.disk.physical ≤ s.disk.physical := by
  have hremoved : ∀ {p : Path} {x : Option Tree} {d' : Disk} {u : Tree}, Removable r s p →
      d'.root = s.disk.root.set p x → s.disk.get? p = some u →
      (x.map Tree.bytes).getD 0 ≤ u.bytes →
      d'.raw ≤ s.disk.raw ∧ d'.physical ≤ s.disk.physical := by
    intro p x d' u may hroot hfound hle
    have hobs := may.bytes_le hok hroot hfound hle "observations" (by decide)
    have hquar := may.bytes_le hok hroot hfound hle "quarantine" (by decide)
    have htrash := may.bytes_le hok hroot hfound hle "trash" (by decide)
    simp only [Disk.raw, Disk.physical, observationsRoot, quarantineRoot, trashRoot]
    omega
  cases h with
  | quarantine may found =>
    rename_i name label t
    obtain ⟨hsource, htarget, hrest⟩ := hok.move_bytes (n := label) (by simp [layout])
      (show "quarantine" ∈ layout by simp [layout]) (by decide) found
    have htrash := hrest "trash" (by decide) (by decide)
    simp only [Disk.raw, Disk.physical, observationsRoot, quarantineRoot, trashRoot,
      quarantineEntry, List.cons_append, List.nil_append] at *
    omega
  | trash may found =>
    rename_i oid t
    obtain ⟨hsource, htarget, hrest⟩ := hok.move_bytes (n := obsName oid) (by simp [layout])
      (show "trash" ∈ layout by simp [layout]) (by decide) found
    have hquar := hrest "quarantine" (by decide) (by decide)
    simp only [Disk.raw, Disk.physical, observationsRoot, quarantineRoot, trashRoot,
      msPathOf, trashPath] at *
    omega
  | remove may found => exact hremoved may (x := none) rfl found (Nat.zero_le _)
  | prune may found wf part =>
    exact hremoved may rfl found (part.bytes_le (Tree.wf_get? hok.wf found) wf)
  | _ => exact ⟨Nat.le_refl _, Nat.le_refl _⟩

theorem Step.shrunk {T : Terms} {s s' : Shared} (hok : DiskOk s.db s.disk)
    (h : Step T .cli s s') : s.disk.Shrunk s'.disk := by
  have hremoved : ∀ {p : Path} {x : Option Tree} {d' : Disk} {u : Tree}, Removable .cli s p →
      d'.root = s.disk.root.set p x → s.disk.get? p = some u → (∀ t, x = some t → t.Shrinks u) →
      s.disk.Shrunk d' := by
    intro p x d' u may hroot hfound hpart
    cases may with
    | product run role path => exact absurd rfl role
    | raw oid givenUp path =>
      rcases path with rfl | rfl
      · exact Disk.shrunk_of_apart hroot fun q => by simp [quarantineRoot, msPathOf]
      · exact Disk.shrunk_of_apart hroot fun q => by simp [quarantineRoot, trashPath]
    | entry name role path =>
      subst path
      exact Disk.shrunk_of_entry hok.quarantine hroot hfound hpart
  cases h with
  | quarantine may found => exact absurd rfl may.role
  | trash may found =>
    rename_i oid t
    have hfirst : s.disk.Shrunk (s.disk.put (msPathOf oid) none) :=
      Disk.shrunk_of_apart rfl fun q => by simp [quarantineRoot, msPathOf]
    exact hfirst.trans (Disk.shrunk_of_apart rfl fun q => by simp [quarantineRoot, trashPath])
  | remove may found => exact hremoved may (x := none) rfl found (by simp)
  | prune may found wf part =>
    exact hremoved may rfl found fun _ ht => Option.some.inj ht ▸ part
  | _ => exact Disk.Shrunk.refl _

end Sdpctl
