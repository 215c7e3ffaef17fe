import Sdpctl.Names
import Sdpctl.FileTree.Measure

/-!
The file tree under `data_root`. The calls of the operating system that the
controller makes, with their POSIX behaviour: what each does when it succeeds,
and which exception it raises on its own account.
-/

namespace Sdpctl

open FileTree

/-- The tree, and the modification time of every directory. -/
structure Disk where
  root : Tree
  mtime : Path → Nat

namespace Disk

def get? (d : Disk) (p : Path) : Option Tree := d.root.get? p

/-- `p` names something. -/
def has (d : Disk) (p : Path) : Bool := (d.get? p).isSome

/-- An entry is added to a directory, replaced or removed. -/
def put (d : Disk) (p : Path) (x : Option Tree) : Disk :=
  { root := d.root.set p x,
    mtime := fun q => if q = parent p then d.mtime q + 1 else d.mtime q }

def move (d : Disk) (p q : Path) (t : Tree) : Disk := (d.put p none).put q (some t)

def isDirAt (d : Disk) (p : Path) : Bool := ((d.get? p).map Tree.isDir).getD false

def isFileAt (d : Disk) (p : Path) : Bool := ((d.get? p).map fun t => !t.isDir).getD false

/-- `path.stat().st_size`. -/
def statSize (d : Disk) (p : Path) : Except Exn Nat :=
  match d.get? p with
  | some t => .ok t.statSize
  | none => .error (.fileNotFoundError p)

/-- `path.stat().st_mtime_ns`. -/
def statMtime (d : Disk) (p : Path) : Except Exn Nat :=
  if d.has p then .ok (d.mtime p) else .error (.fileNotFoundError p)

/-- `path.mkdir(parents=True, exist_ok=True)`. -/
def mkdir (d : Disk) (p : Path) : Except Exn Disk :=
  if d.isDirAt p then .ok d
  else match d.root.mkdirs p with
    | some root => .ok { d with root }
    | none => .error (.osError p)

/-- `path.mkdir(exist_ok=True)` below a directory that exists. -/
def ensureDir (d : Disk) (p : Path) : Disk :=
  if d.has p then d else d.put p (some (.dir 0 []))

/-- A rename may replace a file by a file and an empty directory by a directory. -/
def mayReplace : Tree → Tree → Bool
  | .file _ _, .file _ _ => true
  | .dir _ es, .dir _ _ => es.isEmpty
  | _, _ => false

/-- `source.rename(target)`. -/
def rename (d : Disk) (p q : Path) : Except Exn Disk :=
  match d.get? p with
  | none => .error (.fileNotFoundError p)
  | some t =>
    if !d.isDirAt (parent q) then .error (.fileNotFoundError q)
    else if p.isPrefixOf q || q.isPrefixOf p then .error (.osError q)
    else match d.get? q with
      | none => .ok (d.move p q t)
      | some u => if mayReplace u t then .ok (d.move p q t) else .error (.osError q)

/-- `shutil.rmtree(path)`, carried to its end. -/
def rmtree (d : Disk) (p : Path) : Except Exn Disk :=
  match d.get? p with
  | none => .error (.fileNotFoundError p)
  | some t => if t.isDir then .ok (d.put p none) else .error (.osError p)

/-- `shutil.rmtree(path)` that stopped part-way and left `t`. -/
def rmtreePart (d : Disk) (p : Path) (t : Tree) : Option Disk :=
  match d.get? p with
  | none => none
  | some u =>
      if u.isDir && t.wf && t.prunedFrom u then some { d with root := d.root.set p (some t) }
    else none

/-- `path.unlink()`. -/
def unlink (d : Disk) (p : Path) : Except Exn Disk :=
  match d.get? p with
  | none => .error (.fileNotFoundError p)
  | some t => if t.isDir then .error (.osError p) else .ok (d.put p none)

def names (d : Disk) (p : Path) : Except Exn (List String) :=
  match d.get? p with
  | none => .error (.fileNotFoundError p)
  | some (.file _ _) => .error (.osError p)
  | some (.dir _ es) => .ok (es.map (·.1))

def rglob (d : Disk) (p : Path) : List Path :=
  match d.get? p with
  | none => []
  | some t => t.rglob.map (p ++ ·)

def entryCount (d : Disk) (p : Path) : Nat :=
  match d.get? p with
  | some (.dir _ es) => es.length
  | _ => 0

theorem get?_put_self {d : Disk} {p : Path} {n : String} {x : Option Tree}
    (h : d.root.IsDir p) : (d.put (p ++ [n]) x).get? (p ++ [n]) = x := Tree.get?_set_self h

theorem get?_put_apart (d : Disk) {p q : Path} (x : Option Tree) (h : Apart q p) :
    (d.put p x).get? q = d.get? q := Tree.get?_set_apart d.root x h

theorem isDirAt_iff {d : Disk} {p : Path} : d.isDirAt p = true ↔ d.root.IsDir p := by
  unfold isDirAt get? Tree.IsDir
  cases d.root.get? p with
  | none => simp
  | some t => cases t <;> simp [Tree.isDir]

@[simp] theorem has_eq_false {d : Disk} {p : Path} : d.has p = false ↔ d.get? p = none := by
  simp [has]

theorem has_iff {d : Disk} {p : Path} : d.has p = true ↔ ∃ t, d.get? p = some t := by
  simp [has, Option.isSome_iff_exists]

theorem mkdir_of_isDir {d : Disk} {p : Path} (h : d.root.IsDir p) : d.mkdir p = .ok d := by
  simp [mkdir, isDirAt_iff.mpr h]

theorem get?_mkdir_ne {d d' : Disk} {n m : String} (h : d.mkdir [n] = .ok d') (hmn : m ≠ n)
    (q : Path) : d'.get? (m :: q) = d.get? (m :: q) := by
  unfold mkdir at h
  split at h
  · cases h
    rfl
  · split at h
    · rename_i root hroot
      cases h
      simp only [get?]
      cases hd : d.root with
      | file i c => simp [hd, Tree.mkdirs] at hroot
      | dir i es =>
        have hentry : ∃ x, root = .dir i (setEntry es n (some x)) := by
          cases hn : es.lookup n with
          | none => exact ⟨_, by simpa [hd, Tree.mkdirs, hn] using hroot.symm⟩
          | some c =>
            cases c with
            | file j b => simp [hd, Tree.mkdirs, hn] at hroot
            | dir j fs => exact ⟨_, by simpa [hd, Tree.mkdirs, hn] using hroot.symm⟩
        obtain ⟨x, rfl⟩ := hentry
        simp only [Tree.get?_dir, lookup_setEntry_ne _ _ hmn]
    · cases h

theorem rename_ok {d d' : Disk} {p q : Path} (h : d.rename p q = .ok d') :
    ∃ t, d.get? p = some t ∧ d' = d.move p q t := by
  unfold rename at h
  split at h
  · cases h
  · rename_i t ht
    split at h
    · cases h
    · split at h
      · cases h
      · split at h
        · cases h
          exact ⟨t, ht, rfl⟩
        · split at h
          · cases h
            exact ⟨t, ht, rfl⟩
          · cases h

theorem rename_free {d : Disk} {p q : Path} {t : Tree} (ht : d.get? p = some t)
    (hq : d.get? q = none) (hdir : d.root.IsDir (parent q)) (hpq : p.isPrefixOf q = false)
    (hqp : q.isPrefixOf p = false) : d.rename p q = .ok (d.move p q t) := by
  unfold rename
  rw [ht, hq]
  simp [isDirAt_iff.mpr hdir, hpq, hqp]

theorem rmtree_ok {d d' : Disk} {p : Path} (h : d.rmtree p = .ok d') :
    ∃ t, d.get? p = some t ∧ d' = d.put p none := by
  unfold rmtree at h
  split at h
  · cases h
  · rename_i t ht
    split at h
    · cases h
      exact ⟨t, ht, rfl⟩
    · cases h

theorem unlink_ok {d d' : Disk} {p : Path} (h : d.unlink p = .ok d') :
    ∃ t, d.get? p = some t ∧ d' = d.put p none := by
  unfold unlink at h
  split at h
  · cases h
  · rename_i t ht
    split at h
    · cases h
    · cases h
      exact ⟨t, ht, rfl⟩

/-- A removal that stops part-way leaves a part of the tree in its place. -/
theorem rmtreePart_some {d d' : Disk} {p : Path} {t : Tree} (h : d.rmtreePart p t = some d') :
    ∃ u, d.get? p = some u ∧ t.wf ∧ t.Shrinks u ∧
      d' = { d with root := d.root.set p (some t) } := by
  unfold rmtreePart at h
  split at h
  · cases h
  · rename_i u hu
    split at h
    · rename_i hpart
      simp only [Bool.and_eq_true] at hpart
      cases h
      exact ⟨u, hu, hpart.1.2, Tree.shrinks_of_prunedFrom hpart.2, rfl⟩
    · cases h

end Disk
end Sdpctl
