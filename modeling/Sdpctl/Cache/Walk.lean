import Sdpctl.Coop.Solo
import Sdpctl.Programs.Sizing

/-!
A process alone that only reads. What it can return is one value, whatever fails:
the size of a tree, the signature of quarantine and trash.
-/

namespace Sdpctl

open FileTree Coop

/-- How an operation can come out when nobody else acts; it may fail. -/
def alone (role : Role) (o : Op) (s : Shared) (x : Except Exn o.Reply) (t : Shared) : Prop :=
  ∃ c : Choice, exec role o c s = some (x, t)

/-- The program changes nothing and can return `a`; otherwise an operation failed. -/
structure Answers {α : Type} (role : Role) (p : M α) (s : Shared) (a : α) : Prop where
  can : p.Runs (alone role) s (.ok a) s
  only : ∀ x t, p.Runs (alone role) s x t →
    t = s ∧ (x = .ok a ∨ ∃ q, x = .error (.osError q))

namespace Answers

variable {α β : Type} {role : Role} {s : Shared} {a : α} {b : β}

theorem pure : Answers role (.ret (.ok a)) s a :=
  ⟨⟨rfl, rfl⟩, fun _ _ ⟨hx, ht⟩ => ⟨ht, .inl hx⟩⟩

theorem reading {o : Op} {p : Path} {v : o.Reply}
    (h : ∀ c, exec role o c s = s.reading c p (.ok v)) : Answers role (call o) s v where
  can := Prog.runs_call.mpr ⟨.ok, by rw [h]; rfl⟩
  only x t hrun := by
    obtain ⟨c, hc⟩ := Prog.runs_call.mp hrun
    rw [h] at hc
    cases c with
    | ok =>
      cases hc
      exact ⟨rfl, .inl rfl⟩
    | fail =>
      cases hc
      exact ⟨rfl, .inr ⟨p, rfl⟩⟩
    | _ => cases hc

theorem rest {p : M α} {f : α → M β} {x : Except Exn β} {t : Shared} (hp : Answers role p s a)
    (hrun : (p.bind f).Runs (alone role) s x t) : (f a).Runs (alone role) s x t ∨
      (t = s ∧ ∃ q, x = .error (.osError q)) := by
  rcases Prog.runs_bind.mp hrun with ⟨e, he, rfl⟩ | ⟨c, u, hc, hrest⟩
  · obtain ⟨rfl, h | ⟨q, h⟩⟩ := hp.only _ _ he
    · cases h
    · cases h
      exact .inr ⟨rfl, q, rfl⟩
  · obtain ⟨rfl, h | ⟨q, h⟩⟩ := hp.only _ _ hc
    · cases h
      exact .inl hrest
    · cases h

theorem bind {p : M α} {f : α → M β} (hp : Answers role p s a) (hf : Answers role (f a) s b) :
    Answers role (p.bind f) s b where
  can := Prog.runs_bind_ok.mpr ⟨a, s, hp.can, hf.can⟩
  only x t hrun := by
    rcases hp.rest hrun with hrest | ⟨rfl, q, rfl⟩
    · exact hf.only x t hrest
    · exact ⟨rfl, .inr ⟨q, rfl⟩⟩

theorem catchAll {p : M α} {h : Exn → M α} (hp : Answers role p s a)
    (hpass : ∀ q, h (.osError q) = .ret (.error (.osError q))) :
    Answers role (p.catchAll h) s a where
  can := Prog.runs_catchAll.mpr (.inl ⟨a, hp.can, rfl⟩)
  only x t hrun := by
    rcases Prog.runs_catchAll.mp hrun with ⟨c, hc, rfl⟩ | ⟨e, u, he, hrest⟩
    · exact hp.only _ _ hc
    · obtain ⟨rfl, hx | ⟨q, hx⟩⟩ := hp.only _ _ he
      · cases hx
      · cases hx
        rw [hpass] at hrest
        obtain ⟨rfl, rfl⟩ := hrest
        exact ⟨rfl, .inr ⟨q, rfl⟩⟩

theorem foldEach {xs : List α} {f : Nat → α → M Nat} {g : α → Nat}
    (hf : ∀ acc x, Answers role (f acc x) s (acc + g x)) (acc : Nat) :
    Answers role (Prog.foldEach xs acc f) s (acc + (xs.map g).sum) := by
  induction xs generalizing acc with
  | nil => exact pure
  | cons x rest ih =>
    have hrest := ih (acc + g x)
    rw [Nat.add_assoc] at hrest
    exact (hf acc x).bind hrest

end Answers

section Reads

variable {role : Role} {s : Shared}

theorem exists_answers (p : Path) : Answers role (call (.exists_ p)) s (s.disk.has p) :=
  .reading fun _ => rfl

theorem isFile_answers (p : Path) : Answers role (call (.isFile p)) s (s.disk.isFileAt p) :=
  .reading fun _ => rfl

theorem resolve_answers (p : Path) : Answers role (call (.resolve p)) s p :=
  .reading fun _ => rfl

theorem statSize_answers {p : Path} {t : Tree} (h : s.disk.get? p = some t) :
    Answers role (call (.statSize p)) s t.statSize := by
  apply Answers.reading (p := p)
  intro c
  simp only [exec, Disk.statSize, h]

theorem childSize_answers (total : Nat) (child : Path) :
    Answers role (childSize total child) s (total + s.disk.sizeAt child) := by
  apply Answers.catchAll
  · refine (isFile_answers child).bind ?_
    cases hfile : s.disk.isFileAt child with
    | false =>
      rw [Disk.sizeAt_of_not_file hfile]
      exact .pure
    | true =>
      cases hget : s.disk.get? child with
      | none => simp [Disk.isFileAt, hget] at hfile
      | some t =>
        rw [Disk.sizeAt_some hget]
        exact (statSize_answers hget).bind .pure
  · exact fun _ => rfl

/-- Alone, `apparent_size` finds the size. -/
theorem apparentSize_answers (hwf : s.disk.root.wf) (p : Path) :
    Answers role (apparentSize p) s (s.disk.bytesAt p) := by
  refine (exists_answers p).bind ?_
  cases hget : s.disk.get? p with
  | none =>
    have hnone : s.disk.has p = false := Disk.has_eq_false.mpr hget
    rw [hnone, Disk.bytesAt_of_absent hget]
    exact .pure
  | some t =>
    have hhas : s.disk.has p = true := Disk.has_iff.mpr ⟨t, hget⟩
    rw [hhas, Disk.bytesAt_of_get? hget]
    refine (isFile_answers p).bind ?_
    cases t with
    | file i c =>
      have hfile : s.disk.isFileAt p = true := by simp [Disk.isFileAt, hget, Tree.isDir]
      rw [hfile]
      have hsize : Answers role (call (.statSize p)) s (Tree.file i c).statSize :=
        statSize_answers hget
      simpa [Tree.bytes, Tree.statSize] using hsize
    | dir i es =>
      have hfile : s.disk.isFileAt p = false := by simp [Disk.isFileAt, hget, Tree.isDir]
      have hsum := Tree.bytes_eq_sum (Tree.wf_get? hwf hget)
      have hpaths : s.disk.rglob p = (Tree.dir i es).rglob.map (p ++ ·) := by
        simp [Disk.rglob, hget]
      have hwalk : Answers role (Prog.foldEach (s.disk.rglob p) 0 childSize) s
          (0 + ((s.disk.rglob p).map s.disk.sizeAt).sum) := .foldEach childSize_answers 0
      have htotal : 0 + ((s.disk.rglob p).map s.disk.sizeAt).sum = (Tree.dir i es).bytes := by
        rw [hpaths, List.map_map, hsum]
        have hsize : s.disk.sizeAt ∘ (p ++ ·) = (Tree.dir i es).sizeAt :=
          funext fun q => Disk.sizeAt_append hget
        rw [hsize]
        simp [Tree.statSize]
      rw [hfile, ← htotal]
      exact (Answers.reading (o := .rglob p) (p := p) fun _ => rfl).bind hwalk

/-- The modification time of a directory as the signature has it. -/
def Disk.stamp (d : Disk) (p : Path) : Int := if d.has p then (d.mtime p : Int) else -1

/-- What `_mtime_signature` returns. -/
def Disk.signature (d : Disk) : Int × Int := (d.stamp quarantineRoot, d.stamp trashRoot)

def Disk.auxiliary (d : Disk) : Nat × Nat := (d.bytesAt quarantineRoot, d.bytesAt trashRoot)

theorem mtimeOrMissing_answers (p : Path) :
    Answers role (mtimeOrMissing p) s (s.disk.stamp p) := by
  refine (exists_answers p).bind ?_
  unfold Disk.stamp
  cases hhas : s.disk.has p with
  | false => exact .pure
  | true =>
    have hstat : Answers role (call (.statMtime p)) s (s.disk.mtime p) := by
      apply Answers.reading (p := p)
      intro c
      simp only [exec, Disk.statMtime, hhas, ite_true]
    exact hstat.bind .pure

theorem cacheGet_answers (hrole : role ≠ .cli) :
    Answers role (call .cacheGet) s s.ctl.cache where
  can := Prog.runs_call.mpr ⟨.ok, by simp [exec, Shared.sure, hrole]⟩
  only x t hrun := by
    obtain ⟨c, hc⟩ := Prog.runs_call.mp hrun
    cases c with
    | ok =>
      simp only [exec, Shared.sure, hrole, ite_false, Option.some.injEq, Prod.mk.injEq] at hc
      obtain ⟨rfl, rfl⟩ := hc
      exact ⟨rfl, .inl rfl⟩
    | _ => cases hc

theorem mtimeSignature_answers : Answers role mtimeSignature s s.disk.signature :=
  (mtimeOrMissing_answers _).bind ((mtimeOrMissing_answers _).bind .pure)

end Reads

end Sdpctl
