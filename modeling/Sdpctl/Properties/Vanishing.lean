import Sdpctl.Coop.Replies
import Sdpctl.FileTree.Erosion
import Sdpctl.Programs.Footprint
import Sdpctl.Programs.Sizing

/-!
`apparent_size` while others delete. Every operation of the walk sees the disk of
its own moment; from one moment to the next files and directories may go. The
loop over the children stands this: what vanishes between the test and the stat
counts nothing. The branch for a single file has the same test and the same stat
and nothing around them.
-/

namespace Sdpctl

open FileTree Coop

/-- A walk of `p` while others remove: the disk at each of its operations, the disk
when it is over, and the entries that `rglob` came up with. An entry may be gone
when it is used; what is there to the end is among them. -/
structure Survey (p : Path) where
  seen : Nat → Disk
  last : Disk
  entries : List Path
  wf : (seen 0).root.wf
  removes : ∀ i, (seen i).root.Erodes (seen (i + 1)).root
  ends : ∀ i, (seen i).root.Erodes last.root
  distinct : entries.Nodup
  below : ∀ q ∈ entries, ∃ r, r ≠ [] ∧ q = p ++ r
  complete : ∀ r, r ≠ [] → last.has (p ++ r) = true → p ++ r ∈ entries

theorem Disk.sizeAt_le_bytesAt (d : Disk) (p : Path) : d.sizeAt p ≤ d.bytesAt p := by
  cases hget : d.get? p with
  | none =>
    rw [Disk.sizeAt_none hget]
    exact Nat.zero_le _
  | some t =>
    rw [Disk.sizeAt_some hget, Disk.bytesAt_of_get? hget]
    cases t with
    | file i c => exact Nat.le_refl _
    | dir i es => exact Nat.zero_le _

namespace Survey

variable {p : Path}

/-- The answer to the `i`-th operation; a walk uses no other operations. -/
def answer (w : Survey p) (i : Nat) : (o : Op) → Except Exn o.Reply
  | .exists_ q => .ok ((w.seen i).has q)
  | .isFile q => .ok ((w.seen i).isFileAt q)
  | .statSize q => (w.seen i).statSize q
  | .rglob _ => .ok w.entries
  | _ => .error (.osError p)

theorem answer_exec (w : Survey p) (i : Nat) {role : Role} {s : Shared} (hs : s.disk = w.seen i)
    {o : Op} (ho : o.measures) : exec role o .ok s = some (w.answer i o, s) := by
  cases o <;> simp only [Op.measures] at ho <;> simp only [exec, answer, Shared.reading, hs]

theorem asked_cases (w : Survey p) {e : Nat × Op}
    (he : e ∈ (apparentSize p).asked w.answer 0) : e.2.measures ∨ e = (2, .rglob p) := by
  simp only [apparentSize, Prog.bind_def, Prog.asked_call_bind, List.mem_cons, answer] at he
  rcases he with rfl | he
  · exact .inl trivial
  · cases hhas : (w.seen 0).has p with
    | false => simp [hhas] at he
    | true =>
      simp only [hhas, Bool.not_true, Bool.false_eq_true, if_false, Prog.asked_call_bind,
        List.mem_cons] at he
      rcases he with rfl | he
      · exact .inl trivial
      · cases hfile : (w.seen (0 + 1)).isFileAt p with
        | true =>
          simp only [answer, hfile, if_true, Prog.asked_call, List.mem_singleton] at he
          exact .inl (he ▸ trivial)
        | false =>
          simp only [answer, hfile, Bool.false_eq_true, if_false, Prog.asked_call_bind,
            List.mem_cons] at he
          rcases he with rfl | he
          · exact .inr rfl
          · exact .inl ((Prog.uses_foldEach childSize_measures 0).asked he)

def size (w : Survey p) : Except Exn Nat := ((apparentSize p).outcome w.answer 0).1

/-- It returns, and what it returns lies between what is left at the end and what
was there at the start. -/
def Bounded (w : Survey p) : Prop :=
  ∃ n, w.size = .ok n ∧ w.last.bytesAt p ≤ n ∧ n ≤ (w.seen 0).bytesAt p

/-- A single file goes between the test that finds it and the stat, which is the third look that
the walk takes. -/
def LosesFile (w : Survey p) : Prop := (w.seen 1).isFileAt p = true ∧ (w.seen 2).has p = false

theorem erodes (w : Survey p) {i j : Nat} (h : i ≤ j) :
    (w.seen i).root.Erodes (w.seen j).root := by
  induction j with
  | zero =>
    have hi : i = 0 := by omega
    subst hi
    exact .refl
  | succ j ih =>
    rcases Nat.lt_or_ge j i with hlt | hle
    · have hi : i = j + 1 := by omega
      subst hi
      exact .refl
    · exact (ih hle).trans (w.removes j)

theorem sizeAt_le_start (w : Survey p) (i : Nat) (q : Path) :
    (w.seen i).sizeAt q ≤ (w.seen 0).sizeAt q :=
  (w.erodes (Nat.zero_le i)).shrinks.sizeAt_le q

theorem last_le_sizeAt (w : Survey p) (i : Nat) (q : Path) :
    w.last.sizeAt q ≤ (w.seen i).sizeAt q :=
  (w.ends i).shrinks.sizeAt_le q

/-- A child counts with the size of one moment of the walk, or with nothing when it
is gone. -/
theorem childSize_outcome (w : Survey p) (total : Nat) (q : Path) (i : Nat) :
    ∃ v j, (childSize total q).outcome w.answer i = (.ok (total + v), j) ∧
      w.last.sizeAt q ≤ v ∧ v ≤ (w.seen 0).sizeAt q := by
  cases hfile : (w.seen i).isFileAt q with
  | false =>
    refine ⟨0, i + 1, ?_, ?_, Nat.zero_le _⟩
    · apply Prog.outcome_catchAll_ok
      simp [answer, hfile]
    · rw [← Disk.sizeAt_of_not_file hfile]
      exact w.last_le_sizeAt i q
  | true =>
    cases hget : (w.seen (i + 1)).get? q with
    | none =>
      refine ⟨0, i + 2, ?_, ?_, Nat.zero_le _⟩
      · apply (Prog.outcome_catchAll_error (e := .fileNotFoundError q) (j := i + 2) ?_).trans
        · rfl
        · simp [answer, hfile, Disk.statSize, hget]
      · rw [← Disk.sizeAt_none hget]
        exact w.last_le_sizeAt (i + 1) q
    | some t =>
      refine ⟨t.statSize, i + 2, ?_, ?_, ?_⟩
      · apply Prog.outcome_catchAll_ok
        simp [answer, hfile, Disk.statSize, hget]
      · rw [← Disk.sizeAt_some hget]
        exact w.last_le_sizeAt (i + 1) q
      · rw [← Disk.sizeAt_some hget]
        exact w.sizeAt_le_start (i + 1) q

theorem entries_relative (w : Survey p) :
    ∃ rs : List Path, w.entries = rs.map (p ++ ·) ∧ rs.Nodup ∧ ∀ r ∈ rs, r ≠ [] := by
  have hmap : w.entries = (w.entries.map (·.drop p.length)).map (p ++ ·) := by
    rw [List.map_map]
    refine (List.map_id _).symm.trans (List.map_congr_left fun q hq => ?_)
    obtain ⟨r, -, rfl⟩ := w.below q hq
    simp
  refine ⟨_, hmap, ?_, ?_⟩
  · apply List.Nodup.of_map (p ++ ·)
    rw [← hmap]
    exact w.distinct
  · intro r hr
    obtain ⟨q, hq, rfl⟩ := List.mem_map.mp hr
    obtain ⟨r, hne, rfl⟩ := w.below q hq
    simpa using hne

/-- At the start the entries together have no more bytes than the tree. -/
theorem entries_le_start (w : Survey p) (h : (w.seen 0).has p = true) :
    (w.entries.map (w.seen 0).sizeAt).sum ≤ (w.seen 0).bytesAt p := by
  obtain ⟨t, ht⟩ := Disk.has_iff.mp h
  obtain ⟨rs, hentries, hnodup, hbelow⟩ := w.entries_relative
  have hsum := Tree.sum_le_bytes (Tree.wf_get? w.wf ht) hnodup hbelow
  have hsizes : (w.entries.map (w.seen 0).sizeAt) = rs.map t.sizeAt := by
    rw [hentries, List.map_map]
    exact List.map_congr_left fun r _ => Disk.sizeAt_append ht
  rw [hsizes, Disk.bytesAt_of_get? ht]
  exact hsum

/-- At the end the entries together have all bytes of what is left of a directory. -/
theorem last_le_entries (w : Survey p) (h : w.last.sizeAt p = 0) :
    w.last.bytesAt p ≤ (w.entries.map w.last.sizeAt).sum := by
  cases ht : w.last.get? p with
  | none =>
    rw [Disk.bytesAt_of_absent ht]
    exact Nat.zero_le _
  | some t =>
    obtain ⟨rs, hentries, -, -⟩ := w.entries_relative
    have hall : ∀ r, r ≠ [] → (t.get? r).isSome → r ∈ rs := by
      intro r hne hr
      have hhas : w.last.has (p ++ r) = true := by
        have hget : w.last.root.get? p = some t := ht
        unfold Disk.has Disk.get?
        rw [Tree.get?_append, hget]
        exact hr
      have hmem := w.complete r hne hhas
      rw [hentries] at hmem
      obtain ⟨r', hr', heq⟩ := List.mem_map.mp hmem
      rwa [← List.append_cancel_left heq]
    have hbytes := Tree.bytes_le_sum (Tree.wf_get? ((w.ends 0).wf w.wf) ht) hall
    have hsizes : (w.entries.map w.last.sizeAt) = rs.map t.sizeAt := by
      rw [hentries, List.map_map]
      exact List.map_congr_left fun r _ => Disk.sizeAt_append ht
    rw [Disk.sizeAt_some ht] at h
    rw [hsizes, Disk.bytesAt_of_get? ht]
    omega

theorem bytesAt_eq_sizeAt (w : Survey p) {i : Nat} (hfile : (w.seen i).isFileAt p = true)
    {d : Disk} (hd : (w.seen i).root.Erodes d.root) : d.bytesAt p = d.sizeAt p := by
  cases hget : d.get? p with
  | none => rw [Disk.bytesAt_of_absent hget, Disk.sizeAt_none hget]
  | some u =>
    cases ht : (w.seen i).get? p with
    | none => simp [Disk.isFileAt, ht] at hfile
    | some t =>
      cases t with
      | dir j es => simp [Disk.isFileAt, ht, Tree.isDir] at hfile
      | file j c =>
        have hleft := hd.file (q := p) ht (Option.isSome_iff_exists.mpr ⟨u, hget⟩)
        have hu : u = .file j c := Option.some.inj (hget.symm.trans hleft)
        subst hu
        rw [Disk.bytesAt_of_get? hget, Disk.sizeAt_some hget]
        rfl

theorem bounded_of_absent (w : Survey p) (h : (w.seen 0).has p = false) : w.Bounded := by
  refine ⟨0, by simp [size, apparentSize, answer, h], ?_, Nat.zero_le _⟩
  have hlast : w.last.get? p = none := by
    cases hget : w.last.get? p with
    | none => rfl
    | some u =>
      have hstart := (w.ends 0).isSome (q := p) (Option.isSome_iff_exists.mpr ⟨u, hget⟩)
      exact absurd (Disk.has_eq_false.mp h) (Option.isSome_iff_ne_none.mp hstart)
  rw [Disk.bytesAt_of_absent hlast]

theorem bounded_of_directory (w : Survey p) (hhas : (w.seen 0).has p = true)
    (hfile : (w.seen 1).isFileAt p = false) : w.Bounded := by
  obtain ⟨n, j, hloop, hlo, hhi⟩ : ∃ n j,
      (Prog.foldEach w.entries 0 childSize).outcome w.answer 3 = (.ok (0 + n), j) ∧
      (w.entries.map w.last.sizeAt).sum ≤ n ∧ n ≤ (w.entries.map (w.seen 0).sizeAt).sum :=
    Prog.outcome_foldEach (fun total q i => w.childSize_outcome total q i) 0 3
  refine ⟨n, ?_, ?_, hhi.trans (w.entries_le_start hhas)⟩
  · simp [size, apparentSize, answer, hhas, hfile, hloop]
  · refine (w.last_le_entries ?_).trans hlo
    have hzero := w.last_le_sizeAt 1 p
    rw [Disk.sizeAt_of_not_file hfile] at hzero
    omega

theorem bounded_of_file (w : Survey p) (hhas : (w.seen 0).has p = true)
    (hfile : (w.seen 1).isFileAt p = true) (hleft : (w.seen 2).has p = true) : w.Bounded := by
  obtain ⟨t, ht⟩ := Disk.has_iff.mp hleft
  refine ⟨(w.seen 2).sizeAt p, ?_, ?_, ?_⟩
  · simp [size, apparentSize, answer, hhas, hfile, Disk.statSize, ht, Disk.sizeAt_some ht]
  · rw [w.bytesAt_eq_sizeAt hfile (w.ends 1)]
    exact w.last_le_sizeAt 2 p
  · exact (w.sizeAt_le_start 2 p).trans (Disk.sizeAt_le_bytesAt _ p)

theorem size_of_losesFile (w : Survey p) (h : w.LosesFile) :
    w.size = .error (.fileNotFoundError p) := by
  have hhas : (w.seen 0).has p = true := by
    apply (w.erodes (Nat.zero_le 1)).isSome
    have hfile := h.1
    cases hget : (w.seen 1).get? p with
    | none => simp [Disk.isFileAt, hget] at hfile
    | some t => exact Option.isSome_iff_exists.mpr ⟨t, hget⟩
  have hgone := Disk.has_eq_false.mp h.2
  simp [size, apparentSize, answer, hhas, h.1, Disk.statSize, hgone]

theorem not_bounded_of_losesFile (w : Survey p) (h : w.LosesFile) : ¬ w.Bounded := by
  rintro ⟨n, hsize, -⟩
  rw [w.size_of_losesFile h] at hsize
  cases hsize

theorem bounded_of_keeps (w : Survey p) (h : ¬ w.LosesFile) : w.Bounded := by
  cases hhas : (w.seen 0).has p with
  | false => exact w.bounded_of_absent hhas
  | true =>
    cases hfile : (w.seen 1).isFileAt p with
    | false => exact w.bounded_of_directory hhas hfile
    | true =>
      cases hleft : (w.seen 2).has p with
      | false => exact absurd ⟨hfile, hleft⟩ h
      | true => exact w.bounded_of_file hhas hfile hleft

/-- The answers when `rglob` is the machine's own, at the moment it is asked. -/
def snapshot (p : Path) (seen : Nat → Disk) (last : Disk) (wf : (seen 0).root.wf)
    (removes : ∀ i, (seen i).root.Erodes (seen (i + 1)).root)
    (ends : ∀ i, (seen i).root.Erodes last.root) : Survey p where
  seen := seen
  last := last
  entries := (seen 2).rglob p
  wf := wf
  removes := removes
  ends := ends
  distinct := by
    have hwf : (seen 2).root.wf := (removes 1).wf ((removes 0).wf wf)
    unfold Disk.rglob
    cases hget : (seen 2).get? p with
    | none => exact List.nodup_nil
    | some t =>
      exact (Tree.rglob_nodup (Tree.wf_get? hwf hget)).map fun _ _ h => List.append_cancel_left h
  below := by
    intro q hq
    have hwf : (seen 2).root.wf := (removes 1).wf ((removes 0).wf wf)
    unfold Disk.rglob at hq
    cases hget : (seen 2).get? p with
    | none => simp [hget] at hq
    | some t =>
      rw [hget] at hq
      obtain ⟨r, hr, rfl⟩ := List.mem_map.mp hq
      exact ⟨r, ((Tree.mem_rglob (Tree.wf_get? hwf hget) r).mp hr).1, rfl⟩
  complete := by
    intro r hne hlast
    have hwf : (seen 2).root.wf := (removes 1).wf ((removes 0).wf wf)
    have hhas : ((seen 2).root.get? (p ++ r)).isSome := (ends 2).isSome hlast
    rw [Tree.get?_append] at hhas
    unfold Disk.rglob Disk.get?
    cases hget : (seen 2).root.get? p with
    | none => simp [hget] at hhas
    | some t =>
      rw [hget] at hhas
      have hr := (Tree.mem_rglob (Tree.wf_get? hwf hget) r).mpr ⟨hne, hhas⟩
      exact List.mem_map_of_mem hr

/-- Every operation of the walk is answered as the machine answers it on the disk of
that moment. -/
theorem snapshot_exec {p : Path} {seen : Nat → Disk} {last : Disk} (wf : (seen 0).root.wf)
    (removes : ∀ i, (seen i).root.Erodes (seen (i + 1)).root)
    (ends : ∀ i, (seen i).root.Erodes last.root) {role : Role} {e : Nat × Op}
    (he : e ∈ (apparentSize p).asked (snapshot p seen last wf removes ends).answer 0)
    {s : Shared} (hs : s.disk = seen e.1) :
    exec role e.2 .ok s = some ((snapshot p seen last wf removes ends).answer e.1 e.2, s) := by
  rcases asked_cases _ he with hmeasures | rfl
  · exact answer_exec _ e.1 hs hmeasures
  · simp [exec, Shared.reading, answer, snapshot, hs]

theorem put_erodes (d : Disk) (q : Path) : d.root.Erodes (d.put q none).root :=
  .single ⟨q, rfl⟩

/-- One removal, between the operations `k - 1` and `k`. -/
def losing (p : Path) (d : Disk) (wf : d.root.wf) (q : Path) (k : Nat) : Survey p :=
  snapshot p (fun i => if i < k then d else d.put q none) (d.put q none)
    (by
      split
      · exact wf
      · exact (put_erodes d q).wf wf)
    (by
      intro i
      by_cases hi : i < k
      · by_cases hi' : i + 1 < k
        · simp only [hi, hi', if_true]
          exact .refl
        · simp only [hi, hi', if_true, if_false]
          exact put_erodes d q
      · have hi' : ¬ i + 1 < k := by omega
        simp only [hi, hi', if_false]
        exact .refl)
    (by
      intro i
      by_cases hi : i < k
      · simp only [hi, if_true]
        exact put_erodes d q
      · simp only [hi, if_false]
        exact .refl)

theorem losing_losesFile {p : Path} {d : Disk} (wf : d.root.wf) (hp : p ≠ [])
    (hfile : d.isFileAt p = true) : (losing p d wf p 2).LosesFile := by
  refine ⟨hfile, ?_⟩
  cases ht : d.get? p with
  | none => simp [Disk.isFileAt, ht] at hfile
  | some t =>
    have hgone := Tree.get?_set_none_below ht hp []
    rw [List.append_nil] at hgone
    exact Disk.has_eq_false.mpr hgone

end Survey

/-- Whatever others remove meanwhile, a walk returns a size between what is left and
what was there, unless a single file goes between its test and its stat. -/
theorem apparent_size_while_others_remove {p : Path} (w : Survey p) :
    w.Bounded ↔ ¬ w.LosesFile := by
  constructor
  · exact fun hbounded hloses => w.not_bounded_of_losesFile hloses hbounded
  · exact w.bounded_of_keeps

/-- The paths that are safe against every removal are those that are no single file. -/
theorem apparent_size_safe_iff {p : Path} {d : Disk} (hwf : d.root.wf) (hp : p ≠ []) :
    (∀ w : Survey p, w.seen 0 = d → w.Bounded) ↔ d.isFileAt p = false := by
  constructor
  · intro hall
    refine Bool.eq_false_iff.mpr fun hfile => ?_
    exact Survey.not_bounded_of_losesFile _ (Survey.losing_losesFile hwf hp hfile)
      (hall (.losing p d hwf p 2) rfl)
  · intro hfile w hstart
    refine w.bounded_of_keeps fun hloses => ?_
    have hthere := hloses.1
    cases hget : (w.seen 1).get? p with
    | none => simp [Disk.isFileAt, hget] at hthere
    | some t =>
      obtain ⟨u, hu, hsame⟩ := (w.removes 0).get? hget
      have hu' : d.get? p = some u := hstart ▸ hu
      simp only [Disk.isFileAt, hget, hu', Option.map_some, Option.getD_some,
        Bool.not_eq_true', Bool.not_eq_false'] at hthere hfile
      rcases hsame with rfl | ⟨hdir, -⟩
      · rw [hthere] at hfile
        cases hfile
      · rw [hthere] at hdir
        cases hdir

/-- A data root with a single file and a directory of two files. -/
def smallDisk : Disk where
  root := .dir 0 [("observations", .dir 1
    [("obs_1.ms", .file 2 [7, 7, 7]),
      ("obs_2.ms", .dir 3 [("main", .file 4 [1, 2]), ("tmp", .file 5 [9])])])]
  mtime := fun _ => 0

/-- A poll of the file `obs_1.ms`, which goes between `is_file` and `stat`. -/
def polled : Survey ["observations", "obs_1.ms"] :=
  .losing _ smallDisk (by decide) ["observations", "obs_1.ms"] 2

/-- A file goes between `is_file` and `stat` of the single-file branch, where nothing catches
the exception: `apparent_size` raises. -/
theorem polled_raises : polled.size = .error (.fileNotFoundError ["observations", "obs_1.ms"]) ∧
    ¬ polled.Bounded := by
  have hloses : polled.LosesFile := ⟨by decide, by decide⟩
  exact ⟨polled.size_of_losesFile hloses, polled.not_bounded_of_losesFile hloses⟩

/-- In a directory the same removal only leaves the file out. -/
example : (Survey.losing ["observations", "obs_2.ms"] smallDisk (by decide)
    ["observations", "obs_2.ms", "tmp"] 6).size = .ok 2 := by rfl

end Sdpctl
