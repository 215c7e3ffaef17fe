import Sdpctl.Discipline.Rules

/-!
`apparent_size`, verified: exact for a tree that nobody touches, an upper bound
for a quarantine from which others may remove.
-/

namespace Sdpctl

open FileTree Coop

variable {T : Terms} {r : Role} {P : Shared → Prop}

/-- The size of what a path names, zero when it names nothing. -/
def Disk.sizeAt (d : Disk) (p : Path) : Nat := d.root.sizeAt p

theorem Disk.sizeAt_some {d : Disk} {p : Path} {t : Tree} (h : d.get? p = some t) :
    d.sizeAt p = t.statSize := by
  have hget : d.root.get? p = some t := h
  simp [Disk.sizeAt, Tree.sizeAt, hget]

theorem Disk.sizeAt_none {d : Disk} {p : Path} (h : d.get? p = none) : d.sizeAt p = 0 := by
  have hget : d.root.get? p = none := h
  simp [Disk.sizeAt, Tree.sizeAt, hget]

theorem Disk.sizeAt_of_not_file {d : Disk} {p : Path} (h : d.isFileAt p = false) :
    d.sizeAt p = 0 := by
  cases hget : d.get? p with
  | none => exact Disk.sizeAt_none hget
  | some t =>
    rw [Disk.sizeAt_some hget]
    cases t with
    | file i c => simp [Disk.isFileAt, hget, Tree.isDir] at h
    | dir i es => rfl

theorem childSize_rule {φ : Nat → Shared → Prop} (total : Nat) (child : Path)
    (hfirm : Firm T r P)
    (hsize : ∀ s, Inv T s → P s → φ (s.disk.sizeAt child) s) :
    Verified T r P (childSize total child) (fun b s => P s ∧ ∃ n, b = total + n ∧ φ n s)
      (fun _ s => P s ∧ T ≠ .faultless) := by
  refine Logic.Triple.catchAll (E := fun e s => P s ∧
    ((e = .fileNotFoundError child ∧ φ 0 s) ∨ (e = .osError child ∧ T ≠ .faultless)))
    (.bind ((isFile_rule child hfirm).exc fun e s _ h => ⟨h.1, .inr h.2⟩) fun b => ?_) fun e => ?_
  · refine .ite (fun hb => ?_) fun hb => .pure fun s hinv h => ?_
    · refine .bind (((statSize_rule child hfirm).pre fun s _ h => h.1).conseq (fun _ _ h => h)
        (fun n s hinv h => ?_) fun e s hinv h => ⟨h.1, h.2.imp_left fun hn => ?_⟩)
        (Q := fun n s => P s ∧ φ n s) fun n => .pure fun s _ h => ⟨h.1, n, rfl, h.2⟩
      · obtain ⟨hP, t, ht, rfl⟩ := h
        exact ⟨hP, Disk.sizeAt_some ht ▸ hsize s hinv hP⟩
      · exact ⟨hn.1, Disk.sizeAt_none hn.2 ▸ hsize s hinv h.1⟩
    · refine ⟨h.1, 0, rfl, ?_⟩
      have hzero := Disk.sizeAt_of_not_file (h.2.trans (Bool.eq_false_iff.mpr hb))
      exact hzero ▸ hsize s hinv h.1
  · split
    · refine .pure fun s _ h => ?_
      rcases h.2 with ⟨_, h0⟩ | ⟨hne, _⟩
      · exact ⟨h.1, 0, rfl, h0⟩
      · cases hne
    · rename_i hother
      refine .raise fun s _ h => ⟨h.1, ?_⟩
      rcases h.2 with ⟨rfl, _⟩ | ⟨_, hT⟩
      · exact absurd rfl (hother _)
      · exact hT

theorem apparentSize_rule (p : Path) (hfirm : Firm T r P) :
    Verified T r P (apparentSize p) (fun _ => P) (fun _ => P) := by
  refine .bind ((exists_rule p hfirm).exc fun _ _ _ h => h.1) fun b => ?_
  refine .ite (fun _ => .pure fun s _ h => h.1) fun _ => ?_
  refine .bind (((isFile_rule p hfirm).pre fun s _ h => h.1).exc fun _ _ _ h => h.1) fun b => ?_
  refine .ite (fun _ => ?_) fun _ => ?_
  · exact ((statSize_rule p hfirm).pre fun s _ h => h.1).conseq (fun _ _ h => h)
      (fun _ _ _ h => h.1) fun _ _ _ h => h.1
  · refine .bind (((rglob_rule p hfirm).pre fun s _ h => h.1).exc fun _ _ _ h => h.1) fun ps => ?_
    refine ((Logic.Triple.foldEach (fun _ _ => P) fun acc c rest => ?_).pre fun s _ h => h.1)
    exact (childSize_rule (φ := fun _ _ => True) acc c hfirm fun _ _ _ => trivial).conseq
      (fun _ _ h => h) (fun _ _ _ h => h.1) fun _ _ _ h => h.1

/-- What is left to count of a tree that stays as it is. -/
def Uncounted (p : Path) (t : Tree) (acc : Nat) (rest : List Path) : Prop :=
  ∃ todo : List Path, rest = todo.map (p ++ ·) ∧ acc + (todo.map t.sizeAt).sum = t.bytes

theorem Disk.sizeAt_append {d : Disk} {p q : Path} {t : Tree} (h : d.get? p = some t) :
    d.sizeAt (p ++ q) = t.sizeAt q := by
  have hget : d.root.get? p = some t := h
  unfold Disk.sizeAt Tree.sizeAt
  rw [Tree.get?_append, hget]
  rfl

theorem apparentSize_fixed (p : Path) (x : Option Tree)
    (hfirm : Firm T r fun s => P s ∧ s.disk.get? p = x) :
    Verified T r (fun s => P s ∧ s.disk.get? p = x) (apparentSize p)
      (fun n s => P s ∧ s.disk.bytesAt p = n) (fun _ => P) := by
  refine .bind ((exists_rule p hfirm).exc fun _ _ _ h => h.1.1) fun b => ?_
  refine .ite (fun hb => .pure fun s _ h => ⟨h.1.1, ?_⟩) fun hb => ?_
  · have hno : s.disk.has p = false := by simpa [h.2] using hb
    exact Disk.bytesAt_of_absent (Disk.has_eq_false.mp hno)
  refine .bind (((isFile_rule p (hfirm.and (.const (x.isSome = true)))).pre fun s _ h =>
    ⟨h.1, ?_⟩).exc fun _ _ _ h => h.1.1.1) fun b' => ?_
  · have hyes : b = true := by simpa using hb
    simpa [Disk.has, h.1.2, hyes] using h.2
  refine .ite (fun hfile => ?_) fun hfile => ?_
  · have hrule := statSize_rule p (hfirm.and (.const (∀ t, x = some t → t.isDir = false)))
    refine (hrule.pre fun s _ h => ⟨h.1.1, fun t ht => ?_⟩).conseq (fun _ _ h => h) ?_
      fun _ _ _ h => h.1.1.1
    · have hisFile := h.2.trans hfile
      simpa [Disk.isFileAt, h.1.1.2, ht] using hisFile
    · rintro n s _ ⟨⟨⟨hP, hx⟩, hdir⟩, t, ht, rfl⟩
      refine ⟨hP, ?_⟩
      rw [Disk.bytesAt_of_get? ht]
      cases t with
      | file i c => simp [Tree.bytes, Tree.statSize]
      | dir i es => simpa [Tree.isDir] using hdir _ (hx.symm.trans ht)
  · intro s hinv h
    obtain ⟨t, hx⟩ := Option.isSome_iff_exists.mp h.1.2
    have ht : s.disk.get? p = some t := h.1.1.2.trans hx
    have hdir : t.statSize = 0 := by
      have hnot : s.disk.isFileAt p = false := h.2.trans (Bool.eq_false_iff.mpr hfile)
      exact (Disk.sizeAt_some ht).symm.trans (Disk.sizeAt_of_not_file hnot)
    have hbytes := Tree.bytes_eq_sum (Tree.wf_get? hinv.disk.wf ht)
    refine Logic.Triple.bind ((rglob_rule p hfirm).exc fun _ _ _ h => h.1.1) (fun ps => ?_)
      s hinv h.1.1
    refine ((Logic.Triple.foldEach (fun acc rest s => (P s ∧ s.disk.get? p = x) ∧
      Uncounted p t acc rest) fun acc c rest => ?_).conseq ?_ ?_ fun _ _ _ h => h)
    · rintro s' hinv' ⟨hA, todo, hrest, hsum⟩
      obtain ⟨q, todo', rfl, rfl, rfl⟩ := List.map_eq_cons_iff.mp hrest.symm
      refine ((childSize_rule (φ := fun n _ => n = t.sizeAt q) acc (p ++ q) hfirm ?_).conseq
        (fun _ _ h => h) ?_ fun _ _ _ h => h.1.1) s' hinv' hA
      · exact fun _ _ h => Disk.sizeAt_append (h.2.trans hx)
      · rintro b _ _ ⟨hA', n, rfl, rfl⟩
        refine ⟨hA', todo', rfl, ?_⟩
        simp only [List.map_cons, List.sum_cons] at hsum
        omega
    · rintro s' _ ⟨hA, rfl⟩
      refine ⟨hA, t.rglob, ?_, by omega⟩
      simp [Disk.rglob, hA.2, hx]
    · rintro n s' _ ⟨hA, todo, hrest, hsum⟩
      have hnil : todo = [] := List.map_eq_nil_iff.mp hrest.symm
      refine ⟨hA.1, ?_⟩
      rw [Disk.bytesAt_of_get? (hA.2.trans hx)]
      simpa [hnil] using hsum.symm

theorem quarantineBytes_firm (hr : r ≠ .cli) (n : Nat) :
    Firm T r fun s => s.disk.bytesAt quarantineRoot ≤ n :=
  fun _ _ _ hq hinv hinv' hle => Nat.le_trans ((hq hr).shrunk.bytes_le hinv.disk.quarantine
    hinv'.disk.quarantine hinv.disk.wf hinv'.disk.wf) hle

/-- What is left to count of a quarantine that may lose entries meanwhile: every
path in it is counted or still to come, and the counted ones weigh no more now. -/
def Counted (acc : Nat) (rest : List Path) (s : Shared) : Prop :=
  ∃ done todo : List Path, rest = todo.map (quarantineRoot ++ ·) ∧
    (∀ q, q ≠ [] → s.disk.has (quarantineRoot ++ q) → q ∈ done ++ todo) ∧
    (done.map fun q => s.disk.sizeAt (quarantineRoot ++ q)).sum ≤ acc

theorem Disk.Shrunk.sizeAt_le {d d' : Disk} (h : d.Shrunk d') (q : Path) :
    d'.sizeAt (quarantineRoot ++ q) ≤ d.sizeAt (quarantineRoot ++ q) := by
  cases hget : d'.get? (quarantineRoot ++ q) with
  | none =>
    rw [Disk.sizeAt_none hget]
    exact Nat.zero_le _
  | some u' =>
    obtain ⟨u, hu, hle⟩ := h q u' hget
    rwa [Disk.sizeAt_some hget, Disk.sizeAt_some hu]

theorem counted_firm (hr : r ≠ .cli) (acc : Nat) (rest : List Path) :
    Firm T r (Counted acc rest) := by
  rintro s s' _ hq _ _ ⟨done, todo, hrest, hall, hsum⟩
  have hshrunk := (hq hr).shrunk
  refine ⟨done, todo, hrest, fun q hne hhas => hall q hne ?_, Nat.le_trans ?_ hsum⟩
  · obtain ⟨u', hu'⟩ := Disk.has_iff.mp hhas
    obtain ⟨u, hu, _⟩ := hshrunk q u' hu'
    exact Disk.has_iff.mpr ⟨u, hu⟩
  · exact List.sum_le_sum fun q _ => hshrunk.sizeAt_le q

theorem apparentSize_quarantine (hr : r ≠ .cli) (hfirm : Firm T r P) :
    Verified T r P (apparentSize quarantineRoot)
      (fun n s => P s ∧ s.disk.bytesAt quarantineRoot ≤ n) (fun _ => P) := by
  refine .bind ((exists_rule _ hfirm).exc fun _ _ _ h => h.1) fun b => ?_
  refine .ite (fun hb => .pure fun s _ h => ⟨h.1, ?_⟩) fun hb => ?_
  · have hno : s.disk.has quarantineRoot = false := by simpa [h.2] using hb
    exact Nat.le_of_eq (Disk.bytesAt_of_absent (Disk.has_eq_false.mp hno))
  refine .bind (((isFile_rule _ hfirm).pre fun s _ h => h.1).exc fun _ _ _ h => h.1) fun b' => ?_
  refine .ite (fun hfile s hinv h => ?_) fun _ => ?_
  · obtain ⟨i, es, hes⟩ := hinv.disk.quarantine
    have hget : s.disk.get? quarantineRoot = some (.dir i es) := hes
    have hno := h.2.trans hfile
    simp [Disk.isFileAt, hget, Tree.isDir] at hno
  · refine .bind (((rglob_rule _ hfirm).pre fun s _ h => h.1).exc fun _ _ _ h => h.1) fun ps => ?_
    refine ((Logic.Triple.foldEach (fun acc rest s => P s ∧ Counted acc rest s)
      fun acc c rest => ?_).conseq ?_ ?_ fun _ _ _ h => h)
    · rintro s hinv ⟨hP, hcounted⟩
      refine ((childSize_rule (φ := fun n s => s.disk.sizeAt c ≤ n) acc c
        (hfirm.and (counted_firm hr acc (c :: rest))) fun _ _ _ => Nat.le_refl _).conseq
        (fun _ _ h => h) ?_ fun _ _ _ h => h.1.1) s hinv ⟨hP, hcounted⟩
      rintro b s' _ ⟨⟨hP', done, todo, hrest, hall, hsum⟩, n, rfl, hn⟩
      obtain ⟨q', todo', rfl, hq', rfl⟩ := List.map_eq_cons_iff.mp hrest.symm
      refine ⟨hP', done ++ [q'], todo', rfl, fun q hne hhas => ?_, ?_⟩
      · simpa using hall q hne hhas
      · rw [List.map_append, List.sum_append]
        simp only [List.map_cons, List.map_nil, List.sum_cons, List.sum_nil, hq']
        omega
    · rintro s hinv ⟨hP, rfl⟩
      obtain ⟨i, es, hes⟩ := hinv.disk.quarantine
      have hget : s.disk.get? quarantineRoot = some (.dir i es) := hes
      refine ⟨hP, [], (Tree.dir i es).rglob, by simp [Disk.rglob, hget], fun q hne hhas => ?_,
      by simp⟩
      obtain ⟨u, hu⟩ := Disk.has_iff.mp hhas
      unfold Disk.get? at hu
      rw [Tree.get?_append, hes, Option.bind_some] at hu
      exact (Tree.mem_rglob (Tree.wf_get? hinv.disk.wf hes) q).mpr ⟨hne, by simp [hu]⟩
    · rintro n s hinv ⟨hP, done, todo, hrest, hall, hsum⟩
      have hnil : todo = [] := List.map_eq_nil_iff.mp hrest.symm
      obtain ⟨i, es, hes⟩ := hinv.disk.quarantine
      have hget : s.disk.get? quarantineRoot = some (.dir i es) := hes
      refine ⟨hP, Nat.le_trans ?_ hsum⟩
      rw [Disk.bytesAt_of_get? hget]
      have hcover : ∀ q, q ≠ [] → ((Tree.dir i es).get? q).isSome → q ∈ done := fun q hne hq => by
        have hhas : s.disk.has (quarantineRoot ++ q) := by
          unfold Disk.has Disk.get?
          rw [Tree.get?_append, hes]
          exact hq
        simpa [hnil] using hall q hne hhas
      have hbound := Tree.bytes_le_sum (Tree.wf_get? hinv.disk.wf hes) hcover
      simpa [Tree.statSize, Disk.sizeAt_append hget] using hbound

end Sdpctl
