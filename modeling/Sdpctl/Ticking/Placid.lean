import Sdpctl.Operator.Alone
import Sdpctl.Ticking.Desk

/-!
The main coroutine alone, when no operation fails, with the whole state that each
operation leaves. Between two of its waits no other coroutine runs, so this is how
a tick goes when no command of the operator comes in between.
-/

namespace Sdpctl

open FileTree Coop

/-- The program returns, with `P`. -/
abbrev Placid {α : Type} (p : M α) (P : α → Shared → Prop) (s : Shared) : Prop :=
  Smooth .main (fun _ => True) p P s

variable {α β : Type} {s : Shared}

section Rules

/-- The operation has one outcome unless it fails. -/
def Op.single : Op → Bool
  | .iterdir _ => false
  | _ => true

theorem exec_order {r : Role} {o : Op} (ho : o.single = true) (names : List String) (s : Shared) :
    exec r o (.order names) s = none := by
  cases o with
  | iterdir p => cases ho
  | acquire | runnerDone h | cancelRunner h =>
    simp only [exec, Shared.sure]
    split <;> rfl
  | runnerResult h =>
    simp only [exec, Shared.sure]
    split <;> simp
  | _ => rfl

theorem placid_call {o : Op} {a : o.Reply} {t : Shared} {P : o.Reply → Shared → Prop}
    (ho : o.single = true) (h : exec .main o .ok s = some (.ok a, t)) (hP : P a t) :
    Placid (call o) P s := by
  refine smooth_call (K := fun _ => True) (fun x u => ⟨?_, ?_⟩) (fun _ _ => trivial) trivial hP
  · rintro ⟨c, hc, hx⟩
    cases c with
    | ok =>
      rw [h] at hx
      cases hx
      exact ⟨rfl, rfl⟩
    | order names =>
      rw [exec_order ho] at hx
      cases hx
    | _ => cases hc
  · rintro ⟨rfl, rfl⟩
    exact ⟨.ok, rfl, h⟩

theorem placid_store {q : Query} {a : q.Reply} {db : Db} {P : q.Reply → Shared → Prop}
    (h : q.run s.db = .ok (a, db)) (hP : P a { s with db }) : Placid (store q) P s :=
  smooth_store (K := fun _ => True) h trivial hP

theorem placid_obsTaskLive {oid : Nat} {P : Bool → Shared → Prop}
    (hP : P (s.ctl.live .observe oid) s) : Placid (call (.obsTaskLive oid)) P s :=
  placid_call rfl rfl hP

theorem placid_runTaskLive {rid : Nat} {P : Bool → Shared → Prop}
    (hP : P (s.ctl.live .process rid) s) : Placid (call (.runTaskLive rid)) P s :=
  placid_call rfl rfl hP

theorem forEach_map {Op ε : Type} {Reply : Op → Type} (xs : List α) (g : α → β)
    (f : β → Prog Reply ε Unit) :
    Prog.forEach (xs.map g) f = Prog.forEach xs fun x => f (g x) := by
  induction xs with
  | nil => rfl
  | cons x rest ih => simp only [List.map_cons, Prog.forEach, ih]

/-- A loop over the rows of a table that satisfy a test, by the rows that are done and
those still to come. -/
theorem placid_rows {rows : List α} {test : α → Bool} {f : α → M Unit}
    {P : List α → List α → Shared → Prop}
    (round : ∀ done x rest t, rows = done ++ x :: rest → test x = true → P done (x :: rest) t →
      Placid (f x) (fun _ u => P (done ++ [x]) rest u) t)
    (pass : ∀ done x rest t, rows = done ++ x :: rest → test x = false → P done (x :: rest) t →
      P (done ++ [x]) rest t)
    (start : P [] rows s) : Placid (Prog.forEach (rows.filter test) f) (fun _ => P rows []) s := by
  let I : List α → Shared → Prop := fun todo t => ∃ done, rows = done ++ todo ∧ P done todo t
  have hround : ∀ x rest t, test x = true → I (x :: rest) t →
      (f x).Gives (smoothly .main) (fun _ => True) (fun _ u => I rest u) t := by
    rintro x rest t hx ⟨done, hrows, hat⟩
    refine (round done x rest t hrows hx hat).mono (fun _ h => h) fun _ u hu => ?_
    exact ⟨done ++ [x], by simp [hrows], hu⟩
  have hpass : ∀ x rest t, test x = false → I (x :: rest) t → I rest t := by
    rintro x rest t hx ⟨done, hrows, hat⟩
    exact ⟨done ++ [x], by simp [hrows], pass done x rest t hrows hx hat⟩
  have hstart : I rows s := ⟨[], rfl, start⟩
  refine (Prog.Gives.forEach_filter hround hpass hstart).mono (fun _ h => h) ?_
  rintro _ t ⟨done, hrows, hat⟩
  rw [List.append_nil] at hrows
  exact hrows ▸ hat

end Rules

section Files

variable {p : Path} {label : String}

/-- `quarantine_path` sets something aside and drops the cached sizes. -/
def Shared.setAside (s : Shared) (p : Path) (label : String) : Shared :=
  if s.disk.has p then
    { s with disk := s.disk.setAside p label, ctl := { s.ctl with cache := none } }
  else s

theorem quarantinePath_placid {P : Path → Shared → Prop} (hp : Apart p quarantineRoot)
    (hdir : s.disk.root.IsDir quarantineRoot) (hhas : s.disk.has p = true)
    (hP : P (s.disk.freeEntry label) (s.setAside p label)) :
    Placid (quarantinePath p label) P s := by
  obtain ⟨u, hu⟩ := Disk.has_iff.mp hhas
  obtain ⟨name, hname⟩ := Disk.freeEntry_entry s.disk label
  have hmove : s.setAside p label = { s with
      disk := s.disk.move p (quarantineEntry name) u, ctl := { s.ctl with cache := none } } := by
    simp only [Shared.setAside, hhas, ite_true, Disk.setAside, hu, hname]
  rw [hname, hmove] at hP
  refine .then (smooth_exists (K := fun _ => True) trivial ?_)
  rw [hhas]
  refine .then (uniqueQuarantineTarget_smooth (K := fun _ => True) trivial ?_)
  rw [hname]
  refine .then (smooth_mkdir (K := fun _ => True) hdir trivial ?_)
  refine .then (smooth_rename (K := fun _ => True) hu
    (hname ▸ Disk.freeEntry_free s.disk label) hdir (Disk.apart_entry hp name) trivial ?_)
  refine .then (.then (smooth_resolve (K := fun _ => True) trivial ?_))
  exact placid_call rfl rfl (.pure hP)

theorem quarantineSuppressed_placid {P : Unit → Shared → Prop} (hp : Apart p quarantineRoot)
    (hdir : s.disk.root.IsDir quarantineRoot) (hP : P () (s.setAside p label)) :
    Placid (quarantineSuppressed p label) P s := by
  refine .then (smooth_exists (K := fun _ => True) trivial ?_)
  cases hhas : s.disk.has p with
  | true =>
    refine Prog.Gives.catchAll (.then ?_)
    exact quarantinePath_placid (P := fun _ t => Prog.Gives _ _ (.ret (.ok ())) P t) hp hdir hhas
      (.pure hP)
  | false =>
    have hsame : s.setAside p label = s := by simp [Shared.setAside, hhas]
    exact .pure (hsame ▸ hP)

theorem removeIfExists_placid {P : Unit → Shared → Prop} (hno : s.disk.isFileAt p = false)
    (hp : parent p ≠ quarantineRoot) (hP : P () { s with disk := s.disk.emptied p }) :
    Placid (removeIfExists p) P s := by
  refine .then (smooth_exists (K := fun _ => True) trivial ?_)
  unfold Disk.emptied at hP
  cases hhas : s.disk.has p with
  | false => exact .pure (by simpa [hhas] using hP)
  | true =>
    rw [if_pos hhas] at hP
    obtain ⟨u, hu⟩ := Disk.has_iff.mp hhas
    have hdir : u.isDir = true := by simpa [Disk.isFileAt, hu] using hno
    refine placid_call rfl ?_ hP
    simp [exec, Shared.removing, Disk.rmtree, hu, hdir, Shared.notePurge, hp]

end Files

section Sizes

variable {P : Nat → Shared → Prop}

theorem childSize_placid {total : Nat} {child : Path}
    (hP : P (total + s.disk.sizeAt child) s) : Placid (childSize total child) P s := by
  refine Prog.Gives.catchAll (.then (placid_call (a := s.disk.isFileAt child) rfl rfl ?_))
  cases hfile : s.disk.isFileAt child with
  | false =>
    rw [Disk.sizeAt_of_not_file hfile] at hP
    exact .pure hP
  | true =>
    obtain ⟨t, ht⟩ : ∃ t, s.disk.get? child = some t := by
      cases hget : s.disk.get? child with
      | none => simp [Disk.isFileAt, hget] at hfile
      | some t => exact ⟨t, rfl⟩
    have hstat : exec .main (.statSize child) .ok s = some (.ok t.statSize, s) := by
      simp [exec, Shared.reading, Disk.statSize, ht]
    rw [Disk.sizeAt_some ht] at hP
    exact .then (placid_call rfl hstat (.pure hP))

theorem apparentSize_placid {p : Path} (hwf : s.disk.root.wf) (hP : P (s.disk.bytesAt p) s) :
    Placid (apparentSize p) P s := by
  refine .then (smooth_exists (K := fun _ => True) trivial ?_)
  cases hget : s.disk.get? p with
  | none =>
    rw [Disk.bytesAt_of_absent hget] at hP
    rw [Disk.has_eq_false.mpr hget]
    exact .pure hP
  | some t =>
    rw [Disk.has_iff.mpr ⟨t, hget⟩]
    refine .then (placid_call (a := s.disk.isFileAt p) rfl rfl ?_)
    cases t with
    | file i c =>
      have hfile : s.disk.isFileAt p = true := by simp [Disk.isFileAt, hget, Tree.isDir]
      have hstat : exec .main (.statSize p) .ok s = some (.ok (s.disk.bytesAt p), s) := by
        simp [exec, Shared.reading, Disk.statSize, hget, Disk.bytesAt_of_get? hget, Tree.bytes,
          Tree.statSize]
      rw [hfile]
      exact placid_call rfl hstat hP
    | dir i es =>
      have hfile : s.disk.isFileAt p = false := by simp [Disk.isFileAt, hget, Tree.isDir]
      rw [hfile]
      refine .then (placid_call (a := s.disk.rglob p) rfl rfl ?_)
      -- what the walk has added up, and what it still has to
      let I : List Path → Nat → Shared → Prop := fun rest total t =>
        t = s ∧ total + (rest.map s.disk.sizeAt).sum = s.disk.bytesAt p
      have hround : ∀ child rest total t, I (child :: rest) total t →
          Placid (childSize total child) (fun total u => I rest total u) t := by
        rintro child rest total _ ⟨rfl, hsum⟩
        refine childSize_placid ⟨rfl, ?_⟩
        rw [List.map_cons, List.sum_cons] at hsum
        omega
      have hstart : I (s.disk.rglob p) 0 s := by
        refine ⟨rfl, ?_⟩
        have hpaths : s.disk.rglob p = (Tree.dir i es).rglob.map (p ++ ·) := by
          simp [Disk.rglob, hget]
        have hsize : s.disk.sizeAt ∘ (p ++ ·) = (Tree.dir i es).sizeAt :=
          funext fun q => Disk.sizeAt_append hget
        rw [hpaths, List.map_map, hsize, Disk.bytesAt_of_get? hget,
          Tree.bytes_eq_sum (Tree.wf_get? hwf hget)]
        simp [Tree.statSize]
      refine (Prog.Gives.foldEach hround hstart).mono (fun _ h => h) ?_
      rintro total _ ⟨rfl, hsum⟩
      simp only [List.map_nil, List.sum_nil, Nat.add_zero] at hsum
      exact hsum ▸ hP

theorem mtimeOrMissing_placid {P : Int → Shared → Prop} {p : Path} (hP : P (s.disk.stamp p) s) :
    Placid (mtimeOrMissing p) P s := by
  refine .then (smooth_exists (K := fun _ => True) trivial ?_)
  unfold Disk.stamp at hP
  cases hhas : s.disk.has p with
  | false => exact .pure (by simpa [hhas] using hP)
  | true =>
    have hstat : exec .main (.statMtime p) .ok s = some (.ok (s.disk.mtime p), s) := by
      simp [exec, Shared.reading, Disk.statMtime, hhas]
    exact .then (placid_call rfl hstat (.pure (by simpa [hhas] using hP)))

theorem mtimeSignature_placid {P : Int × Int → Shared → Prop} (hP : P s.disk.signature s) :
    Placid mtimeSignature P s :=
  .then (mtimeOrMissing_placid (.then (mtimeOrMissing_placid (.pure hP))))

theorem auxiliaryChargedStorage_placid {P : Nat × Nat → Shared → Prop} (hwf : s.disk.root.wf)
    (hP : P (s.disk.charged s.ctl.cache) { s with
      ctl := { s.ctl with cache := some (s.disk.signature, s.disk.charged s.ctl.cache) } }) :
    Placid (auxiliaryChargedStorage false) P s := by
  have hwalk : s.disk.charged s.ctl.cache = s.disk.auxiliary →
      Placid ((apparentSize quarantineRoot).bind fun q => (apparentSize trashRoot).bind fun t =>
        (call (.cachePut (s.disk.signature, (q, t)))).bind fun _ => .ret (.ok (q, t))) P s := by
    intro hsizes
    rw [hsizes] at hP
    refine .then (apparentSize_placid hwf (.then (apparentSize_placid hwf ?_)))
    exact .then (placid_call rfl rfl (.pure hP))
  refine .then (smooth_resolve (K := fun _ => True) trivial ?_)
  refine .then (mtimeSignature_placid ?_)
  refine .then (placid_call (a := s.ctl.cache) rfl rfl ?_)
  cases hcache : s.ctl.cache with
  | none => exact hwalk (by rw [hcache]; rfl)
  | some e =>
    obtain ⟨old, sizes⟩ := e
    by_cases hhit : old = s.disk.signature
    · have hsame : s.disk.charged s.ctl.cache = sizes := by simp [Disk.charged, hcache, hhit]
      rw [hsame, ← hhit, ← hcache] at hP
      have htest : (!false && old == s.disk.signature) = true := by simp [hhit]
      simp only [htest, ite_true]
      exact .pure hP
    · have hmiss : s.disk.charged s.ctl.cache = s.disk.auxiliary := by
        simp [Disk.charged, hcache, hhit]
      have htest : ¬ (!false && old == s.disk.signature) = true := by simp [hhit]
      simp only [if_neg htest]
      exact hwalk hmiss

end Sizes

end Sdpctl
