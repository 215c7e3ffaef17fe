import Sdpctl.Restart.Moving

/-!
Quarantine loses nothing. Whatever is in the directory and whatever the labels are,
a call finds a free name, the whole source is there afterwards and nowhere else,
and what has been set aside before keeps its name and its content.
-/

namespace Sdpctl

open FileTree Coop

/-- `quarantine_path` has moved the tree `u` from `source` to `q`, a name of the quarantine that
was free: it is there, nothing is at its source any more, and what is apart from both is where
it was. -/
structure Moved (s t : Shared) (source q : Path) (u : Tree) : Prop where
  entry : ∃ name, q = quarantineEntry name
  free : s.disk.get? q = none
  there : t.disk.get? q = some u
  gone : t.disk.get? source = none
  kept : ∀ name v, s.disk.get? (quarantineEntry name) = some v →
    t.disk.get? (quarantineEntry name) = some v
  elsewhere : ∀ r, Apart r source → Apart r q → t.disk.get? r = s.disk.get? r
  count : t.disk.entryCount quarantineRoot = s.disk.entryCount quarantineRoot + 1
  tables : t.db = s.db

/-- Calls of `quarantine_path`, one after the other, each with a source that is
there and not in quarantine; `moved` lists where they say they have put what. -/
inductive Quarantining (role : Role) (s : Shared) :
    List (Path × String) → List (Path × Tree) → Shared → Prop where
  | start : Quarantining role s [] [] s
  | call {t t' : Shared} {calls : List (Path × String)} {moved : List (Path × Tree)}
      {source q : Path} {label : String} {u : Tree} (before : Quarantining role s calls moved t)
      (found : t.disk.get? source = some u) (outside : Apart source quarantineRoot)
      (done : Prog.Leads (smoothly role) (quarantinePath source label) t (.ret (.ok q)) t') :
      Quarantining role s (calls ++ [(source, label)]) (moved ++ [(q, u)]) t'

section Move

variable {d : Disk} {source : Path} {u : Tree} {name : String}

theorem Disk.has_parent {p : Path} (h : d.get? p = some u) (hp : p ≠ []) :
    ∃ dir n, p = dir ++ [n] ∧ d.root.IsDir dir := by
  refine ⟨p.dropLast, p.getLast hp, (List.dropLast_append_getLast hp).symm, ?_⟩
  refine Tree.isDir_of_get? (n := p.getLast hp) (c := u) ?_
  rw [List.dropLast_append_getLast hp]
  exact h

theorem Disk.entryCount_put {dir : Path} {n : String} {i : Nat} {es : List (String × Tree)}
    (hdir : d.get? dir = some (.dir i es)) (hnew : d.get? (dir ++ [n]) = none) :
    (d.put (dir ++ [n]) (some u)).entryCount dir = d.entryCount dir + 1 := by
  have hfresh : ∀ e ∈ es, e.1 ≠ n := by
    have hlookup : es.lookup n = none := by
      rw [get?, Tree.get?_append, show d.root.get? dir = _ from hdir, Option.bind_some,
        Tree.get?_dir] at hnew
      cases hes : es.lookup n with
      | none => rfl
      | some t => simp [hes] at hnew
    intro e he heq
    have hno := List.lookup_eq_none_iff.mp hlookup e he
    simp [heq] at hno
  have hafter : (d.put (dir ++ [n]) (some u)).get? dir = some (.dir i (setEntry es n (some u))) :=
    Tree.get?_set_entry hdir
  have hall : es.filter (fun e => e.1 != n) = es := by
    rw [List.filter_eq_self]
    intro e he
    simpa using hfresh e he
  simp [entryCount, hafter, hdir, setEntry, hall]

/-- Something that is outside quarantine and exists, set aside under a free name. -/
theorem Moved.setAside {s t : Shared} {label : String} (hsource : s.disk.get? source = some u)
    (hout : Apart source quarantineRoot) (hdir : s.disk.root.IsDir quarantineRoot)
    (hdisk : t.disk = s.disk.setAside source label) (hdb : t.db = s.db) :
    Moved s t source (s.disk.freeEntry label) u ∧ t.disk.root.IsDir quarantineRoot := by
  obtain ⟨name, hname⟩ := Disk.freeEntry_entry s.disk label
  have hfree : s.disk.get? (quarantineEntry name) = none := hname ▸ Disk.freeEntry_free _ label
  have hmove : t.disk = s.disk.move source (quarantineEntry name) u := by
    rw [hdisk, Disk.setAside, hsource, hname]
  have hnil : source ≠ [] := by
    rintro rfl
    exact apart_nil_left _ hout
  obtain ⟨dir, n, hsplit, hparent⟩ := Disk.has_parent hsource hnil
  have hentry := Disk.apart_entry hout name
  -- quarantine itself, before the source arrives there
  obtain ⟨i, es, hes⟩ := hdir
  have hmid : (s.disk.put source none).get? quarantineRoot = some (.dir i es) :=
    (Disk.get?_put_apart _ _ hout.symm).trans hes
  have hmidFree : (s.disk.put source none).get? (quarantineEntry name) = none :=
    (Disk.get?_put_apart _ _ hentry.symm).trans hfree
  rw [hname]
  refine ⟨⟨⟨name, rfl⟩, hfree, ?_, ?_, fun m v hm => ?_, fun r hr hq => ?_, ?_, hdb⟩, ?_⟩
  · rw [hmove]
    exact Disk.get?_put_self ⟨i, es, hmid⟩
  · rw [hmove, hsplit]
    exact Disk.get?_move_source hparent (hsplit ▸ hentry)
  · have hne : m ≠ name := by
      rintro rfl
      rw [hfree] at hm
      cases hm
    rw [hmove, Disk.get?_move_apart _ (Disk.apart_entry hout m).symm
      (by simp [quarantineEntry, hne])]
    exact hm
  · rw [hmove]
    exact Disk.get?_move_apart _ hr hq
  · have hbefore : (s.disk.put source none).entryCount quarantineRoot =
        s.disk.entryCount quarantineRoot := by
      have hes' : s.disk.get? quarantineRoot = some (.dir i es) := hes
      simp [Disk.entryCount, hmid, hes']
    rw [hmove, ← hbefore]
    exact Disk.entryCount_put hmid hmidFree
  · rw [hmove]
    exact ⟨i, setEntry es name (some u), Tree.get?_set_entry hmid⟩

end Move

section Calls

variable {role : Role} {s t : Shared}

/-- A call with a source outside quarantine comes to its end, and has moved it. -/
theorem quarantinePath_ends {source : Path} {label : String} {u : Tree}
    (hsource : s.disk.get? source = some u) (hout : Apart source quarantineRoot)
    (hdir : s.disk.root.IsDir quarantineRoot) :
    (∀ p t, Prog.Leads (smoothly role) (quarantinePath source label) s p t →
      ∃ x v, Prog.Leads (smoothly role) p t (.ret x) v) ∧
    ∀ x t, Prog.Leads (smoothly role) (quarantinePath source label) s (.ret x) t →
      ∃ q, x = .ok q ∧ Moved s t source q u ∧ t.disk.root.IsDir quarantineRoot := by
  have hrun : Smooth role (fun _ => True) (quarantinePath source label)
      (fun q t => Moved s t source q u ∧ t.disk.root.IsDir quarantineRoot) s :=
    quarantinePath_moves hout hdir (Disk.has_iff.mpr ⟨u, hsource⟩) trivial trivial
      fun t hdb hdisk => Moved.setAside hsource hout hdir hdisk hdb
  refine ⟨fun p t hleads => (hrun.leads trivial hleads).1.ends, fun x t hleads => ?_⟩
  obtain ⟨q, rfl, hmoved⟩ := hrun.result trivial hleads
  exact ⟨q, rfl, hmoved⟩

variable {calls : List (Path × String)} {moved : List (Path × Tree)}

theorem Quarantining.dir (h : Quarantining role s calls moved t)
    (hdir : s.disk.root.IsDir quarantineRoot) : t.disk.root.IsDir quarantineRoot := by
  induction h with
  | start => exact hdir
  | call before found outside done ih =>
    obtain ⟨_, hx, _, hend⟩ := (quarantinePath_ends found outside ih).2 _ _ done
    exact hend

/-- Between the two states the listed trees have been moved: each is at the name given with it,
which was free, what was in the quarantine before is there still, and the count of entries says
that this is all. -/
structure Conserved (s t : Shared) (moved : List (Path × Tree)) : Prop where
  count : t.disk.entryCount quarantineRoot = s.disk.entryCount quarantineRoot + moved.length
  kept : ∀ name v, s.disk.get? (quarantineEntry name) = some v →
    t.disk.get? (quarantineEntry name) = some v
  targets : (moved.map Prod.fst).Nodup
  there : ∀ e ∈ moved, s.disk.get? e.1 = none ∧ t.disk.get? e.1 = some e.2 ∧
    ∃ name, e.1 = quarantineEntry name

theorem Quarantining.conserved (h : Quarantining role s calls moved t)
    (hdir : s.disk.root.IsDir quarantineRoot) : Conserved s t moved := by
  induction h with
  | start => exact ⟨rfl, fun _ _ h => h, List.nodup_nil, by simp⟩
  | @call t t' calls moved source q label u before found outside done ih =>
    obtain ⟨_, hx, hmoved, _⟩ := (quarantinePath_ends found outside (before.dir hdir)).2 _ _ done
    cases hx
    obtain ⟨name, rfl⟩ := hmoved.entry
    have hold : s.disk.get? (quarantineEntry name) = none := by
      cases hs : s.disk.get? (quarantineEntry name) with
      | none => rfl
      | some v =>
        have hlater := ih.kept name v hs
        rw [hmoved.free] at hlater
        cases hlater
    refine ⟨?_, fun m v hm => hmoved.kept m v (ih.kept m v hm), ?_, fun e he => ?_⟩
    · rw [hmoved.count, ih.count]
      simp [Nat.add_assoc]
    · rw [List.map_append, List.map_singleton, List.nodup_append]
      refine ⟨ih.targets, List.nodup_singleton _, fun a ha b hb => ?_⟩
      rw [List.mem_singleton] at hb
      subst hb
      rintro rfl
      obtain ⟨e, he, hpath⟩ := List.mem_map.mp ha
      obtain ⟨_, hthere, _⟩ := ih.there e he
      rw [hpath, hmoved.free] at hthere
      cases hthere
    · rcases List.mem_append.mp he with he | he
      · obtain ⟨hbefore, hthere, m, hm⟩ := ih.there e he
        exact ⟨hbefore, hm ▸ hmoved.kept m e.2 (hm ▸ hthere), m, hm⟩
      · rw [List.mem_singleton] at he
        subst he
        exact ⟨hold, hmoved.there, name, rfl⟩

end Calls

/-- After any calls of `quarantine_path`: every entry from before is where it was,
everything that was moved is where the call said, with its whole content, and there
are as many more entries as calls; and a next call with whatever source and label
comes to its end and has moved the source to a name that was free. -/
theorem quarantine_conserves {role : Role} {s t : Shared} {calls : List (Path × String)}
    {moved : List (Path × Tree)} (hdir : s.disk.root.IsDir quarantineRoot)
    (h : Quarantining role s calls moved t) :
    moved.length = calls.length ∧ Conserved s t moved ∧
      ∀ source label u, t.disk.get? source = some u → Apart source quarantineRoot →
        (∀ p t', Prog.Leads (smoothly role) (quarantinePath source label) t p t' →
          ∃ x v, Prog.Leads (smoothly role) p t' (.ret x) v) ∧
        ∀ x t', Prog.Leads (smoothly role) (quarantinePath source label) t (.ret x) t' →
          ∃ q, x = .ok q ∧ Moved t t' source q u := by
  refine ⟨?_, h.conserved hdir, fun source label u hsource hout => ?_⟩
  · induction h with
    | start => rfl
    | call before found outside done ih => simp [ih]
  · obtain ⟨hends, hresult⟩ := quarantinePath_ends hsource hout (h.dir hdir)
    refine ⟨hends, fun x t' hleads => ?_⟩
    obtain ⟨q, hx, hmoved, _⟩ := hresult x t' hleads
    exact ⟨q, hx, hmoved⟩

/-- Two trees under `observations/`, nothing in quarantine yet. -/
def twoOrphans : Shared :=
  { initial with disk := { initial.disk with
      root := initial.disk.root.set ["observations"]
        (some (.dir 0 [("a", .file 1 [1]), ("b", .file 2 [2])])) } }

/-- Two files are set aside under one label: the second takes the first free suffix, and both
are in the quarantine with their contents. -/
theorem quarantine_conserves_both : ∃ moved t,
    Quarantining .main twoOrphans [(["observations", "a"], "x"), (["observations", "b"], "x")]
      moved t ∧
    t.disk.entryCount quarantineRoot = twoOrphans.disk.entryCount quarantineRoot + 2 ∧
    (∃ p, t.disk.get? p = some (.file 1 [1])) ∧ ∃ p, t.disk.get? p = some (.file 2 [2]) := by
  have hdir : twoOrphans.disk.root.IsDir quarantineRoot := ⟨0, [], rfl⟩
  obtain ⟨_, _, hnext⟩ := quarantine_conserves hdir (.start : Quarantining .main _ _ _ _)
  obtain ⟨hends, hresult⟩ := hnext ["observations", "a"] "x" _ rfl (by simp [quarantineRoot])
  obtain ⟨x, t, hfirst⟩ := hends _ _ .here
  obtain ⟨q, rfl, hmoved⟩ := hresult x t hfirst
  have hone := Quarantining.start.call rfl (by simp [quarantineRoot]) hfirst
  obtain ⟨_, _, hnext'⟩ := quarantine_conserves hdir hone
  obtain ⟨name, rfl⟩ := hmoved.entry
  have hb : t.disk.get? ["observations", "b"] = some (.file 2 [2]) :=
    (hmoved.elsewhere _ (by simp) (by simp [quarantineEntry])).trans rfl
  obtain ⟨hends', hresult'⟩ := hnext' ["observations", "b"] "x" _ hb (by simp [quarantineRoot])
  obtain ⟨y, t', hsecond⟩ := hends' _ _ .here
  obtain ⟨q', rfl, hmoved'⟩ := hresult' y t' hsecond
  have htwo := hone.call hb (by simp [quarantineRoot]) hsecond
  obtain ⟨_, hconserved, _⟩ := quarantine_conserves hdir htwo
  have hfirst' := hconserved.there (quarantineEntry name, .file 1 [1]) (by simp)
  exact ⟨_, t', htwo, hconserved.count, ⟨_, hfirst'.2.1⟩, ⟨_, hmoved'.there⟩⟩

end Sdpctl
