import Sdpctl.Cli
import Sdpctl.Coop.Confined
import Sdpctl.Programs.Duties

/-!
The system with the command line as it is: `quarantine purge` takes any string, and
the name may lead out of the quarantine directory. Where every name is plain, this
machine does what `system` does. The database file of the data root is not part of
the file tree here, and what a removal takes away outside the data root is not followed.
-/

namespace Sdpctl

open FileTree Coop

/-- Where the data root is, and what else the file system holds. -/
structure Site where
  dataRoot : Path
  outside : Tree
  found : outside.IsDir dataRoot

namespace Site

variable (site : Site)

/-- The path in the tree of the data root, if it is there. -/
def below? (p : Path) : Option Path :=
  if site.dataRoot.isPrefixOf p then some (p.drop site.dataRoot.length) else none

/-- `target.exists()`. -/
def pathExists (p : Path) : M Bool :=
  match site.below? p with
  | some q => call (.exists_ q)
  | none => return (site.outside.get? p).isSome

/-- `target.is_dir()`. -/
def pathIsDir (p : Path) : M Bool :=
  match site.below? p with
  | some q => call (.isDir q)
  | none => return (site.outside.get? p).any Tree.isDir

/-- One component further; above the root is the root. -/
def into (p : Path) (c : String) : Path := if c = ".." then p.dropLast else p ++ [c]

/-- The operating system follows the components from a directory. The last one is not
looked up. -/
def follow : Path → List String → M (Option Path)
  | p, [] => return some p
  | p, [c] => return some (into p c)
  | p, c :: d :: rest => do
    if ← site.pathIsDir (into p c) then
      follow (into p c) (d :: rest)
    else
      return none

/-- What `cfg.data_root / "quarantine" / args.name` leads to. -/
def target (name : String) : M (Option Path) :=
  site.follow (if isAbsolute name then [] else quarantineDir site.dataRoot) (components name)

/-- `shutil.rmtree` of a directory, as far as what is in it. -/
def clear (q : Path) : M Unit := do
  let names ← call (.iterdir q)
  Prog.forEach names fun n => removeTree (q ++ [n])

/-- `shutil.rmtree(target)`. It empties the directory and then removes it, which the
system refuses for a name that ends in `..` and for the root. The data root itself stays
in the tree, empty. -/
def rmtree (name : String) (p : Path) : M Unit :=
  match site.below? p with
  | some q =>
    if endsAbove name || q.isEmpty then do
      clear q
      if endsAbove name || p.isEmpty then throw (.osError q)
    else call (.rmtree q)
  | none => do
    if p.isPrefixOf site.dataRoot then clear []
    if endsAbove name || p.isEmpty then throw (.osError [])

/-- `target.unlink()`. -/
def unlink (p : Path) : M Unit :=
  match site.below? p with
  | some q => call (.unlink q)
  | none => return ()

def remove (name : String) (p : Path) : M Unit := do
  if ← site.pathIsDir p then
    site.rmtree name p
  else
    site.unlink p

/-- `quarantine purge`. -/
def purge (name : String) : M Unit := do
  match ← site.target name with
  | none => throw (.runtimeError "not found")
  | some p =>
    if !(← site.pathExists p) then
      throw (.runtimeError "not found")
    else
      site.remove name p
      invalidateAuxiliaryCache

def code : Entry → M (Option Entry)
  | .command (.purge name) => do
    site.purge name
    return none
  | n => n.code

end Site

/-- The system, whose purges are given any string. -/
def shell (site : Site) : Machine Op Op.Reply Exn Shared Role Entry Choice Env :=
  { system with code := fun _ => site.code, enter := enter }

/-- Every name that `quarantine purge` is given is the plain name of an entry. -/
def PlainNames (_ : World Op.Reply Exn Shared Role Entry) (l : Label Role Entry Choice Env) :
    Prop :=
  ∀ r n, l = .enter r n → n.plain = true

/-- A test for `PlainNames`. -/
def plainLabel : Label Role Entry Choice Env → Bool
  | .enter _ n => n.plain
  | _ => true

theorem plainNames_of_label {w : World Op.Reply Exn Shared Role Entry}
    {l : Label Role Entry Choice Env} (h : plainLabel l = true) : PlainNames w l := by
  rintro r n rfl
  exact h

variable {site : Site}

theorem Site.below?_append (q : Path) : site.below? (site.dataRoot ++ q) = some q := by
  simp [below?]

/-- For a plain name the command is `quarantinePurge`. -/
theorem Site.purge_plain {name : String} (h : plainName name = true) :
    site.purge name = quarantinePurge name := by
  obtain ⟨hcomponents, hrelative, hlast⟩ := components_plain h
  have habove : name ≠ ".." := by
    rintro rfl
    exact absurd h (by decide)
  have htarget : site.target name = .ret (.ok (some (site.dataRoot ++ quarantineEntry name))) := by
    simp [target, hcomponents, hrelative, follow, into, habove, quarantineDir, quarantineEntry]
  have hremove : site.remove name (site.dataRoot ++ quarantineEntry name) =
      removeTree (quarantineEntry name) := by
    have hentry : (quarantineEntry name).isEmpty = false := rfl
    simp only [remove, pathIsDir, rmtree, unlink, below?_append, hlast, hentry, Bool.or_false,
      Bool.false_eq_true, if_false]
    rfl
  simp only [purge, htarget, pathExists, Prog.bind_def, Prog.ret_ok_bind, below?_append, hremove]
  rfl

/-- Plain entries have the code that they have in `system`. -/
theorem Site.code_plain {n : Entry} (h : n.plain = true) : site.code n = n.code := by
  cases n with
  | command c =>
    cases c with
    | purge name => simp only [code, Site.purge_plain h]; rfl
    | _ => rfl
  | _ => rfl

theorem Site.code_returns (n : Entry) :
    (site.code n).Returns fun next => ∀ m, next = some m → m.plain = true := by
  have hobserves : ∀ m : Entry, m.Observes → m.plain = true := by
    rintro _ (⟨cfg, task, oid, rfl⟩ | ⟨cfg, task, oid, handle, msPath, warned, rfl⟩) <;> rfl
  have hworker : ∀ {n : Entry}, n.Observes →
      n.code.Returns fun next => ∀ m, next = some m → m.plain = true := fun hn =>
    (observes_returns hn).mono fun next h m hm => hobserves m (h m hm)
  cases n with
  | run cfg =>
    refine Prog.returns_after fun _ m hm => ?_
    cases hm
    rfl
  | tick cfg =>
    refine Prog.returns_after fun _ => Prog.returns_after fun _ m hm => ?_
    cases hm
    rfl
  | observe cfg task oid => exact hworker (.inl ⟨_, _, _, rfl⟩)
  | watch cfg task oid handle msPath warned => exact hworker (.inr ⟨_, _, _, _, _, _, rfl⟩)
  | process cfg task rid =>
    refine endTask_returns (by simp) (Prog.returns_after fun _ => ?_)
    refine Prog.returns_after fun _ m hm => ?_
    cases hm
  | command c =>
    cases c <;> exact Prog.returns_after fun _ m hm => by cases hm

theorem shell_codes {ok : World Op.Reply Exn Shared Role Entry → Label Role Entry Choice Env → Prop}
    {w : World Op.Reply Exn Shared Role Entry} (h : (shell site).Reach ok start w) :
    ∀ p ∈ w.procs, p.code.Returns fun next => ∀ m, next = some m → m.plain = true :=
  h.codes (fun _ _ code => code.Returns fun next => ∀ m : Entry, next = some m → m.plain = true)
    (fun _ hp => by cases hp) (fun _ _ m hm => by cases hm) (fun _ => Site.code_returns _)
    (fun _ => Site.code_returns _) (fun _ => Site.code_returns _) (fun _ _ _ _ _ hcode => hcode)
    fun _ _ _ _ _ hcode => hcode _

theorem shell_step {ok : World Op.Reply Exn Shared Role Entry → Label Role Entry Choice Env → Prop}
    {w : World Op.Reply Exn Shared Role Entry} (h : (shell site).Reach ok start w)
    {l : Label Role Entry Choice Env} (plain : PlainNames w l) :
    (shell site).step l w = system.step l w := by
  refine Machine.step_congr ?_ ?_ ?_
  · intro pid c p o next x n _ hp hcode hnext
    have hreturns := shell_codes h p (List.mem_of_getElem? hp)
    rw [hcode] at hreturns
    have hplain := hreturns x
    rw [hnext] at hplain
    exact Site.code_plain (hplain n rfl)
  · intro o r n hspawn
    cases o <;> simp only [system, spawn] at hspawn <;> cases hspawn <;> rfl
  · intro r n hl
    have hplain := plain r n hl
    exact ⟨by simp [system, hplain], Site.code_plain hplain⟩

theorem shell_within {v w : World Op.Reply Exn Shared Role Entry}
    (before : (shell site).Reach PlainNames start v) (h : (shell site).Reach PlainNames v w)
    {ok : World Op.Reply Exn Shared Role Entry → Label Role Entry Choice Env → Prop}
    (any : ∀ w l, ok w l) : system.Reach ok v w :=
  h.within fun reached plain moves =>
    ⟨any _ _, (shell_step (Machine.Reach.trans before reached) plain).symm.trans moves⟩

end Sdpctl
