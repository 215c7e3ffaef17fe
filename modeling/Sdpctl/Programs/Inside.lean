import Sdpctl.Programs.Sound
import Sdpctl.System.Shell

/-!
The command line, as long as `quarantine purge` is given names that lead inside: strictly
below the quarantine directory, however they get there. Then a purge takes away an entry
of the quarantine or a part of one, and the invariant of the system stands, with all that
the others rely on.
-/

namespace Sdpctl

open FileTree Coop

namespace Site

variable (site : Site)

/-- Where the name leads if everything on the way is a directory. -/
def leads (name : String) : Path :=
  (components name).foldl into (if isAbsolute name then [] else quarantineDir site.dataRoot)

/-- The name leads strictly below the quarantine directory, and not by way of a last `..`. -/
def inside (name : String) : Bool :=
  !endsAbove name && match site.below? (site.leads name) with
    | some (dir :: _ :: _) => dir == "quarantine"
    | _ => false

end Site

/-- Every name that `quarantine purge` is given leads strictly below the quarantine. -/
def InsideNames (site : Site) (_ : World Op.Reply Exn Shared Role Entry)
    (l : Label Role Entry Choice Env) : Prop :=
  ∀ r name, l = .enter r (.command (.purge name)) → site.inside name = true

variable {site : Site} {r : Role} {s s' : Shared}

theorem Site.inside_cases {name : String} (h : site.inside name = true) :
    endsAbove name = false ∧
      ∃ n rest, site.below? (site.leads name) = some (quarantineEntry n ++ rest) := by
  simp only [inside, Bool.and_eq_true, Bool.not_eq_true'] at h
  obtain ⟨hlast, hpath⟩ := h
  refine ⟨hlast, ?_⟩
  split at hpath
  · rename_i dir n rest heq
    rw [eq_of_beq hpath] at heq
    exact ⟨n, rest, heq⟩
  · cases hpath

/-- A plain name leads to the entry that it names. -/
theorem Site.inside_plain {name : String} (h : plainName name = true) :
    site.inside name = true := by
  obtain ⟨hcomponents, hrelative, hlast⟩ := components_plain h
  have habove : name ≠ ".." := by
    rintro rfl
    exact absurd h (by decide)
  have hleads : site.leads name = site.dataRoot ++ quarantineEntry name := by
    simp [leads, hcomponents, hrelative, into, habove, quarantineDir, quarantineEntry]
  simp only [inside, hlast, hleads, below?_append, quarantineEntry]
  rfl

theorem PlainNames.inside {w : World Op.Reply Exn Shared Role Entry}
    {l : Label Role Entry Choice Env} (h : PlainNames w l) : InsideNames site w l :=
  fun r _ hl => Site.inside_plain (h r _ hl)

/-- Following a name looks at directories, and comes to nothing or to where it leads. -/
theorem Site.follow_looks (p : Path) (cs : List String) :
    (site.follow p cs).Uses (fun o => ∃ q, o = .isDir q) ∧
      (site.follow p cs).Returns fun x => ∀ q, x = some q → q = cs.foldl into p := by
  induction cs generalizing p with
  | nil => exact ⟨trivial, fun q hq => (Option.some.inj hq).symm⟩
  | cons c rest ih =>
    cases rest with
    | nil => exact ⟨trivial, fun q hq => (Option.some.inj hq).symm⟩
    | cons d rest =>
      obtain ⟨huses, hreturns⟩ := ih (into p c)
      have hlook : (site.pathIsDir (into p c)).Uses fun o => ∃ q, o = .isDir q := by
        unfold pathIsDir
        split
        · exact Prog.uses_call ⟨_, rfl⟩
        · trivial
      refine ⟨Prog.uses_bind hlook fun b => Prog.uses_ite huses trivial, ?_⟩
      refine Prog.returns_after fun b => Prog.returns_ite hreturns ?_
      intro q hq
      cases hq

section Digs

/-- A removal of an entry of the quarantine, or of something in one. -/
def Op.digs : Op → Prop
  | .rmtree p | .unlink p => ∃ n rest, p = quarantineEntry n ++ rest
  | _ => False

/-- What a purge asks for. -/
def Op.purges (o : Op) : Prop :=
  o.digs ∨ (∃ q, o = .isDir q ∨ o = .exists_ q ∨ o = .resolve q) ∨ o = .cachePop

/-- A purge whose name leads inside removes nothing but what is inside. -/
theorem Site.purge_uses {name : String} (h : site.inside name = true) :
    (site.purge name).Uses Op.purges := by
  obtain ⟨hlast, n, rest, hbelow⟩ := Site.inside_cases h
  have hlook : ∀ {o : Op}, (∃ q, o = .isDir q) → o.purges := by
    rintro o ⟨q, rfl⟩
    exact .inr (.inl ⟨q, .inl rfl⟩)
  have hdigs : ∀ {o : Op}, o.digs → o.purges := .inl
  have hremove : (site.remove name (site.leads name)).Uses Op.purges := by
    simp only [remove, pathIsDir, rmtree, unlink, hbelow, hlast]
    refine Prog.uses_bind (Prog.uses_call (hlook ⟨_, rfl⟩)) fun b => Prog.uses_ite ?_ ?_
    · exact Prog.uses_call (hdigs ⟨n, rest, rfl⟩)
    · exact Prog.uses_call (hdigs ⟨n, rest, rfl⟩)
  have hforget : invalidateAuxiliaryCache.Uses Op.purges :=
    Prog.uses_bind (Prog.uses_call (.inr (.inl ⟨_, .inr (.inr rfl)⟩))) fun _ =>
      Prog.uses_call (.inr (.inr rfl))
  obtain ⟨huses, hreturns⟩ := site.follow_looks
    (if isAbsolute name then [] else quarantineDir site.dataRoot) (components name)
  refine Prog.uses_bind_returns (huses.mono fun _ => hlook) hreturns fun x hx => ?_
  cases x with
  | none => trivial
  | some p =>
    obtain rfl : p = site.leads name := hx p rfl
    simp only [pathExists, hbelow]
    refine Prog.uses_bind (Prog.uses_call (.inr (.inl ⟨_, .inr (.inl rfl)⟩))) fun b => ?_
    exact Prog.uses_ite trivial (Prog.uses_bind hremove fun _ => hforget)

/-- What a removal inside the quarantine makes of the state: less of one entry, or nothing. -/
inductive Dug (s : Shared) : Shared → Prop where
  | part {n : String} {rest : Path} {u : Tree} {x : Option Tree} {disk : Disk} {purged : List Nat}
      (found : s.disk.get? (quarantineEntry n ++ rest) = some u)
      (root : disk.root = s.disk.root.set (quarantineEntry n ++ rest) x)
      (left : ∀ t, x = some t → t.wf ∧ t.Shrinks u)
      (mtime : s.disk.mtime quarantineRoot ≤ disk.mtime quarantineRoot) :
      Dug s { s with disk, purged }

theorem Shared.notePurge_with (s : Shared) (p : Path) (disk : Disk) :
    { s.notePurge p with disk } = { s with disk, purged := (s.notePurge p).purged } := by
  unfold Shared.notePurge
  split <;> rfl

theorem exec_digs {o : Op} {c : Choice} {x : Except Exn o.Reply} (hdigs : o.digs)
    (h : exec r o c s = some (x, s')) : s' = s ∨ Dug s s' := by
  have hput : ∀ p n rest u, p = quarantineEntry n ++ rest → s.disk.get? p = some u →
      Dug s { s.notePurge p with disk := s.disk.put p none } := by
    rintro p n rest u rfl hu
    rw [Shared.notePurge_with]
    refine .part hu rfl (by simp) ?_
    unfold Disk.put
    simp only
    split <;> omega
  cases o with
  | rmtree p =>
    obtain ⟨n, rest, hp⟩ := hdigs
    rcases Shared.removing_eq h with rfl | ⟨disk, hdisk, rfl⟩ | ⟨t, disk, hpart, rfl⟩
    · exact .inl rfl
    · obtain ⟨u, hu, rfl⟩ := Disk.rmtree_ok hdisk
      exact .inr (hput p n rest u hp hu)
    · obtain ⟨u, hu, hwf, hshrinks, rfl⟩ := Disk.rmtreePart_some hpart
      subst hp
      rw [Shared.notePurge_with]
      exact .inr (.part hu rfl (fun t ht => Option.some.inj ht ▸ ⟨hwf, hshrinks⟩) (Nat.le_refl _))
  | unlink p =>
    obtain ⟨n, rest, hp⟩ := hdigs
    rcases Shared.removing_eq h with rfl | ⟨disk, hdisk, rfl⟩ | ⟨t, disk, hpart, rfl⟩
    · exact .inl rfl
    · obtain ⟨u, hu, rfl⟩ := Disk.unlink_ok hdisk
      exact .inr (hput p n rest u hp hu)
    · cases hpart
  | _ => exact hdigs.elim

namespace Dug

/-- What is not in the quarantine is as it was. -/
theorem elsewhere (h : Dug s s') {m : String} (q : Path) (hm : m ≠ "quarantine") :
    s'.disk.get? (m :: q) = s.disk.get? (m :: q) := by
  cases h with
  | part found root left mtime =>
    refine Disk.get?_of_set root ?_
    simp [quarantineEntry, hm]

theorem shrunk (h : Dug s s') : s.disk.Shrunk s'.disk := by
  cases h with
  | @part n rest u x disk purged found root left mtime =>
    intro q u' hu'
    have hless : disk.root.Shrinks s.disk.root := by
      rw [root]
      exact Tree.Shrinks.set (by simp [quarantineEntry]) found fun t ht => (left t ht).2
    exact hless _ u' hu'

theorem diskOk (hok : DiskOk s.db s.disk) (h : Dug s s') : DiskOk s'.db s'.disk := by
  cases h with
  | @part n rest u x disk purged found root left mtime =>
    have hroot : disk.root = s.disk.root.set ("quarantine" :: n :: rest) x := root
    exact hok.set hroot (fun t ht => (left t ht).1) (by simp)

theorem inv (hinv : Inv .any s) (h : Dug s s') : Inv .any s' := by
  have hok := h.diskOk hinv.disk
  have hle : s'.disk.bytesAt quarantineRoot ≤ s.disk.bytesAt quarantineRoot :=
    h.shrunk.bytes_le (hinv.disk.dirs _ (by simp [layout])) (hok.dirs _ (by simp [layout]))
      hinv.disk.wf hok.wf
  have htrash : ∀ oid, s'.disk.get? (trashPath oid) = s.disk.get? (trashPath oid) :=
    fun oid => h.elsewhere _ (by decide)
  cases h with
  | part found root left mtime =>
    refine ⟨hinv.db, hok, ⟨hinv.tasks.nodup, hinv.tasks.bound, hinv.tasks.rows, hinv.tasks.down⟩,
      ⟨hinv.runners.msPath, hinv.runners.rows, hinv.runners.nodup, hinv.runners.observing,
        hinv.runners.live⟩, fun e he => ?_, fun oid o ho hopen => ?_, fun hcalm => ?_⟩
    · refine (hinv.cache e he).kept ?_
      rcases Nat.lt_or_eq_of_le mtime with hlt | heq
      · exact .inl hlt
      · exact .inr ⟨heq.symm, hle⟩
    · exact (htrash oid).trans (hinv.trash oid o ho hopen)
    · exact absurd rfl hcalm

theorem quiet (h : Dug s s') : Quiet .any s s' := by
  have hshrunk := h.shrunk
  cases h with
  | part found root left mtime =>
    exact ⟨.refl _, rfl, .refl _, id, hshrunk, mtime, fun hcalm => absurd rfl hcalm,
      fun hcalm => absurd rfl hcalm, fun hcalm => absurd rfl hcalm⟩

theorem onward (h : Dug s s') : Onward .any s s' := by
  cases h with
  | part => exact ⟨.refl _, List.Subset.refl _, fun hcalm => absurd rfl hcalm,
      fun hcalm => absurd rfl hcalm⟩

end Dug

end Digs

section Logic

/-- The logic of the system, for the command line whose purges stay inside: a command may
also dig in the quarantine. -/
def insideLogic (site : Site) : Logic (shell site) where
  inv := Inv .any
  okRun _ _ _ _ := True
  okEnv _ _ := True
  okEnter _ n _ := ∀ name, n = .command (.purge name) → site.inside name = true
  allowed r o s := allowed .any r s o ∨ (r = .cli ∧ o.digs)
  rely := (discipline .any).rely
  pre r n s := pre r n s ∧ ∀ name, n = .command (.purge name) → site.inside name = true
  registered := registered

theorem inside_exec {o : Op} {c : Choice} {x : Except Exn o.Reply} (hinv : Inv .any s)
    (hallowed : (insideLogic site).allowed r o s) (h : exec r o c s = some (x, s')) :
    Step .any r s s' ∨ (r = .cli ∧ Dug s s') := by
  rcases hallowed with hallowed | ⟨hcli, hdigs⟩
  · exact .inl (exec_step hinv hallowed h)
  · rcases exec_digs hdigs h with rfl | hdug
    · exact .inl .stay
    · exact .inr ⟨hcli, hdug⟩

theorem inside_inv (hinv : Inv .any s) (h : Step .any r s s' ∨ (r = .cli ∧ Dug s s')) :
    Inv .any s' := by
  rcases h with hstep | ⟨_, hdug⟩
  · exact hstep.inv hinv
  · exact hdug.inv hinv

theorem inside_quiet (hinv : Inv .any s) (h : Step .any .cli s s' ∨ (Role.cli = .cli ∧ Dug s s')) :
    Onward .any s s' ∧ Quiet .any s s' := by
  rcases h with hstep | ⟨_, hdug⟩
  · exact ⟨hstep.onward hinv, hstep.quiet hinv⟩
  · exact ⟨hdug.onward, hdug.quiet⟩

/-- What the logic of the system has verified stays verified where more is allowed. -/
theorem wp_inside {α : Type} {p : M α} {Q : Except Exn α → Shared → Prop}
    (h : (discipline .any).wp r p Q s) : (insideLogic site).wp r p Q s := by
  induction p generalizing s with
  | ret x => exact h
  | op o next ih =>
    intro s₁ hrely hinv c _
    obtain ⟨hallowed, hnext⟩ := h s₁ hrely hinv c ⟨by simp, by simp⟩
    exact ⟨.inl hallowed, fun x s₂ hx hinv' => ih x (hnext x s₂ hx hinv')⟩

/-- A program that only asks for what may be done at any time is verified. -/
theorem wp_uses {α : Type} {p : M α} {φ : Op → Prop} (hp : p.Uses φ)
    (hφ : ∀ o s, φ o → (insideLogic site).allowed r o s) :
    (insideLogic site).wp r p (fun _ _ => True) s := by
  induction p generalizing s with
  | ret x => trivial
  | op o next ih => exact fun s₁ _ _ c _ => ⟨hφ o s₁ hp.1, fun x s₂ _ _ => ih x (hp.2 x)⟩

theorem inside_code {n : Entry} (hinv : Inv .any s) (h : (insideLogic site).pre r n s) :
    (insideLogic site).wp r (site.code n) ((insideLogic site).post r) s := by
  obtain ⟨hpre, hinside⟩ := h
  have hnone : ∀ {p : M Unit} {s : Shared}, (insideLogic site).wp .cli p (fun _ _ => True) s →
      (insideLogic site).wp .cli (p.bind fun _ => .ret (.ok none))
        ((insideLogic site).post .cli) s := by
    intro p s h
    refine Logic.wp_bind (Logic.wp_mono ?_ h)
    rintro (e | a) t -
    · trivial
    · trivial
  have hpost : ∀ {x : Except Exn (Option Entry)} {t : Shared}, r ≠ .cli →
      (discipline .any).post r x t → (insideLogic site).post r x t := by
    intro x t hr hx
    rcases x with e | (_ | m)
    · trivial
    · trivial
    · refine ⟨hx, fun name hm => ?_⟩
      subst hm
      cases r with
      | cli => exact absurd rfl hr
      | main | observe | process => exact hx.elim
  cases r with
  | cli =>
    cases n with
    | command c =>
      cases c with
      | purge name =>
        refine hnone (wp_uses (Site.purge_uses (hinside name rfl)) ?_)
        rintro o t (hdigs | ⟨q, rfl | rfl | rfl⟩ | rfl)
        · exact .inr ⟨rfl, hdigs⟩
        all_goals exact .inl trivial
      | accept | reprocess | discard | resolve =>
        exact hnone (wp_inside (Logic.wp_mono (fun _ _ _ => trivial) (command_rule _ s hinv hpre)))
    | _ => exact hpre.elim
  | main | observe | process =>
    have hcode : site.code n = n.code := by
      cases n with
      | command => exact hpre.elim
      | _ => rfl
    rw [hcode]
    exact wp_inside (Logic.wp_mono (fun x t hx => hpost (by simp) hx) (entry_code hinv hpre))

/-- The logic is sound: with names that lead inside, the machine of the whole command line
keeps the invariant of the system, and every process keeps to what the others rely on. -/
theorem inside_sound (site : Site) : (insideLogic site).Sound where
  rely_refl := (sound .any).rely_refl
  rely_trans := (sound .any).rely_trans
  rely_open := (sound .any).rely_open
  inv_run hinv _ hallowed hexec := inside_inv hinv (inside_exec hinv hallowed hexec)
  guar_coop {r r' o c s x s'} hcoop hne hinv _ _ hallowed hexec := by
    rcases inside_exec hinv hallowed hexec with hstep | ⟨hcli, _⟩
    · exact ⟨hstep.onward hinv, fun _ => hstep.keeps hinv hne, by simp⟩
    · simp [shell, system, hcli] at hcoop
  guar_free {r r' o c s x s'} hcoop hinv _ _ hallowed hexec := by
    have hcli : r = .cli := by simpa [shell, system] using hcoop
    subst hcli
    obtain ⟨honward, hquiet⟩ := inside_quiet hinv (inside_exec hinv hallowed hexec)
    exact ⟨honward, fun _ => hquiet.keeps, fun _ => hquiet⟩
  inv_env hinv _ h := env_inv hinv (fun hcalm => absurd rfl hcalm) h
  guar_env {e r s s'} hinv _ h := by
    have hquiet := env_quiet (T := .any) hinv (fun hcalm => absurd rfl hcalm) h
    exact ⟨env_onward hinv (fun hcalm => absurd rfl hcalm) h, fun _ => hquiet.keeps, fun _ => hquiet⟩
  inv_enter hinv _ h := enter_inv hinv h
  pre_enter _ hok h := ⟨enter_pre h, hok⟩
  guar_enter {r r' n s s'} hcoop hinv _ h := by
    have hcli : r = .cli := by simpa [shell, system] using hcoop
    subst hcli
    exact ⟨enter_onward h, fun _ => (enter_quiet (T := .any) h).keeps, fun _ => enter_quiet h⟩
  guar_boot {r r' n s s'} hcoop _ _ h := by
    have hcli : r' = .cli := by simpa [shell, system] using hcoop
    exact ⟨enter_onward h, fun hne => absurd hcli hne, by simp⟩
  inv_down := (sound .any).inv_down
  guar_down := (sound .any).guar_down
  registered_run {r r' o c s x s'} hreg hinv _ hallowed hexec := by
    rcases inside_exec hinv hallowed hexec with hstep | ⟨_, hdug⟩
    · exact hstep.registered hreg
    · exact registered_congr hdug.quiet.ctl hreg
  registered_env := (sound .any).registered_env
  registered_enter {r r' n s s'} hreg h hcoop := by
    have hcli : r' = .cli := by simpa [shell, system] using hcoop
    subst hcli
    exact registered_congr (enter_quiet (T := .any) h).ctl hreg
  boot {r n s s'} hcoop h := by
    cases enter_cases h with
    | boot down =>
      exact ⟨fun r' hreg => Bool.false_ne_true (down.symm.trans (registered_up hreg)), rfl⟩
    | resolve | command => cases hcoop
  spawn {r o c s x s' r' n} hinv _ hallowed hexec h := by
    rcases hallowed with hallowed | ⟨_, hdigs⟩
    · obtain ⟨hfresh, hreg, hpre⟩ := spawn_pre hinv hallowed hexec h
      refine ⟨hfresh, hreg, hpre, fun name hn => ?_⟩
      subst hn
      cases o <;> cases h
    · cases o <;> first | exact hdigs.elim | cases h
  code := inside_code

variable {w : World Op.Reply Exn Shared Role Entry}

/-- The invariant of the system holds in every state that the command line can bring about
with names that lead inside. -/
theorem inside_holds (h : (shell site).Reach (InsideNames site) start w) :
    (insideLogic site).Holds w := by
  refine (inside_sound site).reach (.start (inv_initial .any)) (h.mono fun v l hok => ?_)
  cases l with
  | run => exact fun _ _ _ _ _ => trivial
  | enter r n => exact fun name hn => hok r name (by rw [hn])
  | env | stop | crash => trivial

end Logic

end Sdpctl
