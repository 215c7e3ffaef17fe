import Sdpctl.Deletion.Diagnosis

/-!
The diagnosis of a wedged deletion, while deletions and operators run side by side.
It says that both copies exist, and draws on two tests at two times; it is true as
long as nobody moves the data between them.
-/

namespace Sdpctl

open FileTree Coop

/-- What runs side by side: the deletions of a restart, and the commands that delete. -/
inductive DeletionPeer : M Unit → Prop where
  | restart : DeletionPeer deletionPhase
  | accept (rid : Nat) (note : String) : DeletionPeer (Command.accept rid note).body
  | discard (rid : Nat) (note : String) : DeletionPeer (Command.discard rid note).body
  | resolve (oid : Nat) : DeletionPeer (Command.resolve oid).body

theorem DeletionPeer.informed {p : M Unit} (h : DeletionPeer p) (g : Seen) :
    p.Informed wedge g := by
  cases h with
  | restart => exact deletionPhase_informed g
  | accept rid note => exact accept_informed rid note g
  | discard rid note => exact discard_informed rid note g
  | resolve oid => exact drop_informed oid _ g

/-- The programs, and the state that they share. -/
abbrev Peers (ι : Type) := Pool Op.Reply Exn Unit ι Shared

variable {ι : Type} [DecidableEq ι] {role : ι → Role} {init w w' : Peers ι} {oid : Nat}

/-- An operation of one of them, however it comes out. -/
def beside (role : ι → Role) (i : ι) : (o : Op) → Shared → Except Exn o.Reply → Shared → Prop :=
  (anyhow (role i)).does

/-- Nobody moves the data of an observation to the trash while another is about to
look there. -/
def Undisturbed (w : Peers ι) (i : ι) (w' : Peers ι) : Prop :=
  ∀ oid, w.shared.disk.has (trashPath oid) = false → w'.shared.disk.has (trashPath oid) = true →
    ∀ j, j ≠ i → ∀ next, w.code j ≠ .op (.exists_ (trashPath oid)) next

/-- On the way from `init` to `w` there was an instant at which both copies existed. -/
def BothOnce (role : ι → Role) (ok : Peers ι → ι → Peers ι → Prop) (init w : Peers ι)
    (oid : Nat) : Prop :=
  ∃ u, Pool.Reach (beside role) ok init u ∧ Pool.Reach (beside role) ok u w ∧
    u.shared.disk.has (msPathOf oid) = true ∧ u.shared.disk.has (trashPath oid) = true

/-- The program is about to say that both copies exist: it raises that, or writes it
on the row. -/
def Diagnoses (oid : Nat) : M Unit → Prop
  | .ret (.error e) => e = bothCopies oid
  | .op o _ => o.notes = some (oid, wedgeDiagnosis oid)
  | _ => False

variable {ok : Peers ι → ι → Peers ι → Prop}

theorem BothOnce.step {i : ι} (h : BothOnce role ok init w oid)
    (hstep : Pool.Step (beside role) w i w') (hok : ok w i w') : BothOnce role ok init w' oid := by
  obtain ⟨u, hinit, hrest, hboth⟩ := h
  exact ⟨u, hinit, hrest.step hstep hok, hboth⟩

/-- What the knowledge of the programs says: who has seen both copies is right, who has
just seen the live copy would find the other one only if it is right, and so is what
stands on the rows. -/
structure Told (role : ι → Role) (ok : Peers ι → ι → Peers ι → Prop) (init w : Peers ι)
    (know : ι → Seen) : Prop where
  ids : w.shared.db.Ids
  named : w.shared.db.Named
  both : ∀ i oid, (know i).both oid → BothOnce role ok init w oid
  live : ∀ i oid next, w.code i = .op (.exists_ (trashPath oid)) next → (know i).live oid →
    w.shared.disk.has (trashPath oid) = true → BothOnce role ok init w oid
  rows : ∀ oid o, w.shared.db.obs? oid = some o → o.error = some (wedgeDiagnosis oid) →
    (∃ o₀, init.shared.db.obs? oid = some o₀ ∧ o₀.error = o.error) ∨
      BothOnce role ok init w oid

theorem exists_found {r : Role} {c : Choice} {p : Path} {s t : Shared}
    (h : exec r (.exists_ p) c s = some (.ok true, t)) : s.disk.has p = true ∧ t = s := by
  refine ⟨?_, Shared.reading_eq h⟩
  simp only [exec, Shared.reading] at h
  split at h
  · simp only [Option.some.injEq, Prod.mk.injEq, Except.ok.injEq] at h
    exact h.1
  · cases h
  · cases h

theorem reads_named {r : Role} {c : Choice} {o : Op} {s t : Shared} {x : Except Exn o.Reply}
    (named : s.db.Named) (h : exec r o c s = some (x, t)) : ReadsNamed o x := by
  cases o with
  | db q =>
    cases q with
    | getObservation id =>
      cases x with
      | error e => trivial
      | ok o =>
        rcases Shared.query_cases h with ⟨y, db, hrun, hy, _⟩ | ⟨e, he, _⟩
        · cases hy
          have ho := (getObservation_ok hrun).1
          have hpath := named id o ho
          rw [← (Db.mem_of_obs? ho).2] at hpath
          exact hpath
        · cases he
    | _ => exact True.intro
  | _ => exact True.intro

theorem error_written {r : Role} {c : Choice} {o : Op} {s t : Shared} {x : Except Exn o.Reply}
    (ids : s.db.Ids) (h : exec r o c s = some (x, t)) {row : Observation} {m : String}
    (hrow : t.db.obs? oid = some row) (hm : row.error = some m) :
    (∃ before, s.db.obs? oid = some before ∧ before.error = some m) ∨ o.notes = some (oid, m) := by
  rcases (exec_framed h).db with hdb | ⟨q, y, db, rfl, _, hrun, rfl⟩
  · exact .inl ⟨row, hdb ▸ hrow, hm⟩
  · have hchange := (Db.Call.of_run ids hrun).obsChange ids hrow
    cases hbefore : s.db.obs? oid with
    | none =>
      rw [hbefore] at hchange
      cases hchange with
      | created call new =>
        rw [new] at hm
        cases hm
    | some before =>
      rw [hbefore] at hchange
      cases hchange with
      | same => exact .inl ⟨_, rfl, hm⟩
      | @moved _ expected new reason size reserved error call legal was =>
        cases error with
        | none => exact .inl ⟨_, rfl, hm⟩
        | some text =>
          cases hm
          exact .inr (by rw [call]; rfl)
      | @forced _ reserved error call =>
        cases error with
        | none => exact .inl ⟨_, rfl, hm⟩
        | some text =>
          cases hm
          exact .inr (by rw [call]; rfl)
      | released => exact .inl ⟨_, rfl, hm⟩

theorem learn_both {g : Seen} {o : Op} {x : Except Exn o.Reply} (h : (g.learn o x).both oid) :
    g.both oid ∨ ∃ p, (∃ hp : o = .exists_ p, hp ▸ x = .ok true) ∧ p = trashPath oid ∧
      g.live oid := by
  unfold Seen.learn at h
  split at h
  · rename_i p
    exact h.imp_right fun h => ⟨p, ⟨rfl, rfl⟩, h⟩
  · exact .inl h

theorem learn_live {g : Seen} {o : Op} {x : Except Exn o.Reply} (h : (g.learn o x).live oid) :
    ∃ p, (∃ hp : o = .exists_ p, hp ▸ x = .ok true) ∧ p = msPathOf oid := by
  unfold Seen.learn at h
  split at h
  · rename_i p
    exact ⟨p, ⟨rfl, rfl⟩, h⟩
  · exact h.elim

/-- One operation of one program leaves everybody right about what they have seen. -/
theorem Told.step {know : ι → Seen} {i : ι} {o : Op} {next : Except Exn o.Reply → M Unit}
    {x : Except Exn o.Reply} {t : Shared} (h : Told role ok init w know)
    (hreach : Pool.Reach (beside role) ok init w) (hcode : w.code i = .op o next)
    (hfine : wedge.fine (know i) o) (hdoes : beside role i o w.shared x t)
    (hok : ok w i { code := Function.update w.code i (next x), shared := t })
    (hcalm : Undisturbed w i { code := Function.update w.code i (next x), shared := t }) :
    wedge.can o x ∧ Told role ok init { code := Function.update w.code i (next x), shared := t }
      (Function.update know i ((know i).learn o x)) := by
  have hstep : Pool.Step (beside role) w i _ := .op hcode hdoes
  have hlast := hreach.step hstep hok
  obtain ⟨c, hexec⟩ := hdoes
  have hids : t.db.Ids ∧ t.db.Named := by
    rcases (exec_framed hexec).db with hdb | ⟨q, y, db, _, _, hrun, rfl⟩
    · exact hdb ▸ ⟨h.ids, h.named⟩
    · have hcall := Db.Call.of_run h.ids hrun
      exact ⟨hcall.ids h.ids, hcall.named h.ids h.named⟩
  have htame : ∀ e, x = .error e → e.Tame := by
    rintro e rfl
    exact exec_tame hfine.1 hexec
  refine ⟨⟨htame, reads_named h.named hexec⟩, hids.1, hids.2, ?_, ?_, ?_⟩
  · intro j oid hboth
    by_cases hj : j = i
    · subst hj
      rw [Function.update_self] at hboth
      rcases learn_both hboth with hbefore | ⟨_, ⟨rfl, rfl⟩, rfl, hlive⟩
      · exact (h.both j oid hbefore).step hstep hok
      · obtain ⟨hhas, _⟩ := exists_found hexec
        exact (h.live j oid next hcode hlive hhas).step hstep hok
    · rw [Function.update_of_ne hj] at hboth
      exact (h.both j oid hboth).step hstep hok
  · intro j oid rest hat hlive hhas
    by_cases hj : j = i
    · subst hj
      rw [Function.update_self] at hlive
      obtain ⟨_, ⟨rfl, rfl⟩, rfl⟩ := learn_live hlive
      obtain ⟨hthere, rfl⟩ := exists_found hexec
      exact ⟨_, hlast, .start, hthere, hhas⟩
    · simp only [Function.update_of_ne hj] at hat hlive
      cases hbefore : w.shared.disk.has (trashPath oid) with
      | true => exact (h.live j oid rest hat hlive hbefore).step hstep hok
      | false => exact absurd hat (hcalm oid hbefore hhas j hj rest)
  · intro oid row hrow herror
    rcases error_written h.ids hexec hrow herror with ⟨before, hbefore, hsame⟩ | hnotes
    · rcases h.rows oid before hbefore hsame with ⟨o₀, ho₀, herror₀⟩ | honce
      · exact .inl ⟨o₀, ho₀, herror₀.trans (hsame.trans herror.symm)⟩
      · exact .inr (honce.step hstep hok)
    · exact .inr ((h.both i oid (hfine.2 oid _ hnotes rfl)).step hstep hok)

/-- Deletions, accepts, discards and drops side by side, in any order of their
operations and however these come out. In a run in which nobody moves the data of an
observation to the trash while another is about to look there, a program that says
that both copies exist is right, at one instant of the run they did, and so is what
stands on a row and did not stand there before. An observation of which there never
were both copies does not carry it, however it ends. -/
theorem diagnosis_truthful (hpeers : ∀ i, DeletionPeer (init.code i)) (ids : init.shared.db.Ids)
    (named : init.shared.db.Named) (hok : ∀ w i w', ok w i w' → Undisturbed w i w')
    (h : Pool.Reach (beside role) ok init w) :
    (∀ i oid, Diagnoses oid (w.code i) → BothOnce role ok init w oid) ∧
      ∀ oid o, w.shared.db.obs? oid = some o → o.error = some (wedgeDiagnosis oid) →
        (∃ o₀, init.shared.db.obs? oid = some o₀ ∧ o₀.error = o.error) ∨
          BothOnce role ok init w oid := by
  have hstart : Told role ok init init fun _ => ⟨fun _ => False, fun _ => False⟩ :=
    ⟨ids, named, fun _ _ hboth => hboth.elim, fun _ _ _ _ hlive => hlive.elim,
      fun _ o ho _ => .inl ⟨o, ho, rfl⟩⟩
  obtain ⟨know, htold, hinformed⟩ := h.informed (L := wedge) (Told role ok init) hstart
    (fun i => (hpeers i).informed _)
    fun w know i o next x t hreach htold hcode hfine hdoes hlawful =>
      htold.step hreach hcode hfine hdoes hlawful (hok _ _ _ hlawful)
  refine ⟨fun i oid hdiagnoses => ?_, htold.rows⟩
  have hcode := hinformed i
  cases hp : w.code i with
  | ret x =>
    rw [hp] at hdiagnoses hcode
    cases x with
    | ok a => exact hdiagnoses.elim
    | error e =>
      obtain rfl : e = bothCopies oid := hdiagnoses
      exact htold.both i oid (hcode oid rfl)
  | op o next =>
    rw [hp] at hdiagnoses hcode
    exact htold.both i oid (hcode.1.2 oid _ hdiagnoses rfl)

/-- An observation of which there are two copies. -/
def twoCopies : Shared :=
  { oneDeleting with disk := { oneDeleting.disk with
      root := oneDeleting.disk.root.set (msPathOf 1) (some (.dir 3 [])) } }

/-- Both copies of the first observation exist. A restart finds them and says so on the row, and
at one instant of the run they both existed. -/
theorem diagnosis_truthful_wedged : ∃ w : Peers Unit,
    Pool.Reach (beside fun _ => .main) Undisturbed
      { code := fun _ => deletionPhase, shared := twoCopies } w ∧
    (∃ o, w.shared.db.obs? 1 = some o ∧ o.error = some (wedgeDiagnosis 1)) ∧
    BothOnce (fun _ => .main) Undisturbed { code := fun _ => deletionPhase, shared := twoCopies }
      w 1 := by
  have hrun : ((follow .main (List.replicate 7 .ok) deletionPhase twoCopies).bind ended).any
      (fun r => (r.2.db.obs? 1).any fun o => o.error = some (wedgeDiagnosis 1)) = true := by
    decide +kernel
  obtain ⟨x, t, hruns, htest⟩ := runs_of_ended (R := (anyhow .main).does)
    (fun _ _ _ _ c _ h => ⟨c, h⟩) hrun
  obtain ⟨o, ho, herror⟩ := (Option.any_eq_true _ _).mp htest
  have hreach : Pool.Reach (beside fun _ : Unit => .main) Undisturbed
      { code := fun _ => deletionPhase, shared := twoCopies } _ :=
    Pool.Reach.runs (i := ()) (fun _ _ _ _ _ j hj => absurd rfl hj) hruns
  have hids : twoCopies.db.Ids := ⟨by decide, by decide, by decide, by decide⟩
  have hnamed : twoCopies.db.Named := by
    intro i b hb
    obtain ⟨hmem, rfl⟩ := Db.mem_of_obs? hb
    rw [List.mem_singleton.mp hmem]
  obtain ⟨_, hrows⟩ := diagnosis_truthful (fun _ => .restart) hids hnamed
    (fun _ _ _ h => h) hreach
  refine ⟨_, hreach, ⟨o, ho, of_decide_eq_true herror⟩, ?_⟩
  rcases hrows 1 o ho (of_decide_eq_true herror) with ⟨o₀, ho₀, hsame⟩ | honce
  · cases ho₀
    rw [of_decide_eq_true herror] at hsame
    cases hsame
  · exact honce

/-- A stored observation whose product awaits its verdict. -/
def oneReviewed : Shared :=
  { initial with
    db := { Db.empty with
      observations := [{ id := 1, state := .stored, msPath := msPathOf 1, sizeBytes := 3,
                         reservedBytes := 0, error := none }]
      processingRuns := [{ id := 1, observationId := 1, attempt := 1, state := .awaitingQa,
                           outputPrefix := outputDir 1 1 ++ ["product"], logPath := processLog 1 1,
                           exitCode := some 0, qaVerdict := none, qaNote := none,
                           retryExhausted := false }]
      obsSeq := 1
      runSeq := 1 }
    disk := { initial.disk with
      root := initial.disk.root.set (msPathOf 1) (some (.dir 1 [("table", .file 2 [7, 7, 7])])) } }

/-- A restart that completes deletions, and an accept. -/
def restartAndAccept (b : Bool) : M Unit :=
  if b then deletionPhase else (Command.accept 1 "fine").body

/-- Both copies of the first observation exist. -/
def bothNow (w : Peers Bool) : Bool :=
  w.shared.disk.has (msPathOf 1) && w.shared.disk.has (trashPath 1)

/-- The restart sees the live copy, the accept moves it to the trash, and the restart
sees it there: at no instant are there two copies, and the deletion is completed, but
its row says that there are. -/
theorem diagnosis_deceived : (∀ b, DeletionPeer (restartAndAccept b)) ∧
    ∃ w : Peers Bool, Pool.Reach (beside fun b => if b then .main else .cli)
      (fun w _ w' => (!bothNow w) = true ∧ (!bothNow w') = true)
      { code := restartAndAccept, shared := oneReviewed } w ∧
    ∃ o, w.shared.db.obs? 1 = some o ∧ o.state = .deleted ∧ o.error = some (wedgeDiagnosis 1) := by
  have hrun : (Pool.replay (fun b => exec (if b then .main else .cli)) (fun w => !bothNow w)
      (List.replicate 9 (false, .ok) ++ List.replicate 4 (true, .ok) ++ [(false, .ok)] ++
        List.replicate 3 (true, .ok) ++ List.replicate 8 (false, .ok))
      { code := restartAndAccept, shared := oneReviewed }).any
        (fun w => (w.shared.db.obs? 1).any fun o =>
          o.state = .deleted && o.error = some (wedgeDiagnosis 1)) = true := by
    decide +kernel
  obtain ⟨w, hreplay, htest⟩ := (Option.any_eq_true _ _).mp hrun
  obtain ⟨o, ho, htest⟩ := (Option.any_eq_true _ _).mp htest
  obtain ⟨hstate, herror⟩ := Bool.and_eq_true_iff.mp htest
  refine ⟨fun b => ?_, w, Pool.Reach.replay hreplay, o, ho, of_decide_eq_true hstate,
    of_decide_eq_true herror⟩
  cases b with
  | true => exact .restart
  | false => exact .accept 1 "fine"

end Sdpctl
