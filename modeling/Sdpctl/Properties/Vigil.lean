import Sdpctl.Coop.Confined
import Sdpctl.Coop.Phases
import Sdpctl.Programs.Footprint
import Sdpctl.Properties.RunChain

/-!
How a worker of an observation comes to complete it. It starts one runner, waits for
this one, and goes on to the completion only when the runner has returned zero. What
the runner had left under `observations/` when it returned is still there when the row
becomes `STORED`: the row is `OBSERVING` all the while, and whoever else moves its data
first takes the row out of this state.
-/

namespace Sdpctl

open FileTree Coop

variable {T : Terms} {r : Role} {s s' : Shared} {db' : Db}

def Query.completes (oid : Nat) : Query → Bool
  | .transitionObservation i .observing .stored _ _ _ _ => i == oid
  | _ => false

/-- The vigil of a worker over its runner: the runner is not started, is awaited under a
handle, or has returned zero; or the vigil is past, whatever the worker still does. -/
inductive Vigil where
  | fresh
  | watching (handle : Nat)
  | delivered
  | past
  deriving DecidableEq

/-- Looks at the tree and notes in the event log keep the vigil; every other method of the
store ends it, but before the start. -/
def Vigil.turn (g : Vigil) : (o : Op) → Except Exn o.Reply → Vigil
  | .startObserve _ _ _, .ok handle => .watching handle
  | .runnerResult _, .ok rc => if rc = 0 then .delivered else .past
  | .db (.recordEvent _ _ _), _ => g
  | .db _, _ => if g = .fresh then .fresh else .past
  | o, _ => if o.still then g else .past

/-- A worker starts one runner, asks for the result of this one, and completes its
observation only after a zero. -/
def vigils : Script Op.Reply Exn Vigil where
  turn := Vigil.turn
  may g o :=
    match o with
    | .startObserve _ _ _ => g = .fresh
    | .runnerResult handle => g = .watching handle
    | .db (.transitionObservation _ .observing .stored _ _ _ _) => g = .delivered
    | _ => True
  can _ _ _ := True

def bystanding : Script Op.Reply Exn Vigil where
  turn g _ _ := g
  may _ _ := True
  can _ _ _ := True

/-- Only the workers of observations keep a vigil. What such a worker hands on to its next
turn is the watch over the runner that it has started. -/
def vigilPlay : Play Op Op.Reply Exn Vigil Role Entry where
  script
    | .observe _ _ => vigils
    | _ => bystanding
  begins r n g :=
    match r with
    | .observe _ _ => (∃ cfg task oid, n = .observe cfg task oid) ∧ g = .fresh
    | _ => g = .past
  again r n g :=
    match r with
    | .observe _ _ => ∃ cfg task oid handle msPath warned,
        n = .watch cfg task oid handle msPath warned ∧ g = .watching handle
    | _ => g = .past
  ends _ g _ := g = .past
  dead := .past

section Script

variable {g : Vigil} {task oid handle : Nat}

theorem retires_tracks {α : Type} {p : M α} (hp : p.Uses Op.retires) (g : Vigil) :
    p.Tracks vigils (fun _ _ => True) g := by
  refine Prog.Tracks.uses (Γ := fun _ => True) hp (fun g o _ ho => ⟨?_, fun _ _ => trivial⟩)
    trivial
  cases o with
  | db q =>
    cases q with
    | transitionObservation i expected new reason size reserved error =>
      obtain rfl : new = .observeFailed := ho
      cases expected <;> exact trivial
    | _ => exact trivial
  | _ => first | exact trivial | exact ho.elim

theorem apparentSize_tracks (p : Path) (hg : g ≠ .fresh) :
    (apparentSize p).Tracks vigils (fun _ g' => g' = g) g := by
  refine Prog.Tracks.uses (Γ := (· = g)) (apparentSize_walks p) (fun g' o hg' ho => ?_) rfl
  subst hg'
  cases o <;> first | exact ⟨trivial, fun _ _ => rfl⟩ | exact ho.elim

/-- What a turn of a worker hands over: nothing, or the watch over its runner. -/
def HandsOn (x : Except Exn (Option Entry)) (g : Vigil) : Prop :=
  ∀ n, x = .ok (some n) → ∃ cfg task oid handle msPath warned,
    n = .watch cfg task oid handle msPath warned ∧ g = .watching handle

theorem observeGuard_tracks {next : Option Nat} {body : M (Option Entry)}
    (hbody : body.Tracks vigils (fun x g => ∀ a, x = .ok a → HandsOn x g) g) :
    (observeGuard oid next body).Tracks vigils HandsOn g := by
  refine .catchAll hbody (fun a g h => h a rfl) fun e g _ => ?_
  have hnone : (do
      stopObservationRunner oid next
      failObservation oid "observation worker raised exception" e.repr
      return none : M (Option Entry)).Returns (· = none) :=
    Prog.returns_after fun _ => Prog.returns_after fun _ => rfl
  refine ((retires_tracks (observeHandler_retires oid next _ _) g).returns hnone).mono ?_
  rintro x g' ⟨-, hx⟩ n rfl
  cases hx _ rfl

theorem endTask_tracks {id : Nat} {body : M (Option Entry)}
    (hbody : body.Tracks vigils HandsOn g) :
    (endTask id body).Tracks vigils (vigilPlay.post (.observe task oid)) g := by
  refine Prog.Tracks.bind (P := fun x g => match x with
      | .ok _ => HandsOn x g
      | .error _ => g = .past)
    (.catchAll hbody (fun a g h => h) fun e g _ => ?_) (fun next g h => ?_) fun e g h => h
  · exact .call trivial (fun _ _ => rfl) fun _ _ => rfl
  · cases next with
    | none => exact .call trivial (fun _ _ => rfl) fun _ _ => rfl
    | some n => exact h n rfl

theorem observeStart_vigil (cfg : Config) (task oid : Nat) :
    (observeStart cfg task oid).Tracks vigils (fun x g => ∀ a, x = .ok a → HandsOn x g)
      .fresh := by
  have hclaim : (claimObservation oid).Tracks vigils (fun _ g => g = .fresh) .fresh := by
    refine .catchAll (P := fun _ g => g = .fresh) ?_ (fun _ _ h => h) fun e g h => ?_
    · exact .call trivial (fun _ _ => rfl) fun _ _ => rfl
    · cases e <;> exact h
  refine .call trivial (fun _ _ => ?_) (by simp)
  refine .bind hclaim (fun b g hg => ?_) (by simp)
  subst hg
  refine .ite (fun _ => ?_) fun _ => by rintro a - n ⟨⟩
  refine .call trivial (fun obs _ => ?_) (by simp)
  refine .call rfl (fun handle _ => ?_) (by simp)
  rintro a - n ⟨⟩
  exact ⟨cfg, task, oid, handle, _, false, rfl, rfl⟩

/-- After its loop a worker completes the observation only after a zero. -/
theorem observeFinish_tracks (cfg : Config) (msPath : Path) :
    (observeFinish cfg oid handle msPath).Tracks vigils (fun _ _ => True) (.watching handle) := by
  refine .call rfl (fun rc _ => ?_) fun _ _ => trivial
  refine .ite (fun _ => retires_tracks (failObserving_retires _ _ _ _ _) _) fun hrc => ?_
  have hzero : vigils.turn (.watching handle) (.runnerResult handle) (.ok rc) = .delivered :=
    if_pos (not_ne_iff.mp hrc)
  rw [hzero]
  refine .bind (apparentSize_tracks msPath (by simp)) (fun actual g hg => ?_) fun _ _ _ => trivial
  subst hg
  have hcomplete : (store (.transitionObservation oid .observing .stored "observation completed"
      (some actual) (some 0) none)).Tracks vigils (fun _ _ => True) .delivered :=
    ⟨rfl, fun _ _ => trivial⟩
  refine .ite (fun _ => hcomplete) fun _ => .ite (fun _ =>
    retires_tracks (failObserving_retires _ _ _ _ _) _) fun _ => ?_
  exact .call trivial (fun _ _ => hcomplete) fun _ _ => trivial

theorem watchTurn_tracks (cfg : Config) (task oid handle : Nat) (msPath : Path) (warned : Bool) :
    (watchTurn cfg task oid handle msPath warned).Tracks vigils
      (fun x g => ∀ a, x = .ok a → HandsOn x g) (.watching handle) := by
  have hnone : ∀ g, HandsOn (.ok none) g := by
    rintro g n ⟨⟩
  have hagain : ∀ warned, HandsOn (.ok (some (.watch cfg task oid handle msPath warned)))
      (.watching handle) := by
    rintro warned n ⟨⟩
    exact ⟨cfg, task, oid, handle, msPath, warned, rfl, rfl⟩
  refine .call trivial (fun done _ => ?_) (by simp)
  refine .ite (fun _ => ?_) fun _ => ?_
  · refine .bind (observeFinish_tracks cfg msPath) (fun _ g _ => ?_) (by simp)
    exact fun _ _ => hnone g
  · refine .call trivial (fun _ _ => ?_) (by simp)
    refine .bind (apparentSize_tracks msPath (by simp [vigils, Vigil.turn, Op.still]))
      (fun size g hg => ?_) (by simp)
    subst hg
    refine .ite (fun _ _ _ => hagain warned) fun _ => .ite (fun _ => ?_) fun _ =>
      .ite (fun _ _ _ => hagain true) fun _ => ?_
    · refine .bind (retires_tracks (stopObservationRunner_retires _ _) _) (fun _ g _ => ?_)
        (by simp)
      refine .bind (retires_tracks (failObserving_retires _ _ _ _ _) g) (fun _ g _ => ?_) (by simp)
      exact fun _ _ => hnone g
    · exact .call trivial (fun _ _ _ _ => hagain true) (by simp)

theorem vigil_code {r : Role} {n : Entry} (h : vigilPlay.begins r n g ∨ vigilPlay.again r n g) :
    n.code.Tracks (vigilPlay.script r) (vigilPlay.post r) g := by
  have hother : ∀ p : M (Option Entry), p.Tracks bystanding (fun _ g' => g' = g) g := fun p =>
    Prog.Tracks.uses (Γ := (· = g)) (Prog.uses_all (φ := fun _ => True) (fun _ => trivial) p)
      (fun _ _ hg _ => ⟨trivial, fun _ _ => hg⟩) rfl
  cases r with
  | observe task oid =>
    rcases h with ⟨⟨cfg, task', oid', rfl⟩, rfl⟩ |
      ⟨cfg, task', oid', handle, msPath, warned, rfl, rfl⟩
    · have hbody : (do call .taskStart; observeGuard oid' none (observeStart cfg task' oid') :
          M (Option Entry)).Tracks vigils HandsOn .fresh :=
        .call trivial (fun _ _ => observeGuard_tracks (observeStart_vigil cfg task' oid'))
          fun _ _ n hn => by cases hn
      exact endTask_tracks hbody
    · exact endTask_tracks (observeGuard_tracks (watchTurn_tracks _ _ _ _ _ _))
  | main | process | cli =>
    obtain rfl : g = .past := h.elim id id
    refine (hother n.code).mono ?_
    rintro (e | (_ | m)) g hg <;> exact hg

end Script

/-- What a worker on its vigil knows: the observation is its own, and once its runner has
returned zero the measurement set is there. -/
def Vigil.Knows (s : Shared) : Role → Vigil → Prop
  | .observe task oid, .watching handle => Owns task oid s ∧ s.db.InState oid .observing ∧
      ∃ w, s.runners[handle]? = some w ∧ w.oid = oid ∧
        (w.state = .returned 0 → s.disk.has (msPathOf oid) = true)
  | .observe task oid, .delivered => Owns task oid s ∧ s.db.InState oid .observing ∧
      s.disk.has (msPathOf oid) = true
  | _, _ => True

/-- A runner that returns zero has left its measurement set, and nobody changes files from
outside. -/
def punctual : Limits where
  terms := .calm
  env e s := ∀ h w, e = .runnerReturn h 0 → s.runners[h]? = some w →
    s.disk.has (msPathOf w.oid) = true

section Vigil

variable {g : Vigil} {task oid : Nat}

/-- What a step of the others leaves to the worker of an observation: its claim, the
measurement set, and no zero from a runner that left none. -/
structure Respects (task oid : Nat) (s s' : Shared) : Prop where
  keeps : Keeps (.observe task oid) s s'
  has : s.disk.has (msPathOf oid) = true → s'.disk.has (msPathOf oid) = true
  returned : ∀ {handle : Nat} {w'}, s'.runners[handle]? = some w' → w'.oid = oid →
    w'.state = .returned 0 → (∃ w, s.runners[handle]? = some w ∧ w.state = .returned 0) ∨
      s'.disk.has (msPathOf oid) = true

theorem Vigil.Knows.respected (h : g.Knows s (.observe task oid))
    (respects : Owns task oid s → s.db.InState oid .observing → Respects task oid s s') :
    g.Knows s' (.observe task oid) := by
  cases g with
  | fresh | past => trivial
  | watching handle =>
    obtain ⟨howns, hobserving, w, hw, hoid, hthere⟩ := h
    have hr := respects howns hobserving
    obtain ⟨w', hw', hoid'⟩ := hr.keeps.place handle w hw
    refine ⟨(hr.keeps.mine howns).1, (hr.keeps.mine howns).2.1 hobserving, w', hw',
      hoid'.trans hoid, fun hreturned => ?_⟩
    rcases hr.returned hw' (hoid'.trans hoid) hreturned with ⟨v, hv, hbefore⟩ | hhas
    · rw [hw] at hv
      cases hv
      exact hr.has (hthere hbefore)
    · exact hhas
  | delivered =>
    obtain ⟨howns, hobserving, hthere⟩ := h
    have hr := respects howns hobserving
    exact ⟨(hr.keeps.mine howns).1, (hr.keeps.mine howns).2.1 hobserving, hr.has hthere⟩

theorem Step.returned (h : Step T r s s') {handle : Nat} {w' : Runner}
    (hw' : s'.runners[handle]? = some w') {rc : Int} (hstate : w'.state = .returned rc) :
    ∃ w, s.runners[handle]? = some w ∧ w.state = .returned rc := by
  cases h with
  | start may =>
    rw [List.getElem?_append] at hw'
    split at hw'
    · exact ⟨w', hw', hstate⟩
    · rw [List.mem_singleton.mp (List.mem_of_getElem? hw')] at hstate
      cases hstate
  | cancel role owns found own =>
    simp only [Shared.setRunner, List.getElem?_modify, Option.map_eq_map,
      Option.map_eq_some_iff] at hw'
    obtain ⟨w, hw, rfl⟩ := hw'
    split at hstate
    · cases hstate
    · exact ⟨w, hw, hstate⟩
  | slain role idle fewer =>
    simp only [List.getElem?_map, Option.map_eq_some_iff] at hw'
    obtain ⟨w, hw, rfl⟩ := hw'
    unfold Runner.slain at hstate
    split at hstate
    · cases hstate
    · exact ⟨w, hw, hstate⟩
  | remove may found => exact ⟨w', by simpa using hw', hstate⟩
  | prune may found wf part => exact ⟨w', by simpa using hw', hstate⟩
  | _ => exact ⟨w', hw', hstate⟩

/-- Nobody but its worker moves the data of an observation that is `OBSERVING`: the moves of
the others see a row in another state. -/
theorem Step.respects (hinv : Inv T s) (h : Step T r s s') (hne : r ≠ .observe task oid)
    (howns : Owns task oid s) (hobserving : s.db.InState oid .observing) :
    Respects task oid s s' where
  keeps := h.keeps hinv hne
  has hthere := by
    obtain ⟨o, ho, hstate⟩ := hobserving
    rcases h.sees hinv.disk ho with ⟨hsame, _⟩ | ⟨hclosing, _⟩ | ⟨_, _, hholder, _⟩
    · unfold Disk.has at hthere ⊢
      rw [hsame]
      exact hthere
    · exact absurd hstate (closing_ne_observing hclosing)
    · rcases hholder with ⟨task', rfl, howns'⟩ | ⟨_, hdead, _⟩
      · exact absurd (by rw [howns.unique howns']) hne
      · rw [howns.live] at hdead
        cases hdead
  returned hw' _ hstate := .inl (h.returned hw' hstate)

theorem env_has {e : Env} (hinv : Inv T s) (hcalm : Peaceful e s) (h : env e s = some s')
    (hthere : s.disk.has (msPathOf oid) = true) : s'.disk.has (msPathOf oid) = true := by
  cases env_cases h with
  | launch | containerExit | returned | raised => exact hthere
  | @write handle t w found live wf ino below =>
    have hpath := hinv.runners.msPath w (List.mem_of_getElem? found)
    by_cases heq : oid = w.oid
    · subst heq
      have hself := Disk.get?_put_self (d := s.disk) (p := ["observations"]) (n := obsName w.oid)
        (x := some t) (Disk.isDirAt_iff.mp (by rw [hpath] at below; exact below))
      rw [hpath]
      exact Disk.has_iff.mpr ⟨t, hself⟩
    · have hsame := get?_write (t := t) s.disk hpath (p := msPathOf oid) (by simp [msPathOf, heq])
      unfold Disk.has at hthere ⊢
      rw [hsame]
      exact hthere
  | @product i attempt t =>
    have hsame : ((s.disk.ensureDir (parent (outputDir i attempt))).put (outputDir i attempt)
        (some t)).get? (msPathOf oid) = s.disk.get? (msPathOf oid) := get?_product _ (by decide)
    unfold Disk.has at hthere ⊢
    rw [hsame]
    exact hthere
  | loss => exact hcalm.elim

theorem env_respects {e : Env} (hinv : Inv .calm s) (hok : punctual.env e s)
    (hpeace : Terms.Calm .calm → Peaceful e s) (h : env e s = some s') :
    Respects task oid s s' where
  keeps := (env_quiet hinv hpeace h).keeps
  has := env_has hinv (hpeace (by simp [Terms.Calm])) h
  returned {handle w'} hw' hoid hstate := by
    cases env_cases h with
    | @launch i v found may =>
      simp only [List.getElem?_modify, Option.map_eq_map, Option.map_eq_some_iff] at hw'
      obtain ⟨w, hw, rfl⟩ := hw'
      split at hstate <;> exact .inl ⟨w, hw, hstate⟩
    | @returned i rc v found pending =>
      simp only [Shared.setRunner, List.getElem?_modify, Option.map_eq_map,
        Option.map_eq_some_iff] at hw'
      obtain ⟨w, hw, rfl⟩ := hw'
      split at hstate
      · rename_i heq
        subst heq
        cases hstate
        rw [if_pos rfl] at hoid
        subst hoid
        exact .inr (hok i w rfl hw)
      · exact .inl ⟨w, hw, hstate⟩
    | @raised i v found pending =>
      simp only [Shared.setRunner, List.getElem?_modify, Option.map_eq_map,
        Option.map_eq_some_iff] at hw'
      obtain ⟨w, hw, rfl⟩ := hw'
      split at hstate
      · cases hstate
      · exact .inl ⟨w, hw, hstate⟩
    | containerExit | write | product | loss => exact .inl ⟨w', hw', hstate⟩

/-- An operation of the worker leaves it with what its new vigil promises. The promise is
made by the start, which sets up a runner that has not returned, and by the zero reply. -/
theorem Vigil.Knows.own {o : Op} {c : Choice} {x : Except Exn o.Reply}
    (h : g.Knows s (.observe task oid)) (hallowed : allowed T (.observe task oid) s o)
    (hmay : vigils.may g o) (hexec : exec (.observe task oid) o c s = some (x, s')) :
    (Vigil.turn g o x).Knows s' (.observe task oid) := by
  cases o with
  | startObserve i msPath log =>
    obtain ⟨⟨task', hrole, howns⟩, _, hobserving, _⟩ := hallowed
    cases hrole
    cases c <;> cases hexec
    exact ⟨howns, hobserving, ⟨oid, msPath, .pending, false⟩, by simp, rfl, by simp⟩
  | runnerResult handle =>
    obtain rfl : g = .watching handle := hmay
    have hsame := exec_still rfl hexec
    subst hsame
    cases x with
    | error e => exact h
    | ok rc =>
      obtain ⟨howns, hobserving, w, hw, hoid, hthere⟩ := h
      by_cases hrc : rc = 0
      · subst hrc
        simp only [exec, hw] at hexec
        obtain ⟨y, hy, hsure⟩ := Option.bind_eq_some_iff.mp hexec
        have hreply : y = .ok 0 := by
          cases c <;> cases hsure
          rfl
        have hstate : w.state = .returned 0 := by
          unfold Shared.runnerOutcome at hy
          split at hy <;> simp_all
        exact ⟨howns, hobserving, hthere hstate⟩
      · have hpast : Vigil.turn (.watching handle) (.runnerResult handle) (.ok rc) = .past :=
          if_neg hrc
        rw [hpast]
        trivial
  | db q =>
    by_cases hnote : ∃ entity id reason, q = .recordEvent entity id reason
    · obtain ⟨entity, id, reason, rfl⟩ := hnote
      rcases Shared.query_cases hexec with ⟨y, db, hrun, rfl, rfl⟩ | ⟨e, rfl, rfl⟩
      · cases hrun
        cases g <;> exact h
      · exact h
    · have hturn : Vigil.turn g (.db q) x = if g = .fresh then .fresh else .past := by
        cases q <;> first | rfl | exact absurd ⟨_, _, _, rfl⟩ hnote
      rw [hturn]
      split <;> trivial
  | _ =>
    first
    | exact exec_still rfl hexec ▸ h
    | trivial

end Vigil

def Informed (s : Shared) (v : List (Role × Vigil)) : Prop :=
  ∀ (i : Nat) r g, v[i]? = some (r, g) → g.Knows s r

section Informed

variable {v : List (Role × Vigil)}

theorem Vigil.knows_of_other {g : Vigil} (hr : ∀ task oid, r ≠ .observe task oid) :
    g.Knows s r := by
  cases r with
  | observe task oid => exact absurd rfl (hr task oid)
  | main | process | cli => cases g <;> trivial

theorem Informed.append (h : Informed s v) {cs : List (Role × Vigil)}
    (hnew : ∀ c ∈ cs, c.2.Knows s c.1) : Informed s (v ++ cs) := by
  intro i r g hi
  rw [List.getElem?_append] at hi
  split at hi
  · exact h i r g hi
  · exact hnew _ (List.mem_of_getElem? hi)

theorem Informed.set (h : Informed s v) {pid : Nat} {g : Vigil} (hg : g.Knows s r) :
    Informed s (v.set pid (r, g)) := by
  intro i r' g' hi
  rw [List.getElem?_set] at hi
  split at hi
  · split at hi <;> cases hi
    exact hg
  · exact h i r' g' hi

theorem births_fresh (o : Op) (s : Shared) :
    ∃ cs, vigilPlay.Births (spawn o s) cs ∧ ∀ c ∈ cs, ∀ s', c.2.Knows s' c.1 := by
  cases o with
  | trackObserve oid =>
    exact ⟨[(_, .fresh)], .one ⟨⟨_, _, _, rfl⟩, rfl⟩, by simp [Vigil.Knows]⟩
  | trackProcess rid => exact ⟨[(_, .past)], .one rfl, by simp [Vigil.Knows]⟩
  | _ => exact ⟨[], .nobody, by simp⟩

theorem live_of_knowing {w : World Op.Reply Exn Shared Role Entry} {L : Limits} (h : L.Reach w)
    {q : Proc Op.Reply Exn Role Entry} (hmem : q ∈ w.procs) {g : Vigil}
    (hin : vigilPlay.In q g) (hg : g ≠ .past) :
    ∃ o next, q.code = .op o next := by
  have hcode : ∀ (r : Role) (n m : Entry), system.code r n ≠ .ret (.ok (some m)) := by
    intro r n m heq
    cases n with
    | command c => cases c <;> cases heq
    | _ => cases heq
  rcases hin with h' | ⟨rfl, _⟩
  · cases hq : q.code with
    | op o next => exact ⟨o, next, rfl⟩
    | ret x =>
      rw [hq] at h'
      rcases x with e | (_ | n)
      · exact absurd h' hg
      · exact absurd h' hg
      · exact absurd hq (h.onward hcode (by simp [start]) q hmem n)
  · exact absurd rfl hg

theorem Informed.run {L : Limits} {w : World Op.Reply Exn Shared Role Entry} (hreach : L.Reach w)
    (hon : vigilPlay.On w v) (h : Informed w.shared v) {pid : Nat}
    {p : Proc Op.Reply Exn Role Entry} {o : Op} {next} {c : Choice} {x : Except Exn o.Reply}
    {g : Vigil} (hp : w.procs[pid]? = some p) (hcode : p.code = .op o next)
    (hv : v[pid]? = some (p.role, g)) (hmay : (vigilPlay.script p.role).may g o)
    (hallowed : allowed L.terms p.role w.shared o)
    (hexec : exec p.role o c w.shared = some (x, s')) :
    Informed s' (v.set pid (p.role, (vigilPlay.script p.role).turn g o x)) := by
  have hstep := exec_step hreach.inv hallowed hexec
  intro i r' g' hi
  rw [List.getElem?_set] at hi
  split at hi
  · split at hi <;> cases hi
    have hknows := h pid p.role g hv
    cases hrole : p.role with
    | observe task oid =>
      rw [hrole] at hknows hallowed hmay hexec
      exact hknows.own hallowed hmay hexec
    | main | process | cli => exact Vigil.knows_of_other (by simp)
  · rename_i hne
    have hknows := h i r' g' hi
    obtain ⟨q, hq, hqrole, hin⟩ := hon.proc hi
    simp only at hqrole hin
    cases r' with
    | main | process | cli => exact Vigil.knows_of_other (by simp)
    | observe task oid =>
      by_cases hpast : g' = .past
      · subst hpast
        trivial
      · have hlive := live_of_knowing hreach (List.mem_of_getElem? hq) hin hpast
        have hother : p.role ≠ .observe task oid := fun hsame => hne
          (hreach.holds.unique pid i p q hp hq ⟨o, next, hcode⟩ hlive (by simp [system, hsame])
            (hsame.trans hqrole.symm))
        exact hknows.respected (hstep.respects hreach.inv hother)

theorem informed_sound : vigilPlay.Sound system punctual.ok start Informed where
  code := vigil_code
  run := by
    intro w v pid p o next c x s' g hreach hon hJ hp hcode hv hmay _ hok hexec
    have hrun : punctual.Reach w := hreach
    obtain ⟨born, hborn, hfresh⟩ := births_fresh o w.shared
    have hallowed := hrun.allowed hp hcode (hok p o next hp hcode).1
    refine ⟨?_, born, hborn, ?_⟩
    · cases p.role <;> trivial
    · exact (hJ.run hrun hon hp hcode hv hmay hallowed hexec).append fun c hc => hfresh c hc s'
  env := by
    intro w v e s' hreach hJ hok henv i r g hi
    have hrun : punctual.Reach w := hreach
    cases r with
    | main | process | cli => exact Vigil.knows_of_other (by simp)
    | observe task oid =>
      exact (hJ i _ g hi).respected fun _ _ => env_respects hrun.inv hok.2 hok.1 henv
  enter := by
    intro w v r n s' hreach hJ _ henter
    have hrun : punctual.Reach w := hreach
    have hbefore := (system_enter henter).2
    have hentered : Informed s' v := by
      intro i r' g hi
      cases r' with
      | main | process | cli => exact Vigil.knows_of_other (by simp)
      | observe task oid =>
        have hknows := hJ i _ g hi
        cases enter_cases hbefore with
        | boot down valid =>
          have hidle := hrun.inv.tasks.down down
          have hno : ¬ Owns task oid w.shared := by simp [Owns, Ctl.latest, hidle]
          cases g with
          | fresh | past => trivial
          | watching | delivered => exact absurd hknows.1 hno
        | resolve | command => cases g <;> exact hknows
    refine ⟨.past, ?_, hentered.append ?_⟩
    · cases enter_cases hbefore <;> rfl
    · intro c hc
      rw [List.mem_singleton.mp hc]
      cases r <;> trivial
  stop {s v pid r g} hJ _ _ := hJ.set (show Vigil.Knows s r .past by cases r <;> trivial)
  crash := by
    intro s v hJ i r g hi
    simp only [Play.fallen, List.getElem?_map, Option.map_eq_some_iff] at hi
    obtain ⟨c, hc, heq⟩ := hi
    split at heq
    · cases heq
      cases c.1 <;> trivial
    · rename_i hcoop
      subst heq
      refine Vigil.knows_of_other fun task oid heq => hcoop ?_
      simp [system, heq]

/-- Where runners that return zero have left their measurement sets, an observation is about
to be completed only with its measurement set there. The process about to do so is its
worker, whose vigil says that its runner has returned zero. -/
theorem completed_delivered {w : World Op.Reply Exn Shared Role Entry} (h : punctual.Reach w)
    {pid : Nat} {p : Proc Op.Reply Exn Role Entry} {q : Query} {next}
    (hp : w.procs[pid]? = some p) (hcode : p.code = .op (.db q) next) {oid : Nat}
    (hq : q.completes oid = true) (hobserving : w.shared.db.InState oid .observing) :
    w.shared.disk.has (msPathOf oid) = true := by
  have hon : vigilPlay.On start [] := ⟨rfl, fun {pid p c} hp _ => by simp [start] at hp⟩
  have hempty : Informed start.shared [] := fun i r g hi => by simp at hi
  obtain ⟨v, hon, hJ⟩ := informed_sound.reach hon hempty h
  obtain ⟨g, hv, hin⟩ := hon.entry hp
  have hmay := (hin.tracks hcode).1
  have hallowed := h.allowed hp hcode (c := .fail) ⟨by simp [punctual], by simp [punctual]⟩
  unfold Query.completes at hq
  split at hq
  · rename_i i reason size reserved error
    obtain rfl : i = oid := eq_of_beq hq
    obtain ⟨o, ho, hstate⟩ := hobserving
    have hid := (Db.mem_of_obs? ho).2
    have hrole : ∃ task, p.role = .observe task i := by
      cases hallowed o ho hstate with
      | complete task role => exact ⟨task, hid ▸ role⟩
      | note role state => exact absurd (hstate.symm.trans state.symm) (by simp)
      | claim _ _ _ before => simp [hstate] at before
      | abandon _ _ _ before => simp [hstate] at before
      | fail _ _ _ after => cases after
      | repair _ before => simp [hstate] at before
      | miss _ before => simp [hstate] at before
      | delete _ before => rcases before with hs | hs <;> simp [hstate] at hs
    obtain ⟨task, hrole⟩ := hrole
    rw [hrole] at hv hmay
    obtain rfl : g = .delivered := hmay
    exact (hJ pid _ _ hv).2.2
  · cases hq

end Informed

end Sdpctl
