import Sdpctl.Restart.Entity
import Sdpctl.Restart.Faults

/-!
A restart in which file operations on some entities fail. The `try` around the
recovery of an entity keeps a failure with it: the attempt comes to the repair, or
to a change of this entity alone.
-/

namespace Sdpctl

open FileTree Coop

/-- The path that a file operation is about: a test, a resolution, a rename or a removal. -/
def Op.path : Op → Option Path
  | .exists_ p | .isDir p | .resolve p | .rename p _ | .rmtree p | .unlink p => some p
  | _ => none

/-- The controller alone, when the operations `faults` may fail. -/
def failing (faults : Op → Prop) : Solo Op.Reply Exn Shared where
  does o s x t := (smoothly .main).does o s x t ∨
    faults o ∧ (∃ e, x = .error e) ∧ ∃ c, exec .main o c s = some (x, t)
  breaks _ _ _ := False

/-- Failures of file operations on the entities `F`. -/
structure Faults (E : Estate) (F : Entity → Prop) (faults : Op → Prop) : Prop where
  has : ∀ e, F e → E.Has e
  on : ∀ o, faults o → ∃ e p, F e ∧ o.path = some p ∧ e.Owns p

/-- The program returns, with `P`, whatever fails. -/
abbrev Copes {α : Type} (faults : Op → Prop) (p : M α) (P : α → Shared → Prop) (s : Shared) :
    Prop :=
  p.Gives (failing faults) (fun _ => True) P s

/-- The operations on an entity, and those in its service: quarantine and the cache. -/
def Op.serves (e : Entity) (o : Op) : Prop :=
  ∀ p, o.path = some p → e.Owns p ∨ p = [] ∨ ∃ name, p = quarantineEntry name

variable {α : Type} {faults : Op → Prop} {F : Entity → Prop} {E : Estate} {s : Shared}
  {K : Estate → Prop} {e : Entity}

namespace Faults

variable {o : Op}

theorem path (h : Faults E F faults) (ho : faults o) : o.path ≠ none := by
  obtain ⟨e, p, _, hp, _⟩ := h.on o ho
  simp [hp]

theorem common (h : Faults E F faults) {p : Path} (hpath : o.path = some p)
    (hp : ∀ e : Entity, ¬ e.Owns p) : ¬ faults o := by
  intro ho
  obtain ⟨e, q, _, hq, hown⟩ := h.on o ho
  rw [hpath] at hq
  cases hq
  exact hp e hown

/-- An operation in the service of an entity fails only when the entity is in `F`. -/
theorem serves (h : Faults E F faults) (hE : E.Named) (he : E.Has e) (hserves : o.serves e)
    (ho : faults o) : F e := by
  obtain ⟨e', p, hF, hp, hown⟩ := h.on o ho
  rcases hserves p hp with howns | rfl | ⟨name, rfl⟩
  · exact hE.owner he (h.has e' hF) howns hown ▸ hF
  · exact absurd rfl hown.ne_nil
  · exact (Apart.irrefl _ (hown.apart_entry name)).elim

end Faults

section Solo

theorem failing_same {o : Op} {x : Except Exn o.Reply} {t : Shared} (h : ¬ faults o) :
    (failing faults).does o s x t ↔ (smoothly .main).does o s x t :=
  ⟨fun hdoes => hdoes.resolve_right fun hfault => h hfault.1, .inl⟩

theorem failing_faulty (hpath : ∀ o, faults o → o.path ≠ none) (φ : Op → Prop) :
    Prog.Faulty φ (smoothly .main) (failing faults) where
  does o s x t h := .inl h
  breaks o s t h := h.elim
  fails := by
    rintro o s x t _ (hsmooth | ⟨ho, _, c, hexec⟩)
    · exact .inl hsmooth
    · refine anyhow_faulty.fails o s x t ?_ ⟨c, hexec⟩
      have hsome := hpath o ho
      cases o <;> trivial

theorem Copes.of_smooth {p : M α} {P : α → Shared → Prop} (huses : p.Uses fun o => ¬ faults o)
    (h : Smooth .main K p P s) : Copes faults p P s :=
  (Prog.Meets.follow (φ := fun o => ¬ faults o) (fun _ _ _ _ ho => failing_same ho)
    (fun _ _ _ hbreaks => hbreaks.elim) huses h).mono (fun _ _ => trivial) fun _ _ h => h

theorem uses_pathless (hpath : ∀ o, faults o → o.path ≠ none) {p : M α}
    (h : p.Uses fun o => o.path = none) : p.Uses fun o => ¬ faults o :=
  h.mono fun o hnone ho => hpath o ho hnone

/-- The recovery of an entity: it comes out as without a failure, or an exception,
after a part of the work, has gone to the handler. -/
theorem Copes.contained {p : M Unit} {k : Exn → M Unit} {Q R : Shared → Prop} {φ : Op → Prop}
    {bad : Prop} (hpath : ∀ o, faults o → o.path ≠ none)
    (hsmooth : Smooth .main K (p.catchAll k) (fun _ t => Q t) s) (ids : s.db.Ids)
    (hK : K s.estate) (hplain : p.Plain φ) (hk : ∀ e, (k e).Uses fun o => o.path = none)
    (hbad : ∀ o, φ o → faults o → bad)
    (hfail : ∀ e t, t.db.Ids → K t.estate → Smooth .main (fun _ => True) (k e) (fun _ u => R u) t) :
    Copes faults (p.catchAll k) (fun _ t => Q t ∨ bad ∧ R t) s := by
  by_cases hb : bad
  · have hkeeps : ∀ (o : Op) (s : Shared) x t, (smoothly .main).does o s x t → s.db.Ids →
        t.db.Ids :=
      fun _ _ _ _ ⟨_, _, hexec⟩ ids => exec_ids hexec ids
    have hbreaks : ∀ (o : Op) (s t : Shared), (smoothly .main).breaks o s t → s.db.Ids → t.db.Ids :=
      fun _ _ _ ⟨_, _, hexec⟩ ids => exec_ids hexec ids
    have hhandler : ∀ {e t K' P}, Smooth .main K' (k e) P t → Copes faults (k e) P t :=
      fun h => .of_smooth (uses_pathless hpath (hk _)) h
    have hbody := (hsmooth.uncaught.keeping hkeeps hbreaks ids).mishap
      (failing_faulty hpath φ) hplain ⟨hK, ids⟩
    refine Prog.Meets.catchAll (hbody.mono (fun _ _ => trivial) fun _ _ h => h) ?_ ?_
    · rintro a t (⟨⟨_, _, _, _, hQ⟩ | ⟨_, he, _⟩, _⟩ | ⟨⟨_, he⟩, _⟩)
      · exact ⟨a, rfl, .inl hQ⟩
      · cases he
      · cases he
    · rintro e t (⟨⟨_, he, _⟩ | ⟨e', he, hmeets⟩, _⟩ | ⟨_, hK', hids⟩)
      · cases he
      · cases he
        exact (hhandler hmeets).mono (fun _ h => h) fun _ _ h => .inl h
      · exact (hhandler (hfail e t hids hK')).mono (fun _ h => h) fun _ _ h => .inr ⟨hb, h⟩
  · refine (Copes.of_smooth ?_ hsmooth).mono (fun _ h => h) fun _ _ h => .inl h
    exact Prog.uses_catchAll (hplain.uses.mono fun o ho hfault => hb (hbad o ho hfault))
      fun e => uses_pathless hpath (hk e)

end Solo

section Plain

variable {p : Path} {label : String}

theorem serves_pathless {o : Op} (h : o.path = none) : o.serves e := by
  intro p hp
  rw [h] at hp
  cases hp

theorem serves_own {o : Op} (h : o.path = some p) (hp : e.Owns p) : o.serves e := by
  intro q hq
  rw [h] at hq
  cases hq
  exact .inl hp

theorem serves_entry (name : String) : (Op.exists_ (quarantineEntry name)).serves e := by
  rintro _ ⟨⟩
  exact .inr (.inr ⟨name, rfl⟩)

theorem serves_root : (Op.resolve []).serves e := by
  rintro _ ⟨⟩
  exact .inr (.inl rfl)

theorem searchTarget_serves (fuel n : Nat) : (searchTarget label fuel n).Plain (Op.serves e) := by
  induction fuel generalizing n with
  | zero => exact .bind (.call (serves_pathless rfl)) fun _ => trivial
  | succ fuel ih => exact .bind (.call (serves_entry _)) fun _ => .ite trivial (ih (n + 1))

theorem quarantinePath_serves (hp : e.Owns p) : (quarantinePath p label).Plain (Op.serves e) := by
  refine .bind (.call (serves_own rfl hp)) fun _ => .ite trivial ?_
  refine .bind (.bind (.call (serves_entry _)) fun _ => .ite trivial
    (.bind (.call (serves_pathless rfl)) fun _ => searchTarget_serves _ _)) fun _ => ?_
  refine .bind (.call (serves_pathless rfl)) fun _ => ?_
  refine .bind (.call (serves_own rfl hp)) fun _ => ?_
  exact .bind (invalidateAuxiliaryCache_plain serves_root (serves_pathless rfl)) fun _ => trivial

theorem quarantineIfExists_serves (hp : e.Owns p) :
    (quarantineIfExists p label).Plain (Op.serves e) :=
  .bind (.call (serves_own rfl hp)) fun _ =>
    .ite (.bind (quarantinePath_serves hp) fun _ => trivial) trivial

theorem recordObservationRecoveryFailure_pathless (oid : Nat) (e : Exn) (context : String) :
    (recordObservationRecoveryFailure oid e context).Uses fun o => o.path = none :=
  Prog.uses_finallyDo (Prog.uses_call rfl) (Prog.uses_call rfl)

end Plain

section Attempts

variable {o : Observation}

def Mending.Attempted (m : Mending) (faults : Op → Prop) (f : Observation → M Unit) : Prop :=
  ∀ s : Shared, s.db.Ids → s.estate.Named → ∀ o, s.estate.obs? o.id = some o → o.state = m.state →
    ∀ bad : Prop, (∀ op : Op, op.serves (.observation o.id) → faults op → bad) →
      Copes faults (f o) (fun _ t => t.db.Ids ∧ (t.estate = m.apply s.estate o ∨
        bad ∧ s.estate.Touches o t.estate)) s

/-- What an interrupted mending leaves has touched its observation only. -/
theorem Mending.Lawful.leaves_touches {m : Mending} (hm : m.Lawful) (h : E.Placed)
    (ho : E.obs? o.id = some o) {G : Estate} (hleaves : (m.repair o.id).leaves E G) :
    E.Touches o G := by
  obtain ⟨hmem, _⟩ := Estate.mem_of_obs? ho
  have hself : E.putObs o = E := Estate.putObs_self h ho
  rcases hleaves with rfl | ⟨p, hp, _, hG⟩
  · exact ⟨o, _, rfl, rfl, .refl _ _, by rw [hself]⟩
  · rw [ho] at hp
    cases hp
    rcases hG with rfl | ⟨d, hd, rfl⟩
    · exact hm.touches h hmem
    · exact ⟨o, d, rfl, rfl, hm.partway h hmem hd, by rw [hself]⟩

theorem Estate.Touches.found {G : Estate} (h : E.Touches o G) (ho : E.obs? o.id = some o) :
    ∃ r, G.obs? o.id = some r ∧ r.id = o.id ∧ ∀ r' : Observation, r'.id = r.id →
      r'.msPath = r.msPath → E.Touches o (G.putObs r') := by
  obtain ⟨r, d, hid, hpath, hlocal, rfl⟩ := h
  have hfound : E.obs? r.id = some o := by rw [hid]; exact ho
  refine ⟨r, (Estate.obs?_putObs hfound o.id).trans (if_pos hid.symm), hid,
    fun r' hid' hpath' => ?_⟩
  refine ⟨r', d, hid'.trans hid, hpath'.trans hpath, hlocal, ?_⟩
  have hagain : (E.putObs r).putObs r' = E.putObs r' := by
    simp only [Estate.putObs, Keyed.replace, List.map_map]
    congr 1
    refine List.map_congr_left fun x _ => ?_
    simp only [Function.comp_apply, hid']
    by_cases hx : x.id = r.id <;> simp [hx]
  rw [← hagain]
  rfl

/-- A mending within a `try` whose handler records the failure. -/
theorem Mending.Lawful.attempt {m : Mending} (hm : m.Lawful) {p : M Unit} {context : String}
    (hpath : ∀ o, faults o → o.path ≠ none) (ids : s.db.Ids) (h : s.estate.Named)
    (ho : s.estate.obs? o.id = some o)
    (hsmooth : Smooth .main ((m.repair o.id).leaves s.estate)
      (p.catchAll fun e => recordObservationRecoveryFailure o.id e context)
      (fun _ t => t.db.Ids ∧ t.estate = m.apply s.estate o) s)
    (hplain : p.Plain (Op.serves (.observation o.id))) {bad : Prop}
    (hbad : ∀ op : Op, op.serves (.observation o.id) → faults op → bad) :
    Copes faults (p.catchAll fun e => recordObservationRecoveryFailure o.id e context)
      (fun _ t => t.db.Ids ∧ (t.estate = m.apply s.estate o ∨ bad ∧ s.estate.Touches o t.estate))
      s := by
  refine (Copes.contained hpath hsmooth ids Mending.leaves_self hplain
    (fun e => recordObservationRecoveryFailure_pathless _ e _) hbad
    (R := fun t => t.db.Ids ∧ s.estate.Touches o t.estate) fun e t hids hleaves => ?_).mono
    (fun _ h => h) fun _ t ht => ?_
  · obtain ⟨r, hr, hid, hput⟩ := (hm.leaves_touches h.toPlaced ho hleaves).found ho
    rw [← hid] at hr ⊢
    refine recordObservationRecoveryFailure_smooth hids hr trivial fun u hids hu => ⟨hids, ?_⟩
    rw [hu]
    exact hput _ rfl rfl
  · rcases ht with ⟨hids, ht⟩ | ⟨hb, hids, ht⟩
    · exact ⟨hids, .inl ht⟩
    · exact ⟨hids, .inr ⟨hb, ht⟩⟩

variable (hpath : ∀ o, faults o → o.path ≠ none)

include hpath

theorem recoverObservation_attempted : givingUp.Attempted faults recoverObservation := by
  intro s ids h o ho hstate bad hbad
  have hown : (Entity.observation o.id).Owns o.msPath :=
    .inl (h.rowPath o (Estate.mem_of_obs? ho).1)
  refine givingUp_lawful.attempt hpath ids h ho
    (recoverObservation_smooth s ids h.toPlaced o ho hstate) ?_ hbad
  exact .bind (quarantineIfExists_serves hown) fun _ => .call (serves_pathless rfl)

theorem repairAccepted_attempted : releasing.Attempted faults repairAccepted := by
  intro s ids h o ho hstate bad hbad
  refine releasing_lawful.attempt hpath ids h ho
    (repairAccepted_smooth s ids h.toPlaced o ho hstate) ?_ hbad
  refine .bind (.call (serves_pathless rfl)) fun _ => .ite ?_ trivial
  exact .bind (.call (serves_pathless rfl)) fun _ => .ite (.call (serves_pathless rfl)) trivial

theorem verifyStored_attempted : verifying.Attempted faults verifyStored := by
  intro s ids h o ho hstate bad hbad
  have hown : (Entity.observation o.id).Owns o.msPath :=
    .inl (h.rowPath o (Estate.mem_of_obs? ho).1)
  refine verifying_lawful.attempt hpath ids h ho
    (verifyStored_smooth s ids h.toPlaced o ho hstate) ?_ hbad
  exact .bind (.call (serves_own rfl hown)) fun _ => .ite (.call (serves_pathless rfl)) trivial

/-- A deletion reads its row first; the rest is about the row that it was given. -/
theorem resumeDeletion_attempted : deleting.Attempted faults resumeDeletion := by
  intro s ids h o ho hstate bad hbad
  have hlive : (Entity.observation o.id).Owns o.msPath :=
    .inl (h.rowPath o (Estate.mem_of_obs? ho).1)
  have htrash : (Entity.observation o.id).Owns (trashPath o.id) := .inr (.inl rfl)
  obtain ⟨rest, hbody, hplain⟩ : ∃ rest : Observation → M Unit,
      finishObservationDeletion o.id = (store (.getObservation o.id)).bind rest ∧
        (rest o).Plain (Op.serves (.observation o.id)) := by
    refine ⟨_, rfl, .ite trivial (.bind (.call (serves_pathless rfl)) fun _ => ?_)⟩
    refine .bind (moveLiveToTrash_plain _ (serves_own rfl hlive) (serves_own rfl htrash)
      (serves_own rfl hlive) serves_root (serves_pathless rfl)) fun _ => ?_
    refine .bind (emptyTrash_plain (serves_own rfl htrash) (serves_own rfl htrash)
      (serves_own rfl htrash) (serves_own rfl htrash) serves_root (serves_pathless rfl)) fun _ => ?_
    exact .call (serves_pathless rfl)
  have hsmooth := resumeDeletion_smooth s ids h.toPlaced o ho hstate
  have hread : ∀ {x t}, (smoothly .main).does (.db (.getObservation o.id)) s x t ↔
      x = .ok o ∧ t = s := smooth_query (getObservation_found ho)
  unfold resumeDeletion at hsmooth ⊢
  rw [hbody] at hsmooth ⊢
  obtain ⟨_, _, hdoes⟩ := hsmooth
  have hgiven := (hdoes _ _ (hread.mpr ⟨rfl, rfl⟩)).2
  refine ⟨⟨_, _, .inl (hread.mpr ⟨rfl, rfl⟩)⟩, fun _ h => h.elim, fun x t hx => ⟨trivial, ?_⟩⟩
  have hnone : ¬ faults (.db (.getObservation o.id)) := fun hfault => hpath _ hfault rfl
  obtain ⟨rfl, rfl⟩ := hread.mp ((failing_same hnone).mp hx)
  exact deleting_lawful.attempt hpath ids h ho hgiven hplain hbad

theorem recoverRun_attempted {q : ProcessingRun} (ids : s.db.Ids) (h : s.estate.Named)
    (hq : s.estate.run? q.id = some q) (hrunning : q.state = .running) {bad : Prop}
    (hbad : ∀ op : Op, op.serves (.observation q.observationId) → faults op → bad) :
    Copes faults (recoverRun q) (fun _ t => t.db.Ids ∧ (t.estate = (abandoning q.id).fix s.estate ∨
      bad ∧ (abandoning q.id).leaves s.estate t.estate)) s := by
  obtain ⟨a, hout⟩ := h.runPath q (Estate.mem_of_run? hq).1
  have hown : (Entity.observation q.observationId).Owns (parent q.outputPrefix) :=
    .inr (.inr ⟨a, hout⟩)
  refine (Copes.contained hpath (recoverRun_smooth ids hq hrunning) ids (.inl rfl)
    (φ := Op.serves (.observation q.observationId)) ?_ (fun e => Prog.uses_call rfl) hbad
    (R := fun t => t.db.Ids ∧ (abandoning q.id).leaves s.estate t.estate)
    fun e t hids hleaves => ?_).mono (fun _ h => h) fun _ t ht => ?_
  · refine .bind (.bind (.call (serves_own rfl hown)) fun _ =>
      .ite (.call (serves_own rfl hown)) trivial) fun _ => .call (serves_pathless rfl)
  · exact recordEvent_smooth hids trivial fun u hids hu => ⟨hids, by rw [hu]; exact hleaves⟩
  · rcases ht with ⟨hids, ht⟩ | ⟨hb, hids, ht⟩
    · exact ⟨hids, .inl ht⟩
    · exact ⟨hids, .inr ⟨hb, ht⟩⟩

/-- A child whose path can be resolved: a known one stays, an unknown one is set aside,
unless it fails. -/
theorem scanChild_attempted {known : List Path} {name : String} (ids : s.db.Ids)
    (hstands : s.disk.Stands) (hresolve : ¬ faults (.resolve ["observations", name]))
    (hknown : ∀ p, p ∈ known ↔ p ∈ s.estate.observations.map Observation.msPath) {bad : Prop}
    (hbad : ∀ op : Op, op.serves (.child name) → faults op →
      s.estate.Has (.child name) → bad) :
    Copes faults (scanChild known name) (fun _ t => t.db.Ids ∧ (t.estate = s.estate.scanned name ∨
      s.estate.Has (.child name) ∧ bad ∧ t.estate = s.estate)) s := by
  let K : Estate → Prop := fun G => G = s.estate ∨ G = s.estate.scanned name
  have hsmooth : Smooth .main K (scanChild known name)
      (fun _ t => t.db.Ids ∧ t.estate = s.estate.scanned name) s :=
    scanChild_smooth ids hstands hknown (.inl rfl) (.inr rfl)
  have hread : ∀ {x t}, (smoothly .main).does (.resolve ["observations", name]) s x t ↔
      x = .ok ["observations", name] ∧ t = s := smooth_reading
  have hgiven := (hsmooth.2.2 _ _ (hread.mpr ⟨rfl, rfl⟩)).2
  refine ⟨⟨_, _, .inl (hread.mpr ⟨rfl, rfl⟩)⟩, fun _ h => h.elim, fun x t hx => ⟨trivial, ?_⟩⟩
  obtain ⟨rfl, rfl⟩ := hread.mp ((failing_same hresolve).mp hx)
  change Smooth .main K (if ["observations", name] ∈ known then pure () else _) _ _ at hgiven
  change Copes faults (if ["observations", name] ∈ known then pure () else _) _ _
  by_cases hmem : ["observations", name] ∈ known
  · rw [if_pos hmem] at hgiven ⊢
    obtain ⟨_, _, hids, hsame⟩ := hgiven
    exact .pure ⟨hids, .inl hsame⟩
  · rw [if_neg hmem] at hgiven ⊢
    have hhas : t.estate.Has (.child name) := fun h => hmem ((hknown _).mpr h)
    have hown : (Entity.child name).Owns ["observations", name] := rfl
    refine (Copes.contained hpath hgiven ids (.inl rfl)
      (.bind (quarantinePath_serves hown) fun _ => trivial) (fun e => Prog.uses_call rfl)
      (fun op hop hfault => hbad op hop hfault hhas) (R := fun u => u.db.Ids ∧ K u.estate)
      fun e u hids hu => recordEvent_smooth hids trivial fun v hids hv =>
        ⟨hids, by rw [hv]; exact hu⟩).mono (fun _ h => h) fun _ u hu => ?_
    rcases hu with ⟨hids, hu⟩ | ⟨hb, hids, hu | hu⟩
    · exact ⟨hids, .inl hu⟩
    · exact ⟨hids, .inr ⟨hhas, hb, hu⟩⟩
    · exact ⟨hids, .inl hu⟩

end Attempts

end Sdpctl
