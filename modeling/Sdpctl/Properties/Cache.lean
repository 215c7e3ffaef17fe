import Sdpctl.Cache.Coherent
import Sdpctl.Programs.Footprint
import Sdpctl.Restart.Faults

/-!
The cache of the admission check. A controller that moves and removes raw data
reads from its cache what a walk would find, as long as no removal that stopped
part-way has taken bytes from the trash behind a cached value.
-/

namespace Sdpctl

open FileTree Coop

variable {role : Role} {s t : Shared}

/-- A removal has stopped part-way, and has taken bytes from the trash that a cached
value with the current signature counts. -/
def Spoils (c : Choice) (s t : Shared) : Prop :=
  (∃ u, c = .leaves u) ∧ (∃ e, s.ctl.cache = some e ∧ e.1 = s.disk.signature) ∧
    t.disk.bytesAt trashRoot ≠ s.disk.bytesAt trashRoot

/-- How an operation can come out when nobody else acts and no cached value is spoilt. -/
def sparing (role : Role) (o : Op) (s : Shared) (x : Except Exn o.Reply) (t : Shared) : Prop :=
  ∃ c : Choice, exec role o c s = some (x, t) ∧ ¬ Spoils c s t

/-- The operations with which the controller moves and removes raw data. -/
def movesRaw : Op → Prop
  | .db (.getObservation _) | .db (.transitionObservation _ _ _ _ _ _ _) | .exists_ _ | .isDir _
  | .resolve _ | .entryCount _ | .diverge | .cachePop => True
  | .mkdir p => p = quarantineRoot ∨ p = trashRoot
  | .rename p q => (∃ label, q = quarantineEntry label) ∨
      ∃ oid, p = msPathOf oid ∧ q = trashPath oid
  | .rmtree p | .unlink p => ∃ oid, p = msPathOf oid ∨ p = trashPath oid
  | _ => False

/-- The rows have the paths that `create_observation_auto` gives them, and what is
cached is coherent. -/
structure Transparent (s : Shared) : Prop where
  ids : s.db.Ids
  named : s.db.Named
  wf : s.disk.root.wf
  coherent : ∀ e, s.ctl.cache = some e → Coherent s.disk e

namespace Transparent

theorem query {q : Query} {y : q.Reply} {db : Db} (h : Transparent s)
    (hrun : q.run s.db = .ok (y, db)) : Transparent { s with db } where
  ids := (Db.Call.of_run h.ids hrun).ids h.ids
  named := (Db.Call.of_run h.ids hrun).named h.ids h.named
  wf := h.wf
  coherent := h.coherent

theorem disk {d : Disk} (h : Transparent s) (hwf : d.root.wf)
    (hcoherent : ∀ e, Coherent s.disk e → Coherent d e) : Transparent { s with disk := d } :=
  ⟨h.ids, h.named, hwf, fun e he => hcoherent e (h.coherent e he)⟩

theorem cache {e : Option AuxCache} (h : Transparent s)
    (he : ∀ v, e = some v → Coherent s.disk v) :
    Transparent { s with ctl := { s.ctl with cache := e } } :=
  ⟨h.ids, h.named, h.wf, he⟩

theorem put_wf {d : Disk} {p : Path} {x : Option Tree} (h : d.root.wf)
    (hx : ∀ u, x = some u → u.wf) : (d.put p x).root.wf := Tree.wf_set h hx

theorem removing {p : Path} {oid : Nat} {x : Except Exn Disk} {part : Tree → Option Disk}
    {c : Choice} {y : Except Exn Unit} (h : Transparent s)
    (hp : p = msPathOf oid ∨ p = trashPath oid)
    (hx : ∀ d, x = .ok d → ∃ u, s.disk.get? p = some u ∧ d = s.disk.put p none)
    (hpart : ∀ v d, part v = some d → s.disk.rmtreePart p v = some d)
    (hexec : s.removing c p x part = some (y, t)) (hspares : ¬ Spoils c s t) : Transparent t := by
  cases c with
  | leaves v =>
    obtain ⟨d, hd, heq⟩ := Option.map_eq_some_iff.mp hexec
    cases heq
    obtain ⟨u, hu, hwf, _, rfl⟩ := Disk.rmtreePart_some (hpart v d hd)
    have hcoherent :
        Transparent { s with disk := { s.disk with root := s.disk.root.set p (some v) } } := by
      refine ⟨h.ids, h.named, Tree.wf_set h.wf fun w hw => Option.some.inj hw ▸ hwf, fun e he => ?_⟩
      refine (h.coherent e he).pruned hp hu fun hsig => ?_
      by_contra hne
      exact hspares ⟨⟨v, rfl⟩, ⟨e, he, hsig⟩, hne⟩
    exact ⟨by simpa using h.ids, by simpa using h.named, hcoherent.wf,
      by simpa using hcoherent.coherent⟩
  | ok =>
    cases hd : x with
    | error e =>
      simp only [Shared.removing, hd, Option.some.injEq, Prod.mk.injEq] at hexec
      obtain ⟨_, rfl⟩ := hexec
      exact h
    | ok d =>
      simp only [Shared.removing, hd, Option.some.injEq, Prod.mk.injEq] at hexec
      obtain ⟨_, rfl⟩ := hexec
      obtain ⟨u, hu, rfl⟩ := hx d hd
      have hdisk := h.disk (put_wf h.wf (by simp)) fun e he => he.stirs (Disk.remove_stirs hp hu)
      exact ⟨by simpa using h.ids, by simpa using h.named, hdisk.wf, by simpa using hdisk.coherent⟩
  | fail =>
    cases hexec
    exact h
  | _ => cases hexec

theorem op {o : Op} {x : Except Exn o.Reply} (ho : movesRaw o) (hdoes : sparing role o s x t)
    (h : Transparent s) : Transparent t := by
  obtain ⟨c, hexec, hspares⟩ := hdoes
  cases o with
  | db q =>
    rcases Shared.query_eq hexec with rfl | ⟨y, db, _, hrun, rfl⟩
    · exact h
    · exact h.query hrun
  | exists_ | isDir | resolve | entryCount | diverge =>
    rw [exec_still rfl hexec]
    exact h
  | cachePop =>
    rw [Shared.sure_eq hexec]
    split
    · exact h
    · exact h.cache (by simp)
  | mkdir p =>
    rcases Shared.writing_eq hexec with rfl | ⟨disk, hdisk, rfl⟩
    · exact h
    · refine h.disk ?_ fun e he => he.stirs (Disk.mkdir_stirs ho hdisk)
      unfold Disk.mkdir at hdisk
      split at hdisk
      · cases hdisk
        exact h.wf
      · split at hdisk
        · rename_i root hroot
          cases hdisk
          exact Tree.wf_mkdirs h.wf hroot
        · cases hdisk
  | rename p q =>
    rcases Shared.writing_eq hexec with rfl | ⟨disk, hdisk, rfl⟩
    · exact h
    · refine h.disk ?_ fun e he => he.stirs ?_
      · obtain ⟨u, hu, rfl⟩ := Disk.rename_ok hdisk
        exact put_wf (put_wf h.wf (by simp)) fun v hv =>
          Option.some.inj hv ▸ Tree.wf_get? h.wf hu
      · rcases ho with ⟨label, rfl⟩ | ⟨oid, rfl, rfl⟩
        · exact Disk.rename_stirs_quarantine hdisk
        · exact Disk.rename_stirs_trash hdisk
  | rmtree p =>
    obtain ⟨oid, hp⟩ := ho
    exact h.removing hp (fun d hd => Disk.rmtree_ok hd) (fun _ _ hv => hv) hexec hspares
  | unlink p =>
    obtain ⟨oid, hp⟩ := ho
    exact h.removing hp (fun d hd => Disk.unlink_ok hd) (fun _ _ hv => by cases hv) hexec hspares
  | _ => exact ho.elim

end Transparent

section Uses

variable {α : Type} {φ : Op → Prop} {p : M α}

theorem uses_invalidate : invalidateAuxiliaryCache.Uses movesRaw :=
  Prog.uses_bind (Prog.uses_call trivial) fun _ => Prog.uses_call trivial

theorem uses_removeTree {p : Path} (hp : ∃ oid, p = msPathOf oid ∨ p = trashPath oid) :
    (removeTree p).Uses movesRaw :=
  Prog.uses_bind (Prog.uses_call trivial) fun _ => Prog.uses_ite (Prog.uses_call hp)
    (Prog.uses_call hp)

theorem uses_quarantinePath (source : Path) (label : String) :
    (quarantinePath source label).Uses movesRaw := by
  refine Prog.uses_bind (Prog.uses_call trivial) fun _ => Prog.uses_ite trivial ?_
  have hseeks : ∀ o : Op, o.seeks → movesRaw o := by
    intro o ho
    cases o <;> first | exact trivial | exact ho.elim
  refine Prog.uses_bind_returns ((uniqueQuarantineTarget_seeks label).mono hseeks)
    (uniqueQuarantineTarget_entry label) ?_
  rintro _ ⟨name, rfl⟩
  refine Prog.uses_bind (Prog.uses_call (.inl rfl)) fun _ => ?_
  refine Prog.uses_bind (Prog.uses_call (.inl ⟨name, rfl⟩)) fun _ => ?_
  exact Prog.uses_bind uses_invalidate fun _ => trivial

theorem uses_moveLiveToTrash (oid : Nat) :
    (moveLiveToTrash oid (msPathOf oid) (trashPath oid)).Uses movesRaw := by
  refine Prog.uses_bind (Prog.uses_call trivial) fun _ => Prog.uses_ite ?_ trivial
  refine Prog.uses_bind (Prog.uses_call trivial) fun _ => Prog.uses_ite trivial ?_
  exact Prog.uses_bind (Prog.uses_call (.inr ⟨oid, rfl, rfl⟩)) fun _ => uses_invalidate

theorem uses_emptyTrash (oid : Nat) : (emptyTrash (trashPath oid)).Uses movesRaw := by
  refine Prog.uses_bind (Prog.uses_call trivial) fun _ => Prog.uses_ite ?_ trivial
  exact Prog.uses_bind (uses_removeTree ⟨oid, .inr rfl⟩) fun _ => uses_invalidate

end Uses

/-- A call of one of the functions that change or read what is charged. -/
inductive StorageCall where
  | quarantinePath (source : Path) (label : String)
  | finishObservationDeletion (oid : Nat)
  | forceDropObservationData (oid : Nat) (reason : String)
  | physicalSnapshot
  | auxiliaryChargedStorage

/-- The program of the call; what it returns is not looked at. -/
def StorageCall.body : StorageCall → M Unit
  | .quarantinePath source label => do
      let _ ← Sdpctl.quarantinePath source label
  | .finishObservationDeletion oid => Sdpctl.finishObservationDeletion oid
  | .forceDropObservationData oid reason => Sdpctl.forceDropObservationData oid reason
  | .physicalSnapshot => do
      let _ ← Sdpctl.physicalSnapshot
  | .auxiliaryChargedStorage => do
      let _ ← Sdpctl.auxiliaryChargedStorage false

/-- What calls one after the other can come to; each may return or raise. -/
inductive Calling (R : (o : Op) → Shared → Except Exn o.Reply → Shared → Prop) (s : Shared) :
    Shared → Prop where
  | start : Calling R s s
  | call {t u : Shared} (before : Calling R s t) (c : StorageCall) {x : Except Exn Unit}
      (runs : c.body.Runs R t x u) : Calling R s u

namespace Transparent

variable {x : Except Exn Unit}

theorem uses {α : Type} {p : M α} {y : Except Exn α} (h : Transparent s)
    (hp : p.Uses movesRaw) (hrun : p.Runs (sparing role) s y t) : Transparent t :=
  hrun.keeps hp (fun _ _ _ _ ho hdoes => op ho hdoes) h

theorem reads {f : Observation → M Unit} {oid : Nat} (h : Transparent s)
    (hf : ∀ o : Observation, o.msPath = msPathOf o.id → (f o).Uses movesRaw)
    (hrun : ((store (.getObservation oid)).bind f).Runs (sparing role) s x t) : Transparent t := by
  rcases Prog.runs_bind.mp hrun with ⟨e, he, _⟩ | ⟨o, u, ho, hrest⟩
  · exact op (o := .db (.getObservation oid)) trivial (Prog.runs_call.mp he) h
  · obtain ⟨c, hexec, _⟩ := Prog.runs_call.mp ho
    rcases Shared.query_cases hexec with ⟨y, db, hq, hy, rfl⟩ | ⟨e, he, _⟩
    · cases hy
      have hrow : s.db.obs? oid = some o ∧ db = s.db := by
        simp only [Query.run, Db.getObservation] at hq
        split at hq
        · rename_i o' ho'
          cases hq
          exact ⟨ho', rfl⟩
        · cases hq
      obtain ⟨hrow, rfl⟩ := hrow
      have hid := (Db.mem_of_obs? hrow).2
      exact h.uses (hf o (by rw [hid]; exact h.named oid o hrow)) hrest
    · cases he

theorem finish {oid : Nat} (h : Transparent s)
    (hrun : (finishObservationDeletion oid).Runs (sparing role) s x t) : Transparent t := by
  refine h.reads ?_ hrun
  intro o ho
  rw [ho]
  refine Prog.uses_ite trivial ?_
  refine Prog.uses_bind (Prog.uses_call (.inr rfl)) fun _ => ?_
  refine Prog.uses_bind (uses_moveLiveToTrash o.id) fun _ => ?_
  exact Prog.uses_bind (uses_emptyTrash o.id) fun _ => Prog.uses_call trivial

theorem drop {oid : Nat} {reason : String} (h : Transparent s)
    (hrun : (forceDropObservationData oid reason).Runs (sparing role) s x t) : Transparent t := by
  refine h.reads ?_ hrun
  intro o ho
  rw [ho]
  refine Prog.uses_ite trivial ?_
  have hcopy : ∀ p, (∃ i, p = msPathOf i ∨ p = trashPath i) → (dropCopy p).Uses movesRaw :=
    fun p hp => Prog.uses_bind (Prog.uses_call trivial) fun _ => Prog.uses_ite (uses_removeTree hp)
      trivial
  refine Prog.uses_bind (Prog.uses_bind (hcopy _ ⟨o.id, .inl rfl⟩) fun _ =>
    Prog.uses_bind (hcopy _ ⟨o.id, .inr rfl⟩) fun _ => trivial) fun _ => ?_
  exact Prog.uses_bind uses_invalidate fun _ => Prog.uses_call trivial

end Transparent

/-- The program can return `a` and leaves `u`; otherwise an operation failed, and
nothing has changed. -/
structure Finds {α : Type} (role : Role) (p : M α) (s : Shared) (a : α) (u : Shared) : Prop where
  can : p.Runs (alone role) s (.ok a) u
  only : ∀ x t, p.Runs (alone role) s x t →
    (t = u ∧ x = .ok a) ∨ (t = s ∧ ∃ q, x = .error (.osError q))

namespace Finds

variable {α β : Type} {a : α} {b : β} {u : Shared}

theorem of_answers {p : M α} (h : Answers role p s a) : Finds role p s a s where
  can := h.can
  only x t hrun := by
    obtain ⟨ht, hx⟩ := h.only x t hrun
    exact hx.imp (fun hx => ⟨ht, hx⟩) fun hx => ⟨ht, hx⟩

theorem after {p : M α} {f : α → M β} (hp : Answers role p s a) (hf : Finds role (f a) s b u) :
    Finds role (p.bind f) s b u where
  can := Prog.runs_bind_ok.mpr ⟨a, s, hp.can, hf.can⟩
  only x t hrun := by
    rcases hp.rest hrun with hrest | hfailed
    · exact hf.only x t hrest
    · exact .inr hfailed

theorem cachePut {e : AuxCache} (hrole : role ≠ .cli) :
    Finds role ((call (.cachePut e)).bind fun _ => .ret (.ok a)) s a
      { s with ctl := { s.ctl with cache := some e } } where
  can := by
    refine Prog.runs_bind_ok.mpr ⟨(), _, Prog.runs_call.mpr ⟨.ok, ?_⟩, rfl, rfl⟩
    simp [exec, Shared.sure, hrole]
  only x t hrun := by
    obtain ⟨y, v, ⟨c, hc⟩, hrest⟩ := hrun
    cases c with
    | ok =>
      simp only [exec, Shared.sure, hrole, ite_false, Option.some.injEq, Prod.mk.injEq] at hc
      obtain ⟨rfl, rfl⟩ := hc
      obtain ⟨rfl, rfl⟩ := hrest
      exact .inl ⟨rfl, rfl⟩
    | _ => cases hc

end Finds

def Shared.remembered (s : Shared) : Shared :=
  { s with ctl := { s.ctl with cache := some (s.disk.signature, s.disk.auxiliary) } }

/-- With a coherent cache the charged storage is what a walk finds, also where it is
taken from the cache. -/
theorem Transparent.charged (h : Transparent s) (hrole : role ≠ .cli) (force : Bool) :
    ∃ u, (u = s ∨ u = s.remembered) ∧
      Finds role (auxiliaryChargedStorage force) s s.disk.auxiliary u := by
  have hwalk : Finds role
      ((apparentSize quarantineRoot).bind fun q => (apparentSize trashRoot).bind fun t =>
        (call (.cachePut (s.disk.signature, (q, t)))).bind fun _ => .ret (.ok (q, t)))
      s s.disk.auxiliary s.remembered :=
    .after (apparentSize_answers h.wf _) (.after (apparentSize_answers h.wf _) (.cachePut hrole))
  have hstart : ∀ u, Finds role
      (match s.ctl.cache with
        | some (old, sizes) =>
            if !force && old == s.disk.signature then .ret (.ok sizes)
            else (apparentSize quarantineRoot).bind fun q => (apparentSize trashRoot).bind fun t =>
              (call (.cachePut (s.disk.signature, (q, t)))).bind fun _ => .ret (.ok (q, t))
        | none => (apparentSize quarantineRoot).bind fun q => (apparentSize trashRoot).bind fun t =>
            (call (.cachePut (s.disk.signature, (q, t)))).bind fun _ => .ret (.ok (q, t)))
      s s.disk.auxiliary u → Finds role (auxiliaryChargedStorage force) s s.disk.auxiliary u :=
    fun u hrest => .after (resolve_answers _) (.after mtimeSignature_answers
      (.after (cacheGet_answers hrole) hrest))
  cases hcache : s.ctl.cache with
  | none =>
    refine ⟨_, .inr rfl, hstart _ ?_⟩
    rw [hcache]
    exact hwalk
  | some e =>
    obtain ⟨old, sizes⟩ := e
    by_cases hhit : (!force && old == s.disk.signature) = true
    · refine ⟨s, .inl rfl, hstart _ ?_⟩
      simp only [Bool.and_eq_true, beq_iff_eq] at hhit
      have hsizes := (h.coherent _ hcache).hit hhit.2
      simp only at hsizes
      rw [hcache]
      simp only [hhit, hsizes, Bool.and_self, beq_self_eq_true, ite_true]
      exact .of_answers .pure
    · refine ⟨_, .inr rfl, hstart _ ?_⟩
      rw [hcache]
      simp only [if_neg hhit]
      exact hwalk

theorem Transparent.remembered (h : Transparent s) : Transparent s.remembered :=
  h.cache fun _ hv => Option.some.inj hv ▸ Coherent.fresh s.disk

theorem Transparent.charging {force : Bool} {x : Except Exn (Nat × Nat)} (h : Transparent s)
    (hrole : role ≠ .cli) (hrun : (auxiliaryChargedStorage force).Runs (alone role) s x t) :
    Transparent t := by
  obtain ⟨u, hu, hfinds⟩ := h.charged hrole force
  rcases hfinds.only x t hrun with ⟨rfl, _⟩ | ⟨rfl, _⟩
  · rcases hu with rfl | rfl
    · exact h
    · exact h.remembered
  · exact h

theorem Transparent.snapshot {x : Except Exn PhysicalStorage} (h : Transparent s)
    (hrole : role ≠ .cli) (hrun : physicalSnapshot.Runs (alone role) s x t) : Transparent t := by
  rcases Prog.runs_bind.mp hrun with ⟨e, he, _⟩ | ⟨sizes, u, hu, hrest⟩
  · exact h.charging hrole he
  · have hmid := h.charging hrole hu
    -- the two walks that follow change nothing
    have hwalks : Answers role ((apparentSize observationsRoot).bind fun managedRaw =>
        (apparentSize productsRoot).bind fun products =>
          (.ret (.ok ⟨managedRaw, sizes.1, sizes.2, products⟩) : M PhysicalStorage)) u
        ⟨u.disk.bytesAt observationsRoot, sizes.1, sizes.2, u.disk.bytesAt productsRoot⟩ :=
      (apparentSize_answers hmid.wf _).bind ((apparentSize_answers hmid.wf _).bind .pure)
    obtain ⟨rfl, _⟩ := hwalks.only x t hrest
    exact hmid

theorem sparing_alone {α : Type} {p : M α} {x : Except Exn α} (h : p.Runs (sparing role) s x t) :
    p.Runs (alone role) s x t :=
  h.mono fun _ _ _ _ ⟨c, hexec, _⟩ => ⟨c, hexec⟩

theorem Transparent.call {c : StorageCall} {x : Except Exn Unit} (h : Transparent s)
    (hrole : role ≠ .cli) (hrun : c.body.Runs (sparing role) s x t) : Transparent t := by
  cases c with
  | quarantinePath source label =>
    have hmoves : (StorageCall.quarantinePath source label).body.Uses movesRaw :=
      Prog.uses_bind (uses_quarantinePath source label) fun _ => (trivial : True)
    exact h.uses hmoves hrun
  | finishObservationDeletion oid => exact h.finish hrun
  | forceDropObservationData oid reason => exact h.drop hrun
  | physicalSnapshot =>
    rcases Prog.runs_bind.mp (sparing_alone hrun) with ⟨e, he, _⟩ | ⟨a, u, ha, hend⟩
    · exact h.snapshot hrole he
    · obtain ⟨_, rfl⟩ := hend
      exact h.snapshot hrole ha
  | auxiliaryChargedStorage =>
    rcases Prog.runs_bind.mp (sparing_alone hrun) with ⟨e, he, _⟩ | ⟨a, u, ha, hend⟩
    · exact h.charging hrole he
    · obtain ⟨_, rfl⟩ := hend
      exact h.charging hrole ha

theorem Calling.transparent (h : Calling (sparing role) s t) (hrole : role ≠ .cli)
    (hs : Transparent s) : Transparent t := by
  induction h with
  | start => exact hs
  | call before c runs ih => exact ih.call hrole runs

/-- `auxiliary_charged_storage` finds one pair, forced or not; it can only fail to
find it where an operation fails. -/
def Faithful (role : Role) (s : Shared) : Prop :=
  ∃ sizes, ∀ force, (∃ t, (auxiliaryChargedStorage force).Runs (alone role) s (.ok sizes) t) ∧
    ∀ x t, (auxiliaryChargedStorage force).Runs (alone role) s x t →
      x = .ok sizes ∨ ∃ q, x = .error (.osError q)

theorem Transparent.faithful (h : Transparent s) (hrole : role ≠ .cli) : Faithful role s := by
  refine ⟨s.disk.auxiliary, fun force => ?_⟩
  obtain ⟨u, _, hfinds⟩ := h.charged hrole force
  exact ⟨⟨u, hfinds.can⟩, fun x t hrun => (hfinds.only x t hrun).imp And.right And.right⟩

/-- However the calls of a controller that has just begun come out, its cache tells
what a walk would find, as long as no removal that stopped part-way has taken bytes
from the trash behind a cached value. -/
theorem cache_transparent (hrole : role ≠ .cli) (hids : s.db.Ids)
    (hnamed : ∀ oid o, s.db.obs? oid = some o → o.msPath = msPathOf oid)
    (hwf : s.disk.root.wf) (hempty : s.ctl.cache = none) (h : Calling (sparing role) s t) :
    Faithful role t := by
  have hstart : Transparent s :=
    ⟨hids, hnamed, hwf, fun e he => by rw [hempty] at he; cases he⟩
  exact (h.transparent hrole hstart).faithful hrole

theorem oneDeleting_transparent : Transparent oneDeleting where
  ids := ⟨by decide, by decide, by decide, by decide⟩
  named oid o ho := by
    obtain ⟨hmem, rfl⟩ := Db.mem_of_obs? ho
    rw [List.mem_singleton.mp hmem]
  wf := by decide
  coherent e he := by cases he

theorem ok_of_toOption {α : Type} {x : Except Exn α} {a : α} (h : x.toOption = some a) :
    x = .ok a := by
  cases x with
  | ok b => rw [Option.some.inj h]
  | error e => cases h

/-- A removal from the trash fails before it has taken anything. There is a value in the cache,
and it is what a walk would find. -/
theorem cache_transparent_kept : ∃ t, Calling (sparing .main) oneDeleting t ∧
    t.ctl.cache.isSome = true ∧ Faithful .main t := by
  have hplain : ∀ c : Choice, (∀ u, c ≠ .leaves u) → ∀ o s y t, exec .main o c s = some (y, t) →
      sparing .main o s y t := fun c hc o s y t h => ⟨c, h, fun ⟨⟨u, hu⟩, _⟩ => hc u hu⟩
  have hrun : ((follow .main (List.replicate 16 .ok) StorageCall.auxiliaryChargedStorage.body
      oneDeleting).bind ended).any (fun r => ((follow .main (List.replicate 5 .ok ++ [.fail])
        (StorageCall.finishObservationDeletion 1).body r.2).bind ended).any
          fun r => r.2.ctl.cache.isSome) = true := by decide +kernel
  obtain ⟨x, s, hfirst, htest⟩ := runs_of_ended (R := sparing .main)
    (fun o s y t c hc => hplain c (by simp at hc; simp [hc]) o s y t) hrun
  obtain ⟨y, t, hsecond, hcached⟩ := runs_of_ended (R := sparing .main)
    (fun o s y t c hc => hplain c (by simp at hc; rcases hc with rfl | rfl <;> simp) o s y t) htest
  have hcalls := (Calling.start.call _ hfirst).call _ hsecond
  have hs := oneDeleting_transparent
  exact ⟨t, hcalls, hcached, cache_transparent (by decide) hs.ids hs.named hs.wf rfl hcalls⟩

/-- A removal that fails after it has taken a nested file leaves a value in the cache
that counts what is gone. -/
theorem cache_overstates : Transparent oneDeleting ∧ oneDeleting.ctl.cache = none ∧
    ∃ t, Calling (alone .main) oneDeleting t ∧
      (∃ u, (auxiliaryChargedStorage false).Runs (alone .main) t (.ok (0, 3)) u) ∧
      (∃ u, (auxiliaryChargedStorage true).Runs (alone .main) t (.ok (0, 0)) u) ∧
      ¬ Faithful .main t := by
  have hrun : ((follow .main (List.replicate 16 .ok) StorageCall.auxiliaryChargedStorage.body
      oneDeleting).bind ended).any (fun r =>
        ((follow .main (List.replicate 5 .ok ++ [.leaves (.dir 1 [])])
          (StorageCall.finishObservationDeletion 1).body r.2).bind ended).any fun r =>
            ((follow .main (List.replicate 6 .ok) (auxiliaryChargedStorage false) r.2).bind
              ended).any (fun q => q.1.toOption = some (0, 3)) &&
            ((follow .main (List.replicate 14 .ok) (auxiliaryChargedStorage true) r.2).bind
              ended).any fun q => q.1.toOption = some (0, 0)) = true := by decide +kernel
  have halone : ∀ cs : List Choice, ∀ o s y t, ∀ c ∈ cs, exec .main o c s = some (y, t) →
      alone .main o s y t := fun _ _ _ _ _ c _ h => ⟨c, h⟩
  obtain ⟨_, _, hfirst, htest⟩ := runs_of_ended (halone _) hrun
  obtain ⟨_, t, hsecond, htest⟩ := runs_of_ended (halone _) htest
  obtain ⟨hkept, hwalked⟩ := Bool.and_eq_true_iff.mp htest
  obtain ⟨x, u, hcached, hx⟩ := runs_of_ended (halone _) hkept
  obtain ⟨y, v, hforced, hy⟩ := runs_of_ended (halone _) hwalked
  obtain rfl : x = .ok (0, 3) := ok_of_toOption (of_decide_eq_true hx)
  obtain rfl : y = .ok (0, 0) := ok_of_toOption (of_decide_eq_true hy)
  refine ⟨oneDeleting_transparent, rfl, t, (Calling.start.call _ hfirst).call _ hsecond,
    ⟨u, hcached⟩, ⟨v, hforced⟩, ?_⟩
  rintro ⟨sizes, hsizes⟩
  rcases (hsizes false).2 _ _ hcached with h | ⟨_, h⟩
  · rcases (hsizes true).2 _ _ hforced with h' | ⟨_, h'⟩
    · cases h.trans h'.symm
    · cases h'
  · cases h

end Sdpctl
