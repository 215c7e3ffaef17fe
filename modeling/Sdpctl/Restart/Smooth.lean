import Sdpctl.Coop.Interrupt
import Sdpctl.Discipline.Logic
import Sdpctl.Restart.Estate

/-!
One process alone, when no operation fails. Each rule says what one
operation makes of the rows and the files; a removal is the only operation that
an interruption can catch half-way.
-/

namespace Sdpctl

open FileTree Coop

/-- The operation does not fail; a stop of containers has seen them. -/
def Choice.smooth : Choice → Bool
  | .ok | .order _ => true
  | _ => false

/-- One process, when no operation fails and nobody else acts. -/
def smoothly (role : Role) : Solo Op.Reply Exn Shared where
  does o s x t := ∃ c : Choice, c.smooth = true ∧ exec role o c s = some (x, t)
  breaks o s t := ∃ u x, exec role o (.leaves u) s = some (x, t)

/-- The program returns, with `P`, and an interruption leaves rows and files in `K`. -/
abbrev Smooth {α : Type} (role : Role) (K : Estate → Prop) (p : M α) (P : α → Shared → Prop)
    (s : Shared) : Prop := p.Gives (smoothly role) (fun t => K t.estate) P s

variable {α : Type} {role : Role} {K : Estate → Prop} {s : Shared}

theorem smooth_call {o : Op} {a : o.Reply} {t : Shared} {P : o.Reply → Shared → Prop}
    (hdoes : ∀ x u, (smoothly role).does o s x u ↔ x = .ok a ∧ u = t)
    (hbreaks : ∀ u, (smoothly role).breaks o s u → K u.estate) (hK : K t.estate) (hP : P a t) :
    Smooth role K (call o) P s := by
  refine ⟨⟨.ok a, t, (hdoes _ _).mpr ⟨rfl, rfl⟩⟩, hbreaks, fun x u hx => ?_⟩
  obtain ⟨rfl, rfl⟩ := (hdoes x u).mp hx
  exact ⟨hK, a, rfl, hP⟩

theorem smooth_reading {β : Type} {p : Path} {y x : Except Exn β} {t : Shared} :
    (∃ c : Choice, c.smooth = true ∧ s.reading c p y = some (x, t)) ↔ x = y ∧ t = s := by
  constructor
  · rintro ⟨c, hc, h⟩
    cases c <;> simp [Choice.smooth, Shared.reading] at hc h
    exact ⟨h.1.symm, h.2.symm⟩
  · rintro ⟨rfl, rfl⟩
    exact ⟨.ok, rfl, rfl⟩

theorem smooth_sure {β : Type} {y x : Except Exn β} {u t : Shared} :
    (∃ c : Choice, c.smooth = true ∧ Shared.sure c y u = some (x, t)) ↔ x = y ∧ t = u := by
  constructor
  · rintro ⟨c, hc, h⟩
    cases c <;> simp [Choice.smooth, Shared.sure] at hc h
    exact ⟨h.1.symm, h.2.symm⟩
  · rintro ⟨rfl, rfl⟩
    exact ⟨.ok, rfl, rfl⟩

theorem smooth_query {q : Query} {a : q.Reply} {db : Db} (h : q.run s.db = .ok (a, db))
    {x : Except Exn q.Reply} {t : Shared} :
    (∃ c : Choice, c.smooth = true ∧ s.query c q = some (x, t)) ↔
      x = .ok a ∧ t = { s with db } := by
  constructor
  · rintro ⟨c, hc, hx⟩
    cases c <;> simp [Choice.smooth, Shared.query, h] at hc hx
    exact ⟨hx.1.symm, hx.2.symm⟩
  · rintro ⟨rfl, rfl⟩
    exact ⟨.ok, rfl, by simp [Shared.query, h]⟩

theorem smooth_writing {p : Path} {d : Disk} {x : Except Exn Unit} {t : Shared} :
    (∃ c : Choice, c.smooth = true ∧ s.writing c p (.ok d) = some (x, t)) ↔
      x = .ok () ∧ t = { s with disk := d } := by
  constructor
  · rintro ⟨c, hc, h⟩
    cases c <;> simp [Choice.smooth, Shared.writing] at hc h
    exact ⟨h.1.symm, h.2.symm⟩
  · rintro ⟨rfl, rfl⟩
    exact ⟨.ok, rfl, rfl⟩

theorem smooth_removing {p : Path} {y : Except Exn Disk} {part : Tree → Option Disk}
    {x : Except Exn Unit} {t : Shared} :
    (∃ c : Choice, c.smooth = true ∧ s.removing c p y part = some (x, t)) ↔
      s.removing .ok p y part = some (x, t) := by
  constructor
  · rintro ⟨c, hc, h⟩
    cases c with
    | ok => exact h
    | _ => simp [Choice.smooth, Shared.removing] at hc h
  · exact fun h => ⟨.ok, rfl, h⟩

theorem exec_ids {t : Shared} {r : Role} {o : Op} {k : Choice} {x : Except Exn o.Reply}
    (h : exec r o k s = some (x, t)) (ids : s.db.Ids) : t.db.Ids := by
  rcases (exec_framed h).db with hsame | ⟨q, y, db, _, _, hrun, rfl⟩
  · exact hsame ▸ ids
  · exact (Db.Call.of_run ids hrun).ids ids

section Operations

variable {p q : Path}

theorem smooth_exists {P : Bool → Shared → Prop} (hK : K s.estate) (hP : P (s.disk.has p) s) :
    Smooth role K (call (.exists_ p)) P s :=
  smooth_call (fun _ _ => smooth_reading) (fun _ ⟨_, _, h⟩ => by cases h) hK hP

theorem smooth_isDir {P : Bool → Shared → Prop} (hK : K s.estate) (hP : P (s.disk.isDirAt p) s) :
    Smooth role K (call (.isDir p)) P s :=
  smooth_call (fun _ _ => smooth_reading) (fun _ ⟨_, _, h⟩ => by cases h) hK hP

theorem smooth_entryCount {P : Nat → Shared → Prop} (hK : K s.estate)
    (hP : P (s.disk.entryCount p) s) : Smooth role K (call (.entryCount p)) P s :=
  smooth_call (fun _ _ => smooth_reading) (fun _ ⟨_, _, h⟩ => by cases h) hK hP

theorem smooth_resolve {P : Path → Shared → Prop} (hK : K s.estate) (hP : P p s) :
    Smooth role K (call (.resolve p)) P s :=
  smooth_call (fun _ _ => smooth_reading) (fun _ ⟨_, _, h⟩ => by cases h) hK hP

theorem smooth_cachePop {P : Unit → Shared → Prop} (hK : K s.estate)
    (hP : ∀ t : Shared, t.db = s.db → t.disk = s.disk → P () t) :
    Smooth role K (call .cachePop) P s := by
  have hsame : ∀ t : Shared,
      (t = if role = .cli then s else { s with ctl := { s.ctl with cache := none } }) →
      t.db = s.db ∧ t.disk = s.disk := by
    rintro _ rfl
    split <;> exact ⟨rfl, rfl⟩
  obtain ⟨hdb, hdisk⟩ := hsame _ rfl
  refine smooth_call (fun _ _ => smooth_sure) (fun _ ⟨_, _, h⟩ => by cases h) ?_ (hP _ hdb hdisk)
  simpa [Shared.estate, hdb, hdisk] using hK

theorem smooth_store {q : Query} {a : q.Reply} {db : Db} {P : q.Reply → Shared → Prop}
    (h : q.run s.db = .ok (a, db)) (hK : K { s with db }.estate) (hP : P a { s with db }) :
    Smooth role K (store q) P s :=
  smooth_call (fun _ _ => smooth_query h) (fun _ ⟨_, _, hx⟩ => by cases hx) hK hP

theorem smooth_look {q : Query} {a : q.Reply} {P : q.Reply → Shared → Prop}
    (h : q.run s.db = .ok (a, s.db)) (hK : K s.estate) (hP : P a s) :
    Smooth role K (store q) P s :=
  smooth_store h hK hP

theorem smooth_mkdir {P : Unit → Shared → Prop} (hdir : s.disk.root.IsDir p) (hK : K s.estate)
    (hP : P () s) : Smooth role K (call (.mkdir p)) P s := by
  have hmkdir : s.disk.mkdir p = .ok s.disk := Disk.mkdir_of_isDir hdir
  refine smooth_call (a := ()) (t := s) (fun x u => ?_) (fun _ ⟨_, _, h⟩ => by cases h) hK hP
  change (∃ c : Choice, c.smooth = true ∧ s.writing c p (s.disk.mkdir p) = some (x, u)) ↔ _
  rw [hmkdir]
  exact smooth_writing

theorem smooth_rename {P : Unit → Shared → Prop} {t : Tree} (ht : s.disk.get? p = some t)
    (hq : s.disk.get? q = none) (hdir : s.disk.root.IsDir (parent q))
    (hpq : Apart p q) (hK : K { s.estate with disk := s.disk.move p q t })
    (hP : P () { s with disk := s.disk.move p q t }) :
    Smooth role K (call (.rename p q)) P s := by
  refine smooth_call (a := ()) (t := { s with disk := s.disk.move p q t }) (fun x u => ?_)
    (fun _ ⟨_, _, h⟩ => by cases h) hK hP
  change (∃ c : Choice, c.smooth = true ∧ s.writing c p (s.disk.rename p q) = some (x, u)) ↔ _
  rw [Disk.rename_free ht hq hdir hpq.not_prefix hpq.symm.not_prefix]
  exact smooth_writing

theorem smooth_rmtree {P : Unit → Shared → Prop} {t : Tree} (ht : s.disk.get? p = some t)
    (hdir : t.isDir = true)
    (hpart : ∀ u d, s.disk.rmtreePart p u = some d → K { s.estate with disk := d })
    (hK : K { s.estate with disk := s.disk.put p none })
    (hP : ∀ u : Shared, u.db = s.db → u.disk = s.disk.put p none → P () u) :
    Smooth role K (call (.rmtree p)) P s := by
  have hrmtree : s.disk.rmtree p = .ok (s.disk.put p none) := by
    simp [Disk.rmtree, ht, hdir]
  refine smooth_call (a := ()) (t := { s.notePurge p with disk := s.disk.put p none })
    (fun x u => ?_) ?_ ?_ (hP _ (by simp) rfl)
  · refine smooth_removing.trans ?_
    rw [hrmtree]
    simp only [Shared.removing, Option.some.injEq, Prod.mk.injEq]
    exact ⟨fun h => ⟨h.1.symm, h.2.symm⟩, fun h => ⟨h.1.symm, h.2.symm⟩⟩
  · rintro v ⟨u, x, h⟩
    obtain ⟨d, hd, hv⟩ := Option.map_eq_some_iff.mp h
    cases hv
    have hK' := hpart u d hd
    simpa [Shared.estate] using hK'
  · simpa [Shared.estate] using hK

theorem smooth_iterdir {P : List String → Shared → Prop} {ns : List String}
    (hns : s.disk.names p = .ok ns) (hK : K s.estate) (hP : ∀ names, names.Perm ns → P names s) :
    Smooth role K (call (.iterdir p)) P s := by
  have hdoes : ∀ x u, (smoothly role).does (.iterdir p) s x u ↔
      ∃ names : List String, names.Perm ns ∧ x = .ok names ∧ u = s := by
    intro x u
    constructor
    · rintro ⟨c, hc, h⟩
      cases c <;> simp [Choice.smooth, exec, hns] at hc h
      exact ⟨_, List.isPerm_iff.mp h.1, h.2.1.symm, h.2.2.symm⟩
    · rintro ⟨names, hperm, rfl, rfl⟩
      exact ⟨.order names, rfl, by simp [exec, hns, List.isPerm_iff.mpr hperm]⟩
  have hbreaks : ∀ t, (smoothly role).breaks (.iterdir p) s t → K t.estate := by
    rintro t ⟨_, _, h⟩
    cases h
  refine ⟨⟨_, _, (hdoes _ _).mpr ⟨ns, .refl ns, rfl, rfl⟩⟩, hbreaks, fun x u hx => ?_⟩
  obtain ⟨names, hperm, rfl, rfl⟩ := (hdoes x u).mp hx
  exact ⟨hK, names, rfl, hP names hperm⟩

theorem smooth_rmtree_file {Q : Except Exn Unit → Shared → Prop} (hfile : s.disk.isFileAt p = true)
    (hK : K s.estate) (hQ : Q (.error (.osError p)) s) :
    (call (.rmtree p)).Meets (smoothly role) (fun t => K t.estate) Q s := by
  obtain ⟨t, ht, hdir⟩ : ∃ t, s.disk.get? p = some t ∧ t.isDir = false := by
    cases ht : s.disk.get? p with
    | none => simp [Disk.isFileAt, ht] at hfile
    | some t => exact ⟨t, rfl, by simpa [Disk.isFileAt, ht] using hfile⟩
  have hrmtree : s.disk.rmtree p = .error (.osError p) := by simp [Disk.rmtree, ht, hdir]
  have hdoes : ∀ x u, (smoothly role).does (.rmtree p) s x u ↔ x = .error (.osError p) ∧ u = s := by
    intro x u
    refine smooth_removing.trans ?_
    rw [hrmtree]
    simp only [Shared.removing, Option.some.injEq, Prod.mk.injEq]
    exact ⟨fun h => ⟨h.1.symm, h.2.symm⟩, fun h => ⟨h.1.symm, h.2.symm⟩⟩
  refine ⟨⟨_, _, (hdoes _ _).mpr ⟨rfl, rfl⟩⟩, ?_, fun x u hx => ?_⟩
  · rintro v ⟨u, x, h⟩
    obtain ⟨d, hd, _⟩ := Option.map_eq_some_iff.mp h
    simp [Disk.rmtreePart, ht, hdir] at hd
  · obtain ⟨rfl, rfl⟩ := (hdoes x u).mp hx
    exact ⟨hK, hQ⟩

theorem smooth_unlink {P : Unit → Shared → Prop} {t : Tree} (ht : s.disk.get? p = some t)
    (hfile : t.isDir = false) (hK : K { s.estate with disk := s.disk.put p none })
    (hP : ∀ u : Shared, u.db = s.db → u.disk = s.disk.put p none → P () u) :
    Smooth role K (call (.unlink p)) P s := by
  have hunlink : s.disk.unlink p = .ok (s.disk.put p none) := by
    simp [Disk.unlink, ht, hfile]
  refine smooth_call (a := ()) (t := { s.notePurge p with disk := s.disk.put p none })
    (fun x u => ?_) (fun _ ⟨_, _, h⟩ => by cases h) ?_ (hP _ (by simp) rfl)
  · refine smooth_removing.trans ?_
    rw [hunlink]
    simp only [Shared.removing, Option.some.injEq, Prod.mk.injEq]
    exact ⟨fun h => ⟨h.1.symm, h.2.symm⟩, fun h => ⟨h.1.symm, h.2.symm⟩⟩
  · simpa [Shared.estate] using hK

end Operations

end Sdpctl
