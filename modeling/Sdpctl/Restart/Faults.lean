import Sdpctl.Coop.Solo
import Sdpctl.Qa
import Sdpctl.Restart.Phases

/-!
A deletion in a process whose operations may fail. The programs have no handler,
so a failing operation ends them; what it leaves is what an interruption of the
same deletion leaves.
-/

namespace Sdpctl

open FileTree Coop

/-- One process that nobody disturbs, however its operations come out. What an
interruption leaves within a removal is what its failure leaves. -/
def anyhow (role : Role) : Solo Op.Reply Exn Shared where
  does o s x t := ∃ c : Choice, exec role o c s = some (x, t)
  breaks _ _ _ := False

def Op.deletes : Op → Prop
  | .db _ | .exists_ _ | .isDir _ | .resolve _ | .mkdir _ | .rename _ _ | .rmtree _ | .unlink _
  | .cachePop => True
  | _ => False

variable {role : Role} {s t : Shared}

/-- A failing operation of a deletion has done nothing, or a part of a removal. -/
theorem anyhow_faulty : Prog.Faulty Op.deletes (smoothly role) (anyhow role) where
  does o s x t := fun ⟨c, _, h⟩ => ⟨c, h⟩
  breaks o s t h := h.elim
  fails := by
    rintro o s x t ho ⟨c, h⟩
    cases c with
    | ok | order => exact .inl ⟨_, rfl, h⟩
    | leaves u =>
      refine .inr ⟨?_, .inr ⟨u, x, h⟩⟩
      cases o with
      | rmtree p =>
        obtain ⟨d, _, heq⟩ := Option.map_eq_some_iff.mp h
        cases heq
        exact ⟨_, rfl⟩
      | _ => first | exact False.elim ho | cases h
    | fail =>
      cases o with
      | db | exists_ | isDir | resolve | mkdir | rename | rmtree | unlink =>
        cases h
        exact .inr ⟨⟨_, rfl⟩, .inl rfl⟩
      | _ => first | exact False.elim ho | cases h
    | blind | exit | output => cases o <;> first | exact False.elim ho | cases h

/-- The program, followed along the outcomes of its operations. -/
def follow {α : Type} (role : Role) : List Choice → M α → Shared → Option (M α × Shared)
  | [], p, s => some (p, s)
  | _ :: _, .ret _, _ => none
  | c :: cs, .op o next, s => (exec role o c s).bind fun (x, t) => follow role cs (next x) t

theorem leads_of_follow {α : Type} {cs : List Choice} {p q : M α}
    (h : follow role cs p s = some (q, t)) : Prog.Leads (anyhow role) p s q t := by
  induction cs generalizing p s with
  | nil =>
    cases h
    exact .here
  | cons c cs ih =>
    cases p with
    | ret x => cases h
    | op o next =>
      obtain ⟨⟨x, u⟩, hexec, hrest⟩ := Option.bind_eq_some_iff.mp h
      have hfirst : Prog.Leads (anyhow role) (.op o next) s (next x) u := .next .here ⟨c, hexec⟩
      exact hfirst.trans (ih hrest)

theorem runs_of_follow {α : Type} {R : (o : Op) → Shared → Except Exn o.Reply → Shared → Prop}
    {cs : List Choice} {p : M α} {x : Except Exn α}
    (hR : ∀ o s y t, ∀ c ∈ cs, exec role o c s = some (y, t) → R o s y t)
    (h : follow role cs p s = some (.ret x, t)) : p.Runs R s x t := by
  induction cs generalizing p s with
  | nil =>
    cases h
    exact ⟨rfl, rfl⟩
  | cons c cs ih =>
    cases p with
    | ret y => cases h
    | op o next =>
      obtain ⟨⟨y, u⟩, hexec, hrest⟩ := Option.bind_eq_some_iff.mp h
      have hmore : ∀ o s y t, ∀ c ∈ cs, exec role o c s = some (y, t) → R o s y t :=
        fun o s y t c hc => hR o s y t c (List.mem_cons_of_mem _ hc)
      exact ⟨y, u, hR o s y u c List.mem_cons_self hexec, ih hmore hrest⟩

def ended {α : Type} : M α × Shared → Option (Except Exn α × Shared)
  | (.ret x, t) => some (x, t)
  | _ => none

theorem runs_of_ended {α : Type} {R : (o : Op) → Shared → Except Exn o.Reply → Shared → Prop}
    {cs : List Choice} {p : M α} {test : Except Exn α × Shared → Bool}
    (hR : ∀ o s y t, ∀ c ∈ cs, exec role o c s = some (y, t) → R o s y t)
    (h : ((follow role cs p s).bind ended).any test = true) :
    ∃ x t, p.Runs R s x t ∧ test (x, t) = true := by
  obtain ⟨⟨x, t⟩, hend, htest⟩ := (Option.any_eq_true _ _).mp h
  obtain ⟨⟨q, u⟩, hfollow, hq⟩ := Option.bind_eq_some_iff.mp hend
  cases q with
  | ret y =>
    cases hq
    exact ⟨_, _, runs_of_follow hR hfollow, htest⟩
  | op o next => cases hq

/-- An observation whose deletion was interrupted after the rename. -/
def oneDeleting : Shared :=
  { initial with
    db := { Db.empty with
      observations := [{ id := 1, state := .deleting, msPath := msPathOf 1, sizeBytes := 3,
                         reservedBytes := 0, error := none }]
      obsSeq := 1 }
    disk := { initial.disk with
      root := initial.disk.root.set (trashPath 1) (some (.dir 1 [("table", .file 2 [7, 7, 7])])) } }

section Plain

variable {φ : Op → Prop}

theorem invalidateAuxiliaryCache_plain (hroot : φ (.resolve [])) (hpop : φ .cachePop) :
    invalidateAuxiliaryCache.Plain φ :=
  .bind (.call hroot) fun _ => .call hpop

theorem removeTree_plain {p : Path} (hdir : φ (.isDir p)) (hrmtree : φ (.rmtree p))
    (hunlink : φ (.unlink p)) : (removeTree p).Plain φ :=
  .bind (.call hdir) fun _ => .ite (.call hrmtree) (.call hunlink)

theorem moveLiveToTrash_plain {src trash : Path} (oid : Nat) (hsrc : φ (.exists_ src))
    (htrash : φ (.exists_ trash)) (hmove : φ (.rename src trash)) (hroot : φ (.resolve []))
    (hpop : φ .cachePop) : (moveLiveToTrash oid src trash).Plain φ := by
  refine .bind (.call hsrc) fun _ => .ite ?_ trivial
  refine .bind (.call htrash) fun _ => .ite trivial ?_
  exact .bind (.call hmove) fun _ => invalidateAuxiliaryCache_plain hroot hpop

theorem emptyTrash_plain {trash : Path} (hhas : φ (.exists_ trash)) (hdir : φ (.isDir trash))
    (hrmtree : φ (.rmtree trash)) (hunlink : φ (.unlink trash)) (hroot : φ (.resolve []))
    (hpop : φ .cachePop) : (emptyTrash trash).Plain φ := by
  refine .bind (.call hhas) fun _ => .ite ?_ trivial
  exact .bind (removeTree_plain hdir hrmtree hunlink) fun _ =>
    invalidateAuxiliaryCache_plain hroot hpop

theorem finishObservationDeletion_plain (oid : Nat) :
    (finishObservationDeletion oid).Plain Op.deletes := by
  refine .bind (.call trivial) fun obs => .ite trivial ?_
  refine .bind (.call trivial) fun _ => ?_
  refine .bind (moveLiveToTrash_plain _ trivial trivial trivial trivial trivial) fun _ => ?_
  refine .bind (emptyTrash_plain trivial trivial trivial trivial trivial trivial) fun _ => ?_
  exact .call trivial

end Plain

section Rules

variable {α : Type} {J : Shared → Prop}

theorem query_anyhow {q : Query} {f : q.Reply → M α} (hJ : J s)
    (hok : ∀ a db, q.run s.db = .ok (a, db) →
      J { s with db } ∧ (f a).Meets (anyhow role) J (fun _ _ => True) { s with db }) :
    ((store q).bind f).Meets (anyhow role) J (fun _ _ => True) s := by
  refine ⟨⟨.error .sqliteError, s, .fail, rfl⟩, fun _ h => h.elim, fun x t ⟨c, h⟩ => ?_⟩
  rcases Shared.query_cases h with ⟨a, db, hrun, rfl, rfl⟩ | ⟨e, rfl, rfl⟩
  · exact hok a db hrun
  · exact ⟨hJ, trivial⟩

theorem look_anyhow {q : Query} {f : q.Reply → M α} (hreads : q.reads = true) (ids : s.db.Ids)
    (hJ : J s) (hok : ∀ a, q.run s.db = .ok (a, s.db) →
      (f a).Meets (anyhow role) J (fun _ _ => True) s) :
    ((store q).bind f).Meets (anyhow role) J (fun _ _ => True) s := by
  refine query_anyhow hJ fun a db hrun => ?_
  have hsame : db = s.db := by
    cases Db.Call.of_run ids hrun with
    | same => rfl
    | _ => cases hreads
  subst hsame
  exact ⟨hJ, hok a hrun⟩

theorem exists_anyhow {p : Path} {f : Bool → M α} (hJ : J s)
    (hok : ∀ b, (f b).Meets (anyhow role) J (fun _ _ => True) s) :
    ((call (.exists_ p)).bind f).Meets (anyhow role) J (fun _ _ => True) s := by
  refine ⟨⟨.ok (s.disk.has p), s, .ok, rfl⟩, fun _ h => h.elim, fun x t ⟨c, h⟩ => ?_⟩
  obtain rfl : t = s := Shared.reading_eq h
  refine ⟨hJ, ?_⟩
  cases x with
  | ok b => exact hok b
  | error e => trivial

end Rules

end Sdpctl
