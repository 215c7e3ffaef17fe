import Sdpctl.Coop.Pool

/-!
What a program knows. Each reply adds to it, some operations ask for it, and what is
raised may ask for it too. The rules follow the constructors of programs; for
programs side by side, what each knows has to stay true while the others move.
-/

namespace Coop

/-- How replies inform a program, and what it has to know. -/
structure Lore {Op : Type} (Reply : Op → Type) (ε G : Type) where
  learn : G → (o : Op) → Except ε (Reply o) → G
  /-- The replies that an operation can have. -/
  can : (o : Op) → Except ε (Reply o) → Prop
  /-- The program knows enough for the operation. -/
  fine : G → Op → Prop
  /-- The program knows enough to raise the exception. -/
  raises : G → ε → Prop

namespace Prog

variable {Op ε G α β : Type} {Reply : Op → Type} (L : Lore Reply ε G)

/-- The program never does or raises what it does not know enough for. -/
def Informed : Prog Reply ε α → G → Prop
  | .ret (.ok _), _ => True
  | .ret (.error e), g => L.raises g e
  | .op o next, g => L.fine g o ∧ ∀ x, L.can o x → (next x).Informed (L.learn g o x)

variable {L} {g : G}

theorem Informed.call_bind {o : Op} {f : Reply o → Prog Reply ε α} (hfine : L.fine g o)
    (herr : ∀ e, L.can o (.error e) → L.raises (L.learn g o (.error e)) e)
    (hok : ∀ a, L.can o (.ok a) → (f a).Informed L (L.learn g o (.ok a))) :
    ((call o).bind f).Informed L g := by
  refine ⟨hfine, fun x hx => ?_⟩
  cases x with
  | ok a => exact hok a hx
  | error e => exact herr e hx

theorem Informed.call {o : Op} (hfine : L.fine g o)
    (herr : ∀ e, L.can o (.error e) → L.raises (L.learn g o (.error e)) e) :
    (call o : Prog Reply ε (Reply o)).Informed L g := by
  refine ⟨hfine, fun x hx => ?_⟩
  cases x with
  | ok a => trivial
  | error e => exact herr e hx

theorem Informed.bind {p : Prog Reply ε α} {f : α → Prog Reply ε β} (hp : p.Informed L g)
    (hf : ∀ a g, (f a).Informed L g) : (p.bind f).Informed L g := by
  induction p generalizing g with
  | ret x =>
    cases x with
    | ok a => exact hf a g
    | error e => exact hp
  | op o next ih => exact ⟨hp.1, fun x hx => ih x (hp.2 x hx)⟩

theorem Informed.catchAll {p : Prog Reply ε α} {h : ε → Prog Reply ε α} (hp : p.Informed L g)
    (hh : ∀ e g, L.raises g e → (h e).Informed L g) : (p.catchAll h).Informed L g := by
  induction p generalizing g with
  | ret x =>
    cases x with
    | ok a => trivial
    | error e => exact hh e g hp
  | op o next ih => exact ⟨hp.1, fun x hx => ih x (hp.2 x hx)⟩

theorem Informed.ite {b : Prop} [Decidable b] {p q : Prog Reply ε α} (hp : b → p.Informed L g)
    (hq : ¬ b → q.Informed L g) : (if b then p else q).Informed L g := by
  split
  · exact hp ‹_›
  · exact hq ‹_›

theorem Informed.forEach {xs : List α} {f : α → Prog Reply ε Unit}
    (hf : ∀ x ∈ xs, ∀ g, (f x).Informed L g) (g : G) : (Prog.forEach xs f).Informed L g := by
  induction xs generalizing g with
  | nil => trivial
  | cons x rest ih =>
    exact (hf x (by simp) g).bind fun _ g => ih (fun y hy => hf y (by simp [hy])) g

end Prog

namespace Pool

variable {Op S ε α ι G : Type} {Reply : Op → Type} [DecidableEq ι] {L : Lore Reply ε G}
variable {R : ι → (o : Op) → S → Except ε (Reply o) → S → Prop}
variable {ok : Pool Reply ε α ι S → ι → Pool Reply ε α ι S → Prop}
variable {init w : Pool Reply ε α ι S}

/-- Programs that are informed at the start stay so; `J` is what their knowledge says
about the state and about where the others are. -/
theorem Reach.informed (J : Pool Reply ε α ι S → (ι → G) → Prop) {know : ι → G}
    (start : J init know) (code : ∀ i, (init.code i).Informed L (know i))
    (keep : ∀ w know i o next x t, Reach R ok init w → J w know → w.code i = .op o next →
      L.fine (know i) o → R i o w.shared x t →
      ok w i { code := Function.update w.code i (next x), shared := t } →
      L.can o x ∧ J { code := Function.update w.code i (next x), shared := t }
        (Function.update know i (L.learn (know i) o x)))
    (h : Reach R ok init w) : ∃ know, J w know ∧ ∀ i, (w.code i).Informed L (know i) := by
  induction h with
  | start => exact ⟨know, start, code⟩
  | step before moves lawful ih =>
    obtain ⟨know, hJ, hcode⟩ := ih
    obtain ⟨hop, hdoes⟩ := moves
    rename_i i o next x t
    have hinformed := hcode i
    rw [hop] at hinformed
    obtain ⟨hcan, hJ'⟩ := keep _ know i o next x t before hJ hop hinformed.1 hdoes lawful
    refine ⟨_, hJ', fun j => ?_⟩
    by_cases hj : j = i
    · subst hj
      simpa using hinformed.2 x hcan
    · simpa [hj] using hcode j

end Pool
end Coop
