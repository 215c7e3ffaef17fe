import Sdpctl.Coop.Program

/-!
A program alone. `R o s x t` says that the operation `o` can reply `x` and take
`s` to `t`; `Runs` is what a whole program can come to when nobody interferes.
The rules follow the constructors of programs.
-/

namespace Coop
namespace Prog

variable {Op S ε α β : Type} {Reply : Op → Type}
variable {R : (o : Op) → S → Except ε (Reply o) → S → Prop}

/-- What a run of the program from `s` can come to. -/
def Runs (R : (o : Op) → S → Except ε (Reply o) → S → Prop) :
    Prog Reply ε α → S → Except ε α → S → Prop
  | .ret x, s, y, t => y = x ∧ t = s
  | .op o next, s, y, t => ∃ x u, R o s x u ∧ (next x).Runs R u y t

@[simp] theorem runs_ret {x y : Except ε α} {s t : S} :
    (Prog.ret x : Prog Reply ε α).Runs R s y t ↔ y = x ∧ t = s := Iff.rfl

@[simp] theorem runs_op {o : Op} {next : Except ε (Reply o) → Prog Reply ε α} {s t : S}
    {y : Except ε α} :
    (Prog.op o next).Runs R s y t ↔ ∃ x u, R o s x u ∧ (next x).Runs R u y t := Iff.rfl

@[simp] theorem runs_call {o : Op} {s t : S} {y : Except ε (Reply o)} :
    (call o : Prog Reply ε (Reply o)).Runs R s y t ↔ R o s y t := by
  constructor
  · rintro ⟨x, u, h, rfl, rfl⟩
    exact h
  · intro h
    exact ⟨y, t, h, rfl, rfl⟩

theorem runs_bind {p : Prog Reply ε α} {f : α → Prog Reply ε β} {s t : S} {y : Except ε β} :
    (p.bind f).Runs R s y t ↔ (∃ e, p.Runs R s (.error e) t ∧ y = .error e) ∨
      ∃ a u, p.Runs R s (.ok a) u ∧ (f a).Runs R u y t := by
  induction p generalizing s with
  | ret x =>
    cases x with
    | ok a => simp
    | error e =>
      simp only [ret_error_bind, runs_ret]
      constructor
      · rintro ⟨rfl, rfl⟩
        exact .inl ⟨e, ⟨rfl, rfl⟩, rfl⟩
      · rintro (⟨e', ⟨he, rfl⟩, rfl⟩ | ⟨a, u, ⟨ha, _⟩, _⟩)
        · cases he
          exact ⟨rfl, rfl⟩
        · cases ha
  | op o next ih =>
    simp only [op_bind, runs_op, ih]
    constructor
    · rintro ⟨x, u, hR, ⟨e, hrun, rfl⟩ | ⟨a, v, hrun, hrest⟩⟩
      · exact .inl ⟨e, ⟨x, u, hR, hrun⟩, rfl⟩
      · exact .inr ⟨a, v, ⟨x, u, hR, hrun⟩, hrest⟩
    · rintro (⟨e, ⟨x, u, hR, hrun⟩, rfl⟩ | ⟨a, v, ⟨x, u, hR, hrun⟩, hrest⟩)
      · exact ⟨x, u, hR, .inl ⟨e, hrun, rfl⟩⟩
      · exact ⟨x, u, hR, .inr ⟨a, v, hrun, hrest⟩⟩

theorem runs_bind_ok {p : Prog Reply ε α} {f : α → Prog Reply ε β} {s t : S} {b : β} :
    (p.bind f).Runs R s (.ok b) t ↔ ∃ a u, p.Runs R s (.ok a) u ∧ (f a).Runs R u (.ok b) t := by
  rw [runs_bind]
  constructor
  · rintro (⟨e, _, he⟩ | h)
    · cases he
    · exact h
  · exact .inr

theorem runs_catchAll {p : Prog Reply ε α} {h : ε → Prog Reply ε α} {s t : S}
    {y : Except ε α} : (p.catchAll h).Runs R s y t ↔ (∃ a, p.Runs R s (.ok a) t ∧ y = .ok a) ∨
      ∃ e u, p.Runs R s (.error e) u ∧ (h e).Runs R u y t := by
  induction p generalizing s with
  | ret x =>
    cases x with
    | ok a =>
      constructor
      · rintro ⟨rfl, rfl⟩
        exact .inl ⟨a, ⟨rfl, rfl⟩, rfl⟩
      · rintro (⟨b, ⟨hb, rfl⟩, rfl⟩ | ⟨e, u, ⟨he, _⟩, _⟩)
        · cases hb
          exact ⟨rfl, rfl⟩
        · cases he
    | error e =>
      constructor
      · intro hrun
        exact .inr ⟨e, s, ⟨rfl, rfl⟩, hrun⟩
      · rintro (⟨b, ⟨hb, _⟩, _⟩ | ⟨e', u, ⟨he, rfl⟩, hrun⟩)
        · cases hb
        · cases he
          exact hrun
  | op o next ih =>
    constructor
    · rintro ⟨x, u, hR, hrun⟩
      rcases (ih x).mp hrun with ⟨a, ha, rfl⟩ | ⟨e, v, he, hh⟩
      · exact .inl ⟨a, ⟨x, u, hR, ha⟩, rfl⟩
      · exact .inr ⟨e, v, ⟨x, u, hR, he⟩, hh⟩
    · rintro (⟨a, ⟨x, u, hR, ha⟩, rfl⟩ | ⟨e, v, ⟨x, u, hR, he⟩, hh⟩)
      · exact ⟨x, u, hR, (ih x).mpr (.inl ⟨a, ha, rfl⟩)⟩
      · exact ⟨x, u, hR, (ih x).mpr (.inr ⟨e, v, he, hh⟩)⟩

/-- With more that operations can do there is more that a program can do. -/
theorem Runs.mono {R' : (o : Op) → S → Except ε (Reply o) → S → Prop} {p : Prog Reply ε α}
    {s t : S} {y : Except ε α} (h : p.Runs R s y t)
    (more : ∀ o s x t, R o s x t → R' o s x t) : p.Runs R' s y t := by
  induction p generalizing s with
  | ret x => exact h
  | op o next ih =>
    obtain ⟨x, u, hR, hrest⟩ := h
    exact ⟨x, u, more o s x u hR, ih x hrest⟩

theorem uses_bind {φ : Op → Prop} {p : Prog Reply ε α} {f : α → Prog Reply ε β}
    (hp : p.Uses φ) (hf : ∀ a, (f a).Uses φ) : (p.bind f).Uses φ := by
  induction p with
  | ret x =>
    cases x with
    | ok a => exact hf a
    | error e => exact trivial
  | op o next ih => exact ⟨hp.1, fun x => ih x (hp.2 x)⟩

theorem uses_call {φ : Op → Prop} {o : Op} (h : φ o) : (call o : Prog Reply ε (Reply o)).Uses φ :=
  ⟨h, fun _ => trivial⟩

theorem uses_ite {φ : Op → Prop} {b : Prop} [Decidable b] {p q : Prog Reply ε α}
    (hp : p.Uses φ) (hq : q.Uses φ) : (if b then p else q).Uses φ := by
  split
  · exact hp
  · exact hq

theorem uses_forEach {φ : Op → Prop} {xs : List α} {f : α → Prog Reply ε Unit}
    (hf : ∀ a, (f a).Uses φ) : (Prog.forEach xs f).Uses φ := by
  induction xs with
  | nil => exact trivial
  | cons x rest ih => exact uses_bind (hf x) fun _ => ih

theorem Uses.mono {φ ψ : Op → Prop} {p : Prog Reply ε α} (h : p.Uses φ) (hφ : ∀ o, φ o → ψ o) :
    p.Uses ψ := by
  induction p with
  | ret x => exact trivial
  | op o next ih => exact ⟨hφ o h.1, fun x => ih x (h.2 x)⟩

theorem uses_catchAll {φ : Op → Prop} {p : Prog Reply ε α} {h : ε → Prog Reply ε α}
    (hp : p.Uses φ) (hh : ∀ e, (h e).Uses φ) : (p.catchAll h).Uses φ := by
  induction p with
  | ret x =>
    cases x with
    | ok a => exact trivial
    | error e => exact hh e
  | op o next ih => exact ⟨hp.1, fun x => ih x (hp.2 x)⟩

theorem uses_finallyDo {φ : Op → Prop} {p : Prog Reply ε α} {q : Prog Reply ε Unit}
    (hp : p.Uses φ) (hq : q.Uses φ) : (p.finallyDo q).Uses φ := by
  induction p with
  | ret x => exact uses_bind hq fun _ => trivial
  | op o next ih => exact ⟨hp.1, fun x => ih x (hp.2 x)⟩

theorem uses_foldEach {φ : Op → Prop} {xs : List α} {f : β → α → Prog Reply ε β}
    (hf : ∀ b a, (f b a).Uses φ) (b : β) : (Prog.foldEach xs b f).Uses φ := by
  induction xs generalizing b with
  | nil => exact trivial
  | cons x rest ih => exact uses_bind (hf b x) fun c => ih c

/-- What the program returns, if it returns, satisfies `φ`. -/
def Returns (φ : α → Prop) : Prog Reply ε α → Prop
  | .ret (.ok a) => φ a
  | .ret (.error _) => True
  | .op _ next => ∀ x, (next x).Returns φ

theorem returns_bind {φ : α → Prop} {ψ : β → Prop} {p : Prog Reply ε α} {f : α → Prog Reply ε β}
    (hp : p.Returns φ) (hf : ∀ a, φ a → (f a).Returns ψ) : (p.bind f).Returns ψ := by
  induction p with
  | ret x =>
    cases x with
    | ok a => exact hf a hp
    | error e => trivial
  | op o next ih => exact fun x => ih x (hp x)

/-- What comes next uses `φ` for what the first part can return. -/
theorem uses_bind_returns {φ : Op → Prop} {ψ : α → Prop} {p : Prog Reply ε α}
    {f : α → Prog Reply ε β} (hp : p.Uses φ) (hreturns : p.Returns ψ)
    (hf : ∀ a, ψ a → (f a).Uses φ) : (p.bind f).Uses φ := by
  induction p with
  | ret x =>
    cases x with
    | ok a => exact hf a hreturns
    | error e => trivial
  | op o next ih => exact ⟨hp.1, fun x => ih x (hp.2 x) (hreturns x)⟩

theorem Returns.mono {φ ψ : α → Prop} {p : Prog Reply ε α} (h : p.Returns φ)
    (weaker : ∀ a, φ a → ψ a) : p.Returns ψ := by
  induction p with
  | ret x =>
    cases x with
    | ok a => exact weaker a h
    | error e => trivial
  | op o next ih => exact fun x => ih x (h x)

theorem returns_any (p : Prog Reply ε α) : p.Returns fun _ => True := by
  induction p with
  | ret x => cases x <;> trivial
  | op o next ih => exact ih

theorem returns_after {ψ : β → Prop} {p : Prog Reply ε α} {f : α → Prog Reply ε β}
    (hf : ∀ a, (f a).Returns ψ) : (p.bind f).Returns ψ :=
  returns_bind (returns_any p) fun a _ => hf a

theorem returns_ite {φ : α → Prop} {b : Prop} [Decidable b] {p q : Prog Reply ε α}
    (hp : p.Returns φ) (hq : q.Returns φ) : (if b then p else q).Returns φ := by
  split
  · exact hp
  · exact hq

theorem returns_catchAll {φ : α → Prop} {p : Prog Reply ε α} {h : ε → Prog Reply ε α}
    (hp : p.Returns φ) (hh : ∀ e, (h e).Returns φ) : (p.catchAll h).Returns φ := by
  induction p with
  | ret x =>
    cases x with
    | ok a => exact hp
    | error e => exact hh e
  | op o next ih => exact fun x => ih x (hp x)

theorem Runs.keeps {φ : Op → Prop} {I : S → Prop} {p : Prog Reply ε α} {s t : S} {y : Except ε α}
    (h : p.Runs R s y t) (hp : p.Uses φ) (keep : ∀ o s x t, φ o → R o s x t → I s → I t)
    (hI : I s) : I t := by
  induction p generalizing s with
  | ret x =>
    obtain ⟨-, rfl⟩ := h
    exact hI
  | op o next ih =>
    obtain ⟨x, u, hR, hrest⟩ := h
    exact ih x hrest (hp.2 x) (keep o s x u hp.1 hR hI)

end Prog
end Coop
