import Sdpctl.Coop.RelyGuarantee

/-!
The rules of the rely–guarantee logic, one for each program constructor. An
assertion has to be stable under what the others may do before an operation;
between operations nothing else is asked of it.
-/

namespace Coop.Logic

variable {Op : Type} {Reply : Op → Type} {ε S Role Entry Choice Env : Type}
variable {α β : Type} {M : Machine Op Reply ε S Role Entry Choice Env} (L : Logic M)

/-- From `P`, the program ends in `Q` or raises into `E`. -/
def Triple (r : Role) (P : S → Prop) (p : Prog Reply ε α) (Q : α → S → Prop)
    (E : ε → S → Prop) : Prop :=
  ∀ s, L.inv s → P s → L.wp r p (split Q E) s

/-- `P` survives whatever the others do before `o`. -/
def Stable (r : Role) (o : Op) (P : S → Prop) : Prop :=
  ∀ s s', L.rely r (L.open_ r o) s s' → L.inv s → L.inv s' → P s → P s'

variable {L} {r : Role}

theorem wp_mono {p : Prog Reply ε α} {Q Q' : Except ε α → S → Prop} {s : S}
    (himp : ∀ x s, Q x s → Q' x s) (h : L.wp r p Q s) : L.wp r p Q' s := by
  induction p generalizing s with
  | ret x => exact himp x s h
  | op o next ih =>
    intro s₁ hrely hinv c hok
    obtain ⟨hallowed, hnext⟩ := h s₁ hrely hinv c hok
    exact ⟨hallowed, fun x s₂ hexec hinv₂ => ih x (hnext x s₂ hexec hinv₂)⟩

theorem wp_inv {p : Prog Reply ε α} {Q : Except ε α → S → Prop} {s : S} (hinv : L.inv s)
    (h : L.wp r p (fun x s => L.inv s → Q x s) s) : L.wp r p Q s := by
  induction p generalizing s with
  | ret x => exact h hinv
  | op o next ih =>
    intro s₁ hrely hinv₁ c hok
    obtain ⟨hallowed, hnext⟩ := h s₁ hrely hinv₁ c hok
    exact ⟨hallowed, fun x s₂ hexec hinv₂ => ih x hinv₂ (hnext x s₂ hexec hinv₂)⟩

theorem wp_bind {p : Prog Reply ε α} {f : α → Prog Reply ε β} {Q : Except ε β → S → Prop}
    {s : S} (h : L.wp r p (split (fun a s => L.wp r (f a) Q s) (fun e s => Q (.error e) s)) s) :
    L.wp r (p.bind f) Q s := by
  induction p generalizing s with
  | ret x => cases x <;> exact h
  | op o next ih =>
    intro s₁ hrely hinv c hok
    obtain ⟨hallowed, hnext⟩ := h s₁ hrely hinv c hok
    exact ⟨hallowed, fun x s₂ hexec hinv₂ => ih x (hnext x s₂ hexec hinv₂)⟩

theorem wp_catchAll {p : Prog Reply ε α} {h : ε → Prog Reply ε α} {Q : Except ε α → S → Prop}
    {s : S} (hp : L.wp r p (split (fun a s => Q (.ok a) s) (fun e s => L.wp r (h e) Q s)) s) :
    L.wp r (p.catchAll h) Q s := by
  induction p generalizing s with
  | ret x => cases x <;> exact hp
  | op o next ih =>
    intro s₁ hrely hinv c hok
    obtain ⟨hallowed, hnext⟩ := hp s₁ hrely hinv c hok
    exact ⟨hallowed, fun x s₂ hexec hinv₂ => ih x (hnext x s₂ hexec hinv₂)⟩

theorem wp_finallyDo {p : Prog Reply ε α} {q : Prog Reply ε Unit} {Q : Except ε α → S → Prop}
    {s : S} (h : L.wp r p (fun x s => L.wp r q (split (fun _ s => Q x s)
      (fun e s => Q (.error e) s)) s) s) : L.wp r (p.finallyDo q) Q s := by
  induction p generalizing s with
  | ret x => exact wp_bind h
  | op o next ih =>
    intro s₁ hrely hinv c hok
    obtain ⟨hallowed, hnext⟩ := h s₁ hrely hinv c hok
    exact ⟨hallowed, fun x s₂ hexec hinv₂ => ih x (hnext x s₂ hexec hinv₂)⟩

namespace Triple

variable {P P' : S → Prop} {Q Q' : α → S → Prop} {E E' : ε → S → Prop}

theorem pure {a : α} (h : ∀ s, L.inv s → P s → Q a s) :
    L.Triple r P (.ret (.ok a)) Q E := h

theorem raise {e : ε} (h : ∀ s, L.inv s → P s → E e s) :
    L.Triple r P (.ret (.error e) : Prog Reply ε α) Q E := h

theorem conseq {p : Prog Reply ε α} (h : L.Triple r P p Q E)
    (hpre : ∀ s, L.inv s → P' s → P s) (hpost : ∀ a s, L.inv s → Q a s → Q' a s)
    (hexc : ∀ e s, L.inv s → E e s → E' e s) : L.Triple r P' p Q' E' := by
  intro s hinv hP
  refine wp_inv hinv (wp_mono ?_ (h s hinv (hpre s hinv hP)))
  intro x s' hx hinv'
  cases x with
  | ok a => exact hpost a s' hinv' hx
  | error e => exact hexc e s' hinv' hx

theorem pre {p : Prog Reply ε α} (h : L.Triple r P p Q E)
    (hpre : ∀ s, L.inv s → P' s → P s) : L.Triple r P' p Q E :=
  fun s hinv hP => h s hinv (hpre s hinv hP)

theorem post {p : Prog Reply ε α} (h : L.Triple r P p Q E)
    (hpost : ∀ a s, L.inv s → Q a s → Q' a s) : L.Triple r P p Q' E :=
  h.conseq (fun _ _ hP => hP) hpost (fun _ _ _ hE => hE)

theorem exc {p : Prog Reply ε α} (h : L.Triple r P p Q E)
    (hexc : ∀ e s, L.inv s → E e s → E' e s) : L.Triple r P p Q E' :=
  h.conseq (fun _ _ hP => hP) (fun _ _ _ hQ => hQ) hexc

/-- A precondition that does not depend on the state can be assumed outside. -/
theorem assume {φ : Prop} {p : Prog Reply ε α} (h : φ → L.Triple r P p Q E) :
    L.Triple r (fun s => φ ∧ P s) p Q E :=
  fun s hinv hP => h hP.1 s hinv hP.2

theorem ite {φ : Prop} [Decidable φ] {p q : Prog Reply ε α} (htrue : φ → L.Triple r P p Q E)
    (hfalse : ¬ φ → L.Triple r P q Q E) : L.Triple r P (if φ then p else q) Q E := by
  split
  · exact htrue ‹_›
  · exact hfalse ‹_›

theorem bind {p : Prog Reply ε α} {f : α → Prog Reply ε β} {R : β → S → Prop}
    (hp : L.Triple r P p Q E) (hf : ∀ a, L.Triple r (Q a) (f a) R E) :
    L.Triple r P (p.bind f) R E := by
  intro s hinv hP
  refine wp_bind (wp_inv hinv (wp_mono ?_ (hp s hinv hP)))
  intro x s' hx hinv'
  cases x with
  | ok a => exact hf a s' hinv' hx
  | error e => exact hx

theorem sequel {γ : Type} {p : Prog Reply ε α} {f : α → Prog Reply ε β} {g : β → Prog Reply ε γ}
    {Q : β → S → Prop} {R : γ → S → Prop} (hp : L.Triple r P (p.bind f) Q E)
    (hg : ∀ b, L.Triple r (Q b) (g b) R E) :
    L.Triple r P (p.bind fun a => (f a).bind g) R E := by
  rw [← Prog.bind_assoc]
  exact hp.bind hg

theorem catchAll {p : Prog Reply ε α} {h : ε → Prog Reply ε α}
    (hp : L.Triple r P p Q E) (hh : ∀ e, L.Triple r (E e) (h e) Q E') :
    L.Triple r P (p.catchAll h) Q E' := by
  intro s hinv hP
  refine wp_catchAll (wp_inv hinv (wp_mono ?_ (hp s hinv hP)))
  intro x s' hx hinv'
  cases x with
  | ok a => exact hx
  | error e => exact hh e s' hinv' hx

theorem finallyDo {p : Prog Reply ε α} {q : Prog Reply ε Unit} {Q₁ : α → S → Prop}
    {E₁ : ε → S → Prop} (hp : L.Triple r P p Q₁ E₁)
    (hok : ∀ a, L.Triple r (Q₁ a) q (fun _ => Q a) E)
    (herr : ∀ e, L.Triple r (E₁ e) q (fun _ => E e) E) :
    L.Triple r P (p.finallyDo q) Q E := by
  intro s hinv hP
  refine wp_finallyDo (wp_inv hinv (wp_mono ?_ (hp s hinv hP)))
  intro x s' hx hinv'
  cases x with
  | ok a => exact wp_mono (fun y t hy => by cases y <;> exact hy) (hok a s' hinv' hx)
  | error e => exact wp_mono (fun y t hy => by cases y <;> exact hy) (herr e s' hinv' hx)

theorem call {o : Op} {Q : Reply o → S → Prop} (stable : L.Stable r o P)
    (step : ∀ s c, L.inv s → P s → L.okRun r o c s → L.allowed r o s ∧
      ∀ x s', M.exec r o c s = some (x, s') → L.inv s' → split Q E x s') :
    L.Triple r P (Prog.call o) Q E := by
  intro s hinv hP s₁ hrely hinv₁ c hok
  obtain ⟨hallowed, hstep⟩ := step s₁ c hinv₁ (stable s s₁ hrely hinv hinv₁ hP) hok
  exact ⟨hallowed, hstep⟩

/-- A loop over a list: `J` describes the state by what is left to do. -/
theorem forEach {xs : List α} {f : α → Prog Reply ε Unit} (J : List α → S → Prop)
    (body : ∀ x rest, L.Triple r (J (x :: rest)) (f x) (fun _ => J rest) E) :
    L.Triple r (J xs) (Prog.forEach xs f) (fun _ => J []) E := by
  induction xs with
  | nil => exact Triple.pure fun _ _ h => h
  | cons x rest ih => exact Triple.bind (body x rest) fun _ => ih

theorem forEach_inv {xs : List α} {f : α → Prog Reply ε Unit}
    (body : ∀ x ∈ xs, L.Triple r P (f x) (fun _ => P) E) :
    L.Triple r P (Prog.forEach xs f) (fun _ => P) E := by
  induction xs with
  | nil => exact Triple.pure fun _ _ h => h
  | cons x rest ih =>
    exact Triple.bind (body x (by simp)) fun _ => ih fun y hy => body y (by simp [hy])

theorem foldEach {xs : List α} {init : β} {f : β → α → Prog Reply ε β}
    (J : β → List α → S → Prop)
    (body : ∀ acc x rest, L.Triple r (J acc (x :: rest)) (f acc x) (fun b => J b rest) E) :
    L.Triple r (J init xs) (Prog.foldEach xs init f) (fun b => J b []) E := by
  induction xs generalizing init with
  | nil => exact Triple.pure fun _ _ h => h
  | cons x rest ih => exact Triple.bind (body init x rest) fun b => ih

end Triple
end Coop.Logic
