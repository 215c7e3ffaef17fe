import Sdpctl.Coop.Machine

/-!
A process that is alone and can end at any moment. `Leads` follows its program
operation by operation; `Meets` says that the program always comes to an end, in
which a postcondition holds, and that an interruption on the way leaves nothing
outside a crash condition. The rules follow the constructors of programs. Where
an exception ends the program, a fault is no worse than an interruption.
-/

namespace Coop

/-- How operations come out, and what the end of the process in the middle of
one can leave. -/
structure Solo {Op : Type} (Reply : Op → Type) (ε S : Type) where
  does : (o : Op) → S → Except ε (Reply o) → S → Prop
  breaks : Op → S → S → Prop

namespace Prog

variable {Op S ε α β : Type} {Reply : Op → Type} (A : Solo Reply ε S)

/-- What is left of a program, and the state that it has come to. -/
inductive Leads (p : Prog Reply ε α) (s : S) : Prog Reply ε α → S → Prop where
  | here : Leads p s p s
  | next {o : Op} {next : Except ε (Reply o) → Prog Reply ε α} {x : Except ε (Reply o)} {t u : S}
      (before : Leads p s (.op o next) t) (does : A.does o t x u) : Leads p s (next x) u

/-- What an interruption leaves: a state between two operations or within one. -/
inductive Leaves (p : Prog Reply ε α) (s : S) : S → Prop where
  | between {q : Prog Reply ε α} {t : S} (before : Leads A p s q t) : Leaves p s t
  | within {o : Op} {next : Except ε (Reply o) → Prog Reply ε α} {t u : S}
      (before : Leads A p s (.op o next) t) (breaks : A.breaks o t u) : Leaves p s u

/-- The program comes to an end, with `Q`, and an interruption after this moment
leaves `J`. -/
def Meets (J : S → Prop) : Prog Reply ε α → (Except ε α → S → Prop) → S → Prop
  | .ret x, Q, s => Q x s
  | .op o next, Q, s => (∃ x t, A.does o s x t) ∧ (∀ t, A.breaks o s t → J t) ∧
      ∀ x t, A.does o s x t → J t ∧ (next x).Meets J Q t

/-- The program returns, with `P`. -/
def Gives (J : S → Prop) (p : Prog Reply ε α) (P : α → S → Prop) (s : S) : Prop :=
  p.Meets A J (fun x t => ∃ a, x = .ok a ∧ P a t) s

variable {A} {J J' : S → Prop} {s t : S}

theorem Meets.mono {p : Prog Reply ε α} {Q Q' : Except ε α → S → Prop} (h : p.Meets A J Q s)
    (hJ : ∀ s, J s → J' s) (hQ : ∀ x s, Q x s → Q' x s) : p.Meets A J' Q' s := by
  induction p generalizing s with
  | ret x => exact hQ x s h
  | op o next ih =>
    obtain ⟨hcan, hbreaks, hdoes⟩ := h
    refine ⟨hcan, fun t ht => hJ t (hbreaks t ht), fun x t ht => ?_⟩
    exact ⟨hJ t (hdoes x t ht).1, ih x (hdoes x t ht).2⟩

theorem Gives.mono {p : Prog Reply ε α} {P P' : α → S → Prop} (h : p.Gives A J P s)
    (hJ : ∀ s, J s → J' s) (hP : ∀ a s, P a s → P' a s) : p.Gives A J' P' s :=
  Meets.mono h hJ fun _ s ⟨a, hx, ha⟩ => ⟨a, hx, hP a s ha⟩

theorem Gives.pure {a : α} {P : α → S → Prop} (h : P a s) :
    (Prog.ret (.ok a) : Prog Reply ε α).Gives A J P s := ⟨a, rfl, h⟩

theorem Meets.pure {a : α} {P : α → S → Prop} (h : P a s) :
    (Prog.ret (.ok a) : Prog Reply ε α).Meets A J (fun x t => ∃ a, x = .ok a ∧ P a t) s :=
  ⟨a, rfl, h⟩

theorem Gives.bind {p : Prog Reply ε α} {f : α → Prog Reply ε β} {P : α → S → Prop}
    {Q : Except ε β → S → Prop} (hp : p.Gives A J P s)
    (hf : ∀ a t, P a t → (f a).Meets A J Q t) : (p.bind f).Meets A J Q s := by
  induction p generalizing s with
  | ret x =>
    obtain ⟨a, rfl, ha⟩ := hp
    exact hf a s ha
  | op o next ih =>
    obtain ⟨hcan, hbreaks, hdoes⟩ := hp
    exact ⟨hcan, hbreaks, fun x t ht => ⟨(hdoes x t ht).1, ih x (hdoes x t ht).2⟩⟩

/-- A sequence whose first part returns to what the second part needs. -/
theorem Meets.then {p : Prog Reply ε α} {f : α → Prog Reply ε β} {Q : Except ε β → S → Prop}
    (hp : p.Gives A J (fun a t => (f a).Meets A J Q t) s) : (p.bind f).Meets A J Q s :=
  hp.bind fun _ _ h => h

theorem Gives.catchAll {p : Prog Reply ε α} {h : ε → Prog Reply ε α} {P : α → S → Prop}
    (hp : p.Gives A J P s) : (p.catchAll h).Gives A J P s := by
  induction p generalizing s with
  | ret x =>
    obtain ⟨a, rfl, ha⟩ := hp
    exact ⟨a, rfl, ha⟩
  | op o next ih =>
    obtain ⟨hcan, hbreaks, hdoes⟩ := hp
    exact ⟨hcan, hbreaks, fun x t ht => ⟨(hdoes x t ht).1, ih x (hdoes x t ht).2⟩⟩

theorem Meets.bind {p : Prog Reply ε α} {f : α → Prog Reply ε β} {Q : Except ε α → S → Prop}
    {Q' : Except ε β → S → Prop} (hp : p.Meets A J Q s)
    (hok : ∀ a t, Q (.ok a) t → (f a).Meets A J Q' t)
    (herror : ∀ e t, Q (.error e) t → Q' (.error e) t) : (p.bind f).Meets A J Q' s := by
  induction p generalizing s with
  | ret x =>
    cases x with
    | ok a => exact hok a s hp
    | error e => exact herror e s hp
  | op o next ih =>
    obtain ⟨hcan, hbreaks, hdoes⟩ := hp
    exact ⟨hcan, hbreaks, fun x t ht => ⟨(hdoes x t ht).1, ih x (hdoes x t ht).2⟩⟩

theorem Meets.catchAll {p : Prog Reply ε α} {h : ε → Prog Reply ε α}
    {Q Q' : Except ε α → S → Prop} (hp : p.Meets A J Q s) (hok : ∀ a t, Q (.ok a) t → Q' (.ok a) t)
    (herror : ∀ e t, Q (.error e) t → (h e).Meets A J Q' t) : (p.catchAll h).Meets A J Q' s := by
  induction p generalizing s with
  | ret x =>
    cases x with
    | ok a => exact hok a s hp
    | error e => exact herror e s hp
  | op o next ih =>
    obtain ⟨hcan, hbreaks, hdoes⟩ := hp
    exact ⟨hcan, hbreaks, fun x t ht => ⟨(hdoes x t ht).1, ih x (hdoes x t ht).2⟩⟩

theorem Gives.finallyDo {p : Prog Reply ε α} {q : Prog Reply ε Unit} {P : α → S → Prop}
    (hp : p.Gives A J (fun a t => q.Gives A J (fun _ u => P a u) t) s) :
    (p.finallyDo q).Gives A J P s := by
  induction p generalizing s with
  | ret x =>
    obtain ⟨a, rfl, ha⟩ := hp
    exact Gives.bind ha fun _ _ h => ⟨a, rfl, h⟩
  | op o next ih =>
    obtain ⟨hcan, hbreaks, hdoes⟩ := hp
    exact ⟨hcan, hbreaks, fun x t ht => ⟨(hdoes x t ht).1, ih x (hdoes x t ht).2⟩⟩

/-- A loop over those rows of a table that satisfy a test; the rows that it
passes over count as rounds. -/
theorem Gives.forEach_filter {rows : List α} {test : α → Bool} {f : α → Prog Reply ε Unit}
    {I : List α → S → Prop}
    (round : ∀ x rest s, test x = true → I (x :: rest) s →
      (f x).Gives A J (fun _ t => I rest t) s)
    (pass : ∀ x rest s, test x = false → I (x :: rest) s → I rest s) (hI : I rows s) :
    (Prog.forEach (rows.filter test) f).Gives A J (fun _ t => I [] t) s := by
  induction rows generalizing s with
  | nil => exact .pure hI
  | cons x rest ih =>
    cases hx : test x with
    | true =>
      rw [List.filter_cons_of_pos hx]
      exact (round x rest s hx hI).bind fun _ t ht => ih ht
    | false =>
      rw [List.filter_cons_of_neg (by simp [hx])]
      exact ih (pass x rest s hx hI)

theorem Gives.forEach {rows : List α} {f : α → Prog Reply ε Unit} {I : List α → S → Prop}
    (round : ∀ x rest s, I (x :: rest) s → (f x).Gives A J (fun _ t => I rest t) s)
    (hI : I rows s) : (Prog.forEach rows f).Gives A J (fun _ t => I [] t) s := by
  induction rows generalizing s with
  | nil => exact .pure hI
  | cons x rest ih => exact (round x rest s hI).bind fun _ t ht => ih ht

theorem Gives.foldEach {rows : List α} {f : β → α → Prog Reply ε β} {I : List α → β → S → Prop}
    (round : ∀ x rest b s, I (x :: rest) b s → (f b x).Gives A J (fun b t => I rest b t) s)
    {b : β} (hI : I rows b s) : (Prog.foldEach rows b f).Gives A J (fun b t => I [] b t) s := by
  induction rows generalizing b s with
  | nil => exact .pure hI
  | cons x rest ih => exact (round x rest b s hI).bind fun b t ht => ih ht

theorem Meets.leads {p q : Prog Reply ε α} {Q : Except ε α → S → Prop} (h : p.Meets A J Q s)
    (hJ : J s) (hleads : Leads A p s q t) : q.Meets A J Q t ∧ J t := by
  induction hleads with
  | here => exact ⟨h, hJ⟩
  | next _ does ih =>
    obtain ⟨⟨_, _, hdoes⟩, _⟩ := ih
    exact ⟨(hdoes _ _ does).2, (hdoes _ _ does).1⟩

theorem Meets.result {p : Prog Reply ε α} {Q : Except ε α → S → Prop} {x : Except ε α}
    (h : p.Meets A J Q s) (hJ : J s) (hleads : Leads A p s (.ret x) t) : Q x t :=
  (h.leads hJ hleads).1

/-- The crash condition holds of everything that an interruption leaves. -/
theorem Meets.leaves {p : Prog Reply ε α} {Q : Except ε α → S → Prop} (h : p.Meets A J Q s)
    (hJ : J s) (hleaves : Leaves A p s t) : J t := by
  cases hleaves with
  | between before => exact (h.leads hJ before).2
  | within before breaks =>
    obtain ⟨_, hbreaks, _⟩ := (h.leads hJ before).1
    exact hbreaks _ breaks

theorem Leads.trans {p q r : Prog Reply ε α} {u : S} (h : Leads A p s q t)
    (h' : Leads A q t r u) : Leads A p s r u := by
  induction h' with
  | here => exact h
  | next _ does ih => exact .next ih does

theorem Leads.keeps {p q : Prog Reply ε α} {I : S → Prop}
    (does : ∀ o s x t, A.does o s x t → I s → I t) (h : Leads A p s q t) (hI : I s) : I t := by
  induction h with
  | here => exact hI
  | next _ hdoes ih => exact does _ _ _ _ hdoes ih

theorem Leaves.keeps {p : Prog Reply ε α} {I : S → Prop}
    (does : ∀ o s x t, A.does o s x t → I s → I t) (breaks : ∀ o s t, A.breaks o s t → I s → I t)
    (h : Leaves A p s t) (hI : I s) : I t := by
  cases h with
  | between before => exact before.keeps does hI
  | within before hbreaks => exact breaks _ _ _ hbreaks (before.keeps does hI)

theorem Meets.ends {p : Prog Reply ε α} {Q : Except ε α → S → Prop} (h : p.Meets A J Q s) :
    ∃ x t, Leads A p s (.ret x) t := by
  induction p generalizing s with
  | ret x => exact ⟨x, s, .here⟩
  | op o next ih =>
    obtain ⟨⟨x, t, ht⟩, _, hdoes⟩ := h
    obtain ⟨y, u, hu⟩ := ih x (hdoes x t ht).2
    exact ⟨y, u, (Leads.next .here ht).trans hu⟩

theorem Leads.bind {p q : Prog Reply ε α} (h : Leads A p s q t) (f : α → Prog Reply ε β) :
    Leads A (p.bind f) s (q.bind f) t := by
  induction h with
  | here => exact .here
  | next _ does ih => exact .next ih does

theorem Leads.mono {B : Solo Reply ε S} {p q : Prog Reply ε α}
    (hB : ∀ o s x t, A.does o s x t → B.does o s x t) (h : Leads A p s q t) :
    Leads B p s q t := by
  induction h with
  | here => exact .here
  | next _ does ih => exact .next ih (hB _ _ _ _ does)

theorem Leads.head {o : Op} {next : Except ε (Reply o) → Prog Reply ε α} {x : Except ε α}
    (h : Leads A (.op o next) s (.ret x) t) :
    ∃ y u, A.does o s y u ∧ Leads A (next y) u (.ret x) t := by
  suffices hall : ∀ q t, Leads A (.op o next) s q t → q = .op o next ∧ t = s ∨
      ∃ y u, A.does o s y u ∧ Leads A (next y) u q t by
    rcases hall _ _ h with ⟨hret, _⟩ | hfirst
    · cases hret
    · exact hfirst
  intro q t h
  induction h with
  | here => exact .inl ⟨rfl, rfl⟩
  | next before does ih =>
    rcases ih with ⟨heq, rfl⟩ | ⟨y, u, hfirst, hrest⟩
    · cases heq
      exact .inr ⟨_, _, does, .here⟩
    · exact .inr ⟨y, u, hfirst, .next hrest does⟩

/-- A run of a sequence whose first part returns goes through its second part. -/
theorem Gives.split {p : Prog Reply ε α} {f : α → Prog Reply ε β} {P : α → S → Prop}
    {x : Except ε β} (hp : p.Gives A J P s) (h : Leads A (p.bind f) s (.ret x) t) :
    ∃ a u, P a u ∧ Leads A (f a) u (.ret x) t := by
  induction p generalizing s with
  | ret y =>
    obtain ⟨a, rfl, ha⟩ := hp
    exact ⟨a, s, ha, h⟩
  | op o next ih =>
    obtain ⟨_, _, hdoes⟩ := hp
    obtain ⟨y, u, hfirst, hrest⟩ := h.head
    exact ih y (hdoes y u hfirst).2 hrest

/-- Some run of the program ends in an exception. -/
def Raises (A : Solo Reply ε S) (p : Prog Reply ε α) (s : S) : Prop :=
  ∃ e t, Leads A p s (.ret (.error e)) t

theorem Raises.bind {p : Prog Reply ε α} (h : p.Raises A s) (f : α → Prog Reply ε β) :
    (p.bind f).Raises A s := by
  obtain ⟨e, t, hleads⟩ := h
  exact ⟨e, t, hleads.bind f⟩

/-- A statement about programs that goes back over a part that returns. -/
def Sequential (A : Solo Reply ε S) (J : S → Prop) (W : Prog Reply ε β → S → Prop) : Prop :=
  ∀ {α : Type} {p : Prog Reply ε α} {f : α → Prog Reply ε β} {P : α → S → Prop} {s : S},
    p.Gives A J P s → (∀ a t, P a t → W (f a) t) → W (p.bind f) s

theorem Gives.sequential (P : β → S → Prop) :
    Sequential A J fun (p : Prog Reply ε β) s => p.Gives A J P s :=
  fun hp hf => hp.bind hf

theorem Raises.sequential :
    Sequential A J fun (p : Prog Reply ε β) s => p.Raises A s := by
  intro α p f P s hp hf
  induction p generalizing s with
  | ret x =>
    obtain ⟨a, rfl, ha⟩ := hp
    exact hf a s ha
  | op o next ih =>
    obtain ⟨⟨x, t, hdoes⟩, _, hall⟩ := hp
    obtain ⟨e, u, hleads⟩ := ih x (hall x t hdoes).2
    exact ⟨e, u, (Leads.next .here hdoes).trans hleads⟩

/-- The program uses the operations `φ`, and an exception ends it. -/
def Plain (φ : Op → Prop) : Prog Reply ε α → Prop
  | .ret _ => True
  | .op o next => φ o ∧ (∀ e, next (.error e) = .ret (.error e)) ∧ ∀ x, (next x).Plain φ

section Faults

variable {φ : Op → Prop} {p : Prog Reply ε α}

theorem Plain.bind {f : α → Prog Reply ε β} (hp : p.Plain φ) (hf : ∀ a, (f a).Plain φ) :
    (p.bind f).Plain φ := by
  induction p with
  | ret x =>
    cases x with
    | ok a => exact hf a
    | error e => trivial
  | op o next ih =>
    obtain ⟨ho, herror, hnext⟩ := hp
    refine ⟨ho, fun e => ?_, fun x => ih x (hnext x)⟩
    simp only [herror e, ret_error_bind]

theorem Plain.call {o : Op} (ho : φ o) : (Prog.call o : Prog Reply ε (Reply o)).Plain φ :=
  ⟨ho, fun _ => rfl, fun _ => trivial⟩

theorem Plain.ite {q : Prog Reply ε α} {b : Prop} [Decidable b] (hp : p.Plain φ)
    (hq : q.Plain φ) : (if b then p else q).Plain φ := by
  split
  · exact hp
  · exact hq

/-- With the operations `φ`, what `B` does is what `A` does, or it fails and leaves
what there was, or what an interruption leaves. -/
structure Faulty (φ : Op → Prop) (A B : Solo Reply ε S) : Prop where
  does : ∀ o s x t, A.does o s x t → B.does o s x t
  fails : ∀ o s x t, φ o → B.does o s x t →
    A.does o s x t ∨ (∃ e, x = .error e) ∧ (t = s ∨ A.breaks o s t)
  breaks : ∀ o s t, B.breaks o s t → A.breaks o s t

/-- A plain program whose operations may fail comes to its end, or to an exception
that leaves nothing worse than an interruption. -/
theorem Meets.mishap {B : Solo Reply ε S} {Q : Except ε α → S → Prop} (hB : Faulty φ A B)
    (hplain : p.Plain φ) (h : p.Meets A J Q s) (hJ : J s) :
    p.Meets B J (fun x t => Q x t ∨ (∃ e, x = .error e) ∧ J t) s := by
  induction p generalizing s with
  | ret x => exact .inl h
  | op o next ih =>
    obtain ⟨⟨x, t, hcan⟩, hbreaks, hdoes⟩ := h
    obtain ⟨ho, herror, hnext⟩ := hplain
    refine ⟨⟨x, t, hB.does o s x t hcan⟩, fun t ht => hbreaks t (hB.breaks o s t ht),
      fun x t hx => ?_⟩
    rcases hB.fails o s x t ho hx with hsame | ⟨⟨e, rfl⟩, hleft⟩
    · obtain ⟨hJ', hmeets⟩ := hdoes x t hsame
      exact ⟨hJ', ih x (hnext x) hmeets hJ'⟩
    · have hJ' : J t := by
        rcases hleft with rfl | hbroken
        · exact hJ
        · exact hbreaks t hbroken
      rw [herror e]
      exact ⟨hJ', .inr ⟨⟨e, rfl⟩, hJ'⟩⟩

/-- A plain program whose operations may fail leaves nothing worse than one that
is interrupted. -/
theorem Meets.faulty {B : Solo Reply ε S} {Q : Except ε α → S → Prop} (hB : Faulty φ A B)
    (hplain : p.Plain φ) (h : p.Meets A J Q s) (hJ : J s) :
    p.Meets B J (fun _ _ => True) s :=
  (h.mishap hB hplain hJ).mono (fun _ h => h) fun _ _ _ => trivial

theorem Plain.uses (h : p.Plain φ) : p.Uses φ := by
  induction p with
  | ret x => trivial
  | op o next ih => exact ⟨h.1, fun x => ih x (h.2.2 x)⟩

theorem Meets.follow {B : Solo Reply ε S} {Q : Except ε α → S → Prop}
    (hB : ∀ o s x t, φ o → (B.does o s x t ↔ A.does o s x t))
    (hbreaks : ∀ o s t, B.breaks o s t → A.breaks o s t) (huses : p.Uses φ)
    (h : p.Meets A J Q s) : p.Meets B J Q s := by
  induction p generalizing s with
  | ret x => exact h
  | op o next ih =>
    obtain ⟨⟨x, t, hcan⟩, hbroken, hdoes⟩ := h
    refine ⟨⟨x, t, (hB o s x t huses.1).mpr hcan⟩, fun t ht => hbroken t (hbreaks o s t ht),
      fun x t hx => ?_⟩
    obtain ⟨hJ, hmeets⟩ := hdoes x t ((hB o s x t huses.1).mp hx)
    exact ⟨hJ, ih x (huses.2 x) hmeets⟩

theorem Meets.keeping {I : S → Prop} {Q : Except ε α → S → Prop}
    (does : ∀ o s x t, A.does o s x t → I s → I t) (breaks : ∀ o s t, A.breaks o s t → I s → I t)
    (h : p.Meets A J Q s) (hI : I s) :
    p.Meets A (fun t => J t ∧ I t) (fun x t => Q x t ∧ I t) s := by
  induction p generalizing s with
  | ret x => exact ⟨h, hI⟩
  | op o next ih =>
    obtain ⟨hcan, hbreaks, hdoes⟩ := h
    refine ⟨hcan, fun t ht => ⟨hbreaks t ht, breaks o s t ht hI⟩, fun x t ht => ?_⟩
    obtain ⟨hJ, hmeets⟩ := hdoes x t ht
    exact ⟨⟨hJ, does o s x t ht hI⟩, ih x hmeets (does o s x t ht hI)⟩

/-- What a `try` says about its body. -/
theorem Meets.uncaught {k : ε → Prog Reply ε α} {Q : Except ε α → S → Prop}
    (h : (p.catchAll k).Meets A J Q s) :
    p.Meets A J (fun x t => (∃ a, x = .ok a ∧ Q x t) ∨ ∃ e, x = .error e ∧ (k e).Meets A J Q t)
      s := by
  induction p generalizing s with
  | ret x =>
    cases x with
    | ok a => exact .inl ⟨a, rfl, h⟩
    | error e => exact .inr ⟨e, rfl, h⟩
  | op o next ih =>
    obtain ⟨hcan, hbreaks, hdoes⟩ := h
    exact ⟨hcan, hbreaks, fun x t ht => ⟨(hdoes x t ht).1, ih x (hdoes x t ht).2⟩⟩

end Faults

end Prog
end Coop
