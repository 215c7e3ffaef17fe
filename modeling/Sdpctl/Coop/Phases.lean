import Sdpctl.Coop.RelyGuarantee
import Sdpctl.Coop.Solo

/-!
Phases of the processes of a machine. Each operation moves the process that performs
it from phase to phase, and its code keeps to a script: in each phase it performs
only what the script names. An assertion on the shared state and on the phases of all
processes then holds in every reachable world, given that each kind of step keeps it.
-/

namespace Coop

variable {Op : Type} {Reply : Op → Type} {ε S G Role Entry Choice Env : Type}

/-- The phases of a program: where an operation leads, what may come next, and what
it can reply. -/
structure Script (Reply : Op → Type) (ε G : Type) where
  turn : G → (o : Op) → Except ε (Reply o) → G
  may : G → Op → Prop
  can : G → (o : Op) → Except ε (Reply o) → Prop

namespace Prog

variable {α β : Type} {N : Script Reply ε G} {g : G}

/-- The program keeps to the script and ends with `Q`. -/
def Tracks (N : Script Reply ε G) (Q : Except ε α → G → Prop) : Prog Reply ε α → G → Prop
  | .ret x, g => Q x g
  | .op o next, g => N.may g o ∧ ∀ x, N.can g o x → (next x).Tracks N Q (N.turn g o x)

theorem Tracks.mono {Q Q' : Except ε α → G → Prop} {p : Prog Reply ε α} (h : p.Tracks N Q g)
    (hQ : ∀ x g, Q x g → Q' x g) : p.Tracks N Q' g := by
  induction p generalizing g with
  | ret x => exact hQ x g h
  | op o next ih => exact ⟨h.1, fun x hx => ih x (h.2 x hx)⟩

theorem Tracks.bind {P : Except ε α → G → Prop} {Q : Except ε β → G → Prop}
    {p : Prog Reply ε α} {f : α → Prog Reply ε β} (hp : p.Tracks N P g)
    (hok : ∀ a g, P (.ok a) g → (f a).Tracks N Q g)
    (herror : ∀ e g, P (.error e) g → Q (.error e) g) : (p.bind f).Tracks N Q g := by
  induction p generalizing g with
  | ret x =>
    cases x with
    | ok a => exact hok a g hp
    | error e => exact herror e g hp
  | op o next ih => exact ⟨hp.1, fun x hx => ih x (hp.2 x hx)⟩

theorem Tracks.catchAll {P Q : Except ε α → G → Prop} {p : Prog Reply ε α}
    {h : ε → Prog Reply ε α} (hp : p.Tracks N P g) (hok : ∀ a g, P (.ok a) g → Q (.ok a) g)
    (herror : ∀ e g, P (.error e) g → (h e).Tracks N Q g) : (p.catchAll h).Tracks N Q g := by
  induction p generalizing g with
  | ret x =>
    cases x with
    | ok a => exact hok a g hp
    | error e => exact herror e g hp
  | op o next ih => exact ⟨hp.1, fun x hx => ih x (hp.2 x hx)⟩

theorem Tracks.finallyDo {P Q : Except ε α → G → Prop} {p : Prog Reply ε α}
    {q : Prog Reply ε Unit} (hp : p.Tracks N P g)
    (hq : ∀ x g, P x g → (q.bind fun _ => .ret x).Tracks N Q g) :
    (p.finallyDo q).Tracks N Q g := by
  induction p generalizing g with
  | ret x => exact hq x g hp
  | op o next ih => exact ⟨hp.1, fun x hx => ih x (hp.2 x hx)⟩

theorem Tracks.call {Q : Except ε β → G → Prop} {o : Op} {f : Reply o → Prog Reply ε β}
    (hmay : N.may g o) (hok : ∀ a, N.can g o (.ok a) → (f a).Tracks N Q (N.turn g o (.ok a)))
    (herror : ∀ e, N.can g o (.error e) → Q (.error e) (N.turn g o (.error e))) :
    ((Prog.call o).bind f).Tracks N Q g := by
  refine ⟨hmay, fun x hx => ?_⟩
  cases x with
  | ok a => exact hok a hx
  | error e => exact herror e hx

theorem Tracks.ite {Q : Except ε α → G → Prop} {b : Prop} [Decidable b] {p q : Prog Reply ε α}
    (hp : b → p.Tracks N Q g) (hq : ¬ b → q.Tracks N Q g) :
    (if b then p else q).Tracks N Q g := by
  split
  · exact hp ‹_›
  · exact hq ‹_›

theorem Tracks.forEach {I : List α → G → Prop} {E : ε → G → Prop} {xs : List α}
    {f : α → Prog Reply ε Unit}
    (round : ∀ x rest g, I (x :: rest) g →
      (f x).Tracks N (fun y g => match y with | .ok _ => I rest g | .error e => E e g) g)
    (hI : I xs g) : (Prog.forEach xs f).Tracks N
      (fun y g => match y with | .ok _ => I [] g | .error e => E e g) g := by
  induction xs generalizing g with
  | nil => exact hI
  | cons x rest ih =>
    exact (round x rest g hI).bind (fun _ g h => ih h) fun _ _ h => h

theorem Tracks.uses {Γ : G → Prop} {φ : Op → Prop} {p : Prog Reply ε α} (hp : p.Uses φ)
    (hφ : ∀ g o, Γ g → φ o → N.may g o ∧ ∀ x, N.can g o x → Γ (N.turn g o x)) (hg : Γ g) :
    p.Tracks N (fun _ g => Γ g) g := by
  induction p generalizing g with
  | ret x => exact hg
  | op o next ih =>
    obtain ⟨hmay, hnext⟩ := hφ g o hg hp.1
    exact ⟨hmay, fun x hx => ih x (hp.2 x) (hnext x hx)⟩

theorem Tracks.returns {Q : Except ε α → G → Prop} {φ : α → Prop} {p : Prog Reply ε α}
    (h : p.Tracks N Q g) (hp : p.Returns φ) :
    p.Tracks N (fun x g => Q x g ∧ ∀ a, x = .ok a → φ a) g := by
  induction p generalizing g with
  | ret x =>
    refine ⟨h, fun a ha => ?_⟩
    subst ha
    exact hp
  | op o next ih => exact ⟨h.1, fun x hx => ih x (h.2 x hx) (hp x)⟩

/-- Whatever the replies are, the program gives back before it ends or takes again. -/
def Owes (take give : Op → Prop) : Prog Reply ε α → Prop
  | .ret _ => False
  | .op o next => give o ∨ ¬ take o ∧ ∀ x, (next x).Owes take give

/-- `Owes` for the one run in which every operation is given its reply, as a test. -/
def gives (take give : Op → Bool) (reply : (o : Op) → Except ε (Reply o)) : Prog Reply ε α → Bool
  | .ret _ => false
  | .op o next => give o || (!take o && (next (reply o)).gives take give reply)

theorem Owes.gives {take give : Op → Prop} {takes gives : Op → Bool}
    {reply : (o : Op) → Except ε (Reply o)} {p : Prog Reply ε α} (h : p.Owes take give)
    (htake : ∀ o, ¬ take o → takes o = false) (hgive : ∀ o, give o → gives o = true) :
    p.gives takes gives reply = true := by
  induction p with
  | ret x => exact h.elim
  | op o next ih =>
    rcases h with hgives | ⟨hno, hnext⟩
    · simp [Prog.gives, hgive o hgives]
    · simp [Prog.gives, htake o hno, ih (reply o) (hnext (reply o))]

end Prog

structure Play (Op : Type) (Reply : Op → Type) (ε G Role Entry : Type) where
  script : Role → Script Reply ε G
  /-- A new process can take up the code of an entry point in the phase. -/
  begins : Role → Entry → G → Prop
  /-- A process can go on at an entry point in the phase. -/
  again : Role → Entry → G → Prop
  /-- A process may end in the phase with this outcome. -/
  ends : Role → G → Except ε (Option Entry) → Prop
  /-- The phase of a process that was killed. -/
  dead : G

section Moved

variable {v b : List (Role × G)} {pid i : Nat} {c c₀ d : Role × G}

theorem moved_cases (h : (v.set pid c ++ b)[i]? = some d) :
    (i = pid ∧ d = c) ∨ (i ≠ pid ∧ v[i]? = some d) ∨ d ∈ b := by
  rw [List.getElem?_append] at h
  split at h
  · rw [List.getElem?_set] at h
    split at h
    · rename_i heq
      split at h
      · cases h
        exact .inl ⟨heq.symm, rfl⟩
      · cases h
    · rename_i hne
      exact .inr (.inl ⟨fun heq => hne heq.symm, h⟩)
  · exact .inr (.inr (List.mem_of_getElem? h))

theorem moved_other (hne : i ≠ pid) (h : v[i]? = some d) :
    (v.set pid c ++ b)[i]? = some d := by
  have hlt := (List.getElem?_eq_some_iff.mp h).1
  rw [List.getElem?_append_left (by simpa using hlt), List.getElem?_set_ne fun heq => hne heq.symm]
  exact h

theorem moved_self (h : v[pid]? = some c₀) : (v.set pid c ++ b)[pid]? = some c := by
  have hlt := (List.getElem?_eq_some_iff.mp h).1
  rw [List.getElem?_append_left (by simpa using hlt), List.getElem?_set_self hlt]

theorem moved_count (p : Role × G → Bool) (h : v[pid]? = some c₀) :
    (v.set pid c ++ b).countP p + (p c₀).toNat = v.countP p + (p c).toNat + b.countP p := by
  obtain ⟨hlt, hc₀⟩ := List.getElem?_eq_some_iff.mp h
  have hsplit : v = v.take pid ++ c₀ :: v.drop (pid + 1) := by
    rw [← hc₀, List.getElem_cons_drop, List.take_append_drop]
  have hset : v.set pid c = v.take pid ++ c :: v.drop (pid + 1) :=
    List.set_eq_take_append_cons_drop ▸ by
    simp [hlt]
  rw [List.countP_append, hset]
  conv_rhs => rw [hsplit]
  simp only [List.countP_append, List.countP_cons]
  cases p c₀ <;> cases p c <;> simp <;> omega

end Moved

namespace Play

variable (Y : Play Op Reply ε G Role Entry) {M : Machine Op Reply ε S Role Entry Choice Env}

def post (r : Role) : Except ε (Option Entry) → G → Prop
  | .ok (some n), g => Y.again r n g
  | x, g => Y.ends r g x

def In (p : Proc Reply ε Role Entry) (g : G) : Prop :=
  p.code.Tracks (Y.script p.role) (Y.post p.role) g ∨ (g = Y.dead ∧ ∃ x, p.code = .ret x)

structure On (w : World Reply ε S Role Entry) (v : List (Role × G)) : Prop where
  length : v.length = w.procs.length
  phase : ∀ {pid : Nat} {p : Proc Reply ε Role Entry} {c : Role × G}, w.procs[pid]? = some p →
    v[pid]? = some c → p.role = c.1 ∧ Y.In p c.2

/-- A process at rest: killed, ended, or before an operation that gives control back. -/
def Rests (awaits : Op → Bool) (r : Role) (g : G) : Prop :=
  g = Y.dead ∨ (∃ o, (Y.script r).may g o ∧ awaits o = true) ∨ ∃ x, Y.post r x g

/-- The phases of the processes that an operation starts. -/
inductive Births : Option (Role × Entry) → List (Role × G) → Prop where
  | nobody : Births none []
  | one {r : Role} {n : Entry} {g : G} (begins : Y.begins r n g) : Births (some (r, n)) [(r, g)]

/-- All phases after the death of the cooperative group. -/
def fallen (coop : Role → Bool) (v : List (Role × G)) : List (Role × G) :=
  v.map fun c => if coop c.1 then (c.1, Y.dead) else c

/-- Each kind of step keeps the assertion `J` on the shared state and all phases. -/
structure Sound (M : Machine Op Reply ε S Role Entry Choice Env)
    (ok : World Reply ε S Role Entry → Label Role Entry Choice Env → Prop)
    (init : World Reply ε S Role Entry) (J : S → List (Role × G) → Prop) : Prop where
  code : ∀ {r n g}, Y.begins r n g ∨ Y.again r n g → (M.code r n).Tracks (Y.script r) (Y.post r) g
  run : ∀ {w v pid p o next c x s' g}, M.Reach ok init w → Y.On w v → J w.shared v →
    w.procs[pid]? = some p → p.code = .op o next → v[pid]? = some (p.role, g) →
    (Y.script p.role).may g o →
    (M.coop p.role = true → ∀ j r' g', j ≠ pid → v[j]? = some (r', g') → M.coop r' = true →
      Y.Rests M.awaits r' g') →
    ok w (.run pid c) → M.exec p.role o c w.shared = some (x, s') →
    (Y.script p.role).can g o x ∧ ∃ born, Y.Births (M.spawn o w.shared) born ∧
      J s' (v.set pid (p.role, (Y.script p.role).turn g o x) ++ born)
  env : ∀ {w v e s'}, M.Reach ok init w → J w.shared v → ok w (.env e) →
    M.env e w.shared = some s' → J s' v
  enter : ∀ {w v r n s'}, M.Reach ok init w → J w.shared v → ok w (.enter r n) →
    M.enter r n w.shared = some s' → ∃ g, Y.begins r n g ∧ J s' (v ++ [(r, g)])
  stop : ∀ {s : S} {v pid r g}, J s v → v[pid]? = some (r, g) → M.coop r = false →
    J s (v.set pid (r, Y.dead))
  crash : ∀ {s v}, J s v → J (M.down s) (Y.fallen M.coop v)

variable {Y}

theorem On.entry {w : World Reply ε S Role Entry} {v : List (Role × G)} (h : Y.On w v)
    {pid : Nat} {p : Proc Reply ε Role Entry} (hp : w.procs[pid]? = some p) :
    ∃ g, v[pid]? = some (p.role, g) ∧ Y.In p g := by
  obtain ⟨hlt, _⟩ := List.getElem?_eq_some_iff.mp hp
  have hv : v[pid]? = some (v.get ⟨pid, h.length ▸ hlt⟩) := List.getElem?_eq_getElem _
  obtain ⟨hrole, hin⟩ := h.phase hp hv
  exact ⟨_, by rw [hv, hrole], hin⟩

theorem On.proc {w : World Reply ε S Role Entry} {v : List (Role × G)} (h : Y.On w v)
    {pid : Nat} {c : Role × G} (hc : v[pid]? = some c) :
    ∃ p, w.procs[pid]? = some p ∧ p.role = c.1 ∧ Y.In p c.2 := by
  obtain ⟨hlt, _⟩ := List.getElem?_eq_some_iff.mp hc
  have hp : w.procs[pid]? = some (w.procs.get ⟨pid, h.length ▸ hlt⟩) := List.getElem?_eq_getElem _
  exact ⟨_, hp, h.phase hp hc⟩

/-- A process that still has an operation to perform keeps to its script. -/
theorem In.tracks {p : Proc Reply ε Role Entry} {g : G} {o : Op} {next} (h : Y.In p g)
    (hcode : p.code = .op o next) : (Y.script p.role).may g o ∧
      ∀ x, (Y.script p.role).can g o x → (next x).Tracks (Y.script p.role) (Y.post p.role)
        ((Y.script p.role).turn g o x) := by
  rcases h with h | ⟨_, x, hx⟩
  · rw [hcode] at h
    exact h
  · rw [hcode] at hx
    cases hx

theorem In.rests {p : Proc Reply ε Role Entry} {g : G} (h : Y.In p g)
    (hwait : M.waiting p = true) : Y.Rests M.awaits p.role g := by
  rcases h with h | ⟨rfl, _⟩
  · unfold Machine.waiting at hwait
    split at hwait
    · rename_i x hcode
      rw [hcode] at h
      exact .inr (.inr ⟨x, h⟩)
    · rename_i o next hcode
      rw [hcode] at h
      exact .inr (.inl ⟨o, h.1, hwait⟩)
  · exact .inl rfl

/-- In a phase in which nobody ends, a process still has an operation to perform. -/
theorem In.live {p : Proc Reply ε Role Entry} {g : G} (h : Y.In p g) (hdead : g ≠ Y.dead)
    (hend : ∀ x, ¬ Y.post p.role x g) : ∃ o next, p.code = .op o next := by
  rcases h with h | ⟨heq, _⟩
  · cases hcode : p.code with
    | ret x =>
      rw [hcode] at h
      exact absurd h (hend x)
    | op o next => exact ⟨o, next, rfl⟩
  · exact absurd heq hdead

/-- In a phase in which nobody rests, a process is live and has control. -/
theorem In.busy {p : Proc Reply ε Role Entry} {g : G} (h : Y.In p g)
    (hno : ¬ Y.Rests M.awaits p.role g) : M.waiting p = false := by
  cases hwait : M.waiting p with
  | false => rfl
  | true => exact absurd (h.rests hwait) hno

theorem tracks_resume {J : S → List (Role × G) → Prop}
    {ok : World Reply ε S Role Entry → Label Role Entry Choice Env → Prop}
    {init : World Reply ε S Role Entry} (sound : Y.Sound M ok init J) {r : Role}
    {p : Prog Reply ε (Option Entry)} {g : G} (h : p.Tracks (Y.script r) (Y.post r) g) :
    (M.resume r p).Tracks (Y.script r) (Y.post r) g := by
  unfold Machine.resume
  split
  · exact sound.code (.inr h)
  · exact h

theorem On.crash {w : World Reply ε S Role Entry} {v : List (Role × G)} (h : Y.On w v) :
    Y.On (M.crash w) (Y.fallen M.coop v) := by
  refine ⟨by simp [fallen, Machine.crash, h.length], fun {pid p c} hp hc => ?_⟩
  simp only [Machine.crash, List.getElem?_map, Option.map_eq_some_iff] at hp
  simp only [fallen, List.getElem?_map, Option.map_eq_some_iff] at hc
  obtain ⟨q, hq, rfl⟩ := hp
  obtain ⟨d, hd, rfl⟩ := hc
  obtain ⟨hrole, hin⟩ := h.phase hq hd
  rw [hrole]
  split
  · exact ⟨hrole, .inr ⟨rfl, _, rfl⟩⟩
  · exact ⟨hrole, hin⟩

theorem On.append {w : World Reply ε S Role Entry} {v : List (Role × G)} (h : Y.On w v) {s' : S}
    {ps : List (Proc Reply ε Role Entry)} {cs : List (Role × G)} (hlength : cs.length = ps.length)
    (hnew : ∀ {i : Nat} {p : Proc Reply ε Role Entry} {c : Role × G}, ps[i]? = some p →
      cs[i]? = some c → p.role = c.1 ∧ Y.In p c.2) :
    Y.On { shared := s', procs := w.procs ++ ps } (v ++ cs) := by
  refine ⟨by simp [h.length, hlength], fun {pid p c} hp hc => ?_⟩
  rw [List.getElem?_append] at hp hc
  rw [h.length] at hc
  split at hp
  · rename_i hlt
    rw [if_pos hlt] at hc
    exact h.phase hp hc
  · rename_i hlt
    rw [if_neg hlt] at hc
    exact hnew hp hc

theorem On.set {w : World Reply ε S Role Entry} {v : List (Role × G)} (h : Y.On w v) (s' : S)
    {pid : Nat} {p : Proc Reply ε Role Entry} {g : G} (hin : Y.In p g) :
    Y.On { shared := s', procs := w.procs.set pid p } (v.set pid (p.role, g)) := by
  refine ⟨by simp [h.length], fun {i q c} hq hc => ?_⟩
  rw [List.getElem?_set] at hq hc
  rw [h.length] at hc
  split at hq
  · rename_i heq
    rw [if_pos heq] at hc
    split at hq
    · rename_i hlt
      rw [if_pos hlt] at hc
      cases hq
      cases hc
      exact ⟨rfl, hin⟩
    · cases hq
  · rename_i hne
    rw [if_neg hne] at hc
    exact h.phase hq hc

section Run

variable {ok : World Reply ε S Role Entry → Label Role Entry Choice Env → Prop}
variable {init w w' : World Reply ε S Role Entry} {J : S → List (Role × G) → Prop}

theorem Births.tracks (sound : Y.Sound M ok init J) {o : Op} {s : S} {born : List (Role × G)}
    (h : Y.Births (M.spawn o s) born) :
    let ps : List (Proc Reply ε Role Entry) := match M.spawn o s with
      | some (r, n) => [{ role := r, code := M.code r n }]
      | none => []
    born.length = ps.length ∧
      ∀ {i : Nat} {p : Proc Reply ε Role Entry} {c : Role × G}, ps[i]? = some p →
        born[i]? = some c → p.role = c.1 ∧ Y.In p c.2 := by
  cases hspawn : M.spawn o s with
  | none =>
    rw [hspawn] at h
    cases h
    exact ⟨rfl, fun {i p c} hp _ => by simp at hp⟩
  | some rn =>
    rw [hspawn] at h
    cases h with
    | one begins =>
      refine ⟨rfl, fun {i p c} hp hc => ?_⟩
      cases i with
      | zero =>
        cases hp
        cases hc
        exact ⟨rfl, .inl (sound.code (.inl begins))⟩
      | succ k => simp at hp

theorem Sound.step (sound : Y.Sound M ok init J) {l : Label Role Entry Choice Env}
    (hreach : M.Reach ok init w) (hok : ok w l) (hstep : M.step l w = some w')
    {v : List (Role × G)} (hon : Y.On w v) (hJ : J w.shared v) :
    ∃ v', Y.On w' v' ∧ J w'.shared v' := by
  cases M.stepped_of_step hstep with
  | @run pid c p o next x s' _ hp hcode waits performs ends =>
    obtain ⟨g, hg, hin⟩ := hon.entry hp
    obtain ⟨hmay, htracks⟩ := hin.tracks hcode
    have hrests : M.coop p.role = true → ∀ j r' g', j ≠ pid → v[j]? = some (r', g') →
        M.coop r' = true → Y.Rests M.awaits r' g' := by
      intro hc j r' g' hne hj hcoop
      obtain ⟨q, hq, hrole, hin'⟩ := hon.proc hj
      simp only at hrole hin'
      subst hrole
      have hall := List.all_eq_true.mp (waits hc) (q, j) (List.mem_zipIdx_iff_getElem?.mpr hq)
      simp only [Bool.or_eq_true, beq_iff_eq, hne, false_or, hcoop] at hall
      exact hin'.rests (by simpa using hall)
    obtain ⟨hcan, born, hborn, hJ'⟩ :=
      sound.run hreach hon hJ hp hcode hg hmay hrests hok performs
    obtain ⟨hlength, hnew⟩ := hborn.tracks sound
    have hmoved : Y.In { p with code := M.resume p.role (next x) }
        ((Y.script p.role).turn g o x) := .inl (tracks_resume sound (htracks x hcan))
    have hon' : Y.On (M.settle w pid p o (M.resume p.role (next x)) s')
        (v.set pid (p.role, (Y.script p.role).turn g o x) ++ born) :=
      (hon.set s' hmoved).append hlength hnew
    rcases ends with rfl | ⟨_, rfl⟩
    · exact ⟨_, hon', hJ'⟩
    · exact ⟨_, hon'.crash, sound.crash hJ'⟩
  | env moves => exact ⟨v, ⟨hon.length, hon.phase⟩, sound.env hreach hJ hok moves⟩
  | enter moves =>
    obtain ⟨g, hbegins, hJ'⟩ := sound.enter hreach hJ hok moves
    refine ⟨_, hon.append rfl fun {i p c} hp hc => ?_, hJ'⟩
    cases i with
    | zero =>
      cases hp
      cases hc
      exact ⟨rfl, .inl (sound.code (.inl hbegins))⟩
    | succ k => simp at hp
  | @stop pid p hp alone =>
    obtain ⟨g, hg, _⟩ := hon.entry hp
    have hhalt : Y.In p.halt Y.dead := .inr ⟨rfl, _, rfl⟩
    exact ⟨_, hon.set w.shared hhalt, sound.stop hJ hg alone⟩
  | crash => exact ⟨_, hon.crash, sound.crash hJ⟩

/-- The assertion holds of every reachable world and the phases of its processes. -/
theorem Sound.reach (sound : Y.Sound M ok init J) {v₀ : List (Role × G)} (hon : Y.On init v₀)
    (hJ : J init.shared v₀) (h : M.Reach ok init w) : ∃ v, Y.On w v ∧ J w.shared v :=
  h.invariant (fun w => ∃ v, Y.On w v ∧ J w.shared v) ⟨v₀, hon, hJ⟩
    fun _ _ _ hreach ⟨_, hon, hJ⟩ hok hstep => sound.step hreach hok hstep hon hJ

end Run

end Play
end Coop
