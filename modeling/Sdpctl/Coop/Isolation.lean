import Sdpctl.Coop.Transactions

/-!
Isolation. Statement by statement the fine machine does nothing that the coarse one does
not do method by method: a transaction works on the data that it found, because nobody
puts data in place while another one holds the lock, and two queries give one answer,
because nobody who can move between them changes what the second one reads.
-/

namespace Coop
namespace Stored

variable {Op Stmt : Type} {Reply : Op → Type} {Answer : Stmt → Type}
variable {ε D S Role Entry Choice Env : Type}
variable {H : Machine Op Reply ε S Role Entry Choice Env} (P : Stored H Answer D)

/-- What a method makes of the state, by what its statements make of the data. -/
def settled {α : Type} (s : S) : Except ε (α × D) → Except ε α × S
  | .ok (a, d) => (.ok a, P.put d s)
  | .error e => (.error e, s)

/-- What has to be shown of a machine with a store. -/
structure Lawful (hi : H.Bounds) (permits : Role → Op → S → Prop) : Prop where
  leads : ∀ r, H.leader r = true → H.coop r = true
  /-- Whatever is not a method with statements of its own leaves the data alone. -/
  whole : ∀ {r o c s x t}, (P.method o).isWhole = true → H.exec r o c s = some (x, t) →
    P.data t = P.data s
  alone : ∀ {o}, (P.method o).isWhole = false → H.awaits o = false ∧ ∀ s, H.spawn o s = none
  transaction : ∀ {r o body s}, P.method o = .transaction body →
    H.exec r o P.works s = some (P.settled s (body.eval P.exec (P.data s)))
  selects : ∀ {o f g join}, P.method o = .selects f g join → f ≠ g ∧
    ∃ (u : D → Answer f) (v : D → Answer g), (∀ d, P.exec f d = .ok (u d, d)) ∧
      (∀ d, P.exec g d = .ok (v d, d)) ∧
      ∀ r s, H.exec r o P.works s = some (.ok (join (u (P.data s)) (v (P.data s))), s)
  fails : ∀ {r o s}, (P.method o).isWhole = false →
    H.exec r o P.fails s = some (.error P.fault, s)
  free : ∀ {r o s}, (P.method o).isWhole = false → hi.run r o P.works s ∧ hi.run r o P.fails s
  env : ∀ {e s t}, H.env e s = some t → P.data t = P.data s
  enter : ∀ {r n s t}, H.enter r n s = some t → P.data t = P.data s
  down : ∀ s, P.data (H.down s) = P.data s
  data_put : ∀ d s, P.data (P.put d s) = d
  /-- Two queries are a matter of the cooperative processes, and a separate process
  leaves alone what the second one reads. -/
  looks : ∀ {r o s f g join}, permits r o s → P.method o = .selects f g join → H.coop r = true
  steady : ∀ {r o s c x t o' f g join}, H.coop r = false → permits r o s → hi.run r o c s →
    H.exec r o c s = some (x, t) → P.method o' = .selects f g join →
    (P.exec g (P.data t)).map Prod.fst = (P.exec g (P.data s)).map Prod.fst

/-- What every step keeps: an old lock that is held was held before, on the same data. -/
structure Steady (s t : Locked S) : Prop where
  next : s.next ≤ t.next
  held : ∀ n < s.next, t.holder = some n → s.holder = some n ∧ P.data t.base = P.data s.base

/-- In the middle of the block of an operation. -/
inductive Within (o : Op) : FineProg Reply Answer D ε (Reply o) → Locked S → Prop where
  /-- As long as the lock is held, what is left of the body makes of the copy what the
  whole body makes of the data. -/
  | running {body rest : Tx Answer ε (Reply o)} {n : Nat} {d : D} {s : Locked S}
      (method : P.method o = .transaction body) (old : n < s.next)
      (held : s.holder = some n → rest.eval P.exec d = body.eval P.exec (P.data s.base)) :
      Within o (running n { number := n, data := d } rest) s
  | undoing {body : Tx Answer ε (Reply o)} {n : Nat} {e : ε} {s : Locked S}
      (method : P.method o = .transaction body) (old : n < s.next)
      (held : s.holder = some n → e = P.fault ∨ body.eval P.exec (P.data s.base) = .error e) :
      Within o (undoing n e) s
  | between {f g : Stmt} {join : Answer f → Answer g → Reply o} {y : Answer f} {s : Locked S}
      (method : P.method o = .selects f g join) : Within o (second g (join y)) s

/-- After its first query a method foresees what the second one will find. -/
def Foresees (r : Role) (o : Op) (rest : FineProg Reply Answer D ε (Reply o))
    (x : Except ε (Reply o)) (s : S) : Prop :=
  H.coop r = true ∧ ∃ f g join y z, P.method o = .selects f g join ∧
    rest = second g (join y) ∧ (P.exec g (P.data s)).map Prod.fst = .ok z ∧ x = .ok (join y z)

def blocks : Blocks H P.machine where
  impl o := (P.method o).block
  abs := Locked.base
  Within := P.Within
  Foresees := P.Foresees

variable {P} {hi : H.Bounds} {permits : Role → Op → S → Prop} {s t : Locked S}

theorem Steady.refl : P.Steady s s := ⟨Nat.le_refl _, fun _ _ h => ⟨h, rfl⟩⟩

theorem Steady.of_base {b : S} (h : P.data b = P.data s.base) :
    P.Steady s { s with base := b } := ⟨Nat.le_refl _, fun _ _ hn => ⟨hn, h⟩⟩

theorem Steady.released {b : S} {holder : Option Nat} (h : ∀ n, holder ≠ some n) :
    P.Steady s { s with base := b, holder } := ⟨Nat.le_refl _, fun n _ hn => absurd hn (h n)⟩

theorem Within.steady {o : Op} {rest : FineProg Reply Answer D ε (Reply o)}
    (h : P.Within o rest s) (hst : P.Steady s t) : P.Within o rest t := by
  cases h with
  | running method old held =>
    refine .running method (Nat.lt_of_lt_of_le old hst.next) fun hn => ?_
    obtain ⟨hbefore, hdata⟩ := hst.held _ old hn
    rw [hdata]
    exact held hbefore
  | undoing method old held =>
    refine .undoing method (Nat.lt_of_lt_of_le old hst.next) fun hn => ?_
    obtain ⟨hbefore, hdata⟩ := hst.held _ old hn
    rw [hdata]
    exact held hbefore
  | between method => exact .between method

section Perform

variable {r : Role} {c : Turnout Choice}

theorem perform_plain {o : Op} {y : Except ε (Reply o)}
    (h : P.perform r (.plain o) c s = some (y, t)) : (P.method o).isWhole = true ∧
      ∃ c' b, c = .plain c' ∧ H.exec r o c' s.base = some (y, b) ∧ t = { s with base := b } := by
  cases c with
  | plain c' =>
    simp only [perform] at h
    split at h
    · obtain ⟨⟨x, b⟩, hexec, hx⟩ := Option.map_eq_some_iff.mp h
      cases hx
      exact ⟨‹_›, c', b, rfl, hexec, rfl⟩
    · cases h
  | works | fails => cases h

theorem perform_begin {y : Except ε (Connection D)}
    (h : P.perform r .begin_ c s = some (y, t)) :
    (s.holder = none ∧ y = .ok { number := s.next, data := P.data s.base } ∧
      t = { s with holder := some s.next, next := s.next + 1 }) ∨ y = .error P.fault ∧ t = s := by
  cases c with
  | plain c => cases h
  | works =>
    simp only [perform] at h
    split at h <;> cases h
    exact .inl ⟨‹_›, rfl, rfl⟩
  | fails =>
    cases h
    exact .inr ⟨rfl, rfl⟩

theorem perform_execute {con : Connection D} {st : Stmt}
    {y : Except ε (Answer st × Connection D)}
    (h : P.perform r (.execute con st) c s = some (y, t)) :
    t = s ∧ ((s.holder = some con.number ∧
      y = (P.exec st con.data).map fun x => (x.1, { con with data := x.2 })) ∨
        y = .error P.fault) := by
  cases c with
  | plain c => cases h
  | works =>
    simp only [perform, Option.some.injEq, Prod.mk.injEq] at h
    obtain ⟨rfl, rfl⟩ := h
    refine ⟨rfl, ?_⟩
    unfold execute
    split
    · refine .inl ⟨‹_›, ?_⟩
      cases P.exec st con.data <;> rfl
    · exact .inr rfl
  | fails =>
    cases h
    exact ⟨rfl, .inr rfl⟩

theorem perform_commit {con : Connection D} {y : Except ε Unit}
    (h : P.perform r (.commit con) c s = some (y, t)) :
    (s.holder = some con.number ∧ y = .ok () ∧
      t = { s with base := P.put con.data s.base, holder := none }) ∨
        y = .error P.fault ∧ t = s := by
  cases c with
  | plain c => cases h
  | works =>
    simp only [perform] at h
    split at h <;> cases h
    · exact .inl ⟨‹_›, rfl, rfl⟩
    · exact .inr ⟨rfl, rfl⟩
  | fails =>
    cases h
    exact .inr ⟨rfl, rfl⟩

theorem perform_rollback {n : Nat} {y : Except ε Unit}
    (h : P.perform r (.rollback n) c s = some (y, t)) :
    ((s.holder = some n ∧ y = .ok ()) ∨ y = .error P.fault) ∧
      (t = s ∨ t = { s with holder := none }) := by
  cases c with
  | plain c => cases h
  | works =>
    simp only [perform] at h
    split at h <;> cases h
    · exact ⟨.inl ⟨‹_›, rfl⟩, .inr rfl⟩
    · exact ⟨.inr rfl, .inl rfl⟩
  | fails =>
    cases h
    refine ⟨.inr rfl, ?_⟩
    split
    · exact .inr rfl
    · exact .inl rfl

theorem perform_select {st : Stmt} {y : Except ε (Answer st)}
    (h : P.perform r (.select st) c s = some (y, t)) :
    t = s ∧ (y = (P.exec st (P.data s.base)).map Prod.fst ∨ y = .error P.fault) := by
  cases c with
  | plain c => cases h
  | works =>
    cases h
    exact ⟨rfl, .inl rfl⟩
  | fails =>
    cases h
    exact ⟨rfl, .inr rfl⟩

theorem Lawful.perform_steady (law : P.Lawful hi permits) {o : Fine Op Stmt D} {y}
    (h : P.perform r o c s = some (y, t)) : P.Steady s t := by
  cases o with
  | plain o =>
    obtain ⟨hwhole, _, _, _, hexec, rfl⟩ := perform_plain h
    exact .of_base (law.whole hwhole hexec)
  | begin_ =>
    rcases perform_begin h with ⟨_, _, rfl⟩ | ⟨_, rfl⟩
    · refine ⟨Nat.le_succ _, fun n hn hheld => ?_⟩
      cases hheld
      exact absurd hn (Nat.lt_irrefl _)
    · exact .refl
  | execute con st =>
    rw [(perform_execute h).1]
    exact .refl
  | commit con =>
    rcases perform_commit h with ⟨_, _, rfl⟩ | ⟨_, rfl⟩
    · exact .released (by simp)
    · exact .refl
  | rollback n =>
    rcases (perform_rollback h).2 with rfl | rfl
    · exact .refl
    · exact .released (by simp)
  | select st =>
    rw [(perform_select h).1]
    exact .refl

end Perform

section Steps

variable {r : Role} {o : Op} {c : Turnout Choice} {rest : FineProg Reply Answer D ε (Reply o)}
variable {o' : Fine Op Stmt D} {y : Except ε (Fine.Reply Reply Answer o')}
variable {k : Except ε (Fine.Reply Reply Answer o') → FineProg Reply Answer D ε (Reply o)}

theorem Lawful.failed (law : P.Lawful hi permits) (hwhole : (P.method o).isWhole = false)
    (halone : P.machine.spawn o' s = none) (same : t.base = s.base) :
    P.blocks.Outcome hi r o rest o' s t (.ret (.error P.fault)) := by
  refine .acts (law.free hwhole).2 ?_ ?_
  · show H.exec r o P.fails s.base = some (.error P.fault, t.base)
    rw [same]
    exact law.fails hwhole
  · rw [halone]
    exact ((law.alone hwhole).2 s.base).symm

theorem onward {rest' : FineProg Reply Answer D ε (Reply o)} {body : Tx Answer ε (Reply o)}
    (method : P.method o = .transaction body) (halone : P.machine.spawn o' s = none)
    (same : t.base = s.base) (within : P.Within o rest' t) :
    P.blocks.Outcome hi r o rest o' s t rest' := by
  refine .goes (.of_eq same) halone within fun x hf => ?_
  obtain ⟨_, f, g, join, _, _, hm, _⟩ := hf
  rw [method] at hm
  cases hm

section Transaction

variable {body b : Tx Answer ε (Reply o)} {n : Nat} {d : D} {e : ε}

theorem Lawful.begins (law : P.Lawful hi permits) (hm : P.method o = .transaction body)
    (hrest : transact body = .op o' k) (h : P.perform r o' c s = some (y, t)) :
    P.blocks.Outcome hi r o rest o' s t (k y) := by
  rw [transact_eq] at hrest
  cases hrest
  rcases perform_begin h with ⟨_, rfl, rfl⟩ | ⟨rfl, rfl⟩
  · exact onward hm rfl rfl (.running hm (Nat.lt_succ_self _) fun _ => rfl)
  · exact law.failed (by simp [hm, Method.isWhole]) rfl rfl

theorem Lawful.undoes (law : P.Lawful hi permits) (hm : P.method o = .transaction body)
    (held : s.holder = some n → e = P.fault ∨ body.eval P.exec (P.data s.base) = .error e)
    (hrest : undoing n e = .op o' k) (h : P.perform r o' c s = some (y, t)) :
    P.blocks.Outcome hi r o rest o' s t (k y) := by
  have hwhole : (P.method o).isWhole = false := by simp [hm, Method.isWhole]
  cases hrest
  have hsame : t.base = s.base := by
    rcases (perform_rollback h).2 with rfl | rfl <;> rfl
  rcases (perform_rollback h).1 with ⟨hholder, rfl⟩ | rfl
  · rcases held hholder with rfl | heval
    · exact law.failed hwhole rfl hsame
    · refine .acts (law.free hwhole).1 ?_ ((law.alone hwhole).2 s.base).symm
      show H.exec r o P.works s.base = some (.error e, t.base)
      rw [law.transaction hm, heval, hsame]
      rfl
  · exact law.failed hwhole rfl hsame

theorem Lawful.advances (law : P.Lawful hi permits) (hm : P.method o = .transaction body)
    (old : n < s.next)
    (held : s.holder = some n → b.eval P.exec d = body.eval P.exec (P.data s.base))
    (hrest : running n { number := n, data := d } b = .op o' k)
    (h : P.perform r o' c s = some (y, t)) : P.blocks.Outcome hi r o rest o' s t (k y) := by
  have hwhole : (P.method o).isWhole = false := by simp [hm, Method.isWhole]
  have hundo : P.Within o (undoing n P.fault) s := .undoing hm old fun _ => .inl rfl
  cases b with
  | ret x =>
    cases x with
    | error e => exact law.undoes hm (fun hholder => .inr (held hholder).symm) hrest h
    | ok a =>
      cases hrest
      rcases perform_commit h with ⟨hholder, rfl, rfl⟩ | ⟨rfl, rfl⟩
      · refine .acts (law.free hwhole).1 ?_ ((law.alone hwhole).2 s.base).symm
        show H.exec r o P.works s.base = some (.ok a, P.put d s.base)
        rw [law.transaction hm, ← held hholder]
        rfl
      · exact onward hm rfl rfl hundo
  | stmt st next =>
    rw [running] at hrest
    cases hrest
    obtain ⟨rfl, ⟨hholder, rfl⟩ | rfl⟩ := perform_execute h
    · have heval := held hholder
      rw [Tx.eval_stmt] at heval
      cases hexec : P.exec st d with
      | ok z =>
        rw [hexec] at heval
        exact onward hm rfl rfl (.running hm old fun _ => heval)
      | error e =>
        rw [hexec] at heval
        exact onward hm rfl rfl (.undoing hm old fun _ => .inr heval.symm)
    · exact onward hm rfl rfl hundo

end Transaction

section Queries

variable {f g : Stmt} {join : Answer f → Answer g → Reply o}

theorem second_injective {α : Type} {j j' : Answer g → α}
    (h : (second g j : FineProg Reply Answer D ε α) = second g j') : j = j' := by
  unfold second at h
  simp only [Prog.op.injEq, heq_eq_eq, true_and] at h
  funext z
  simpa using congrFun h (.ok z)

theorem Lawful.looks_first (law : P.Lawful hi permits) (hm : P.method o = .selects f g join)
    (hrest : twoSelects f g join = .op o' k) (h : P.perform r o' c s = some (y, t)) :
    P.blocks.Outcome hi r o rest o' s t (k y) := by
  have hwhole : (P.method o).isWhole = false := by simp [hm, Method.isWhole]
  obtain ⟨_, u, v, hu, hv, hexec⟩ := law.selects hm
  rw [twoSelects_eq] at hrest
  cases hrest
  obtain ⟨rfl, rfl | rfl⟩ := perform_select h
  · rw [hu]
    refine .goes .rest rfl (.between hm) fun x hf => ⟨rfl, .inr ⟨(law.alone hwhole).2 _, P.works,
      (law.free hwhole).1, ?_⟩⟩
    obtain ⟨_, f', g', join', y, z, hm', hsecond, hz, rfl⟩ := hf
    rw [hm] at hm'
    cases hm'
    rw [hv] at hz
    cases hz
    rw [← second_injective hsecond]
    exact hexec r t.base
  · exact law.failed hwhole rfl rfl

theorem Lawful.looks_second (law : P.Lawful hi permits) (hm : P.method o = .selects f g join)
    (hpermits : permits r o s.base) {x : Answer f} (hrest : second g (join x) = .op o' k)
    (h : P.perform r o' c s = some (y, t)) :
    P.blocks.Outcome hi r o (second g (join x)) o' s t (k y) := by
  have hwhole : (P.method o).isWhole = false := by simp [hm, Method.isWhole]
  obtain ⟨_, u, v, hu, hv, hexec⟩ := law.selects hm
  cases hrest
  obtain ⟨rfl, rfl | rfl⟩ := perform_select h
  · rw [hv]
    refine .keeps rfl rfl ⟨law.looks hpermits hm, f, g, join, x, _, hm, rfl, ?_, rfl⟩
    show (P.exec g (P.data t.base)).map Prod.fst = .ok (v (P.data t.base))
    rw [hv]
    rfl
  · exact law.failed hwhole rfl rfl

end Queries

theorem Lawful.step (law : P.Lawful hi permits)
    (hplace : rest = (P.method o).block ∨ P.Within o rest s) (hrest : rest = .op o' k)
    (hpermits : permits r o s.base) (hbound : (P.bounds hi).run r o' c s)
    (h : P.perform r o' c s = some (y, t)) : P.blocks.Outcome hi r o rest o' s t (k y) := by
  rcases hplace with rfl | hwithin
  · cases hm : P.method o with
    | whole =>
      rw [hm] at hrest
      cases hrest
      obtain ⟨_, c', b, rfl, hexec, rfl⟩ := perform_plain h
      exact .acts hbound hexec rfl
    | transaction body =>
      rw [hm] at hrest
      exact law.begins hm hrest h
    | selects f g join =>
      rw [hm] at hrest
      exact law.looks_first hm hrest h
  · cases hwithin with
    | running method old held => exact law.advances method old held hrest h
    | undoing method old held => exact law.undoes method held hrest h
    | between method => exact law.looks_second method hpermits hrest h

end Steps

section Sound

theorem Within.busy {o : Op} {rest : FineProg Reply Answer D ε (Reply o)}
    (h : P.Within o rest s) : ∃ o' k, rest = .op o' k ∧ P.machine.awaits o' = false := by
  cases h with
  | @running _ b =>
    cases b with
    | ret x => cases x <;> exact ⟨_, _, rfl, rfl⟩
    | stmt st next => exact ⟨_, _, by rw [Coop.running], rfl⟩
  | undoing => exact ⟨_, _, rfl, rfl⟩
  | between => exact ⟨_, _, rfl, rfl⟩

theorem Lawful.starts (law : P.Lawful hi permits) (o : Op) :
    ∃ o' k, (P.method o).block = .op o' k ∧ P.machine.awaits o' = H.awaits o := by
  cases hm : P.method o with
  | whole => exact ⟨_, _, rfl, rfl⟩
  | transaction body =>
    exact ⟨_, _, transact_eq body, (law.alone (by simp [hm, Method.isWhole])).1.symm⟩
  | selects f g join =>
    exact ⟨_, _, twoSelects_eq f g join, (law.alone (by simp [hm, Method.isWhole])).1.symm⟩

theorem Lawful.foresees_late (law : P.Lawful hi permits) {r : Role} {o : Op}
    {x : Except ε (Reply o)} {b : S} : ¬ P.Foresees r o (P.method o).block x b := by
  rintro ⟨_, f, g, join, y, z, hm, hblock, _⟩
  obtain ⟨hne, _⟩ := law.selects hm
  rw [hm] at hblock
  have hop : (twoSelects f g join : FineProg Reply Answer D ε (Reply o)) =
      second g (join y) := hblock
  rw [twoSelects_eq, second] at hop
  simp only [Prog.op.injEq, Fine.select.injEq] at hop
  exact hne hop.1

theorem Lawful.sound (law : P.Lawful hi permits) :
    P.blocks.Sound hi (P.bounds hi) permits where
  coop _ := rfl
  leader _ := rfl
  leads := law.leads
  code _ _ := rfl
  starts := law.starts
  busy h := by
    obtain ⟨o', k, hrest, halone⟩ := h.busy
    refine ⟨o', k, hrest, fun hwaits => ?_⟩
    rw [halone] at hwaits
    cases hwaits
  step := law.step
  within_exec h hexec := h.steady (law.perform_steady hexec)
  within_env {o rest e s t} h henv := by
    cases e with
    | plain e =>
      obtain ⟨b, hb, rfl⟩ := Option.map_eq_some_iff.mp henv
      exact h.steady (.of_base (law.env hb))
    | release =>
      cases henv
      exact h.steady (.released (by simp))
  within_enter h henter := by
    obtain ⟨b, hb, rfl⟩ := Option.map_eq_some_iff.mp henter
    exact h.steady (.of_base (law.enter hb))
  within_down h := h.steady (.of_base (law.down _))
  foresees_coop h := h.1
  foresees_late := law.foresees_late
  foresees_exec hcoop hpermits hbound hexec hf := by
    obtain ⟨hr, f, g, join, y, z, hm, hrest, hz, hx⟩ := hf
    rw [law.steady hcoop hpermits hbound hexec hm] at hz
    exact ⟨hr, f, g, join, y, z, hm, hrest, hz, hx⟩
  foresees_env _ henv hf := by
    obtain ⟨hr, f, g, join, y, z, hm, hrest, hz, hx⟩ := hf
    rw [law.env henv] at hz
    exact ⟨hr, f, g, join, y, z, hm, hrest, hz, hx⟩
  foresees_enter henter hf := by
    obtain ⟨hr, f, g, join, y, z, hm, hrest, hz, hx⟩ := hf
    rw [law.enter henter] at hz
    exact ⟨hr, f, g, join, y, z, hm, hrest, hz, hx⟩
  env {e s t} hbound henv := by
    cases e with
    | plain e =>
      obtain ⟨b, hb, rfl⟩ := Option.map_eq_some_iff.mp henv
      exact .step .rest hbound hb
    | release =>
      cases henv
      exact .rest
  enter hbound henter := by
    obtain ⟨b, hb, rfl⟩ := Option.map_eq_some_iff.mp henter
    exact ⟨hbound, hb⟩
  down _ := rfl

/-- Statement by statement the machine reaches nothing that it does not reach method by
method. -/
theorem Lawful.refines (law : P.Lawful hi permits) {b : S}
    (hpermits : ∀ w, H.Reach hi.ok { shared := b, procs := [] } w →
      ∀ (pid : Nat) p o next, w.procs[pid]? = some p → p.code = .op o next →
        permits p.role o w.shared)
    {w : World (Fine.Reply Reply Answer) ε (Locked S) Role Entry}
    (h : P.machine.Reach (P.bounds hi).ok
      { shared := { base := b, holder := none, next := 0 }, procs := [] } w) :
    ∃ ps, P.blocks.Follows hi { shared := b, procs := [] } w ps := by
  have hstart : P.blocks.Follows hi { shared := b, procs := [] }
      { shared := { base := b, holder := none, next := 0 }, procs := [] } [] :=
    ⟨rfl, by simp, .init, by simp⟩
  exact law.sound.refines hstart hpermits h

end Sound

end Stored
end Coop
