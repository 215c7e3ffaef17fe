import Sdpctl.Coop.Blocks

/-!
The refinement theorem of blocks. Whatever a fine machine reaches, however the blocks
of its processes interleave and wherever they are cut short, stands for something that
the coarse machine reaches.
-/

namespace Coop
namespace Blocks

variable {Op Op' : Type} {Reply : Op → Type} {Reply' : Op' → Type}
variable {ε S S' Role Entry Choice Choice' Env Env' : Type}
variable {H : Machine Op Reply ε S Role Entry Choice Env}
variable {L : Machine Op' Reply' ε S' Role Entry Choice' Env'}
variable {B : Blocks H L} {hi : H.Bounds} {lo : L.Bounds} {permits : Role → Op → S → Prop}

namespace Sound

variable (sound : B.Sound hi lo permits)
include sound

theorem expand_op (r : Role) (o : Op)
    (next : Except ε (Reply o) → Prog Reply ε (Option Entry)) :
    ∃ o' k, (Prog.op o next).expand B.impl = .op o' k ∧ L.resume r (.op o' k) = .op o' k := by
  obtain ⟨o', k, hk, _⟩ := sound.starts o
  exact ⟨o', _, by rw [Prog.expand_op, hk, Prog.op_hand], rfl⟩

theorem resume (r : Role) (p : Prog Reply ε (Option Entry)) :
    L.resume r (p.expand B.impl) = (H.resume r p).expand B.impl := by
  cases p with
  | op o next =>
    obtain ⟨o', k, hk, hresume⟩ := sound.expand_op r o next
    rw [hk, hresume, ← hk]
    rfl
  | ret x =>
    rcases x with e | (_ | n)
    · rfl
    · rfl
    · exact sound.code r n

theorem closes {r : Role} {p : Prog Reply ε (Option Entry)} :
    L.Closes r (p.expand B.impl) ↔ H.Closes r p := by
  unfold Machine.Closes
  rw [sound.leader]
  refine and_congr_right fun _ => ?_
  cases p with
  | ret x => simp
  | op o next =>
    obtain ⟨o', k, hk, _⟩ := sound.expand_op r o next
    simp [hk]

/-- A process that waits in the fine world waits in the coarse world as well, and foresees
nothing. -/
theorem waiting {s : S'} {p : Role × Place Reply Reply' ε Entry} (hfits : B.Fits s p.2)
    (hwaits : L.waiting (B.fine p) = true) : H.waiting (coarse p) = true ∧
      ∀ o next rest, p.2 = .inside o next rest → ∀ r x s, ¬ B.Foresees r o rest x s := by
  obtain ⟨r, place⟩ := p
  cases place with
  | ended x => exact ⟨rfl, fun _ _ _ h => by cases h⟩
  | inside o next rest =>
    rcases hfits with rfl | hwithin
    · obtain ⟨o', k, hk, hawaits⟩ := sound.starts o
      refine ⟨?_, fun _ _ _ h => by cases h; exact fun _ _ _ => sound.foresees_late⟩
      simpa [Machine.waiting, fine, coarse, hk, hawaits] using hwaits
    · obtain ⟨o', k, rfl, hbusy⟩ := sound.busy hwithin
      obtain ⟨hwaits', hnone⟩ := hbusy (by simpa [Machine.waiting, fine] using hwaits)
      refine ⟨by simpa [Machine.waiting, coarse] using hwaits', fun _ _ _ h => ?_⟩
      cases h
      exact hnone

theorem foresees_drift {r : Role} {o : Op} {rest : Prog Reply' ε (Reply o)} {x s t}
    (h : hi.Drift s t) (hf : B.Foresees r o rest x t) : B.Foresees r o rest x s := by
  induction h with
  | rest => exact hf
  | step _ bound moves ih => exact ih (sound.foresees_env bound moves hf)

theorem foresees_at {r : Role} {p : Prog Reply ε (Option Entry)} {o next} {rest x s}
    (h : B.at_ p = .inside o next rest) : ¬ B.Foresees r o rest x s := by
  cases p with
  | ret x => cases h
  | op o' next' =>
    cases h
    exact sound.foresees_late

/-- When the others wait in the fine world, they wait in the coarse one, and no cooperative
one of them foresees anything. -/
theorem turn {s : S'} {ps : List (Role × Place Reply Reply' ε Entry)} {pid : Nat}
    (hfits : ∀ p ∈ ps, B.Fits s p.2) (h : L.othersWait (ps.map B.fine) pid = true) :
    H.othersWait (world (B.abs s) ps).procs pid = true ∧
      ∀ (i : Nat) r o next rest, i ≠ pid → H.coop r = true →
        ps[i]? = some (r, .inside o next rest) → ∀ r x s, ¬ B.Foresees r o rest x s := by
  rw [Machine.othersWait_iff] at h ⊢
  have hwait : ∀ (i : Nat) p, ps[i]? = some p → i ≠ pid → H.coop p.1 = true →
      H.waiting (coarse p) = true ∧
        ∀ o next rest, p.2 = .inside o next rest → ∀ r x s, ¬ B.Foresees r o rest x s := by
    intro i p hi hne hcoop
    refine sound.waiting (hfits p (List.mem_of_getElem? hi)) (h i (B.fine p) (by simp [hi]) hne ?_)
    rw [sound.coop]
    exact hcoop
  constructor
  · intro i q hq hne hcoop
    simp only [world, List.getElem?_map, Option.map_eq_some_iff] at hq
    obtain ⟨p, hi, rfl⟩ := hq
    exact (hwait i p hi hne hcoop).1
  · intro i r o next rest hne hcoop hi
    exact (hwait i _ hi hne hcoop).2 o next rest rfl

theorem crash {init : World Reply ε S Role Entry} {s : S'}
    {ps : List (Role × Place Reply Reply' ε Entry)} (hfits : ∀ p ∈ ps, B.Fits s p.2)
    (hreach : H.Reach hi.ok init (H.crash (world (B.abs s) ps))) :
    B.Follows hi init (L.crash { shared := s, procs := ps.map B.fine }) (ps.map (fall H)) where
  procs := by
    simp only [Machine.crash, List.map_map]
    refine List.map_congr_left fun p _ => ?_
    rw [Function.comp_apply, Function.comp_apply, fine_fall, fine_role, sound.coop]
  fits p hp := by
    obtain ⟨q, hq, rfl⟩ := List.mem_map.mp hp
    have hfit := hfits q hq
    unfold fall
    split
    · trivial
    · obtain ⟨r, place⟩ := q
      cases place with
      | ended x => trivial
      | inside o next rest => exact hfit.imp id sound.within_down
  reach := by
    rw [crash_world] at hreach
    simpa only [Machine.crash, sound.down] using hreach
  foresees i r o next rest x hi hf := by
    rw [List.getElem?_map, Option.map_eq_some_iff] at hi
    obtain ⟨q, _, hq⟩ := hi
    have hcoop := sound.foresees_coop hf
    unfold fall at hq
    split at hq
    · cases hq
    · rename_i hnot
      rw [hq] at hnot
      exact absurd hcoop hnot

section Step

variable {init : World Reply ε S Role Entry} {s t : S'} {pid : Nat} {r : Role} {o : Op}
variable {ps : List (Role × Place Reply Reply' ε Entry)} {procs : List (Proc Reply' ε Role Entry)}
variable {next : Except ε (Reply o) → Prog Reply ε (Option Entry)} {rest : Prog Reply' ε (Reply o)}
variable {x : Except ε (Reply o)}

theorem acts {c : Choice} (h : B.Follows hi init { shared := s, procs } ps)
    (hpid : ps[pid]? = some (r, .inside o next rest))
    (waits : H.coop r = true → H.othersWait (world (B.abs s) ps).procs pid = true)
    (late : H.coop r = true → ∀ (i : Nat) r' o' next' rest', i ≠ pid → H.coop r' = true →
      ps[i]? = some (r', .inside o' next' rest') → ∀ r x s, ¬ B.Foresees r o' rest' x s)
    (hstable : ∀ p ∈ ps, B.Fits t p.2) (hpermits : permits r o (B.abs s))
    (bound : hi.run r o c (B.abs s)) (performs : H.exec r o c (B.abs s) = some (x, B.abs t)) :
    ∃ ps', B.Follows hi init (L.closing r ((H.resume r (next x)).expand B.impl)
      { shared := t,
        procs := procs.set pid (B.fine (r, B.at_ (H.resume r (next x)))) ++
          (B.born (H.spawn o (B.abs s))).map B.fine }) ps' := by
  generalize hcode : H.resume r (next x) = code
  have hreach := world_reach (B := B) h.reach hpid waits bound performs
  rw [hcode] at hreach
  have hprocs : procs.set pid (B.fine (r, B.at_ code)) ++
      (B.born (H.spawn o (B.abs s))).map B.fine =
        (ps.set pid (r, B.at_ code) ++ B.born (H.spawn o (B.abs s))).map B.fine := by
    have hold : procs = ps.map B.fine := h.procs
    rw [List.map_append, List.map_set, hold]
  have hborn : ∀ p ∈ B.born (H.spawn o (B.abs s)), ∃ n, p.2 = B.at_ (H.code p.1 n) := by
    intro p hp
    generalize H.spawn o (B.abs s) = b at hp
    rcases b with _ | ⟨r', n⟩
    · cases hp
    · rw [born, List.mem_singleton] at hp
      exact ⟨n, by rw [hp]⟩
  have hfits : ∀ p ∈ ps.set pid (r, B.at_ code) ++ B.born (H.spawn o (B.abs s)),
      B.Fits t p.2 := by
    intro p hp
    rcases List.mem_append.mp hp with hp | hp
    · rcases List.mem_or_eq_of_mem_set hp with hp | rfl
      · exact hstable p hp
      · exact fits_at _ _
    · obtain ⟨n, hn⟩ := hborn p hp
      rw [hn]
      exact fits_at _ _
  rw [hprocs]
  by_cases hcloses : H.Closes r code
  · rw [Machine.closing_of_closes hcloses] at hreach
    rw [Machine.closing_of_closes (sound.closes.mpr hcloses)]
    exact ⟨_, sound.crash hfits hreach⟩
  rw [Machine.closing_of_not hcloses] at hreach
  rw [Machine.closing_of_not (fun hclosed => hcloses (sound.closes.mp hclosed))]
  refine ⟨_, rfl, hfits, hreach, fun i r' o' next' rest' x' hi hf => ?_⟩
  rw [List.getElem?_append, List.length_set] at hi
  split at hi
  · rename_i hlt
    by_cases heq : i = pid
    · subst heq
      rw [List.getElem?_set_self hlt] at hi
      obtain ⟨rfl, hat⟩ := Prod.mk.inj (Option.some.inj hi)
      exact absurd hf (sound.foresees_at hat)
    · rw [List.getElem?_set_ne (Ne.symm heq)] at hi
      cases hcoop : H.coop r with
      | true =>
        exact absurd hf (late hcoop i r' o' next' rest' heq (sound.foresees_coop hf) hi _ _ _)
      | false =>
        -- a separate process moves: it does the same where the reply has been taken
        refine (h.foresees i r' o' next' rest' x' hi
          (sound.foresees_exec hcoop hpermits bound performs hf)).imp id fun htaken => ?_
        have hpid' : (ps.set i (r', B.at_ (H.resume r' (next' x'))))[pid]? =
            some (r, .inside o next rest) := by
          rw [List.getElem?_set_ne heq]
          exact hpid
        have hmoved := world_reach (B := B) htaken hpid' (by simp [hcoop]) bound performs
        rw [hcode, Machine.closing_of_not hcloses, List.set_comm _ _ heq] at hmoved
        rw [List.set_append_left _ _ (by simpa using hlt)]
        exact hmoved
  · obtain ⟨n, hn⟩ := hborn _ (List.mem_of_getElem? hi)
    exact absurd hf (sound.foresees_at hn.symm)

theorem keeps (h : B.Follows hi init { shared := s, procs } ps)
    (hpid : ps[pid]? = some (r, .inside o next rest))
    (late : H.coop r = true → ∀ (i : Nat) r' o' next' rest', i ≠ pid → H.coop r' = true →
      ps[i]? = some (r', .inside o' next' rest') → ∀ r x s, ¬ B.Foresees r o' rest' x s)
    (hstable : ∀ p ∈ ps, B.Fits t p.2) (same : B.abs t = B.abs s)
    (foreseen : B.Foresees r o rest x (B.abs s)) :
    ∃ ps', B.Follows hi init (L.closing r ((H.resume r (next x)).expand B.impl)
      { shared := t, procs := procs.set pid (B.fine (r, B.at_ (H.resume r (next x)))) }) ps' := by
  have htaken := h.foresees pid r o next rest x hpid foreseen
  generalize H.resume r (next x) = code at htaken ⊢
  have hprocs : procs.set pid (B.fine (r, B.at_ code)) =
      (ps.set pid (r, B.at_ code)).map B.fine := by
    have hold : procs = ps.map B.fine := h.procs
    rw [List.map_set, hold]
  have hfits : ∀ p ∈ ps.set pid (r, B.at_ code), B.Fits t p.2 := by
    intro p hp
    rcases List.mem_or_eq_of_mem_set hp with hp | rfl
    · exact hstable p hp
    · exact fits_at _ _
  have hcoop := sound.foresees_coop foreseen
  rw [hprocs]
  by_cases hcloses : H.Closes r code
  · -- the group ends, so that nothing is left of the operation
    rw [Machine.closing_of_closes (sound.closes.mpr hcloses)]
    have hcrash : H.Reach hi.ok init (H.crash (world (B.abs s) ps)) :=
      .step .crash h.reach trivial rfl
    refine ⟨_, sound.crash hfits ?_⟩
    rw [crash_world] at hcrash ⊢
    rw [same, List.map_set, set_found]
    · exact hcrash
    · simp [hpid, fall, hcoop]
  rw [Machine.closing_of_not (fun hclosed => hcloses (sound.closes.mp hclosed))]
  refine ⟨_, rfl, hfits, ?_, fun i r' o' next' rest' x' hi hf => ?_⟩
  · rw [same]
    exact htaken.resolve_left hcloses
  · by_cases heq : i = pid
    · subst heq
      rw [List.getElem?_set_self (List.getElem?_eq_some_iff.mp hpid).1] at hi
      obtain ⟨rfl, hat⟩ := Prod.mk.inj (Option.some.inj hi)
      exact absurd hf (sound.foresees_at hat)
    · rw [List.getElem?_set_ne (Ne.symm heq)] at hi
      exact absurd hf (late hcoop i r' o' next' rest' heq (sound.foresees_coop hf) hi _ _ _)

theorem settle_fine {place : Place Reply Reply' ε Entry} {o' : Op'}
    {code : Prog Reply ε (Option Entry)} {b : Option (Role × Entry)} (hborn : L.spawn o' s = b) :
    L.settle { shared := s, procs } pid (B.fine (r, place)) o' (code.expand B.impl) t =
      { shared := t,
        procs := procs.set pid (B.fine (r, B.at_ code)) ++ (B.born b).map B.fine } := by
  unfold Machine.settle
  rw [hborn, fine_at]
  rcases b with _ | ⟨r', n⟩
  · rfl
  · simp only [born, List.map_cons, List.map_nil, fine_at, sound.code]
    rfl

end Step

section Run

variable {init : World Reply ε S Role Entry} {w w' : World Reply' ε S' Role Entry}
variable {ps : List (Role × Place Reply Reply' ε Entry)}

theorem fits_exec {r : Role} {o : Op'} {c : Choice'} {s t : S'} {y : Except ε (Reply' o)}
    (hexec : L.exec r o c s = some (y, t)) (hfits : ∀ p ∈ ps, B.Fits s p.2) :
    ∀ p ∈ ps, B.Fits t p.2 := by
  rintro ⟨r', place⟩ hp
  have hfit := hfits _ hp
  cases place with
  | ended x => trivial
  | inside o next rest => exact hfit.imp id fun hwithin => sound.within_exec hwithin hexec

theorem run (h : B.Follows hi init w ps)
    (hpermits : ∀ w, H.Reach hi.ok init w → ∀ (pid : Nat) p o next, w.procs[pid]? = some p →
      p.code = .op o next → permits p.role o w.shared) {pid : Nat} {c : Choice'}
    (hok : lo.ok w (.run pid c)) (hstep : L.step (.run pid c) w = some w') :
    ∃ ps', B.Follows hi init w' ps' := by
  obtain ⟨s, procs⟩ := w
  cases L.stepped_of_step hstep with
  | @run _ _ p o' next' y t _ found code waits performs ends =>
    have hprocs : procs = ps.map B.fine := h.procs
    have hplace : (ps.map B.fine)[pid]? = some p := hprocs ▸ found
    rw [List.getElem?_map, Option.map_eq_some_iff] at hplace
    obtain ⟨⟨r, place⟩, hpid, rfl⟩ := hplace
    have hfit := h.fits _ (List.mem_of_getElem? hpid)
    cases place with
    | ended x => cases code
    | inside o next rest =>
      have hop : ∃ o' k, rest = .op o' k := by
        rcases hfit with rfl | hwithin
        · obtain ⟨o', k, hk, _⟩ := sound.starts o
          exact ⟨o', k, hk⟩
        · obtain ⟨o', k, hk, _⟩ := sound.busy hwithin
          exact ⟨o', k, hk⟩
      obtain ⟨o'', k, rfl⟩ := hop
      have hrun := hok _ _ _ found code
      have hnext := Machine.step_run found code waits performs
      cases code
      obtain rfl := Option.some.inj (hstep.symm.trans hnext)
      have hpermit := hpermits _ h.reach pid _ o next (world_found hpid) rfl
      have hturn : H.coop r = true → _ := fun hcoop =>
        sound.turn h.fits (hprocs ▸ waits ((sound.coop r).trans hcoop))
      have hstable := sound.fits_exec performs h.fits
      have hout := sound.step hfit rfl hpermit hrun performs
      simp only [fine_role]
      generalize k y = rest' at hout ⊢
      cases hout with
      | goes drift alone within foresees =>
        obtain ⟨o₁, k₁, rfl, _⟩ := sound.busy within
        have hfollows := h.goes hpid (fun hcoop => (hturn hcoop).1) hstable drift
          (sound.foresees_drift drift) within foresees
        rw [Machine.closing_of_not (by rintro ⟨_, x, hx⟩; cases hx)]
        refine ⟨ps.set pid (r, .inside o next (.op o₁ k₁)), ?_⟩
        simp only [Machine.settle, alone, List.append_nil]
        exact hfollows
      | acts bound acts born =>
        rw [Prog.ret_hand, sound.resume, sound.settle_fine born]
        exact sound.acts h hpid (fun hcoop => (hturn hcoop).1) (fun hcoop => (hturn hcoop).2)
          hstable hpermit bound acts
      | keeps same alone foreseen =>
        rw [Prog.ret_hand, sound.resume, sound.settle_fine alone]
        simpa only [Blocks.born, List.map_nil, List.append_nil] using
          sound.keeps h hpid (fun hcoop => (hturn hcoop).2) hstable same foreseen

theorem outside {s t : S'} {procs : List (Proc Reply' ε Role Entry)}
    {qs : List (Role × Place Reply Reply' ε Entry)}
    (h : B.Follows hi init { shared := s, procs } ps)
    (hfits : ∀ p ∈ ps ++ qs, B.Fits t p.2)
    (hnew : ∀ p ∈ qs, ∃ code, p.2 = B.at_ code)
    (moves : ∀ rs : List (Role × Place Reply Reply' ε Entry),
      H.Reach hi.ok init (world (B.abs s) rs) → H.Reach hi.ok init (world (B.abs t) (rs ++ qs)))
    (before : ∀ {r o rest x}, B.Foresees r o rest x (B.abs t) → B.Foresees r o rest x (B.abs s)) :
    B.Follows hi init { shared := t, procs := procs ++ qs.map B.fine } (ps ++ qs) := by
  refine ⟨?_, hfits, moves ps h.reach, fun i r o next rest x hi hf => ?_⟩
  · have hprocs : procs = ps.map B.fine := h.procs
    rw [List.map_append, hprocs]
  rw [List.getElem?_append] at hi
  split at hi
  · rename_i hlt
    refine (h.foresees i r o next rest x hi (before hf)).imp id fun htaken => ?_
    rw [List.set_append_left _ _ hlt]
    exact moves _ htaken
  · obtain ⟨code, hcode⟩ := hnew _ (List.mem_of_getElem? hi)
    exact absurd hf (sound.foresees_at hcode.symm)

theorem follow (h : B.Follows hi init w ps)
    (hpermits : ∀ w, H.Reach hi.ok init w → ∀ (pid : Nat) p o next, w.procs[pid]? = some p →
      p.code = .op o next → permits p.role o w.shared) {l : Label Role Entry Choice' Env'}
    (hok : lo.ok w l) (hstep : L.step l w = some w') : ∃ ps', B.Follows hi init w' ps' := by
  obtain ⟨s, procs⟩ := w
  cases L.stepped_of_step hstep with
  | run => exact sound.run h hpermits hok hstep
  | @env e t moves =>
    have hfits : ∀ p ∈ ps, B.Fits t p.2 := by
      rintro ⟨r, place⟩ hp
      have hfit := h.fits _ hp
      cases place with
      | ended x => trivial
      | inside o next rest => exact hfit.imp id fun hwithin => sound.within_env hwithin moves
    have hfollows :
        B.Follows hi init { shared := t, procs := procs ++ [].map B.fine } (ps ++ []) := by
      have hdrift := sound.env hok moves
      refine sound.outside h (by simpa using hfits) (by simp) (fun rs hr => ?_)
        (sound.foresees_drift hdrift)
      rw [List.append_nil]
      exact drift_reach hdrift hr
    exact ⟨ps, by simpa using hfollows⟩
  | @enter r n t moves =>
    obtain ⟨hbound, henter⟩ := sound.enter hok moves
    have hfits : ∀ p ∈ ps ++ [(r, B.at_ (H.code r n))], B.Fits t p.2 := by
      intro p hp
      rcases List.mem_append.mp hp with hp | hp
      · obtain ⟨r', place⟩ := p
        have hfit := h.fits _ hp
        cases place with
        | ended x => trivial
        | inside o next rest => exact hfit.imp id fun hwithin => sound.within_enter hwithin moves
      · rw [List.mem_singleton.mp hp]
        exact fits_at _ _
    refine ⟨ps ++ [(r, B.at_ (H.code r n))], ?_⟩
    have hfollows := sound.outside h hfits
      (fun p hp => ⟨H.code r n, by rw [List.mem_singleton.mp hp]⟩)
      (fun rs hr => .step (.enter r n) hr hbound (by simp [Machine.step, world, henter]))
      (sound.foresees_enter henter)
    simpa [sound.code] using hfollows
  | @stop pid p found alone =>
    have hprocs : procs = ps.map B.fine := h.procs
    have hplace : (ps.map B.fine)[pid]? = some p := hprocs ▸ found
    rw [List.getElem?_map, Option.map_eq_some_iff] at hplace
    obtain ⟨q, hpid, rfl⟩ := hplace
    exact ⟨_, h.stop hpid ((sound.coop q.1).symm.trans alone)⟩
  | crash =>
    have hprocs : procs = ps.map B.fine := h.procs
    rw [hprocs]
    exact ⟨_, sound.crash h.fits (.step .crash h.reach trivial rfl)⟩

/-- The refinement: what the fine machine reaches stands for what the coarse one reaches. -/
theorem refines {ps₀ : List (Role × Place Reply Reply' ε Entry)}
    {w₀ : World Reply' ε S' Role Entry} (h : B.Follows hi init w₀ ps₀)
    (hpermits : ∀ w, H.Reach hi.ok init w → ∀ (pid : Nat) p o next, w.procs[pid]? = some p →
      p.code = .op o next → permits p.role o w.shared)
    (hreach : L.Reach lo.ok w₀ w) : ∃ ps, B.Follows hi init w ps := by
  induction hreach with
  | init => exact ⟨ps₀, h⟩
  | step l _ lawful moves ih =>
    obtain ⟨ps, hfollows⟩ := ih
    exact sound.follow hfollows hpermits lawful moves

end Run

end Sound

end Blocks
end Coop
