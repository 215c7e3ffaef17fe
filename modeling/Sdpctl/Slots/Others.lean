import Sdpctl.Slots.Invariant

/-!
The steps of the controller, of an observation worker and of a command. None of them
touches a slot; the controller starts the workers and learns which rows are running.
-/

namespace Sdpctl

open FileTree Coop

variable {s s' : Shared} {w : World Op.Reply Exn Shared Role Entry} {v : List (Role × Duty)}
  {after : Bool}

def Newborn (s : Shared) (c : Role × Duty) : Prop :=
  match c.1 with
  | .process task rid => c.2 = .waiting ∧ OwnsRun task rid s ∧ ¬ s.db.Running rid
  | .observe _ _ => True
  | _ => False

theorem Newborn.idle {c : Role × Duty} (h : Newborn s c) :
    holding c = false ∧ handling c = false := by
  obtain ⟨r, d⟩ := c
  cases r with
  | process =>
    obtain ⟨rfl, _⟩ := h
    exact ⟨rfl, rfl⟩
  | _ => exact ⟨rfl, rfl⟩

theorem idle_other {r : Role} (hno : ∀ task rid, r ≠ .process task rid) (d : Duty) :
    holding (r, d) = false ∧ handling (r, d) = false := by
  cases r with
  | process task rid => exact absurd rfl (hno task rid)
  | _ => exact ⟨rfl, rfl⟩

theorem Governs.kept {v' : List (Role × Duty)} {d : Duty} (h : Governs s v d)
    (hidle : (∀ t ∈ s.ctl.tasks, t.kind = .observe) → ∀ t ∈ s'.ctl.tasks, t.kind = .observe)
    (hback : ∀ rid, s'.db.Running rid → s.db.Running rid)
    (hkeep : ∀ rid, Owned v rid → Owned v' rid) : Governs s' v' d := by
  cases d with
  | unswept => exact hidle h
  | sweeping todo => exact ⟨hidle h.1, fun rid hrun => h.2 rid (hback rid hrun)⟩
  | swept queued =>
    exact ⟨fun rid hrun => hkeep rid (h.1 rid (hback rid hrun)),
      fun rid hrid hrun => h.2 rid hrid (hback rid hrun)⟩
  | _ => trivial

theorem Slots.other (h : Slots after w.shared v) (hinv : Inv .any w.shared) {pid : Nat} {r : Role}
    {g g' : Duty} {cs : List (Role × Duty)} (hv : v[pid]? = some (r, g))
    (hno : ∀ task rid, r ≠ .process task rid) (hstep : Step .any r w.shared s')
    (hctl : s'.ctl.up = w.shared.ctl.up ∧ s'.ctl.cfg = w.shared.ctl.cfg)
    (hfree : s'.ctl.free = w.shared.ctl.free) (halive : r ≠ .cli → w.shared.ctl.up = true)
    (hborn : ∀ c ∈ cs, Newborn s' c ∧ w.shared.ctl.up = true)
    (hmain : r = .main → g.controls = true ∧
      ((∀ rid, s'.db.Running rid → w.shared.db.Running rid) →
        (∀ rid, Owned v rid → Owned (v.set pid (r, g') ++ cs) rid) →
        Governs s' (v.set pid (r, g') ++ cs) g') ∧
      ∀ queued, g = .swept queued → ∃ queued', g' = .swept queued')
    (hidle : r ≠ .main → (∀ t ∈ w.shared.ctl.tasks, t.kind = .observe) →
      ∀ t ∈ s'.ctl.tasks, t.kind = .observe) :
    Slots after s' (v.set pid (r, g') ++ cs) := by
  have hback : ∀ rid, s'.db.Running rid → w.shared.db.Running rid := by
    intro rid hrun
    rcases hstep.running_back hinv hrun with h | ⟨task, hrole, _⟩
    · exact h
    · exact absurd hrole (hno task rid)
  have hkeep : ∀ rid, Owned v rid → Owned (v.set pid (r, g') ++ cs) rid :=
    fun rid howned => howned.moved hv fun task => hno task rid
  have hzero : ∀ p : Role × Duty → Bool, (∀ d, p (r, d) = false) →
      (∀ c, Newborn s' c → p c = false) → (v.set pid (r, g') ++ cs).countP p = v.countP p := by
    intro p hrole hnew
    have hcount := moved_count (b := cs) (c := (r, g')) p hv
    have hcs : cs.countP p = 0 :=
      List.countP_eq_zero.mpr fun c hc => by simp [hnew c (hborn c hc).1]
    rw [hrole, hrole, hcs] at hcount
    simpa using hcount
  refine ⟨?_, ?_, ?_, ?_, ?_, ?_, ?_⟩
  · intro hdown i r' d hi hr'
    rw [hctl.1] at hdown
    rcases moved_cases hi with ⟨_, heq⟩ | ⟨_, hi⟩ | hmem
    · cases heq
      rw [halive hr'] at hdown
      cases hdown
    · exact h.down hdown i r' d hi hr'
    · rw [(hborn _ hmem).2] at hdown
      cases hdown
  · intro i j d d' hi hj hd hd'
    have hold : ∀ {k : Nat} {d : Duty}, (v.set pid (r, g') ++ cs)[k]? = some (.main, d) →
        d.controls = true → ∃ d₀, v[k]? = some (.main, d₀) ∧ d₀.controls = true := by
      intro k d hk hd
      rcases moved_cases hk with ⟨rfl, heq⟩ | ⟨_, hk⟩ | hmem
      · cases heq
        exact ⟨g, hv, (hmain rfl).1⟩
      · exact ⟨d, hk, hd⟩
      · exact (hborn _ hmem).1.elim
    obtain ⟨d₀, hi, hd₀⟩ := hold hi hd
    obtain ⟨d₁, hj, hd₁⟩ := hold hj hd'
    exact h.single i j d₀ d₁ hi hj hd₀ hd₁
  · intro i task rid d hi hd
    rcases moved_cases hi with ⟨_, heq⟩ | ⟨_, hi⟩ | hmem
    · cases heq
      exact absurd rfl (hno task rid)
    · obtain ⟨howns, hrunning⟩ := h.workers i task rid d hi hd
      refine ⟨hstep.ownsRun hinv (hno task rid) howns, hrunning.trans ⟨fun hrun => ?_, hback rid⟩⟩
      obtain ⟨q, hq, hs⟩ := hrun
      exact ⟨q, hstep.running_of_other hinv (hno task rid) howns hq hs, hs⟩
    · obtain ⟨rfl, howns, hstill⟩ := (hborn _ hmem).1
      exact ⟨howns, ⟨fun hexec => Bool.noConfusion hexec, fun hrun => absurd hrun hstill⟩⟩
  · intro hup
    rw [hctl.1] at hup
    rw [hctl.2, hfree, hzero holding (fun d => (idle_other hno d).1) fun _ hnew => hnew.idle.1]
    exact h.slots hup
  · intro hup
    rw [hctl.1] at hup
    rw [hfree, hzero handling (fun d => (idle_other hno d).2) fun _ hnew => hnew.idle.2]
    exact h.room hup
  · intro i d hi
    rcases moved_cases hi with ⟨_, heq⟩ | ⟨hne, hold⟩ | hmem
    · cases heq
      exact (hmain rfl).2.1 hback hkeep
    · by_cases hr : r = .main
      · subst hr
        cases hd : d.controls with
        | true => exact absurd (h.single i pid d g hold hv hd (hmain rfl).1) hne
        | false => cases d <;> trivial
      · exact (h.main i d hold).kept (hidle hr) hback hkeep
    · exact (hborn _ hmem).1.elim
  · intro hafter hup
    rw [hctl.1] at hup
    obtain ⟨i, queued, hi⟩ := h.after hafter hup
    by_cases hne : i = pid
    · subst hne
      rw [hv] at hi
      cases hi
      obtain ⟨queued', rfl⟩ := (hmain rfl).2.2 queued rfl
      exact ⟨i, queued', moved_self hv⟩
    · exact ⟨i, queued, moved_other hne hi⟩

/-- The running rows are among those that are listed as running, and the rows that are
listed as queued are not running. -/
theorem listRuns_running {c : Choice} {states : List RunState} {rows : List ProcessingRun}
    (h : s.query c (.listRuns states) = some (.ok rows, s')) (hne : states ≠ []) :
    s' = s ∧ ∀ q, q ∈ rows ↔ q ∈ s.db.processingRuns ∧ q.state ∈ states := by
  rcases Shared.query_cases h with ⟨y, db, hrun, hy, rfl⟩ | ⟨e, he, _⟩
  · cases hy
    simp only [Query.run, Except.ok.injEq, Prod.mk.injEq] at hrun
    obtain ⟨rfl, rfl⟩ := hrun
    refine ⟨rfl, fun q => ?_⟩
    simp [Db.listRuns, hne]
  · cases he

theorem control_governs {v' : List (Role × Duty)} {g : Duty} {o : Op} {c : Choice}
    {x : Except Exn o.Reply} (hinv : Inv .any s) (h : Governs s v g)
    (hmay : controllerScript.may g o) (hexec : exec .main o c s = some (x, s'))
    (hback : ∀ rid, s'.db.Running rid → s.db.Running rid)
    (hkeep : ∀ rid, Owned v rid → Owned v' rid)
    (hidle : o.plain → (∀ t ∈ s.ctl.tasks, t.kind = .observe) →
      ∀ t ∈ s'.ctl.tasks, t.kind = .observe) : Governs s' v' (g.control o x) := by
  have hlisted : ∀ {rows : List ProcessingRun} {y : Except Exn (List ProcessingRun)},
      s.query c (.listRuns [.running]) = some (y, s') → y = .ok rows →
      ∀ rid, s'.db.Running rid → rid ∈ rows.map (·.id) := by
    rintro rows _ hquery rfl rid ⟨q, hq, hs⟩
    obtain ⟨rfl, hrows⟩ := listRuns_running hquery (by simp)
    obtain ⟨hmem, hid⟩ := Db.mem_of_run? hq
    exact List.mem_map.mpr ⟨q, (hrows q).mpr ⟨hmem, by simp [hs]⟩, hid⟩
  cases g with
  | unswept =>
    unfold Duty.control
    simp only
    split
    · exact ⟨hidle hmay h, hlisted hexec rfl⟩
    · exact hidle hmay h
  | sweeping todo =>
    have hplain : o.plain → ∀ t ∈ s'.ctl.tasks, t.kind = .observe := fun ho => hidle ho h.1
    have hvisit : ∀ {rid : Nat}, ¬ s'.db.Running rid →
        ∀ i, s'.db.Running i → i ∈ todo.filter (· ≠ rid) := by
      intro rid hstill i hrun
      refine List.mem_filter.mpr ⟨h.2 i (hback i hrun), decide_eq_true fun heq => ?_⟩
      exact hstill (heq ▸ hrun)
    unfold Duty.control
    simp only
    split
    · exact ⟨hplain (hmay.resolve_right (by simp)), hlisted hexec rfl⟩
    · rename_i rid reason code _
      refine ⟨hplain (hmay.resolve_right (by simp)), hvisit ?_⟩
      rintro ⟨q, hq, hs⟩
      rcases transitionRun_cases hinv.db.ids hexec with ⟨_, _, q', _, _, hq', hs'⟩ | ⟨⟨e, he⟩, _⟩
      · rw [hq'] at hq
        cases hq
        simp [hs'] at hs
      · cases he
    · rename_i rid reason code m
      refine ⟨hplain (hmay.resolve_right (by simp)), hvisit ?_⟩
      rintro ⟨q, hq, hs⟩
      rcases transitionRun_cases hinv.db.ids hexec with ⟨⟨_, he⟩, _⟩ | ⟨_, rfl⟩
      · cases he
      · cases transitionRun_raises hinv.db.ids hq hs (by decide) hexec
    · obtain ⟨rfl, _⟩ : todo = [] ∧ _ := hmay.resolve_left id
      refine ⟨fun rid hrun => ?_, by simp⟩
      cases h.2 rid (hback rid hrun)
    · rename_i hmark
      refine ⟨hplain (hmay.resolve_right ?_), fun rid hrun => h.2 rid (hback rid hrun)⟩
      rintro ⟨_, m, rfl⟩
      exact hmark m x rfl HEq.rfl
  | swept queued =>
    have howned : ∀ rid, s'.db.Running rid → Owned v' rid :=
      fun rid hrun => hkeep rid (h.1 rid (hback rid hrun))
    unfold Duty.control
    simp only
    split
    · exact ⟨howned, by simp⟩
    · rename_i rows
      refine ⟨howned, fun rid hrid => ?_⟩
      rintro ⟨q, hq, hs⟩
      obtain ⟨rfl, hrows⟩ := listRuns_running hexec (by simp)
      obtain ⟨p, hp, rfl⟩ := List.mem_map.mp hrid
      obtain ⟨hmem, hstate⟩ := (hrows p).mp hp
      rw [hinv.db.ids.run? hmem] at hq
      cases hq
      simp [hs] at hstate
    · exact ⟨howned, by simp⟩
    · exact ⟨howned, fun rid hrid hrun => h.2 rid hrid (hback rid hrun)⟩
  | _ => exact hmay.elim

/-- No step that starts no worker puts a worker into the table of tasks. -/
theorem tasks_idle {r : Role} {o : Op} {c : Choice} {x : Except Exn o.Reply}
    (ho : ∀ rid, o ≠ .trackProcess rid) (hexec : exec r o c s = some (x, s'))
    (h : ∀ t ∈ s.ctl.tasks, t.kind = .observe) : ∀ t ∈ s'.ctl.tasks, t.kind = .observe := by
  cases hsched : o.schedules with
  | false =>
    rw [(exec_schedule hexec hsched).1]
    exact h
  | true =>
    cases o with
    | trackObserve oid =>
      rw [Shared.sure_eq hexec]
      intro t ht
      rcases List.mem_cons.mp ht with rfl | ht
      · rfl
      · exact h t ht
    | trackProcess rid => exact absurd rfl (ho rid)
    | finish task =>
      rw [Shared.sure_eq hexec]
      intro t ht
      obtain ⟨u, hu, rfl⟩ := List.mem_map.mp ht
      split
      · exact h u hu
      · exact h u hu
    | acquire =>
      rw [exec_acquire hexec]
      exact h
    | release =>
      rw [Shared.sure_eq hexec]
      exact h
    | _ => cases hsched

theorem free_kept {r : Role} {o : Op} {c : Choice} {x : Except Exn o.Reply} (ho : o.ticks ∨
      ∃ i p l, o = .startObserve i p l) (hexec : exec r o c s = some (x, s')) :
    s'.ctl.free = s.ctl.free := by
  cases hsched : o.schedules with
  | false => exact (exec_schedule hexec hsched).2
  | true =>
    cases o with
    | trackObserve | trackProcess | finish =>
      rw [Shared.sure_eq hexec]
      rfl
    | acquire | release =>
      rcases ho with (ho | ⟨_, ho⟩ | ⟨_, ho⟩ | ho) | ⟨_, _, _, ho⟩
      · exact ho.elim
      all_goals cases ho
    | _ => cases hsched

theorem controls_of_may {g : Duty} {o : Op} (hmay : controllerScript.may g o) :
    g.controls = true := by
  cases g <;> first | rfl | exact hmay.elim

theorem ticks_of_may {g : Duty} {o : Op} (hmay : controllerScript.may g o) : o.ticks := by
  cases g with
  | unswept => exact Op.plain.ticks hmay
  | sweeping todo =>
    rcases hmay with ho | ⟨_, m, rfl⟩
    · exact ho.ticks
    · exact .inr (.inr (.inl ⟨m, rfl⟩))
  | swept queued => exact hmay.1
  | _ => exact hmay.elim

theorem Governs.starts {g : Duty} (h : Governs s v g) {rid : Nat}
    (hmay : controllerScript.may g (.trackProcess rid)) : ¬ s.db.Running rid := by
  cases g with
  | unswept => exact hmay.elim
  | sweeping todo =>
    rcases hmay with ho | ⟨_, m, ho⟩
    · exact ho.elim
    · cases ho
  | swept queued => exact h.2 rid (hmay.2.1 rid rfl)
  | _ => exact hmay.elim

/-- Before its first sweep has ended the controller finds no live worker. -/
theorem control_can {g : Duty} {o : Op} {c : Choice} {x : Except Exn o.Reply}
    (h : Governs s v g) (hexec : exec .main o c s = some (x, s')) :
    controllerScript.can g o x := by
  have hlive : ∀ rid, g.Unready → o = .runTaskLive rid →
      HEq x (Except.ok false : Except Exn Bool) := by
    rintro rid hg rfl
    simp only [exec, h.no_worker hg rid] at hexec
    cases c <;> cases hexec
    exact HEq.rfl
  unfold controllerScript
  simp only
  split
  · exact eq_of_heq (hlive _ (.inl rfl) rfl)
  · exact eq_of_heq (hlive _ (.inr ⟨_, rfl⟩) rfl)
  · trivial

theorem Slots.control (h : Slots after w.shared v) (hinv : Inv .any w.shared) {pid : Nat}
    {g : Duty} {o : Op} {c : Choice} {x : Except Exn o.Reply} (hv : v[pid]? = some (.main, g))
    (hmay : controllerScript.may g o) (hallowed : allowed .any .main w.shared o)
    (hexec : exec .main o c w.shared = some (x, s')) :
    controllerScript.can g o x ∧ ∃ cs, duties.Births (spawn o w.shared) cs ∧
      Slots after s' (v.set pid (.main, g.control o x) ++ cs) := by
  have hgoverns := h.main pid g hv
  have hcontrols := controls_of_may hmay
  have halive : w.shared.ctl.up = true := by
    refine h.awake hv (by simp) ?_
    rintro rfl
    cases hcontrols
  have hplain : o.plain → ∀ rid, o ≠ .trackProcess rid := by
    rintro ho rid rfl
    exact ho
  have hmove : ∀ cs, (∀ c ∈ cs, Newborn s' c ∧ w.shared.ctl.up = true) →
      Slots after s' (v.set pid (.main, g.control o x) ++ cs) := fun cs hcs =>
    h.other hinv hv (by simp) (exec_step hinv hallowed hexec) (exec_framed hexec).controller
      (free_kept (.inl (ticks_of_may hmay)) hexec) (fun _ => halive) hcs
      (fun _ => ⟨hcontrols, fun hback hkeep => control_governs hinv hgoverns hmay hexec hback hkeep
        fun ho => tasks_idle (hplain ho) hexec, fun queued hg => by
          subst hg
          unfold Duty.control
          simp only
          split <;> exact ⟨_, rfl⟩⟩) fun hno => absurd rfl hno
  refine ⟨control_can hgoverns hexec, ?_⟩
  have hnone : spawn o w.shared = none → ∃ cs, duties.Births (spawn o w.shared) cs ∧
      Slots after s' (v.set pid (.main, g.control o x) ++ cs) := fun hspawn =>
    ⟨[], hspawn ▸ .nobody, hmove [] (by simp)⟩
  cases o with
  | trackObserve oid =>
    refine ⟨[(.observe w.shared.ctl.tasks.length oid, .bystander)], ?_, hmove _ ?_⟩
    · exact .one ⟨.inl ⟨_, _, _, rfl⟩, rfl⟩
    · intro c hc
      rw [List.mem_singleton.mp hc]
      exact ⟨trivial, halive⟩
  | trackProcess rid =>
    refine ⟨[(.process w.shared.ctl.tasks.length rid, .waiting)], ?_, hmove _ ?_⟩
    · exact .one ⟨⟨_, rfl⟩, rfl⟩
    · intro c hc
      rw [List.mem_singleton.mp hc]
      have hstill := hgoverns.starts hmay
      rw [Shared.sure_eq hexec]
      exact ⟨⟨rfl, Ctl.latest_track_self _ _ _, hstill⟩, halive⟩
  | _ => exact hnone rfl

theorem Slots.bystander (h : Slots after w.shared v) (hinv : Inv .any w.shared) {pid : Nat}
    {r : Role} (hr : r = .cli ∨ ∃ task oid, r = .observe task oid) {g : Duty} {o : Op} {c : Choice}
    {x : Except Exn o.Reply} (hv : v[pid]? = some (r, g)) (hmay : bystanderScript.may g o)
    (hallowed : allowed .any r w.shared o) (hexec : exec r o c w.shared = some (x, s')) :
    ∃ cs, duties.Births (spawn o w.shared) cs ∧ Slots after s' (v.set pid (r, g) ++ cs) := by
  obtain ⟨rfl, ho⟩ := hmay
  have hmain : r ≠ .main := by
    rcases hr with rfl | ⟨_, _, rfl⟩ <;> simp
  have hworker : ∀ task rid, r ≠ .process task rid := by
    rcases hr with rfl | ⟨_, _, rfl⟩ <;> simp
  have hprocess : ∀ rid, o ≠ .trackProcess rid := by
    rintro rid rfl
    rcases ho with ho | ⟨_, _, _, ho⟩
    · exact ho
    · cases ho
  have hspawn : spawn o w.shared = none := by
    cases o with
    | trackObserve oid => exact absurd hallowed.1 hmain
    | trackProcess rid => exact absurd rfl (hprocess rid)
    | _ => rfl
  refine ⟨[], hspawn ▸ .nobody, ?_⟩
  exact h.other hinv hv hworker (exec_step hinv hallowed hexec) (exec_framed hexec).controller
    (free_kept (ho.imp_left Op.plain.ticks) hexec) (fun hcli => h.awake hv hcli (by simp))
    (by simp) (fun hrole => absurd hrole hmain) fun _ => tasks_idle hprocess hexec

end Sdpctl
