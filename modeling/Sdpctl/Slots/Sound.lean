import Sdpctl.Slots.Others

/-!
The slots over whole runs: every step of every process keeps them, and so does a crash
and the start of a controller.
-/

namespace Sdpctl

open FileTree Coop

variable {s s' : Shared} {after : Bool} {v v' : List (Role × Duty)}

theorem Slots.apart (h : Slots after s v) (hdb : s'.db = s.db) (hctl : s'.ctl = s.ctl)
    (hsame : ∀ (i : Nat) (r : Role) (g : Duty), r ≠ .cli →
      (v'[i]? = some (r, g) ↔ v[i]? = some (r, g)))
    (hcount : ∀ p : Role × Duty → Bool, (∀ g, p (.cli, g) = false) → v'.countP p = v.countP p) :
    Slots after s' v' where
  down hup i r g hi hr := by
    rw [hctl] at hup
    exact h.down hup i r g ((hsame i r g hr).mp hi) hr
  single i j g g' hi hj :=
    h.single i j g g' ((hsame i _ g (by simp)).mp hi) ((hsame j _ g' (by simp)).mp hj)
  workers i task rid g hi hg := by
    obtain ⟨howns, hrunning⟩ := h.workers i task rid g ((hsame i _ g (by simp)).mp hi) hg
    refine ⟨?_, by rwa [hdb]⟩
    unfold OwnsRun
    rw [hctl]
    exact howns
  slots hup := by
    rw [hctl] at hup
    rw [hctl, hcount holding fun _ => rfl]
    exact h.slots hup
  room hup := by
    rw [hctl] at hup
    rw [hctl, hcount handling fun _ => rfl]
    exact h.room hup
  main i g hi := by
    have hgoverns := h.main i g ((hsame i _ g (by simp)).mp hi)
    have hkeep : ∀ rid, Owned v rid → Owned v' rid := by
      rintro rid ⟨j, task, d, hj, hd⟩
      exact ⟨j, task, d, (hsame j _ d (by simp)).mpr hj, hd⟩
    cases g with
    | unswept =>
      intro t ht
      rw [hctl] at ht
      exact hgoverns t ht
    | sweeping todo =>
      refine ⟨fun t ht => ?_, hdb ▸ hgoverns.2⟩
      rw [hctl] at ht
      exact hgoverns.1 t ht
    | swept queued =>
      refine ⟨fun rid hrun => hkeep rid (hgoverns.1 rid ?_), hdb ▸ hgoverns.2⟩
      rwa [hdb] at hrun
    | _ => trivial
  after hafter hup := by
    rw [hctl] at hup
    obtain ⟨i, queued, hi⟩ := h.after hafter hup
    exact ⟨i, queued, (hsame i _ _ (by simp)).mpr hi⟩

theorem appended_cases {c d : Role × Duty} {i : Nat} (h : (v ++ [c])[i]? = some d) :
    v[i]? = some d ∨ i = v.length ∧ d = c := by
  rw [List.getElem?_append] at h
  split at h
  · exact .inl h
  · rename_i hge
    obtain ⟨hlt, hd⟩ := List.getElem?_eq_some_iff.mp h
    simp only [List.length_singleton] at hlt
    refine .inr ⟨by omega, ?_⟩
    rw [← hd]
    simp

theorem Slots.command (h : Slots after s v) (hdb : s'.db = s.db) (hctl : s'.ctl = s.ctl)
    (g : Duty) : Slots after s' (v ++ [(.cli, g)]) := by
  refine h.apart hdb hctl (fun i r d hr => ⟨fun hi => ?_, fun hi => ?_⟩) fun p hp => ?_
  · rcases appended_cases hi with hi | ⟨_, heq⟩
    · exact hi
    · cases heq
      exact absurd rfl hr
  · rw [List.getElem?_append_left (List.getElem?_eq_some_iff.mp hi).1]
    exact hi
  · simp [hp]

theorem Slots.stop (h : Slots after s v) {pid : Nat} {g : Duty} (hv : v[pid]? = some (.cli, g))
    (g' : Duty) : Slots after s (v.set pid (.cli, g')) := by
  refine h.apart rfl rfl (fun i r d hr => ⟨fun hi => ?_, fun hi => ?_⟩) fun p hp => ?_
  · rw [← List.append_nil (v.set pid _)] at hi
    rcases moved_cases hi with ⟨_, heq⟩ | ⟨_, hi⟩ | hmem
    · cases heq
      exact absurd rfl hr
    · exact hi
    · cases hmem
  · have hne : i ≠ pid := by
      rintro rfl
      rw [hv] at hi
      cases hi
      exact hr rfl
    rw [List.getElem?_set_ne fun heq => hne heq.symm]
    exact hi
  · have hcount := moved_count (b := []) (c := (Role.cli, g')) p hv
    simpa [hp] using hcount

theorem Slots.fallen : Slots after (Sdpctl.down s) (duties.fallen system.coop v) := by
  have hdead : ∀ (i : Nat) (r : Role) (g : Duty), r ≠ .cli →
      (duties.fallen system.coop v)[i]? = some (r, g) → g = .dead := by
    intro i r g hr hi
    simp only [Play.fallen, List.getElem?_map, Option.map_eq_some_iff] at hi
    obtain ⟨c, _, heq⟩ := hi
    split at heq
    · cases heq
      rfl
    · rename_i hcoop
      subst heq
      exact absurd hr (by simpa [system] using hcoop)
  refine ⟨fun _ i r g hi hr => hdead i r g hr hi, ?_, ?_, fun hup => ?_, fun hup => ?_, ?_,
    fun _ hup => ?_⟩
  · intro i j g g' hi _ hg
    rw [hdead i _ g (by simp) hi] at hg
    cases hg
  · intro i task rid g hi hg
    rw [hdead i _ g (by simp) hi] at hg
    cases hg
  · cases hup
  · cases hup
  · intro i g hi
    rw [hdead i _ g (by simp) hi]
    trivial
  · cases hup

theorem Slots.boot {cfg : Config} (h : Slots false s v) (hdown : s.ctl.up = false)
    (hctl : s'.ctl =
      { up := true, cfg, tasks := [], cache := none, free := cfg.maxParallelProcessing }) :
    Slots false s' (v ++ [(.main, .unswept)]) := by
  have hold : ∀ {i : Nat} {r : Role} {g : Duty}, r ≠ .cli →
      (v ++ [(Role.main, Duty.unswept)])[i]? = some (r, g) →
      g = .dead ∨ i = v.length ∧ r = .main ∧ g = .unswept := by
    intro i r g hr hi
    rcases appended_cases hi with hi | ⟨hlast, heq⟩
    · exact .inl (h.down hdown i r g hi hr)
    · cases heq
      exact .inr ⟨hlast, rfl, rfl⟩
  have hzero : ∀ p : Role × Duty → Bool, (∀ g, p (.cli, g) = false) → (∀ r, p (r, .dead) = false) →
      p (.main, .unswept) = false → (v ++ [(Role.main, Duty.unswept)]).countP p = 0 := by
    intro p hcli hdead hnew
    refine List.countP_eq_zero.mpr fun ⟨r, g⟩ hc => ?_
    obtain ⟨i, hi⟩ := List.mem_iff_getElem?.mp hc
    by_cases hr : r = .cli
    · simp [hr, hcli]
    · rcases hold hr hi with rfl | ⟨_, rfl, rfl⟩
      · simp [hdead]
      · simp [hnew]
  refine ⟨fun hup => ?_, ?_, ?_, fun _ => ?_, fun _ => ?_, ?_, fun hafter => by cases hafter⟩
  · rw [hctl] at hup
    cases hup
  · intro i j g g' hi hj hg hg'
    rcases hold (by simp) hi with rfl | ⟨hi, _⟩
    · cases hg
    · rcases hold (by simp) hj with rfl | ⟨hj, _⟩
      · cases hg'
      · rw [hi, hj]
  · intro i task rid g hi hg
    rcases hold (by simp) hi with rfl | ⟨_, hr, _⟩
    · cases hg
    · cases hr
  · rw [hctl, hzero holding (fun _ => rfl) (fun r => by cases r <;> rfl) rfl]
    rfl
  · rw [hzero handling (fun _ => rfl) (fun r => by cases r <;> rfl) rfl]
    exact Nat.zero_le _
  · intro i g hi
    rcases hold (by simp) hi with rfl | ⟨_, _, rfl⟩
    · trivial
    · intro t ht
      rw [hctl] at ht
      cases ht

/-- Once a sweep has ended, no other controller starts. -/
def oneController (after : Bool) (_ : World Op.Reply Exn Shared Role Entry) :
    Label Role Entry Choice Env → Prop
  | .enter .main _ => after = false
  | _ => True

/-- Every step keeps the slots, the tasks and the running rows together. -/
theorem slots_sound {init : World Op.Reply Exn Shared Role Entry} (hinit : unlimited.Reach init) :
    duties.Sound system (oneController after) init (Slots after) where
  code := duties_code
  run := by
    intro w v pid p o next c x s' g hreach hon hJ hp hcode hv hmay hrests _ hexec
    have hlater : unlimited.Reach w :=
      Machine.Reach.trans hinit (hreach.mono fun _ l _ => unlimited_ok l)
    have hallowed := hlater.allowed (c := c) hp hcode ⟨by simp [unlimited], by simp [unlimited]⟩
    have hinv := hlater.inv
    cases hrole : p.role with
    | main =>
      rw [hrole] at hv hmay hallowed hexec
      exact hJ.control hinv hv hmay hallowed hexec
    | process task rid =>
      rw [hrole] at hv hmay hallowed hexec hrests
      obtain ⟨hcan, hslots⟩ := hJ.worker hlater.holds hon hv hmay (hrests rfl) hallowed hexec
      refine ⟨hcan, [], ?_, hslots⟩
      rw [show system.spawn o w.shared = none from worker_spawn hmay]
      exact .nobody
    | observe task oid =>
      rw [hrole] at hv hmay hallowed hexec
      exact ⟨trivial, hJ.bystander hinv (.inr ⟨_, _, rfl⟩) hv hmay hallowed hexec⟩
    | cli =>
      rw [hrole] at hv hmay hallowed hexec
      exact ⟨trivial, hJ.bystander hinv (.inl rfl) hv hmay hallowed hexec⟩
  env _ hJ _ henv := hJ.apart (env_move henv).db (env_move henv).ctl (fun _ _ _ _ => Iff.rfl)
    fun _ _ => rfl
  enter := by
    intro w v r n s' _ hJ hone henter
    have hcli : ∀ c : Command, s'.db = w.shared.db → s'.ctl = w.shared.ctl →
        ∃ g, duties.begins .cli (.command c) g ∧ Slots after s' (v ++ [(.cli, g)]) :=
      fun c hdb hctl => ⟨.bystander, ⟨⟨c, rfl⟩, rfl⟩, hJ.command hdb hctl _⟩
    cases enter_cases (system_enter henter).2 with
    | boot down =>
      obtain rfl : after = false := hone
      exact ⟨.unswept, ⟨⟨_, rfl⟩, rfl⟩, hJ.boot down rfl⟩
    | resolve | command => exact hcli _ rfl rfl
  stop := by
    intro s v pid r g hJ hv hcoop
    obtain rfl : r = .cli := by simpa [system] using hcoop
    exact hJ.stop hv _
  crash _ := Slots.fallen

end Sdpctl
