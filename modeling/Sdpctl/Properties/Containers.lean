import Sdpctl.Properties.Gate
import Sdpctl.Runners.Engine

/-!
What a stop of containers comes to on an engine that can be reached. It goes for the
containers that its labels select, and these are the ones that the runner has started
for it; none of them is left when it returns, and no other one is touched.
-/

namespace Sdpctl

open FileTree Coop

variable {engine : Engine} {others : List Container → List Container → Prop}
variable {executable cid : String} {filters : List String} {cs cs' : List Container}

/-- Nobody else makes a container of this kind. -/
def NoneMade (others : List Container → List Container → Prop) (mine : Container → Prop) : Prop :=
  ∀ cs cs', others cs cs' → ∀ c ∈ cs', mine c → c ∈ cs

/-- What there is to say of a stop that goes for the containers `mine`. -/
structure Engine.Stops (engine : Engine) (executable : String) (p : M Unit)
    (mine : Container → Prop) : Prop where
  clears : ∀ {others cs cs'}, NoneMade others mine →
    p.Runs (served engine others) cs (.ok ()) cs' → ∀ c ∈ cs', ¬ mine c
  /-- A container that is none of them, and does not answer to the id of one, is there
  however the stop ends. -/
  spares : ∀ {others cs x cs' d}, NoneMade others mine →
    (∀ cs cs', others cs cs' → d ∈ cs → d ∈ cs') → p.Runs (served engine others) cs x cs' →
    d ∈ cs → (∀ c ∈ cs, mine c → d.startsWith c.id = false ∧ d.name ≠ c.id) → d ∈ cs'
  /-- With an engine that does as it is told, and no id used twice, it returns. -/
  returns : engine.Prompt executable → ∀ {others cs x cs'}, NoneMade others mine →
    (∀ bs bs', others bs bs' → ∀ b ∈ bs', b ∈ bs ∨ ∀ c ∈ cs, b.startsWith c.id = false) →
    p.Runs (served engine others) cs x cs' → x = .ok ()

section Filters

theorem cut_join {key : String} (h : '=' ∉ key.toList) (value : String) :
    cut (key ++ "=" ++ value) = (key, value) := by
  have hkey : ∀ c ∈ key.toList, (c ≠ '=') = true := by
    intro c hc
    simp only [ne_eq, eq_iff_iff, iff_true]
    rintro rfl
    exact h hc
  have hlist : (key ++ "=" ++ value).toList = key.toList ++ '=' :: value.toList := by
    simp [String.toList_append]
  unfold cut
  rw [hlist, List.takeWhile_append_of_pos (by simpa using hkey),
    List.dropWhile_append_of_pos (by simpa using hkey)]
  simp

theorem passes_label (c : Container) (label : String) :
    c.passes ("label=" ++ label) = decide (cut label ∈ c.labels) := by
  have hcut : cut ("label=" ++ label) = ("label", label) := by
    rw [show "label=" = "label" ++ "=" by decide, cut_join (by decide)]
  simp [Container.passes, hcut]

theorem passes_id (c : Container) (start : String) :
    c.passes ("id=" ++ start) = c.startsWith start := by
  have hcut : cut ("id=" ++ start) = ("id", start) := by
    rw [show "id=" = "id" ++ "=" by decide, cut_join (by decide)]
  simp [Container.passes, hcut]

theorem selected_id (c : Container) (start : String) :
    c.selected (idFilters start) = c.startsWith start := by
  simp [Container.selected, idFilters, passes_id]

theorem startsWith_self (c : Container) : c.startsWith c.id = true := by
  simp [Container.startsWith]

end Filters

section Programs

variable {mine : Container → Prop}

theorem containerIds_served {y : Except Exn (List String)} :
    (containerIds executable filters).Runs (served engine others) cs y cs' ↔
      ∃ mid x, others cs mid ∧ engine (psArgs executable filters) mid x cs' ∧
        y = x.map fun r => words r.out := by
  unfold containerIds
  simp only [Prog.bind_def, Prog.pure_def, Prog.runs_bind, Prog.runs_call]
  constructor
  · rintro (⟨e, ⟨mid, hothers, hengine⟩, rfl⟩ | ⟨r, _, ⟨mid, hothers, hengine⟩, rfl, rfl⟩)
    · exact ⟨mid, _, hothers, hengine, rfl⟩
    · exact ⟨mid, _, hothers, hengine, rfl⟩
  · rintro ⟨mid, x, hothers, hengine, rfl⟩
    cases x with
    | error e => exact .inl ⟨e, ⟨mid, hothers, hengine⟩, rfl⟩
    | ok r => exact .inr ⟨r, cs', ⟨mid, hothers, hengine⟩, rfl, rfl⟩

/-- A listing that returns names what is selected when the engine answers. -/
theorem containerIds_lists (law : engine.Lawful executable) {ids : List String}
    (h : (containerIds executable filters).Runs (served engine others) cs (.ok ids) cs') :
    others cs cs' ∧ ∀ id, id ∈ ids ↔ ∃ c ∈ cs', c.selected filters = true ∧ c.id = id := by
  obtain ⟨mid, x, hothers, hengine, hids⟩ := containerIds_served.mp h
  cases x with
  | error e => cases hids
  | ok r =>
    cases hids
    obtain rfl := law.looks hengine
    exact ⟨hothers, (law.lists hengine).2⟩

theorem waitGone_clears (law : engine.Lawful executable) (hnone : NoneMade others mine) {n : Nat}
    (h : (waitGone executable cid n).Runs (served engine others) cs (.ok ()) cs') :
    ∀ c ∈ cs', mine c → c ∈ cs ∧ c.id ≠ cid := by
  induction n generalizing cs with
  | zero =>
    obtain ⟨hraised, -⟩ := h
    cases hraised
  | succ n ih =>
    obtain ⟨ids, mid, hids, hrest⟩ := Prog.runs_bind_ok.mp h
    obtain ⟨hothers, hlist⟩ := containerIds_lists law hids
    intro c hc hmine
    by_cases hempty : ids.isEmpty
    · rw [if_pos hempty] at hrest
      obtain ⟨-, rfl⟩ := hrest
      refine ⟨hnone _ _ hothers c hc hmine, fun hid => ?_⟩
      have hself : c.selected (idFilters cid) = true := by
        rw [← hid]
        exact (selected_id c c.id).trans (startsWith_self c)
      have hin : c.id ∈ ids := (hlist c.id).mpr ⟨c, hc, hself, rfl⟩
      rw [List.isEmpty_iff.mp hempty] at hin
      cases hin
    · rw [if_neg hempty] at hrest
      obtain ⟨_, late, hsleep, hwait⟩ := Prog.runs_bind_ok.mp hrest
      obtain ⟨-, hslept⟩ := Prog.runs_call.mp hsleep
      obtain ⟨hlate, hid⟩ := ih hwait c hc hmine
      exact ⟨hnone _ _ hothers c (hnone _ _ hslept c hlate hmine) hmine, hid⟩

theorem removeAndWaitGone_clears (law : engine.Lawful executable) (hnone : NoneMade others mine)
    (h : (removeAndWaitGone executable cid).Runs (served engine others) cs (.ok ()) cs') :
    ∀ c ∈ cs', mine c → c ∈ cs ∧ c.id ≠ cid := by
  obtain ⟨r, removed, hremove, hwait⟩ := Prog.runs_bind_ok.mp h
  obtain ⟨mid, hothers, hengine⟩ := Prog.runs_call.mp hremove
  intro c hc hmine
  obtain ⟨hin, hid⟩ := waitGone_clears law hnone hwait c hc hmine
  exact ⟨hnone _ _ hothers c ((law.removes hengine).1 hin) hmine, hid⟩

theorem removals_clear (law : engine.Lawful executable) (hnone : NoneMade others mine)
    {ids : List String} (h : (Prog.forEach ids (removeAndWaitGone executable)).Runs
      (served engine others) cs (.ok ()) cs') :
    ∀ c ∈ cs', mine c → c ∈ cs ∧ c.id ∉ ids := by
  induction ids generalizing cs with
  | nil =>
    obtain ⟨-, rfl⟩ := h
    exact fun c hc _ => ⟨hc, by simp⟩
  | cons first rest ih =>
    obtain ⟨_, mid, hfirst, hrest⟩ := Prog.runs_bind_ok.mp h
    intro c hc hmine
    obtain ⟨hmid, hnot⟩ := ih hrest c hc hmine
    obtain ⟨hin, hne⟩ := removeAndWaitGone_clears law hnone hfirst c hmid hmine
    exact ⟨hin, by simp [hne, hnot]⟩

theorem removeAndWaitGone_spares (law : engine.Lawful executable) {d : Container}
    (hkeep : ∀ cs cs', others cs cs' → d ∈ cs → d ∈ cs') (hid : d.startsWith cid = false)
    (hname : d.name ≠ cid) {x : Except Exn Unit}
    (h : (removeAndWaitGone executable cid).Runs (served engine others) cs x cs')
    (hd : d ∈ cs) : d ∈ cs' := by
  have huses : (removeAndWaitGone executable cid).Uses fun o => o = .sleep ∨
      o = .command [executable, "rm", "-f", cid] ∨
      ∃ filters, o = .command (psArgs executable filters) := by
    refine Prog.uses_bind (Prog.uses_call (.inr (.inl rfl))) fun _ => ?_
    generalize 100 = n
    induction n with
    | zero => trivial
    | succ n ih =>
      refine Prog.uses_bind ?_ fun ids => Prog.uses_ite trivial ?_
      · exact Prog.uses_bind (Prog.uses_call (.inr (.inr ⟨_, rfl⟩))) fun _ => trivial
      · exact Prog.uses_bind (Prog.uses_call (.inl rfl)) fun _ => ih
  refine h.keeps (I := fun bs => d ∈ bs) huses ?_ hd
  rintro o bs y bs' (rfl | rfl | ⟨fs, rfl⟩) hserved hbs
  · exact hkeep _ _ hserved.2 hbs
  · obtain ⟨mid, hothers, hengine⟩ := hserved
    exact (law.removes hengine).2 d (hkeep _ _ hothers hbs) hid hname
  · obtain ⟨mid, hothers, hengine⟩ := hserved
    rw [law.looks hengine]
    exact hkeep _ _ hothers hbs

theorem removals_spare (law : engine.Lawful executable) {d : Container}
    (hkeep : ∀ cs cs', others cs cs' → d ∈ cs → d ∈ cs') {ids : List String}
    (hids : ∀ id ∈ ids, d.startsWith id = false ∧ d.name ≠ id) {x : Except Exn Unit}
    (h : (Prog.forEach ids (removeAndWaitGone executable)).Runs (served engine others) cs x cs')
    (hd : d ∈ cs) : d ∈ cs' := by
  induction ids generalizing cs with
  | nil =>
    obtain ⟨-, rfl⟩ := h
    exact hd
  | cons first rest ih =>
    obtain ⟨hid, hname⟩ := hids first (by simp)
    rcases Prog.runs_bind.mp h with ⟨e, hfirst, -⟩ | ⟨_, mid, hfirst, hrest⟩
    · exact removeAndWaitGone_spares law hkeep hid hname hfirst hd
    · exact ih (fun id hmem => hids id (by simp [hmem])) hrest
        (removeAndWaitGone_spares law hkeep hid hname hfirst hd)

theorem waitGone_returns (law : engine.Lawful executable) (prompt : engine.Prompt executable)
    (hfresh : ∀ bs bs', others bs bs' → ∀ b ∈ bs', b ∈ bs ∨ b.startsWith cid = false)
    (hgone : ∀ c ∈ cs, c.startsWith cid = false) {n : Nat} {x : Except Exn Unit}
    (h : (waitGone executable cid (n + 1)).Runs (served engine others) cs x cs') : x = .ok () := by
  rcases Prog.runs_bind.mp h with ⟨e, hids, -⟩ | ⟨ids, mid, hids, hrest⟩
  · obtain ⟨_, y, _, hengine, hy⟩ := containerIds_served.mp hids
    obtain ⟨r, rfl⟩ := prompt.answers hengine
    cases hy
  · obtain ⟨hothers, hlist⟩ := containerIds_lists law hids
    have hempty : ids = [] := by
      refine List.eq_nil_iff_forall_not_mem.mpr fun id hid => ?_
      obtain ⟨c, hc, hselected, -⟩ := (hlist id).mp hid
      have hstart : c.startsWith cid = true := (selected_id c cid).symm.trans hselected
      rcases hfresh _ _ hothers c hc with hold | hnew
      · rw [hgone c hold] at hstart
        cases hstart
      · rw [hnew] at hstart
        cases hstart
    rw [hempty] at hrest
    exact hrest.1

theorem removals_return (law : engine.Lawful executable) (prompt : engine.Prompt executable)
    {ids : List String}
    (hfresh : ∀ bs bs', others bs bs' → ∀ b ∈ bs', b ∈ bs ∨ ∀ id ∈ ids, b.startsWith id = false)
    {x : Except Exn Unit} (h : (Prog.forEach ids (removeAndWaitGone executable)).Runs
      (served engine others) cs x cs') : x = .ok () := by
  induction ids generalizing cs with
  | nil => exact h.1
  | cons first rest ih =>
    have hfirst : ∀ {bs y bs'}, (removeAndWaitGone executable first).Runs (served engine others)
        bs y bs' → y = .ok () := by
      intro bs y bs' hrun
      rcases Prog.runs_bind.mp hrun with ⟨e, hremove, -⟩ | ⟨_, mid, hremove, hwait⟩
      · obtain ⟨_, _, hengine⟩ := Prog.runs_call.mp hremove
        obtain ⟨r, hr⟩ := prompt.answers hengine
        cases hr
      · obtain ⟨_, _, hengine⟩ := Prog.runs_call.mp hremove
        exact waitGone_returns law prompt (n := 99)
          (fun bs bs' hothers b hb => (hfresh bs bs' hothers b hb).imp id fun hnew =>
            hnew first (by simp)) (prompt.removed hengine) hwait
    rcases Prog.runs_bind.mp h with ⟨e, hraised, -⟩ | ⟨_, mid, _, hrest⟩
    · cases hfirst hraised
    · exact ih (fun bs bs' hothers b hb => (hfresh bs bs' hothers b hb).imp id fun hnew i hi =>
        hnew i (by simp [hi])) hrest

theorem removeListed_stops (law : engine.Lawful executable) (filters : List String) :
    engine.Stops executable (removeListed executable filters)
      fun c => c.selected filters = true where
  clears := by
    intro others cs cs' hnone h c hc hmine
    obtain ⟨ids, mid, hids, hrest⟩ := Prog.runs_bind_ok.mp h
    obtain ⟨hmid, hnot⟩ := removals_clear law hnone hrest c hc hmine
    exact hnot (((containerIds_lists law hids).2 c.id).mpr ⟨c, hmid, hmine, rfl⟩)
  spares := by
    intro others cs x cs' d hnone hkeep h hd hother
    rcases Prog.runs_bind.mp h with ⟨e, hids, -⟩ | ⟨ids, mid, hids, hrest⟩
    · obtain ⟨mid, _, hothers, hengine, -⟩ := containerIds_served.mp hids
      rw [law.looks hengine]
      exact hkeep _ _ hothers hd
    · obtain ⟨hothers, hlist⟩ := containerIds_lists law hids
      refine removals_spare law hkeep (fun id hid => ?_) hrest (hkeep _ _ hothers hd)
      obtain ⟨c, hc, hmine, rfl⟩ := (hlist id).mp hid
      exact hother c (hnone _ _ hothers c hc hmine) hmine
  returns := by
    intro prompt others cs x cs' hnone hfresh h
    rcases Prog.runs_bind.mp h with ⟨e, hids, -⟩ | ⟨ids, mid, hids, hrest⟩
    · obtain ⟨_, y, _, hengine, hy⟩ := containerIds_served.mp hids
      obtain ⟨r, rfl⟩ := prompt.answers hengine
      cases hy
    · obtain ⟨hothers, hlist⟩ := containerIds_lists law hids
      refine removals_return law prompt (fun bs bs' hmoves b hb => ?_) hrest
      refine (hfresh bs bs' hmoves b hb).imp id fun hnew i hi => ?_
      obtain ⟨c, hc, hmine, rfl⟩ := (hlist i).mp hi
      exact hnew c (hnone _ _ hothers c hc hmine)

end Programs

section Labels

variable {R : ContainerRunner} {c : Container}

def ContainerRunner.PlainImage (R : ContainerRunner) : Prop :=
  R.image ∉ ["--rm", "--name", "--label", "-v"]

theorem parse_observeArgs (hplain : R.PlainImage) (oid : Nat) (msPath : Path) :
    RunSpec.parse {} ((R.observeArgs oid msPath).drop 2) = some {
      name := ContainerRunner.observeName oid,
      labels := [cut "sdpctl.managed=true", cut "sdpctl.kind=observation",
        cut ("sdpctl.observation_id=" ++ toString oid)],
      volumes := [R.dataRoot ++ ":/data"], image := R.image,
      command := [R.observeScript, ContainerRunner.containerPath msPath] } := by
  simp only [ContainerRunner.PlainImage, List.mem_cons, List.not_mem_nil, or_false,
    not_or] at hplain
  simp [ContainerRunner.observeArgs, RunSpec.parse, hplain]

theorem parse_processArgs (hplain : R.PlainImage) (oid rid : Nat) (msPath outputPrefix : Path) :
    RunSpec.parse {} ((R.processArgs oid rid msPath outputPrefix).drop 2) = some {
      name := ContainerRunner.processName oid rid,
      labels := [cut "sdpctl.managed=true", cut "sdpctl.kind=processing",
        cut ("sdpctl.observation_id=" ++ toString oid), cut ("sdpctl.run_id=" ++ toString rid)],
      volumes := [R.dataRoot ++ ":/data"], image := R.image,
      command := [R.processScript, ContainerRunner.containerPath msPath,
        ContainerRunner.containerPath outputPrefix] } := by
  simp only [ContainerRunner.PlainImage, List.mem_cons, List.not_mem_nil, or_false,
    not_or] at hplain
  simp [ContainerRunner.processArgs, RunSpec.parse, hplain]

theorem cut_managed : cut "sdpctl.managed=true" = ("sdpctl.managed", "true") := by decide

theorem cut_observation :
    cut "sdpctl.kind=observation" = ("sdpctl.kind", "observation") := by decide

theorem cut_processing :
    cut "sdpctl.kind=processing" = ("sdpctl.kind", "processing") := by decide

theorem cut_observationId (oid : Nat) :
    cut ("sdpctl.observation_id=" ++ toString oid) = ("sdpctl.observation_id", toString oid) := by
  rw [show "sdpctl.observation_id=" = "sdpctl.observation_id" ++ "=" by decide,
    cut_join (by decide)]

theorem cut_runId (rid : Nat) :
    cut ("sdpctl.run_id=" ++ toString rid) = ("sdpctl.run_id", toString rid) := by
  rw [show "sdpctl.run_id=" = "sdpctl.run_id" ++ "=" by decide, cut_join (by decide)]

theorem passes_managed :
    c.passes "label=sdpctl.managed=true" = decide (("sdpctl.managed", "true") ∈ c.labels) := by
  rw [show "label=sdpctl.managed=true" = "label=" ++ "sdpctl.managed=true" by decide,
    passes_label, cut_managed]

theorem passes_observation : c.passes "label=sdpctl.kind=observation" =
    decide (("sdpctl.kind", "observation") ∈ c.labels) := by
  rw [show "label=sdpctl.kind=observation" = "label=" ++ "sdpctl.kind=observation" by decide,
    passes_label, cut_observation]

theorem passes_observationId (oid : Nat) :
    c.passes ("label=sdpctl.observation_id=" ++ toString oid) =
      decide (("sdpctl.observation_id", toString oid) ∈ c.labels) := by
  rw [show "label=sdpctl.observation_id=" = "label=" ++ "sdpctl.observation_id=" by decide,
    String.append_assoc, passes_label, cut_observationId]

theorem selected_managed :
    c.selected managedFilters = true ↔ ("sdpctl.managed", "true") ∈ c.labels := by
  simp [managedFilters, Container.selected, passes_managed]

theorem selected_abort (oid : Nat) : c.selected (abortFilters oid) = true ↔
    ("sdpctl.managed", "true") ∈ c.labels ∧ ("sdpctl.kind", "observation") ∈ c.labels ∧
      ("sdpctl.observation_id", toString oid) ∈ c.labels := by
  simp only [abortFilters, Container.selected, List.all_cons, List.all_nil, passes_managed,
    passes_observation, passes_observationId, Bool.and_true, Bool.and_eq_true, decide_eq_true_eq]

theorem toString_inj {m n : Nat} : toString m = toString n ↔ m = n := by
  refine ⟨fun h => padded_injective 0 ?_, congrArg _⟩
  simpa [padded] using h

/-- The labels of an observation's container select it for its own observation only. -/
theorem observes_selected (hplain : R.PlainImage) {oid : Nat} {msPath : Path}
    (h : c.RanBy (R.observeArgs oid msPath)) : c.selected managedFilters = true ∧
      ∀ oid', c.selected (abortFilters oid') = true ↔ oid' = oid := by
  obtain ⟨spec, hparse, -, hlabels⟩ := h
  rw [parse_observeArgs hplain] at hparse
  cases hparse
  rw [cut_managed, cut_observation, cut_observationId] at hlabels
  refine ⟨selected_managed.mpr (by simp [hlabels]), fun oid' => ?_⟩
  rw [selected_abort, hlabels]
  simp only [List.mem_cons, Prod.mk.injEq, toString_inj]
  simp

theorem processes_selected (hplain : R.PlainImage) {oid rid : Nat} {msPath outputPrefix : Path}
    (h : c.RanBy (R.processArgs oid rid msPath outputPrefix)) :
    c.selected managedFilters = true ∧ ∀ oid', c.selected (abortFilters oid') = false := by
  obtain ⟨spec, hparse, -, hlabels⟩ := h
  rw [parse_processArgs hplain] at hparse
  cases hparse
  rw [cut_managed, cut_processing, cut_observationId, cut_runId] at hlabels
  refine ⟨selected_managed.mpr (by simp [hlabels]), fun oid' => ?_⟩
  rw [← Bool.not_eq_true, selected_abort, hlabels]
  simp

end Labels

/-- The containers that a command makes are like this. -/
def Op.Makes (P : Container → Prop) : Op → Prop
  | .command args => ∀ c, Container.RanBy c args → P c
  | _ => True

section Launches

variable {R : ContainerRunner}

theorem run_makes {P : Container → Prop} {args : List String}
    (h : ∀ c, Container.RanBy c args → P c) (logPath : Path) :
    (ContainerRunner.run args logPath).Uses (Op.Makes P) := by
  refine Prog.uses_bind (Prog.uses_call trivial) fun _ => ?_
  exact Prog.uses_bind (Prog.uses_call h) fun _ => trivial

theorem observe_makes (hplain : R.PlainImage) (oid : Nat) (msPath logPath : Path) :
    (R.observe oid msPath logPath).Uses (Op.Makes fun c => c.selected managedFilters = true ∧
      ∀ oid', c.selected (abortFilters oid') = true ↔ oid' = oid) := by
  refine Prog.uses_bind (Prog.uses_call trivial) fun _ => ?_
  refine Prog.uses_bind (Prog.uses_call trivial) fun resolved => ?_
  exact run_makes (fun c hc => observes_selected hplain hc) logPath

theorem process_makes (hplain : R.PlainImage) (oid rid : Nat)
    (msPath outputPrefix logPath : Path) : (R.process oid rid msPath outputPrefix logPath).Uses
      (Op.Makes fun c => c.selected managedFilters = true ∧
        ∀ oid', c.selected (abortFilters oid') = false) := by
  refine Prog.uses_bind (Prog.uses_call trivial) fun _ => ?_
  refine Prog.uses_bind (Prog.uses_call trivial) fun resolved => ?_
  refine Prog.uses_bind (Prog.uses_call trivial) fun resolvedPrefix => ?_
  exact run_makes (fun c hc => processes_selected hplain hc) logPath

end Launches

/-- On an engine that can be reached, an abort goes for the containers that `observe` has
started for its observation and a kill for all that the runner has started: none of them is
left when it returns, all others stay, and it returns when the engine does as it is told. -/
theorem stops_reach_their_containers {R : ContainerRunner} (law : engine.Lawful R.executable)
    (hplain : R.PlainImage) :
    (∀ oid, engine.Stops R.executable (ContainerRunner.abortObservation R.executable oid)
      fun c => c.selected (abortFilters oid) = true) ∧
    engine.Stops R.executable (ContainerRunner.killManaged R.executable)
      (fun c => c.selected managedFilters = true) ∧
    (∀ oid msPath logPath, (R.observe oid msPath logPath).Uses (Op.Makes fun c =>
      c.selected managedFilters = true ∧
        ∀ oid', c.selected (abortFilters oid') = true ↔ oid' = oid)) ∧
    ∀ oid rid msPath outputPrefix logPath, (R.process oid rid msPath outputPrefix logPath).Uses
      (Op.Makes fun c => c.selected managedFilters = true ∧
        ∀ oid', c.selected (abortFilters oid') = false) :=
  ⟨fun _ => removeListed_stops law _, removeListed_stops law _, observe_makes hplain,
    process_makes hplain⟩

section Example

/-- A runner, with one container of an observation and one of a run. -/
def mockRunner : ContainerRunner where
  executable := "podman"
  image := "ska-sdp-mock:0.1"
  observeScript := "/scripts/generate_visibilities.sh"
  processScript := "/scripts/process_visibilities.sh"
  dataRoot := "/srv/sdp"

def observing : Container where
  id := "4f1c"
  name := "sdpctl-observe-000002"
  labels := [("sdpctl.managed", "true"), ("sdpctl.kind", "observation"),
    ("sdpctl.observation_id", "2")]
  word := ⟨by decide, rfl⟩

def processing : Container where
  id := "9b07"
  name := "sdpctl-process-000001-000001"
  labels := [("sdpctl.managed", "true"), ("sdpctl.kind", "processing"),
    ("sdpctl.observation_id", "1"), ("sdpctl.run_id", "1")]
  word := ⟨by decide, rfl⟩

theorem mockRunner_plainImage : mockRunner.PlainImage := by
  unfold ContainerRunner.PlainImage
  decide

theorem abort_runs : (ContainerRunner.abortObservation "podman" 2).Runs
    (served (Engine.plain "podman") Eq) [observing, processing] (.ok ()) [processing] := by
  have hpoll : ∀ n, (waitGone "podman" "4f1c" (n + 1)).Runs (served (Engine.plain "podman") Eq)
      [processing] (.ok ()) [processing] := fun n =>
    Prog.runs_bind_ok.mpr ⟨[], [processing],
      containerIds_served.mpr ⟨_, _, rfl, ⟨rfl, rfl⟩, rfl⟩, rfl, rfl⟩
  refine Prog.runs_bind_ok.mpr ⟨["4f1c"], [observing, processing],
    containerIds_served.mpr ⟨_, _, rfl, ⟨rfl, rfl⟩, ?_⟩, ?_⟩
  · exact congrArg Except.ok (show ["4f1c"] = words _ by decide)
  · refine Prog.runs_bind_ok.mpr ⟨(), [processing], ?_, rfl, rfl⟩
    exact Prog.runs_bind_ok.mpr
      ⟨_, [processing], Prog.runs_call.mpr ⟨_, rfl, rfl, rfl⟩, hpoll 99⟩

/-- The container of the observation is gone afterwards, and that of the run is not. The
engine does as it is told, so the abort returns, however it goes. -/
theorem stops_reach_their_containers_one :
    (∃ cs', (ContainerRunner.abortObservation "podman" 2).Runs
      (served (Engine.plain "podman") Eq) [observing, processing] (.ok ()) cs' ∧
      observing ∉ cs' ∧ processing ∈ cs') ∧
    ∀ x cs', (ContainerRunner.abortObservation "podman" 2).Runs
      (served (Engine.plain "podman") Eq) [observing, processing] x cs' → x = .ok () := by
  obtain ⟨habort, -, -, -⟩ := stops_reach_their_containers (R := mockRunner)
    (Engine.plain_lawful "podman") mockRunner_plainImage
  have hnone : NoneMade Eq fun c => c.selected (abortFilters 2) = true := by
    rintro cs _ rfl c hc -
    exact hc
  refine ⟨⟨_, abort_runs, fun hleft => ?_, ?_⟩, fun x cs' h => ?_⟩
  · exact (habort 2).clears hnone abort_runs observing hleft (by decide)
  · refine (habort 2).spares hnone (by rintro cs _ rfl; exact id) abort_runs (by simp) ?_
    intro c hc hmine
    rcases List.mem_pair.mp hc with rfl | rfl
    · exact ⟨by decide, by decide⟩
    · exact absurd hmine (by decide)
  · refine (habort 2).returns (Engine.plain_prompt "podman") hnone ?_ h
    rintro bs _ rfl b hb
    exact .inl hb

end Example

end Sdpctl
