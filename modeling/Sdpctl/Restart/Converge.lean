import Sdpctl.Restart.Loops

/-!
A restart of a regular estate carries out its repairs, phase by phase. It can be
interrupted at any moment: what is left is a regular estate whose repairs lead to
the same end.
-/

namespace Sdpctl

open FileTree Coop

namespace Estate

def repairs (E : Estate) : List (Repair Estate) :=
  Sdpctl.repairs (E.observations.map Observation.id) (E.processingRuns.map ProcessingRun.id)

/-- What a restart makes of the rows and the files. -/
def restarted (E : Estate) : Estate := Repair.fixAll E.repairs E

theorem Regular.orderly {E : Estate} (h : E.Regular) : Repair.Orderly Regular E.repairs :=
  repairs_orderly h.obsNodup h.runNodup

theorem Shift.repairs {E F : Estate} (h : E.Shift F) : F.repairs = E.repairs := by
  unfold Estate.repairs
  rw [h.obsKeys, h.runKeys]

end Estate

theorem mending_mem {E : Estate} {m : Mending}
    (hm : m = givingUp ∨ m = releasing ∨ m = deleting ∨ m = verifying) {o : Observation}
    (ho : o ∈ E.observations) : m.repair o.id ∈ E.repairs := by
  have hmem : m.repair o.id ∈ (E.observations.map Observation.id).map m.repair :=
    List.mem_map_of_mem (List.mem_map_of_mem ho)
  simp only [Estate.repairs, repairs, List.mem_append]
  rcases hm with rfl | rfl | rfl | rfl
  · exact .inl hmem
  · exact .inr (.inr (.inl hmem))
  · exact .inr (.inr (.inr (.inl hmem)))
  · exact .inr (.inr (.inr (.inr hmem)))

theorem abandoning_mem {E : Estate} {q : ProcessingRun} (hq : q ∈ E.processingRuns) :
    abandoning q.id ∈ E.repairs := by
  simp only [Estate.repairs, repairs, List.mem_append]
  exact .inr (.inl (List.mem_map_of_mem (List.mem_map_of_mem hq)))

/-- A regular estate that leads to the same end as the first one. -/
structure Toward (first E : Estate) : Prop where
  regular : E.Regular
  goal : E.restarted = first.restarted
  idle : (∀ r ∈ first.repairs, r.done first) → E = first

/-- Of a restart from the first estate the repairs `rest` remain. -/
structure Underway (first : Estate) (rest : List (Repair Estate)) (E : Estate) : Prop where
  obsIds : E.observations.map Observation.id = first.observations.map Observation.id
  runIds : E.processingRuns.map ProcessingRun.id = first.processingRuns.map ProcessingRun.id
  place : Repair.At Estate.Regular first.repairs rest first.restarted E
  idle : (∀ r ∈ first.repairs, r.done first) → E = first

namespace Underway

variable {first E F : Estate} {rest : List (Repair Estate)} {r : Repair Estate}

theorem regular (h : Underway first rest E) : E.Regular := h.place.well

theorem repairs (h : Underway first rest E) : E.repairs = first.repairs := by
  unfold Estate.repairs
  rw [h.obsIds, h.runIds]

theorem orderly (h : Underway first rest E) : Repair.Orderly Estate.Regular first.repairs :=
  h.repairs ▸ h.regular.orderly

theorem toward (h : Underway first rest E) : Toward first E := by
  refine ⟨h.regular, ?_, h.idle⟩
  have hgoal := h.place.again h.orderly
  rwa [← h.repairs] at hgoal

theorem start (h : E.Regular) : Underway E E.repairs E := ⟨rfl, rfl, .start h, fun _ => rfl⟩

theorem skip (h : Underway first (r :: rest) E) (hdone : r.done E) : Underway first rest E :=
  ⟨h.obsIds, h.runIds, h.place.skip h.orderly hdone, h.idle⟩

theorem sound (h : Underway first (r :: rest) E) :
    r ∈ first.repairs ∧ r.Sound Estate.Regular := by
  obtain ⟨pre, hall, _⟩ := h.place.before
  have hmem : r ∈ first.repairs := by simp [hall]
  exact ⟨hmem, h.orderly.sound r hmem⟩

theorem rests (h : Underway first (r :: rest) E) (hleaves : r.leaves E F)
    (hidle : ∀ r ∈ first.repairs, r.done first) : F = first := by
  obtain ⟨hmem, hsound⟩ := h.sound
  obtain rfl := h.idle hidle
  exact hsound.rests h.regular (hidle r hmem) hleaves

theorem fixed (h : Underway first (r :: rest) E) (hshift : E.Shift (r.fix E)) :
    Underway first rest (r.fix E) :=
  ⟨hshift.obsKeys.trans h.obsIds, hshift.runKeys.trans h.runIds, h.place.fixed h.orderly,
    h.rests (h.sound.2.whole h.regular)⟩

theorem interrupted (h : Underway first (r :: rest) E) (hleaves : r.leaves E F)
    (hshift : E.Shift F) : Toward first F := by
  obtain ⟨hregular, hgoal⟩ := h.place.resumes h.orderly hleaves
  refine ⟨hregular, ?_, h.rests hleaves⟩
  rwa [← h.repairs, ← hshift.repairs] at hgoal

end Underway

section Phases

variable {first : Estate} {rest : List (Repair Estate)} {s : Shared}

theorem Mending.phase {m : Mending} (hm : m.Lawful) {f : Observation → M Unit}
    (hf : m.CarriedOut f) (ids : s.db.Ids)
    (h : Underway first ((first.observations.map Observation.id).map m.repair ++ rest) s.estate) :
    Smooth .main (Toward first) (Prog.forEach (s.db.listObservations [m.state]) f)
      (fun _ t => t.db.Ids ∧ Underway first rest t.estate) s := by
  rw [← h.obsIds] at h
  refine (Mending.loop hm hf
    (I := fun todo E => Underway first ((todo.map Observation.id).map m.repair ++ rest) E)
    ?_ ?_ ids h.regular.toPlaced h).mono (fun _ h => h) fun _ t h => ⟨h.1, h.2.2⟩
  · intro o todo E hplaced ho hstate h
    rw [← fix_found ho hstate]
    have hleaves := (hm.sound o.id).whole h.regular
    exact ⟨h.fixed (hm.leaves_shift hplaced hleaves),
      fun F hF => h.interrupted hF (hm.leaves_shift hplaced hF)⟩
  · intro o todo E hplaced ho hstate h
    refine h.skip fun p hp hs => ?_
    rw [ho] at hp
    exact absurd (Option.some.inj hp ▸ hs) hstate

theorem abandoning_phase (ids : s.db.Ids)
    (h : Underway first ((first.processingRuns.map ProcessingRun.id).map abandoning ++ rest)
      s.estate) :
    Smooth .main (Toward first) (Prog.forEach (s.db.listRuns [.running]) recoverRun)
      (fun _ t => t.db.Ids ∧ Underway first rest t.estate) s := by
  rw [← h.runIds] at h
  refine (abandoning_loop
    (I := fun todo E => Underway first ((todo.map ProcessingRun.id).map abandoning ++ rest) E)
    ?_ ?_ ids h.regular.toPlaced h).mono (fun _ h => h) fun _ t h => ⟨h.1, h.2.2⟩
  · intro q todo E hplaced hq hrunning h
    have hleaves := (abandoning_sound q.id).whole h.regular
    have hshift := abandoning_shift h.regular hleaves
    exact ⟨hplaced.shift hshift, h.fixed hshift,
      fun F hF => h.interrupted hF (abandoning_shift h.regular hF)⟩
  · intro q todo E hplaced hq hstate h
    refine h.skip fun p hp hs => ?_
    rw [hq] at hp
    exact absurd (Option.some.inj hp ▸ hs) hstate

theorem scanOrphans_known (ids : s.db.Ids) (h : Toward first s.estate) :
    Smooth .main (Toward first) scanOrphans (fun _ t => t.estate = s.estate) s := by
  let I : List String → Estate → Prop := fun todo E => E = s.estate ∧
    ∀ n ∈ todo, ["observations", n] ∈ s.estate.observations.map Observation.msPath
  refine (scanOrphans_smooth (I := I) ?_ ?_ ids h.regular.stands ?_).mono (fun _ h => h)
    fun _ t h => h.2.1
  · rintro n todo E ⟨rfl, hknown⟩
    exact ⟨if_pos (hknown n (by simp)), fun m hm => hknown m (by simp [hm])⟩
  · rintro todo E ⟨rfl, _⟩
    exact h
  · intro ns names hns hperm
    refine ⟨rfl, fun n hn => ?_⟩
    have hhas : s.disk.has ["observations", n] = true :=
      (Disk.mem_names hns).mp (hperm.mem_iff.mp hn)
    obtain ⟨o, ho, hpath⟩ := h.regular.covered n hhas
    exact List.mem_map.mpr ⟨o, ho, hpath⟩

/-- What holds after a restart from the first estate. -/
structure Restarted (first E : Estate) : Prop extends Toward first E where
  done : ∀ r ∈ E.repairs, r.done E

theorem recoverAll_smooth (ids : s.db.Ids) (h : s.estate.Regular) :
    Smooth .main (Toward s.estate) recoverAll (fun _ t => Restarted s.estate t.estate) s := by
  have hall := Underway.start h
  unfold recoverAll
  refine .then (smooth_look rfl hall.toward ?_)
  refine (Mending.phase givingUp_lawful recoverObservation_smooth ids hall).bind ?_
  rintro _ t₁ ⟨ids₁, h₁⟩
  refine .then (smooth_look rfl h₁.toward ?_)
  refine (abandoning_phase ids₁ h₁).bind ?_
  rintro _ t₂ ⟨ids₂, h₂⟩
  refine .then (smooth_look rfl h₂.toward ?_)
  refine (Mending.phase releasing_lawful repairAccepted_smooth ids₂ h₂).bind ?_
  rintro _ t₃ ⟨ids₃, h₃⟩
  refine .then (smooth_look rfl h₃.toward ?_)
  refine (Mending.phase deleting_lawful resumeDeletion_smooth ids₃ h₃).bind ?_
  rintro _ t₄ ⟨ids₄, h₄⟩
  refine .then (smooth_look rfl h₄.toward ?_)
  rw [← List.append_nil (List.map verifying.repair _)] at h₄
  refine (Mending.phase verifying_lawful verifyStored_smooth ids₄ h₄).bind ?_
  rintro _ t₅ ⟨ids₅, h₅⟩
  obtain ⟨_, hdone⟩ := h₅.place.ended
  refine (scanOrphans_known ids₅ h₅.toward).mono (fun _ h => h) ?_
  rintro _ t ht
  rw [ht]
  exact ⟨h₅.toward, h₅.repairs ▸ hdone⟩

theorem smooth_killManaged {K : Estate → Prop} {P : Unit → Shared → Prop} (hK : K s.estate)
    (hP : ∀ t : Shared, t.db = s.db → t.disk = s.disk → P () t) :
    Smooth .main K (call .killManaged) P s := by
  refine smooth_call (a := ())
    (t := { s with containers := [], runners := s.runners.map Runner.slain }) (fun x u => ?_)
    (fun _ ⟨_, _, h⟩ => by cases h) hK (hP _ rfl rfl)
  constructor
  · rintro ⟨c, hc, h⟩
    cases c <;> simp [Choice.smooth, exec] at hc h
    exact ⟨h.1.symm, h.2.symm⟩
  · rintro ⟨rfl, rfl⟩
    exact ⟨.ok, rfl, rfl⟩

theorem startupReconcile_smooth (ids : s.db.Ids) (h : s.estate.Regular) :
    Smooth .main (Toward s.estate) (startupReconcile (call .killManaged))
      (fun _ t => Restarted s.estate t.estate) s := by
  refine .then (smooth_killManaged ⟨h, rfl, fun _ => rfl⟩ fun t hdb hdisk => ?_)
  have hestate : t.estate = s.estate := estate_files hdb hdisk
  rw [← hestate] at h ⊢
  exact recoverAll_smooth (hdb ▸ ids) h

end Phases

theorem Restarted.arrived {first E : Estate} (h : Restarted first E) : E = first.restarted := by
  have hfix := Repair.fixAll_of_done h.regular.orderly.sound h.regular h.done
  exact hfix.symm.trans h.goal

end Sdpctl
