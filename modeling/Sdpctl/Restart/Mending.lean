import Sdpctl.Repair
import Sdpctl.Restart.Estate

/-!
The repair of one observation. What it does to the files comes first, and can be
interrupted; what it does to the row is one transaction and comes last. A repair
touches no other observation, so repairs of different observations do not
disturb each other.
-/

namespace Sdpctl

open FileTree

/-- Only the places of one observation change on the disk, nothing comes to its
live place, and the quarantine loses nothing. -/
structure Disk.Local (d d' : Disk) (o : Observation) : Prop where
  elsewhere : ∀ q, Apart q o.msPath → Apart q (trashPath o.id) →
    (∀ name, Apart q (quarantineEntry name)) → d'.get? q = d.get? q
  quarantine : ∀ name t, d.get? (quarantineEntry name) = some t →
    d'.get? (quarantineEntry name) = some t
  gone : d.get? o.msPath = none → d'.get? o.msPath = none
  stands : d.Stands → d'.Stands

namespace Disk.Local

variable {d d' d'' : Disk} {o : Observation} {n : String}

theorem refl (d : Disk) (o : Observation) : d.Local d o :=
  ⟨fun _ _ _ _ => rfl, fun _ _ h => h, id, id⟩

theorem trans (h : d.Local d' o) (h' : d'.Local d'' o) : d.Local d'' o where
  elsewhere q hms htrash hq :=
    (h'.elsewhere q hms htrash hq).trans (h.elsewhere q hms htrash hq)
  quarantine name t ht := h'.quarantine name t (h.quarantine name t ht)
  gone hnone := h'.gone (h.gone hnone)
  stands hstands := h'.stands (h.stands hstands)

theorem shift (h : d.Local d' o) (hpath : o.msPath = ["observations", n]) : d.Shift d' where
  stands := h.stands
  entries m hm := by
    by_cases hmn : m = n
    · subst hmn
      by_contra hno
      have hgone := h.gone (by rw [hpath]; exact Disk.has_eq_false.mp (by simpa using hno))
      rw [← hpath] at hm
      simp [Disk.has, hgone] at hm
    · have hsame := h.elsewhere ["observations", m] (by simp [hpath, hmn]) (by simp [trashPath])
        (by simp [quarantineEntry])
      rwa [Disk.has, hsame] at hm
  products a b hfile := by
    have hsame := h.elsewhere ["products", a, b] (by simp [hpath]) (by simp [trashPath])
      (by simp [quarantineEntry])
    rwa [Disk.isFileAt, hsame] at hfile

theorem setAside (hpath : o.msPath = ["observations", n]) (label : String) (hstands : d.Stands) :
    d.Local (d.setAside o.msPath label) o := by
  rw [hpath]
  refine ⟨fun q hms _ hq => ?_, fun name t ht => Disk.setAside_kept ht, fun _ => ?_,
    Disk.Stands.setAside⟩
  · exact Disk.setAside_apart (hpath ▸ hms) hq
  · rw [hpath]
    exact Disk.setAside_gone hstands

theorem trashed (hpath : o.msPath = ["observations", n]) (hstands : d.Stands) :
    d.Local (d.trashed o.msPath (trashPath o.id)) o := by
  rw [hpath]
  refine ⟨fun q hms htrash _ => ?_, fun name t ht => ?_, fun _ => ?_, Disk.Stands.trashed⟩
  · exact Disk.trashed_apart (hpath ▸ hms) htrash
  · exact (Disk.trashed_apart (by simp [quarantineEntry]) (by simp [quarantineEntry])).trans ht
  · rw [hpath]
    exact Disk.trashed_gone hstands

theorem emptied (hpath : o.msPath = ["observations", n]) :
    d.Local (d.emptied (trashPath o.id)) o where
  elsewhere q _ htrash _ := Disk.emptied_apart htrash
  quarantine name t ht :=
    (Disk.emptied_apart (by simp [quarantineEntry, trashPath])).trans ht
  gone hnone := (Disk.emptied_apart (by simp [hpath, trashPath])).trans hnone
  stands hstands := hstands.emptied _ _ _

theorem rmtreePart {u : Tree} (hpath : o.msPath = ["observations", n])
    (h : d.rmtreePart (trashPath o.id) u = some d') : d.Local d' o := by
  obtain ⟨_, _, hapart⟩ := Disk.rmtreePart_has (by simp [trashPath]) h
  refine ⟨fun q _ htrash _ => hapart q htrash, fun name t ht => ?_, fun hnone => ?_,
    fun hstands => hstands.rmtreePart h⟩
  · exact (hapart _ (by simp [quarantineEntry, trashPath])).trans ht
  · exact (hapart _ (by simp [hpath, trashPath])).trans hnone

end Disk.Local

theorem Estate.Placed.elsewhere {E : Estate} (h : E.Placed) {o p : Observation} {d : Disk}
    (ho : o ∈ E.observations)
    (hp : p ∈ E.observations) (hne : p.id ≠ o.id) (hlocal : E.disk.Local d o) :
    d.get? p.msPath = E.disk.get? p.msPath ∧
      d.get? (trashPath p.id) = E.disk.get? (trashPath p.id) := by
  obtain ⟨n, hn⟩ := h.msPath o ho
  obtain ⟨k, hk⟩ := h.msPath p hp
  have hkn : k ≠ n := fun heq => hne (h.own p hp o ho (by rw [hn, hk, heq]))
  constructor
  · exact hlocal.elsewhere _ (by simp [hn, hk, hkn]) (by simp [hk, trashPath])
      (by simp [hk, quarantineEntry])
  · refine hlocal.elsewhere _ (by simp [hn, trashPath]) ?_ (by simp [trashPath, quarantineEntry])
    simpa [trashPath] using hne

/-- How an observation in a certain state is mended. -/
structure Mending where
  state : ObservationState
  row : Estate → Observation → Observation
  files : Estate → Observation → Disk
  /-- The disk when not all has been done to the files, or the row is still to come. -/
  partway : Estate → Observation → Disk → Prop
  /-- A row that stays as it is. -/
  settled : Estate → Observation → Prop

namespace Mending

variable (m : Mending)

def apply (E : Estate) (o : Observation) : Estate :=
  { E.putObs (m.row E o) with disk := m.files E o }

/-- The mending of the observation with an id. -/
def repair (oid : Nat) : Repair Estate where
  fix E :=
    match E.obs? oid with
    | some o => if o.state = m.state then m.apply E o else E
    | none => E
  leaves E F := F = E ∨ ∃ o, E.obs? oid = some o ∧ o.state = m.state ∧
    (F = m.apply E o ∨ ∃ d, m.partway E o d ∧ F = { E with disk := d })
  done E := ∀ o, E.obs? oid = some o → o.state = m.state → m.settled E o

/-- The mending stays with its observation, can be tried again, and leaves no row
behind in its state that is not settled. -/
structure Lawful : Prop where
  id : ∀ E o, (m.row E o).id = o.id
  msPath : ∀ E o, (m.row E o).msPath = o.msPath
  files : ∀ {E : Estate} {o : Observation}, E.Placed → o ∈ E.observations →
    E.disk.Local (m.files E o) o
  partway : ∀ {E : Estate} {o : Observation} {d : Disk}, E.Placed → o ∈ E.observations →
    m.partway E o d → E.disk.Local d o
  settles : ∀ {E : Estate} {o : Observation}, E.Placed → o ∈ E.observations →
    (m.row E o).state = m.state →
    m.settled (m.apply E o) (m.row E o)
  stays : ∀ {E : Estate} {o : Observation}, m.settled E o →
    m.row E o = o ∧ m.files E o = E.disk ∧ ∀ d, ¬ m.partway E o d
  resumes : ∀ {E : Estate} {o : Observation} {d : Disk}, E.Placed → o ∈ E.observations →
    m.partway E o d →
    m.row { E with disk := d } o = m.row E o ∧ m.files { E with disk := d } o = m.files E o
  reads : ∀ {E F : Estate} {o : Observation}, F.processingRuns = E.processingRuns →
    F.disk.get? o.msPath = E.disk.get? o.msPath →
    F.disk.get? (trashPath o.id) = E.disk.get? (trashPath o.id) → m.settled E o → m.settled F o

variable {m} {E F : Estate} {o : Observation} {i : Nat}

theorem fix_found (h : E.obs? i = some o) (hstate : o.state = m.state) :
    (m.repair i).fix E = m.apply E o := by
  simp [repair, h, hstate]

theorem fix_other (h : ∀ o, E.obs? i = some o → o.state ≠ m.state) : (m.repair i).fix E = E := by
  unfold repair
  simp only
  split
  · rename_i o ho
    exact if_neg (h o ho)
  · rfl

namespace Lawful

variable (hm : m.Lawful)

include hm

theorem obs?_apply (h : E.obs? i = some o) (j : Nat) :
    (m.apply E o).obs? j = if j = i then some (m.row E o) else E.obs? j := by
  obtain ⟨_, rfl⟩ := Estate.mem_of_obs? h
  have hfound : E.obs? (m.row E o).id = some o := by
    rw [hm.id]
    exact h
  have hput := Estate.obs?_putObs hfound j
  rw [hm.id] at hput
  exact hput

theorem apply_shift (h : E.Placed) (ho : E.obs? i = some o) : E.Shift (m.apply E o) := by
  obtain ⟨hmem, rfl⟩ := Estate.mem_of_obs? ho
  obtain ⟨n, hn⟩ := h.msPath o hmem
  exact ⟨.putObs h (by rw [hm.id]; exact ho) (hm.msPath E o), (hm.files h hmem).shift hn⟩

theorem leaves_shift (h : E.Placed) (hleaves : (m.repair i).leaves E F) : E.Shift F := by
  rcases hleaves with rfl | ⟨o, ho, _, rfl | ⟨d, hd, rfl⟩⟩
  · exact .refl _
  · exact hm.apply_shift h ho
  · obtain ⟨hmem, _⟩ := Estate.mem_of_obs? ho
    obtain ⟨n, hn⟩ := h.msPath o hmem
    exact .files ((hm.partway h hmem hd).shift hn)

theorem apply_of_settled (h : E.Placed) (ho : E.obs? i = some o) (hsettled : m.settled E o) :
    m.apply E o = E := by
  obtain ⟨hmem, rfl⟩ := Estate.mem_of_obs? ho
  obtain ⟨hrow, hfiles, _⟩ := hm.stays hsettled
  unfold apply
  rw [hrow, hfiles, Estate.putObs_self h ho]

theorem fix_of_done (h : E.Placed) (hdone : (m.repair i).done E) : (m.repair i).fix E = E := by
  cases ho : E.obs? i with
  | none => exact fix_other (by simp [ho])
  | some o =>
    by_cases hstate : o.state = m.state
    · rw [fix_found ho hstate]
      exact hm.apply_of_settled h ho (hdone o ho hstate)
    · refine fix_other fun p hp => ?_
      rw [ho] at hp
      exact Option.some.inj hp ▸ hstate

theorem done_apply (h : E.Placed) (ho : E.obs? i = some o) : (m.repair i).done (m.apply E o) := by
  intro p hp hstate
  rw [hm.obs?_apply ho, if_pos rfl] at hp
  cases hp
  exact hm.settles h (Estate.mem_of_obs? ho).1 hstate

theorem sound (i : Nat) : (m.repair i).Sound Estate.Regular where
  well hW hleaves := hW.shift (hm.leaves_shift hW.toPlaced hleaves)
  whole := by
    intro E _
    cases ho : E.obs? i with
    | none => exact .inl (fix_other (by simp [ho]))
    | some o =>
      by_cases hstate : o.state = m.state
      · exact .inr ⟨o, ho, hstate, .inl (fix_found ho hstate)⟩
      · refine .inl (fix_other fun p hp => ?_)
        rw [ho] at hp
        exact Option.some.inj hp ▸ hstate
  settles := by
    intro E hW
    cases ho : E.obs? i with
    | none =>
      rw [fix_other (by simp [ho])]
      simp [repair, ho]
    | some o =>
      by_cases hstate : o.state = m.state
      · rw [fix_found ho hstate]
        exact hm.done_apply hW.toPlaced ho
      · have hother : ∀ p, E.obs? i = some p → p.state ≠ m.state := by
          intro p hp
          rw [ho] at hp
          exact Option.some.inj hp ▸ hstate
        rw [fix_other hother]
        exact fun p hp hs => absurd hs (hother p hp)
  rests := by
    intro E F hW hdone hleaves
    rcases hleaves with rfl | ⟨o, ho, hstate, rfl | ⟨d, hd, rfl⟩⟩
    · rfl
    · exact hm.apply_of_settled hW.toPlaced ho (hdone o ho hstate)
    · exact absurd hd ((hm.stays (hdone o ho hstate)).2.2 d)
  resumes := by
    intro E F hW hleaves
    rcases hleaves with rfl | ⟨o, ho, hstate, rfl | ⟨d, hd, rfl⟩⟩
    · rfl
    · rw [fix_found ho hstate]
      exact hm.fix_of_done (hW.toPlaced.shift (hm.apply_shift hW.toPlaced ho))
        (hm.done_apply hW.toPlaced ho)
    · have hmem := (Estate.mem_of_obs? ho).1
      obtain ⟨hrow, hfiles⟩ := hm.resumes hW.toPlaced hmem hd
      have ho' : ({ E with disk := d } : Estate).obs? i = some o := ho
      rw [fix_found ho hstate, fix_found ho' hstate]
      unfold apply
      rw [hrow, hfiles]
      rfl

end Lawful

/-- A later mending that brings no row to the state of an earlier one, and takes
none from it half-way. -/
def After (m₁ m₂ : Mending) : Prop := ∀ E o, o.state = m₂.state →
  ((m₂.row E o).state = m₁.state → m₂.row E o = o ∧ m₂.files E o = E.disk) ∧
    (o.state = m₁.state → ∀ d, ¬ m₂.partway E o d)

theorem spares {m₁ m₂ : Mending} (h₁ : m₁.Lawful) (h₂ : m₂.Lawful) {i j : Nat}
    (h : i ≠ j ∨ m₁.After m₂) :
    Repair.Spares Estate.Regular (m₁.repair i) (m₂.repair j) := by
  intro E F hW hdone hleaves
  rcases hleaves with rfl | ⟨o, ho, hstate, hF⟩
  · exact hdone
  obtain ⟨hmem, rfl⟩ := Estate.mem_of_obs? ho
  -- another observation: its row and its places are as before
  have hother : ∀ d, E.disk.Local d o → F.disk = d → F.processingRuns = E.processingRuns →
      ∀ p, E.obs? i = some p → p.state = m₁.state → i ≠ o.id → m₁.settled F p := by
    intro d hlocal hdisk hruns p hp hs hne
    obtain ⟨hpmem, rfl⟩ := Estate.mem_of_obs? hp
    obtain ⟨hms, htrash⟩ := hW.toPlaced.elsewhere hmem hpmem hne hlocal
    exact h₁.reads hruns (by rw [hdisk, hms]) (by rw [hdisk, htrash]) (hdone p hp hs)
  intro p hp hs
  rcases hF with rfl | ⟨d, hd, rfl⟩
  · rw [h₂.obs?_apply ho] at hp
    split at hp
    · rename_i hi
      subst hi
      cases hp
      have hafter := (h.resolve_left (by simp)) E o hstate
      obtain ⟨hrow, hfiles⟩ := hafter.1 hs
      have hsame : m₂.apply E o = E := by
        unfold apply
        rw [hrow, hfiles, Estate.putObs_self hW.toPlaced ho]
      rw [hsame, hrow]
      exact hdone o ho (hrow ▸ hs)
    · rename_i hne
      exact hother _ (h₂.files hW.toPlaced hmem) rfl rfl p hp hs hne
  · have hp' : E.obs? i = some p := hp
    by_cases hi : i = o.id
    · subst hi
      rw [ho] at hp'
      cases hp'
      have hafter := (h.resolve_left (by simp)) E o hstate
      exact absurd hd (hafter.2 hs d)
    · exact hother d (h₂.partway hW.toPlaced hmem hd) rfl rfl p hp' hs hi

end Mending
end Sdpctl
