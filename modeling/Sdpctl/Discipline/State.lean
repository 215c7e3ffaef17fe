import Sdpctl.System.Machine
import Sdpctl.Store.Evolve

/-!
The invariant of the system. It is stated under terms that limit what the
environment does; the facts about bytes are promised only under the calm ones.
-/

namespace Sdpctl

open FileTree Coop

inductive Terms where
  /-- Nothing is ruled out. -/
  | any
  /-- Writers stop when their runner has ended, and no data gets lost. -/
  | calm
  /-- The same, and no exception of `quarantine_path` is swallowed while the data
  is still there. -/
  | unswallowed
  /-- The same, because no file operation fails. -/
  | faultless
  deriving DecidableEq

/-- Only runners that are still at work write, and nothing gets lost. -/
def Terms.Calm (T : Terms) : Prop := T ≠ .any

/-- Nothing stays behind where data was to be moved away. -/
def Terms.Thorough (T : Terms) : Prop := T = .unswallowed ∨ T = .faultless

theorem Terms.Thorough.calm {T : Terms} (h : T.Thorough) : T.Calm := by
  rcases h with rfl | rfl <;> simp [Calm]

/-- `PLANNED`, `OBSERVING` and so on, by id. -/
def Db.InState (db : Db) (oid : Nat) (state : ObservationState) : Prop :=
  ∃ o, db.obs? oid = some o ∧ o.state = state

/-- The task of this observation worker is the tracked one, and is not done. -/
def Owns (task oid : Nat) (s : Shared) : Prop :=
  s.ctl.latest .observe oid = some { id := task, kind := .observe, key := oid, done := false }

/-- The task of this processing worker is the tracked one, and is not done. -/
def OwnsRun (task rid : Nat) (s : Shared) : Prop :=
  s.ctl.latest .process rid = some { id := task, kind := .process, key := rid, done := false }

def NoWriter (oid : Nat) (s : Shared) : Prop :=
  ∀ w ∈ s.runners, w.oid = oid → w.running = false

/-- No runner is left over from a controller that died. -/
def NoOrphan (s : Shared) : Prop := ∀ w ∈ s.runners, w.state ≠ .orphan

/-- The role answers for the observation: it is its worker, or the main
coroutine while there is no live worker. -/
def Holder (r : Role) (oid : Nat) (s : Shared) : Prop :=
  (∃ task, r = .observe task oid ∧ Owns task oid s) ∨
    (r = .main ∧ s.ctl.live .observe oid = false ∧ NoOrphan s)

def Disk.absent (d : Disk) (p : Path) : Prop := d.get? p = none

def Disk.bytesAt (d : Disk) (p : Path) : Nat := d.root.bytesAt p

/-- The bytes under `observations/`, `quarantine/` and `trash/`. -/
def Disk.physical (d : Disk) : Nat :=
  d.bytesAt observationsRoot + d.bytesAt quarantineRoot + d.bytesAt trashRoot

/-- What an observation has on disk, by its state. -/
def Disk.Weighs (T : Terms) (d : Disk) (o : Observation) : Prop :=
  match o.state with
  | .planned | .deleted | .inconsistent =>
      d.absent (msPathOf o.id) ∧ d.absent (trashPath o.id)
  | .observeFailed => (T.Thorough → d.absent (msPathOf o.id)) ∧ d.absent (trashPath o.id)
  | .observing => d.absent (trashPath o.id)
  | .stored => d.bytesAt (msPathOf o.id) = o.sizeBytes ∧ d.absent (trashPath o.id)
  | .deleting => d.bytesAt (msPathOf o.id) + d.bytesAt (trashPath o.id) ≤ o.sizeBytes

/-- The layout stands, and `observations/` and `trash/` hold entries of known
observations only. -/
structure DiskOk (db : Db) (d : Disk) : Prop where
  wf : d.root.wf
  dirs : ∀ n ∈ layout, d.root.IsDir [n]
  covered : ∀ dir n, dir = "observations" ∨ dir = "trash" → d.has [dir, n] →
    ∃ oid o, db.obs? oid = some o ∧ n = obsName oid

structure TasksOk (s : Shared) : Prop where
  nodup : (s.ctl.tasks.map Task.id).Nodup
  bound : ∀ t ∈ s.ctl.tasks, t.id < s.ctl.tasks.length
  rows : ∀ t ∈ s.ctl.tasks, t.kind = .observe → (s.db.obs? t.key).isSome
  down : s.ctl.up = false → s.ctl.tasks = []

structure RunnersOk (s : Shared) : Prop where
  msPath : ∀ w ∈ s.runners, w.msPath = msPathOf w.oid
  rows : ∀ w ∈ s.runners, ∃ o, s.db.obs? w.oid = some o ∧ o.state ≠ .planned
  nodup : (s.runners.map Runner.oid).Nodup
  observing : ∀ w ∈ s.runners, w.running = true → s.db.InState w.oid .observing
  live : ∀ w ∈ s.runners, w.state = .pending → s.ctl.live .observe w.oid = true

/-- A cached size of the quarantine is not below the real one while the
signature matches. -/
def CacheOk (d : Disk) (e : AuxCache) : Prop :=
  e.1.1 ≤ d.mtime quarantineRoot ∧
    (e.1.1 = d.mtime quarantineRoot → d.bytesAt quarantineRoot ≤ e.2.1)

structure Inv (T : Terms) (s : Shared) : Prop where
  db : s.db.Lawful s.dropped
  disk : DiskOk s.db s.disk
  tasks : TasksOk s
  runners : RunnersOk s
  cache : ∀ e, s.ctl.cache = some e → CacheOk s.disk e
  trash : ∀ oid o, s.db.obs? oid = some o → ¬ o.state.Closing → s.disk.absent (trashPath oid)
  weighs : T.Calm → ∀ oid o, s.db.obs? oid = some o → s.disk.Weighs T o

/-- What holds when a tick returns: nothing is stranded. -/
structure Settled (scanned : List Nat) (s : Shared) : Prop where
  stored : ∀ oid o, s.db.obs? oid = some o → o.state = .stored →
    ∃ r ∈ s.db.runsOf oid, r.state = .queued ∨ r.state = .running ∨
      r ∈ listQaItems s.db ∨ r.state = .accepted
  active : ∀ oid o, s.db.obs? oid = some o → o.state.Active → s.ctl.live .observe oid = true
  running : ∀ rid r, s.db.run? rid = some r → r.state = .running →
    s.ctl.live .process rid = true
  scanned : ∀ rid ∈ scanned, s.ctl.live .process rid = true

end Sdpctl
