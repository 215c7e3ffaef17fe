import Sdpctl.Disk
import Sdpctl.Scheduler
import Sdpctl.Coop.Machine

/-!
The system: the store, the disk, the memory of the controller, the runners and
their containers. One operation is one step; everything that can go wrong with
it is a choice of the environment.
-/

namespace Sdpctl

open FileTree Coop

inductive TaskKind where
  | observe
  | process
  deriving DecidableEq, Repr

/-- An `asyncio.Task` that the scheduler tracks under a key. -/
structure Task where
  id : Nat
  kind : TaskKind
  key : Nat
  done : Bool
  deriving DecidableEq, Repr

structure Ctl where
  up : Bool
  cfg : Config
  /-- Every task so far, the newest first. -/
  tasks : List Task
  cache : Option AuxCache
  /-- The free slots of `_processing_sem`. -/
  free : Nat
  deriving DecidableEq, Repr

/-- `_obs_tasks.get(oid)` or `_run_tasks.get(rid)`: the newest task of a key. -/
def Ctl.latest (ctl : Ctl) (kind : TaskKind) (key : Nat) : Option Task :=
  ctl.tasks.find? fun t => t.kind = kind && t.key = key

/-- There is a task for the key and it is not done. -/
def Ctl.live (ctl : Ctl) (kind : TaskKind) (key : Nat) : Bool :=
  ((ctl.latest kind key).map fun t => !t.done).getD false

def Ctl.track (ctl : Ctl) (kind : TaskKind) (key : Nat) : Ctl :=
  { ctl with tasks := { id := ctl.tasks.length, kind, key, done := false } :: ctl.tasks }

def Ctl.finish (ctl : Ctl) (task : Nat) : Ctl :=
  { ctl with tasks := ctl.tasks.map fun t => if t.id = task then { t with done := true } else t }

/-- How far a call of `runner.observe` has come. `orphan` is one whose controller
died, `killed` one that a later controller stopped. -/
inductive RunnerState where
  | pending
  | returned (rc : Int)
  | raised
  | cancelled
  | orphan
  | killed
  deriving DecidableEq, Repr

/-- A call of `runner.observe`. -/
structure Runner where
  oid : Nat
  msPath : Path
  state : RunnerState
  launched : Bool
  deriving DecidableEq, Repr

def Runner.running (r : Runner) : Bool := r.state = .pending || r.state = .orphan

/-- The container of the runner can still start: its client has been started and
has not ended, whoever awaits it. -/
def Runner.mayLaunch (r : Runner) : Bool :=
  match r.state with
  | .returned _ | .raised => false
  | _ => !r.launched

def Runner.orphaned (r : Runner) : Runner :=
  if r.state = .pending then { r with state := .orphan } else r

def Runner.slain (r : Runner) : Runner :=
  if r.state = .orphan then { r with state := .killed } else r

structure Shared where
  db : Db
  disk : Disk
  ctl : Ctl
  /-- Every call of `runner.observe`; its index is its handle. -/
  runners : List Runner
  /-- The handles whose writer is alive. -/
  containers : List Nat
  -- what happened, for the statements only
  /-- The latest version of every tree that a runner wrote. -/
  produced : List (Nat × Tree)
  nextIno : Nat
  /-- The identities of the quarantine entries that were purged. -/
  purged : List Nat
  /-- The observations that an operator named to `resolve --drop`. -/
  dropped : List Nat

inductive Role where
  | main
  | observe (task oid : Nat)
  | process (task rid : Nat)
  | cli
  deriving DecidableEq, Repr

inductive Choice where
  | ok
  | fail
  /-- A stop of containers that saw none of them and returns normally. -/
  | blind
  /-- A removal that failed part-way. -/
  | leaves (t : Tree)
  | order (names : List String)
  | exit (rc : Int)
  | output (r : CommandResult)

inductive Env where
  /-- The container of a runner starts. -/
  | launch (handle : Nat)
  | containerExit (handle : Nat)
  /-- A runner writes its measurement set; what stands at its path afterwards. -/
  | write (handle : Nat) (t : Tree)
  | runnerReturn (handle : Nat) (rc : Int)
  | runnerRaise (handle : Nat)
  /-- A processing runner makes and fills an output directory. -/
  | product (oid attempt : Nat) (t : Tree)
  /-- Raw data gets lost. -/
  | loss (oid : Nat)

namespace Shared

def reading {α : Type} (s : Shared) (c : Choice) (p : Path) (x : Except Exn α) :
    Option (Except Exn α × Shared) :=
  match c with
  | .ok => some (x, s)
  | .fail => some (.error (.osError p), s)
  | _ => none

def writing (s : Shared) (c : Choice) (p : Path) (x : Except Exn Disk) :
    Option (Except Exn Unit × Shared) :=
  match c with
  | .ok =>
    match x with
    | .ok disk => some (.ok (), { s with disk })
    | .error e => some (.error e, s)
  | .fail => some (.error (.osError p), s)
  | _ => none

/-- Remember the identity of a quarantine entry that is removed. -/
def notePurge (s : Shared) (p : Path) : Shared :=
  if parent p = quarantineRoot then
    { s with purged := ((s.disk.get? p).map Tree.ino).toList ++ s.purged }
  else s

@[simp] theorem notePurge_db (s : Shared) (p : Path) : (s.notePurge p).db = s.db := by
  unfold notePurge
  split <;> rfl

@[simp] theorem notePurge_ctl (s : Shared) (p : Path) : (s.notePurge p).ctl = s.ctl := by
  unfold notePurge
  split <;> rfl

@[simp] theorem notePurge_runners (s : Shared) (p : Path) :
    (s.notePurge p).runners = s.runners := by
  unfold notePurge
  split <;> rfl

@[simp] theorem notePurge_containers (s : Shared) (p : Path) :
    (s.notePurge p).containers = s.containers := by
  unfold notePurge
  split <;> rfl

@[simp] theorem notePurge_produced (s : Shared) (p : Path) :
    (s.notePurge p).produced = s.produced := by
  unfold notePurge
  split <;> rfl

@[simp] theorem notePurge_dropped (s : Shared) (p : Path) :
    (s.notePurge p).dropped = s.dropped := by
  unfold notePurge
  split <;> rfl

/-- A removal; `part` is what a removal that stops part-way leaves of the disk. -/
def removing (s : Shared) (c : Choice) (p : Path) (x : Except Exn Disk)
    (part : Tree → Option Disk) : Option (Except Exn Unit × Shared) :=
  match c with
  | .leaves t => (part t).map fun disk => (.error (.osError p), { s.notePurge p with disk })
  | .ok =>
    match x with
    | .ok disk => some (.ok (), { s.notePurge p with disk })
    | .error e => some (.error e, s)
  | .fail => some (.error (.osError p), s)
  | _ => none

def sure {α : Type} (c : Choice) (x : Except Exn α) (s : Shared) : Option (Except Exn α × Shared) :=
  match c with
  | .ok => some (x, s)
  | _ => none

def setRunner (s : Shared) (h : Nat) (state : RunnerState) : Shared :=
  { s with runners := s.runners.modify h fun r => { r with state } }

/-- What a finished call of `runner.observe` gives to the one who awaits it. -/
def runnerOutcome : RunnerState → Option (Except Exn Int)
  | .returned rc => some (.ok rc)
  | .raised => some (.error (.runnerError "runner.observe"))
  | .cancelled => some (.error (.runnerError "CancelledError"))
  | _ => none

def query (s : Shared) (c : Choice) (q : Query) : Option (Except Exn q.Reply × Shared) :=
  match c with
  | .ok =>
    match q.run s.db with
    | .ok (x, db) => some (.ok x, { s with db })
    | .error e => some (.error e, s)
  | .fail => some (.error .sqliteError, s)
  | _ => none

end Shared

open Shared in
def exec (r : Role) (o : Op) (c : Choice) (s : Shared) : Option (Except Exn o.Reply × Shared) :=
  match o with
  | .db q => s.query c q
  | .exists_ p => s.reading c p (.ok (s.disk.has p))
  | .isDir p => s.reading c p (.ok (s.disk.isDirAt p))
  | .isFile p => s.reading c p (.ok (s.disk.isFileAt p))
  | .statSize p => s.reading c p (s.disk.statSize p)
  | .statMtime p => s.reading c p (s.disk.statMtime p)
  | .resolve p => s.reading c p (.ok p)
  | .mkdir p => s.writing c p (s.disk.mkdir p)
  | .rename p q => s.writing c p (s.disk.rename p q)
  | .rmtree p => s.removing c p (s.disk.rmtree p) (s.disk.rmtreePart p)
  | .unlink p => s.removing c p (s.disk.unlink p) fun _ => none
  | .iterdir p =>
      match c with
      | .order names =>
        match s.disk.names p with
        | .ok ns => if names.isPerm ns then some (.ok names, s) else none
        | .error e => some (.error e, s)
      | .fail => some (.error (.osError p), s)
      | _ => none
  | .rglob p => s.reading c p (.ok (s.disk.rglob p))
  | .entryCount p => s.reading c p (.ok (s.disk.entryCount p))
  | .diverge => none
  | .cacheGet => sure c (.ok (if r = .cli then none else s.ctl.cache)) s
  | .cachePut entry =>
      sure c (.ok ()) (if r = .cli then s else { s with ctl := { s.ctl with cache := some entry } })
  | .cachePop =>
      sure c (.ok ()) (if r = .cli then s else { s with ctl := { s.ctl with cache := none } })
  | .obsTaskLive oid => sure c (.ok (s.ctl.live .observe oid)) s
  | .runTaskLive rid => sure c (.ok (s.ctl.live .process rid)) s
  | .trackObserve oid => sure c (.ok ()) { s with ctl := s.ctl.track .observe oid }
  | .trackProcess rid => sure c (.ok ()) { s with ctl := s.ctl.track .process rid }
  | .finish task => sure c (.ok ()) { s with ctl := s.ctl.finish task }
  | .tickReturned _ => sure c (.ok ()) s
  | .swallow _ _ => sure c (.ok ()) s
  | .taskStart => sure c (.ok ()) s
  | .sleep => sure c (.ok ()) s
  | .acquire =>
      if s.ctl.free = 0 then none
      else sure c (.ok ()) { s with ctl := { s.ctl with free := s.ctl.free - 1 } }
  | .release => sure c (.ok ()) { s with ctl := { s.ctl with free := s.ctl.free + 1 } }
  | .startObserve oid msPath _ =>
      sure c (.ok s.runners.length)
        { s with runners := s.runners ++ [{ oid, msPath, state := .pending, launched := false }] }
  | .runnerDone h =>
      match s.runners[h]? with
      | none => none
      | some w => sure c (.ok (decide (w.state ≠ .pending))) s
  | .runnerResult h =>
      match s.runners[h]? with
      | none => none
      | some w => (runnerOutcome w.state).bind fun x => sure c x s
  | .waitRunner h =>
      match c with
      | .ok =>
        match s.runners[h]? with
        | none => none
        | some w => (runnerOutcome w.state).map fun x => (x, s)
      | .fail => some (.error .timeoutError, s)
      | _ => none
  | .cancelRunner h =>
      match s.runners[h]? with
      | none => none
      | some w => sure c (.ok ()) (if w.state = .pending then s.setRunner h .cancelled else s)
  | .joinRunner _ =>
      match c with
      | .ok => some (.ok (), s)
      | .fail => some (.error (.runnerError "runner.observe"), s)
      | _ => none
  | .abortObservation oid =>
      match c with
      | .ok => some (.ok (), { s with containers := s.containers.filter fun h =>
          ((s.runners[h]?).map fun w => w.oid != oid).getD true })
      | .blind => some (.ok (), s)
      | .fail => some (.error (.runtimeError "container still exists after rm -f"), s)
      | _ => none
  | .startProcess _ _ _ _ _ => sure c (.ok ()) s
  | .awaitProcess _ =>
      match c with
      | .exit rc => some (.ok rc, s)
      | .fail => some (.error (.runnerError "runner.process"), s)
      | _ => none
  | .makePreview _ output => s.reading c output (.ok ())
  | .killManaged =>
      match c with
      | .ok => some (.ok (), { s with containers := [], runners := s.runners.map Runner.slain })
      | .blind => some (.ok (), { s with runners := s.runners.map Runner.slain })
      | .fail => some (.error (.runtimeError "container still exists after rm -f"), s)
      | _ => none
  | .command _ =>
      match c with
      | .output reply => some (.ok reply, s)
      | .fail => some (.error (.osError []), s)
      | _ => none

/-- The operation gives control back to the event loop. -/
def awaits : Op → Bool
  | .taskStart | .sleep | .acquire | .waitRunner _ | .joinRunner _ | .abortObservation _
  | .awaitProcess _ | .killManaged | .command _ => true
  | _ => false

def spawn (o : Op) (s : Shared) : Option (Role × Entry) :=
  let task := s.ctl.tasks.length
  match o with
  | .trackObserve oid => some (.observe task oid, .observe s.ctl.cfg task oid)
  | .trackProcess rid => some (.process task rid, .process s.ctl.cfg task rid)
  | _ => none

/-- The identity of what a writer leaves at its path. -/
def Shared.writtenIno (s : Shared) (p : Path) : Nat :=
  ((s.disk.get? p).map Tree.ino).getD s.nextIno

def env (e : Env) (s : Shared) : Option Shared :=
  match e with
  | .launch h =>
      match s.runners[h]? with
      | none => none
      | some w =>
        if w.mayLaunch then
          some { s with
            runners := s.runners.modify h fun r => { r with launched := true }
            containers := h :: s.containers }
        else none
  | .containerExit h => some { s with containers := s.containers.filter (· ≠ h) }
  | .write h t =>
      match s.runners[h]? with
      | none => none
      | some w =>
        if h ∈ s.containers ∧ t.wf ∧ t.ino = s.writtenIno w.msPath
            ∧ s.disk.isDirAt (parent w.msPath) then
          some { s with
            disk := s.disk.put w.msPath (some t)
            produced := (w.oid, t) ::
              s.produced.filter fun e => e.1 ≠ w.oid || e.2.ino ≠ t.ino
            nextIno := s.nextIno + 1 }
        else none
  | .runnerReturn h rc =>
      match s.runners[h]? with
      | none => none
      | some w => if w.state = .pending then some (s.setRunner h (.returned rc)) else none
  | .runnerRaise h =>
      match s.runners[h]? with
      | none => none
      | some w => if w.state = .pending then some (s.setRunner h .raised) else none
  | .product oid attempt t =>
      let dir := parent (outputDir oid attempt)
      let disk := s.disk.ensureDir dir
      if t.wf ∧ t.isDir ∧ disk.isDirAt dir then
        some { s with disk := disk.put (outputDir oid attempt) (some t) }
      else none
  | .loss oid => some { s with disk := s.disk.put (msPathOf oid) none }

/-- A process started from outside: a controller, when none runs, or a command. -/
def enter (r : Role) (n : Entry) (s : Shared) : Option Shared :=
  match r, n with
  | .main, .run cfg =>
      if s.ctl.up then none
      else if cfg.Valid then
        some { s with ctl :=
          { up := true, cfg, tasks := [], cache := none, free := cfg.maxParallelProcessing } }
      else none
  | .cli, .command (.resolve oid) => some { s with dropped := oid :: s.dropped }
  | .cli, .command _ => some s
  | _, _ => none

/-- The command line gives `quarantine purge` the plain name of an entry. -/
def Entry.plain : Entry → Bool
  | .command (.purge name) => plainName name
  | _ => true

/-- The controller process dies; its runners lose the one who awaits them. -/
def down (s : Shared) : Shared :=
  { s with
    ctl := { s.ctl with up := false, tasks := [], cache := none, free := 0 }
    runners := s.runners.map Runner.orphaned }

/-- The system as a machine. Its purges are given plain names; the machine `shell`, of
which this one is the part without other names, takes any string that the command line
can be given. -/
def system : Machine Op Op.Reply Exn Shared Role Entry Choice Env where
  exec
  awaits
  coop r := r ≠ .cli
  leader r := r = .main
  code _ := Entry.code
  spawn
  env
  enter r n s := if n.plain then enter r n s else none
  down

theorem system_enter {r : Role} {n : Entry} {s s' : Shared} (h : system.enter r n s = some s') :
    n.plain = true ∧ enter r n s = some s' := by
  simp only [system] at h
  split at h
  · exact ⟨‹_›, h⟩
  · cases h

/-- The directories of `ensure_layout`. -/
def layout : List String := ["observations", "products", "logs", "trash", "quarantine"]

/-- An empty store over an empty layout, and no controller. -/
def initial : Shared where
  db := Db.empty
  disk := { root := .dir 0 (layout.map fun d => (d, .dir 0 [])), mtime := fun _ => 0 }
  ctl := { up := false, cfg := { storageThreshold := 0, observationReservation := 0 },
           tasks := [], cache := none, free := 0 }
  runners := []
  containers := []
  produced := []
  nextIno := 1
  purged := []
  dropped := []

def start : World Op.Reply Exn Shared Role Entry := { shared := initial, procs := [] }

end Sdpctl
