import Sdpctl.Coop.Solo
import Sdpctl.Runners.Container

/-!
What the container runner asks an engine to run, and what an engine does with the
commands of the runner. The engine itself is known by the laws of its documentation
only; `Engine.plain` is one that keeps them.
-/

namespace Sdpctl

open FileTree Coop

/-- The settings of `ContainerRunner`. -/
structure ContainerRunner where
  executable : String
  image : String
  observeScript : String
  processScript : String
  dataRoot : String

namespace ContainerRunner

variable (R : ContainerRunner)

/-- `rel.as_posix()`. -/
def asPosix (p : Path) : String := if p = [] then "." else "/".intercalate p

/-- `_container_path`, for a resolved path below `data_root`. -/
def containerPath (p : Path) : String := "/data/" ++ asPosix p

def observeName (oid : Nat) : String := "sdpctl-observe-" ++ padded 6 oid

def processName (oid rid : Nat) : String := "sdpctl-process-" ++ padded 6 oid ++ "-" ++ padded 6 rid

/-- The command of `observe`. -/
def observeArgs (oid : Nat) (msPath : Path) : List String :=
  [R.executable, "run", "--rm", "--name", observeName oid, "--label", "sdpctl.managed=true",
    "--label", "sdpctl.kind=observation", "--label", "sdpctl.observation_id=" ++ toString oid,
    "-v", R.dataRoot ++ ":/data", R.image, R.observeScript, containerPath msPath]

/-- The command of `process`. -/
def processArgs (oid rid : Nat) (msPath outputPrefix : Path) : List String :=
  [R.executable, "run", "--rm", "--name", processName oid rid, "--label", "sdpctl.managed=true",
    "--label", "sdpctl.kind=processing", "--label", "sdpctl.observation_id=" ++ toString oid,
    "--label", "sdpctl.run_id=" ++ toString rid, "-v", R.dataRoot ++ ":/data", R.image,
    R.processScript, containerPath msPath, containerPath outputPrefix]

/-- `_run`. -/
def run (args : List String) (logPath : Path) : M Int := do
  call (.mkdir (parent logPath))
  let reply ← call (.command args)
  return reply.status

/-- `observe`. -/
def observe (oid : Nat) (msPath logPath : Path) : M Int := do
  call (.mkdir (parent msPath))
  let resolved ← call (.resolve msPath)
  run (R.observeArgs oid resolved) logPath

/-- `process`. -/
def process (oid rid : Nat) (msPath outputPrefix logPath : Path) : M Int := do
  call (.mkdir (parent outputPrefix))
  let resolved ← call (.resolve msPath)
  let resolvedPrefix ← call (.resolve outputPrefix)
  run (R.processArgs oid rid resolved resolvedPrefix) logPath

end ContainerRunner

/-- The parts of a text before and after its first `=`. -/
def cut (s : String) : String × String :=
  (String.ofList (s.toList.takeWhile (· ≠ '=')),
    String.ofList ((s.toList.dropWhile (· ≠ '=')).drop 1))

def IsWord (s : String) : Prop := s.toList ≠ [] ∧ s.toList.all (fun c => !isSpace c) = true

structure Container where
  /-- As `ps -q` prints it. -/
  id : String
  name : String
  labels : List (String × String)
  word : IsWord id

def Container.startsWith (c : Container) (start : String) : Bool :=
  start.toList.isPrefixOf c.id.toList

/-- `--filter`, by a label and its value or by the start of the id. -/
def Container.passes (c : Container) (filter : String) : Bool :=
  if (cut filter).1 = "label" then decide (cut (cut filter).2 ∈ c.labels)
  else if (cut filter).1 = "id" then c.startsWith (cut filter).2
  else false

def Container.selected (c : Container) (filters : List String) : Bool := filters.all c.passes

/-- What `run` is told. -/
structure RunSpec where
  name : String := ""
  labels : List (String × String) := []
  volumes : List String := []
  image : String := ""
  command : List String := []
  deriving DecidableEq, Repr

/-- The arguments of `run`, as far as the runner uses them. -/
def RunSpec.parse (spec : RunSpec) : List String → Option RunSpec
  | [] => none
  | [image] => some { spec with image }
  | flag :: value :: rest =>
      if flag = "--rm" then spec.parse (value :: rest)
      else if flag = "--name" then { spec with name := value }.parse rest
      else if flag = "--label" then { spec with labels := spec.labels ++ [cut value] }.parse rest
      else if flag = "-v" then { spec with volumes := spec.volumes ++ [value] }.parse rest
      else some { spec with image := flag, command := value :: rest }

/-- The container is one that a `run` with these arguments makes. -/
def Container.RanBy (c : Container) (args : List String) : Prop :=
  ∃ spec : RunSpec, RunSpec.parse {} (args.drop 2) = some spec ∧ c.name = spec.name ∧
    c.labels = spec.labels

/-- What an engine does with a command: its answer, and the containers afterwards. -/
abbrev Engine := List String → List Container → Except Exn CommandResult → List Container → Prop

/-- An engine that can be reached, as far as listings and removals go. -/
structure Engine.Lawful (engine : Engine) (executable : String) : Prop where
  looks : ∀ {filters cs x cs'}, engine (psArgs executable filters) cs x cs' → cs' = cs
  /-- A listing succeeds, and names the containers that the filters select. -/
  lists : ∀ {filters cs r cs'}, engine (psArgs executable filters) cs (.ok r) cs' →
    r.status = 0 ∧ ∀ id, id ∈ words r.out ↔ ∃ c ∈ cs, c.selected filters = true ∧ c.id = id
  /-- A removal removes at most what it names, by the start of its id or by its name. -/
  removes : ∀ {id cs x cs'}, engine [executable, "rm", "-f", id] cs x cs' → cs' ⊆ cs ∧
    ∀ c ∈ cs, c.startsWith id = false → c.name ≠ id → c ∈ cs'

/-- The engine answers, and removes what it is asked to remove. -/
structure Engine.Prompt (engine : Engine) (executable : String) : Prop where
  answers : ∀ {args cs x cs'}, engine args cs x cs' → ∃ r, x = .ok r
  removed : ∀ {id cs x cs'}, engine [executable, "rm", "-f", id] cs x cs' →
    ∀ c ∈ cs', c.startsWith id = false

/-- The operations of the gate on an engine; before each of them `others` happens to the
containers. -/
def served (engine : Engine) (others : List Container → List Container → Prop) :
    (o : Op) → List Container → Except Exn o.Reply → List Container → Prop
  | .command args, cs, x, cs' => ∃ mid, others cs mid ∧ engine args mid x cs'
  | .sleep, cs, x, cs' => x = .ok () ∧ others cs cs'
  | _, _, _, _ => False

section Plain

def filterFlags : List String → List String
  | _ :: value :: rest => value :: filterFlags rest
  | _ => []

def unlines (ids : List String) : String :=
  String.ofList (ids.flatMap fun id => id.toList ++ ['\n'])

def Engine.reply (executable : String) (args : List String) (cs : List Container) :
    CommandResult × List Container :=
  if args.take 3 = [executable, "ps", "-aq"] then
    let listed := cs.filter fun c => c.selected (filterFlags (args.drop 3))
    (⟨0, unlines (listed.map Container.id)⟩, cs)
  else if args.take 3 = [executable, "rm", "-f"] then
    (⟨0, ""⟩, cs.filter fun c => !(args.drop 3).any fun id => c.startsWith id || c.name == id)
  else (⟨125, ""⟩, cs)

def Engine.plain (executable : String) : Engine := fun args cs x cs' =>
  x = .ok (Engine.reply executable args cs).1 ∧ cs' = (Engine.reply executable args cs).2

variable {executable : String}

theorem splitWords_word {letters more : List Char} (h : ∀ c ∈ letters, isSpace c = false)
    (before : List Char) :
    splitWords before (letters ++ more) = splitWords (letters.reverse ++ before) more := by
  induction letters generalizing before with
  | nil => rfl
  | cons c rest ih =>
    have hc : isSpace c = false := h c (by simp)
    have hrest : ∀ d ∈ rest, isSpace d = false := fun d hd => h d (by simp [hd])
    rw [List.cons_append, splitWords, if_neg (by simp [hc]), ih hrest]
    simp

theorem words_unlines {ids : List String} (h : ∀ id ∈ ids, IsWord id) :
    words (unlines ids) = ids := by
  unfold words unlines
  rw [String.toList_ofList]
  induction ids with
  | nil => rfl
  | cons id rest ih =>
    obtain ⟨hne, hall⟩ := h id (by simp)
    have hletters : ∀ c ∈ id.toList, isSpace c = false := by simpa using hall
    rw [List.flatMap_cons, List.append_assoc, splitWords_word hletters, List.append_nil,
      List.singleton_append, splitWords, if_pos (by decide), endWord,
      ih fun i hi => h i (by simp [hi]), List.reverse_reverse, String.ofList_toList]
    simp [hne]

theorem filterFlags_flags (filters : List String) :
    filterFlags (filters.flatMap fun f => ["--filter", f]) = filters := by
  induction filters with
  | nil => rfl
  | cons f rest ih => simpa [filterFlags] using ih

theorem Engine.reply_list (filters : List String) (cs : List Container) :
    Engine.reply executable (psArgs executable filters) cs =
      (⟨0, unlines ((cs.filter fun c => c.selected filters).map Container.id)⟩, cs) := by
  simp [Engine.reply, psArgs, filterFlags_flags]

theorem Engine.reply_remove (id : String) (cs : List Container) :
    Engine.reply executable [executable, "rm", "-f", id] cs =
      (⟨0, ""⟩, cs.filter fun c => !(c.startsWith id || c.name == id)) := by
  simp [Engine.reply]

theorem Engine.plain_lawful (executable : String) :
    (Engine.plain executable).Lawful executable where
  looks := by
    rintro filters cs x cs' ⟨-, rfl⟩
    rw [reply_list]
  lists := by
    rintro filters cs r cs' ⟨hr, -⟩
    rw [reply_list] at hr
    cases hr
    refine ⟨rfl, fun id => ?_⟩
    rw [words_unlines]
    · simp [and_assoc]
    · intro i hi
      obtain ⟨c, _, rfl⟩ := List.mem_map.mp hi
      exact c.word
  removes := by
    rintro id cs x cs' ⟨-, rfl⟩
    rw [reply_remove]
    refine ⟨List.filter_subset_self _, fun c hc hid hname => ?_⟩
    simp [hc, hid, hname]

theorem Engine.plain_prompt (executable : String) :
    (Engine.plain executable).Prompt executable where
  answers := by
    rintro args cs x cs' ⟨rfl, -⟩
    exact ⟨_, rfl⟩
  removed := by
    rintro id cs x cs' ⟨-, rfl⟩ c hc
    rw [reply_remove] at hc
    simp only [List.mem_filter, Bool.not_eq_true', Bool.or_eq_false_iff] at hc
    exact hc.2.1

end Plain

end Sdpctl
