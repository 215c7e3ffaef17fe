import Sdpctl.Qa

/-!
`quarantine purge` of `cli.py` with any string for a name, on the whole file
system: how `pathlib` joins the name, how the operating system follows it, and
what the removal does there.
-/

namespace Sdpctl

open FileTree

def splitSlash : List Char → List (List Char)
  | [] => [[]]
  | c :: cs =>
    if c = '/' then [] :: splitSlash cs
    else
      match splitSlash cs with
      | [] => [[c]]
      | part :: rest => (c :: part) :: rest

/-- The components that `Path` keeps of a string. -/
def components (name : String) : List String :=
  ((splitSlash name.toList).map String.ofList).filter fun c => c != "" && c != "."

/-- The string starts with a slash; then it replaces what it is joined to. -/
def isAbsolute (name : String) : Bool := name.toList.head? == some '/'

/-- The operating system follows the components from a directory. Each must be
looked up in a directory; above the root is the root. -/
def walk (fs : Tree) : Path → List String → Option Path
  | p, [] => some p
  | p, c :: rest =>
    if (fs.get? p).any Tree.isDir then walk fs (if c = ".." then p.dropLast else p ++ [c]) rest
    else none

/-- `cfg.data_root / "quarantine"`. -/
def quarantineDir (dataRoot : Path) : Path := dataRoot ++ ["quarantine"]

/-- What `cfg.data_root / "quarantine" / args.name` names, if anything. -/
def purgeTarget (fs : Tree) (dataRoot : Path) (name : String) : Option Path :=
  (walk fs (if isAbsolute name then [] else quarantineDir dataRoot) (components name)).filter
    fun p => (fs.get? p).isSome

def endsAbove (name : String) : Bool := (components name).getLast? == some ".."

/-- `quarantine purge`. `shutil.rmtree` removes what is in a directory first, and
then the directory, which the system refuses for the root and for a name that
ends in `..`. -/
def purge (fs : Tree) (dataRoot : Path) (name : String) : Except Exn Unit × Tree :=
  match purgeTarget fs dataRoot name with
  | none => (.error (.runtimeError "not found"), fs)
  | some p =>
    match fs.get? p with
    | some (.dir i _) =>
      if endsAbove name || p.isEmpty then (.error (.osError p), fs.set p (some (.dir i [])))
      else (.ok (), fs.set p none)
    | _ => (.ok (), fs.set p none)

theorem splitSlash_of_no_slash {cs : List Char} (h : '/' ∉ cs) : splitSlash cs = [cs] := by
  induction cs with
  | nil => rfl
  | cons c cs ih =>
    rw [List.mem_cons, not_or] at h
    have hrest := ih h.2
    simp [splitSlash, Ne.symm h.1, hrest]

theorem components_plain {name : String} (h : plainName name = true) :
    components name = [name] ∧ isAbsolute name = false ∧ endsAbove name = false := by
  simp only [plainName, Bool.and_eq_true, bne_iff_ne, ne_eq, Bool.not_eq_true',
    List.contains_eq_mem, decide_eq_false_iff_not] at h
  obtain ⟨⟨⟨hempty, hdot⟩, habove⟩, hslash⟩ := h
  have hcomponents : components name = [name] := by
    simp [components, splitSlash_of_no_slash hslash, hempty, hdot]
  refine ⟨hcomponents, ?_, ?_⟩
  · cases hchars : name.toList with
    | nil => simp [isAbsolute, hchars]
    | cons c cs =>
      rw [hchars, List.mem_cons, not_or] at hslash
      simpa [isAbsolute, hchars] using Ne.symm hslash.1
  · simpa [endsAbove, hcomponents] using habove

end Sdpctl
