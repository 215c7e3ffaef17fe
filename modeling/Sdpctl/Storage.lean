import Sdpctl.Effects

/-!
`sizing.py` and `storage.py`: what a tree weighs, what quarantine and trash
are charged, and the three ways in which raw data moves or goes away.
-/

namespace Sdpctl

open FileTree Coop

/-- One entry of the walk: a file that vanished on the way counts nothing. -/
def childSize (total : Nat) (child : Path) : M Nat :=
  tryCatch
    (do
      if ← call (.isFile child) then
        let size ← call (.statSize child)
        return total + size
      else
        return total)
    fun e =>
      match e with
      | .fileNotFoundError _ => pure total
      | e => throw e

/-- `apparent_size`. -/
def apparentSize (p : Path) : M Nat := do
  if !(← call (.exists_ p)) then
    return 0
  else if ← call (.isFile p) then
    call (.statSize p)
  else
    let children ← call (.rglob p)
    Prog.foldEach children 0 childSize

def quarantineRoot : Path := ["quarantine"]

def trashRoot : Path := ["trash"]

def observationsRoot : Path := ["observations"]

/-- One component of the signature: the modification time, or -1. -/
def mtimeOrMissing (p : Path) : M Int := do
  if ← call (.exists_ p) then
    let t ← call (.statMtime p)
    return (t : Int)
  else
    return -1

/-- `_mtime_signature`. -/
def mtimeSignature : M (Int × Int) := do
  let q ← mtimeOrMissing quarantineRoot
  let t ← mtimeOrMissing trashRoot
  return (q, t)

/-- `invalidate_auxiliary_cache`. -/
def invalidateAuxiliaryCache : M Unit := do
  let _ ← call (.resolve [])
  call .cachePop

/-- `auxiliary_charged_storage`: the bytes of quarantine and of trash. -/
def auxiliaryChargedStorage (force : Bool) : M (Nat × Nat) := do
  let _ ← call (.resolve [])
  let sig ← mtimeSignature
  let cached ← call .cacheGet
  let walk : M (Nat × Nat) := do
    let q ← apparentSize quarantineRoot
    let t ← apparentSize trashRoot
    call (.cachePut (sig, (q, t)))
    return (q, t)
  match cached with
  | some (old, sizes) => if !force && old == sig then return sizes else walk
  | none => walk

def productsRoot : Path := ["products"]

/-- `PhysicalStorage`. -/
structure PhysicalStorage where
  managedRaw : Nat
  quarantine : Nat
  trash : Nat
  products : Nat
  deriving DecidableEq, Repr

/-- `physical_snapshot`. -/
def physicalSnapshot : M PhysicalStorage := do
  let (quarantine, trash) ← auxiliaryChargedStorage true
  let managedRaw ← apparentSize observationsRoot
  let products ← apparentSize productsRoot
  return { managedRaw, quarantine, trash, products }

/-- `base.with_name(f"{base.name}.{n:03d}")`. -/
def suffixed (label : String) (n : Nat) : String := label ++ "." ++ padded 3 n

/-- The numbered candidates, from `n` on. -/
def searchTarget (label : String) : Nat → Nat → M Path
  | 0, _ => do
      call .diverge
      throw (.runtimeError "unreachable")
  | fuel + 1, n => do
      let candidate := quarantineEntry (suffixed label n)
      if !(← call (.exists_ candidate)) then
        return candidate
      else
        searchTarget label fuel (n + 1)

/-- `_unique_quarantine_target`. The search is bounded by the number of entries:
nobody adds one meanwhile, so some numbered name is free before that. -/
def uniqueQuarantineTarget (label : String) : M Path := do
  let base := quarantineEntry label
  if !(← call (.exists_ base)) then
    return base
  else
    let bound ← call (.entryCount quarantineRoot)
    searchTarget label bound 1

/-- `quarantine_path`: move data without ever replacing an earlier item. -/
def quarantinePath (source : Path) (label : String) : M Path := do
  if !(← call (.exists_ source)) then
    throw (.fileNotFoundError source)
  else
    let q ← uniqueQuarantineTarget label
    call (.mkdir (parent q))
    call (.rename source q)
    invalidateAuxiliaryCache
    return q

def removeTree (p : Path) : M Unit := do
  if ← call (.isDir p) then
    call (.rmtree p)
  else
    call (.unlink p)

/-- The first half of a deletion: a live copy is renamed into the trash. -/
def moveLiveToTrash (oid : Nat) (src trash : Path) : M Unit := do
  if ← call (.exists_ src) then
    if ← call (.exists_ trash) then
      throw (.runtimeError
        ("both live and trash copies exist for observation " ++ toString oid))
    else
      call (.rename src trash)
      invalidateAuxiliaryCache
  else
    pure ()

/-- The second half: what is in the trash is removed. -/
def emptyTrash (trash : Path) : M Unit := do
  if ← call (.exists_ trash) then
    removeTree trash
    invalidateAuxiliaryCache
  else
    pure ()

/-- `finish_observation_deletion`. -/
def finishObservationDeletion (oid : Nat) : M Unit := do
  let obs ← store (.getObservation oid)
  if obs.state ≠ .deleting then
    throw (.valueError "observation is not DELETING")
  else
    call (.mkdir (parent (trashPath obs.id)))
    moveLiveToTrash obs.id obs.msPath (trashPath obs.id)
    emptyTrash (trashPath obs.id)
    store (.transitionObservation obs.id .deleting .deleted "raw visibility removed"
      (some 0) (some 0) none)

/-- One side of the rename boundary, removed if it is there. -/
def dropCopy (p : Path) : M Unit := do
  if ← call (.exists_ p) then
    removeTree p
  else
    pure ()

/-- `force_drop_observation_data`. -/
def forceDropObservationData (oid : Nat) (reason : String) : M Unit := do
  let obs ← store (.getObservation oid)
  if obs.state ≠ .deleting ∧ obs.state ≠ .inconsistent then
    throw (.valueError "observation is neither DELETING nor INCONSISTENT")
  else
    Prog.forEach [obs.msPath, trashPath obs.id] dropCopy
    invalidateAuxiliaryCache
    store (.transitionObservation obs.id obs.state .deleted reason (some 0) (some 0)
      (some "operator resolved recovery inconsistency by dropping raw data"))

end Sdpctl
