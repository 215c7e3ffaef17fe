import Sdpctl.Reconcile

/-!
`runners/container.py`: how managed containers are found and removed. The
executable is only known by what it replies to each command.
-/

namespace Sdpctl

open FileTree Coop

/-- `str.isspace`, for one character. -/
def isSpace (c : Char) : Bool :=
  let n := c.toNat
  (9 ≤ n && n ≤ 13) || (28 ≤ n && n ≤ 32) || n == 0x85 || n == 0xa0 || n == 0x1680
    || (0x2000 ≤ n && n ≤ 0x200a) || n == 0x2028 || n == 0x2029 || n == 0x202f || n == 0x205f
    || n == 0x3000

/-- A word that has ended, unless it is empty; its letters come in reverse. -/
def endWord (word : List Char) (rest : List String) : List String :=
  if word.isEmpty then rest else String.ofList word.reverse :: rest

/-- The words of a text, after the letters of an unfinished one. -/
def splitWords (word : List Char) : List Char → List String
  | [] => endWord word []
  | c :: cs => if isSpace c then endWord word (splitWords [] cs) else splitWords (c :: word) cs

/-- `out.split()`. -/
def words (out : String) : List String := splitWords [] out.toList

/-- The command that lists the containers under some filters. -/
def psArgs (executable : String) (filters : List String) : List String :=
  [executable, "ps", "-aq"] ++ filters.flatMap fun f => ["--filter", f]

/-- `_container_ids`. The exit status is not looked at. -/
def containerIds (executable : String) (filters : List String) : M (List String) := do
  let reply ← call (.command (psArgs executable filters))
  return words reply.out

/-- The polls of `_remove_and_wait_gone`, so many of them at most. -/
def waitGone (executable cid : String) : Nat → M Unit
  | 0 => throw (.runtimeError ("container " ++ cid ++ " still exists after rm -f"))
  | n + 1 => do
      let ids ← containerIds executable ["id=" ++ cid]
      if ids.isEmpty then
        pure ()
      else
        call .sleep
        waitGone executable cid n

/-- `_remove_and_wait_gone`. -/
def removeAndWaitGone (executable cid : String) : M Unit := do
  let _ ← call (.command [executable, "rm", "-f", cid])
  waitGone executable cid 100

/-- List the containers under some filters and remove each of them. -/
def removeListed (executable : String) (filters : List String) : M Unit := do
  let ids ← containerIds executable filters
  Prog.forEach ids (removeAndWaitGone executable)

def abortFilters (oid : Nat) : List String :=
  ["label=sdpctl.managed=true", "label=sdpctl.kind=observation",
    "label=sdpctl.observation_id=" ++ toString oid]

def managedFilters : List String := ["label=sdpctl.managed=true"]

namespace ContainerRunner

/-- `abort_observation`. -/
def abortObservation (executable : String) (oid : Nat) : M Unit :=
  removeListed executable (abortFilters oid)

/-- `kill_managed`. -/
def killManaged (executable : String) : M Unit := removeListed executable managedFilters

end ContainerRunner
end Sdpctl
