import Sdpctl.Models

/-!
The names that the controller derives from ids: `f"{id:06d}"` and the paths
built from it. A padded number determines the number, so different rows never
share a path.
-/

namespace Sdpctl

open FileTree

/-- `f"{n:0wd}"`. -/
def padded (w n : Nat) : String :=
  String.ofList (List.replicate (w - n.repr.length) '0') ++ n.repr

/-- `f"obs-{oid:06d}.ms"`. -/
def obsName (oid : Nat) : String := "obs-" ++ padded 6 oid ++ ".ms"

/-- `data_root / "observations" / f"obs-{oid:06d}.ms"`. -/
def msPathOf (oid : Nat) : Path := ["observations", obsName oid]

/-- `root / "trash" / f"obs-{obs.id:06d}.ms"`. -/
def trashPath (oid : Nat) : Path := ["trash", obsName oid]

/-- An entry of `root / "quarantine"`. -/
def quarantineEntry (name : String) : Path := ["quarantine", name]

/-- `data_root / "products" / f"obs-{oid:06d}" / f"run-{attempt:03d}"`. -/
def outputDir (oid attempt : Nat) : Path :=
  ["products", "obs-" ++ padded 6 oid, "run-" ++ padded 3 attempt]

/-- `data_root / "logs" / f"process-{oid:06d}-{attempt:03d}.log"`. -/
def processLog (oid attempt : Nat) : Path :=
  ["logs", "process-" ++ padded 6 oid ++ "-" ++ padded 3 attempt ++ ".log"]

/-- `data_root / "logs" / f"observe-{oid:06d}.log"`. -/
def observeLog (oid : Nat) : Path := ["logs", "observe-" ++ padded 6 oid ++ ".log"]

/-- `path.parent`. -/
def parent (p : Path) : Path := p.dropLast

/-- `str(prefix) + suffix`, which extends the last component. -/
def withSuffix (p : Path) (suffix : String) : Path :=
  p.dropLast ++ [p.getLastD "" ++ suffix]

/-- The number that a string of decimal digits denotes. -/
def decimalValue (s : String) : Nat := Nat.ofDigitChars 10 s.toList 0

theorem decimalValue_padded (w n : Nat) : decimalValue (padded w n) = n := by
  unfold decimalValue padded
  rw [String.toList_append, String.toList_ofList, Nat.ofDigitChars_append,
    Nat.ofDigitChars_replicate_zero, Nat.mul_zero, Nat.toList_repr,
    Nat.ofDigitChars_ten_toDigits]

theorem padded_injective (w : Nat) : Function.Injective (padded w) := by
  intro n m h
  rw [← decimalValue_padded w n, h, decimalValue_padded]

theorem append_left_cancel {a b c : String} (h : a ++ b = a ++ c) : b = c := by
  have hlist := congrArg String.toList h
  rw [String.toList_append, String.toList_append] at hlist
  exact String.toList_inj.mp (List.append_cancel_left hlist)

theorem append_right_cancel {a b c : String} (h : a ++ c = b ++ c) : a = b := by
  have hlist := congrArg String.toList h
  rw [String.toList_append, String.toList_append] at hlist
  exact String.toList_inj.mp (List.append_cancel_right hlist)

theorem obsName_injective : Function.Injective obsName := fun _ _ h =>
  padded_injective 6 (append_left_cancel (append_right_cancel h))

@[simp] theorem obsName_inj {i j : Nat} : obsName i = obsName j ↔ i = j :=
  obsName_injective.eq_iff

@[simp] theorem msPathOf_inj {i j : Nat} : msPathOf i = msPathOf j ↔ i = j := by
  simp [msPathOf]

@[simp] theorem trashPath_inj {i j : Nat} : trashPath i = trashPath j ↔ i = j := by
  simp [trashPath]

end Sdpctl
