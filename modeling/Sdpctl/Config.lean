import Sdpctl.Rounding
import Sdpctl.Runners.Container

/-!
`config.py`: quantities of bytes as text, and the checks on a configuration. A text goes
through the decimal digits of any script and through double precision, as it does in the
source.
-/

namespace Sdpctl

/-- The decimal digits zero of Unicode 14: each begins a block of ten. -/
def decimalZeros : List Nat :=
  [0x30, 0x660, 0x6f0, 0x7c0, 0x966, 0x9e6, 0xa66, 0xae6, 0xb66, 0xbe6, 0xc66, 0xce6, 0xd66, 0xde6,
    0xe50, 0xed0, 0xf20, 0x1040, 0x1090, 0x17e0, 0x1810, 0x1946, 0x19d0, 0x1a80, 0x1a90, 0x1b50,
    0x1bb0, 0x1c40, 0x1c50, 0xa620, 0xa8d0, 0xa900, 0xa9d0, 0xa9f0, 0xaa50, 0xabf0, 0xff10, 0x104a0,
    0x10d30, 0x11066, 0x110f0, 0x11136, 0x111d0, 0x112f0, 0x11450, 0x114d0, 0x11650, 0x116c0,
    0x11730, 0x118e0, 0x11950, 0x11c50, 0x11d50, 0x11da0, 0x16a60, 0x16ac0, 0x16b50,
    0x1d7ce, 0x1d7d8, 0x1d7e2, 0x1d7ec, 0x1d7f6, 0x1e140, 0x1e2f0, 0x1e950, 0x1fbf0]

def decimal? (c : Char) : Option Nat :=
  (decimalZeros.find? fun z => decide (z ≤ c.toNat) && decide (c.toNat < z + 10)).map
    fun z => c.toNat - z

/-- `\d`. -/
def isDecimal (c : Char) : Bool := (decimal? c).isSome

/-- `[A-Za-z]`. -/
def isLetter (c : Char) : Bool :=
  let n := c.toNat
  (65 ≤ n && n ≤ 90) || (97 ≤ n && n ≤ 122)

/-- The optional `\.\d+`, and what comes after it. -/
def fraction (cs : List Char) : List Char × List Char :=
  if cs.head? = some '.' ∧ cs.tail.takeWhile isDecimal ≠ [] then
    (cs.tail.takeWhile isDecimal, cs.tail.dropWhile isDecimal)
  else ([], cs)

/-- A fraction behind its point, unless there is none. -/
def pointed (frac : List Char) : List Char := if frac = [] then [] else '.' :: frac

/-- `re.fullmatch`: the digits before and after the point, and the unit. -/
def matchQuantity (text : List Char) : Option (List Char × List Char × List Char) :=
  let number := text.dropWhile isSpace
  let whole := number.takeWhile isDecimal
  let (frac, rest) := fraction (number.dropWhile isDecimal)
  let rest := rest.dropWhile isSpace
  let unit := rest.takeWhile isLetter
  let rest := (rest.dropWhile isLetter).dropWhile isSpace
  if whole = [] ∨ unit = [] ∨ rest ≠ [] then none else some (whole, frac, unit)

/-- `_UNITS`. -/
def units : List (String × Nat) :=
  [("B", 1), ("KB", 1000), ("MB", 1000 ^ 2), ("GB", 1000 ^ 3), ("TB", 1000 ^ 4),
    ("KIB", 1024), ("MIB", 1024 ^ 2), ("GIB", 1024 ^ 3), ("TIB", 1024 ^ 4)]

/-- `unit.upper()`. -/
def upper (unit : List Char) : String := String.ofList (unit.map Char.toUpper)

def digitsValue (digits : List Char) : Nat :=
  digits.foldl (fun value c => 10 * value + (decimal? c).getD 0) 0

/-- The number that is written, with its digits after the point. -/
def numeral (whole frac : List Char) : ℚ :=
  (digitsValue (whole ++ frac) : ℚ) / 10 ^ frac.length

/-- `int(float(n) * unit)`, unless the product is infinite. -/
def scaled (x : ℚ) (factor : Nat) : Option Nat :=
  (Rounding.double.round x).bind fun n =>
    (Rounding.double.round (n * factor)).map fun product => ⌊product⌋.toNat

/-- The argument of `parse_bytes`. -/
inductive ByteValue where
  | int (n : Int)
  | text (s : String)
  deriving DecidableEq, Repr

/-- What `parse_bytes` raises; the message of `invalidQuantity` quotes the value. -/
inductive BytesError where
  | valueError (message : String)
  | invalidQuantity (value : String)
  | overflowError
  deriving DecidableEq, Repr

/-- `parse_bytes`. -/
def parseBytes : ByteValue → Except BytesError Nat
  | .int n =>
    if n < 0 then .error (.valueError "byte value cannot be negative") else .ok n.toNat
  | .text s =>
    match matchQuantity s.toList with
    | none => .error (.invalidQuantity s)
    | some (whole, frac, unit) =>
      match units.lookup (upper unit) with
      | none => .error (.valueError ("unsupported byte unit: " ++ upper unit))
      | some factor =>
        match scaled (numeral whole frac) factor with
        | none => .error .overflowError
        | some n => .ok n

/-- The values of a file that scheduling reads, with their defaults. -/
structure RawConfig where
  storageThreshold : ByteValue
  observationReservation : ByteValue
  maxParallelProcessing : Int := 3
  maxProcessingAttempts : Int := 1
  maxObservations : Option Nat := none
  reservationOverrunAction : String := "abort"
  fakeObservationSize : ByteValue := .text "20MiB"
  deriving DecidableEq, Repr

/-- `load_config`, from the values of the file. -/
def loadConfig (raw : RawConfig) : Except BytesError Config := do
  let action := raw.reservationOverrunAction
  if action ≠ "abort" ∧ action ≠ "warn" then
    throw (.valueError "reservation_overrun_action must be 'abort' or 'warn'")
  let storageThreshold ← parseBytes raw.storageThreshold
  let observationReservation ← parseBytes raw.observationReservation
  let _ ← parseBytes raw.fakeObservationSize
  if storageThreshold < observationReservation then
    throw (.valueError "observation_reservation exceeds storage_threshold")
  if raw.maxParallelProcessing < 1 then
    throw (.valueError "max_parallel_processing must be >= 1")
  if raw.maxProcessingAttempts < 1 then
    throw (.valueError "max_processing_attempts must be >= 1")
  return {
    storageThreshold, observationReservation
    maxParallelProcessing := raw.maxParallelProcessing.toNat
    maxProcessingAttempts := raw.maxProcessingAttempts.toNat
    maxObservations := raw.maxObservations
    reservationOverrunAction := if action = "warn" then .warn else .abort }

end Sdpctl
