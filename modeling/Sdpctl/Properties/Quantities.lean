import Sdpctl.Quantity

/-!
`parse_bytes` on every text, and the round trip of a whole number with its unit.
-/

namespace Sdpctl

/-- What `parse_bytes` makes of a text, case by case: a number of bytes, an overflow, an unknown
unit, or a text that does not match. -/
inductive Parsed (s : String) : Except BytesError Nat → Prop where
  /-- A number of bytes, close to what is written, and equal to it where double
  precision suffices. -/
  | bytes {whole frac unit : List Char} {factor n : Nat}
      (written : Written s.toList whole frac unit)
      (known : units.lookup (upper unit) = some factor)
      (close : |(n : ℚ) - numeral whole frac * factor| ≤
        numeral whole frac * factor / 2 ^ 51 + 2)
      (exact : ∀ (m : ℕ) (e : ℤ) (k : ℕ), numeral whole frac = m * 2 ^ e → m < 2 ^ 53 →
        -1074 ≤ e → numeral whole frac * factor = k → k ≤ 2 ^ 53 → n = k) :
      Parsed s (.ok n)
  /-- Nothing but an astronomical quantity overflows. -/
  | infinite {whole frac unit : List Char} {factor : Nat}
      (written : Written s.toList whole frac unit)
      (known : units.lookup (upper unit) = some factor)
      (huge : (2 : ℚ) ^ (1023 : ℤ) ≤ numeral whole frac * factor) :
      Parsed s (.error .overflowError)
  | unsupported {whole frac unit : List Char} (written : Written s.toList whole frac unit)
      (unknown : units.lookup (upper unit) = none) :
      Parsed s (.error (.valueError ("unsupported byte unit: " ++ upper unit)))
  | invalid (malformed : ∀ whole frac unit, ¬ Written s.toList whole frac unit) :
      Parsed s (.error (.invalidQuantity s))

theorem numeral_nonneg (whole frac : List Char) : 0 ≤ numeral whole frac := by
  unfold numeral
  positivity

/-- `parse_bytes` reads every text as its regular expression and double precision say: a text
that matches comes to a number close to what is written, and equal to it where double precision
suffices; what does not match, an unknown unit and an overflow each raise their own error. -/
theorem parse_bytes_text (s : String) : Parsed s (parseBytes (.text s)) := by
  cases hmatch : matchQuantity s.toList with
  | none =>
    simp only [parseBytes, hmatch]
    refine .invalid fun whole frac unit hwritten => ?_
    rw [matchQuantity_iff.mpr hwritten] at hmatch
    cases hmatch
  | some fields =>
    obtain ⟨whole, frac, unit⟩ := fields
    have hwritten := matchQuantity_iff.mp hmatch
    have hnonneg := numeral_nonneg whole frac
    cases hunit : units.lookup (upper unit) with
    | none =>
      simp only [parseBytes, hmatch, hunit]
      exact .unsupported hwritten hunit
    | some factor =>
      obtain ⟨hpos, hfactor⟩ := factor_bounds hunit
      cases hscaled : scaled (numeral whole frac) factor with
      | none =>
        simp only [parseBytes, hmatch, hunit, hscaled]
        exact .infinite hwritten hunit (scaled_none hnonneg hpos hfactor hscaled)
      | some n =>
        simp only [parseBytes, hmatch, hunit, hscaled]
        refine .bytes hwritten hunit (scaled_close hnonneg hfactor hscaled) ?_
        intro m e k hx hm he hproduct hk
        have hexact := scaled_exact hx hm he hpos hproduct hk
        rw [hscaled] at hexact
        exact Option.some.inj hexact

section RoundTrip

theorem decimal_ascii {c : Char} (h : c.isDigit = true) :
    decimal? c = some (c.toNat - 48) := by
  have hcode : 48 ≤ c.toNat ∧ c.toNat < 58 := by
    simp only [Char.isDigit, Bool.and_eq_true, decide_eq_true_eq] at h
    exact ⟨h.1, Nat.lt_succ_of_le h.2⟩
  have hfind : decimalZeros.find? (fun z => decide (z ≤ c.toNat) && decide (c.toNat < z + 10)) =
      some 48 := List.find?_cons_of_pos (by simpa using hcode)
  rw [decimal?, hfind]
  rfl

theorem digitsValue_repr (n : Nat) : digitsValue n.repr.toList = n := by
  have hfold : ∀ (cs : List Char) (value : Nat), (∀ c ∈ cs, c.isDigit = true) →
      cs.foldl (fun value c => 10 * value + (decimal? c).getD 0) value =
        Nat.ofDigitChars 10 cs value := by
    intro cs
    induction cs with
    | nil => exact fun _ _ => rfl
    | cons c rest ih =>
      intro value hcs
      rw [List.foldl_cons, ih _ fun x hx => hcs x (by simp [hx]), decimal_ascii (hcs c (by simp))]
      rfl
  rw [digitsValue, Nat.toList_repr, hfold _ _ fun c hc =>
    Nat.isDigit_of_mem_toDigits (by decide) (by decide) hc, Nat.ofDigitChars_ten_toDigits]

/-- A whole number with its unit comes back exactly, up to `2 ^ 53` bytes; spaces may
stand around both, and letters in either case. -/
theorem parse_bytes_repr {d factor : Nat} {unit before between after : String}
    (hspaces : (before.toList ++ between.toList ++ after.toList).all isSpace = true)
    (hletters : unit.toList.all isLetter = true)
    (hunit : units.lookup (upper unit.toList) = some factor) (hbound : d * factor ≤ 2 ^ 53) :
    parseBytes (.text (before ++ d.repr ++ between ++ unit ++ after)) = .ok (d * factor) := by
  obtain ⟨hpos, _⟩ := factor_bounds hunit
  have hnamed : unit.toList ≠ [] := by
    intro hnil
    have hempty : units.lookup (upper []) = none := by decide
    rw [hnil, hempty] at hunit
    cases hunit
  have hwritten : Written (before ++ d.repr ++ between ++ unit ++ after).toList d.repr.toList []
      unit.toList := by
    refine ⟨?_, List.all_eq_true.mp hletters, ?_, hnamed, before.toList, between.toList,
      after.toList, List.all_eq_true.mp hspaces, ?_⟩
    · intro c hc
      rw [List.append_nil, Nat.toList_repr] at hc
      have hdigit := Nat.isDigit_of_mem_toDigits (by decide) (by decide) hc
      simp [isDecimal, decimal_ascii hdigit]
    · rw [Nat.toList_repr]
      exact Nat.toDigits_ne_nil
    · simp [pointed, String.toList_append]
  have hnumeral : numeral d.repr.toList [] = d := by
    simp only [numeral, List.append_nil, digitsValue_repr, List.length_nil, pow_zero, div_one]
  have hd : d ≤ 2 ^ 53 := le_trans (Nat.le_mul_of_pos_right d hpos) hbound
  have hscaled : scaled d factor = some (d * factor) := by
    rw [scaled, round_natCast hd, Option.bind_some, ← Nat.cast_mul, round_natCast hbound,
      Option.map_some, Int.floor_natCast, Int.toNat_natCast]
  simp only [parseBytes, matchQuantity_iff.mpr hwritten, hunit, hnumeral, hscaled]

/-- Ten gibibytes are read from their usual text, with a space before the unit. -/
theorem parse_bytes_repr_ten : parseBytes (.text "10GiB") = .ok (10 * 1024 ^ 3) :=
  @parse_bytes_repr 10 (1024 ^ 3) "GiB" "" "" "" rfl rfl rfl (by decide)

/-- The product is not rounded down to the number before. -/
example : parseBytes (.text "0.57KB") = .ok 570 := by decide +kernel

/-- Beyond `2 ^ 53` the last byte is lost. -/
example : parseBytes (.text "9007199254740993B") = .ok 9007199254740992 := by decide +kernel

end RoundTrip

/-- A controller starts with a valid configuration, whose two sizes are those of the file. -/
theorem loadConfig_valid {raw : RawConfig} {cfg : Config} (h : loadConfig raw = .ok cfg) :
    cfg.Valid ∧ parseBytes raw.storageThreshold = .ok cfg.storageThreshold ∧
      parseBytes raw.observationReservation = .ok cfg.observationReservation := by
  simp only [loadConfig, bind, Except.bind, pure, Except.pure, throw, throwThe,
    MonadExceptOf.throw] at h
  generalize (if raw.reservationOverrunAction = "warn" then OverrunAction.warn else .abort) =
    action at h
  split at h
  · cases h
  cases hthreshold : parseBytes raw.storageThreshold with
  | error e => simp [hthreshold] at h
  | ok threshold =>
    cases hreservation : parseBytes raw.observationReservation with
    | error e => simp [hthreshold, hreservation] at h
    | ok reservation =>
      cases hfake : parseBytes raw.fakeObservationSize with
      | error e => simp [hthreshold, hreservation, hfake] at h
      | ok fake =>
        simp only [hthreshold, hreservation, hfake] at h
        split_ifs at h with hroom hparallel hattempts
        cases h
        refine ⟨⟨not_lt.mp hroom, ?_, ?_⟩, rfl, rfl⟩
        · change 1 ≤ raw.maxParallelProcessing.toNat
          omega
        · change 1 ≤ raw.maxProcessingAttempts.toNat
          omega

end Sdpctl
