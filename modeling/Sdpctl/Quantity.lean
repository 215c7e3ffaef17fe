import Sdpctl.Config
import Mathlib.Data.List.TakeWhile
import Mathlib.Tactic.NormNum

/-!
The two halves of `parse_bytes`: what its expression matches, and how far a product in
double precision is from the number that is written.
-/

namespace Sdpctl

/-- `\s*(\d+(?:\.\d+)?)\s*([A-Za-z]+)\s*`. -/
structure Written (text whole frac unit : List Char) : Prop where
  digits : ∀ c ∈ whole ++ frac, isDecimal c = true
  letters : ∀ c ∈ unit, isLetter c = true
  counted : whole ≠ []
  named : unit ≠ []
  layout : ∃ a b c, (∀ x ∈ a ++ b ++ c, isSpace x = true) ∧
    text = a ++ (whole ++ (pointed frac ++ (b ++ (unit ++ c))))

section Classes

variable {c : Char}

theorem isDecimal_iff :
    isDecimal c = true ↔ ∃ z ∈ decimalZeros, z ≤ c.toNat ∧ c.toNat < z + 10 := by
  simp [isDecimal, decimal?]

theorem decimal_codes (h : isDecimal c = true) :
    48 ≤ c.toNat ∧ c.toNat < 58 ∨ 0x660 ≤ c.toNat ∧ c.toNat < 0x1680 ∨
      0x1680 < c.toNat ∧ c.toNat < 0x2000 ∨ 0x3000 < c.toNat := by
  have hzeros : ∀ z ∈ decimalZeros, z = 48 ∨ 0x660 ≤ z ∧ z + 10 ≤ 0x1680 ∨
      0x1680 < z ∧ z + 10 ≤ 0x2000 ∨ 0x3000 < z := by decide
  obtain ⟨z, hz, hlow, hhigh⟩ := isDecimal_iff.mp h
  have hzero := hzeros z hz
  omega

theorem decimal_not_space (h : isDecimal c = true) : isSpace c = false := by
  have hcodes := decimal_codes h
  simp only [isSpace, Bool.or_eq_false_iff, Bool.and_eq_false_iff, decide_eq_false_iff_not,
    beq_eq_false_iff_ne]
  omega

theorem decimal_not_letter (h : isDecimal c = true) : isLetter c = false := by
  have hcodes := decimal_codes h
  simp only [isLetter, Bool.or_eq_false_iff, Bool.and_eq_false_iff, decide_eq_false_iff_not]
  omega

theorem space_not_decimal (h : isSpace c = true) : isDecimal c = false := by
  by_contra hdecimal
  rw [decimal_not_space (by simpa using hdecimal)] at h
  cases h

theorem letter_not_decimal (h : isLetter c = true) : isDecimal c = false := by
  by_contra hdecimal
  rw [decimal_not_letter (by simpa using hdecimal)] at h
  cases h

theorem letter_not_space (h : isLetter c = true) : isSpace c = false := by
  simp only [isLetter, Bool.or_eq_true, Bool.and_eq_true, decide_eq_true_eq] at h
  simp only [isSpace, Bool.or_eq_false_iff, Bool.and_eq_false_iff, decide_eq_false_iff_not,
    beq_eq_false_iff_ne]
  omega

theorem space_not_letter (h : isSpace c = true) : isLetter c = false := by
  by_contra hletter
  rw [letter_not_space (by simpa using hletter)] at h
  cases h

end Classes

section Fields

variable {p : Char → Bool} {xs ys : List Char}

/-- The text does not go on with such a character. -/
def Stops (p : Char → Bool) (ys : List Char) : Prop := ∀ c ∈ ys.head?, p c = false

theorem takeWhile_field (hxs : ∀ c ∈ xs, p c = true) (hys : Stops p ys) :
    (xs ++ ys).takeWhile p = xs := by
  rw [List.takeWhile_append_of_pos hxs]
  cases ys with
  | nil => simp
  | cons y ys => simp [hys y (by simp)]

theorem dropWhile_field (hxs : ∀ c ∈ xs, p c = true) (hys : Stops p ys) :
    (xs ++ ys).dropWhile p = ys := by
  rw [List.dropWhile_append_of_pos hxs]
  cases ys with
  | nil => simp
  | cons y ys => simp [hys y (by simp)]

theorem Stops.append {q : Char → Bool} (hne : xs ≠ []) (hxs : ∀ c ∈ xs, q c = true)
    (hdisjoint : ∀ c, q c = true → p c = false) : Stops p (xs ++ ys) := by
  cases xs with
  | nil => exact absurd rfl hne
  | cons x xs =>
    intro c hc
    cases hc
    exact hdisjoint x (hxs x (by simp))

end Fields

section Grammar

variable {text whole frac unit rest : List Char}

theorem fraction_pointed (hfrac : ∀ c ∈ frac, isDecimal c = true) (hstop : Stops isDecimal rest)
    (hpoint : rest.head? ≠ some '.') : fraction (pointed frac ++ rest) = (frac, rest) := by
  unfold pointed
  by_cases hne : frac = []
  · simp [fraction, hne, hpoint]
  · have htake : (frac ++ rest).takeWhile isDecimal = frac := takeWhile_field hfrac hstop
    have hdrop : (frac ++ rest).dropWhile isDecimal = rest := dropWhile_field hfrac hstop
    simp [fraction, hne, htake, hdrop]

theorem fraction_append (cs : List Char) :
    cs = pointed (fraction cs).1 ++ (fraction cs).2 ∧
      ∀ c ∈ (fraction cs).1, isDecimal c = true := by
  unfold fraction
  split
  next h =>
    obtain ⟨c, cs', rfl⟩ := List.exists_cons_of_ne_nil (l := cs) (by rintro rfl; simp at h)
    obtain ⟨hhead, hne⟩ := h
    have hpoint : c = '.' := by simpa using hhead
    refine ⟨?_, fun x hx => List.mem_takeWhile_imp hx⟩
    rw [pointed, if_neg hne, hpoint]
    simp [List.takeWhile_append_dropWhile]
  next => exact ⟨rfl, by simp⟩

theorem spaces_of_dropWhile (h : rest.dropWhile isSpace = []) :
    ∀ x ∈ rest, isSpace x = true := by
  intro x hx
  rw [← List.takeWhile_append_dropWhile (p := isSpace) (l := rest), h, List.append_nil] at hx
  exact List.mem_takeWhile_imp hx

theorem Written.of_match (h : matchQuantity text = some (whole, frac, unit)) :
    Written text whole frac unit := by
  simp only [matchQuantity] at h
  split at h
  · cases h
  next hfound =>
    simp only [not_or, not_not] at hfound
    obtain ⟨hwhole, hunit, hrest⟩ := hfound
    cases h
    let number := (text.dropWhile isSpace).dropWhile isDecimal
    let last := (fraction number).2.dropWhile isSpace
    obtain ⟨hsplit, hfrac⟩ := fraction_append number
    have hlayout : text = text.takeWhile isSpace ++
        ((text.dropWhile isSpace).takeWhile isDecimal ++ (pointed (fraction number).1 ++
          ((fraction number).2.takeWhile isSpace ++
            (last.takeWhile isLetter ++ last.dropWhile isLetter)))) := by
      rw [List.takeWhile_append_dropWhile, List.takeWhile_append_dropWhile, ← hsplit,
        List.takeWhile_append_dropWhile, List.takeWhile_append_dropWhile]
    refine ⟨?_, fun c hc => List.mem_takeWhile_imp hc, hwhole, hunit, _, _, _, ?_, hlayout⟩
    · intro c hc
      rcases List.mem_append.mp hc with hc | hc
      · exact List.mem_takeWhile_imp hc
      · exact hfrac c hc
    · intro x hx
      rcases List.mem_append.mp hx with hx | hx
      · rcases List.mem_append.mp hx with hx | hx
        · exact List.mem_takeWhile_imp hx
        · exact List.mem_takeWhile_imp hx
      · exact spaces_of_dropWhile hrest x hx

theorem Written.to_match (h : Written text whole frac unit) :
    matchQuantity text = some (whole, frac, unit) := by
  obtain ⟨a, b, c, hspaces, htext⟩ := h.layout
  have hwhole : ∀ x ∈ whole, isDecimal x = true := fun x hx => h.digits x (by simp [hx])
  have hfrac : ∀ x ∈ frac, isDecimal x = true := fun x hx => h.digits x (by simp [hx])
  have ha : ∀ x ∈ a, isSpace x = true := fun x hx => hspaces x (by simp [hx])
  have hb : ∀ x ∈ b, isSpace x = true := fun x hx => hspaces x (by simp [hx])
  have hc : ∀ x ∈ c, isSpace x = true := fun x hx => hspaces x (by simp [hx])
  -- every field stops where the next one begins
  have hstopUnit : Stops isLetter c := by
    intro x hx
    exact space_not_letter (hc x (List.mem_of_mem_head? hx))
  have hstopSpace : Stops isSpace (unit ++ c) :=
    Stops.append h.named h.letters fun x => letter_not_space
  have hclass : ∀ x ∈ (b ++ (unit ++ c)).head?, isSpace x = true ∨ isLetter x = true := by
    intro x hx
    cases b with
    | nil =>
      obtain ⟨y, ys, rfl⟩ := List.exists_cons_of_ne_nil h.named
      cases hx
      exact .inr (h.letters _ (by simp))
    | cons y ys =>
      cases hx
      exact .inl (hb _ (by simp))
  have hstopFrac : Stops isDecimal (b ++ (unit ++ c)) := by
    intro x hx
    rcases hclass x hx with hspace | hletter
    · exact space_not_decimal hspace
    · exact letter_not_decimal hletter
  have hpoint : (b ++ (unit ++ c)).head? ≠ some '.' := by
    intro hhead
    rcases hclass '.' hhead with hspace | hletter
    · exact absurd hspace (by decide)
    · exact absurd hletter (by decide)
  have hstopWhole : Stops isDecimal (pointed frac ++ (b ++ (unit ++ c))) := by
    unfold pointed
    split
    · exact hstopFrac
    · intro x hx
      cases hx
      decide
  have hstopStart : Stops isSpace (whole ++ (pointed frac ++ (b ++ (unit ++ c)))) :=
    Stops.append h.counted hwhole fun x => decimal_not_space
  have hend : c.dropWhile isSpace = [] := List.dropWhile_eq_nil_iff.mpr hc
  simp only [matchQuantity, htext, dropWhile_field ha hstopStart, takeWhile_field hwhole hstopWhole,
    dropWhile_field hwhole hstopWhole, fraction_pointed hfrac hstopFrac hpoint,
    dropWhile_field hb hstopSpace, takeWhile_field h.letters hstopUnit,
    dropWhile_field h.letters hstopUnit, hend]
  simp [h.counted, h.named]

theorem matchQuantity_iff :
    matchQuantity text = some (whole, frac, unit) ↔ Written text whole frac unit :=
  ⟨Written.of_match, Written.to_match⟩

end Grammar

section Arithmetic

open Rounding

variable {x : ℚ} {factor n : Nat}

theorem factor_bounds {unit : String} (h : units.lookup unit = some factor) :
    1 ≤ factor ∧ factor ≤ 2 ^ 40 := by
  have hall : ∀ e ∈ units, 1 ≤ e.2 ∧ e.2 ≤ 2 ^ 40 := by decide
  obtain ⟨before, after, hsplit, _⟩ := List.lookup_eq_some_iff.mp h
  exact hall (unit, factor) (by simp [hsplit])

/-- One rounding to double precision, with room for the smallest numbers. -/
theorem double_close {y : ℚ} (hy : 0 ≤ y) :
    |double.nearest y - y| ≤ y / 2 ^ 53 + 1 / 2 ^ 100 := by
  have hleast : (2 : ℚ) ^ double.least / 2 ≤ 1 / 2 ^ 100 := by
    have hpow : (2 : ℚ) ^ (-1074 : ℤ) ≤ 2 ^ (-100 : ℤ) :=
      zpow_le_zpow_right₀ (by norm_num) (by norm_num)
    have hcast : (2 : ℚ) ^ (-100 : ℤ) = 1 / 2 ^ 100 := by norm_num
    have hpos : (0 : ℚ) ≤ 2 ^ (-1074 : ℤ) := by positivity
    exact (half_le_self hpos).trans (hpow.trans hcast.le)
  have hclose := double.nearest_close hy
  change _ ≤ y / 2 ^ 53 + _ at hclose
  linarith

theorem scale_close (hx : 0 ≤ x) (hfactor : factor ≤ 2 ^ 40) :
    |double.nearest x * factor - x * factor| ≤ x * factor / 2 ^ 53 + 1 / 2 ^ 60 := by
  have hcast : (factor : ℚ) ≤ 2 ^ 40 := by exact_mod_cast hfactor
  have hpos : (0 : ℚ) ≤ factor := Nat.cast_nonneg factor
  have hscale := mul_le_mul_of_nonneg_right (double_close hx) hpos
  rw [← sub_mul, abs_mul, abs_of_nonneg hpos]
  calc
    |double.nearest x - x| * factor ≤ (x / 2 ^ 53 + 1 / 2 ^ 100) * factor := hscale
    _ = x * factor / 2 ^ 53 + factor / 2 ^ 100 := by ring
    _ ≤ x * factor / 2 ^ 53 + 1 / 2 ^ 60 := by
      have hsmall : (factor : ℚ) / 2 ^ 100 ≤ 2 ^ 40 / 2 ^ 100 := by gcongr
      have hunits : (2 : ℚ) ^ 40 / 2 ^ 100 = 1 / 2 ^ 60 := by norm_num
      linarith

theorem product_close (hx : 0 ≤ x) (hfactor : factor ≤ 2 ^ 40) :
    |double.nearest (double.nearest x * factor) - x * factor| ≤ x * factor / 2 ^ 51 + 1 / 2 := by
  have hpos : (0 : ℚ) ≤ factor := Nat.cast_nonneg factor
  have hfirst := abs_le.mp (scale_close hx hfactor)
  have hnonneg : 0 ≤ double.nearest x * factor := mul_nonneg (double.nearest_nonneg hx) hpos
  have hsecond := abs_le.mp (double_close hnonneg)
  have hproduct : 0 ≤ x * factor := mul_nonneg hx hpos
  rw [abs_le]
  constructor <;> linarith

/-- The number of bytes is what is written, up to one part in `2 ^ 51` and two bytes. -/
theorem scaled_close (hx : 0 ≤ x) (hfactor : factor ≤ 2 ^ 40) (h : scaled x factor = some n) :
    |(n : ℚ) - x * factor| ≤ x * factor / 2 ^ 51 + 2 := by
  obtain ⟨a, ha, hn⟩ := Option.bind_eq_some_iff.mp h
  obtain ⟨b, hb, rfl⟩ := Option.map_eq_some_iff.mp hn
  obtain ⟨rfl, _⟩ := double.round_some ha
  obtain ⟨rfl, _⟩ := double.round_some hb
  have hclose := abs_le.mp (product_close hx hfactor)
  have hnonneg : 0 ≤ double.nearest (double.nearest x * factor) :=
    double.nearest_nonneg (mul_nonneg (double.nearest_nonneg hx) (Nat.cast_nonneg factor))
  have hfloor : ((⌊double.nearest (double.nearest x * factor)⌋.toNat : ℕ) : ℚ) =
      ⌊double.nearest (double.nearest x * factor)⌋ := by
    exact_mod_cast Int.toNat_of_nonneg (Int.floor_nonneg.mpr hnonneg)
  have hlow := Int.floor_le (double.nearest (double.nearest x * factor))
  have hhigh := Int.lt_floor_add_one (double.nearest (double.nearest x * factor))
  rw [hfloor, abs_le]
  constructor <;> linarith

theorem scaled_none (hx : 0 ≤ x) (hpos : 1 ≤ factor) (hfactor : factor ≤ 2 ^ 40)
    (h : scaled x factor = none) : (2 : ℚ) ^ (1023 : ℤ) ≤ x * factor := by
  have hcast : (1 : ℚ) ≤ factor := by exact_mod_cast hpos
  have hgrow : x ≤ x * factor := le_mul_of_one_le_right hx hcast
  have hlimit : (2 : ℚ) ^ double.limit = 2 ^ (1023 : ℤ) * 2 :=
    zpow_add_one₀ (by norm_num) 1023
  have hlarge : (1 : ℚ) ≤ 2 ^ (1023 : ℤ) := one_le_zpow₀ (by norm_num) (by norm_num)
  generalize (2 : ℚ) ^ (1023 : ℤ) = L at *
  rcases Option.bind_eq_none_iff.mp h with hall
  cases hfirst : double.round x with
  | none =>
    have hreach := double.round_none hfirst
    have hclose := abs_le.mp (double_close hx)
    rw [hlimit] at hreach
    linarith
  | some a =>
    obtain ⟨rfl, _⟩ := double.round_some hfirst
    have hsecond := Option.map_eq_none_iff.mp (hall _ hfirst)
    have hreach := double.round_none hsecond
    have hclose := abs_le.mp (product_close hx hfactor)
    rw [hlimit] at hreach
    linarith

theorem round_natCast {n : ℕ} (hn : n ≤ 2 ^ 53) : double.round n = some (n : ℚ) := by
  have hnearest : double.nearest n = n := by
    rcases hn.lt_or_eq with hlt | rfl
    · exact double.nearest_eq (e := 0) (by simp) hlt (by decide)
    · exact double.nearest_eq (m := 1) (e := 53) (by norm_num) (by decide) (by decide)
  have hlimit : (n : ℚ) < 2 ^ double.limit := by
    have hcast : (n : ℚ) ≤ 2 ^ (53 : ℤ) := by exact_mod_cast hn
    exact hcast.trans_lt (zpow_lt_zpow_right₀ (by norm_num) (by decide))
  rw [Format.round, hnearest, if_pos hlimit]

/-- Nothing is lost when the number is one of double precision and the product a whole
number of bytes up to `2 ^ 53`. -/
theorem scaled_exact {m : ℕ} {e : ℤ} (hx : x = m * 2 ^ e) (hm : m < 2 ^ 53) (he : -1074 ≤ e)
    (hpos : 1 ≤ factor) (hproduct : x * factor = n) (hn : n ≤ 2 ^ 53) :
    scaled x factor = some n := by
  have hcast : (1 : ℚ) ≤ factor := by exact_mod_cast hpos
  have hnonneg : 0 ≤ x := by
    rw [hx]
    positivity
  have hgrow : x ≤ n := hproduct ▸ le_mul_of_one_le_right hnonneg hcast
  have hbound : (n : ℚ) ≤ 2 ^ (53 : ℤ) := by exact_mod_cast hn
  have hlimit : x < 2 ^ double.limit :=
    (hgrow.trans hbound).trans_lt (zpow_lt_zpow_right₀ (by norm_num) (by decide))
  have hfirst : double.round x = some x := by
    rw [Format.round, double.nearest_eq hx hm he, if_pos hlimit]
  simp [scaled, hfirst, hproduct, round_natCast hn]

end Arithmetic

end Sdpctl
