import Mathlib.Algebra.Order.Field.Power
import Mathlib.Data.Int.Log
import Mathlib.Data.Rat.Floor
import Mathlib.Tactic.FieldSimp
import Mathlib.Tactic.GCongr
import Mathlib.Tactic.Linarith
import Mathlib.Tactic.Positivity

/-!
Rounding to a binary floating-point format, over the rationals: to the nearest number
with so many digits in its significand, and to the even one in the middle of two.
-/

namespace Rounding

/-- The nearest integer, and the even one of two. -/
def roundEven (x : ℚ) : ℤ :=
  let k := ⌊x⌋
  if x - k < 1 / 2 then k
  else if 1 / 2 < x - k then k + 1
  else k + k % 2

@[simp] theorem roundEven_intCast (k : ℤ) : roundEven k = k := by simp [roundEven]

theorem roundEven_error (x : ℚ) : |(roundEven x : ℚ) - x| ≤ 1 / 2 := by
  have hlow := Int.floor_le x
  have hhigh := Int.lt_floor_add_one x
  have hparity : ⌊x⌋ % 2 = 0 ∨ ⌊x⌋ % 2 = 1 := Int.emod_two_eq ⌊x⌋
  simp only [roundEven]
  split_ifs with hleft hright
  · rw [abs_le]
    constructor <;> linarith
  · push_cast
    rw [abs_le]
    constructor <;> linarith
  · rcases hparity with hp | hp <;> rw [hp] <;> push_cast <;> rw [abs_le] <;> constructor <;>
      linarith

theorem roundEven_nonneg {x : ℚ} (h : 0 ≤ x) : 0 ≤ roundEven x := by
  have herror := abs_le.mp (roundEven_error x)
  have hlow : (-1 : ℚ) < roundEven x := by linarith
  have hint : (-1 : ℤ) < roundEven x := by exact_mod_cast hlow
  omega

/-- A format: the digits of a significand, the least exponent of its last one, and the
power of two that no finite number reaches. -/
structure Format where
  digits : ℕ
  least : ℤ
  limit : ℤ

namespace Format

variable (F : Format) {x : ℚ}

/-- The exponent of the last digit that a number keeps. -/
def last (x : ℚ) : ℤ := max (Int.log 2 x - (F.digits - 1)) F.least

/-- The nearest number of the format, when there is no largest one. -/
def nearest (x : ℚ) : ℚ := roundEven (x / 2 ^ F.last x) * 2 ^ F.last x

@[simp] theorem nearest_zero : F.nearest 0 = 0 := by simp [nearest, roundEven]

theorem nearest_nonneg (h : 0 ≤ x) : 0 ≤ F.nearest x := by
  have hround : (0 : ℚ) ≤ roundEven (x / 2 ^ F.last x) := by
    exact_mod_cast roundEven_nonneg (by positivity)
  unfold nearest
  positivity

theorem nearest_error (x : ℚ) : |F.nearest x - x| ≤ 2 ^ F.last x / 2 := by
  have hpos : (0 : ℚ) < 2 ^ F.last x := by positivity
  have hscale : F.nearest x - x = (roundEven (x / 2 ^ F.last x) - x / 2 ^ F.last x) *
      2 ^ F.last x := by
    unfold nearest
    field_simp
  rw [hscale, abs_mul, abs_of_pos hpos]
  have herror := roundEven_error (x / 2 ^ F.last x)
  nlinarith

theorem nearest_close (h : 0 ≤ x) :
    |F.nearest x - x| ≤ x / 2 ^ F.digits + 2 ^ F.least / 2 := by
  rcases h.eq_or_lt with rfl | hpos
  · rw [nearest_zero]
    simp only [sub_self, abs_zero, zero_div, zero_add]
    positivity
  refine (F.nearest_error x).trans ?_
  have hleast : (0 : ℚ) < 2 ^ F.least := by positivity
  have hshare : 0 ≤ x / 2 ^ F.digits := by positivity
  rcases max_cases (Int.log 2 x - (F.digits - 1)) F.least with ⟨heq, _⟩ | ⟨heq, _⟩
  · have hlog : (2 : ℚ) ^ Int.log 2 x ≤ x := Int.zpow_log_le_self (by norm_num) hpos
    have hsplit : (2 : ℚ) ^ F.last x / 2 = 2 ^ Int.log 2 x / 2 ^ F.digits := by
      rw [last, heq, zpow_sub₀ (by norm_num), zpow_sub₀ (by norm_num), zpow_natCast]
      field_simp
    have hdigits : (2 : ℚ) ^ Int.log 2 x / 2 ^ F.digits ≤ x / 2 ^ F.digits := by gcongr
    linarith
  · rw [last, heq]
    linarith

theorem nearest_eq {m : ℕ} {e : ℤ} (hx : x = m * 2 ^ e) (hm : m < 2 ^ F.digits)
    (he : F.least ≤ e) : F.nearest x = x := by
  rcases m.eq_zero_or_pos with rfl | hpos
  · rw [hx, Nat.cast_zero, zero_mul, nearest_zero]
  have hlog : Int.log 2 x - (F.digits - 1) ≤ e := by
    have hlt : x < 2 ^ (e + F.digits) := by
      rw [hx, zpow_add₀ (by norm_num), zpow_natCast, mul_comm]
      have hcast : (m : ℚ) < 2 ^ F.digits := by exact_mod_cast hm
      gcongr
    have hxpos : 0 < x := by
      rw [hx]
      positivity
    have hbelow : Int.log 2 x < e + F.digits :=
      (Int.lt_zpow_iff_log_lt (by norm_num) hxpos).mp (by exact_mod_cast hlt)
    omega
  have hlast : F.last x ≤ e := max_le hlog he
  obtain ⟨k, hk⟩ := Int.eq_ofNat_of_zero_le (sub_nonneg.mpr hlast)
  have hint : x / 2 ^ F.last x = ((m * 2 ^ k : ℤ) : ℚ) := by
    have hexp : e = F.last x + k := by omega
    rw [div_eq_iff (by positivity), hx]
    nth_rewrite 1 [hexp]
    rw [zpow_add₀ (by norm_num), zpow_natCast, ← hx]
    push_cast
    ring
  rw [nearest, hint, roundEven_intCast, ← hint]
  field_simp

/-- The number that stands for `x`, unless it is infinite. -/
def round (x : ℚ) : Option ℚ :=
  if F.nearest x < 2 ^ F.limit then some (F.nearest x) else none

theorem round_some {y : ℚ} (h : F.round x = some y) : y = F.nearest x ∧ y < 2 ^ F.limit := by
  unfold round at h
  split at h
  next hlt =>
    cases h
    exact ⟨rfl, hlt⟩
  next => cases h

theorem round_none (h : F.round x = none) : 2 ^ F.limit ≤ F.nearest x := by
  unfold round at h
  split at h
  next => cases h
  next hge => exact not_lt.mp hge

end Format

def double : Format where
  digits := 53
  least := -1074
  limit := 1024

end Rounding
