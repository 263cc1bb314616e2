import Mathlib.Data.Int.Log
import Mathlib.Data.Rat.Floor

/-!
# RePrime.Lib.Binary64

Rational numbers that are not negative, rounded to the doubles: to nearest, ties to even, with the smallest numbers
but without overflow.

* `round_le`: what is not beyond a double does not round beyond it.
-/

namespace RePrime
namespace Binary64

/-- The nearest integer, of two the even one. -/
def nearest (x : ℚ) : ℤ :=
  if 1 < 2 * (x - ⌊x⌋) ∨ (2 * (x - ⌊x⌋) = 1 ∧ ⌊x⌋ % 2 = 1) then ⌊x⌋ + 1 else ⌊x⌋

/-- The exponent of the last of the 53 bits of `x`, not below that of the smallest double. -/
def exponent (x : ℚ) : ℤ := max (Int.log 2 x - 52) (-1074)

def round (x : ℚ) : ℚ := nearest (x / 2 ^ exponent x) * 2 ^ exponent x

/-- `100 * 0.07` is a little more than 7. -/
example : round (100 * (1261007895663739 / 18014398509481984)) = 7881299347898369 / 1125899906842624 := by
  decide +kernel

theorem nearest_le {x : ℚ} {n : ℤ} (h : x ≤ n) : nearest x ≤ n := by
  have hfloor : ⌊x⌋ ≤ n := Int.floor_le_iff.mpr (lt_of_le_of_lt h (lt_add_one _))
  rw [nearest]
  split
  · rename_i hup
    obtain heq | hlt := hfloor.eq_or_lt
    · -- then `x` is `n`, and nothing is left to round up
      have hx : x = ⌊x⌋ := le_antisymm (heq ▸ h) (Int.floor_le x)
      rw [sub_eq_zero.mpr hx, mul_zero] at hup
      obtain hup | ⟨hup, -⟩ := hup
      · exact absurd hup (by norm_num)
      · exact absurd hup (by norm_num)
    · exact hlt
  · exact hfloor

theorem exponent_mono {x y : ℚ} (hx : 0 < x) (h : x ≤ y) : exponent x ≤ exponent y :=
  max_le_max (Int.sub_le_sub_right (Int.log_mono_right hx h) _) le_rfl

theorem round_zero : round 0 = 0 := by
  have hnearest : nearest 0 = 0 := by
    rw [nearest, Int.floor_zero]
    norm_num
  rw [round, zero_div, hnearest, Int.cast_zero, zero_mul]

theorem round_le {x d : ℚ} (hx : 0 ≤ x) (hd : round d = d) (h : x ≤ d) : round x ≤ d := by
  obtain rfl | hpos := hx.eq_or_lt
  · rw [round_zero]
    exact h
  · -- the last place of `x` is a fraction of that of `d`
    obtain ⟨k, hk⟩ := Int.le.dest (exponent_mono hpos h)
    have hulp : (0 : ℚ) < 2 ^ exponent x := zpow_pos two_pos _
    have hmultiple : d = ((nearest (d / 2 ^ exponent d) * 2 ^ k : ℤ) : ℚ) * 2 ^ exponent x := by
      have hsplit : (2 : ℚ) ^ exponent d = 2 ^ k * 2 ^ exponent x := by
        rw [← hk, zpow_add₀ two_ne_zero, zpow_natCast, mul_comm]
      calc d = nearest (d / 2 ^ exponent d) * 2 ^ exponent d := hd.symm
        _ = ((nearest (d / 2 ^ exponent d) * 2 ^ k : ℤ) : ℚ) * 2 ^ exponent x := by
          rw [hsplit]
          push_cast
          ring
    have hquotient : x / 2 ^ exponent x ≤ ((nearest (d / 2 ^ exponent d) * 2 ^ k : ℤ) : ℚ) := by
      rw [div_le_iff₀ hulp, ← hmultiple]
      exact h
    calc round x = nearest (x / 2 ^ exponent x) * 2 ^ exponent x := rfl
      _ ≤ ((nearest (d / 2 ^ exponent d) * 2 ^ k : ℤ) : ℚ) * 2 ^ exponent x := by
        refine mul_le_mul_of_nonneg_right ?_ hulp.le
        exact_mod_cast nearest_le hquotient
      _ = d := hmultiple.symm

end Binary64
end RePrime
