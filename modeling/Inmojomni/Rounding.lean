import Mathlib.Algebra.Order.Archimedean.Basic
import Mathlib.Data.Rat.Floor
import Mathlib.Tactic.FieldSimp
import Mathlib.Tactic.Linarith

/-!
# Rounding half up

`halfUp a b` is the quotient of two natural numbers, rounded to the nearest integer, and up in the
middle between two (`halfUp_eq_floor`, `halfUp_nearest`). Programs without fractions compute it by
adding half of the divisor before they divide (`add_half_div`), and it makes no difference to have
cut off a fraction of the quotient before that, if half a unit is a whole number of its parts
(`div_add_half_div`).
-/

namespace Rounding

/-- The quotient, rounded to the nearest integer, and up in the middle. -/
def halfUp (a b : ℕ) : ℕ := (2 * a + b) / (2 * b)

variable {a b : ℕ}

theorem halfUp_le : 2 * b * halfUp a b ≤ 2 * a + b := by
  rw [Nat.mul_comm]
  exact Nat.div_mul_le_self _ _

theorem lt_halfUp_add_one (hb : 0 < b) : 2 * a + b < 2 * b * (halfUp a b + 1) :=
  Nat.lt_mul_div_succ _ (Nat.mul_pos Nat.two_pos hb)

/-- As a fraction, half a unit is added and the rest cut off. -/
theorem halfUp_eq_floor (hb : 0 < b) : (halfUp a b : ℤ) = ⌊(a / b : ℚ) + 1 / 2⌋ := by
  have hpos : (0 : ℚ) < 2 * b := by
    have := Nat.cast_pos (α := ℚ) |>.mpr hb
    linarith
  have hsum : (a / b : ℚ) + 1 / 2 = (2 * a + b) / (2 * b) := by field_simp
  have hle : (2 * b * halfUp a b : ℚ) ≤ 2 * a + b := by exact_mod_cast halfUp_le
  have hlt : (2 * a + b : ℚ) < 2 * b * (halfUp a b + 1) := by exact_mod_cast lt_halfUp_add_one hb
  rw [eq_comm, Int.floor_eq_iff, hsum, le_div_iff₀ hpos, div_lt_iff₀ hpos]
  constructor
  · push_cast
    linarith
  · push_cast
    linarith

/-- Half of the divisor may itself be cut off. -/
theorem add_half_div : (a + b / 2) / b = halfUp a b := by
  rw [halfUp, ← Nat.div_div_eq_div_mul, Nat.mul_add_div Nat.two_pos]

/-- Parts of the quotient are cut off first, `2 * m` to the unit. -/
theorem div_add_half_div {m : ℕ} (hb : 0 < b) (hm : 0 < m) :
    (2 * m * a / b + m) / (2 * m) = halfUp a b := by
  rw [← Nat.add_mul_div_right _ _ hb, Nat.div_div_eq_div_mul, halfUp,
    ← Nat.mul_div_mul_left (2 * a + b) (2 * b) hm]
  congr 1
  · ring
  · ring

/-- No other integer is closer. -/
theorem halfUp_nearest (hb : 0 < b) (e : ℤ) : |(b : ℤ) * halfUp a b - a| ≤ |b * e - a| := by
  have hle : (2 * b * halfUp a b : ℤ) ≤ 2 * a + b := by exact_mod_cast halfUp_le
  have hlt : (2 * a + b : ℤ) < 2 * b * (halfUp a b + 1) := by exact_mod_cast lt_halfUp_add_one hb
  have hnonneg : (0 : ℤ) ≤ b := Int.natCast_nonneg b
  generalize (halfUp a b : ℤ) = h at hle hlt ⊢
  -- the distance to `h` is at most half of `b`, and the multiples of `b` are `b` apart
  rcases lt_trichotomy e h with hless | rfl | hmore
  · have hstep : (b : ℤ) * e ≤ b * (h - 1) :=
      mul_le_mul_of_nonneg_left (Int.le_sub_one_of_lt hless) hnonneg
    refine le_trans (abs_le.mpr ⟨?_, ?_⟩) (neg_le_abs _) <;> linarith
  · exact le_rfl
  · have hstep : (b : ℤ) * (h + 1) ≤ b * e := mul_le_mul_of_nonneg_left hmore hnonneg
    refine le_trans (abs_le.mpr ⟨?_, ?_⟩) (le_abs_self _) <;> linarith

end Rounding
