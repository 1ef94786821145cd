import Mathlib.Data.Int.Bitwise
import Mathlib.Tactic.Ring
import Mathlib.Tactic.Positivity

/-!
# Bit fields

Facts about masking and bit fields that register-level code relies on: masking an integer
with `2 ^ k - 1` is reduction modulo `2 ^ k`, whatever its sign, and writing the low bits of
a word leaves the others alone.
-/

/-- Masking with `2 ^ k - 1` is reduction modulo `2 ^ k`, also for negative integers. -/
theorem Int.land_two_pow_sub_one (x : ℤ) (k : ℕ) : Int.land x (2 ^ k - 1) = x % 2 ^ k := by
  have hpos : 0 < 2 ^ k := Nat.two_pow_pos k
  have hmask : ((2 : ℤ) ^ k - 1) = ((2 ^ k - 1 : ℕ) : ℤ) := by
    rw [Nat.cast_sub hpos]
    push_cast
    rfl
  rw [hmask]
  cases x with
  | ofNat m =>
    change ((m &&& (2 ^ k - 1) : ℕ) : ℤ) = (m : ℤ) % 2 ^ k
    rw [Nat.and_two_pow_sub_one_eq_mod]
    push_cast
    rfl
  | negSucc m =>
    change ((Nat.ldiff (2 ^ k - 1) m : ℕ) : ℤ) = Int.negSucc m % 2 ^ k
    have hsplit : Nat.ldiff (2 ^ k - 1) m = 2 ^ k - 1 - m % 2 ^ k := by
      refine Nat.eq_of_testBit_eq fun i => ?_
      have hlt : m % 2 ^ k < 2 ^ k := Nat.mod_lt _ hpos
      rw [Nat.testBit_ldiff, Nat.testBit_two_pow_sub_one,
        show 2 ^ k - 1 - m % 2 ^ k = 2 ^ k - (m % 2 ^ k + 1) by omega,
        Nat.testBit_two_pow_sub_succ hlt, Nat.testBit_mod_two_pow]
      by_cases hi : i < k <;> simp [hi]
    have hlt : m % 2 ^ k < 2 ^ k := Nat.mod_lt _ hpos
    have hcast : ((2 ^ k - 1 - m % 2 ^ k : ℕ) : ℤ) = 2 ^ k - 1 - (m : ℤ) % 2 ^ k := by
      rw [Nat.sub_sub, Nat.cast_sub (by omega)]
      push_cast
      ring
    rw [hsplit, hcast, Int.negSucc_emod m (by positivity)]

namespace BitVec

variable {n w : ℕ}

/-- A word below `2 ^ w` has no bits from position `w` on. -/
theorem getLsbD_eq_false_of_lt {y : BitVec n} (hy : y.toNat < 2 ^ w) {i : ℕ} (hi : w ≤ i) :
    y.getLsbD i = false :=
  Nat.testBit_lt_two_pow (lt_of_lt_of_le hy (Nat.pow_le_pow_right (by norm_num) hi))

theorem getLsbD_ofNat_two_pow_sub_one (i : ℕ) :
    (BitVec.ofNat n (2 ^ w - 1)).getLsbD i = (decide (i < n) && decide (i < w)) := by
  rw [BitVec.getLsbD_ofNat, Nat.testBit_two_pow_sub_one]

theorem getLsbD_eq_false_of_mod {x : BitVec n} (hx : x.toNat % 2 ^ w = 0) {i : ℕ} (hi : i < w) :
    x.getLsbD i = false := by
  have h : (x.toNat % 2 ^ w).testBit i = x.toNat.testBit i := by
    simp [Nat.testBit_mod_two_pow, hi]
  rw [hx, Nat.zero_testBit] at h
  exact h.symm

/-- Clearing the low bits undoes writing them into a word where they are zero. -/
theorem clearLow_or {x y : BitVec n} (hx : x.toNat % 2 ^ w = 0) (hy : y.toNat < 2 ^ w) :
    (x ||| y) &&& ~~~(BitVec.ofNat n (2 ^ w - 1)) = x := by
  refine BitVec.eq_of_getLsbD_eq fun i hi => ?_
  simp only [BitVec.getLsbD_and, BitVec.getLsbD_or, BitVec.getLsbD_not,
    getLsbD_ofNat_two_pow_sub_one]
  by_cases h : i < w
  · rw [getLsbD_eq_false_of_mod hx h]
    simp [h]
  · rw [getLsbD_eq_false_of_lt hy (Nat.le_of_not_lt h), Bool.or_false]
    simp [hi, h]

/-- Writing bits below `2 ^ w` keeps the bits above them. -/
theorem ushiftRight_or (x : BitVec n) {y : BitVec n} (hy : y.toNat < 2 ^ w) :
    (x ||| y) >>> w = x >>> w := by
  refine BitVec.eq_of_getLsbD_eq fun i _ => ?_
  simp [getLsbD_eq_false_of_lt hy (Nat.le_add_right w i)]

/-- Bits written into a word where they are zero can be read back. -/
theorem mod_or {x y : BitVec n} (hx : x.toNat % 2 ^ w = 0) (hy : y.toNat < 2 ^ w) :
    (x ||| y).toNat % 2 ^ w = y.toNat := by
  rw [BitVec.toNat_or, Nat.or_mod_two_pow, hx, Nat.zero_or, Nat.mod_eq_of_lt hy]

/-- A narrow word has no bits above its width. -/
theorem setWidth_and_two_pow_sub_one (x : BitVec w) :
    x.setWidth n &&& BitVec.ofNat n (2 ^ w - 1) = x.setWidth n := by
  refine BitVec.eq_of_getLsbD_eq fun i hi => ?_
  rw [BitVec.getLsbD_and, getLsbD_ofNat_two_pow_sub_one, BitVec.getLsbD_setWidth]
  by_cases h : i < w
  · simp [hi, h]
  · simp [BitVec.getLsbD_of_ge x i (Nat.le_of_not_lt h)]

/-! ### Masks -/

section Masks

variable {x y m : BitVec n}

/-- Clearing bits that are clear. -/
theorem and_not_of_and_eq_zero (h : x &&& m = 0#n) : x &&& ~~~m = x := by
  refine BitVec.eq_of_getLsbD_eq fun i hi => ?_
  have hbit : (x.getLsbD i && m.getLsbD i) = false := by
    rw [← BitVec.getLsbD_and, h, BitVec.getLsbD_zero]
  rw [BitVec.getLsbD_and, BitVec.getLsbD_not]
  revert hbit
  cases x.getLsbD i <;> cases m.getLsbD i <;> simp [hi]

/-- Masking bits that lie inside the mask. -/
theorem and_of_and_not_eq_zero (h : x &&& ~~~m = 0#n) : x &&& m = x := by
  have h' := and_not_of_and_eq_zero h
  rwa [BitVec.not_not] at h'

theorem and_not_and_self (x m : BitVec n) : x &&& ~~~m &&& m = 0#n := by
  rw [BitVec.and_assoc, BitVec.and_comm (~~~m), BitVec.and_not_self]
  exact BitVec.and_zero

theorem or_and_self (x m : BitVec n) : (x ||| m) &&& m = m := by
  refine BitVec.eq_of_getLsbD_eq fun i _ => ?_
  rw [BitVec.getLsbD_and, BitVec.getLsbD_or]
  cases m.getLsbD i with
  | false => exact Bool.and_false _
  | true => exact (Bool.and_true _).trans (Bool.or_true _)

/-- Clearing other bits. -/
theorem and_not_and {m k : BitVec n} (h : ~~~m &&& k = k) (x : BitVec n) :
    x &&& ~~~m &&& k = x &&& k := by
  rw [BitVec.and_assoc, h]

/-- Bits outside the mask are masked out of a sum of disjoint parts. -/
theorem add_and_of_disjoint (hx : x &&& m = 0#n) (hy : y &&& ~~~m = 0#n) : (x + y) &&& m = y := by
  have hxy : x &&& y = 0#n := by
    rw [← and_of_and_not_eq_zero hy, BitVec.and_comm y, ← BitVec.and_assoc, hx, BitVec.zero_and]
  rw [BitVec.add_eq_or_of_and_eq_zero x y hxy, BitVec.and_or_distrib_right, hx,
    and_of_and_not_eq_zero hy, BitVec.zero_or]

theorem add_and_not_of_disjoint (hx : x &&& m = 0#n) (hy : y &&& ~~~m = 0#n) :
    (x + y) &&& ~~~m = x := by
  rw [BitVec.add_comm]
  exact add_and_of_disjoint hy (by rwa [BitVec.not_not])

end Masks

end BitVec
