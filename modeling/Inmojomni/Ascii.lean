import Inmojomni.Numeral
import Mathlib.Algebra.Order.Ring.Nat
import Mathlib.Data.List.Basic

/-!
# Decimal numbers as bytes

`digits n` is `n` as it is printed, in ASCII. It consists of digits (`digit_of_mem_digits`) and is
read back as `n` (`value_digits`), so different numbers are printed differently.
-/

abbrev Bytes := List (BitVec 8)

namespace Ascii

/-- The bytes of characters below 256. -/
def bytes (s : List Char) : Bytes := s.map fun c => BitVec.ofNat 8 c.toNat

/-- The decimal digits of a number, without leading zeros. -/
def digits (n : ℕ) : Bytes := bytes (Nat.toDigits 10 n)

def digitValue (b : BitVec 8) : Option ℕ :=
  if 48 ≤ b.toNat ∧ b.toNat ≤ 57 then some (b.toNat - 48) else none

theorem digits_eq_if (n : ℕ) : digits n =
    (if n < 10 then [] else digits (n / 10)) ++ [BitVec.ofNat 8 (Nat.digitChar (n % 10)).toNat] := by
  rw [digits, Nat.toDigits_eq_if (by decide)]
  split_ifs with h
  · rw [Nat.mod_eq_of_lt h]
    rfl
  · rw [bytes, List.map_append]
    rfl

theorem digitValue_digitChar {d : ℕ} (h : d < 10) :
    digitValue (BitVec.ofNat 8 (Nat.digitChar d).toNat) = some d := by
  revert d
  decide

/-- What is printed is read back. -/
theorem value_digits (n : ℕ) : Numeral.value 10 digitValue (digits n) = some n := by
  induction n using Nat.strong_induction_on with
  | _ n ih =>
    have hlast := digitValue_digitChar (Nat.mod_lt n (by decide : 10 > 0))
    rw [digits_eq_if]
    split_ifs with h
    · rw [Numeral.value_concat Numeral.value_nil hlast, Nat.mul_zero, Nat.zero_add,
        Nat.mod_eq_of_lt h]
    · rw [Numeral.value_concat (ih (n / 10) (by omega)) hlast, Nat.div_add_mod]

theorem digits_injective : Function.Injective digits := fun m n h => by
  have hval := value_digits m
  rw [h, value_digits] at hval
  exact (Option.some.inj hval).symm

theorem digits_ne_nil (n : ℕ) : digits n ≠ [] := by
  rw [digits_eq_if]
  exact List.append_ne_nil_of_right_ne_nil _ (List.cons_ne_nil _ _)

theorem digit_of_mem_digits {n : ℕ} {b : BitVec 8} (h : b ∈ digits n) :
    48 ≤ b.toNat ∧ b.toNat ≤ 57 := by
  induction n using Nat.strong_induction_on with
  | _ n ih =>
    rw [digits_eq_if] at h
    rcases List.mem_append.mp h with hfront | hlast
    · split_ifs at hfront with hn
      · exact absurd hfront List.not_mem_nil
      · exact ih (n / 10) (by omega) hfront
    · obtain rfl := List.mem_singleton.mp hlast
      have hval := digitValue_digitChar (Nat.mod_lt n (by decide : 10 > 0))
      exact (Option.ite_none_right_eq_some.mp hval).1

end Ascii
