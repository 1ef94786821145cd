import Mathlib.Data.List.Basic
import Mathlib.Algebra.Order.Ring.Nat

/-!
# Reading numerals

`value base digit s` is what a reader makes of a sequence of digits, the most significant one
first, over any alphabet: nothing if some letter is no digit. A sequence of fixed width whose
digits are those of a number is read as that number (`value_map_range`).
-/

namespace Numeral

variable {α : Type} {base : ℕ} {digit : α → Option ℕ}

/-- The number that a sequence of digits is read as. -/
def value (base : ℕ) (digit : α → Option ℕ) (s : List α) : Option ℕ :=
  s.foldlM (fun n a => (digit a).map (base * n + ·)) 0

@[simp] theorem value_nil : value base digit [] = some 0 := rfl

theorem value_concat {s : List α} {a : α} {n d : ℕ} (hs : value base digit s = some n)
    (ha : digit a = some d) : value base digit (s ++ [a]) = some (base * n + d) := by
  rw [value] at hs
  rw [value, List.foldlM_append, hs]
  simp [ha]

/-- The first `k` of `w` digits are the high part of the number. -/
theorem value_map_range_of_le {v w : ℕ} {f : ℕ → α}
    (h : ∀ i < w, digit (f i) = some (v / base ^ (w - 1 - i) % base)) {k : ℕ} (hk : k ≤ w) :
    value base digit ((List.range k).map f) = some (v / base ^ (w - k) % base ^ k) := by
  induction k with
  | zero => simp [Nat.mod_one]
  | succ k ih =>
    rw [List.range_succ, List.map_append, List.map_singleton,
      value_concat (ih (Nat.le_of_succ_le hk)) (h k hk)]
    have hpow : base ^ (w - k) = base ^ (w - (k + 1)) * base := by
      rw [← Nat.pow_succ]
      congr 1
      omega
    have hexp : w - 1 - k = w - (k + 1) := by omega
    rw [hexp, hpow, ← Nat.div_div_eq_div_mul, Nat.pow_succ', Nat.mod_mul, Nat.add_comm]

/-- All `w` digits of a number are read as the number. -/
theorem value_map_range {v w : ℕ} {f : ℕ → α} (hv : v < base ^ w)
    (h : ∀ i < w, digit (f i) = some (v / base ^ (w - 1 - i) % base)) :
    value base digit ((List.range w).map f) = some v := by
  rw [value_map_range_of_le h le_rfl, Nat.sub_self, Nat.pow_zero, Nat.div_one, Nat.mod_eq_of_lt hv]

end Numeral
