import Inmojomni.Bits

/-!
# Fields of a register

A register packs several fields into one word, and a driver changes one of them by clearing its
bits with a mask and writing the value shifted into place. The lemmas here compute a field of
such a word: the mask covers the field or misses it, and the value belongs to the field or to
another one.

`lastWrite` is what a field holds after several operations of which some write it.
-/

namespace BitVec

variable {n w start len : ℕ}

/-- A mask that misses a field leaves it alone. -/
theorem extractLsb'_and_not_of_eq_zero {x m : BitVec n}
    (h : m.extractLsb' start len = BitVec.ofNat len 0) :
    (x &&& ~~~m).extractLsb' start len = x.extractLsb' start len := by
  refine BitVec.eq_of_getLsbD_eq fun i hi => ?_
  have hbit : m.getLsbD (start + i) = false := by
    have := congrArg (·.getLsbD i) h
    simpa [BitVec.getLsbD_extractLsb', hi] using this
  rw [BitVec.getLsbD_extractLsb', BitVec.getLsbD_extractLsb', BitVec.getLsbD_and,
    BitVec.getLsbD_not, hbit]
  by_cases hlt : start + i < n
  · simp [hlt]
  · simp [BitVec.getLsbD_of_ge x _ (Nat.le_of_not_lt hlt)]

/-- A mask that covers a field clears it. -/
theorem extractLsb'_and_not_of_eq_allOnes {x m : BitVec n}
    (h : m.extractLsb' start len = BitVec.allOnes len) :
    (x &&& ~~~m).extractLsb' start len = BitVec.ofNat len 0 := by
  refine BitVec.eq_of_getLsbD_eq fun i hi => ?_
  have hbit : m.getLsbD (start + i) = true := by
    have := congrArg (·.getLsbD i) h
    simpa [BitVec.getLsbD_extractLsb', hi] using this
  rw [BitVec.getLsbD_extractLsb', BitVec.getLsbD_and, BitVec.getLsbD_not, hbit]
  simp

/-- A value shifted into its field is what the field holds. -/
theorem extractLsb'_setWidth_shiftLeft (v : BitVec w) (h : start + w ≤ n) :
    (v.setWidth n <<< start).extractLsb' start w = v := by
  refine BitVec.eq_of_getLsbD_eq fun i hi => ?_
  have hlt : start + i < n := by omega
  have hin : i < n := by omega
  rw [BitVec.getLsbD_extractLsb', BitVec.getLsbD_shiftLeft, BitVec.getLsbD_setWidth]
  simp [hi, hlt, hin]

/-- A value shifted into its field is not in the others. -/
theorem extractLsb'_setWidth_shiftLeft_of_disjoint (v : BitVec w) {k : ℕ}
    (h : start + len ≤ k ∨ k + w ≤ start) :
    (v.setWidth n <<< k).extractLsb' start len = BitVec.ofNat len 0 := by
  refine BitVec.eq_of_getLsbD_eq fun i hi => ?_
  rw [BitVec.getLsbD_extractLsb', BitVec.getLsbD_shiftLeft, BitVec.getLsbD_setWidth,
    BitVec.getLsbD_zero]
  rcases h with h | h
  · have hlt : start + i < k := by omega
    simp [hlt]
  · have hge : v.getLsbD (start + i - k) = false := BitVec.getLsbD_of_ge _ _ (by omega)
    simp [hge]

/-- An integer cut to the low `w` bits of a word, by a mask on the integer. -/
theorem ofInt_land (v : ℤ) (h : w ≤ n) :
    BitVec.ofInt n (Int.land v (2 ^ w - 1)) = (BitVec.ofInt w v).setWidth n := by
  have hpow : (2 : ℤ) ^ w = ((2 ^ w : ℕ) : ℤ) := by push_cast; rfl
  have hle : 2 ^ w ≤ 2 ^ n := Nat.pow_le_pow_right (by decide) h
  rw [Int.land_two_pow_sub_one]
  refine BitVec.eq_of_toNat_eq ?_
  rw [BitVec.toNat_ofInt, BitVec.toNat_setWidth, BitVec.toNat_ofInt, hpow]
  have hpos : (0 : ℤ) < ((2 ^ w : ℕ) : ℤ) := by positivity
  have hlt : v % ((2 ^ w : ℕ) : ℤ) < ((2 ^ w : ℕ) : ℤ) := Int.emod_lt_of_pos _ hpos
  have hnonneg : 0 ≤ v % ((2 ^ w : ℕ) : ℤ) := Int.emod_nonneg _ hpos.ne'
  have hle' : ((2 ^ w : ℕ) : ℤ) ≤ ((2 ^ n : ℕ) : ℤ) := by exact_mod_cast hle
  rw [Int.emod_eq_of_lt hnonneg (hlt.trans_le hle'), Nat.mod_eq_of_lt (by omega)]

/-- The same, by a mask on the word. -/
theorem ofInt_and (v : ℤ) (h : w ≤ n) :
    BitVec.ofInt n v &&& BitVec.ofNat n (2 ^ w - 1) = (BitVec.ofInt w v).setWidth n := by
  have hdvd : ((2 ^ w : ℕ) : ℤ) ∣ ((2 ^ n : ℕ) : ℤ) := by exact_mod_cast pow_dvd_pow 2 h
  have hle : 2 ^ w ≤ 2 ^ n := Nat.pow_le_pow_right (by decide) h
  have hnonneg : 0 ≤ v % ((2 ^ n : ℕ) : ℤ) := Int.emod_nonneg _ (by positivity)
  have hcut : (v % ((2 ^ n : ℕ) : ℤ)).toNat % 2 ^ w = (v % ((2 ^ w : ℕ) : ℤ)).toNat := by
    rw [← Int.emod_emod_of_dvd v hdvd, Int.toNat_emod hnonneg (by positivity), Int.toNat_natCast]
  have hlt : (v % ((2 ^ w : ℕ) : ℤ)).toNat < 2 ^ w := by
    rw [← hcut]
    exact Nat.mod_lt _ (by positivity)
  refine BitVec.eq_of_toNat_eq ?_
  rw [BitVec.toNat_and, BitVec.toNat_setWidth, BitVec.toNat_ofInt, BitVec.toNat_ofInt,
    BitVec.toNat_ofNat, Nat.mod_eq_of_lt (by omega), Nat.and_two_pow_sub_one_eq_mod, hcut,
    Nat.mod_eq_of_lt (hlt.trans_le hle)]

end BitVec

/-! ### The last of several writes -/

section LastWrite

variable {Op α : Type}

/-- What a field holds after some operations, if `f` is what an operation writes to it. -/
def lastWrite (f : Op → Option α) (before : α) (ops : List Op) : α :=
  (ops.filterMap f).getLast?.getD before

theorem lastWrite_cons (f : Op → Option α) (before : α) (op : Op) (ops : List Op) :
    lastWrite f before (op :: ops) = lastWrite f ((f op).getD before) ops := by
  rw [lastWrite, lastWrite, List.filterMap_cons]
  cases f op with
  | none => rfl
  | some a => rw [List.getLast?_cons, Option.getD_some, Option.getD_some]

theorem lastWrite_append (f : Op → Option α) (before : α) (ops ops' : List Op) :
    lastWrite f before (ops ++ ops') = lastWrite f (lastWrite f before ops) ops' := by
  induction ops generalizing before with
  | nil => rfl
  | cons op ops ih => rw [List.cons_append, lastWrite_cons, ih, lastWrite_cons]

end LastWrite
