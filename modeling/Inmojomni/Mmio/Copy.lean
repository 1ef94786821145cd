import Inmojomni.Mmio.Ram

/-!
# Copying and filling memory

Memory after a block has been copied (`copied`) or filled with one byte (`filled`), and the stores
that make the block a word or a byte longer.
-/

namespace Mmio.Ram

variable {m : Ram} {dst src a b x : Word} {n j len : ℕ}

/-- The first `n` bytes at `dst` are those that were at `src`. -/
def copied (m : Ram) (dst src : Word) (n : ℕ) : Ram := fun x =>
  if (x - dst).toNat < n then m (src + (x - dst)) else m x

/-- The first `n` bytes at `dst` are `v`. -/
def filled (m : Ram) (dst : Word) (n : ℕ) (v : Byte) : Ram := fun x =>
  if (x - dst).toNat < n then v else m x

theorem copied_zero : m.copied dst src 0 = m := funext fun _ => if_neg (Nat.not_lt_zero _)

theorem filled_zero {v : Byte} : m.filled dst 0 v = m := funext fun _ => if_neg (Nat.not_lt_zero _)

theorem add_ofNat_sub {k : ℕ} : a + BitVec.ofNat 32 k - a = BitVec.ofNat 32 k := by
  rw [BitVec.add_comm, BitVec.add_sub_cancel]

theorem toNat_add_ofNat_sub {k : ℕ} (hk : k < n) (hn : n ≤ 2 ^ 32) :
    (a + BitVec.ofNat 32 k - a).toNat = k := by
  rw [add_ofNat_sub, BitVec.toNat_ofNat, Nat.mod_eq_of_lt (hk.trans_le hn)]

/-- Byte `k` of a copy. -/
theorem copied_add_ofNat {k : ℕ} (hk : k < n) (hn : n ≤ 2 ^ 32) :
    m.copied dst src n (dst + BitVec.ofNat 32 k) = m (src + BitVec.ofNat 32 k) := by
  have hlt : (dst + BitVec.ofNat 32 k - dst).toNat < n := by
    rwa [toNat_add_ofNat_sub hk hn]
  rw [copied, if_pos hlt, add_ofNat_sub]

theorem filled_add_ofNat {k : ℕ} {v : Byte} (hk : k < n) (hn : n ≤ 2 ^ 32) :
    m.filled dst n v (dst + BitVec.ofNat 32 k) = v := by
  refine if_pos ?_
  rwa [toNat_add_ofNat_sub hk hn]

theorem byte_append (d c b a : Byte) :
    byte (d ++ c ++ b ++ a) 0 = a ∧ byte (d ++ c ++ b ++ a) 1 = b ∧
    byte (d ++ c ++ b ++ a) 2 = c ∧ byte (d ++ c ++ b ++ a) 3 = d := by
  refine ⟨?_, ?_, ?_, ?_⟩ <;>
  · refine BitVec.eq_of_getLsbD_eq fun i hi => ?_
    simp only [BitVec.getLsbD_append, byte, BitVec.getLsbD_extractLsb']
    grind

/-- A byte is the low byte of the word it is extended to. -/
theorem byte_setWidth {v : Byte} : byte (v.setWidth 32) 0 = v := by
  refine BitVec.eq_of_getLsbD_eq fun i hi => ?_
  simp only [byte, BitVec.getLsbD_extractLsb', BitVec.getLsbD_setWidth]
  grind

/-- The bytes of a word in memory. -/
theorem byte_read32 {i : Word} (hi : i.toNat < 4) : byte (m.read32 a) i.toNat = m (a + i) := by
  obtain ⟨h0, h1, h2, h3⟩ := byte_append (m (a + 3)) (m (a + 2)) (m (a + 1)) (m a)
  have hcases : i = 0#32 ∨ i = 1#32 ∨ i = 2#32 ∨ i = 3#32 := by bv_omega
  rcases hcases with rfl | rfl | rfl | rfl
  · rw [BitVec.add_zero]
    exact h0
  · exact h1
  · exact h2
  · exact h3

/-- A word is copied byte by byte. -/
theorem write32_read32 : m.write32 a (m.read32 b) = m.copied a b 4 := by
  funext x
  rw [write32, copied]
  split_ifs with hx
  · exact byte_read32 hx
  · rfl

theorem write32_zero : m.write32 a 0#32 = m.filled a 4 0 := by
  funext x
  have hbyte : byte 0#32 (x - a).toNat = 0 := BitVec.extractLsb'_zero
  rw [write32, filled, hbyte]

theorem sub_toNat_lt_one_iff : (x - a).toNat < 1 ↔ x = a := by
  bv_omega

theorem write8_read8 : m.write8 a (m b) = m.copied a b 1 := by
  funext x
  rw [write8, copied, Function.update_apply]
  refine ite_congr (propext sub_toNat_lt_one_iff.symm) (fun hx => ?_) fun _ => rfl
  rw [sub_toNat_lt_one_iff.mp hx, BitVec.sub_self, BitVec.add_zero]

theorem write8_filled {v : Byte} : m.write8 a v = m.filled a 1 v := by
  funext x
  rw [write8, filled, Function.update_apply]
  exact if_congr sub_toNat_lt_one_iff.symm rfl rfl

/-- Where a byte is in a block that gets longer. -/
theorem sub_add_ofNat_lt_iff (hn : n + j ≤ 2 ^ 32) : (x - dst).toNat < n + j ↔
    (x - dst).toNat < n ∨ (x - (dst + BitVec.ofNat 32 n)).toNat < j := by
  bv_omega

/-- The source and the destination of `n` bytes do not overlap. -/
def Clear (dst src : Word) (n : ℕ) : Prop := ∀ k < n, n ≤ (src + BitVec.ofNat 32 k - dst).toNat

/-- **Copying goes on.** The next `j` bytes are still there in the source. -/
theorem copied_add (h : Clear dst src len) (hlen : len ≤ 2 ^ 32) (hn : n + j ≤ len) :
    (m.copied dst src n).copied (dst + BitVec.ofNat 32 n) (src + BitVec.ofNat 32 n) j
      = m.copied dst src (n + j) := by
  funext x
  rw [copied, copied, copied, copied]
  by_cases hx : (x - (dst + BitVec.ofNat 32 n)).toNat < j
  · have hlt : (x - dst).toNat < n + j := (sub_add_ofNat_lt_iff (by omega)).mpr (.inr hx)
    have haddr : src + BitVec.ofNat 32 n + (x - (dst + BitVec.ofNat 32 n)) = src + (x - dst) := by
      bv_omega
    have hfrom : len ≤ (src + (x - dst) - dst).toNat := by
      have hk := h (x - dst).toNat (by omega)
      rwa [BitVec.ofNat_toNat, BitVec.setWidth_eq] at hk
    rw [if_pos hx, haddr, if_neg (by omega), if_pos hlt]
  · rw [if_neg hx]
    refine if_congr ?_ rfl rfl
    rw [sub_add_ofNat_lt_iff (by omega), or_iff_left hx]

theorem filled_add {v : Byte} (hn : n + j ≤ 2 ^ 32) :
    (m.filled dst n v).filled (dst + BitVec.ofNat 32 n) j v = m.filled dst (n + j) v := by
  funext x
  rw [filled, filled, filled]
  by_cases hx : (x - (dst + BitVec.ofNat 32 n)).toNat < j
  · rw [if_pos hx, if_pos ((sub_add_ofNat_lt_iff hn).mpr (.inr hx))]
  · rw [if_neg hx]
    refine if_congr ?_ rfl rfl
    rw [sub_add_ofNat_lt_iff hn, or_iff_left hx]

theorem copied_word (h : Clear dst src len) (hlen : len ≤ 2 ^ 32) (hn : n + 4 ≤ len) :
    (m.copied dst src n).write32 (dst + BitVec.ofNat 32 n)
      ((m.copied dst src n).read32 (src + BitVec.ofNat 32 n)) = m.copied dst src (n + 4) := by
  rw [write32_read32, copied_add h hlen hn]

theorem copied_byte (h : Clear dst src len) (hlen : len ≤ 2 ^ 32) (hn : n + 1 ≤ len) :
    (m.copied dst src n).write8 (dst + BitVec.ofNat 32 n)
      (m.copied dst src n (src + BitVec.ofNat 32 n)) = m.copied dst src (n + 1) := by
  rw [write8_read8, copied_add h hlen hn]

theorem filled_word (hn : n + 4 ≤ 2 ^ 32) :
    (m.filled dst n 0).write32 (dst + BitVec.ofNat 32 n) 0#32 = m.filled dst (n + 4) 0 := by
  rw [write32_zero, filled_add hn]

theorem filled_byte {v : Byte} (hn : n + 1 ≤ 2 ^ 32) :
    (m.filled dst n v).write8 (dst + BitVec.ofNat 32 n) v = m.filled dst (n + 1) v := by
  rw [write8_filled, filled_add hn]

end Mmio.Ram
