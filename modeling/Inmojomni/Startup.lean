import Inmojomni.Mmio.Copy
import Mathlib.Data.Set.Basic
import Mathlib.Order.CompletePartialOrder

/-!
# Startup

What the two startups, `reset_handler` of `crt0.S` and `_reset` of `crt0_rv32.S`, are for: before
`mojo_main` is called the initialised globals are copied from flash to RAM and the others are
cleared. The linker scripts define the symbols in between which they work; `Placed` is what holds
of them.

`initialise` is the memory that both of them are to leave.
-/

namespace Startup

open Mmio

/-- The symbols of the linker scripts that both startups use. -/
structure Symbols where
  sidata : Word
  sdata : Word
  edata : Word
  sbss : Word
  ebss : Word

/-- `RAM` of `link.ld`: 256 KiB, where that of `link_rv32.ld` begins as well. -/
def Rp2040.ram : Set Word := {x | 0x20000000#32 ≤ x ∧ x < 0x20040000#32}

def Aligned (x : Word) : Prop := x.toNat % 4 = 0

instance (x : Word) : Decidable (Aligned x) := inferInstanceAs (Decidable (_ = _))

namespace Symbols

variable (y : Symbols)

def data : Set Word := {x | y.sdata ≤ x ∧ x < y.edata}

def bss : Set Word := {x | y.sbss ≤ x ∧ x < y.ebss}

/-- The size of `.data` in bytes. -/
def dataSize : ℕ := y.edata.toNat - y.sdata.toNat

def bssSize : ℕ := y.ebss.toNat - y.sbss.toNat

end Symbols

/-- How the linker places the sections. -/
structure Placed (ram : Set Word) (y : Symbols) : Prop where
  data_le : y.sdata ≤ y.edata
  bss_le : y.sbss ≤ y.ebss
  sidata_aligned : Aligned y.sidata
  sdata_aligned : Aligned y.sdata
  edata_aligned : Aligned y.edata
  sbss_aligned : Aligned y.sbss
  ebss_aligned : Aligned y.ebss
  data_ram : y.data ⊆ ram
  bss_ram : y.bss ⊆ ram
  image : ∀ k < y.dataSize, y.sidata + BitVec.ofNat 32 k ∉ ram
  disjoint : Disjoint y.data y.bss

/-- What is in memory when `mojo_main` is called. -/
structure Initialised (y : Symbols) (m m' : Ram) : Prop where
  data : ∀ k < y.dataSize,
    m' (y.sdata + BitVec.ofNat 32 k) = m (y.sidata + BitVec.ofNat 32 k)
  bss : ∀ x ∈ y.bss, m' x = 0
  elsewhere : ∀ x, x ∉ y.data → x ∉ y.bss → m' x = m x

/-- First `.data` is copied, then `.bss` is cleared. -/
def initialise (y : Symbols) (m : Ram) : Ram :=
  (m.copied y.sdata y.sidata y.dataSize).filled y.sbss y.bssSize 0

variable {y : Symbols} {ram : Set Word} {m : Ram} {x a b : Word}

/-- A section, as the distance from its start. -/
theorem sub_toNat_lt_iff (h : a ≤ b) : (x - a).toNat < b.toNat - a.toNat ↔ a ≤ x ∧ x < b := by
  bv_omega

/-- The address of word `k` of a section. -/
def word (a : Word) (k : ℕ) : Word := a + BitVec.ofNat 32 (4 * k)

theorem word_zero : word a 0 = a := BitVec.add_zero a

theorem word_succ (k : ℕ) : word a k + 4#32 = word a (k + 1) := by
  rw [word, word, BitVec.add_assoc, Nat.mul_succ, BitVec.ofNat_add]

theorem Aligned.word (h : Aligned a) (k : ℕ) : Aligned (word a k) := by
  rw [Aligned] at h ⊢
  rw [Startup.word, BitVec.toNat_add, BitVec.toNat_ofNat]
  omega

/-- The words of a section are before its end, and the next one is there. -/
theorem le_word_iff {k : ℕ} (h : a ≤ b) (hk : 4 * k ≤ b.toNat - a.toNat) :
    b ≤ word a k ↔ 4 * k = b.toNat - a.toNat := by
  have hb := b.isLt
  rw [word]
  bv_omega

/-- A section consists of whole words. -/
theorem size_eq (ha : Aligned a) (hb : Aligned b) :
    4 * ((b.toNat - a.toNat) / 4) = b.toNat - a.toNat := by
  rw [Aligned] at ha hb
  omega

namespace Placed

variable {k : ℕ}

theorem clear (h : Placed ram y) : Ram.Clear y.sdata y.sidata y.dataSize := by
  intro k hk
  by_contra hlt
  have hmem := (sub_toNat_lt_iff h.data_le).mp (not_le.mp hlt)
  exact h.image k hk (h.data_ram hmem)

theorem dataSize_eq (h : Placed ram y) : 4 * (y.dataSize / 4) = y.dataSize :=
  size_eq h.sdata_aligned h.edata_aligned

theorem bssSize_eq (h : Placed ram y) : 4 * (y.bssSize / 4) = y.bssSize :=
  size_eq h.sbss_aligned h.ebss_aligned

/-- The loop over `.data` goes on while there are words left. -/
theorem not_edata_le (h : Placed ram y) (hk : 4 * k < y.dataSize) : ¬ y.edata ≤ word y.sdata k := by
  rw [le_word_iff h.data_le hk.le]
  exact hk.ne

theorem edata_le (h : Placed ram y) : y.edata ≤ word y.sdata (y.dataSize / 4) :=
  (le_word_iff h.data_le h.dataSize_eq.le).mpr h.dataSize_eq

theorem not_ebss_le (h : Placed ram y) (hk : 4 * k < y.bssSize) : ¬ y.ebss ≤ word y.sbss k := by
  rw [le_word_iff h.bss_le hk.le]
  exact hk.ne

theorem ebss_le (h : Placed ram y) : y.ebss ≤ word y.sbss (y.bssSize / 4) :=
  (le_word_iff h.bss_le h.bssSize_eq.le).mpr h.bssSize_eq

/-- One word more of `.data`. -/
theorem copied_word (h : Placed ram y) (hk : 4 * k < y.dataSize) :
    (m.copied y.sdata y.sidata (4 * k)).write32 (word y.sdata k)
      ((m.copied y.sdata y.sidata (4 * k)).read32 (word y.sidata k)) =
    m.copied y.sdata y.sidata (4 * (k + 1)) := by
  have hend : 4 * k + 4 ≤ y.dataSize := by
    have hsize := h.dataSize_eq
    omega
  have hlen : y.dataSize ≤ 2 ^ 32 := (Nat.sub_le _ _).trans y.edata.isLt.le
  rw [word, word, Ram.copied_word h.clear hlen hend, Nat.mul_succ]

/-- One word more of `.bss`. -/
theorem filled_word (h : Placed ram y) (hk : 4 * k < y.bssSize) :
    (m.filled y.sbss (4 * k) 0).write32 (word y.sbss k) 0#32 = m.filled y.sbss (4 * (k + 1)) 0 := by
  have hend : 4 * k + 4 ≤ y.bssSize := by
    have hsize := h.bssSize_eq
    omega
  have hlen : y.bssSize ≤ 2 ^ 32 := (Nat.sub_le _ _).trans y.ebss.isLt.le
  rw [word, Ram.filled_word (hend.trans hlen), Nat.mul_succ]

theorem initialised (h : Placed ram y) (m : Ram) : Initialised y m (initialise y m) := by
  have hdata : ∀ {x}, x ∉ y.data → ¬ (x - y.sdata).toNat < y.dataSize :=
    fun hx hlt => hx ((sub_toNat_lt_iff h.data_le).mp hlt)
  have hbss : ∀ {x}, x ∉ y.bss → ¬ (x - y.sbss).toNat < y.bssSize :=
    fun hx hlt => hx ((sub_toNat_lt_iff h.bss_le).mp hlt)
  refine ⟨fun k hk => ?_, fun x hx => ?_, fun x hd hb => ?_⟩
  · have hsize : y.dataSize ≤ 2 ^ 32 := (Nat.sub_le _ _).trans y.edata.isLt.le
    have hlt : (y.sdata + BitVec.ofNat 32 k - y.sdata).toNat < y.dataSize := by
      rwa [Ram.toNat_add_ofNat_sub hk hsize]
    have hmem : y.sdata + BitVec.ofNat 32 k ∈ y.data := (sub_toNat_lt_iff h.data_le).mp hlt
    have hout : y.sdata + BitVec.ofNat 32 k ∉ y.bss := Set.disjoint_left.mp h.disjoint hmem
    rw [initialise, Ram.filled, if_neg (hbss hout), Ram.copied_add_ofNat hk hsize]
  · exact if_pos ((sub_toNat_lt_iff h.bss_le).mpr hx)
  · rw [initialise, Ram.filled, if_neg (hbss hb), Ram.copied, if_neg (hdata hd)]

end Placed

end Startup
