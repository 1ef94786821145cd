import Inmojomni.Bits
import Inmojomni.Mmio
import Mathlib.Logic.Function.Basic

/-!
# A register file on the bus

The registers of the peripherals, as the RP2040 datasheet describes them (§2.1.2): bits 13:12
of an address select how a write combines with the register at the address without them, so
that a plain store, and the atomic XOR, SET and CLR of bits, are one access each.

A register keeps the bits of `Hardware.kept` as they are written. Bits of `Hardware.status`
are driven by the hardware and read as anything; what is neither reads as zero, such as a
strobe that clears itself. Reads have no effect on the registers: a FIFO behind a data
register is not part of this model.
-/

namespace Mmio

/-- What the registers of a chip keep, and what its hardware drives. -/
structure Hardware where
  kept : Word → Word
  status : Word → Word

/-- The contents of the registers, by address. -/
abbrev Regs := Word → Word

/-- The address of the register that an access goes to. -/
def register (addr : Word) : Word := addr &&& ~~~0x3000

/-- What a write of `v` makes of the register contents `old`. -/
def combine (addr old v : Word) : Word :=
  if addr &&& 0x3000 = xorAlias then old ^^^ v
  else if addr &&& 0x3000 = setAlias then old ||| v
  else if addr &&& 0x3000 = clrAlias then old &&& ~~~v
  else v

/-- The registers after a write. -/
def Regs.write (hw : Hardware) (s : Regs) (addr v : Word) : Regs :=
  Function.update s (register addr) (combine addr (s (register addr)) v &&& hw.kept (register addr))

/-- A byte store reaches a register as four copies of the byte. -/
def replicate (v : Byte) : Word := v ++ v ++ v ++ v

/-- How an operation is answered and what it does to the registers. -/
def Hardware.access (hw : Hardware) : (e : Op) → Regs → e.Answer → Regs → Prop
  | .read32 addr, s, (r : Word), s' =>
    s' = s ∧ r &&& ~~~hw.status (register addr) = s (register addr) &&& ~~~hw.status (register addr)
  | .write32 addr v, s, _, s' => s' = s.write hw addr v
  | .read8 _, s, _, s' => s' = s
  | .write8 addr v, s, _, s' => s' = s.write hw addr (replicate v)
  | .external _, s, _, s' => s' = s

/-- An address that goes through no alias. -/
def Plain (addr : Word) : Prop := addr &&& 0x3000 = 0

instance (addr : Word) : Decidable (Plain addr) := inferInstanceAs (Decidable (_ = _))

section Aliases

variable {addr : Word}

theorem plain_of_toNat (h : addr.toNat / 0x1000 % 4 = 0) : Plain addr := by
  have h12 : addr.getLsbD 12 = false := by
    rw [BitVec.getLsbD, Nat.testBit_eq_decide_div_mod_eq, decide_eq_false_iff_not]
    omega
  have h13 : addr.getLsbD 13 = false := by
    rw [BitVec.getLsbD, Nat.testBit_eq_decide_div_mod_eq, decide_eq_false_iff_not]
    omega
  have hmask : ∀ i < 32, i = 12 ∨ i = 13 ∨ (0x3000 : Word).getLsbD i = false := by decide
  refine BitVec.eq_of_getLsbD_eq fun i hi => ?_
  rw [BitVec.getLsbD_and]
  rcases hmask i hi with rfl | rfl | hm
  · rw [h12, Bool.false_and]
    rfl
  · rw [h13, Bool.false_and]
    rfl
  · rw [hm, Bool.and_false]
    exact BitVec.getLsbD_zero.symm

theorem Plain.register_eq (h : Plain addr) : register addr = addr :=
  BitVec.and_not_of_and_eq_zero h

/-- The aliases of a register lie within 16 KB. -/
theorem toNat_register_div (addr : Word) : (register addr).toNat / 0x4000 = addr.toNat / 0x4000 := by
  have hmask : ∀ i < 18, (~~~(0x3000 : Word)).getLsbD (14 + i) = true := by decide
  have hshift : register addr >>> 14 = addr >>> 14 := by
    refine BitVec.eq_of_getLsbD_eq fun i _ => ?_
    rw [BitVec.getLsbD_ushiftRight, BitVec.getLsbD_ushiftRight, register, BitVec.getLsbD_and]
    rcases Nat.lt_or_ge i 18 with hi | hi
    · rw [hmask i hi, Bool.and_true]
    · rw [BitVec.getLsbD_of_ge addr _ (by omega), Bool.false_and]
  have hnat := congrArg BitVec.toNat hshift
  rwa [BitVec.toNat_ushiftRight, BitVec.toNat_ushiftRight, Nat.shiftRight_eq_div_pow,
    Nat.shiftRight_eq_div_pow] at hnat

theorem Plain.combine_eq (h : Plain addr) (old v : Word) : combine addr old v = v := by
  rw [combine, h]
  rfl

/-- Adding an alias to a plain address goes to the same register. -/
theorem Plain.register_add (h : Plain addr) {l : Word} (hl : l &&& ~~~0x3000 = 0) :
    register (addr + l) = addr :=
  BitVec.add_and_not_of_disjoint h hl

theorem Plain.combine_set (h : Plain addr) (old v : Word) :
    combine (addr + setAlias) old v = old ||| v := by
  rw [combine, BitVec.add_and_of_disjoint h (by decide)]
  rfl

theorem Plain.combine_clr (h : Plain addr) (old v : Word) :
    combine (addr + clrAlias) old v = old &&& ~~~v := by
  rw [combine, BitVec.add_and_of_disjoint h (by decide)]
  rfl

end Aliases

namespace Regs

variable {hw : Hardware} {s : Regs} {addr v : Word}

/-- A store to the register itself, through no alias. -/
theorem write_plain (h : Plain addr) :
    s.write hw addr v = Function.update s addr (v &&& hw.kept addr) := by
  rw [write, h.register_eq, h.combine_eq]

/-- An atomic clear. -/
theorem write_clr (h : Plain addr) :
    s.write hw (addr + clrAlias) v
      = Function.update s addr ((s addr &&& ~~~v) &&& hw.kept addr) := by
  have hreg := h.register_add (l := clrAlias) (by decide)
  rw [write, hreg, h.combine_clr]

/-- An atomic set. -/
theorem write_set (h : Plain addr) :
    s.write hw (addr + setAlias) v = Function.update s addr ((s addr ||| v) &&& hw.kept addr) := by
  have hreg := h.register_add (l := setAlias) (by decide)
  rw [write, hreg, h.combine_set]

end Regs

/-! ### Executions on the register file -/

section Exec

variable {hw : Hardware} {s s' : Regs} {addr v : Word} {u : Unit}

theorem exec_write :
    Effect.Exec hw.access (write32 addr v) s u s' ↔ s' = s.write hw addr v := by
  refine Effect.exec_op.trans ⟨?_, fun hs => ⟨(), s', hs, Effect.exec_ret.mpr ⟨rfl, rfl⟩⟩⟩
  rintro ⟨r, t, ht, hr⟩
  rw [(Effect.exec_ret.mp hr).2]
  exact ht

/-- A store goes to its register. -/
theorem exec_write32 (h : Plain addr) :
    Effect.Exec hw.access (write32 addr v) s u s' ↔
      s' = Function.update s addr (v &&& hw.kept addr) := by
  rw [exec_write, Regs.write_plain h]

theorem exec_write32Clr (h : Plain addr) :
    Effect.Exec hw.access (write32Clr addr v) s u s' ↔
      s' = Function.update s addr ((s addr &&& ~~~v) &&& hw.kept addr) := by
  rw [write32Clr, exec_write, Regs.write_clr h]

/-- A load answers the register, up to the bits the hardware drives. -/
theorem exec_read32 (h : Plain addr) {r : Word} :
    Effect.Exec hw.access (read32 addr) s r s' ↔
      s' = s ∧ r &&& ~~~hw.status addr = s addr &&& ~~~hw.status addr := by
  refine Effect.exec_op.trans ⟨?_, fun hs => ⟨r, s', ?_, Effect.exec_ret.mpr ⟨rfl, rfl⟩⟩⟩
  · rintro ⟨q, t, ⟨rfl, hq⟩, hr⟩
    obtain ⟨rfl, rfl⟩ := Effect.exec_ret.mp hr
    rw [h.register_eq] at hq
    exact ⟨rfl, hq⟩
  · refine ⟨hs.1, ?_⟩
    rw [h.register_eq]
    exact hs.2

/-- Polling a register leaves the registers alone. -/
theorem exec_poll {done : Word → Bool} {r : Word}
    (hs : Effect.Exec hw.access (Effect.Prog.poll (Op.read32 addr) done) s r s') : s' = s := by
  refine Effect.Exec.loop_inv (I := fun _ t => t = s) (J := fun _ t => t = s) ?_ rfl hs
  rintro b t r t' rfl hr
  obtain ⟨q, t₁, ht₁, hret⟩ := Effect.exec_op.mp hr
  obtain ⟨rfl, rfl⟩ := Effect.exec_ret.mp hret
  rw [ht₁.1]
  cases done q <;> rfl

/-- A poll can end at once when the register may read as something that passes. -/
theorem exec_poll_of_done (h : Plain addr) {done : Word → Bool} {r : Word} (hd : done r = true)
    (hr : r &&& ~~~hw.status addr = s addr &&& ~~~hw.status addr) :
    Effect.Exec hw.access (Effect.Prog.poll (Op.read32 addr) done) s r s := by
  refine Effect.exec_iter.mpr (Effect.exec_bind.mpr ⟨.inr r, s, ?_, Effect.exec_ret.mpr ⟨rfl, rfl⟩⟩)
  refine Effect.exec_op.mpr ⟨r, s, ⟨rfl, ?_⟩, Effect.exec_ret.mpr ⟨?_, rfl⟩⟩
  · rw [h.register_eq]
    exact hr
  · rw [if_pos hd]

/-- Reading a register and writing back a function of it, where the write forgets the bits
the hardware drives. -/
theorem exec_modify (h : Plain addr) {f : Word → Word}
    (hf : ∀ r r', r &&& ~~~hw.status addr = r' &&& ~~~hw.status addr →
      f r &&& hw.kept addr = f r' &&& hw.kept addr) :
    Effect.Exec hw.access ((read32 addr).bind fun cur => write32 addr (f cur)) s u s' ↔
      s' = Function.update s addr (f (s addr) &&& hw.kept addr) := by
  rw [Effect.exec_bind]
  refine ⟨?_, fun hs => ⟨s addr, s, (exec_read32 h).mpr ⟨rfl, rfl⟩, (exec_write32 h).mpr hs⟩⟩
  rintro ⟨r, t, hr, hw'⟩
  obtain ⟨rfl, hr⟩ := (exec_read32 h).mp hr
  rw [(exec_write32 h).mp hw', hf r (t addr) hr]

end Exec

/-- Every operation has an answer. -/
theorem Hardware.total (hw : Hardware) (e : Op) (s : Regs) : ∃ r s', hw.access e s r s' := by
  cases e with
  | read32 addr => exact ⟨s (register addr), s, rfl, rfl⟩
  | write32 addr v => exact ⟨(), _, rfl⟩
  | read8 addr => exact ⟨0#8, s, rfl⟩
  | write8 addr v => exact ⟨(), _, rfl⟩
  | external f => cases f <;> first | exact ⟨(), s, rfl⟩ | exact ⟨0#32, s, rfl⟩

/-- One context alone on the bus. -/
def Hardware.machine (hw : Hardware) : Effect.Machine Unit Op.Answer Regs where
  access _ := hw.access

/-! ### Blocks of registers -/

/-- The registers after storing `v i` at `addr i` for each `i` of a list in order. -/
def Regs.storeAll (addr v : ℕ → Word) (s : Regs) (is : List ℕ) : Regs :=
  is.foldl (fun s i => Function.update s (addr i) (v i)) s

section StoreAll

variable {addr v : ℕ → Word}

theorem Regs.storeAll_of_ne {a : Word} {is : List ℕ} (h : ∀ i ∈ is, a ≠ addr i) (s : Regs) :
    s.storeAll addr v is a = s a := by
  induction is generalizing s with
  | nil => rfl
  | cons i is ih =>
    obtain ⟨hi, his⟩ := List.forall_mem_cons.mp h
    exact (ih his _).trans (Function.update_of_ne hi _ _)

theorem Regs.storeAll_mem {is : List ℕ} (hinj : ∀ i ∈ is, ∀ j ∈ is, addr i = addr j → i = j)
    {i : ℕ} (hi : i ∈ is) (s : Regs) : s.storeAll addr v is (addr i) = v i := by
  induction is generalizing s with
  | nil => simp at hi
  | cons j is ih =>
    have hinj' : ∀ i ∈ is, ∀ j ∈ is, addr i = addr j → i = j := fun i hi j hj =>
      hinj i (List.mem_cons_of_mem _ hi) j (List.mem_cons_of_mem _ hj)
    by_cases hmem : i ∈ is
    · exact ih hinj' hmem _
    · obtain rfl : i = j := by simpa [hmem] using hi
      have hne : ∀ k ∈ is, addr i ≠ addr k := fun k hk hik =>
        hmem (by rwa [hinj i hi k (List.mem_cons_of_mem _ hk) hik])
      exact (Regs.storeAll_of_ne hne _).trans (Function.update_self _ _ _)

/-- A loop of stores. -/
theorem exec_storeAll {hw : Hardware} {s s' : Regs} {u : Unit} {start n : ℕ}
    (h : ∀ i, start ≤ i → i < start + n → Plain (addr i) ∧ v i &&& hw.kept (addr i) = v i) :
    Effect.Exec hw.access (Effect.Prog.forRange (fun i => write32 (addr i) (v i)) start n) s u s' ↔
      s' = s.storeAll addr v (List.range' start n) := by
  induction n generalizing start s with
  | zero => simp [Effect.Prog.forRange, Regs.storeAll]
  | succ n ih =>
    obtain ⟨hp, hk⟩ := h start le_rfl (by omega)
    have ih : ∀ t : Regs, Effect.Exec hw.access (Effect.Prog.forRange
        (fun i => write32 (addr i) (v i)) (start + 1) n) t u s' ↔
        s' = t.storeAll addr v (List.range' (start + 1) n) :=
      fun t => ih fun i hi hi' => h i (by omega) (by omega)
    rw [Effect.Prog.forRange, Effect.exec_bind, List.range'_succ, Regs.storeAll, List.foldl_cons]
    constructor
    · rintro ⟨_, t, hw', hr⟩
      rw [exec_write32 hp, hk] at hw'
      rw [hw'] at hr
      exact (ih _).mp hr
    · exact fun hs => ⟨(), _, (exec_write32 hp).mpr (by rw [hk]), (ih _).mpr hs⟩

end StoreAll

end Mmio
