import Inmojomni.Chips
import Inmojomni.Mmio.Bus
import Mathlib.Tactic.FinCases

/-!
# The registers of a PIO block

Where the registers of a PIO block lie and which of their bits hold what is written. The four
state machines of a block have a group of registers each, and share CTRL and the instruction
memory.
-/

open Mmio

namespace Pio

/-- A register of a PIO block. -/
inductive Register
  | ctrl
  | fstat
  | txf (sm : Fin 4)
  | rxf (sm : Fin 4)
  | instrMem (i : Fin 32)
  | clkdiv (sm : Fin 4)
  | execctrl (sm : Fin 4)
  | shiftctrl (sm : Fin 4)
  | addr (sm : Fin 4)
  | instr (sm : Fin 4)
  | pinctrl (sm : Fin 4)
  deriving DecidableEq, Repr

namespace Register

/-- The offset of a register within its block. -/
def offset : Register → ℕ
  | ctrl => 0x000
  | fstat => 0x004
  | txf sm => 0x010 + 4 * sm
  | rxf sm => 0x020 + 4 * sm
  | instrMem i => 0x048 + 4 * i
  | clkdiv sm => 0x0C8 + 0x18 * sm + 0x0
  | execctrl sm => 0x0C8 + 0x18 * sm + 0x4
  | shiftctrl sm => 0x0C8 + 0x18 * sm + 0x8
  | addr sm => 0x0C8 + 0x18 * sm + 0xC
  | instr sm => 0x0C8 + 0x18 * sm + 0x10
  | pinctrl sm => 0x0C8 + 0x18 * sm + 0x14

/-- The bits that hold what is written: CTRL keeps the enable bits and not the restart
strobes, EXECCTRL all but the status bit 31, an instruction its 16 bits; the FIFOs, the
program counter and the instruction register hold nothing. -/
def kept : Register → Word
  | ctrl => 0xF
  | fstat | txf _ | rxf _ | addr _ | instr _ => 0
  | instrMem _ => 0xFFFF
  | execctrl _ => 0x7FFFFFFF
  | clkdiv _ | shiftctrl _ | pinctrl _ => BitVec.allOnes 32

/-- The bits that the hardware drives. -/
def status : Register → Word
  | fstat | rxf _ | addr _ | instr _ => BitVec.allOnes 32
  | execctrl _ => 0x80000000
  | _ => 0#32

/-- The registers of a block. -/
def all : List Register :=
  [ctrl, fstat] ++ (List.finRange 4).flatMap (fun sm => [txf sm, rxf sm, clkdiv sm, execctrl sm,
    shiftctrl sm, addr sm, instr sm, pinctrl sm]) ++ (List.finRange 32).map instrMem

theorem mem_all (r : Register) : r ∈ all := by
  cases r <;> simp [all]

/-- The register at an offset. -/
def ofOffset (n : ℕ) : Option Register := all.find? fun r => r.offset = n

theorem offset_lt (r : Register) : r.offset < 0x1000 := by
  cases r <;> simp only [offset] <;> omega

theorem offset_injective : Function.Injective offset := by
  intro r r' h
  cases r <;> cases r' <;> simp only [offset] at h <;> first
    | rfl
    | omega
    | exact congrArg _ (Fin.ext (by omega))

theorem ofOffset_offset (r : Register) : ofOffset r.offset = some r := by
  rw [ofOffset]
  rcases h : all.find? (fun r' => decide (r'.offset = r.offset)) with _ | r'
  · simpa using List.find?_eq_none.mp h r (mem_all r)
  · have hoff := List.find?_some (p := fun r' : Register => decide (r'.offset = r.offset)) h
    exact h.trans (congrArg some (offset_injective (of_decide_eq_true hoff)))

end Register

/-- A PIO block of a chip. -/
structure Block where
  chip : Chip
  index : Fin chip.numPioBlocks

namespace Block

/-- PIO0 of the RP2040. -/
def pio0 : Block := ⟨.rp2040, ⟨0, by decide⟩⟩

/-- Where the registers of the block begin. -/
def base (b : Block) : Word := b.chip.pio0Base + BitVec.ofNat 32 b.index * 0x100000

/-- The address of a register of the block. -/
def reg (b : Block) (r : Register) : Word := b.base + BitVec.ofNat 32 r.offset

/-- The PIO register at an address, if there is one. -/
def locate (c : Chip) (addr : Word) : Option Register :=
  if c.pio0Base.toNat ≤ addr.toNat ∧
      addr.toNat < c.pio0Base.toNat + c.numPioBlocks * 0x100000 then
    Register.ofOffset ((addr.toNat - c.pio0Base.toNat) % 0x100000)
  else none

theorem toNat_pio0Base (c : Chip) : c.pio0Base.toNat = 0x50200000 := by
  cases c <;> rfl

theorem index_le (b : Block) : (b.index : ℕ) ≤ 2 := by
  obtain ⟨c, i⟩ := b
  have hi := i.isLt
  cases c
  · exact Nat.le_of_lt hi
  · exact Nat.le_of_lt_succ hi

theorem toNat_base (b : Block) : b.base.toNat = 0x50200000 + b.index * 0x100000 := by
  have hi := b.index_le
  have hmul : (BitVec.ofNat 32 b.index * 0x100000 : Word).toNat = b.index * 0x100000 := by
    rw [BitVec.toNat_mul, BitVec.toNat_ofNat, show (0x100000 : Word).toNat = 0x100000 from rfl]
    omega
  rw [base, BitVec.toNat_add, hmul, toNat_pio0Base]
  omega

theorem toNat_reg (b : Block) (r : Register) :
    (b.reg r).toNat = 0x50200000 + b.index * 0x100000 + r.offset := by
  have hr := r.offset_lt
  have hi := b.index_le
  rw [reg, BitVec.toNat_add, BitVec.toNat_ofNat, toNat_base]
  omega

theorem reg_injective (b : Block) : Function.Injective b.reg := by
  intro r r' h
  have h' := congrArg BitVec.toNat h
  rw [toNat_reg, toNat_reg] at h'
  exact Register.offset_injective (by omega)

theorem locate_reg (b : Block) (r : Register) : locate b.chip (b.reg r) = some r := by
  have hr := r.offset_lt
  have hi := b.index.isLt
  have hmod : (0x50200000 + b.index * 0x100000 + r.offset - 0x50200000) % 0x100000 = r.offset := by
    omega
  rw [locate, toNat_reg, toNat_pio0Base, if_pos ⟨by omega, by omega⟩, hmod]
  exact r.ofOffset_offset

theorem plain_reg (b : Block) (r : Register) : Plain (b.reg r) := by
  have hr := r.offset_lt
  refine plain_of_toNat ?_
  rw [toNat_reg]
  omega

end Block

end Pio

/-- The registers of a chip: those of the PIO blocks, and others that keep every bit, but for
RESET_DONE. -/
def Chip.hardware (c : Chip) : Hardware where
  kept addr := match Pio.Block.locate c addr with
    | some r => r.kept
    | none => if addr = c.resetsResetDone then 0 else BitVec.allOnes 32
  status addr := match Pio.Block.locate c addr with
    | some r => r.status
    | none => if addr = c.resetsResetDone then BitVec.allOnes 32 else 0

namespace Chip

theorem plain_resets (c : Chip) : Plain c.resetsReset ∧ Plain c.resetsResetDone := by
  cases c <;> decide

theorem kept_resetsReset (c : Chip) : c.hardware.kept c.resetsReset = BitVec.allOnes 32 := by
  cases c <;> rfl

theorem status_resetsResetDone (c : Chip) :
    c.hardware.status c.resetsResetDone = BitVec.allOnes 32 := by
  cases c <;> rfl

end Chip

namespace Pio.Block

theorem kept_reg (b : Block) (r : Register) : b.chip.hardware.kept (b.reg r) = r.kept := by
  simp only [Chip.hardware, locate_reg]

theorem status_reg (b : Block) (r : Register) : b.chip.hardware.status (b.reg r) = r.status := by
  simp only [Chip.hardware, locate_reg]

end Pio.Block
