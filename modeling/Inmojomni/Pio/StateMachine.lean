import Inmojomni.Pio.Asm
import Inmojomni.Pio.Registers

/-!
# State machines

The driver of one state machine of a PIO block, as firmware: every method is the sequence of
register reads and writes it makes.
-/

open Mmio

namespace Pio

/-! Register offsets within a PIO block. -/

def ctrlOffset : Word := 0x000
def fstatOffset : Word := 0x004
def txf0Offset : Word := 0x010
def rxf0Offset : Word := 0x020
def instrMem0Offset : Word := 0x048
def sm0ClkdivOffset : Word := 0x0C8
def smStride : Word := 0x18

/-! Offsets within one state machine's register group. -/

def clkdivOffset : Word := 0x0
def execctrlOffset : Word := 0x4
def addrOffset : Word := 0xC
def instrOffset : Word := 0x10
def pinctrlOffset : Word := 0x14

/-- State machine `sm` of a PIO block: the indices the driver asserts at compile time are in
range by type. -/
structure StateMachine where
  block : Block
  sm : Fin 4

namespace StateMachine

variable (m : StateMachine)

/-- The number of the state machine, as a word. -/
def smWord : Word := BitVec.ofNat 32 m.sm

/-- Release the PIO block from reset (idempotent). -/
def construct : Firmware Unit := do
  let resetMask := 1#32 <<< (m.block.chip.resetPio0Shift + m.block.index)
  write32Clr m.block.chip.resetsReset resetMask
  let _ ← Effect.Prog.poll (Op.read32 m.block.chip.resetsResetDone) fun (r : Word) =>
    r &&& resetMask ≠ 0
  pure ()

def base : Word := m.block.chip.pio0Base + BitVec.ofNat 32 m.block.index * 0x100000

def smReg (offset : Word) : Word := m.base + sm0ClkdivOffset + m.smWord * smStride + offset

/-- `EXECCTRL` as `load` writes it: WRAP_TOP = last instruction, WRAP_BOTTOM = 0, SIDE_EN
(bit 30) when side-set is optional, SIDE_PINDIR (29). -/
def loadExecctrl (program : Asm) : Word :=
  let top : Word := BitVec.ofInt 32 ((program.len : ℤ) - 1) &&& 0x1F
  let exec := top <<< 12
  let exec := if program.sideOpt then exec ||| (1#32 <<< 30) else exec
  if program.sidePindirs then exec ||| (1#32 <<< 29) else exec

/-- `PINCTRL` as `load` writes it back. SIDESET_COUNT includes the enable bit when optional. -/
def loadPinctrl (program : Asm) (cur : Word) : Word :=
  let sBits : Word := BitVec.ofInt 32 (Asm.sBits program.sideCount program.sideOpt)
  (cur &&& ~~~(7#32 <<< 29)) ||| (sBits <<< 29)

/-- Copy the program into instruction memory, wrap around it, and configure the side-set mode
the program was written for. -/
def load (program : Asm) : Firmware Unit := do
  Effect.Prog.forRange (fun i => write32 (m.base + instrMem0Offset + BitVec.ofNat 32 (i * 4))
    ((program.code[i]?.getD 0).setWidth 32)) 0 program.len
  write32 (m.smReg execctrlOffset) (loadExecctrl program)
  let cur ← read32 (m.smReg pinctrlOffset)
  write32 (m.smReg pinctrlOffset) (loadPinctrl program cur)

/-- SM clock = clk_sys / (int_part + frac/256). -/
def setClkdiv (intPart frac : Word) : Firmware Unit :=
  write32 (m.smReg clkdivOffset) ((intPart <<< 16) ||| ((frac &&& 0xFF) <<< 8))

/-- Which pins SET instructions drive (base pin + count). -/
def setSetPins (base count : ℤ) : Firmware Unit := do
  let cur ← read32 (m.smReg pinctrlOffset)
  let mask := (7#32 <<< 26) ||| (0x1F#32 <<< 5)
  let v := (cur &&& ~~~mask) ||| (BitVec.ofInt 32 (Int.land count 0x7) <<< 26) |||
    (BitVec.ofInt 32 (Int.land base 0x1F) <<< 5)
  write32 (m.smReg pinctrlOffset) v

def setOutPins (base count : ℤ) : Firmware Unit := do
  let cur ← read32 (m.smReg pinctrlOffset)
  let v := (cur &&& ~~~0x3F0001F#32) ||| (BitVec.ofInt 32 (Int.land count 0x3F) <<< 20) |||
    BitVec.ofInt 32 (Int.land base 0x1F)
  write32 (m.smReg pinctrlOffset) v

/-- Absolute GPIO that `jmp_pin` tests (EXECCTRL.JMP_PIN). -/
def setJmpPin (gpio : ℤ) : Firmware Unit := do
  let reg := m.smReg execctrlOffset
  let cur ← read32 reg
  write32 reg ((cur &&& ~~~(0x1F#32 <<< 24)) ||| (BitVec.ofInt 32 (Int.land gpio 0x1F) <<< 24))

/-- Base pin for side-set. -/
def setSidesetPins (base : ℤ) : Firmware Unit := do
  let cur ← read32 (m.smReg pinctrlOffset)
  let v := (cur &&& ~~~(0x1F#32 <<< 10)) ||| (BitVec.ofInt 32 (Int.land base 0x1F) <<< 10)
  write32 (m.smReg pinctrlOffset) v

/-- Execute one instruction immediately. -/
def exec (instr : BitVec 16) : Firmware Unit :=
  write32 (m.smReg instrOffset) (instr.setWidth 32)

def enable : Firmware Unit := do
  let ctrl := m.base + ctrlOffset
  write32 ctrl ((← read32 ctrl) ||| (1#32 <<< m.smWord))

def disable : Firmware Unit := do
  let ctrl := m.base + ctrlOffset
  write32 ctrl ((← read32 ctrl) &&& ~~~(1#32 <<< m.smWord))

def restart : Firmware Unit := do
  let ctrl := m.base + ctrlOffset
  write32 ctrl ((← read32 ctrl) ||| (1#32 <<< (m.smWord + 4)))

def txPush (value : Word) : Firmware Unit :=
  write32 (m.base + txf0Offset + BitVec.ofNat 32 (m.sm * 4)) value

/-- FSTAT.RXEMPTY for this state machine. -/
def rxEmpty : Firmware Bool := do
  let fstat ← read32 (m.base + fstatOffset)
  pure (decide ((fstat >>> (8 + m.smWord)) &&& 1 ≠ 0))

/-- Pop one word from the RX FIFO. -/
def rxPull : Firmware Word := read32 (m.base + rxf0Offset + BitVec.ofNat 32 (m.sm * 4))

/-- Current program counter of the state machine. -/
def pc : Firmware Word := do
  let addr ← read32 (m.smReg addrOffset)
  pure (addr &&& 0x1F)

/-! ### The addresses -/

theorem toNat_base : m.base.toNat = 0x50200000 + m.block.index * 0x100000 := m.block.toNat_base

/-- The registers of the group of a state machine. -/
theorem toNat_smReg {offset : Word} (h : offset.toNat ≤ 0x14) :
    (m.smReg offset).toNat = m.base.toNat + (0xC8 + 0x18 * m.sm + offset.toNat) := by
  have hi := m.block.index_le
  have hs := m.sm.isLt
  have hmul : (m.smWord * smStride).toNat = 0x18 * m.sm := by
    rw [smWord, BitVec.toNat_mul, BitVec.toNat_ofNat, show smStride.toNat = 0x18 from rfl]
    omega
  rw [smReg, BitVec.toNat_add, BitVec.toNat_add, BitVec.toNat_add, hmul, toNat_base,
    show sm0ClkdivOffset.toNat = 0xC8 from rfl]
  omega

theorem smReg_eq {offset : Word} {r : Register} (h : offset.toNat ≤ 0x14)
    (hr : r.offset = 0xC8 + 0x18 * m.sm + offset.toNat) : m.smReg offset = m.block.reg r := by
  refine BitVec.eq_of_toNat_eq ?_
  rw [toNat_smReg m h, Block.toNat_reg, toNat_base, hr]

@[simp] theorem smReg_clkdiv : m.smReg clkdivOffset = m.block.reg (.clkdiv m.sm) :=
  smReg_eq m (by decide) rfl

@[simp] theorem smReg_execctrl : m.smReg execctrlOffset = m.block.reg (.execctrl m.sm) :=
  smReg_eq m (by decide) rfl

@[simp] theorem smReg_addr : m.smReg addrOffset = m.block.reg (.addr m.sm) :=
  smReg_eq m (by decide) rfl

@[simp] theorem smReg_instr : m.smReg instrOffset = m.block.reg (.instr m.sm) :=
  smReg_eq m (by decide) rfl

@[simp] theorem smReg_pinctrl : m.smReg pinctrlOffset = m.block.reg (.pinctrl m.sm) :=
  smReg_eq m (by decide) rfl

@[simp] theorem base_ctrl : m.base + ctrlOffset = m.block.reg .ctrl := rfl

@[simp] theorem base_fstat : m.base + fstatOffset = m.block.reg .fstat := rfl

/-- The arrays of registers: one word each, from an offset on. -/
theorem base_array {offset : Word} {r : Register} {i : ℕ} (h : offset.toNat ≤ 0x48) (hi : i < 32)
    (hr : r.offset = offset.toNat + 4 * i) :
    m.base + offset + BitVec.ofNat 32 (i * 4) = m.block.reg r := by
  have hb := m.block.index_le
  refine BitVec.eq_of_toNat_eq ?_
  rw [BitVec.toNat_add, BitVec.toNat_add, BitVec.toNat_ofNat, toNat_base, Block.toNat_reg, hr]
  omega

@[simp] theorem base_txf :
    m.base + txf0Offset + BitVec.ofNat 32 (m.sm * 4) = m.block.reg (.txf m.sm) :=
  base_array m (by decide) (by omega) rfl

@[simp] theorem base_rxf :
    m.base + rxf0Offset + BitVec.ofNat 32 (m.sm * 4) = m.block.reg (.rxf m.sm) :=
  base_array m (by decide) (by omega) rfl

theorem base_instrMem {i : ℕ} (h : i < 32) :
    m.base + instrMem0Offset + BitVec.ofNat 32 (i * 4) = m.block.reg (.instrMem ⟨i, h⟩) :=
  base_array m (by decide) h rfl

end StateMachine

end Pio
