import Inmojomni.Chips

/-!
# GPIO driven through SIO

A pin is bound to its chip, with the number checked by type; all the register addresses come
from the chip. The electrical settings of the pad go through the atomic SET and CLR aliases,
without a read-modify-write.
-/

open Mmio

/-! Fields of a pad register. -/

namespace Pads

def slewfast : Word := 1 <<< 0

def schmitt : Word := 1 <<< 1

/-- Pull-down enable. -/
def pde : Word := 1 <<< 2

/-- Pull-up enable. -/
def pue : Word := 1 <<< 3

def driveLsb : ℕ := 4

def driveMask : Word := 0x3 <<< 4

/-- Input enable (reset: on). -/
def ie : Word := 1 <<< 6

/-- Output disable (overrides all). -/
def od : Word := 1 <<< 7

end Pads

/-- GPIO pin `n` of a chip. -/
structure Pin where
  chip : Chip
  n : Fin chip.numGpios

namespace Pin

def funcselSio : Word := 5

def functionPwm : Word := 4

/-- `Event.ALL`, the 4 event bits of a pin. -/
def eventAll : Word := 0xF

variable (p : Pin)

/-! ### Addressing helpers -/

def mask : Word := 1#32 <<< p.n.val

def ctrl : Word := p.chip.ioBank0Base + BitVec.ofNat 32 (8 * p.n + 4)

def pad : Word := p.chip.padsBank0Base + BitVec.ofNat 32 (4 + 4 * p.n)

def intr : Word := p.chip.ioBank0Base + 0xF0 + BitVec.ofNat 32 (4 * (p.n / 8))

def eventShift : ℕ := 4 * (p.n % 8)

def inte : Word := p.chip.ioBank0Base + 0x100 + BitVec.ofNat 32 (4 * (p.n / 8))

def ints : Word := p.chip.ioBank0Base + 0x120 + BitVec.ofNat 32 (4 * (p.n / 8))

/-! ### Function select -/

def setFunction (f : Word) : Firmware Unit := write32 p.ctrl f

def getFunction : Firmware Word := do
  return (← read32 p.ctrl) &&& 0x1F

/-- A new pin belongs to SIO. -/
def construct : Firmware Unit := p.setFunction funcselSio

/-! ### Pad electrical control -/

def pullUp : Firmware Unit := do
  write32Set p.pad Pads.pue
  write32Clr p.pad Pads.pde

def pullDown : Firmware Unit := do
  write32Set p.pad Pads.pde
  write32Clr p.pad Pads.pue

def pullNone : Firmware Unit := write32Clr p.pad (Pads.pue ||| Pads.pde)

/-- Weakly hold the last driven level (PUE+PDE together). -/
def busKeep : Firmware Unit := write32Set p.pad (Pads.pue ||| Pads.pde)

/-- Two atomic ops: the pad passes through the weaker setting in between. -/
def setDrive (strength : Word) : Firmware Unit := do
  write32Clr p.pad Pads.driveMask
  write32Set p.pad ((strength <<< Pads.driveLsb) &&& Pads.driveMask)

def schmitt (enable : Bool) : Firmware Unit :=
  if enable then write32Set p.pad Pads.schmitt else write32Clr p.pad Pads.schmitt

def slewFast (enable : Bool) : Firmware Unit :=
  if enable then write32Set p.pad Pads.slewfast else write32Clr p.pad Pads.slewfast

def inputEnable (enable : Bool) : Firmware Unit :=
  if enable then write32Set p.pad Pads.ie else write32Clr p.pad Pads.ie

/-- Hard-disable the pad driver (overrides SIO output enable). -/
def outputDisable (disable : Bool) : Firmware Unit :=
  if disable then write32Set p.pad Pads.od else write32Clr p.pad Pads.od

/-- Raw pad register. -/
def padConfig : Firmware Word := read32 p.pad

/-! ### Direction -/

def makeOutput : Firmware Unit := do
  write32 p.chip.sioGpioOeSet p.mask
  -- RP2350 only: cleared last, so that the pad connects once the output is configured
  if p.chip.hasPadIso then write32Clr p.pad (1#32 <<< 8) else return ()

def makeInput : Firmware Unit := do
  write32 p.chip.sioGpioOeClr p.mask
  p.inputEnable true

def isOutput : Firmware Bool := do
  return decide ((← read32 p.chip.sioGpioOe) &&& p.mask ≠ 0)

/-! ### Levels -/

def high : Firmware Unit := write32 p.chip.sioGpioOutSet p.mask

def low : Firmware Unit := write32 p.chip.sioGpioOutClr p.mask

def toggle : Firmware Unit := write32 p.chip.sioGpioOutXor p.mask

def write (level : Bool) : Firmware Unit := if level then p.high else p.low

/-- What we are driving, not what the pad sees. -/
def readOutput : Firmware Bool := do
  return decide ((← read32 p.chip.sioGpioOut) &&& p.mask ≠ 0)

/-- The actual pad state. -/
def read : Firmware Bool := do
  return decide ((← read32 p.chip.sioGpioIn) &&& p.mask ≠ 0)

/-! ### Events -/

/-- Current event bits of this pin. -/
def events : Firmware Word := do
  return ((← read32 p.intr) >>> p.eventShift) &&& eventAll

/-- Clear latched edge events. -/
def ackEvents (mask : Word) : Firmware Unit :=
  write32 p.intr ((mask &&& eventAll) <<< p.eventShift)

/-- Route event bits to IO_IRQ_BANK0. -/
def irqEnable (mask : Word) : Firmware Unit :=
  write32Set p.inte ((mask &&& eventAll) <<< p.eventShift)

def irqDisable (mask : Word) : Firmware Unit :=
  write32Clr p.inte ((mask &&& eventAll) <<< p.eventShift)

/-- Event bits that currently assert IO_IRQ_BANK0. -/
def irqStatus : Firmware Word := do
  return ((← read32 p.ints) >>> p.eventShift) &&& eventAll

end Pin
